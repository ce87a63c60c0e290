import ModelFinder.Proofs.Circuit.Relational

/-! Repeated squaring reaches the transitive closure. Squaring doubles the length of the paths that
are covered, and a path never has to leave the same point twice, so paths as long as there are points
to leave from are long enough. -/
namespace ModelFinder

def Path (r : Nat → Nat → Prop) : Nat → Nat → Nat → Prop
  | 0, x, y => x = y
  | steps + 1, x, y => ∃ z, r x z ∧ Path r steps z y

namespace Path

variable {r : Nat → Nat → Prop} {x y z : Nat}

theorem mono {larger : Nat → Nat → Prop} (contained : ∀ x y, r x y → larger x y) {steps : Nat}
    (path : Path r steps x y) : Path larger steps x y := by
  induction steps generalizing x with
  | zero => exact path
  | succ steps ih =>
    obtain ⟨z, first, rest⟩ := path
    exact ⟨z, contained x z first, ih rest⟩

theorem transGen {steps : Nat} (path : Path r (steps + 1) x y) : Relation.TransGen r x y := by
  induction steps generalizing x with
  | zero =>
    obtain ⟨z, first, rfl⟩ := path
    exact .single first
  | succ steps ih =>
    obtain ⟨z, first, rest⟩ := path
    exact .head first (ih rest)

/-- The last time that a path leaves its start it never comes back to it. -/
theorem leave_once (path : Relation.TransGen r x y) :
    ∃ z, r x z ∧ Relation.ReflTransGen (fun a b => r a b ∧ a ≠ x) z y := by
  induction path with
  | single first => exact ⟨_, first, .refl⟩
  | @tail b c _ last ih =>
    obtain ⟨z, first, rest⟩ := ih
    by_cases back : b = x
    · exact ⟨c, back ▸ last, .refl⟩
    · exact ⟨z, first, rest.tail ⟨last, back⟩⟩

/-- Where points can be left only if they are listed, a path needs no more steps than the list is
long. -/
theorem exists_le_length {sources : List Nat} (listed : ∀ x y, r x y → x ∈ sources)
    (path : Relation.TransGen r x y) : ∃ l, 1 ≤ l ∧ l ≤ sources.length ∧ Path r l x y := by
  induction bound : sources.length generalizing sources r x with
  | zero =>
    obtain ⟨z, first, -⟩ := leave_once path
    have member := listed x z first
    rw [List.length_eq_zero_iff.mp bound] at member
    cases member
  | succ length ih =>
    obtain ⟨z, first, rest⟩ := leave_once path
    rcases Relation.reflTransGen_iff_eq_or_transGen.mp rest with rfl | rest
    · exact ⟨1, by omega, by omega, _, first, rfl⟩
    · have fewer : (sources.erase x).length = length := by
        rw [List.length_erase_of_mem (listed x z first), bound, Nat.add_sub_cancel]
      have remaining : ∀ a b, r a b ∧ a ≠ x → a ∈ sources.erase x :=
        fun a b step => (List.mem_erase_of_ne step.2).mpr (listed a b step.1)
      obtain ⟨l, -, short, found⟩ := ih remaining rest fewer
      exact ⟨l + 1, by omega, by omega, z, first, found.mono fun a b step => step.1⟩

/-- A relation with its compositions has the paths of half the length. -/
theorem double (steps : Nat) :
    (∃ l, 1 ≤ l ∧ l ≤ steps ∧ Path (fun a b => r a b ∨ ∃ m, r a m ∧ r m b) l x y) ↔
      ∃ l, 1 ≤ l ∧ l ≤ 2 * steps ∧ Path r l x y := by
  constructor
  · rintro ⟨l, positive, short, path⟩
    have longer : ∃ l', l ≤ l' ∧ l' ≤ 2 * l ∧ Path r l' x y := by
      clear positive short
      induction l generalizing x with
      | zero => exact ⟨0, Nat.le_refl 0, Nat.le_refl 0, path⟩
      | succ l ih =>
        obtain ⟨z, first, rest⟩ := path
        obtain ⟨l', lower, upper, rest⟩ := ih rest
        rcases first with first | ⟨m, first, second⟩
        · exact ⟨l' + 1, by omega, by omega, z, first, rest⟩
        · exact ⟨l' + 2, by omega, by omega, m, first, z, second, rest⟩
    obtain ⟨l', lower, upper, path⟩ := longer
    exact ⟨l', by omega, by omega, path⟩
  · rintro ⟨l, positive, short, path⟩
    refine ⟨(l + 1) / 2, by omega, by omega, ?_⟩
    clear positive short
    induction l using Nat.twoStepInduction generalizing x with
    | zero => exact path
    | one =>
      obtain ⟨z, first, rest⟩ := path
      exact ⟨z, .inl first, rest⟩
    | more l ih _ =>
      obtain ⟨m, first, z, second, rest⟩ := path
      rw [show (l + 2 + 1) / 2 = (l + 1) / 2 + 1 by omega]
      exact ⟨z, .inr ⟨m, first, second⟩, ih rest⟩

end Path

namespace Matrix

variable {c : Circuit} {s : Nat → Bool} {m : Matrix} {n : Nat} {P : List Nat → Prop}

def paths (P : List Nat → Prop) (steps : Nat) (t : List Nat) : Prop :=
  ∃ x y, (∃ l, 1 ≤ l ∧ l ≤ steps ∧ Path (fun x y => P [x, y]) l x y) ∧ t = [x, y]

theorem denote_join_pairs (meant : m.Denotes n 2 c s P) (x y : Nat) :
    BinaryOp.denote P P .join [x, y] ↔ ∃ z, P [x, z] ∧ P [z, y] := by
  constructor
  · rintro ⟨front, z, back, first, second, same⟩
    obtain ⟨frontSize, -⟩ := meant.fits first
    obtain ⟨backSize, -⟩ := meant.fits second
    obtain ⟨x', rfl⟩ := List.length_eq_one_iff.mp (by simpa using frontSize : front.length = 1)
    obtain ⟨y', rfl⟩ := List.length_eq_one_iff.mp (by simpa using backSize : back.length = 1)
    obtain ⟨rfl, rfl⟩ : x = x' ∧ y = y' := by simpa using same
    exact ⟨z, first, second⟩
  · rintro ⟨z, first, second⟩
    exact ⟨[x], z, [y], first, second, rfl⟩

theorem square_ensures (positive : 0 < n) (times : Nat) (sound : c.Sound)
    (meant : m.Denotes n 2 c s P) :
    Build.Ensures (square times m) c fun r d => r.Denotes n 2 d s (paths P (2 ^ times)) := by
  induction times generalizing m c P with
  | zero =>
    refine Build.ensures_pure sound (meant.congr fun t => ?_)
    constructor
    · intro member
      obtain ⟨x, y, rfl, -, -⟩ := meant.pair member
      exact ⟨x, y, ⟨1, by simp, by simp, y, member, rfl⟩, rfl⟩
    · rintro ⟨x, y, ⟨l, lower, upper, path⟩, rfl⟩
      obtain rfl : l = 1 := by omega
      obtain ⟨z, first, rfl⟩ := path
      exact first
  | succ times ih =>
    unfold square
    refine Build.Ensures.bind (join_ensures (k := 1) (l := 1) positive sound meant meant) (by simp)
      (by simp) ?_
    intro composed d grown reached composition
    refine Build.Ensures.bind (union_ensures reached (meant.of_le grown) composition) (by simp)
      (by simp) ?_
    intro both e _ final either
    refine (ih final either).imp fun r f _ denotes => denotes.congr fun t => ?_
    have step : (fun x y => BinaryOp.denote P (BinaryOp.denote P P .join) .union [x, y]) =
        fun x y => P [x, y] ∨ ∃ z, P [x, z] ∧ P [z, y] := by
      funext x y
      rw [BinaryOp.denote, denote_join_pairs meant]
    simp only [paths, step, Path.double, pow_succ, Nat.mul_comm]

theorem le_two_pow_squarings (rows : Nat) : rows ≤ 2 ^ squarings rows := by
  unfold squarings
  split
  · simpa
  · have := Nat.lt_log2_self (n := rows - 1)
    omega

/-- A pair can only be followed from a point whose row has a stored cell. -/
theorem mem_rows (positive : 0 < n) (meant : m.Denotes n 2 c s P) {x y : Nat} (pair : P [x, y]) :
    x ∈ (m.cells.keys.map (· / m.dims.size)).eraseReps := by
  obtain ⟨-, inside⟩ := meant.fits pair
  obtain ⟨v, stored, -⟩ := (holdsAt_iff meant.formed).mp
    ((meant.holdsAt_iff positive).mpr ⟨_, pair, rfl⟩)
  have parts := encodeIndex_append_split n [x] [y] (by simpa using inside y (by simp))
  rw [List.length_singleton, pow_one, encodeIndex_singleton, List.singleton_append] at parts
  rw [Ascending.mem_eraseReps, List.mem_map]
  exact ⟨_, mem_keys stored, meant.size ▸ parts.1⟩

/-- From the number of squarings for the stored rows on, there are all pairs joined by a path. -/
theorem square_reaches (positive : 0 < n) (sound : c.Sound) (meant : m.Denotes n 2 c s P)
    {times : Nat} (enough : squarings m.rowCount ≤ times) :
    Build.Ensures (square times m) c fun r d => r.Denotes n 2 d s (UnaryOp.denote P n .closure) := by
  refine (square_ensures positive times sound meant).imp ?_
  intro r d _ denotes
  refine denotes.congr fun t => exists_congr fun x => exists_congr fun y => and_congr_left' ?_
  constructor
  · rintro ⟨l, lower, -, path⟩
    obtain ⟨steps, rfl⟩ := Nat.exists_eq_add_of_le' lower
    exact path.transGen
  · intro reached
    obtain ⟨l, lower, upper, path⟩ :=
      Path.exists_le_length (fun x y pair => mem_rows positive meant pair) reached
    have short : m.rowCount ≤ 2 ^ times :=
      (le_two_pow_squarings m.rowCount).trans (Nat.pow_le_pow_right two_pos enough)
    exact ⟨l, lower, upper.trans short, path⟩

theorem closure_ensures (positive : 0 < n) (sound : c.Sound) (meant : m.Denotes n 2 c s P) :
    Build.Ensures m.closure c fun r d => r.Denotes n 2 d s (UnaryOp.denote P n .closure) := by
  have binary : m.isBinary = .ok () := by
    rw [isBinary, meant.arity, if_pos rfl]
  unfold closure
  rw [binary]
  exact square_reaches positive sound meant (Nat.le_refl _)

theorem identity_denotes {diagonal : Matrix} (ok : identity n = .ok diagonal) :
    diagonal.Denotes n 2 c s (ConstExpr.denote n .iden) := by
  unfold identity at ok
  obtain ⟨dims, made, rfl⟩ := map_eq_ok.mp ok
  obtain rfl := dims_make made
  have index : ∀ x, x * n + x = encodeIndex n [x, x] := by
    intro x
    rw [encodeIndex_cons, List.length_singleton, pow_one, encodeIndex_singleton]
  have fit : ∀ i ∈ (List.range n).map (fun i => i * n + i), i < (⟨n, 2⟩ : Dims).capacity := by
    intro i member
    obtain ⟨x, inRange, rfl⟩ := List.mem_map.mp member
    rw [index]
    exact encodeIndex_lt n [x, x] (by simpa using inRange)
  refine Denotes.of_index rfl rfl (ofIndices_formed fit) ?_ ?_
  · rintro t ⟨x, inside, rfl⟩
    exact ⟨rfl, by simpa using inside⟩
  intro t length inside
  rw [ofIndices_holdsAt fit, List.mem_map]
  constructor
  · rintro ⟨x, inRange, same⟩
    rw [index] at same
    refine ⟨x, List.mem_range.mp inRange, ?_⟩
    exact (encodeIndex_injective n [x, x] t length.symm (by simpa using inRange) inside same).symm
  · rintro ⟨x, small, rfl⟩
    exact ⟨x, List.mem_range.mpr small, index x⟩

theorem reflexiveClosure_ensures (positive : 0 < n) (sound : c.Sound)
    (meant : m.Denotes n 2 c s P) :
    Build.Ensures m.reflexiveClosure c fun r d =>
      r.Denotes n 2 d s (UnaryOp.denote P n .reflexiveClosure) := by
  unfold reflexiveClosure
  refine Build.Ensures.bind (closure_ensures positive sound meant) (by simp) (by simp) ?_
  intro closed d _ reached paths
  rw [meant.size]
  refine Build.Ensures.bind (Build.ensures_lift (fun diagonal d =>
    diagonal.Denotes n 2 d s (ConstExpr.denote n .iden)) reached
    fun diagonal ok => identity_denotes ok) (by simp) (by simp) ?_
  intro diagonal e grown final iden
  refine (union_ensures final (paths.of_le grown) iden).imp fun r f _ denotes => ?_
  refine denotes.congr fun t => ?_
  simp only [BinaryOp.denote, UnaryOp.denote, ConstExpr.denote]
  constructor
  · rintro (⟨x, y, path, rfl⟩ | ⟨x, inside, rfl⟩)
    · exact ⟨x, y, .inl path, rfl⟩
    · exact ⟨x, x, .inr ⟨rfl, inside⟩, rfl⟩
  · rintro ⟨x, y, path | ⟨rfl, inside⟩, rfl⟩
    · exact .inl ⟨x, y, path, rfl⟩
    · exact .inr ⟨x, inside, rfl⟩

end Matrix

end ModelFinder
