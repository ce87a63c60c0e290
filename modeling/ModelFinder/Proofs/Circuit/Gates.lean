import ModelFinder.Proofs.Circuit.Ensures
import Mathlib.Tactic.Tauto

/-! Circuits compute the boolean functions their operations are named for. Folding, ordering and
sharing of gates show in the circuit only: the value of an operation is true exactly when its
function of the operands is. -/
namespace ModelFinder.Circuit

theorem mem_dropWhile_lt (x z : Int) {ys : List Int} (ascending : ys.Pairwise (· < ·)) :
    z ∈ ys.dropWhile (· < x) ↔ z ∈ ys ∧ x ≤ z := by
  induction ys with
  | nil => simp
  | cons y rest ih =>
    obtain ⟨above, restAscending⟩ := List.pairwise_cons.mp ascending
    by_cases smaller : y < x
    · rw [List.dropWhile_cons_of_pos (by simpa using smaller), ih restAscending, List.mem_cons]
      constructor
      · exact fun found => ⟨.inr found.1, found.2⟩
      · rintro ⟨rfl | member, atLeast⟩
        · omega
        · exact ⟨member, atLeast⟩
    · rw [List.dropWhile_cons_of_neg (by simpa using smaller)]
      refine ⟨fun member => ⟨member, ?_⟩, And.left⟩
      rcases List.mem_cons.mp member with rfl | inRest
      · omega
      · have := above z inRest
        omega

theorem overlap_iff {xs ys : List Int} (xsAscending : xs.Pairwise (· < ·))
    (ysAscending : ys.Pairwise (· < ·)) : overlap xs ys = true ↔ ∃ x ∈ xs, x ∈ ys := by
  induction xs generalizing ys with
  | nil => simp [overlap]
  | cons x xs ih =>
    obtain ⟨above, restAscending⟩ := List.pairwise_cons.mp xsAscending
    have left := ysAscending.sublist (List.dropWhile_sublist (· < x))
    have front : (ys.dropWhile (· < x)).head? = some x ↔ x ∈ ys := by
      have members := fun z => mem_dropWhile_lt x z ysAscending
      cases split : ys.dropWhile (· < x) with
      | nil =>
        have absent := members x
        simp only [split, List.not_mem_nil, false_iff] at absent
        simp only [List.head?_nil, reduceCtorEq, false_iff]
        exact fun member => absent ⟨member, Int.le_refl x⟩
      | cons y rest =>
        rw [split] at members left
        have atLeast := ((members y).mp List.mem_cons_self).2
        rw [List.head?_cons, Option.some.injEq]
        constructor
        · rintro rfl
          exact ((members y).mp List.mem_cons_self).1
        · intro member
          rcases List.mem_cons.mp ((members x).mpr ⟨member, Int.le_refl x⟩) with same | inRest
          · exact same.symm
          · have := (List.pairwise_cons.mp left).1 x inRest
            omega
    rw [overlap, Bool.or_eq_true, ih restAscending left, beq_iff_eq, front]
    simp only [List.mem_cons, exists_eq_or_imp]
    refine or_congr_right (exists_congr fun z => and_congr_right fun member => ?_)
    rw [mem_dropWhile_lt x z ysAscending]
    exact and_iff_left (Int.le_of_lt (above z member))

theorem clashes_iff {labels : List Int} (ascending : labels.Pairwise (· < ·))
    (nonzero : ∀ l ∈ labels, l ≠ 0) : clashes labels = true ↔ ∃ l ∈ labels, -l ∈ labels := by
  have negatives : ((labels.filter (· < 0)).map (-·)).reverse.Pairwise (· < ·) := by
    rw [List.pairwise_reverse, List.pairwise_map]
    exact (ascending.filter _).imp fun less => by omega
  rw [clashes, overlap_iff negatives (ascending.filter _)]
  simp only [List.mem_reverse, List.mem_map, List.mem_filter, decide_eq_true_eq]
  constructor
  · rintro ⟨x, ⟨l, ⟨member, -⟩, rfl⟩, negated, -⟩
    exact ⟨l, member, negated⟩
  · rintro ⟨l, member, negated⟩
    rcases Int.lt_or_gt_of_ne (nonzero l member) with negative | positive
    · exact ⟨-l, ⟨l, ⟨member, negative⟩, rfl⟩, negated, by omega⟩
    · exact ⟨l, ⟨-l, ⟨negated, by omega⟩, by omega⟩, member, positive⟩

variable {c : Circuit} {s : Nat → Bool}

theorem append_grows (gate : Gate) (c : Circuit) : c ≤ (append gate c).2 :=
  ⟨rfl, [gate], by simp [append]⟩

def Recorded (c : Circuit) : Prop :=
  c.sharing = true → ∀ (i : Nat) (gate : Gate),
    c.positions[gate]? = some i ↔ c.gates[i]? = some gate

theorem append_recorded {gate : Gate} (recorded : c.Recorded)
    (fresh : c.sharing = true → c.positions[gate]? = none) : (append gate c).2.Recorded := by
  intro sharing i other
  simp only [append] at sharing ⊢
  have known := recorded sharing
  rw [if_pos sharing, Std.HashMap.getElem?_insert, Array.getElem?_push]
  by_cases same : gate = other
  · subst same
    have absent : c.gates[i]? ≠ some gate := fun found => by
      have recorded := (known i gate).mpr found
      rw [fresh sharing] at recorded
      contradiction
    simp only [beq_self_eq_true, if_true, Option.some.injEq]
    by_cases last : i = c.gates.size
    · simp [last]
    · simp [last, absent, Ne.symm last]
  · have apart : (gate == other) = false := beq_false_of_ne same
    rw [apart, if_neg (by simp), known i other]
    by_cases last : i = c.gates.size
    · simp [last, same]
    · simp [last]

theorem append_formed {gate : Gate} (formed : c.WellFormed)
    (ordered : gate.Ordered (c.maxLabel + 1))
    (fresh : c.sharing = true → c.positions[gate]? = none) : (append gate c).2.WellFormed := by
  refine ⟨?_, append_recorded formed.recorded fresh⟩
  intro i other found
  simp only [append] at found ⊢
  rw [Array.getElem?_push] at found
  split at found
  · rename_i last
    rw [← Option.some.inj found, last]
    exact ordered
  · exact formed.ordered i other found

@[simp] theorem grows_emit (gate : Gate) : Build.Grows (liftM (emit gate)) := by
  intro c a d run
  simp only [Synth.lift_run, emit, Except.ok.injEq] at run
  split at run
  · cases run
    exact le_rfl
  · rw [← show (append gate c).2 = d from congrArg Prod.snd run]
    exact append_grows gate c

theorem emit_cases (gate : Gate) (c : Circuit) : (emit gate c).2 = c ∨
    (emit gate c).2 = (append gate c).2 ∧ (c.sharing = true → c.positions[gate]? = none) := by
  unfold emit
  split
  · exact .inl rfl
  · rename_i unknown
    refine .inr ⟨rfl, fun sharing => ?_⟩
    rwa [if_pos sharing] at unknown

theorem emit_recorded (recorded : c.Recorded) (gate : Gate) : (emit gate c).2.Recorded := by
  obtain same | ⟨added, fresh⟩ := emit_cases gate c
  · rwa [same]
  · exact added ▸ append_recorded recorded fresh

theorem emit_formed {gate : Gate} (formed : c.WellFormed)
    (ordered : gate.Ordered (c.maxLabel + 1)) : (emit gate c).2.WellFormed := by
  obtain same | ⟨added, fresh⟩ := emit_cases gate c
  · rwa [same]
  · exact added ▸ append_formed formed ordered fresh

theorem emit_stands (recorded : c.Recorded) (gate : Gate) : ∃ i,
    (emit gate c).1 = .lit ((emit gate c).2.inputs + i + 1 : Nat) ∧
      (emit gate c).2.gates[i]? = some gate := by
  unfold emit
  split
  · rename_i position known
    refine ⟨position, rfl, ?_⟩
    cases sharing : c.sharing with
    | false => simp [sharing] at known
    | true =>
      rw [sharing, if_pos rfl] at known
      exact (recorded sharing position gate).mp known
  · exact ⟨c.gates.size, rfl, Array.getElem?_push_size⟩

theorem emit_ensures (s : Nat → Bool) {gate : Gate} (sound : c.Sound)
    (ordered : gate.Ordered (c.maxLabel + 1)) :
    Build.Ensures (liftM (emit gate)) c fun v d => v.Means d s (gate.eval (c.truth s) = true) := by
  intro v d run labelled
  have grown := grows_emit gate c v d run
  have formed := emit_formed sound.formed ordered
  obtain ⟨i, isLabel, found⟩ := emit_stands sound.formed.recorded gate
  have out : emit gate c = (v, d) := Except.ok.inj run
  simp only [out] at formed isLabel found
  -- Whichever position the gate has, its label has its truth, and the truth of what it reads is old.
  have bound : i < d.gates.size := (Array.getElem?_eq_some_iff.mp found).1
  rw [isLabel]
  refine ⟨formed, ⟨by omega, by simp only [maxLabel]; omega⟩, ?_⟩
  rw [Value.eval, litHolds, if_pos (by omega), Int.natAbs_natCast, truth_gate formed s found]
  rw [Gate.eval_congr fun l member => truth_of_le grown s
    (Nat.lt_succ_iff.mp (ordered.1 l member).2)]

theorem mem_operands {neutral : Bool} {values : List Value} {labels : List Int}
    (labelled : c.Labelled) (inside : ∀ v ∈ values, v.In c)
    (found : operands neutral values = some labels) :
    (∀ l, l ∈ labels ↔ Value.lit l ∈ values) ∧ Value.const (!neutral) ∉ values := by
  unfold operands at found
  split at found
  · cases found
  rename_i absent
  refine ⟨?_, fun member => absent (List.any_eq_true.mpr ⟨_, member, by simp⟩)⟩
  intro l
  rw [← Option.some.inj found, List.mem_filterMap]
  have label : ∀ n, Value.lit n ∈ values → (Value.lit n).label = n := by
    intro n member
    have bound := (inside _ member).2
    simp only [Labelled, Value.trueLabel] at labelled
    exact Value.label_lit (by omega)
  constructor
  · rintro ⟨v, member, same⟩
    cases v with
    | const b => cases same
    | lit n => rwa [← Option.some.inj same, label n member]
  · intro member
    exact ⟨.lit l, member, congrArg some (label l member)⟩

theorem const_mem_of_operands {neutral : Bool} {values : List Value}
    (absorbed : operands neutral values = none) : Value.const (!neutral) ∈ values := by
  unfold operands at absorbed
  split at absorbed
  · rename_i found
    obtain ⟨v, member, same⟩ := List.any_eq_true.mp found
    rwa [← beq_iff_eq.mp same]
  · cases absorbed

/-- All operands have the neutral truth if the labels among them have it, for the constants left among
them are neutral. -/
theorem operands_neutral {neutral : Bool} {values : List Value} {labels : List Int}
    {s : Nat → Bool} (members : ∀ l, l ∈ labels ↔ Value.lit l ∈ values)
    (notAbsorbed : Value.const (!neutral) ∉ values) :
    (∀ w ∈ values, w.eval c s = neutral) ↔
      ∀ l ∈ Ascending.sort labels, litHolds (c.truth s) l = neutral := by
  simp only [Ascending.mem_sort, members]
  constructor
  · exact fun all l member => all (.lit l) member
  · intro all w member
    cases w with
    | const b =>
      by_contra different
      have flipped : b = !neutral := by
        simp only [Value.eval] at different
        revert different
        cases b <;> cases neutral <;> simp
      exact notAbsorbed (flipped ▸ member)
    | lit n => exact all n member

/-- What is asked of a kind of gate for `combine` to work: it reads its operands and has the neutral
value exactly when all of them have. -/
structure Combines (gate : List Int → Gate) (neutral : Bool) : Prop where
  ordered : ∀ label ls, (∀ l ∈ ls, l ≠ 0 ∧ l.natAbs < label) → 2 ≤ ls.length →
    ls.Pairwise (· < ·) → (∀ l ∈ ls, -l ∉ ls) → (gate ls).Ordered label
  eval : ∀ truth ls, (gate ls).eval truth = neutral ↔ ∀ l ∈ ls, litHolds truth l = neutral

theorem and_combines : Combines .and true where
  ordered _ _ smaller two ascending apart := ⟨smaller, two, ascending, apart⟩
  eval _ _ := List.all_eq_true

theorem or_combines : Combines .or false where
  ordered _ _ smaller two ascending apart := ⟨smaller, two, ascending, apart⟩
  eval _ _ := by simp [Gate.eval]

@[simp] theorem grows_combine (gate : List Int → Gate) (neutral : Bool) (values : List Value) :
    Build.Grows (liftM (combine gate neutral values)) := by
  unfold combine
  split
  · simp
  split
  · simp
  · simp
  split <;> simp

theorem clash_not_neutral {truth : Nat → Bool} {labels : List Int} {neutral : Bool}
    (nonzero : ∀ l ∈ labels, l ≠ 0) (clash : ∃ l ∈ labels, -l ∈ labels) :
    ¬ ∀ l ∈ labels, litHolds truth l = neutral := by
  intro all
  obtain ⟨l, member, negated⟩ := clash
  have opposite := litHolds_neg truth (nonzero l member)
  rw [all l member, all (-l) negated] at opposite
  cases neutral <;> contradiction

theorem combine_ensures (s : Nat → Bool) {gate : List Int → Gate} {neutral : Bool}
    {values : List Value}
    (combines : Combines gate neutral) (sound : c.Sound) (inside : ∀ v ∈ values, v.In c) :
    Build.Ensures (liftM (combine gate neutral values)) c fun v d =>
      v.In d ∧ (v.eval d s = neutral ↔ ∀ w ∈ values, w.eval c s = neutral) := by
  unfold combine
  split
  · rename_i absorbed
    refine Build.ensures_pure sound ⟨trivial, ?_⟩
    have member := const_mem_of_operands absorbed
    simp only [Value.eval, Bool.not_eq_eq_eq_not, Bool.eq_not_self, false_iff, not_forall]
    exact ⟨_, member, by simp⟩
  rename_i labels found
  obtain ⟨members, notAbsorbed⟩ := mem_operands sound.labelled inside found
  have bounds : ∀ l ∈ Ascending.sort labels, l ≠ 0 ∧ l.natAbs < c.maxLabel + 1 := by
    intro l member
    have numbered := inside _ ((members l).mp ((Ascending.mem_sort labels l).mp member))
    exact ⟨numbered.1, Nat.lt_succ_of_le numbered.2⟩
  have ascending := Ascending.sort_pairwise labels
  simp only [operands_neutral members notAbsorbed]
  generalize Ascending.sort labels = sorted at *
  split
  · exact Build.ensures_pure sound ⟨trivial, by simp [Value.eval]⟩
  · rename_i l
    obtain ⟨nonzero, small⟩ := bounds l List.mem_cons_self
    have labelled := sound.labelled
    simp only [Labelled, Value.trueLabel] at labelled
    rw [Value.ofLabel_of_natAbs_lt (by omega)]
    exact Build.ensures_pure sound ⟨⟨nonzero, by omega⟩, by simp [Value.eval]⟩
  · rename_i notEmpty notSingle
    have nonzero : ∀ l ∈ sorted, l ≠ 0 := fun l member => (bounds l member).1
    have clash := clashes_iff ascending nonzero
    split
    · rename_i clashing
      refine Build.ensures_pure sound ⟨trivial, ?_⟩
      simp only [Value.eval, Bool.not_eq_eq_eq_not, Bool.eq_not_self, false_iff]
      exact clash_not_neutral nonzero (clash.mp clashing)
    · rename_i peaceful
      have two : 2 ≤ sorted.length := by
        rcases sorted with _ | ⟨l, _ | ⟨_, _⟩⟩
        · exact absurd rfl notEmpty
        · exact absurd rfl (notSingle l)
        · simp
      have apart : ∀ l ∈ sorted, -l ∉ sorted :=
        fun l member negated => peaceful (clash.mpr ⟨l, member, negated⟩)
      have ordered := combines.ordered _ sorted bounds two ascending apart
      refine (emit_ensures s sound ordered).imp ?_
      intro v d reached meant
      refine ⟨meant.1, ?_⟩
      rw [← combines.eval, Bool.eq_iff_iff.mpr meant.2]

@[simp] theorem grows_all (values : List Value) : Build.Grows (liftM (all values)) :=
  grows_combine _ _ _

@[simp] theorem grows_any (values : List Value) : Build.Grows (liftM (any values)) :=
  grows_combine _ _ _

@[simp] theorem grows_and (a b : Value) : Build.Grows (liftM (and a b)) := grows_all _

@[simp] theorem grows_or (a b : Value) : Build.Grows (liftM (or a b)) := grows_any _

@[simp] theorem grows_implies (a b : Value) : Build.Grows (liftM (implies a b)) := grows_or _ _

@[simp] theorem grows_ite (cond yes no : Value) : Build.Grows (liftM (ite cond yes no)) := by
  fun_cases ite cond yes no <;> simp [*]

@[simp] theorem grows_iff (a b : Value) : Build.Grows (liftM (iff a b)) := grows_ite _ _ _

theorem all_ensures (s : Nat → Bool) {values : List Value} (sound : c.Sound)
    (inside : ∀ v ∈ values, v.In c) :
    Build.Ensures (liftM (all values)) c fun v d =>
      v.Means d s (∀ w ∈ values, w.eval c s = true) :=
  combine_ensures s and_combines sound inside

theorem any_ensures (s : Nat → Bool) {values : List Value} (sound : c.Sound)
    (inside : ∀ v ∈ values, v.In c) :
    Build.Ensures (liftM (any values)) c fun v d =>
      v.Means d s (∃ w ∈ values, w.eval c s = true) := by
  refine (combine_ensures s or_combines sound inside).imp ?_
  intro v d reached meant
  refine ⟨meant.1, ?_⟩
  rw [← Bool.not_eq_false, meant.2]
  simp

variable {a b : Value} {p q r : Prop}

theorem and_ensures (sound : c.Sound) (left : a.Means c s p) (right : b.Means c s q) :
    Build.Ensures (liftM (and a b)) c fun v d => v.Means d s (p ∧ q) := by
  refine (all_ensures s sound (by simp [left.1, right.1])).imp ?_
  intro v d reached meant
  exact meant.congr (by simp [left.2, right.2])

theorem or_ensures (sound : c.Sound) (left : a.Means c s p) (right : b.Means c s q) :
    Build.Ensures (liftM (or a b)) c fun v d => v.Means d s (p ∨ q) := by
  refine (any_ensures s sound (by simp [left.1, right.1])).imp ?_
  intro v d reached meant
  exact meant.congr (by simp [left.2, right.2])

theorem implies_ensures (sound : c.Sound) (left : a.Means c s p) (right : b.Means c s q) :
    Build.Ensures (liftM (implies a b)) c fun v d => v.Means d s (p → q) := by
  refine (or_ensures sound (Value.not_means sound.labelled left) right).imp ?_
  intro v d reached meant
  exact meant.congr (by tauto)

theorem label_of_in {n : Int} (labelled : c.Labelled) (inside : (Value.lit n).In c) :
    (Value.lit n).label = n := by
  have bound := inside.2
  simp only [Labelled, Value.trueLabel] at labelled
  exact Value.label_lit (by omega)

/-- A choice has the value of the branch that its condition picks, also where no gate is added for
it. -/
theorem ite_ensures (sound : c.Sound) (cond : a.Means c s p) {yes no : Value}
    (left : yes.Means c s q) (right : no.Means c s r) :
    Build.Ensures (liftM (ite a yes no)) c fun v d => v.Means d s (p ∧ q ∨ ¬ p ∧ r) := by
  have negated := Value.not_means sound.labelled cond
  fun_cases ite a yes no with
  | case1 b =>
    refine Build.ensures_pure sound ?_
    cases b with
    | false => exact right.congr (by simp [← cond.2, Value.eval])
    | true => exact left.congr (by simp [← cond.2, Value.eval])
  | case2 n yes =>
    have same : q ↔ r := left.2.symm.trans right.2
    exact Build.ensures_pure sound (left.congr (by tauto))
  | case3 n no _ =>
    have holds : q := by simp [← left.2, Value.eval]
    exact (or_ensures sound cond right).imp fun v d _ meant => meant.congr (by tauto)
  | case4 n no _ =>
    have fails : ¬ q := by simp [← left.2, Value.eval]
    exact (and_ensures sound negated right).imp fun v d _ meant => meant.congr (by tauto)
  | case5 n yes _ _ _ =>
    have holds : r := by simp [← right.2, Value.eval]
    exact (or_ensures sound negated left).imp fun v d _ meant => meant.congr (by tauto)
  | case6 n yes _ _ _ =>
    have fails : ¬ r := by simp [← right.2, Value.eval]
    exact (and_ensures sound cond left).imp fun v d _ meant => meant.congr (by tauto)
  | case7 n m _ =>
    have same : p ↔ q := cond.2.symm.trans left.2
    exact (or_ensures sound cond right).imp fun v d _ meant => meant.congr (by tauto)
  | case8 n m _ _ =>
    have same : p ↔ r := cond.2.symm.trans right.2
    exact (and_ensures sound cond left).imp fun v d _ meant => meant.congr (by tauto)
  | case9 n y m _ _ _ =>
    rw [label_of_in sound.labelled cond.1, label_of_in sound.labelled left.1,
      label_of_in sound.labelled right.1]
    have ordered : (Gate.ite n y m).Ordered (c.maxLabel + 1) := by
      refine ⟨?_, trivial⟩
      intro l member
      simp only [Gate.inputs, List.mem_cons, List.not_mem_nil, or_false] at member
      rcases member with rfl | rfl | rfl
      · exact ⟨cond.1.1, Nat.lt_succ_of_le cond.1.2⟩
      · exact ⟨left.1.1, Nat.lt_succ_of_le left.1.2⟩
      · exact ⟨right.1.1, Nat.lt_succ_of_le right.1.2⟩
    refine (emit_ensures s sound ordered).imp fun v d _ meant => meant.congr ?_
    rw [← cond.2, ← left.2, ← right.2, Gate.eval]
    simp only [Value.eval]
    split <;> simp [*]

theorem iff_ensures (sound : c.Sound) (left : a.Means c s p) (right : b.Means c s q) :
    Build.Ensures (liftM (iff a b)) c fun v d => v.Means d s (p ↔ q) := by
  refine (ite_ensures sound left right (Value.not_means sound.labelled right)).imp ?_
  intro v d reached meant
  exact meant.congr (by tauto)

end ModelFinder.Circuit
