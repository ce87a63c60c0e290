import ModelFinder.Proofs.Circuit.Relational
import Mathlib.Data.List.Pairwise

/-! Comparing and counting symbolic relations: the values of these tests are true exactly when the
sets of tuples that the relations denote compare or count so. -/
namespace ModelFinder.Matrix

variable {c : Circuit} {s : Nat → Bool} {a b m : Matrix} {n k : Nat} {P Q : List Nat → Prop}

theorem subset_ensures (positive : 0 < n) (sound : c.Sound) (left : a.Denotes n k c s P)
    (right : b.Denotes n k c s Q) :
    Build.Ensures (a.subset b) c fun v d => v.Means d s (Comparison.holds P Q .subset) := by
  unfold subset
  refine ensures_of_sameDims left right ?_
  refine Build.Ensures.bind (Build.ensures_mapM (fun cell v d =>
    v.Means d s (a.HoldsAt c s cell.1 → b.HoldsAt c s cell.1)) sound (by simp) ?_ ?_)
    (Build.grows_mapM _ fun _ => by simp) (by simp) ?_
  · intro cell v d e grown meant
    exact meant.of_le grown
  · intro cell member d grown reached
    dsimp only
    rw [valueAt_index right.formed]
    exact Circuit.implies_ensures reached ((stored_means left.formed member).of_le grown)
      ((get_means right.formed cell.1).of_le grown)
  intro terms d grown reached meant
  refine (Circuit.all_ensures s reached fun v member => ?_).imp ?_
  · obtain ⟨cell, -, means⟩ := forall₂_right meant member
    exact means.1
  intro v e final conjunction
  refine conjunction.congr ((Value.forall_means meant).trans ?_)
  constructor
  · intro all t inLeft
    obtain ⟨length, inside⟩ := left.fits inLeft
    have holds := (left.holdsAt length inside).mpr inLeft
    obtain ⟨v, member, -⟩ := (holdsAt_iff left.formed).mp holds
    exact (right.holdsAt length inside).mp (all (_, v) member holds)
  · intro contained cell member holds
    obtain ⟨t, inLeft, same⟩ := (left.holdsAt_iff positive).mp holds
    exact (right.holdsAt_iff positive).mpr ⟨t, contained t inLeft, same⟩

theorem equals_ensures (positive : 0 < n) (sound : c.Sound) (left : a.Denotes n k c s P)
    (right : b.Denotes n k c s Q) :
    Build.Ensures (a.equals b) c fun v d => v.Means d s (Comparison.holds P Q .equals) := by
  unfold equals
  refine Build.Ensures.bind (subset_ensures positive sound left right) (by simp) (by simp) ?_
  intro forward d grown reached one
  refine Build.Ensures.bind (subset_ensures positive reached (right.of_le grown)
    (left.of_le grown)) (by simp) (by simp) ?_
  intro backward e further final two
  refine (Circuit.and_ensures final (one.of_le further) two).imp ?_
  intro v f _ both
  refine both.congr ?_
  simp only [Comparison.holds]
  exact ⟨fun h t => ⟨h.1 t, h.2 t⟩, fun h => ⟨fun t => (h t).mp, fun t => (h t).mpr⟩⟩

theorem exists_value (meant : m.Denotes n k c s P) (positive : 0 < n) :
    (∃ v ∈ m.cells.values, v.eval c s = true) ↔ ∃ t, P t := by
  constructor
  · rintro ⟨v, member, holds⟩
    obtain ⟨⟨i, v⟩, stored, rfl⟩ := List.mem_map.mp member
    obtain ⟨t, isTuple, -⟩ := (meant.holdsAt_iff positive).mp
      ((holdsAt_iff meant.formed).mpr ⟨v, stored, holds⟩)
    exact ⟨t, isTuple⟩
  · rintro ⟨t, isTuple⟩
    obtain ⟨v, stored, holds⟩ := (holdsAt_iff meant.formed).mp
      ((meant.holdsAt_iff positive).mpr ⟨t, isTuple, rfl⟩)
    exact ⟨v, mem_values stored, holds⟩

theorem some_ensures (positive : 0 < n) (sound : c.Sound) (meant : m.Denotes n k c s P) :
    Build.Ensures (liftM m.some) c fun v d => v.Means d s (Multiplicity.holds P .some) := by
  refine (Circuit.any_ensures s sound fun v member => (meant.formed.values v member).2).imp ?_
  intro v d _ means
  exact means.congr (exists_value meant positive)

theorem no_ensures (positive : 0 < n) (sound : c.Sound) (meant : m.Denotes n k c s P) :
    Build.Ensures (liftM m.no) c fun v d => v.Means d s (Multiplicity.holds P .no) := by
  unfold no
  rw [Synth.lift_bind]
  refine Build.Ensures.bind (some_ensures positive sound meant) (by simp) (by simp) ?_
  intro v d _ reached means
  refine Build.ensures_pure reached ((Value.not_means reached.labelled means).congr ?_)
  simp [Multiplicity.holds]

structure Excluded (c d : Circuit) (s : Nat → Bool) (done : List Value)
    (state : Array Value × Value) : Prop where
  inside : ∀ v ∈ state.1.toList, v.In d
  apart : (∀ v ∈ state.1.toList, v.eval d s = true) ↔
    done.Pairwise fun v w => ¬ (v.eval c s = true ∧ w.eval c s = true)
  before : state.2.Means d s (∃ v ∈ done, v.eval c s = true)

theorem exclude_ensures {d : Circuit} {done : List Value} {state : Array Value × Value} {v : Value}
    (grown : c ≤ d) (reached : d.Sound) (inside : v.In c) (excluded : Excluded c d s done state) :
    Build.Ensures (liftM (exclude state.1 state.2 v)) d fun next e =>
      Excluded c e s (done ++ [v]) next := by
  unfold exclude
  rw [Synth.lift_bind]
  have meant : v.Means d s (v.eval c s = true) := (Value.means_eval inside).of_le grown
  refine Build.Ensures.bind (Circuit.and_ensures reached meant excluded.before) (by simp) (by simp)
    ?_
  intro both e further sound clash
  rw [Synth.lift_bind]
  refine Build.Ensures.bind (Circuit.or_ensures sound (excluded.before.of_le further)
    (meant.of_le further)) (by simp) (by simp) ?_
  intro before f more final some
  have negated := (Value.not_means sound.labelled clash).of_le more
  refine Build.ensures_pure final ⟨?_, ?_, some.congr (by simp [or_and_right, exists_or])⟩
  · intro w member
    rcases Array.mem_push.mp (Array.mem_toList_iff.mp member) with old | rfl
    · exact (excluded.inside w (Array.mem_toList_iff.mpr old)).of_le (further.trans more)
    · exact negated.1
  · simp only [Array.toList_push, List.mem_append, List.mem_singleton, or_imp, forall_and,
      forall_eq, negated.2, List.pairwise_append, List.pairwise_singleton, true_and]
    refine and_congr ?_ ?_
    · rw [← excluded.apart]
      refine forall₂_congr fun w member => ?_
      rw [Value.eval_of_le (further.trans more) (excluded.inside w member)]
    · simp only [not_and, not_exists]
      exact ⟨fun h w member one two => h two w member one,
        fun h two w member one => h w member one two⟩

/-- No two stored cells are true together exactly if there are no two tuples. -/
theorem pairwise_values (meant : m.Denotes n k c s P) (positive : 0 < n) :
    (m.cells.values.Pairwise fun v w => ¬ (v.eval c s = true ∧ w.eval c s = true)) ↔
      Multiplicity.holds P .lone := by
  unfold SortedTable.values
  rw [List.pairwise_map]
  constructor
  · intro apart t u isOne isOther
    obtain ⟨v, first, one⟩ := (holdsAt_iff meant.formed).mp
      ((meant.holdsAt_iff positive).mpr ⟨t, isOne, rfl⟩)
    obtain ⟨w, second, other⟩ := (holdsAt_iff meant.formed).mp
      ((meant.holdsAt_iff positive).mpr ⟨u, isOther, rfl⟩)
    obtain ⟨tSize, tInside⟩ := meant.fits isOne
    obtain ⟨uSize, uInside⟩ := meant.fits isOther
    refine encodeIndex_injective n t u (tSize.trans uSize.symm) tInside uInside ?_
    by_contra different
    have symmetric : Std.Symm fun x y : Nat × Value =>
        ¬ (x.2.eval c s = true ∧ y.2.eval c s = true) := ⟨fun x y h => by rwa [and_comm]⟩
    exact apart.forall first second (fun same => different (Prod.mk.inj same).1) ⟨one, other⟩
  · intro lone
    have ascending := List.pairwise_map.mp meant.formed.ascending
    refine ascending.imp_of_mem ?_
    rintro ⟨i, v⟩ ⟨j, w⟩ first second less ⟨one, other⟩
    obtain ⟨t, isOne, rfl⟩ := (meant.holdsAt_iff positive).mp
      ((holdsAt_iff meant.formed).mpr ⟨v, first, one⟩)
    obtain ⟨u, isOther, rfl⟩ := (meant.holdsAt_iff positive).mp
      ((holdsAt_iff meant.formed).mpr ⟨w, second, other⟩)
    rw [lone t u isOne isOther] at less
    exact Nat.lt_irrefl _ less

theorem atMostOne_ensures (positive : 0 < n) (sound : c.Sound) (meant : m.Denotes n k c s P) :
    Build.Ensures (liftM m.atMostOne) c fun found d =>
      found.1.Means d s (Multiplicity.holds P .lone) ∧ found.2.Means d s (∃ t, P t) := by
  unfold atMostOne
  rw [Synth.lift_bind, Synth.lift_foldlM]
  refine Build.Ensures.bind (Build.ensures_foldlM (fun done state d => Excluded c d s done state)
    sound (by simp) ⟨by simp, by simp, trivial, by simp [Value.eval]⟩ ?_) (by simp) (by simp) ?_
  · intro done v rest split state d grown reached excluded
    have stored : v ∈ m.cells.values := by simp [split]
    exact exclude_ensures grown reached (meant.formed.values v stored).2 excluded
  rintro ⟨apart, some⟩ d grown reached excluded
  rw [Synth.lift_bind]
  refine Build.Ensures.bind (Circuit.all_ensures s reached excluded.inside) (by simp) (by simp) ?_
  intro lone e further final conjunction
  refine Build.ensures_pure final ⟨conjunction.congr ?_, ?_⟩
  · exact excluded.apart.trans (pairwise_values meant positive)
  · exact (excluded.before.congr (exists_value meant positive)).of_le further

theorem lone_ensures (positive : 0 < n) (sound : c.Sound) (meant : m.Denotes n k c s P) :
    Build.Ensures (liftM m.lone) c fun v d => v.Means d s (Multiplicity.holds P .lone) := by
  unfold lone
  rw [Synth.lift_bind]
  refine Build.Ensures.bind (atMostOne_ensures positive sound meant) (by simp) (by simp) ?_
  intro found d _ reached holds
  exact Build.ensures_pure reached holds.1

theorem one_ensures (positive : 0 < n) (sound : c.Sound) (meant : m.Denotes n k c s P) :
    Build.Ensures (liftM m.one) c fun v d => v.Means d s (Multiplicity.holds P .one) := by
  unfold one
  rw [Synth.lift_bind]
  refine Build.Ensures.bind (atMostOne_ensures positive sound meant) (by simp) (by simp) ?_
  intro found d _ reached holds
  refine (Circuit.and_ensures reached holds.1 holds.2).imp fun v e _ both => both.congr ?_
  constructor
  · rintro ⟨lone, t, isTuple⟩
    exact ⟨t, isTuple, fun u other => lone u t other isTuple⟩
  · rintro ⟨t, isTuple, only⟩
    exact ⟨fun u w one other => (only u one).trans (only w other).symm, t, isTuple⟩

end ModelFinder.Matrix
