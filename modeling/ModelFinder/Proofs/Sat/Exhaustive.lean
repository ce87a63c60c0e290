import ModelFinder.Proofs.Cnf.Clauses

/-! A solver that tries all assignments. It is complete by construction, so whatever is proved of every
faithful and reliable solver is proved of some. -/
namespace ModelFinder

theorem le_maxVar {lits : List Int} {l : Int} (member : l ∈ lits) : l.natAbs ≤ maxVar lits := by
  have grows : ∀ rest : List Int, ∀ start, start ≤ rest.foldl (fun v l => max v l.natAbs) start := by
    intro rest
    induction rest with
    | nil => exact fun start => Nat.le_refl start
    | cons k rest ih => exact fun start => Nat.le_trans (Nat.le_max_left ..) (ih _)
  have each : ∀ rest : List Int, ∀ start, l ∈ rest →
      l.natAbs ≤ rest.foldl (fun v l => max v l.natAbs) start := by
    intro rest
    induction rest with
    | nil => exact fun start absent => by cases absent
    | cons k rest ih =>
      intro start member
      rcases List.mem_cons.mp member with rfl | inRest
      · exact Nat.le_trans (Nat.le_max_right ..) (grows rest _)
      · exact ih _ inRest
  exact each lits 0 member

structure Exhaustive where
  clauses : List Clause

namespace Exhaustive

/-- All assignments of the variables below a bound, with the others false. -/
def assignments : Nat → List (Nat → Bool)
  | 0 => [fun _ => false]
  | bound + 1 => (assignments bound).flatMap fun a => [a, fun v => if v = bound then true else a v]

def search (clauses : List Clause) (assumptions : List Int) : Option (Nat → Bool) :=
  (assignments (max (maxVar clauses.flatten) (maxVar assumptions) + 1)).find? fun a =>
    clauses.all (Clause.holds a) && assumptions.all (litHolds a)

instance : Backend Exhaustive where
  reset _ := ⟨[]⟩
  reserve solver _ := solver
  add solver clause := (true, ⟨clause :: solver.clauses⟩)
  solve solver assumptions :=
    (match search solver.clauses assumptions with
      | some model => .sat model
      | none => .unsat (.pure assumptions), solver)

theorem assignments_false {bound : Nat} {a : Nat → Bool} (member : a ∈ assignments bound) {v : Nat}
    (beyond : bound ≤ v) : a v = false := by
  induction bound generalizing a with
  | zero => simp [List.mem_singleton.mp member]
  | succ bound ih =>
    obtain ⟨shorter, listed, isChoice⟩ := List.mem_flatMap.mp member
    simp only [List.mem_cons, List.not_mem_nil, or_false] at isChoice
    rcases isChoice with rfl | rfl
    · exact ih listed (by omega)
    · have apart : v ≠ bound := by omega
      simpa [apart] using ih listed (by omega)

theorem exists_assignment (s : Nat → Bool) (bound : Nat) :
    ∃ a ∈ assignments bound, ∀ v, v < bound → a v = s v := by
  induction bound with
  | zero => exact ⟨_, List.mem_singleton_self _, fun v below => by omega⟩
  | succ bound ih =>
    obtain ⟨a, listed, same⟩ := ih
    cases last : s bound with
    | false =>
      refine ⟨a, List.mem_flatMap.mpr ⟨a, listed, List.mem_cons_self⟩, fun v below => ?_⟩
      by_cases isLast : v = bound
      · rw [isLast, last, assignments_false listed (Nat.le_refl _)]
      · exact same v (by omega)
    | true =>
      refine ⟨fun v => if v = bound then true else a v,
        List.mem_flatMap.mpr ⟨a, listed, by simp⟩, fun v below => ?_⟩
      by_cases isLast : v = bound
      · simp [isLast, last]
      · simpa [isLast] using same v (by omega)

theorem search_eq_some {clauses : List Clause} {assumptions : List Int} {model : Nat → Bool}
    (found : search clauses assumptions = some model) :
    Satisfies model clauses ∧ Meets model assumptions := by
  have passed := List.find?_some found
  rw [Bool.and_eq_true, List.all_eq_true, List.all_eq_true] at passed
  exact passed

/-- The search misses no assignment, for those that agree on the variables in use make the same
literals true. -/
theorem search_eq_none {clauses : List Clause} {assumptions : List Int}
    (missed : search clauses assumptions = none) : ¬ Satisfiable clauses assumptions := by
  rintro ⟨s, satisfies, meets⟩
  obtain ⟨a, listed, same⟩ :=
    exists_assignment s (max (maxVar clauses.flatten) (maxVar assumptions) + 1)
  have literal : ∀ l, l.natAbs ≤ max (maxVar clauses.flatten) (maxVar assumptions) →
      litHolds a l = litHolds s l := fun l small => litHolds_congr (same l.natAbs (by omega))
  refine absurd ?_ (List.find?_eq_none.mp missed a listed)
  rw [Bool.and_eq_true, List.all_eq_true, List.all_eq_true]
  constructor
  · intro clause isClause
    obtain ⟨l, member, holds⟩ := Clause.holds_iff.mp (satisfies clause isClause)
    refine Clause.holds_iff.mpr ⟨l, member, ?_⟩
    have small := le_maxVar (List.mem_flatten_of_mem isClause member)
    rw [literal l (by omega), holds]
  · intro l member
    have small := le_maxVar member
    rw [literal l (by omega), meets l member]

theorem faithful : Faithful Exhaustive clauses where
  reset _ := rfl
  reserve _ _ := rfl
  accept solver clause next added s := by
    obtain rfl : (⟨clause :: solver.clauses⟩ : Exhaustive) = next := congrArg Prod.snd added
    rw [satisfies_cons, and_comm]
  refuse solver clause next refused := by cases refused
  keep _ _ := rfl
  sat solver assumptions model answer := by
    simp only [Backend.solve] at answer
    split at answer
    · rename_i found isFound
      cases answer
      exact search_eq_some isFound
    · cases answer
  unsat solver assumptions core answer := by
    simp only [Backend.solve] at answer
    split at answer
    · cases answer
    · rename_i missed
      cases answer
      exact ⟨List.Subset.refl _, search_eq_none missed⟩

theorem reliable : Reliable Exhaustive where
  accepts _ _ := rfl
  answers solver assumptions := by
    simp only [Backend.solve]
    split
    · rename_i model _
      exact .inl ⟨model, rfl⟩
    · exact .inr ⟨_, rfl⟩

end Exhaustive

end ModelFinder
