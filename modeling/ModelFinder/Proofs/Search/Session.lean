import ModelFinder.Proofs.Encoding.Worlds
import ModelFinder.Proofs.Sat.Store

/-! Sessions keep what their stores guard, whatever clauses the solver refuses and whatever searches
fail. The encoding and the control never change and the live constraints change as constraints come
and go; a search of a sound solver that gives no answer was aborted. -/
namespace ModelFinder

namespace Session

variable {σ : Type} {held : σ → List Clause} {count interruptions : σ → Nat} {base : List Clause}
  {live : List (Nat × Clause)} {s t u : Session σ} {clause : Clause} {assumptions : List Int}

structure Guarded (held : σ → List Clause) (base : List Clause) (live : List (Nat × Clause))
    (s : Session σ) : Prop where
  guards : s.store.Guards held base s.loaded.encoding.cnf.numVars live
  roots : Mentions s.loaded.encoding.cnf.numVars s.loaded.encoding.assumptions
  primary : s.numPrimary ≤ s.loaded.encoding.cnf.numVars
  small : s.loaded.encoding.cnf.numVars < 2147483647

/-- The session is in order: its store guards the clauses of the encoding and the live constraints,
and no time limit is over. -/
structure Ready (held : σ → List Clause) (live : List (Nat × Clause)) (s : Session σ) : Prop where
  guards : s.store.Guards held s.loaded.encoding.cnf.clauses.toList
    s.loaded.encoding.cnf.numVars live
  roots : Mentions s.loaded.encoding.cnf.numVars s.loaded.encoding.assumptions
  primary : s.numPrimary ≤ s.loaded.encoding.cnf.numVars
  small : s.loaded.encoding.cnf.numVars < 2147483647
  unlimited : s.control.limitMs ≠ some 0

structure Continues (interruptions : σ → Nat) (s t : Session σ) : Prop where
  encoding : t.loaded.encoding = s.loaded.encoding
  control : t.control = s.control
  interruptions : interruptions s.store.backend ≤ interruptions t.store.backend

structure Follows (interruptions : σ → Nat) (s t : Session σ) : Prop
    extends Continues interruptions s t where
  ledger : t.ledger = s.ledger

structure Maintains (count : σ → Nat) (s t : Session σ) : Prop extends Follows count s t where
  conserves : s.store.Conserves t.store

def Failed [Backend σ] (count : σ → Nat) (failure : Failure) (s t : Session σ) : Prop :=
  ∃ between assumptions, Follows count s between ∧
    (between.solve assumptions).1 = .error failure ∧ Follows count (between.solve assumptions).2 t

def Admits (s : Session σ) (live : List (Nat × Clause)) (assumptions : List Int)
    (a : Nat → Bool) : Prop :=
  Allows s.loaded.encoding.cnf.clauses.toList live (s.loaded.encoding.assumptions ++ assumptions) a

/-- Between two sessions a search was aborted by the flag or by an interruption of the solver. -/
def Stopped (interruptions : σ → Nat) (s t : Session σ) : Prop :=
  s.control.aborted = true ∨ interruptions s.store.backend < interruptions t.store.backend

theorem Continues.trans (first : Continues interruptions s t) (second : Continues interruptions t u) :
    Continues interruptions s u :=
  ⟨second.encoding.trans first.encoding, second.control.trans first.control,
    Nat.le_trans first.interruptions second.interruptions⟩

theorem Follows.refl (s : Session σ) : Follows interruptions s s := ⟨⟨rfl, rfl, Nat.le_refl _⟩, rfl⟩

theorem Follows.trans (first : Follows interruptions s t) (second : Follows interruptions t u) :
    Follows interruptions s u :=
  ⟨first.toContinues.trans second.toContinues, second.ledger.trans first.ledger⟩

theorem Maintains.refl (s : Session σ) : Maintains count s s := ⟨.refl s, .refl s.store⟩

theorem Maintains.trans (first : Maintains count s t) (second : Maintains count t u) :
    Maintains count s u :=
  ⟨first.toFollows.trans second.toFollows, first.conserves.trans second.conserves⟩

theorem Follows.failed [Backend σ] {failure : Failure} (follows : Follows count s t)
    (failed : Failed count failure t u) : Failed count failure s u := by
  obtain ⟨between, assumptions, before, answer, after⟩ := failed
  exact ⟨between, assumptions, follows.trans before, answer, after⟩

theorem Failed.follows [Backend σ] {failure : Failure} (failed : Failed count failure s t)
    (follows : Follows count t u) : Failed count failure s u := by
  obtain ⟨between, assumptions, before, answer, after⟩ := failed
  exact ⟨between, assumptions, before, answer, after.trans follows⟩

theorem Continues.numPrimary (continues : Continues interruptions s t) :
    t.numPrimary = s.numPrimary := by
  rw [Session.numPrimary, Loaded.numPrimary, continues.encoding]
  rfl

theorem Continues.admits (continues : Continues interruptions s t) {a : Nat → Bool} :
    t.Admits live assumptions a ↔ s.Admits live assumptions a := by
  rw [Admits, Admits, continues.encoding]

theorem Continues.stopped (continues : Continues interruptions s t)
    (stopped : Stopped interruptions t u) : Stopped interruptions s u := by
  rw [Stopped, continues.control] at stopped
  exact stopped.imp_right (Nat.lt_of_le_of_lt continues.interruptions)

theorem Stopped.continues (stopped : Stopped interruptions s t)
    (continues : Continues interruptions t u) : Stopped interruptions s u :=
  stopped.imp_right fun less => Nat.lt_of_lt_of_le less continues.interruptions

theorem Guarded.of_continues (guarded : s.Guarded held base live) (continues : Continues count s t)
    {other : List (Nat × Clause)}
    (guards : t.store.Guards held base s.loaded.encoding.cnf.numVars other) :
    t.Guarded held base other := by
  have primary := guarded.primary
  rw [← continues.numPrimary] at primary
  constructor
  · rw [continues.encoding]
    exact guards
  · rw [continues.encoding]
    exact guarded.roots
  · rw [continues.encoding]
    exact primary
  · rw [continues.encoding]
    exact guarded.small

theorem Ready.guarded (ready : s.Ready held live) :
    s.Guarded held s.loaded.encoding.cnf.clauses.toList live :=
  ⟨ready.guards, ready.roots, ready.primary, ready.small⟩

theorem Ready.of_guarded (ready : s.Ready held live) (continues : Continues count s t)
    {other : List (Nat × Clause)}
    (guarded : t.Guarded held s.loaded.encoding.cnf.clauses.toList other) : t.Ready held other := by
  refine ⟨?_, guarded.roots, guarded.primary, guarded.small, ?_⟩
  · rw [continues.encoding]
    exact continues.encoding ▸ guarded.guards
  · rw [continues.control]
    exact ready.unlimited

theorem Ready.of_continues (ready : s.Ready held live) (continues : Continues interruptions s t)
    {other : List (Nat × Clause)} (guards : t.store.Guards held
      s.loaded.encoding.cnf.clauses.toList s.loaded.encoding.cnf.numVars other) :
    t.Ready held other :=
  ready.of_guarded continues (ready.guarded.of_continues continues guards)

variable [Backend σ]

theorem addConstraint_guarded (faithful : Faithful σ held) (gauge : Gauge σ count)
    (guarded : s.Guarded held base live) (fits : Mentions s.loaded.encoding.cnf.numVars clause) :
    Maintains count s (s.addConstraint clause).2 ∧
      (s.addConstraint clause).2.value = s.value ∧
      match (s.addConstraint clause).1 with
      | some handle => handle ∉ live.map Prod.fst ∧
          (s.addConstraint clause).2.Guarded held base (live ++ [(handle, clause)])
      | none => (s.addConstraint clause).2.Guarded held base live ∧ (clause ≠ [] →
          Refused Clause.compound count s.store.backend
            (s.addConstraint clause).2.store.backend) := by
  obtain ⟨model, added⟩ := Store.addConstraint_guarded faithful guarded.guards fits
  have maintains : Maintains count s (s.addConstraint clause).2 :=
    ⟨⟨⟨rfl, rfl, Store.addConstraint_count gauge⟩, rfl⟩, Store.addConstraint_conserves⟩
  have same : (s.addConstraint clause).1 = (s.store.addConstraint clause).1 := rfl
  refine ⟨maintains, model, ?_⟩
  rw [same]
  cases answer : (s.store.addConstraint clause).1 with
  | some handle =>
    simp only [answer] at added ⊢
    refine ⟨fun known => ?_, guarded.of_continues maintains.toContinues added.2⟩
    have old := (guarded.guards.ranges _ known).2
    omega
  | none =>
    simp only [answer] at added ⊢
    refine ⟨guarded.of_continues maintains.toContinues added, fun some => ?_⟩
    apply Store.addConstraint_refused gauge _ answer
    intro guard
    simpa [Clause.compound, List.length_pos_iff] using some

theorem removeConstraint_guarded (faithful : Faithful σ held) (gauge : Gauge σ count)
    (guarded : s.Guarded held base live) (handle : Nat) :
    Maintains count s (s.removeConstraint handle) ∧
      (s.removeConstraint handle).Guarded held base (live.filter (·.1 ≠ handle)) ∧
      (s.removeConstraint handle).value = s.value := by
  obtain ⟨guards, model⟩ := Store.removeConstraint_guarded faithful guarded.guards handle
  have maintains : Maintains count s (s.removeConstraint handle) :=
    ⟨⟨⟨rfl, rfl, Store.removeConstraint_count gauge handle⟩, rfl⟩,
      Store.removeConstraint_conserves handle⟩
  exact ⟨maintains, guarded.of_continues maintains.toContinues guards, model⟩

theorem removeAll_guarded (faithful : Faithful σ held) (gauge : Gauge σ count)
    (guarded : s.Guarded held base live) (handles : List Nat) :
    Maintains count s (handles.foldl removeConstraint s) ∧
      (handles.foldl removeConstraint s).Guarded held base (live.filter (·.1 ∉ handles)) ∧
      (handles.foldl removeConstraint s).value = s.value := by
  induction handles generalizing s live with
  | nil =>
    have all : live.filter (·.1 ∉ ([] : List Nat)) = live := by simp
    rw [all]
    exact ⟨.refl s, guarded, rfl⟩
  | cons handle rest ih =>
    obtain ⟨maintains, between, model⟩ := removeConstraint_guarded faithful gauge guarded handle
    obtain ⟨further, final, same⟩ := ih between
    rw [List.filter_filter] at final
    have both : (fun entry : Nat × Clause => decide (entry.1 ∉ rest) && decide (entry.1 ≠ handle)) =
        fun entry => decide (entry.1 ∉ handle :: rest) := by
      funext entry
      rw [← Bool.decide_and, decide_eq_decide, List.mem_cons, not_or]
      exact And.comm
    rw [both] at final
    exact ⟨maintains.trans further, final, same.trans model⟩

theorem solve_guarded (faithful : Faithful σ held) (gauge : Gauge σ count)
    (guarded : s.Guarded held base live) (assumptions : List Int) :
    Maintains count s (s.solve assumptions).2 ∧
      (s.solve assumptions).2.Guarded held base live := by
  unfold solve
  split
  · exact ⟨.refl s, guarded⟩
  · have guards := Store.solve_guarded faithful guarded.guards
      (s.loaded.encoding.assumptions ++ assumptions)
    have maintains : Maintains count s { s.withStore (s.store.solve
        (s.loaded.encoding.assumptions ++ assumptions)).2 with calls := s.calls + 1 } :=
      ⟨⟨⟨rfl, rfl, Store.solve_count gauge _⟩, rfl⟩, Store.solve_conserves _⟩
    exact ⟨maintains, guarded.of_continues maintains.toContinues guards⟩

theorem solve_decides (faithful : Faithful σ held) (guarded : s.Guarded held base live)
    (fits : Mentions s.loaded.encoding.cnf.numVars assumptions) :
    ((s.solve assumptions).1 ≠ .ok true → (s.solve assumptions).2.value = s.value) ∧
      match (s.solve assumptions).1 with
      | .ok true => Allows base live (s.loaded.encoding.assumptions ++ assumptions)
          (s.solve assumptions).2.value
      | .ok false => ∀ a, ¬ Allows base live (s.loaded.encoding.assumptions ++ assumptions) a
      | .error _ => True := by
  unfold solve
  cases s.control.check with
  | error failure => exact ⟨fun _ => rfl, trivial⟩
  | ok _ =>
    apply Store.solve_decides faithful guarded.guards
    exact List.forall_mem_append.mpr ⟨guarded.roots, fits⟩

theorem solve_failed (faithful : Faithful σ held) (guarded : s.Guarded held base live)
    (fits : Mentions s.loaded.encoding.cnf.numVars assumptions)
    (refuted : (s.solve assumptions).1 = .ok false) :
    (s.solve assumptions).2.store.failed.get ⊆ s.loaded.encoding.assumptions ++ assumptions ∧
      ∀ a, ¬ Allows base live (s.solve assumptions).2.store.failed.get a := by
  unfold solve at refuted ⊢
  cases checked : s.control.check with
  | error failure =>
    rw [checked] at refuted
    cases refuted
  | ok _ =>
    simp only [checked] at refuted
    apply Store.solve_failed faithful guarded.guards _ refuted
    exact List.forall_mem_append.mpr ⟨guarded.roots, fits⟩

/-- A search of a sound solver without a time limit that gives no answer was aborted. -/
theorem solve_stopped (oracle : Oracle σ held interruptions) (unlimited : s.control.limitMs ≠ some 0)
    {failure : Failure} (failed : (s.solve assumptions).1 = .error failure) :
    failure = .aborted ∧ Stopped interruptions s (s.solve assumptions).2 := by
  unfold solve at failed ⊢
  cases checked : s.control.check with
  | error cause =>
    simp only [checked, Except.error.injEq] at failed ⊢
    obtain rfl := failed
    unfold Control.check at checked
    split at checked
    · rename_i aborted
      cases checked
      exact ⟨rfl, .inl aborted⟩
    split at checked
    · rename_i expired
      exact absurd expired.2 unlimited
    · cases checked
  | ok _ =>
    obtain ⟨-, counted⟩ := @Store.solve_interruptions σ held interruptions s.store _ oracle
      (s.loaded.encoding.assumptions ++ assumptions)
    simp only [checked] at failed ⊢
    rw [failed] at counted
    exact ⟨counted.1, .inr counted.2⟩

theorem Failed.stopped {failure : Failure} (failed : Failed interruptions failure s t)
    (oracle : Oracle σ held interruptions) (unlimited : s.control.limitMs ≠ some 0) :
    failure = .aborted ∧ Stopped interruptions s t := by
  obtain ⟨between, assumptions, before, answer, after⟩ := failed
  have running : between.control.limitMs ≠ some 0 := by
    rw [before.control]
    exact unlimited
  obtain ⟨aborted, stopped⟩ := solve_stopped oracle running answer
  exact ⟨aborted, (before.stopped stopped).continues after.toContinues⟩

/-- A search answers for the encoding, the live constraints and the assumptions, unless it is
aborted. -/
theorem solve_ready (oracle : Oracle σ held interruptions) (ready : s.Ready held live)
    (fits : Mentions s.loaded.encoding.cnf.numVars assumptions) :
    Follows interruptions s (s.solve assumptions).2 ∧ (s.solve assumptions).2.Ready held live ∧
      match (s.solve assumptions).1 with
      | .ok true => s.Admits live assumptions (s.solve assumptions).2.value
      | .ok false => ∀ a, ¬ s.Admits live assumptions a
      | .error failure => failure = .aborted ∧ Stopped interruptions s (s.solve assumptions).2 := by
  obtain ⟨maintains, guarded⟩ :=
    solve_guarded oracle.faithful oracle.gauge ready.guarded assumptions
  obtain ⟨-, answers⟩ := solve_decides oracle.faithful ready.guarded fits
  refine ⟨maintains.toFollows, ready.of_guarded maintains.toContinues guarded, ?_⟩
  split at answers
  · exact answers
  · exact answers
  · rename_i failed
    exact solve_stopped oracle ready.unlimited failed

theorem solve_expired (expired : s.control.limitMs = some 0) (running : s.control.running = true)
    (assumptions : List Int) : ∃ failure, s.solve assumptions = (.error failure, s) := by
  unfold solve
  cases checked : s.control.check with
  | error failure => exact ⟨failure, rfl⟩
  | ok _ =>
    unfold Control.check at checked
    split at checked
    · cases checked
    · rw [if_pos ⟨running, expired⟩] at checked
      cases checked

end Session

end ModelFinder
