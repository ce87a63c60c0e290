import ModelFinder.Proofs.Search.Session
import ModelFinder.Search.Lifters
import ModelFinder.Search.Minimize

/-! What searches leave alone, whatever the solver answers: the encoding, the control and the recorded
clauses. -/
namespace ModelFinder

theorem Ledger.assertWhere_clauses {σ : Type} [Backend σ] (p : LedgerEntry → Bool) (store : Store σ)
    (entries : List LedgerEntry) :
    (assertWhere p store entries).1.map (·.clause) = entries.map (·.clause) := by
  induction entries generalizing store with
  | nil => rfl
  | cons e rest ih =>
    have kept : (assertEntry store e).1.clause = e.clause := by
      unfold assertEntry
      split <;> rfl
    simp only [assertWhere]
    split
    · rw [List.map_cons, List.map_cons, ih, kept]
    · rw [List.map_cons, List.map_cons, ih]

namespace Session

variable {σ : Type} [Backend σ]

theorem solve_follows (s : Session σ) (assumptions : List Int) :
    Follows (fun _ => 0) s (s.solve assumptions).2 := by
  unfold solve
  split
  · exact .refl s
  · exact ⟨⟨rfl, rfl, Nat.le_refl _⟩, rfl⟩

theorem addConstraint_follows (s : Session σ) (clause : Clause) :
    Follows (fun _ => 0) s (s.addConstraint clause).2 :=
  ⟨⟨rfl, rfl, Nat.le_refl _⟩, rfl⟩

theorem removeAll_follows (s : Session σ) (handles : List Nat) :
    Follows (fun _ => 0) s (handles.foldl removeConstraint s) := by
  induction handles generalizing s with
  | nil => exact .refl s
  | cons handle rest ih =>
    have removed : Follows (fun _ => 0) s (s.removeConstraint handle) :=
      ⟨⟨rfl, rfl, Nat.le_refl _⟩, rfl⟩
    exact removed.trans (ih _)

theorem shrinkModel_follows (limit : Nat) (s : Session σ) (units : List Int)
    (free handles : List Nat) (rounds : Nat) :
    Follows (fun _ => 0) s (shrinkModel limit s units free handles rounds).2 := by
  induction limit generalizing s units free handles rounds with
  | zero => exact .refl s
  | succ limit ih =>
    simp only [shrinkModel]
    split
    · exact .refl s
    have added := s.addConstraint_follows (Ledger.coneClause s.truePrimaries)
    generalize s.addConstraint (Ledger.coneClause s.truePrimaries) = out at added
    obtain ⟨_ | handle, t⟩ := out
    · exact added
    dsimp only at added ⊢
    generalize units ++ (free.partition s.value).2.map (fun (v : Nat) => -(v : Int)) = assumed
    have searched := t.solve_follows assumed
    generalize t.solve assumed = answer at searched
    obtain ⟨failure | _ | _, u⟩ := answer
    · exact added.trans searched
    · exact added.trans searched
    · exact (added.trans searched).trans (ih u _ _ _ _)

theorem minimize_follows (s : Session σ) (assumptions : List Int) :
    Follows (fun _ => 0) s (s.minimize assumptions).2 := by
  unfold minimize
  exact (s.shrinkModel_follows _ _ _ _ _).trans (removeAll_follows _ _)

theorem findMinimal_follows (s : Session σ) (assumptions : List Int) :
    Follows (fun _ => 0) s (s.findMinimal assumptions).2 := by
  have searched := s.solve_follows assumptions
  unfold findMinimal
  generalize s.solve assumptions = answer at searched
  obtain ⟨failure | _ | _, t⟩ := answer
  · exact searched
  · exact searched
  have shrunk := t.minimize_follows assumptions
  dsimp only at searched ⊢
  generalize t.minimize assumptions = rounds at shrunk
  obtain ⟨failure | _, u⟩ := rounds
  · exact searched.trans shrunk
  · exact searched.trans shrunk

theorem anyCandidate_follows (s : Session σ) (units : List Int) (candidates : List Nat) :
    Follows (fun _ => 0) s (s.anyCandidate units candidates).2 := by
  unfold anyCandidate
  split
  · exact s.solve_follows _
  have added := s.addConstraint_follows (candidates.map Int.ofNat)
  generalize s.addConstraint (candidates.map Int.ofNat) = out at added
  obtain ⟨_ | handle, t⟩ := out
  · exact added
  · exact added.trans ((t.solve_follows units).trans (removeAll_follows _ [handle]))

theorem collectLifters_follows (limit : Nat) (s : Session σ) (units : List Int)
    (candidates found : List Nat) :
    Follows (fun _ => 0) s (collectLifters limit s units candidates found).2 := by
  induction limit generalizing s candidates found with
  | zero => exact .refl s
  | succ limit ih =>
    simp only [collectLifters]
    split
    · exact .refl s
    have asked := s.anyCandidate_follows units candidates
    generalize s.anyCandidate units candidates = out at asked
    obtain ⟨_ | failure | _ | _, t⟩ := out
    · exact asked
    · exact asked
    · exact asked
    · exact asked.trans (ih t _ _)

theorem lifters_encoding (s : Session σ) (preserved : List Nat) :
    (s.lifters preserved).2.loaded.encoding = s.loaded.encoding :=
  (s.clear.collectLifters_follows _ _ _ _).encoding

theorem ensureAsserted_clauses (s : Session σ) :
    s.ensureAsserted.ledger.clauses = s.ledger.clauses :=
  Ledger.assertWhere_clauses (fun _ => true) s.store s.ledger.entries

end Session

end ModelFinder
