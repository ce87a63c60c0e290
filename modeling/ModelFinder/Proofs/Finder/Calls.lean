import ModelFinder.Proofs.Finder.Models
import ModelFinder.Proofs.Finder.Residue

/-! What a call of an enumeration can do. A call for the next solution goes by the phase: it starts or
resumes a search, or it answers a formula that folds. A search ends in one of five ways. What calls keep
is shown case by case along these two relations. -/
namespace ModelFinder.Enumeration

variable {σ : Type} [Backend σ] {e : Enumeration σ} {f : Formula} {b : Bounds} {result : Folded}

/-- The ways in which the end of a search is answered: the search was aborted or failed otherwise, or
it found a model that can be read or not, or there is none. The enumeration is left as the search was
begun, but for its phase. -/
inductive Advances (e : Enumeration σ) (b : Bounds) (previous : Option (List Nat)) :
    Except Failure Bool × Session σ → Except Error Solution × Enumeration σ → Prop where
  | aborted {t : Session σ} :
      Advances e b previous (.error .aborted, t)
        (.error .aborted, { e with phase := .live t b previous })
  | failed {failure : Failure} {t : Session σ} (other : failure ≠ .aborted) :
      Advances e b previous (.error failure, t)
        (.error failure.toError, { e with phase := .exhausted })
  | found {solution : Solution} {t : Session σ} (read : Solution.ofModel t.loaded b = .ok solution) :
      Advances e b previous (.ok true, t)
        (.ok solution, { e with phase := .live t.excludeCone b (some t.truePrimaries) })
  | unread {error : Error} {t : Session σ} (read : Solution.ofModel t.loaded b = .error error) :
      Advances e b previous (.ok true, t)
        (.error error, { e with phase := .live t.excludeCone b (some t.truePrimaries) })
  | refuted {t : Session σ} :
      Advances e b previous (.ok false, t)
        (.ok (Solution.ofFailure t.loaded), { e with phase := .exhausted })

theorem advance_advances (e : Enumeration σ) (s : Session σ) (b : Bounds)
    (previous : Option (List Nat)) :
    Advances
      { e with announcements := e.announcements ++ [s.arm.ensureAsserted.loaded.announcement] }
      b previous (s.arm.ensureAsserted.findMinimal e.assumptions) (e.advance s b previous) := by
  unfold advance
  dsimp only
  rcases s.arm.ensureAsserted.findMinimal e.assumptions with ⟨failure | _ | _, t⟩
  · cases failure with
    | aborted => exact .aborted
    | _ => exact .failed fun isAborted => by cases isAborted
  · exact .refuted
  · dsimp only
    cases read : Solution.ofModel t.loaded b with
    | ok solution => exact .found read
    | error error => exact .unread read

/-- A formula that folds to true is answered by the lower bounds, and its residue comes next. -/
theorem next_folded_true (regular : b.Regular) (pending : e.phase = .pending f b)
    (folded : f.encode b e.options.sharing e.options.logged = .ok (.folded result))
    (isTrue : result.value = true) :
    ∃ m stats g c, (m.Lowest b ∧ m.Over b.univ) ∧
      Residue.ofFolded (e.trivialCount + 1) result = .ok (g, c) ∧
      e.next = (.ok (.triviallySat m stats),
        { e with trivialCount := e.trivialCount + 1, phase := .pending g c }) := by
  have bounds := (Formula.folded_eq folded).2
  obtain ⟨m, answer, lowest⟩ := Solution.ofFolded_lowest regular bounds isTrue
  obtain ⟨residue, -, made⟩ := Residue.ofFolded_asks regular (e.trivialCount + 1) bounds
  refine ⟨m, ⟨b.unknownCount, 0, 0, 0, 0⟩, _, _,
    ⟨lowest, bounds ▸ Solution.ofFolded_over answer rfl⟩, made, ?_⟩
  simp only [next, pending, folded, answerFolded, answer, isTrue, if_true, made]

/-- A formula that folds to false is answered once, with the refutation that its log gives. -/
theorem next_folded_refuted (pending : e.phase = .pending f b)
    (folded : f.encode b e.options.sharing e.options.logged = .ok (.folded result))
    (isFalse : result.value = false) :
    ∃ stats, e.next = (.ok (.triviallyUnsat (result.log.map .ofFolded) stats),
      { e with trivialCount := e.trivialCount + 1, phase := .exhausted }) := by
  obtain ⟨stats, answer⟩ := @Solution.ofFolded_false b result isFalse
  refine ⟨stats, ?_⟩
  simp only [next, pending, folded, answerFolded, answer, isFalse, Bool.false_eq_true, if_false]

/-- The ways in which a call for the next solution is answered, where the bounds of a formula that
waits are in order. -/
inductive Steps (e : Enumeration σ) : Except Error Solution × Enumeration σ → Prop where
  | exhausted (phase : e.phase = .exhausted) : Steps e (.error .exhausted, e)
  | resumed {s : Session σ} {c : Bounds} {model : Option (List Nat)}
      (phase : e.phase = .live s c model) : Steps e (e.advance s c model)
  | rejected {g : Formula} {c : Bounds} {error : Error} (phase : e.phase = .pending g c)
      (encoded : g.encode c e.options.sharing e.options.logged = .error error) :
      Steps e (.error error, { e with phase := .exhausted })
  | started {g : Formula} {c : Bounds} {encoding : Encoding} (phase : e.phase = .pending g c)
      (encoded : g.encode c e.options.sharing e.options.logged = .ok (.clauses encoding)) :
      Steps e (e.advance (Session.start (encoding.load e.backend) e.options.control) c none)
  | lowest {g h : Formula} {c d : Bounds} {result : Folded} {m : Instance} {stats : Statistics}
      (phase : e.phase = .pending g c)
      (encoded : g.encode c e.options.sharing e.options.logged = .ok (.folded result))
      (isTrue : result.value = true) (lowest : m.Lowest c) (isOver : m.Over c.univ)
      (residue : Residue.ofFolded (e.trivialCount + 1) result = .ok (h, d)) :
      Steps e (.ok (.triviallySat m stats),
        { e with trivialCount := e.trivialCount + 1, phase := .pending h d })
  | refuted {g : Formula} {c : Bounds} {result : Folded} {stats : Statistics}
      (phase : e.phase = .pending g c)
      (encoded : g.encode c e.options.sharing e.options.logged = .ok (.folded result))
      (isFalse : result.value = false) :
      Steps e (.ok (.triviallyUnsat (result.log.map .ofFolded) stats),
        { e with trivialCount := e.trivialCount + 1, phase := .exhausted })

theorem next_steps (regular : ∀ g c, e.phase = .pending g c → c.Regular) : e.Steps e.next := by
  cases phase : e.phase with
  | exhausted =>
    simp only [next, phase]
    exact .exhausted phase
  | live s c model =>
    simp only [next, phase]
    exact .resumed phase
  | pending g c =>
    cases encoded : g.encode c e.options.sharing e.options.logged with
    | error error =>
      simp only [next, phase, encoded]
      exact .rejected phase encoded
    | ok result =>
      cases result with
      | clauses encoding =>
        simp only [next, phase, encoded]
        exact .started phase encoded
      | folded result =>
        cases value : result.value with
        | true =>
          obtain ⟨m, stats, h, d, ⟨lowest, isOver⟩, residue, isNext⟩ :=
            next_folded_true (regular g c phase) phase encoded value
          exact isNext ▸ .lowest phase encoded value lowest isOver residue
        | false =>
          obtain ⟨stats, isNext⟩ := next_folded_refuted phase encoded value
          exact isNext ▸ .refuted phase encoded value

end ModelFinder.Enumeration
