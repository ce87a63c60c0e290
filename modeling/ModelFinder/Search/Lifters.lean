import ModelFinder.Search.Session

/-! Lifters: the primary variables that some model makes true together with given ones. Each round
asks for a model in which at least one of the remaining candidates is true. -/
namespace ModelFinder.Session

variable {σ : Type} [Backend σ]

/-- Looks for a model in which one of the candidates is true. A single candidate is assumed, several
are asked for by a constraint that is taken back afterwards. Gives nothing when the constraint is
refused. -/
def anyCandidate (s : Session σ) (units : List Int) (candidates : List Nat) :
    Option (Except Failure Bool) × Session σ :=
  match candidates with
  | [only] =>
      let (answer, s) := s.solve (units ++ [(only : Int)])
      (some answer, s)
  | _ =>
      match s.addConstraint (candidates.map Int.ofNat) with
      | (none, s) => (none, s)
      | (some handle, s) =>
          let (answer, s) := s.solve units
          (some answer, s.removeConstraint handle)

def collectLifters : (limit : Nat) → Session σ → (units : List Int) →
    (candidates found : List Nat) → Except Failure (List Nat) × Session σ
  | 0, s, _, _, found => (.ok found, s)
  | limit + 1, s, units, candidates, found =>
      if candidates.isEmpty then (.ok found, s)
      else
        match s.anyCandidate units candidates with
        | (some (.ok true), s) =>
            collectLifters limit s units (candidates.filter (!s.value ·))
              (found ++ candidates.filter s.value)
        | (some (.error failure), s) => (.error failure, s)
        | (_, s) => (.ok found, s)

/-- The primary variables outside `preserved` that some model makes true together with all of
`preserved`, ascending. Cone clauses are taken back first and stay so. A model found makes a
candidate true, so the number of candidates bounds the rounds. -/
def lifters (s : Session σ) (preserved : List Nat) : Except Failure (List Nat) × Session σ :=
  let s := s.clear
  let candidates := (List.range' 1 s.numPrimary).filter (!preserved.contains ·)
  let units := preserved.map fun (v : Nat) => signedWord v
  let (result, s) := collectLifters candidates.length s units candidates []
  (result.map (·.mergeSort (· ≤ ·)), s)

end ModelFinder.Session
