import Mathlib.Data.Finset.Powerset
import Mathlib.Order.Interval.Finset.Nat
import ModelFinder.Proofs.Finder.Pursuit

/-! Enumerations come to their end. With a solver that answers every search, an enumeration that is
not aborted delivers the remaining least models one by one, then says once that there are no more, and
fails from then on. The end comes because there are finitely many valuations and none comes twice. -/
namespace ModelFinder

variable {σ : Type} {held : σ → List Clause} {f : Formula} {b : Bounds} {encoding : Encoding}
  {units : List Int}

theorem length_le_of_not_below {count : Nat} {valuations : List (Nat → Bool)}
    (apart : valuations.Pairwise fun a c => ¬ Below count a c) : valuations.length ≤ 2 ^ count := by
  let trues : (Nat → Bool) → Finset Nat := fun a => (Finset.Icc 1 count).filter (a · = true)
  have distinct : (valuations.map trues).Nodup := by
    apply List.pairwise_map.mpr
    apply apart.imp
    intro a c above same
    apply above
    intro v lower upper isTrue
    have member : v ∈ trues a := by simp [trues, lower, upper, isTrue]
    rw [same] at member
    exact (Finset.mem_filter.mp member).2
  have part : (valuations.map trues).toFinset ⊆ (Finset.Icc 1 count).powerset := by
    intro set member
    obtain ⟨a, -, rfl⟩ := List.mem_map.mp (List.mem_toFinset.mp member)
    exact Finset.mem_powerset.mpr (Finset.filter_subset _ _)
  calc valuations.length = (valuations.map trues).toFinset.card := by
        rw [List.toFinset_card_of_nodup distinct, List.length_map]
    _ ≤ (Finset.Icc 1 count).powerset.card := Finset.card_le_card part
    _ = 2 ^ count := by rw [Finset.card_powerset, Nat.card_Icc, Nat.add_sub_cancel]

namespace Enumeration

variable [Backend σ] {e : Enumeration σ}

def answers (e : Enumeration σ) : (calls : Nat) → List (Except Error Solution)
  | 0 => []
  | calls + 1 => e.next.1 :: e.next.2.answers calls

theorem answers_exhausted (finished : e.phase = .exhausted) (calls : Nat) :
    e.answers calls = List.replicate calls (.error .exhausted) := by
  induction calls with
  | zero => rfl
  | succ calls ih =>
    have again : e.next = (.error .exhausted, e) := by simp only [next, finished]
    rw [answers, again, ih]
    rfl

theorem next_options (e : Enumeration σ) : e.next.2.options = e.options := by
  have advanced : ∀ s b previous, (e.advance s b previous).2.options = e.options := by
    intro s b previous
    unfold advance
    simp only
    split <;> rfl
  have answered : ∀ result b, (e.answerFolded result b).2.options = e.options := by
    intro result b
    unfold answerFolded
    simp only
    split
    · rfl
    · split
      · split <;> rfl
      · rfl
  unfold next
  split
  · rfl
  · exact advanced _ _ _
  · split
    · rfl
    · exact answered _ _
    · exact advanced _ _ _

theorem Pursues.exhausts {e : Enumeration σ} {delivered : List ((Nat → Bool) × Instance)}
    (faithful : Faithful σ held) (reliable : Reliable σ)
    (poses : encoding.Poses f b units) (running : e.options.aborted = false)
    (pursues : e.Pursues held f b encoding units delivered) (more : e.hasNext = true)
    (apart : (delivered.map Prod.fst).Pairwise fun a c => ¬ Below encoding.numbering.count a c) :
    ∃ (found : List (((Nat → Bool) × Instance) × Statistics)) (proof : Option Refutation)
      (stats : Statistics) (final : Enumeration σ),
      final.Pursues held f b encoding units (delivered ++ found.map Prod.fst) ∧
      final.phase = .exhausted ∧
      ((delivered ++ found.map Prod.fst).map Prod.fst).Pairwise
        (fun a c => ¬ Below encoding.numbering.count a c) ∧
      ∀ further, e.answers (found.length + 1 + further) =
        found.map (fun d => .ok (.sat d.1.2 d.2)) ++
          .ok (.unsat proof stats) :: List.replicate further (.error .exhausted) := by
  have advanced := next_advanced (reliable.oracle faithful) poses pursues more
  have options := next_options e
  generalize isNext : e.next = out at advanced options
  cases advanced with
  | @found m stats a after fresh pursues' more' =>
    have apart' : ((delivered ++ [(a, m)]).map Prod.fst).Pairwise
        fun a c => ¬ Below encoding.numbering.count a c := by
      rw [List.map_append]
      apply List.pairwise_append.mpr
      refine ⟨apart, List.pairwise_singleton _ _, fun d old c new => ?_⟩
      obtain ⟨pair, isPair, rfl⟩ := List.mem_map.mp old
      rw [List.mem_singleton.mp new]
      exact fresh pair isPair
    -- Delivered assignments differ on the variables, so there is room for one more only so often.
    have bound : delivered.length < 2 ^ encoding.numbering.count := by
      apply Nat.lt_of_succ_le
      simpa using length_le_of_not_below apart'
    obtain ⟨found, proof, last, final, reached, finished, distinct, rest⟩ := Pursues.exhausts faithful
      reliable poses ((congrArg Options.aborted options).trans running) pursues' more' apart'
    have joined : delivered ++ ((((a, m), stats) :: found).map Prod.fst) =
        delivered ++ [(a, m)] ++ found.map Prod.fst := by simp
    refine ⟨((a, m), stats) :: found, proof, last, final, joined ▸ reached, finished, joined ▸ distinct,
      fun further => ?_⟩
    have calls : (((a, m), stats) :: found).length + 1 + further =
        found.length + 1 + further + 1 := by
      rw [List.length_cons]
      omega
    rw [calls, answers, isNext, rest further]
    rfl
  | aborted stopped =>
    rcases stopped with raised | interrupted
    · rw [running] at raised
      cases raised
    · exact absurd interrupted (Nat.lt_irrefl 0)
  | @ended proof stats after reached finished =>
    refine ⟨[], proof, stats, after, by simpa using reached, finished, by simpa using apart,
      fun further => ?_⟩
    rw [List.length_nil, Nat.zero_add, Nat.add_comm, answers, isNext,
      answers_exhausted finished further]
    rfl
termination_by 2 ^ encoding.numbering.count - delivered.length
decreasing_by
  rw [List.length_append, List.length_singleton]
  exact Nat.sub_succ_lt_self _ _ bound

end Enumeration

end ModelFinder
