import ModelFinder.Proofs.Circuit.Operations
import ModelFinder.Proofs.Cnf.Encoder

/-! Any number of definitions and assertions, in any order. The clauses of an encoder are those of
the gates that it has defined and those of the values asserted in between, so they allow just the
inputs under which these values are true, and every literal given out has the truth of its value. -/
namespace ModelFinder

def Value.holds (truth : Nat → Bool) : Value → Bool
  | const b => b
  | lit n => litHolds truth n

theorem Value.holds_truth (c : Circuit) (s : Nat → Bool) (v : Value) :
    v.holds (c.truth s) = v.eval c s := by
  cases v <;> rfl

def Value.literal? : Value → Option Int
  | const _ => none
  | lit n => some n

namespace Encoder

inductive Request where
  | define (value : Value)
  | assert (value : Value)

def Request.value : Request → Value
  | define v | assert v => v

def Request.defined? : Request → Option Value
  | define v => some v
  | assert _ => none

def serve (c : Circuit) : List Request → Encoder → List (Value × Option Int) × Encoder
  | [], e => ([], e)
  | .define v :: rest, e =>
      let (literal, next) := e.define c v
      let (answers, final) := serve c rest next
      ((v, literal) :: answers, final)
  | .assert v :: rest, e => serve c rest (e.assert c v)

variable {c : Circuit} {e : Encoder}

/-- What a visit adds does not depend on the clauses that are there before it. -/
theorem visit_adds (count : Nat) (ahead : List Visit) (e : Encoder) : ∃ added : List Clause,
    ∀ cnf, visit c count ahead { e with cnf } =
      { visit c count ahead e with cnf := cnf.addAll added } := by
  -- Which steps are taken depends on the labels defined so far, not on the clauses.
  fun_induction visit c count ahead e with
  | case1 ahead e => exact ⟨[], fun cnf => rfl⟩
  | case2 count e => exact ⟨[], fun cnf => rfl⟩
  | case3 count label ahead e known ih =>
    obtain ⟨added, same⟩ := ih
    refine ⟨added, fun cnf => ?_⟩
    rw [visit, if_pos known, same]
  | case4 count label ahead e fresh isInput ih =>
    obtain ⟨added, same⟩ := ih
    refine ⟨added, fun cnf => ?_⟩
    rw [visit, if_neg fresh, isInput]
    exact same cnf
  | case5 count label ahead e fresh gate found ih =>
    obtain ⟨added, same⟩ := ih
    refine ⟨added, fun cnf => ?_⟩
    rw [visit, if_neg fresh, found]
    exact same cnf
  | case6 count label gate ahead e ih =>
    obtain ⟨added, same⟩ := ih
    refine ⟨gate.definition label ++ added, fun cnf => ?_⟩
    rw [visit, same]
    simp [Cnf.addAll]

/-- The clauses of an encoder are those of the gates on record and those of the values asserted. All
values that it was called with are settled. -/
structure Served (c : Circuit) (done : List Request) (definitions : Cnf) (e : Encoder) : Prop where
  defines : { e with cnf := definitions }.Defines c
  settled : ∀ r ∈ done, ∀ n, r.value = .lit n → e.Settled c n.natAbs
  meaning : ∀ a, Satisfies a e.cnf.clauses.toList ↔
    Satisfies a definitions.clauses.toList ∧ ∀ v, .assert v ∈ done → v.holds a = true
  mentions : ∀ clause ∈ e.cnf.clauses.toList, Mentions c.maxLabel clause
  numVars : e.cnf.numVars = c.maxLabel

variable {done : List Request} {definitions : Cnf}

theorem empty_served : Served c [] (Encoder.empty c).cnf (Encoder.empty c) :=
  ⟨empty_defines, by simp, by simp, empty_defines.mentions, empty_defines.numVars⟩

theorem Served.reach (served : Served c done definitions e) (formed : c.WellFormed) (label : Nat) :
    ∃ wider, Served c done wider (e.reach c label) ∧ (e.reach c label).Settled c label := by
  obtain ⟨added, same⟩ := visit_adds (c := c) e.limit [.look label] e
  have whole : (e.reach c label).cnf = e.cnf.addAll added := congrArg Encoder.cnf (same e.cnf)
  have apart : ({ e with cnf := definitions } : Encoder).reach c label =
      { e.reach c label with cnf := definitions.addAll added } := same definitions
  obtain ⟨defines, settled, kept⟩ := reach_settles formed served.defines label
  rw [apart] at defines settled kept
  have mentions : ∀ clause ∈ added, Mentions c.maxLabel clause := by
    intro clause member
    refine defines.mentions clause ?_
    rw [Cnf.addAll_clauses]
    exact List.mem_append_right _ member
  refine ⟨definitions.addAll added, ⟨defines, ?_, ?_, ?_, ?_⟩, settled⟩
  · exact fun r member n isLit => kept _ (served.settled r member n isLit)
  · intro a
    rw [whole, Cnf.addAll_clauses, Cnf.addAll_clauses, satisfies_append, satisfies_append,
      served.meaning]
    exact and_right_comm
  · rw [whole, Cnf.addAll_clauses]
    exact List.forall_mem_append.mpr ⟨served.mentions, mentions⟩
  · rw [whole, Cnf.addAll_numVars (served.numVars ▸ mentions), served.numVars]

/-- A call whose value is settled, and asserted by the clauses if the call asserts it. -/
theorem Served.record (served : Served c done definitions e) (r : Request)
    (settled : ∀ n, r.value = .lit n → e.Settled c n.natAbs)
    (holds : ∀ v, r = .assert v → ∀ a, v.holds a = true) :
    Served c (done ++ [r]) definitions e := by
  refine ⟨served.defines, ?_, fun a => ?_, served.mentions, served.numVars⟩
  · exact List.forall_mem_append.mpr ⟨served.settled, List.forall_mem_singleton.mpr settled⟩
  · rw [served.meaning a]
    refine and_congr_right fun _ => forall_congr' fun v => ?_
    rw [List.mem_append, List.mem_singleton, or_imp]
    exact (and_iff_left fun isLast => holds v isLast.symm a).symm

theorem Served.add (served : Served c done definitions e) {v : Value} {clause : Clause}
    (settled : ∀ n, v = .lit n → e.Settled c n.natAbs) (mentions : Mentions c.maxLabel clause)
    (same : ∀ a, clause.holds a = v.holds a) :
    Served c (done ++ [.assert v]) definitions { e with cnf := e.cnf.add clause } := by
  have asAll : e.cnf.add clause = e.cnf.addAll [clause] := rfl
  have mentioned : ∀ other ∈ [clause], Mentions c.maxLabel other :=
    List.forall_mem_singleton.mpr mentions
  refine ⟨served.defines, ?_, fun a => ?_, ?_, ?_⟩
  · exact List.forall_mem_append.mpr ⟨served.settled, List.forall_mem_singleton.mpr settled⟩
  · rw [asAll, Cnf.addAll_clauses, satisfies_append, served.meaning, and_assoc]
    refine and_congr_right fun _ => ?_
    simp [or_imp, forall_and, same]
  · rw [asAll, Cnf.addAll_clauses]
    exact List.forall_mem_append.mpr ⟨served.mentions, mentioned⟩
  · rw [asAll, Cnf.addAll_numVars (served.numVars ▸ mentioned), served.numVars]

theorem define_literal (sound : c.Sound) {v : Value} (inside : v.In c) :
    (e.define c v).1 = v.literal? := by
  cases v with
  | const b => rfl
  | lit n => exact congrArg some (Circuit.label_of_in sound.labelled inside)

theorem Served.define (served : Served c done definitions e) (sound : c.Sound) {v : Value}
    (inside : v.In c) :
    ∃ wider, Served c (done ++ [.define v]) wider (e.define c v).2 := by
  cases v with
  | const b => exact ⟨definitions, served.record _ (by simp [Request.value]) (by simp)⟩
  | lit n =>
    obtain ⟨wider, reached, settled⟩ := served.reach sound.formed n.natAbs
    refine ⟨wider, ?_⟩
    rw [Encoder.define, Circuit.label_of_in sound.labelled inside]
    refine reached.record _ (fun m same => ?_) (by simp)
    obtain rfl := Value.lit.inj same
    exact settled

theorem Served.assert (served : Served c done definitions e) (sound : c.Sound) {v : Value}
    (inside : v.In c) : ∃ wider, Served c (done ++ [.assert v]) wider (e.assert c v) := by
  cases v with
  | const b =>
    cases b with
    | true =>
      refine ⟨definitions, served.record _ (by simp [Request.value]) fun v same => ?_⟩
      obtain rfl := Request.assert.inj same
      exact fun _ => rfl
    | false =>
      exact ⟨definitions, served.add (by simp) (by simp [Mentions]) fun _ => rfl⟩
  | lit n =>
    obtain ⟨wider, reached, settled⟩ := served.reach sound.formed n.natAbs
    refine ⟨wider, ?_⟩
    rw [Encoder.assert, Circuit.label_of_in sound.labelled inside]
    refine reached.add (fun m same => ?_) ?_ fun a => ?_
    · obtain rfl := Value.lit.inj same
      exact settled
    · exact List.forall_mem_singleton.mpr inside
    · simp [Clause.holds, Value.holds]

theorem Served.serve (served : Served c done definitions e) (sound : c.Sound)
    {requests : List Request} (inside : ∀ r ∈ requests, r.value.In c) :
    (∃ wider, Served c (done ++ requests) wider (Encoder.serve c requests e).2) ∧
      (Encoder.serve c requests e).1 =
        (requests.filterMap Request.defined?).map fun v => (v, v.literal?) := by
  induction requests generalizing e done definitions with
  | nil => exact ⟨⟨definitions, by rwa [List.append_nil]⟩, rfl⟩
  | cons r rest ih =>
    obtain ⟨here, later⟩ := List.forall_mem_cons.mp inside
    rw [List.append_cons]
    cases r with
    | define v =>
      have here : v.In c := here
      obtain ⟨wider, next⟩ := served.define sound here
      obtain ⟨final, answers⟩ := ih next later
      refine ⟨final, ?_⟩
      show (v, (e.define c v).1) :: (Encoder.serve c rest (e.define c v).2).1 = _
      rw [answers, define_literal sound here]
      rfl
    | assert v =>
      obtain ⟨wider, next⟩ := served.assert sound here
      exact ih next later

theorem Served.truth (served : Served c done definitions e) (formed : c.WellFormed)
    {a s : Nat → Bool} (same : ∀ v, 1 ≤ v → v ≤ c.inputs → a v = s v)
    (holds : Satisfies a e.cnf.clauses.toList) {r : Request} (called : r ∈ done)
    (inside : r.value.In c) : r.value.holds a = r.value.eval c s := by
  have definitions_hold := ((served.meaning a).mp holds).1
  cases isLit : r.value with
  | const b => rfl
  | lit n =>
    rw [isLit] at inside
    obtain ⟨nonzero, small⟩ := inside
    exact litHolds_congr (served.defines.truth formed same definitions_hold (by omega) small
      (served.settled r called n isLit))

end Encoder

/-- Whatever operations have built a circuit and whatever was defined and asserted of its wires: an
assignment to the inputs extends to the clauses exactly if all asserted values are true under it, and
in all such extensions every literal given out is as true as its value. Only constants are given no
literal, and all literals are labels of the circuit up to their sign. -/
theorem encoding_exact {inputs : Nat} {sharing : Bool} {wires : List Wire} {c : Circuit}
    (built : Circuit.Built inputs sharing wires c) (labelled : c.Labelled)
    (requests : List Encoder.Request) (known : ∀ r ∈ requests, ∃ w ∈ wires, r.value = w.value) :
    let answers := (Encoder.serve c requests (.empty c)).1
    let clauses := (Encoder.serve c requests (.empty c)).2.cnf.clauses.toList
    (∀ s, ((∃ a, (∀ v, 1 ≤ v → v ≤ inputs → a v = s v) ∧ Satisfies a clauses) ↔
        ∀ v, .assert v ∈ requests → v.eval c s = true) ∧
      ∀ a, (∀ v, 1 ≤ v → v ≤ inputs → a v = s v) → Satisfies a clauses →
        ∀ v l, (v, some l) ∈ answers → litHolds a l = v.eval c s) ∧
      answers.map Prod.fst = requests.filterMap Encoder.Request.defined? ∧
      (∀ v, (v, none) ∈ answers → ∃ b, v = .const b) ∧
      (∀ v l, (v, some l) ∈ answers → Mentions c.maxLabel [l]) ∧
      ∀ clause ∈ clauses, Mentions c.maxLabel clause := by
  obtain ⟨sound, rfl, issued⟩ := built.issues labelled
  have inside : ∀ r ∈ requests, r.value.In c := by
    intro r called
    obtain ⟨w, isWire, same⟩ := known r called
    exact same ▸ (issued w isWire).inside
  obtain ⟨⟨definitions, served⟩, isAnswers⟩ := Encoder.empty_served.serve sound inside
  rw [List.nil_append] at served
  intro answers clauses
  have answered : ∀ v literal, (v, literal) ∈ answers →
      .define v ∈ requests ∧ literal = v.literal? := by
    intro v literal member
    rw [show answers = _ from isAnswers] at member
    obtain ⟨w, isDefined, same⟩ := List.mem_map.mp member
    obtain ⟨rfl, rfl⟩ := Prod.mk.inj same
    obtain ⟨r, called, isDefine⟩ := List.mem_filterMap.mp isDefined
    cases r with
    | define u => exact ⟨Option.some.inj isDefine ▸ called, rfl⟩
    | assert u => cases isDefine
  have truth : ∀ a s, (∀ v, 1 ≤ v → v ≤ c.inputs → a v = s v) → Satisfies a clauses →
      ∀ r ∈ requests, r.value.holds a = r.value.eval c s :=
    fun a s same holds r called => served.truth sound.formed same holds called (inside r called)
  have literals : ∀ v l, (v, some l) ∈ answers → .define v ∈ requests ∧ v = .lit l := by
    intro v l member
    obtain ⟨called, isLiteral⟩ := answered v (some l) member
    cases v with
    | const b => cases isLiteral
    | lit n => exact ⟨called, congrArg Value.lit (Option.some.inj isLiteral).symm⟩
  refine ⟨fun s => ⟨⟨?asserted, ?holds⟩, ?given⟩, ?all, ?none, ?labels, served.mentions⟩
  case asserted =>
    rintro ⟨a, same, holds⟩ v asserted
    have sameTruth : v.holds a = v.eval c s := truth a s same holds (.assert v) asserted
    exact sameTruth ▸ ((served.meaning a).mp holds).2 v asserted
  case holds =>
    -- The gates, also those that no clause defines, have their truth in the circuit.
    intro allTrue
    refine ⟨c.truth s, fun v _ isInput => ?_, (served.meaning _).mpr ⟨?_, fun v asserted => ?_⟩⟩
    · rw [Circuit.truth, Circuit.extend_of_lt _ _ _ _ (by omega)]
    · exact served.defines.satisfied sound.formed s
    · rw [Value.holds_truth]
      exact allTrue v asserted
  case given =>
    intro a same holds v l member
    obtain ⟨called, rfl⟩ := literals v l member
    exact truth a s same holds (.define (.lit l)) called
  case all =>
    rw [show answers = _ from isAnswers, List.map_map]
    exact List.map_id' _
  case none =>
    intro v member
    obtain ⟨-, noLiteral⟩ := answered v none member
    cases v with
    | const b => exact ⟨b, rfl⟩
    | lit n => cases noLiteral
  case labels =>
    intro v l member
    obtain ⟨called, rfl⟩ := literals v l member
    exact List.forall_mem_singleton.mpr (inside _ called)

namespace Sample

def requests : List Encoder.Request := [.define both.value, .define right.value, .assert both.value]

end Sample

theorem sample_encoding_exact :
    (Encoder.serve Sample.joined Sample.requests (.empty Sample.joined)).1.map Prod.fst =
        [Sample.both.value, Sample.right.value] ∧
      ∀ s, (∃ a, (∀ v, 1 ≤ v → v ≤ 2 → a v = s v) ∧ Satisfies a
          (Encoder.serve Sample.joined Sample.requests (.empty Sample.joined)).2.cnf.clauses.toList) ↔
        Sample.both.value.eval Sample.joined s = true := by
  have known : ∀ r ∈ Sample.requests, ∃ w ∈ [Sample.both, Sample.right, Sample.left],
      r.value = w.value := by
    simp [Sample.requests, Encoder.Request.value]
  obtain ⟨meaning, answered, -⟩ :=
    encoding_exact Sample.both_built Sample.joined_labelled Sample.requests known
  refine ⟨answered, fun s => (meaning s).1.trans ?_⟩
  simp [Sample.requests]

namespace Sample

/-- A conjunction whose number is beyond the words, so that its label is negative. -/
def wrapped : Wire := ⟨.lit 2147483649, .and⟩

/-- The first input joined with the second and then with the third, with no labels left. -/
def overfull : Circuit :=
  (Circuit.append (.and [1, 3]) (Circuit.append (.and [1, 2]) crowded).2).2

theorem wrapped_built : Circuit.Built 2147483647 false
    [wrapped, ⟨.lit 2147483648, .and⟩, ⟨.lit 3, .input⟩, right, left] overfull := by
  have one : crowded.input 1 = .ok left.value := by decide
  have two : crowded.input 2 = .ok right.value := by decide
  have three : crowded.input 3 = .ok (.lit 3) := by decide
  have inputs := ((Circuit.Built.start.input one).input two).input three
  have first : left.and right crowded =
      (⟨.lit 2147483648, .and⟩, (Circuit.append (.and [1, 2]) crowded).2) :=
    and_run (by decide) (Ascending.sort_pair (by decide)).1 (by decide) rfl
  have second : left.and ⟨.lit 3, .input⟩ (Circuit.append (.and [1, 2]) crowded).2 =
      (wrapped, overfull) := and_run (by decide) (Ascending.sort_pair (by decide)).1 (by decide) rfl
  exact (inputs.operation (.and left right) (by decide) first).operation
    (.and left ⟨.lit 3, .input⟩) (by decide) second

/-- The label is taken for that of an input, so the visit finds nothing to define. -/
theorem serve_wrapped : Encoder.serve overfull [.define wrapped.value] (.empty overfull) =
    ([(wrapped.value, some (-2147483647))], .empty overfull) := by
  have label : wrapped.value.label = -2147483647 := by decide
  have isInput : overfull.gate? 2147483647 = none := rfl
  have unchanged : Encoder.visit overfull 7 [.look 2147483647] (.empty overfull) =
      .empty overfull := by
    rw [Encoder.visit, if_neg (by simp [Encoder.empty]), isInput]
    rfl
  show ([(wrapped.value, some wrapped.value.label)],
    (Encoder.empty overfull).reach overfull wrapped.value.label.natAbs) = _
  rw [label]
  exact congrArg (Prod.mk _) unchanged

end Sample

/-- Where labels run out, a gate is given the literal of another value: it is false where the gate is
true, and no clause forbids that. -/
theorem wrapped_label_defines_other :
    Circuit.Built 2147483647 false [Sample.wrapped, ⟨.lit 2147483648, .and⟩, ⟨.lit 3, .input⟩,
        Sample.right, Sample.left] Sample.overfull ∧
      Encoder.serve Sample.overfull [.define Sample.wrapped.value] (.empty Sample.overfull) =
        ([(Sample.wrapped.value, some (-2147483647))], .empty Sample.overfull) ∧
      Satisfies (fun _ => true) (Encoder.empty Sample.overfull).cnf.clauses.toList ∧
      litHolds (fun _ => true) (-2147483647) = false ∧
      Sample.wrapped.value.eval Sample.overfull (fun _ => true) = true := by
  exact ⟨Sample.wrapped_built, Sample.serve_wrapped, by simp [Encoder.empty, Satisfies], rfl, rfl⟩

end ModelFinder
