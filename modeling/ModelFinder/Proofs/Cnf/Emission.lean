import ModelFinder.Proofs.Cnf.Requests
import Mathlib.Algebra.GroupWithZero.Nat

/-! What calls write. The clauses of an encoder are those of the entries that its calls have added one
after the other: the gates that the values of the calls need, each once over all calls and after the
gates among its inputs, and the values asserted. How many clauses there are follows from that. -/
namespace ModelFinder

/-- The gates that a value needs: its own, if it has one, and those that these read. -/
def Value.Needs (c : Circuit) (v : Value) (label : Nat) : Prop :=
  (∃ gate, c.gate? label = some gate) ∧
    ∃ n, v = .lit n ∧ Relation.ReflTransGen c.Reads n.natAbs label

/-- How many clauses define a gate: one for all inputs and one for each, and four for a choice. -/
def Gate.clauseCount : Gate → Nat
  | and inputs | or inputs => inputs.length + 1
  | ite .. => 4

def Circuit.clauseCount (c : Circuit) (label : Nat) : Nat :=
  ((c.gate? label).map Gate.clauseCount).getD 0

theorem Circuit.length_definition (c : Circuit) (label : Nat) :
    (c.definition label).length = c.clauseCount label := by
  rw [definition, clauseCount]
  cases c.gate? label with
  | none => rfl
  | some gate => cases gate <;> simp [Gate.definition, Gate.clauseCount]

namespace Encoder

inductive Entry where
  | gate (label : Nat)
  | value (v : Value)

namespace Entry

def label? : Entry → Option Nat
  | gate label => some label
  | value _ => none

def value? : Entry → Option Value
  | gate _ => none
  | value v => some v

/-- A value is asserted by its literal; false, which has none, by the empty clause. -/
def clauses (c : Circuit) : Entry → List Clause
  | gate label => c.definition label
  | value v => [v.literal?.toList]

@[simp] theorem mem_labels {entries : List Entry} {label : Nat} :
    label ∈ entries.filterMap label? ↔ gate label ∈ entries := by
  rw [List.mem_filterMap]
  constructor
  · rintro ⟨entry, member, same⟩
    cases entry with
    | gate other => exact Option.some.inj same ▸ member
    | value v => cases same
  · exact fun member => ⟨_, member, rfl⟩

theorem labels_gates (order : List Nat) : (order.map gate).filterMap label? = order := by
  rw [List.filterMap_map]
  exact List.filterMap_some

theorem values_gates (order : List Nat) : (order.map gate).filterMap value? = [] := by
  rw [List.filterMap_map]
  exact List.filterMap_eq_nil_iff.mpr fun _ _ => rfl

theorem length_clauses (c : Circuit) (entries : List Entry) :
    (entries.flatMap (clauses c)).length =
      ((entries.filterMap label?).map c.clauseCount).sum + (entries.filterMap value?).length := by
  induction entries with
  | nil => rfl
  | cons entry rest ih =>
    rw [List.flatMap_cons, List.length_append, ih, List.filterMap_cons, List.filterMap_cons]
    cases entry with
    | gate label =>
      simp only [clauses, label?, value?, Circuit.length_definition, List.map_cons, List.sum_cons]
      omega
    | value v =>
      simp only [clauses, label?, value?, List.length_cons, List.length_nil]
      omega

end Entry

def Request.asserted? : Request → Option Value
  | assert (.const true) => none
  | assert v => some v
  | define _ => none

structure Traced (c : Circuit) (roots asserted : List Value) (entries : List Entry) (e : Encoder) :
    Prop where
  clauses : e.cnf.clauses.toList = entries.flatMap (Entry.clauses c)
  defined : ∀ label, e.defined.contains label = true ↔ .gate label ∈ entries
  once : (entries.filterMap Entry.label?).Nodup
  after : ∀ label below, .gate label ∈ entries → c.Reads label below →
    (∃ gate, c.gate? below = some gate) → [Entry.gate below, .gate label].Sublist entries
  needed : ∀ label, .gate label ∈ entries → ∃ v ∈ roots, v.Needs c label
  settled : ∀ n, .lit n ∈ roots → e.Settled c n.natAbs
  asserted : entries.filterMap Entry.value? = asserted
  enough : 1 + owed e.defined (c.inputs + 1) c.gates.toList ≤ e.limit

variable {c : Circuit} {e : Encoder} {roots asserted : List Value} {entries : List Entry}

theorem empty_traced : Traced c [] [] [] (Encoder.empty c) where
  clauses := rfl
  defined label := by simp [Encoder.empty]
  once := .nil
  after label below member := by cases member
  needed label member := by cases member
  settled n member := by cases member
  asserted := rfl
  enough := empty_defines.enough

theorem Traced.settled_of_reads (traced : Traced c roots asserted entries e) {label below : Nat}
    (settled : e.Settled c label) (reads : c.Reads label below) : e.Settled c below := by
  cases found : c.gate? below with
  | none => exact .inr found
  | some gate =>
    rcases settled with known | isInput
    · have before := traced.after label below ((traced.defined label).mp known) reads ⟨gate, found⟩
      exact .inl ((traced.defined below).mpr (before.subset List.mem_cons_self))
    · obtain ⟨other, isGate, -⟩ := reads
      rw [isInput] at isGate
      cases isGate

theorem Traced.complete (traced : Traced c roots asserted entries e) {v : Value} {label : Nat}
    (isRoot : v ∈ roots) (needs : v.Needs c label) : .gate label ∈ entries := by
  obtain ⟨⟨gate, found⟩, n, rfl, reads⟩ := needs
  have settled : e.Settled c label := by
    clear found
    induction reads with
    | refl => exact traced.settled n isRoot
    | tail _ step ih => exact traced.settled_of_reads ih step
  rcases settled with known | isInput
  · exact (traced.defined label).mp known
  · rw [found] at isInput
    cases isInput

theorem Traced.reach (traced : Traced c roots asserted entries e) (formed : c.WellFormed) (n : Int) :
    ∃ order : List Nat, Traced c (roots ++ [.lit n]) asserted (entries ++ order.map .gate)
      (e.reach c n.natAbs) := by
  obtain ⟨turns, order, -, visits⟩ := reach_visits formed n.natAbs traced.enough
  refine ⟨order, ?clauses, ?defined, ?once, ?after, ?needed, ?settled, ?asserted, ?enough⟩
  case clauses =>
    rw [visits.cnf, Cnf.addAll_clauses, traced.clauses, List.flatMap_append, List.flatMap_map]
    rfl
  case defined =>
    intro label
    rw [visits.defined, traced.defined, List.mem_append,
      List.mem_map_of_injective fun _ _ => Entry.gate.inj]
  case once =>
    rw [List.filterMap_append, Entry.labels_gates]
    refine List.nodup_append.mpr ⟨traced.once, visits.nodup, ?_⟩
    rintro label before other member rfl
    have absent := visits.fresh label member
    rw [(traced.defined label).mpr (Entry.mem_labels.mp before)] at absent
    cases absent
  case after =>
    intro label below member reads isGate
    rcases List.mem_append.mp member with before | new
    · exact (traced.after label below before reads isGate).trans (List.sublist_append_left _ _)
    · rw [List.mem_map_of_injective fun _ _ => Entry.gate.inj] at new
      obtain ⟨front, back, rfl⟩ := List.append_of_mem new
      obtain ⟨gate, found, inputs⟩ := visits.after front label back rfl
      obtain ⟨other, same, x, isInput, rfl⟩ := reads
      rw [Option.some.inj (same.symm.trans found)] at isInput
      have here : [Entry.gate label].Sublist ((label :: back).map .gate) := by simp
      rcases inputs x isInput with (known | isInput) | member
      · have earlier := List.singleton_sublist.mpr ((traced.defined _).mp known)
        refine earlier.append (here.trans ?_)
        rw [List.map_append]
        exact List.sublist_append_right _ _
      · rw [isInput] at isGate
        obtain ⟨gate, isGate⟩ := isGate
        cases isGate
      · have earlier : [Entry.gate x.natAbs].Sublist (front.map .gate) :=
          List.singleton_sublist.mpr (List.mem_map_of_mem member)
        rw [List.map_append]
        exact (earlier.append here).trans (List.sublist_append_right _ _)
  case needed =>
    intro label member
    rcases List.mem_append.mp member with before | new
    · obtain ⟨v, isRoot, needs⟩ := traced.needed label before
      exact ⟨v, List.mem_append_left _ isRoot, needs⟩
    · rw [List.mem_map_of_injective fun _ _ => Entry.gate.inj] at new
      obtain ⟨front, back, rfl⟩ := List.append_of_mem new
      obtain ⟨gate, found, -⟩ := visits.after front label back rfl
      obtain ⟨root, isRoot, reads⟩ := visits.reached label new
      obtain rfl := List.mem_singleton.mp isRoot
      exact ⟨.lit n, by simp, ⟨gate, found⟩, n, rfl, reads⟩
  case settled =>
    intro m member
    rcases List.mem_append.mp member with before | isLast
    · exact visits.settled_iff.mpr (.inl (traced.settled m before))
    · obtain rfl := Value.lit.inj (List.mem_singleton.mp isLast)
      exact visits.settled _ (List.mem_singleton_self _)
  case asserted =>
    rw [List.filterMap_append, Entry.values_gates, List.append_nil, traced.asserted]
  case enough =>
    have before := traced.enough
    have less := visits.owes
    rw [visits.limit]
    omega

theorem Traced.const (traced : Traced c roots asserted entries e) (b : Bool) :
    Traced c (roots ++ [.const b]) asserted entries e where
  clauses := traced.clauses
  defined := traced.defined
  once := traced.once
  after := traced.after
  needed label member := by
    obtain ⟨v, isRoot, needs⟩ := traced.needed label member
    exact ⟨v, List.mem_append_left _ isRoot, needs⟩
  settled n member := traced.settled n (by simpa using member)
  asserted := traced.asserted
  enough := traced.enough

theorem Traced.add (traced : Traced c roots asserted entries e) (v : Value) :
    Traced c roots (asserted ++ [v]) (entries ++ [.value v])
      { e with cnf := e.cnf.add v.literal?.toList } where
  clauses := by
    rw [List.flatMap_append, ← traced.clauses]
    simp [Cnf.add, Entry.clauses]
  defined label := by rw [traced.defined]; simp
  once := by
    rw [List.filterMap_append, show [Entry.value v].filterMap Entry.label? = [] from rfl,
      List.append_nil]
    exact traced.once
  after label below member reads isGate :=
    (traced.after label below (by simpa using member) reads isGate).trans
      (List.sublist_append_left _ _)
  needed label member := traced.needed label (by simpa using member)
  settled := traced.settled
  asserted := by rw [List.filterMap_append, traced.asserted]; rfl
  enough := traced.enough

theorem Traced.define (traced : Traced c roots asserted entries e) (sound : c.Sound) {v : Value}
    (inside : v.In c) :
    ∃ new, Traced c (roots ++ [v]) asserted (entries ++ new) (e.define c v).2 := by
  cases v with
  | const b => exact ⟨[], (List.append_nil entries).symm ▸ traced.const b⟩
  | lit n =>
    obtain ⟨order, reached⟩ := traced.reach sound.formed n
    refine ⟨order.map .gate, ?_⟩
    rwa [Encoder.define, Circuit.label_of_in sound.labelled inside]

theorem Traced.assert (traced : Traced c roots asserted entries e) (sound : c.Sound) {v : Value}
    (inside : v.In c) :
    ∃ new, Traced c (roots ++ [v]) (asserted ++ (Request.assert v).asserted?.toList)
      (entries ++ new) (e.assert c v) := by
  cases v with
  | const b =>
    cases b with
    | true =>
      refine ⟨[], ?_⟩
      rw [List.append_nil, show (Request.assert (.const true)).asserted?.toList = [] from rfl,
        List.append_nil]
      exact traced.const true
    | false => exact ⟨[.value (.const false)], (traced.const false).add (.const false)⟩
  | lit n =>
    obtain ⟨order, reached⟩ := traced.reach sound.formed n
    refine ⟨order.map .gate ++ [.value (.lit n)], ?_⟩
    rw [Encoder.assert, Circuit.label_of_in sound.labelled inside, ← List.append_assoc]
    exact reached.add (.lit n)

theorem Traced.serve (traced : Traced c roots asserted entries e) (sound : c.Sound)
    {requests : List Request} (inside : ∀ r ∈ requests, r.value.In c) :
    ∃ pieces : List (List Entry), pieces.length = requests.length ∧ ∀ k,
      Traced c (roots ++ (requests.take k).map Request.value)
        (asserted ++ (requests.take k).filterMap Request.asserted?)
        (entries ++ (pieces.take k).flatten) (Encoder.serve c (requests.take k) e).2 := by
  induction requests generalizing e roots asserted entries with
  | nil => exact ⟨[], rfl, fun k => by simpa [Encoder.serve] using traced⟩
  | cons r rest ih =>
    obtain ⟨here, later⟩ := List.forall_mem_cons.mp inside
    have step : ∃ new next, Traced c (roots ++ [r.value]) (asserted ++ r.asserted?.toList)
        (entries ++ new) next ∧ ∀ more, (Encoder.serve c (r :: more) e).2 =
          (Encoder.serve c more next).2 := by
      cases r with
      | define v =>
        obtain ⟨new, next⟩ := traced.define sound (v := v) here
        exact ⟨new, _, (List.append_nil asserted).symm ▸ next, fun _ => rfl⟩
      | assert v =>
        obtain ⟨new, next⟩ := traced.assert sound (v := v) here
        exact ⟨new, _, next, fun _ => rfl⟩
    obtain ⟨new, next, step, same⟩ := step
    obtain ⟨pieces, length, all⟩ := ih step later
    refine ⟨new :: pieces, by simp [length], fun k => ?_⟩
    cases k with
    | zero => simpa [Encoder.serve] using traced
    | succ k =>
      have reached := all k
      rw [List.take_succ_cons, List.take_succ_cons, same, List.flatten_cons, List.map_cons,
        List.filterMap_cons]
      cases asserted : r.asserted? with
      | none => simpa [asserted] using reached
      | some v => simpa [asserted] using reached

end Encoder

/-- Whatever operations have built a circuit and whatever is defined and asserted of its wires, every
call has its visit come to an end with no step left on its stack, and adds its piece to what is
written. What the first calls have written are the gates that their values need, each once and after
the gates among its inputs, and the values that they asserted other than true. So there are as many
clauses as define these gates, and one for each of these values. -/
theorem gates_defined_once {inputs : Nat} {sharing : Bool} {wires : List Wire} {c : Circuit}
    (built : Circuit.Built inputs sharing wires c) (labelled : c.Labelled)
    (requests : List Encoder.Request) (known : ∀ r ∈ requests, ∃ w ∈ wires, r.value = w.value) :
    (∀ done r later, requests = done ++ r :: later → ∀ n, r.value = .lit n →
      let e := (Encoder.serve c done (.empty c)).2
      ∃ turns ≤ e.limit,
        Encoder.Turns c turns ([.look n.natAbs], e) ([], (e.define c r.value).2)) ∧
    ∃ pieces : List (List Encoder.Entry), pieces.length = requests.length ∧ ∀ k,
      let done := requests.take k
      let written := (pieces.take k).flatten
      let clauses := (Encoder.serve c done (.empty c)).2.cnf.clauses.toList
      clauses = written.flatMap (Encoder.Entry.clauses c) ∧
        (∀ label, .gate label ∈ written ↔ ∃ r ∈ done, r.value.Needs c label) ∧
        (written.filterMap Encoder.Entry.label?).Nodup ∧
        (∀ label below, .gate label ∈ written → c.Reads label below →
          (∃ gate, c.gate? below = some gate) →
            [Encoder.Entry.gate below, .gate label].Sublist written) ∧
        written.filterMap Encoder.Entry.value? = done.filterMap Encoder.Request.asserted? ∧
        clauses.length = ((written.filterMap Encoder.Entry.label?).map c.clauseCount).sum +
          (done.filterMap Encoder.Request.asserted?).length := by
  obtain ⟨sound, rfl, issued⟩ := built.issues labelled
  have inside : ∀ r ∈ requests, r.value.In c := by
    intro r called
    obtain ⟨w, isWire, same⟩ := known r called
    exact same ▸ (issued w isWire).inside
  obtain ⟨pieces, length, traced⟩ := Encoder.empty_traced.serve sound inside
  refine ⟨?visits, pieces, length, fun k => ?written⟩
  case visits =>
    rintro done r later rfl n isLit e
    have before := traced done.length
    rw [List.take_left' rfl] at before
    obtain ⟨turns, order, bound, visits⟩ :=
      Encoder.reach_visits sound.formed n.natAbs before.enough
    refine ⟨turns, bound, ?_⟩
    have isIn : r.value.In c := inside r (by simp)
    rw [isLit] at isIn ⊢
    rw [Encoder.define, Circuit.label_of_in sound.labelled isIn]
    exact visits.turns []
  case written =>
    intro done written clauses
    have here := traced k
    rw [List.nil_append, List.nil_append, List.nil_append] at here
    refine ⟨here.clauses, fun label => ⟨fun member => ?_, ?_⟩, here.once, here.after, here.asserted, ?_⟩
    · obtain ⟨v, isRoot, needs⟩ := here.needed label member
      obtain ⟨r, called, rfl⟩ := List.mem_map.mp isRoot
      exact ⟨r, called, needs⟩
    · rintro ⟨r, called, needs⟩
      exact here.complete (List.mem_map_of_mem called) needs
    · rw [show clauses = _ from here.clauses, Encoder.Entry.length_clauses, here.asserted]

/-- Three calls about one gate define it once, before its assertion: four clauses in all. -/
theorem sample_gates_defined_once :
    let e := (Encoder.serve Sample.joined (Sample.requests.take 1) (.empty Sample.joined)).2
    (∃ turns ≤ e.limit, Encoder.Turns Sample.joined turns
        ([.look 2], e) ([], (e.define Sample.joined Sample.right.value).2)) ∧
      ∃ pieces : List (List Encoder.Entry), pieces.length = 3 ∧
        .gate 3 ∈ (pieces.take 1).flatten ∧
        (pieces.flatten.filterMap Encoder.Entry.label?).Nodup ∧
        pieces.flatten.filterMap Encoder.Entry.value? = [Sample.both.value] := by
  have known : ∀ r ∈ Sample.requests, ∃ w ∈ [Sample.both, Sample.right, Sample.left],
      r.value = w.value := by
    simp [Sample.requests, Encoder.Request.value]
  obtain ⟨visits, pieces, length, written⟩ :=
    gates_defined_once Sample.both_built Sample.joined_labelled Sample.requests known
  refine ⟨visits [.define Sample.both.value] (.define Sample.right.value) [.assert Sample.both.value]
    rfl 2 rfl, pieces, length, ?_⟩
  obtain ⟨-, needed, -⟩ := written 1
  obtain ⟨-, -, once, -, asserted, -⟩ := written 3
  have whole : pieces.take 3 = pieces := List.take_of_length_le (Nat.le_of_eq length)
  rw [whole] at once asserted
  refine ⟨(needed 3).mpr ⟨.define Sample.both.value, List.mem_cons_self, ?_⟩, once, asserted⟩
  exact ⟨⟨_, rfl⟩, 3, rfl, .refl⟩

/-- Where labels run out, a call writes nothing for the gate of its value, which is no input. -/
theorem wrapped_label_defines_nothing :
    Circuit.Built 2147483647 false [Sample.wrapped, ⟨.lit 2147483648, .and⟩, ⟨.lit 3, .input⟩,
        Sample.right, Sample.left] Sample.overfull ∧
      Sample.wrapped.value.Needs Sample.overfull 2147483649 ∧
      Sample.overfull.gate? 2147483649 = some (.and [1, 3]) ∧
      (Encoder.serve Sample.overfull [.define Sample.wrapped.value]
        (.empty Sample.overfull)).2.cnf.clauses.toList = [] := by
  refine ⟨Sample.wrapped_built, ⟨⟨_, rfl⟩, 2147483649, rfl, .refl⟩, rfl, ?_⟩
  rw [Sample.serve_wrapped]
  rfl

end ModelFinder
