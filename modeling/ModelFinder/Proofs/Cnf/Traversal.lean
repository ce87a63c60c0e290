import ModelFinder.Cnf.Encoder
import ModelFinder.Proofs.Circuit.Growth
import Mathlib.Logic.Relation

/-! How a visit goes through a circuit. A stack of steps is worked off turn by turn. A look at a label
comes to an end, with all gates defined that the label depends on: each once, after the gates among
its inputs, and none that was defined before. Gates read smaller labels only, so what lies below a
gate is done with before the gate itself comes up again. A visit never runs out of steps, for every
turn is paid for by a gate that was not defined before. -/
namespace ModelFinder

namespace Circuit

def Reads (c : Circuit) (label below : Nat) : Prop :=
  ∃ gate, c.gate? label = some gate ∧ ∃ x ∈ gate.inputs, x.natAbs = below

def definition (c : Circuit) (label : Nat) : List Clause :=
  match c.gate? label with
  | some gate => gate.definition label
  | none => []

variable {c : Circuit} {label below : Nat}

theorem Reads.lt (reads : c.Reads label below) (formed : c.WellFormed) : below < label := by
  obtain ⟨gate, found, x, isInput, rfl⟩ := reads
  obtain ⟨i, rfl, isGate⟩ := gate?_eq_some.mp found
  exact ((formed.ordered i gate isGate).1 x isInput).2

theorem le_of_reads (formed : c.WellFormed) (reads : Relation.ReflTransGen c.Reads label below) :
    below ≤ label := by
  induction reads with
  | refl => exact Nat.le_refl _
  | tail _ step ih => exact Nat.le_trans (Nat.le_of_lt (step.lt formed)) ih

end Circuit

theorem Cnf.addAll_append (cnf : Cnf) (clauses more : List Clause) :
    cnf.addAll (clauses ++ more) = (cnf.addAll clauses).addAll more :=
  List.foldl_append

namespace Encoder

/-- What a visit may still have to pay for: the gates from a label on that are not defined. -/
def owed (defined : Std.HashSet Nat) : Nat → List Gate → Nat
  | _, [] => 0
  | label, gate :: rest =>
      (if defined.contains label then 0 else gate.inputs.length + 1) + owed defined (label + 1) rest

section Owed

variable {defined : Std.HashSet Nat} {gates : List Gate}

theorem owed_insert_of_lt {first label : Nat} (smaller : label < first) :
    owed (defined.insert label) first gates = owed defined first gates := by
  induction gates generalizing first with
  | nil => rfl
  | cons gate rest ih =>
    have apart : (label == first) = false := beq_false_of_ne (by omega)
    rw [owed, owed, ih (by omega), Std.HashSet.contains_insert, apart, Bool.false_or]

theorem owed_insert {first i : Nat} {gate : Gate} (found : gates[i]? = some gate)
    (fresh : defined.contains (first + i) = false) :
    owed (defined.insert (first + i)) first gates + (gate.inputs.length + 1) =
      owed defined first gates := by
  induction gates generalizing first i with
  | nil => cases found
  | cons head rest ih =>
    cases i with
    | zero =>
      obtain rfl := Option.some.inj found
      rw [Nat.add_zero] at fresh ⊢
      rw [owed, owed, owed_insert_of_lt (Nat.lt_add_one first), if_pos (by simp),
        if_neg (by simp [fresh])]
      omega
    | succ i =>
      have paid := @ih (first + 1) i found (by rwa [Nat.add_right_comm])
      have apart : (first + (i + 1) == first) = false := beq_false_of_ne (by omega)
      rw [show first + 1 + i = first + (i + 1) by omega] at paid
      rw [owed, owed, Std.HashSet.contains_insert, apart, Bool.false_or, ← paid]
      omega

theorem owed_empty {first start : Nat} :
    gates.foldl (fun sum gate => sum + gate.inputs.length + 1) start =
      start + owed ∅ first gates := by
  induction gates generalizing first start with
  | nil => rfl
  | cons gate rest ih =>
    rw [List.foldl_cons, @ih (first + 1), owed, if_neg (by simp)]
    omega

end Owed

def turn (c : Circuit) (e : Encoder) : Visit → List Visit → List Visit × Encoder
  | .look label, ahead =>
      if e.defined.contains label then (ahead, e)
      else
        match c.gate? label with
        | none => (ahead, e)
        | some gate =>
            (gate.inputs.foldl (fun ahead x => .look x.natAbs :: ahead)
              (.define label gate :: ahead), e)
  | .define label gate, ahead =>
      (ahead, { e with
        cnf := e.cnf.addAll (gate.definition label)
        defined := e.defined.insert label })

def Due (e : Encoder) : Visit → Prop
  | .look _ => True
  | .define label _ => e.defined.contains label = false

/-- So many turns lead from a stack and an encoder to others. Without a step on the stack there is no
turn, and no turn defines a gate again, so that it makes no difference whether this is checked. -/
inductive Turns (c : Circuit) : Nat → List Visit × Encoder → List Visit × Encoder → Prop
  | none {state : List Visit × Encoder} : Turns c 0 state state
  | more {n : Nat} {v : Visit} {ahead : List Visit} {e : Encoder} {last : List Visit × Encoder}
      (due : e.Due v) (rest : Turns c n (turn c e v ahead) last) : Turns c (n + 1) (v :: ahead, e) last

variable {c : Circuit} {e next final : Encoder} {n m : Nat}

theorem Turns.trans {first second third : List Visit × Encoder} (here : Turns c n first second)
    (there : Turns c m second third) : Turns c (n + m) first third := by
  induction here with
  | none => rwa [Nat.zero_add]
  | more due _ ih =>
    rw [Nat.add_right_comm]
    exact .more due (ih there)

theorem visit_turn (n : Nat) (v : Visit) (ahead : List Visit) (e : Encoder) :
    visit c (n + 1) (v :: ahead) e = visit c n (turn c e v ahead).1 (turn c e v ahead).2 := by
  cases v with
  | look label =>
    rw [visit, turn]
    by_cases known : e.defined.contains label = true
    · rw [if_pos known, if_pos known]
    · rw [if_neg known, if_neg known]
      cases c.gate? label <;> rfl
  | define label gate => rfl

theorem visit_nil (n : Nat) (e : Encoder) : visit c n [] e = e := by
  cases n <;> rfl

/-- A visit takes turns until the stack is empty or its steps are used up. -/
theorem Turns.visit {state last : List Visit × Encoder} (turns : Turns c n state last) (m : Nat) :
    Encoder.visit c (n + m) state.1 state.2 = Encoder.visit c m last.1 last.2 := by
  induction turns with
  | none => rw [Nat.zero_add]
  | more _ _ ih => rw [Nat.add_right_comm, visit_turn, ih]

def Settled (c : Circuit) (e : Encoder) (label : Nat) : Prop :=
  e.defined.contains label = true ∨ c.gate? label = none

/-- A visit of some labels: so many turns define gates in an order, each after the gates among its
inputs, and none that was defined before or that no label depends on. They settle all labels, and the
gates defined on the way pay for the turns. -/
structure Visits (c : Circuit) (labels : List Nat) (e : Encoder) (n : Nat) (order : List Nat)
    (next : Encoder) : Prop where
  turns : ∀ ahead, Turns c n (labels.map Visit.look ++ ahead, e) (ahead, next)
  limit : next.limit = e.limit
  cnf : next.cnf = e.cnf.addAll (order.flatMap c.definition)
  defined : ∀ label, next.defined.contains label = true ↔
    e.defined.contains label = true ∨ label ∈ order
  fresh : ∀ label ∈ order, e.defined.contains label = false
  nodup : order.Nodup
  after : ∀ front label back, order = front ++ label :: back → ∃ gate, c.gate? label = some gate ∧
    ∀ x ∈ gate.inputs, e.Settled c x.natAbs ∨ x.natAbs ∈ front
  reached : ∀ label ∈ order, ∃ root ∈ labels, Relation.ReflTransGen c.Reads root label
  settled : ∀ label ∈ labels, next.Settled c label
  least : labels.length ≤ n
  paid : n + owed next.defined (c.inputs + 1) c.gates.toList ≤
    labels.length + owed e.defined (c.inputs + 1) c.gates.toList

variable {labels more order others : List Nat} {label : Nat}

theorem Visits.settled_iff (visits : Visits c labels e n order next) :
    next.Settled c label ↔ e.Settled c label ∨ label ∈ order := by
  rw [Settled, Settled, visits.defined, or_right_comm]

theorem visits_nil : Visits c [] e 0 [] e where
  turns _ := .none
  limit := rfl
  cnf := rfl
  defined _ := by simp
  fresh := by simp
  nodup := .nil
  after front label back split := by simp at split
  reached := by simp
  settled := by simp
  least := Nat.le_refl _
  paid := Nat.le_refl _

theorem Visits.append (here : Visits c labels e n order next)
    (there : Visits c more next m others final) :
    Visits c (labels ++ more) e (n + m) (order ++ others) final where
  turns ahead := by
    rw [List.map_append, List.append_assoc]
    exact (here.turns _).trans (there.turns ahead)
  limit := there.limit.trans here.limit
  cnf := by rw [there.cnf, here.cnf, List.flatMap_append, Cnf.addAll_append]
  defined label := by rw [there.defined, here.defined, List.mem_append, or_assoc]
  fresh label member := by
    rcases List.mem_append.mp member with isHere | isThere
    · exact here.fresh label isHere
    · have absent := there.fresh label isThere
      refine Bool.eq_false_iff.mpr fun known => ?_
      rw [(here.defined label).mpr (.inl known)] at absent
      cases absent
  nodup := by
    refine List.nodup_append.mpr ⟨here.nodup, there.nodup, fun label isHere other isThere same => ?_⟩
    have absent := there.fresh other isThere
    rw [← same, (here.defined label).mpr (.inr isHere)] at absent
    cases absent
  after front label back split := by
    rcases List.append_eq_append_iff.mp split with ⟨between, rfl, inOthers⟩ | ⟨rest, inOrder, tail⟩
    · obtain ⟨gate, found, inputs⟩ := there.after between label back inOthers
      refine ⟨gate, found, fun x isInput => ?_⟩
      rw [List.mem_append, ← or_assoc, ← here.settled_iff]
      exact inputs x isInput
    · cases rest with
      | nil =>
        obtain ⟨gate, found, inputs⟩ := there.after [] label back tail.symm
        rw [List.append_nil] at inOrder
        refine ⟨gate, found, fun x isInput => ?_⟩
        rw [← inOrder, ← here.settled_iff]
        exact (inputs x isInput).resolve_right List.not_mem_nil
      | cons head rest =>
        obtain ⟨rfl, -⟩ := List.cons.inj tail
        exact here.after front label rest inOrder
  reached label member := by
    rcases List.mem_append.mp member with isHere | isThere
    · obtain ⟨root, isRoot, reads⟩ := here.reached label isHere
      exact ⟨root, List.mem_append_left more isRoot, reads⟩
    · obtain ⟨root, isRoot, reads⟩ := there.reached label isThere
      exact ⟨root, List.mem_append_right labels isRoot, reads⟩
  settled label member := by
    rcases List.mem_append.mp member with isHere | isThere
    · exact there.settled_iff.mpr (.inl (here.settled label isHere))
    · exact there.settled label isThere
  least := by
    have one := here.least
    have two := there.least
    rw [List.length_append]
    omega
  paid := by
    have one := here.paid
    have two := there.paid
    rw [List.length_append]
    omega

theorem visits_settled (settled : e.Settled c label) : Visits c [label] e 1 [] e where
  turns ahead := by
    refine .more trivial (?_ : Turns c 0 (turn c e (.look label) ahead) (ahead, e))
    have skipped : turn c e (.look label) ahead = (ahead, e) := by
      rw [turn]
      rcases settled with known | isInput
      · rw [if_pos known]
      · rw [isInput, ite_self]
    rw [skipped]
    exact .none
  limit := rfl
  cnf := rfl
  defined _ := by simp
  fresh := by simp
  nodup := .nil
  after front label back split := by simp at split
  reached := by simp
  settled := List.forall_mem_singleton.mpr settled
  least := Nat.le_refl _
  paid := Nat.le_refl _

/-- The inputs of a gate are pushed in order, so the last of them is looked at first. -/
theorem foldl_push (inputs : List Int) (ahead : List Visit) :
    inputs.foldl (fun ahead x => Visit.look x.natAbs :: ahead) ahead =
      (inputs.map Int.natAbs).reverse.map Visit.look ++ ahead := by
  induction inputs generalizing ahead with
  | nil => rfl
  | cons x rest ih => simp [ih]

/-- A look at a gate that is not defined visits its inputs and defines it then. -/
theorem Visits.define {gate : Gate} (found : c.gate? label = some gate)
    (absent : e.defined.contains label = false)
    (visits : Visits c (gate.inputs.map Int.natAbs).reverse e n order next)
    (below : label ∉ order) :
    Visits c [label] e (n + 2) (order ++ [label]) { next with
      cnf := next.cnf.addAll (gate.definition label)
      defined := next.defined.insert label } := by
  have definition : c.definition label = gate.definition label := by
    rw [Circuit.definition, found]
  have unknown : next.defined.contains label = false := by
    refine Bool.eq_false_iff.mpr fun known => ?_
    rcases (visits.defined label).mp known with before | member
    · rw [absent] at before
      cases before
    · exact below member
  have known : ∀ other, (next.defined.insert label).contains other = true ↔
      e.defined.contains other = true ∨ other ∈ order ++ [label] := by
    intro other
    rw [Std.HashSet.contains_insert, Bool.or_eq_true, visits.defined, List.mem_append,
      List.mem_singleton, beq_iff_eq, eq_comm (a := label)]
    tauto
  refine ⟨fun ahead => ?turns, visits.limit, ?cnf, known, ?fresh, ?nodup, ?after, ?reached, ?settled,
    ?least, ?paid⟩
  case turns =>
    refine .more trivial (?_ : Turns c (n + 1) (turn c e (.look label) ahead) _)
    have pushed : turn c e (.look label) ahead =
        ((gate.inputs.map Int.natAbs).reverse.map Visit.look ++ .define label gate :: ahead, e) := by
      rw [turn, if_neg (by simp [absent]), found]
      simp only [foldl_push]
    rw [pushed]
    exact (visits.turns _).trans (.more unknown .none)
  case cnf =>
    rw [visits.cnf, List.flatMap_append, Cnf.addAll_append, List.flatMap_singleton, definition]
  case fresh =>
    exact List.forall_mem_append.mpr ⟨visits.fresh, List.forall_mem_singleton.mpr absent⟩
  case nodup =>
    refine List.nodup_append.mpr ⟨visits.nodup, List.pairwise_singleton _ label, ?_⟩
    rintro other member _ isLabel rfl
    exact below (List.mem_singleton.mp isLabel ▸ member)
  case after =>
    intro front other back split
    rcases List.append_eq_append_iff.mp split with ⟨between, rfl, isLast⟩ | ⟨rest, inOrder, tail⟩
    · cases between with
      | nil =>
        obtain ⟨rfl, -⟩ := List.cons.inj isLast
        refine ⟨gate, found, fun x isInput => ?_⟩
        rw [List.append_nil, ← visits.settled_iff]
        exact visits.settled _ (List.mem_reverse.mpr (List.mem_map_of_mem isInput))
      | cons head rest => simp at isLast
    · cases rest with
      | nil =>
        obtain ⟨rfl, -⟩ := List.cons.inj tail
        rw [List.append_nil] at inOrder
        refine ⟨gate, found, fun x isInput => ?_⟩
        rw [← inOrder, ← visits.settled_iff]
        exact visits.settled _ (List.mem_reverse.mpr (List.mem_map_of_mem isInput))
      | cons head rest =>
        obtain ⟨rfl, -⟩ := List.cons.inj tail
        exact visits.after front other rest inOrder
  case reached =>
    intro other member
    refine ⟨label, List.mem_singleton_self label, ?_⟩
    rcases List.mem_append.mp member with inOrder | isLabel
    · obtain ⟨root, isRoot, reads⟩ := visits.reached other inOrder
      obtain ⟨x, isInput, rfl⟩ := List.mem_map.mp (List.mem_reverse.mp isRoot)
      exact .head ⟨gate, found, x, isInput, rfl⟩ reads
    · rw [List.mem_singleton.mp isLabel]
  case settled =>
    exact List.forall_mem_singleton.mpr (.inl Std.HashSet.contains_insert_self)
  case least =>
    rw [List.length_singleton]
    omega
  case paid =>
    obtain ⟨i, isLabel, isGate⟩ := Circuit.gate?_eq_some.mp found
    have spelled : label = c.inputs + 1 + i := by omega
    have spent : owed (next.defined.insert label) (c.inputs + 1) c.gates.toList +
        (gate.inputs.length + 1) = owed next.defined (c.inputs + 1) c.gates.toList := by
      rw [spelled] at unknown ⊢
      exact owed_insert (by rwa [Array.getElem?_toList]) unknown
    have before := visits.paid
    rw [List.length_reverse, List.length_map] at before
    show n + 2 + owed (next.defined.insert label) _ _ ≤ 1 + _
    omega

theorem looks_visits {labels : List Nat}
    (each : ∀ label ∈ labels, ∀ e, ∃ n order next, Visits c [label] e n order next) (e : Encoder) :
    ∃ n order next, Visits c labels e n order next := by
  induction labels generalizing e with
  | nil => exact ⟨0, [], e, visits_nil⟩
  | cons label rest ih =>
    obtain ⟨n, order, next, here⟩ := each label List.mem_cons_self e
    obtain ⟨m, others, final, there⟩ :=
      ih (fun other member => each other (List.mem_cons_of_mem label member)) next
    exact ⟨n + m, order ++ others, final, here.append there⟩

theorem look_visits (formed : c.WellFormed) (label : Nat) (e : Encoder) :
    ∃ n order next, Visits c [label] e n order next := by
  -- On the label, for gates read smaller ones.
  induction label using Nat.strongRecOn generalizing e with
  | _ label ih =>
    by_cases settled : e.Settled c label
    · exact ⟨1, [], e, visits_settled settled⟩
    · have absent : e.defined.contains label = false :=
        Bool.eq_false_iff.mpr fun known => settled (.inl known)
      obtain ⟨gate, found⟩ : ∃ gate, c.gate? label = some gate :=
        Option.ne_none_iff_exists'.mp fun isInput => settled (.inr isInput)
      have smaller : ∀ x ∈ (gate.inputs.map Int.natAbs).reverse, x < label := by
        intro x member
        obtain ⟨y, isInput, rfl⟩ := List.mem_map.mp (List.mem_reverse.mp member)
        exact Circuit.Reads.lt ⟨gate, found, y, isInput, rfl⟩ formed
      obtain ⟨n, order, next, visits⟩ := looks_visits (fun x member => ih x (smaller x member)) e
      refine ⟨n + 2, order ++ [label], _, visits.define found absent fun member => ?_⟩
      obtain ⟨root, isRoot, reads⟩ := visits.reached label member
      have bound := Circuit.le_of_reads formed reads
      have less := smaller root isRoot
      omega

/-- With steps enough for the gates that are not defined, a visit of a label is taken to its end. -/
theorem reach_visits (formed : c.WellFormed) (label : Nat)
    (enough : 1 + owed e.defined (c.inputs + 1) c.gates.toList ≤ e.limit) :
    ∃ n order, n ≤ e.limit ∧ Visits c [label] e n order (e.reach c label) := by
  obtain ⟨n, order, next, visits⟩ := look_visits formed label e
  have bound : n ≤ e.limit := by
    have paid := visits.paid
    rw [List.length_singleton] at paid
    omega
  have whole : e.reach c label = next := by
    have ended := (visits.turns []).visit (e.limit - n)
    rw [Nat.add_sub_cancel' bound, visit_nil] at ended
    exact ended
  exact ⟨n, order, bound, whole ▸ visits⟩

/-- What is left to pay for never grows. -/
theorem Visits.owes (visits : Visits c labels e n order next) :
    owed next.defined (c.inputs + 1) c.gates.toList ≤
      owed e.defined (c.inputs + 1) c.gates.toList := by
  have least := visits.least
  have paid := visits.paid
  omega

end Encoder

end ModelFinder
