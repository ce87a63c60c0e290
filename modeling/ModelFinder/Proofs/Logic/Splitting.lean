import ModelFinder.Proofs.Logic.Conjuncts
import Mathlib.Data.List.Basic
import Mathlib.Data.List.Induction

/-! Splitting a formula with a stack. The topmost formula of the stack is a conjunction, whose parts
then take its place in their order, or it is the next conjunct. What is found are the formulas at those
places of the tree that lie below conjunctions only and have none themselves, from left to right. -/
namespace ModelFinder

namespace Formula

def isAnd : Formula → Bool
  | binary .and _ _ | nary .and _ => true
  | _ => false

def parts : Formula → List Formula
  | binary .and left right => [left, right]
  | nary .and parts => parts
  | _ => []

variable {f g : Formula} {fs gs stack found : List Formula}

theorem conjunctsAll_append : conjunctsAll (fs ++ gs) = conjunctsAll fs ++ conjunctsAll gs := by
  induction fs with
  | nil => rfl
  | cons f fs ih => rw [List.cons_append, conjunctsAll, conjunctsAll, ih, List.append_assoc]

theorem conjuncts_of_isAnd (isAnd : f.isAnd = true) : f.conjuncts = conjunctsAll f.parts := by
  match f, isAnd with
  | binary .and _ _, _ => simp [conjuncts, parts, conjunctsAll]
  | nary .and _, _ => simp [conjuncts, parts]

theorem conjuncts_of_not_isAnd (other : f.isAnd = false) : f.conjuncts = [f] := by
  cases f with
  | binary op _ _ | nary op _ => cases op <;> first | rfl | cases other
  | _ => rfl

theorem parts_of_not_isAnd (other : f.isAnd = false) : f.parts = [] := by
  cases f with
  | binary op _ _ | nary op _ => cases op <;> first | rfl | cases other
  | _ => rfl

theorem isAnd_eq_false (notBinary : ∀ left right, f ≠ binary .and left right)
    (notNary : ∀ parts, f ≠ nary .and parts) : f.isAnd = false := by
  cases f with
  | binary op left right =>
    cases op with
    | and => exact absurd rfl (notBinary left right)
    | or | iff | implies => rfl
  | nary op parts =>
    cases op with
    | and => exact absurd rfl (notNary parts)
    | or | iff | implies => rfl
  | _ => rfl

theorem sizeOf_append (fs gs : List Formula) : sizeOf (fs ++ gs) + 1 = sizeOf fs + sizeOf gs := by
  induction fs with
  | nil => simp; omega
  | cons f fs ih => simp only [List.cons_append, List.cons.sizeOf_spec]; omega

def push (fs stack : List Formula) : List Formula :=
  fs.reverse.foldl (fun stack f => f :: stack) stack

theorem push_eq (fs stack : List Formula) : push fs stack = fs ++ stack := by
  rw [push, List.foldl_reverse, List.foldr_cons_eq_append, List.map_id']

/-- Takes formulas from a stack until there are none. The parts of a conjunction are pushed, and all
other formulas are added to those found before. -/
def unstack : (stack found : List Formula) → List Formula
  | [], found => found
  | binary .and left right :: stack, found => unstack (left :: right :: stack) found
  | nary .and parts :: stack, found => unstack (push parts stack) found
  | f :: stack, found => unstack stack (found ++ [f])
termination_by stack => sizeOf stack
decreasing_by
  · simp only [List.cons.sizeOf_spec, binary.sizeOf_spec, Connective.and.sizeOf_spec]
    omega
  · have whole := sizeOf_append parts stack
    rw [push_eq]
    simp only [List.cons.sizeOf_spec, nary.sizeOf_spec]
    omega
  · simp only [List.cons.sizeOf_spec]
    omega

/-- The stack is taken apart into the conjuncts of its formulas, the topmost first. -/
theorem unstack_eq (stack found : List Formula) :
    unstack stack found = found ++ conjunctsAll stack := by
  fun_induction unstack stack found with
  | case1 found => exact (List.append_nil found).symm
  | case2 found left right stack ih => simp [ih, conjunctsAll, conjuncts]
  | case3 found parts stack ih =>
    rw [ih, push_eq, conjunctsAll_append, conjunctsAll, conjuncts]
  | case4 found f stack notBinary notNary ih =>
    rw [ih, conjunctsAll, conjuncts_of_not_isAnd (isAnd_eq_false notBinary notNary),
      List.append_assoc]

/-- What a path leads to that goes from conjunctions to their parts, by position. -/
def part? : Formula → List Nat → Option Formula
  | f, [] => some f
  | f, k :: path => f.parts[k]?.bind fun g => g.part? path

def memberPart? (fs : List Formula) : List Nat → Option Formula
  | [] => none
  | k :: path => fs[k]?.bind fun g => g.part? path

/-- The paths to all formulas that are no conjunctions, from left to right and each once, lead to
the formulas found. -/
structure Leads (at? : List Nat → Option Formula) (paths : List (List Nat)) (found : List Formula) :
    Prop where
  ascending : paths.Pairwise (· < ·)
  complete : ∀ path, path ∈ paths ↔ ∃ g, at? path = some g ∧ g.isAnd = false
  listed : paths.map at? = found.map some

variable {paths : List (List Nat)}

theorem leads_leaf (other : f.isAnd = false) : Leads f.part? [[]] [f] where
  ascending := List.pairwise_singleton _ _
  complete path := by
    cases path with
    | nil => simp [part?, other]
    | cons k path => simp [part?, parts_of_not_isAnd other]
  listed := rfl

theorem Leads.node (leads : Leads (memberPart? f.parts) paths found) (isAnd : f.isAnd = true) :
    Leads f.part? paths found where
  ascending := leads.ascending
  complete path := by
    rw [leads.complete]
    cases path with
    | nil => simp [part?, memberPart?, isAnd]
    | cons k path => rfl
  listed := by
    rw [← leads.listed]
    refine List.map_congr_left fun path member => ?_
    cases path with
    | nil =>
      obtain ⟨g, absent, -⟩ := (leads.complete []).mp member
      cases absent
    | cons k path => rfl

theorem lt_length_of_memberPart? {k : Nat} {path : List Nat}
    (found : memberPart? fs (k :: path) = some g) : k < fs.length := by
  obtain ⟨part, isPart, -⟩ := Option.bind_eq_some_iff.mp found
  exact (List.getElem?_eq_some_iff.mp isPart).1

theorem Leads.snoc {more : List (List Nat)} {others : List Formula}
    (leads : Leads (memberPart? fs) paths found) (last : Leads f.part? more others) :
    Leads (memberPart? (fs ++ [f])) (paths ++ more.map (fs.length :: ·)) (found ++ others) := by
  have before : ∀ path ∈ paths, ∃ k rest, path = k :: rest ∧ k < fs.length := by
    intro path member
    obtain ⟨g, isPart, -⟩ := (leads.complete path).mp member
    cases path with
    | nil => cases isPart
    | cons k rest => exact ⟨k, rest, rfl, lt_length_of_memberPart? isPart⟩
  have old : ∀ k rest, k < fs.length →
      memberPart? (fs ++ [f]) (k :: rest) = memberPart? fs (k :: rest) := by
    intro k rest inside
    rw [memberPart?, memberPart?, List.getElem?_append_left inside]
  have new : ∀ rest, memberPart? (fs ++ [f]) (fs.length :: rest) = f.part? rest := by
    intro rest
    simp [memberPart?]
  refine ⟨?ascending, fun path => ?complete, ?listed⟩
  case ascending =>
    refine List.pairwise_append.mpr ⟨leads.ascending, ?_, ?_⟩
    · refine List.pairwise_map.mpr (last.ascending.imp fun less => ?_)
      exact List.cons_lt_cons_iff.mpr (.inr ⟨rfl, less⟩)
    · intro path member other isNew
      obtain ⟨k, rest, rfl, inside⟩ := before path member
      obtain ⟨tail, -, rfl⟩ := List.mem_map.mp isNew
      exact List.cons_lt_cons_iff.mpr (.inl inside)
  case complete =>
    cases path with
    | nil =>
      have absent : [] ∉ paths := fun member => by
        obtain ⟨k, rest, isCons, -⟩ := before [] member
        cases isCons
      simp [memberPart?, absent]
    | cons k rest =>
      rw [List.mem_append, leads.complete]
      rcases Nat.lt_trichotomy k fs.length with inside | rfl | outside
      · rw [old k rest inside]
        refine or_iff_left fun isNew => ?_
        obtain ⟨tail, -, same⟩ := List.mem_map.mp isNew
        obtain ⟨rfl, -⟩ := List.cons.inj same
        exact Nat.lt_irrefl _ inside
      · rw [new, ← last.complete, List.mem_map_of_injective fun _ _ same => (List.cons.inj same).2]
        refine or_iff_right fun ⟨g, isPart, _⟩ => ?_
        exact Nat.lt_irrefl _ (lt_length_of_memberPart? isPart)
      · refine iff_of_false (not_or.mpr ⟨fun ⟨g, isPart, _⟩ => ?_, fun isNew => ?_⟩)
          fun ⟨g, isPart, _⟩ => ?_
        · exact Nat.lt_asymm outside (lt_length_of_memberPart? isPart)
        · obtain ⟨tail, -, same⟩ := List.mem_map.mp isNew
          obtain ⟨rfl, -⟩ := List.cons.inj same
          exact Nat.lt_irrefl _ outside
        · have bound := lt_length_of_memberPart? isPart
          rw [List.length_append, List.length_singleton] at bound
          omega
  case listed =>
    rw [List.map_append, List.map_append, List.map_map, ← leads.listed, ← last.listed]
    congr 1
    · refine List.map_congr_left fun path member => ?_
      obtain ⟨k, rest, rfl, inside⟩ := before path member
      exact old k rest inside
    · exact List.map_congr_left fun rest _ => new rest

theorem leads_members (each : ∀ g ∈ fs, ∃ paths, Leads g.part? paths g.conjuncts) :
    ∃ paths, Leads (memberPart? fs) paths (conjunctsAll fs) := by
  -- From the last member on, so that the positions of those before stay.
  induction fs using List.reverseRecOn with
  | nil =>
    refine ⟨[], .nil, fun path => ?_, rfl⟩
    cases path <;> simp [memberPart?]
  | append_singleton fs f ih =>
    obtain ⟨paths, leads⟩ := ih fun g member => each g (List.mem_append_left _ member)
    obtain ⟨more, last⟩ := each f (by simp)
    rw [conjunctsAll_append, conjunctsAll, conjunctsAll, List.append_nil]
    exact ⟨_, leads.snoc last⟩

theorem sizeOf_part_lt (member : g ∈ f.parts) : sizeOf g < sizeOf f := by
  match f, member with
  | binary .and left right, member =>
    rcases List.mem_cons.mp member with rfl | member
    · simp only [binary.sizeOf_spec]; omega
    · obtain rfl := List.mem_singleton.mp member
      simp only [binary.sizeOf_spec]; omega
  | nary .and fs, member =>
    have smaller := List.sizeOf_lt_of_mem member
    simp only [nary.sizeOf_spec]
    simp only [parts] at smaller
    omega

/-- The conjuncts are what lies below conjunctions only and is none, in the order of the tree. -/
theorem leads_conjuncts (f : Formula) : ∃ paths, Leads f.part? paths f.conjuncts := by
  cases isAnd : f.isAnd with
  | false => exact ⟨[[]], conjuncts_of_not_isAnd isAnd ▸ leads_leaf isAnd⟩
  | true =>
    obtain ⟨paths, leads⟩ := leads_members fun g (member : g ∈ f.parts) => leads_conjuncts g
    exact ⟨paths, conjuncts_of_isAnd isAnd ▸ leads.node isAnd⟩
termination_by sizeOf f
decreasing_by exact sizeOf_part_lt member

end Formula

end ModelFinder
