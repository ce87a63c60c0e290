/-! Tables that remember the order in which their keys first came. Giving a key a new value keeps
its place. -/
namespace ModelFinder

/-- Values under keys, listed in the order of first insertion. -/
structure Table (κ α : Type) where
  entries : List (κ × α)

namespace Table

variable {κ α : Type} [DecidableEq κ]

def empty : Table κ α := ⟨[]⟩

instance : Inhabited (Table κ α) := ⟨⟨[]⟩⟩

def insertEntry (key : κ) (value : α) : List (κ × α) → List (κ × α)
  | [] => [(key, value)]
  | (other, old) :: rest =>
      if other = key then (key, value) :: rest else (other, old) :: insertEntry key value rest

def insert (table : Table κ α) (key : κ) (value : α) : Table κ α :=
  ⟨insertEntry key value table.entries⟩

def erase (table : Table κ α) (key : κ) : Table κ α := ⟨table.entries.filter (·.1 ≠ key)⟩

def find? (table : Table κ α) (key : κ) : Option α := table.entries.lookup key

def contains (table : Table κ α) (key : κ) : Bool := (table.find? key).isSome

def keys (table : Table κ α) : List κ := table.entries.map (·.1)

theorem lookup_insertEntry (key other : κ) (value : α) (entries : List (κ × α)) :
    (insertEntry key value entries).lookup other =
      if other = key then some value else entries.lookup other := by
  induction entries with
  | nil =>
    by_cases same : other = key
    · simp [insertEntry, same]
    · have apart : (other == key) = false := beq_false_of_ne same
      simp [insertEntry, List.lookup_cons, apart, same]
  | cons entry rest ih =>
    obtain ⟨first, old⟩ := entry
    by_cases here : first = key
    · subst here
      by_cases same : other = first
      · simp [insertEntry, same]
      · have apart : (other == first) = false := beq_false_of_ne same
        simp [insertEntry, List.lookup_cons, apart, same]
    · by_cases same : other = first
      · subst same
        simp [insertEntry, here]
      · have apart : (other == first) = false := beq_false_of_ne same
        simp [insertEntry, List.lookup_cons, here, apart, ih]

@[simp] theorem find?_insert (table : Table κ α) (key other : κ) (value : α) :
    (table.insert key value).find? other =
      if other = key then some value else table.find? other :=
  lookup_insertEntry key other value table.entries

/-- A key keeps its place; a new one comes last. -/
theorem keys_insert (table : Table κ α) (key : κ) (value : α) :
    (table.insert key value).keys =
      if key ∈ table.keys then table.keys else table.keys ++ [key] := by
  obtain ⟨entries⟩ := table
  simp only [insert, keys]
  induction entries with
  | nil => simp [insertEntry]
  | cons entry rest ih =>
    obtain ⟨first, old⟩ := entry
    by_cases here : first = key
    · simp [insertEntry, here]
    · have apart : key ≠ first := fun same => here same.symm
      simp only [insertEntry, here, if_false, List.map_cons, ih, List.mem_cons, apart, false_or]
      by_cases known : key ∈ rest.map (·.1) <;> simp [known]

end Table

end ModelFinder
