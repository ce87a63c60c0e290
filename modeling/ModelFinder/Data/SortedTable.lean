import ModelFinder.Data.Ascending
import Std.Data.HashMap

/-! Tables whose keys ascend, and the grouping of values by key. -/
namespace ModelFinder

structure SortedTable (κ α : Type) where
  entries : List (κ × α)

namespace SortedTable

instance {κ α : Type} [DecidableEq κ] [DecidableEq α] : DecidableEq (SortedTable κ α) :=
  fun left right => decidable_of_iff ((left.entries == right.entries) = true) <| by
    cases left
    cases right
    simp

variable {κ α : Type} [LT κ] [DecidableLT κ] [DecidableEq κ]

def empty : SortedTable κ α := ⟨[]⟩

instance : Inhabited (SortedTable κ α) := ⟨⟨[]⟩⟩

def insertEntry (key : κ) (value : α) : List (κ × α) → List (κ × α)
  | [] => [(key, value)]
  | (other, old) :: rest =>
      if key < other then (key, value) :: (other, old) :: rest
      else if other < key then (other, old) :: insertEntry key value rest
      else (key, value) :: rest

def insert (table : SortedTable κ α) (key : κ) (value : α) : SortedTable κ α :=
  ⟨insertEntry key value table.entries⟩

def erase (table : SortedTable κ α) (key : κ) : SortedTable κ α :=
  ⟨table.entries.filter (·.1 != key)⟩

def find? (table : SortedTable κ α) (key : κ) : Option α := table.entries.lookup key

def keys (table : SortedTable κ α) : List κ := table.entries.map (·.1)

def values (table : SortedTable κ α) : List α := table.entries.map (·.2)

def index (table : SortedTable Nat α) : Std.HashMap Nat α := Std.HashMap.ofList table.entries

/-- The table of the listed entries; of several values under one key the last counts. -/
def ofList (entries : List (Nat × α)) : SortedTable Nat α :=
  let latest := Std.HashMap.ofList entries
  ⟨(Ascending.sort latest.keys).filterMap fun key => latest[key]?.map (key, ·)⟩

end SortedTable

def groupByKey {α : Type} (terms : List (Nat × α)) : Std.HashMap Nat (List α) :=
  terms.foldr (fun (key, value) groups => groups.insert key (value :: groups.getD key [])) ∅

theorem getD_groupByKey {α : Type} (terms : List (Nat × α)) (key : Nat) :
    (groupByKey terms).getD key [] = (terms.filter (·.1 == key)).map (·.2) := by
  induction terms with
  | nil => simp [groupByKey]
  | cons term rest ih =>
    obtain ⟨other, value⟩ := term
    have step : groupByKey ((other, value) :: rest) =
        (groupByKey rest).insert other (value :: (groupByKey rest).getD other []) := rfl
    rw [step, Std.HashMap.getD_insert]
    by_cases same : other = key
    · subst same
      simp [ih]
    · simp [same, ih]

end ModelFinder
