import Mathlib.Data.List.Forall2

/-! Opening successful runs. A computation that may fail is taken apart into the successes of its
parts, so that later proofs speak of results only. -/
namespace ModelFinder

section

variable {ε α β : Type}

theorem bind_eq_ok {first : Except ε α} {next : α → Except ε β} {result : β} :
    first >>= next = .ok result ↔ ∃ value, first = .ok value ∧ next value = .ok result := by
  cases first <;> simp [bind, Except.bind]

theorem bind_eq_error {first : Except ε α} {next : α → Except ε β} {error : ε} :
    first >>= next = .error error ↔
      first = .error error ∨ ∃ value, first = .ok value ∧ next value = .error error := by
  cases first <;> simp [bind, Except.bind]

theorem map_eq_ok {first : Except ε α} {next : α → β} {result : β} :
    next <$> first = .ok result ↔ ∃ value, first = .ok value ∧ next value = result := by
  cases first <;> simp [Functor.map, Except.map]

theorem exists_map_iff {first : Except ε α} {next : α → β} :
    (∃ result, next <$> first = .ok result) ↔ ∃ value, first = .ok value := by
  cases first <;> simp [Functor.map, Except.map]

@[simp] theorem pure_eq_ok {value result : α} :
    (pure value : Except ε α) = .ok result ↔ value = result := by
  simp [pure, Except.pure]

theorem mapM_eq_ok {step : α → Except ε β} {items : List α} {results : List β} :
    items.mapM step = .ok results ↔
      List.Forall₂ (fun item result => step item = .ok result) items results := by
  induction items generalizing results with
  | nil =>
    rw [List.mapM_nil, pure_eq_ok, List.forall₂_nil_left_iff]
    exact eq_comm
  | cons item items ih =>
    simp only [List.mapM_cons, bind_eq_ok, ih, pure_eq_ok, List.forall₂_cons_left_iff]
    constructor
    · rintro ⟨result, here, rest, there, rfl⟩
      exact ⟨result, rest, here, there, rfl⟩
    · rintro ⟨result, rest, here, there, rfl⟩
      exact ⟨result, here, rest, there, rfl⟩

theorem mapM_of_forall {step : α → Except ε β} {value : α → β} {items : List α}
    (succeeds : ∀ item ∈ items, step item = .ok (value item)) :
    items.mapM step = .ok (items.map value) := by
  refine mapM_eq_ok.mpr (List.forall₂_map_right_iff.mpr ?_)
  exact List.forall₂_same.mpr succeeds

theorem mapM_eq_error {step : α → Except ε β} {items : List α} {error : ε}
    (failed : items.mapM step = .error error) : ∃ item ∈ items, step item = .error error := by
  induction items with
  | nil => cases failed
  | cons item rest ih =>
    rw [List.mapM_cons] at failed
    rcases bind_eq_error.mp failed with here | ⟨value, -, later⟩
    · exact ⟨item, List.mem_cons_self, here⟩
    · rcases bind_eq_error.mp later with there | ⟨values, -, impossible⟩
      · obtain ⟨other, member, isError⟩ := ih there
        exact ⟨other, List.mem_cons_of_mem item member, isError⟩
      · cases impossible

theorem foldlM_invariant {step : β → α → Except ε β} (invariant : β → Prop) {items : List α}
    (kept : ∀ item ∈ items, ∀ before after, invariant before → step before item = .ok after →
      invariant after)
    {start result : β} (initial : invariant start) (ok : items.foldlM step start = .ok result) :
    invariant result := by
  induction items generalizing start with
  | nil => exact pure_eq_ok.mp ok ▸ initial
  | cons item items ih =>
    obtain ⟨next, here, there⟩ := bind_eq_ok.mp ok
    have now := kept item List.mem_cons_self start next initial here
    exact ih (fun other member => kept other (List.mem_cons_of_mem item member)) now there

theorem foldlM_eq_error {step : β → α → Except ε β} (invariant : β → Prop) {items : List α}
    (kept : ∀ item ∈ items, ∀ before after, invariant before → step before item = .ok after →
      invariant after)
    {start : β} (initial : invariant start) {error : ε}
    (failed : items.foldlM step start = .error error) :
    ∃ item ∈ items, ∃ before, invariant before ∧ step before item = .error error := by
  induction items generalizing start with
  | nil => cases failed
  | cons item items ih =>
    rcases bind_eq_error.mp failed with here | ⟨next, here, there⟩
    · exact ⟨item, List.mem_cons_self, start, initial, here⟩
    · obtain ⟨other, member, rest⟩ :=
        ih (fun other member => kept other (List.mem_cons_of_mem item member))
          (kept item List.mem_cons_self start next initial here) there
      exact ⟨other, List.mem_cons_of_mem item member, rest⟩

theorem foldlM_succeeds {step : β → α → Except ε β} (invariant : β → Prop) {items : List α}
    (steps : ∀ item ∈ items, ∀ before, invariant before →
      ∃ after, step before item = .ok after ∧ invariant after)
    {start : β} (initial : invariant start) :
    ∃ result, items.foldlM step start = .ok result ∧ invariant result := by
  induction items generalizing start with
  | nil => exact ⟨start, rfl, initial⟩
  | cons item items ih =>
    obtain ⟨next, here, now⟩ := steps item List.mem_cons_self start initial
    obtain ⟨result, there, final⟩ :=
      ih (fun other member => steps other (List.mem_cons_of_mem item member)) now
    exact ⟨result, bind_eq_ok.mpr ⟨next, here, there⟩, final⟩

end

section

variable {α β : Type} {R : α → β → Prop} {xs : List α} {ys : List β}

theorem forall₂_left (related : List.Forall₂ R xs ys) {x : α} (member : x ∈ xs) :
    ∃ y ∈ ys, R x y := by
  obtain ⟨i, bound, rfl⟩ := List.mem_iff_getElem.mp member
  have inside : i < ys.length := related.length_eq ▸ bound
  exact ⟨ys[i], List.getElem_mem inside, related.get bound inside⟩

theorem forall₂_right (related : List.Forall₂ R xs ys) {y : β} (member : y ∈ ys) :
    ∃ x ∈ xs, R x y :=
  forall₂_left related.flip member

theorem exists_mapM_iff {ε : Type} {step : α → Except ε β} :
    (∃ results, xs.mapM step = .ok results) ↔ ∀ x ∈ xs, ∃ result, step x = .ok result := by
  simp only [mapM_eq_ok]
  constructor
  · rintro ⟨results, related⟩ x member
    obtain ⟨result, -, ok⟩ := forall₂_left related member
    exact ⟨result, ok⟩
  · intro each
    induction xs with
    | nil => exact ⟨[], .nil⟩
    | cons x rest ih =>
      obtain ⟨here, there⟩ := List.forall_mem_cons.mp each
      obtain ⟨result, ok⟩ := here
      obtain ⟨results, related⟩ := ih there
      exact ⟨result :: results, .cons ok related⟩

end

end ModelFinder
