import ModelFinder.Proofs.Search.Minimize

/-! The ledger and the store agree: the live entries of the ledger are the live constraints, whether
cone clauses are recorded, made live again or taken back, and whichever of them the solver refuses. -/
namespace ModelFinder

theorem holds_sortLiterals {clause : Clause} {a : Nat → Bool} :
    Clause.holds a (sortLiterals clause) = Clause.holds a clause := by
  rw [Bool.eq_iff_iff, Clause.holds_iff, Clause.holds_iff]
  simp [sortLiterals, List.mem_mergeSort]

theorem mentions_sortLiterals {clause : Clause} {limit : Nat} (fits : Mentions limit clause) :
    Mentions limit (sortLiterals clause) :=
  fun l member => fits l (List.mem_mergeSort.mp member)

def liveOf (entries : List LedgerEntry) : List (Nat × Clause) :=
  entries.filterMap fun e => e.handle.map (·, e.clause)

theorem mem_liveOf {entries : List LedgerEntry} {handle : Nat} {clause : Clause} :
    (handle, clause) ∈ liveOf entries ↔ ⟨clause, some handle⟩ ∈ entries := by
  rw [liveOf, List.mem_filterMap]
  constructor
  · rintro ⟨⟨other, given⟩, member, found⟩
    obtain ⟨h, isHandle, same⟩ := Option.map_eq_some_iff.mp found
    obtain ⟨rfl, rfl⟩ := Prod.mk.inj same
    rw [← show given = some h from isHandle]
    exact member
  · exact fun member => ⟨_, member, rfl⟩

theorem liveOf_cons (e : LedgerEntry) (rest : List LedgerEntry) :
    liveOf (e :: rest) = liveOf [e] ++ liveOf rest := by
  rw [liveOf, liveOf, liveOf, ← List.filterMap_append, List.singleton_append]

theorem liveOf_perm (other : List (Nat × Clause)) (e : LedgerEntry) (rest : List LedgerEntry) :
    (other ++ liveOf (e :: rest)).Perm (other ++ liveOf rest ++ liveOf [e]) := by
  rw [liveOf_cons, List.append_assoc]
  exact List.perm_append_comm.append_left other

namespace Ledger

variable {σ : Type} [Backend σ] {held : σ → List Clause} {count : σ → Nat} {base : List Clause}
  {limit : Nat} {st : Store σ} {entries : List LedgerEntry} {other : List (Nat × Clause)}

structure Asserted (held : σ → List Clause) (count : σ → Nat) (base : List Clause) (limit : Nat)
    (other : List (Nat × Clause)) (chosen : LedgerEntry → Prop) (entries : List LedgerEntry)
    (st : Store σ) (after : List LedgerEntry × Store σ) : Prop where
  guards : after.2.Guards held base limit (other ++ liveOf after.1)
  clauses : after.1.map (·.clause) = entries.map (·.clause)
  asserted : (∀ e ∈ after.1, chosen e → e.handle.isSome = true) ∨
    Refused (fun _ => true) count st.backend after.2.backend
  distinct : ((other ++ liveOf entries).map Prod.fst).Nodup →
    ((other ++ liveOf after.1).map Prod.fst).Nodup
  model : after.2.model = st.model
  count : count st.backend ≤ count after.2.backend
  conserves : st.Conserves after.2

theorem Asserted.unchanged {chosen : LedgerEntry → Prop}
    (guards : st.Guards held base limit (other ++ liveOf entries))
    (done : ∀ e ∈ entries, chosen e → e.handle.isSome = true) :
    Asserted held count base limit other chosen entries st (entries, st) :=
  ⟨guards, rfl, .inl done, id, rfl, Nat.le_refl _, .refl st⟩

/-- What becomes of the first entry while the others are as they were, and then of the others. -/
theorem Asserted.cons {chosen : LedgerEntry → Prop} {e first : LedgerEntry} {next : Store σ}
    {rest : List LedgerEntry} {after : List LedgerEntry × Store σ}
    (here : Asserted held count base limit (other ++ liveOf rest) chosen [e] st ([first], next))
    (there : Asserted held count base limit (other ++ liveOf [first]) chosen rest next after) :
    Asserted held count base limit other chosen (e :: rest) st (first :: after.1, after.2) where
  guards := there.guards.congr fun _ => by rw [liveOf_cons first after.1, List.append_assoc]
  clauses := by
    have clause := List.singleton_inj.mp here.clauses
    simp only [List.map_cons, clause, there.clauses]
  asserted := by
    rcases here.asserted with isLive | refused
    · refine there.asserted.imp (fun areLive => ?_) (·.widen here.count (Nat.le_refl _))
      exact List.forall_mem_cons.mpr ⟨isLive first (List.mem_singleton_self _), areLive⟩
    · exact .inr (refused.widen (Nat.le_refl _) there.count)
  distinct apart := by
    have first' := here.distinct (((liveOf_perm other e rest).map Prod.fst).nodup_iff.mp apart)
    have order := liveOf_perm other first rest
    rw [liveOf_cons first rest, ← List.append_assoc] at order
    have last := there.distinct ((order.map Prod.fst).nodup_iff.mpr first')
    rwa [List.append_assoc, ← liveOf_cons first after.1] at last
  model := there.model.trans here.model
  count := Nat.le_trans here.count there.count
  conserves := here.conserves.trans there.conserves

/-- An entry is made live by a new constraint, unless it is live already or its clause is refused. -/
theorem assertEntry_asserted (faithful : Faithful σ held) (gauge : Gauge σ count)
    (chosen : LedgerEntry → Prop) {e : LedgerEntry} (fits : Mentions limit e.clause)
    (guards : st.Guards held base limit (other ++ liveOf [e])) :
    Asserted held count base limit other chosen [e] st
      ([(assertEntry st e).1], (assertEntry st e).2) := by
  unfold assertEntry
  cases given : e.handle with
  | some handle =>
    refine .unchanged guards fun entry member _ => ?_
    rw [List.mem_singleton.mp member, given]
    rfl
  | none =>
    have absent : other ++ liveOf [e] = other := by simp [liveOf, given]
    rw [absent] at guards
    obtain ⟨model, added⟩ := Store.addConstraint_guarded faithful guards fits
    have later := @Store.addConstraint_count σ st e.clause _ count gauge
    have conserves := @Store.addConstraint_conserves σ st e.clause _
    have refused := @Store.addConstraint_refused σ st e.clause _ count gauge (fun _ => true)
      fun _ => rfl
    generalize st.addConstraint e.clause = out at model added later conserves refused
    obtain ⟨offered, next⟩ := out
    cases offered with
    | none =>
      refine ⟨?_, rfl, .inr (refused rfl), fun apart => ?_, model, later, conserves⟩
      · simpa [liveOf] using added
      · rw [absent] at apart
        simpa [liveOf] using apart
    | some handle =>
      obtain ⟨isNew, inOrder⟩ := added
      refine ⟨inOrder, rfl, .inl (by simp), fun apart => ?_, model, later, conserves⟩
      rw [absent] at apart
      show ((other ++ [(handle, e.clause)]).map Prod.fst).Nodup
      rw [List.map_append, List.nodup_append]
      refine ⟨apart, List.nodup_singleton _, fun old member new isNew' => ?_⟩
      have bound := (guards.ranges old member).2
      obtain rfl := List.mem_singleton.mp isNew'
      omega

theorem assertWhere_asserted (faithful : Faithful σ held) (gauge : Gauge σ count)
    (p : LedgerEntry → Bool) (chosen : LedgerEntry → Prop) (other : List (Nat × Clause))
    (decides : ∀ e, chosen e ↔ p e = true) (fit : ∀ e ∈ entries, Mentions limit e.clause)
    (guards : st.Guards held base limit (other ++ liveOf entries)) :
    Asserted held count base limit other chosen entries st (assertWhere p st entries) := by
  induction entries generalizing st other with
  | nil => exact .unchanged guards (by simp)
  | cons e rest ih =>
    have guards' := guards.congr fun entry => (liveOf_perm other e rest).mem_iff
    have here : Asserted held count base limit (other ++ liveOf rest) chosen [e] st
        ([(if p e then assertEntry st e else (e, st)).1],
          (if p e then assertEntry st e else (e, st)).2) := by
      split
      · exact assertEntry_asserted faithful gauge chosen (fit e List.mem_cons_self) guards'
      · rename_i notChosen
        refine .unchanged guards' fun entry member isChosen => ?_
        rw [List.mem_singleton.mp member] at isChosen
        exact absurd ((decides e).mp isChosen) notChosen
    refine here.cons (ih _ (fun entry member => fit entry (List.mem_cons_of_mem e member)) ?_)
    have order := liveOf_perm other (if p e then assertEntry st e else (e, st)).1 rest
    rw [liveOf_cons, ← List.append_assoc] at order
    exact here.guards.congr fun entry => order.mem_iff.symm

/-- The entries with a clause noted that may be new; it is not made live. -/
def noting (l : Ledger) (clause : Clause) : List LedgerEntry :=
  if l.clauses.contains clause then l.entries else l.entries ++ [⟨clause, none⟩]

theorem liveOf_noting (l : Ledger) (clause : Clause) :
    liveOf (l.noting clause) = liveOf l.entries := by
  unfold noting
  split
  · rfl
  · simp [liveOf]

theorem mem_noting {l : Ledger} {clause other : Clause} :
    other ∈ (l.noting clause).map (·.clause) ↔ other ∈ l.clauses ∨ other = clause := by
  unfold noting
  split
  · rename_i known
    have already : clause ∈ l.clauses := by simpa using known
    constructor
    · exact .inl
    · rintro (old | rfl)
      · exact old
      · exact already
  · simp [clauses]

theorem record_asserted (faithful : Faithful σ held) (gauge : Gauge σ count) {l : Ledger}
    {clause : Clause} (fit : ∀ other ∈ l.clauses, Mentions limit other)
    (mentions : Mentions limit clause) (guards : st.Guards held base limit (liveOf l.entries)) :
    Asserted held count base limit [] (fun e => e.clause = sortLiterals clause)
      (l.noting (sortLiterals clause)) st
      ((l.record st clause).1.entries, (l.record st clause).2) := by
  apply assertWhere_asserted faithful gauge
  · simp
  · intro e member
    rcases mem_noting.mp (List.mem_map_of_mem member) with old | new
    · exact fit _ old
    · rw [new]
      exact mentions_sortLiterals mentions
  · rw [List.nil_append]
    exact (l.liveOf_noting _).symm ▸ guards

end Ledger

namespace Session

variable {σ : Type} {held : σ → List Clause} {count interruptions : σ → Nat} {base : List Clause}
  {s t : Session σ}
  {delivered : List (Nat → Bool)} {assumptions : List Int}

/-- The session excludes the cones of the models delivered: they are on record, and nothing else is,
and the entries that are live are the live constraints. -/
structure Excluding (held : σ → List Clause) (delivered : List (Nat → Bool)) (s : Session σ) :
    Prop where
  ready : s.Ready held (liveOf s.ledger.entries)
  fits : ∀ clause ∈ s.ledger.clauses, Mentions s.loaded.encoding.cnf.numVars clause
  excluded : ∀ clause ∈ s.ledger.clauses, ∃ d ∈ delivered,
    ∀ a, clause.holds a = true ↔ ¬ Below s.numPrimary d a
  recorded : ∀ d ∈ delivered, ∃ clause ∈ s.ledger.clauses,
    ∀ a, clause.holds a = true ↔ ¬ Below s.numPrimary d a

/-- Where every entry is live, what is admitted is what lies in no excluded cone. -/
theorem Excluding.admits_iff (excluding : s.Excluding held delivered)
    (all : ∀ e ∈ s.ledger.entries, e.handle.isSome = true) {a : Nat → Bool} :
    s.Admits (liveOf s.ledger.entries) assumptions a ↔
      s.Admits [] assumptions a ∧ ∀ d ∈ delivered, ¬ Below s.numPrimary d a := by
  constructor
  · intro admits
    refine ⟨⟨admits.base, by simp, admits.assumptions⟩, fun d isDelivered => ?_⟩
    obtain ⟨clause, isRecorded, cone⟩ := excluding.recorded d isDelivered
    obtain ⟨⟨clause, given⟩, member, rfl⟩ := List.mem_map.mp isRecorded
    obtain ⟨handle, isHandle⟩ := Option.isSome_iff_exists.mp (all _ member)
    obtain rfl : given = some handle := isHandle
    exact (cone a).mp (admits.live _ (mem_liveOf.mpr member))
  · rintro ⟨admits, apart⟩
    refine ⟨admits.base, fun entry member => ?_, admits.assumptions⟩
    have isRecorded : entry.2 ∈ s.ledger.clauses := List.mem_map_of_mem (mem_liveOf.mp member)
    obtain ⟨d, isDelivered, cone⟩ := excluding.excluded _ isRecorded
    exact (cone a).mpr (apart d isDelivered)

theorem Excluding.of_follows (excluding : s.Excluding held delivered)
    (follows : Follows interruptions s t) (ready : t.Ready held (liveOf s.ledger.entries)) :
    t.Excluding held delivered := by
  refine ⟨?_, ?_, ?_, ?_⟩
  · rw [follows.ledger]
    exact ready
  · rw [follows.ledger, follows.encoding]
    exact excluding.fits
  · rw [follows.ledger, follows.numPrimary]
    exact excluding.excluded
  · rw [follows.ledger, follows.numPrimary]
    exact excluding.recorded

variable [Backend σ]

theorem ensureAsserted_asserted (faithful : Faithful σ held) (gauge : Gauge σ count)
    (fits : ∀ clause ∈ s.ledger.clauses, Mentions s.loaded.encoding.cnf.numVars clause)
    (guarded : s.Guarded held base (liveOf s.ledger.entries)) :
    Ledger.Asserted held count base s.loaded.encoding.cnf.numVars [] (fun _ => True)
      s.ledger.entries s.store (s.ensureAsserted.ledger.entries, s.ensureAsserted.store) :=
  Ledger.assertWhere_asserted faithful gauge (fun _ => true) (fun _ => True) [] (by simp)
    (fun e member => fits e.clause (List.mem_map_of_mem member)) guarded.guards

theorem excludeCone_asserted (faithful : Faithful σ held) (gauge : Gauge σ count)
    (fits : ∀ clause ∈ s.ledger.clauses, Mentions s.loaded.encoding.cnf.numVars clause)
    (guarded : s.Guarded held base (liveOf s.ledger.entries)) :
    Ledger.Asserted held count base s.loaded.encoding.cnf.numVars []
      (fun e => e.clause = sortLiterals (Ledger.coneClause s.truePrimaries))
      (s.ledger.noting (sortLiterals (Ledger.coneClause s.truePrimaries))) s.store
      (s.excludeCone.ledger.entries, s.excludeCone.store) :=
  Ledger.record_asserted faithful gauge fits guarded.coneClause_mentions guarded.guards

theorem clear_guarded (faithful : Faithful σ held) (gauge : Gauge σ count)
    (guarded : s.Guarded held base (liveOf s.ledger.entries)) :
    Continues count s s.clear ∧ s.store.Conserves s.clear.store ∧ s.clear.Guarded held base [] ∧
      liveOf s.clear.ledger.entries = [] ∧ s.clear.ledger.clauses = s.ledger.clauses := by
  have store : s.clear.store = (s.ledger.entries.filterMap (·.handle)).foldl
      Store.removeConstraint s.store := rfl
  have moved : ∀ handles : List Nat, ∀ u : Session σ,
      (handles.foldl removeConstraint u).store =
        handles.foldl Store.removeConstraint u.store := by
    intro handles
    induction handles with
    | nil => exact fun u => rfl
    | cons handle rest ih => exact fun u => ih (u.removeConstraint handle)
  obtain ⟨removed, left, -⟩ :=
    removeAll_guarded faithful gauge guarded (s.ledger.entries.filterMap (·.handle))
  have none : (liveOf s.ledger.entries).filter
      (·.1 ∉ s.ledger.entries.filterMap (·.handle)) = [] := by
    apply List.filter_eq_nil_iff.mpr
    intro entry member
    have isHandle : entry.1 ∈ s.ledger.entries.filterMap (·.handle) :=
      List.mem_filterMap.mpr ⟨_, mem_liveOf.mp member, rfl⟩
    simpa using isHandle
  have guards := left.guards
  rw [none, removed.encoding, moved, ← store] at guards
  have later := removed.interruptions
  have conserves := removed.conserves
  rw [moved, ← store] at later conserves
  have continues : Continues count s s.clear := ⟨rfl, rfl, later⟩
  refine ⟨continues, conserves, guarded.of_continues continues guards, ?_, ?_⟩
  · show liveOf (s.ledger.entries.map fun e => { e with handle := Option.none }) = []
    simp [liveOf, List.filterMap_map]
  · show (s.ledger.entries.map fun e => { e with handle := Option.none }).map (·.clause) = _
    simp [Ledger.clauses]

theorem ensureAsserted_excluding (oracle : Oracle σ held interruptions)
    (excluding : s.Excluding held delivered) :
    Continues interruptions s s.ensureAsserted ∧ s.ensureAsserted.Excluding held delivered ∧
      ∀ e ∈ s.ensureAsserted.ledger.entries, e.handle.isSome = true := by
  have asserted := ensureAsserted_asserted oracle.faithful oracle.gauge excluding.fits
    excluding.ready.guarded
  have continues : Continues interruptions s s.ensureAsserted := ⟨rfl, rfl, asserted.count⟩
  have clauses : s.ensureAsserted.ledger.clauses = s.ledger.clauses := asserted.clauses
  refine ⟨continues, ⟨?_, ?_, ?_, ?_⟩, fun e member =>
    asserted.asserted.resolve_right oracle.not_refused e member trivial⟩
  · exact excluding.ready.of_continues continues asserted.guards
  · rw [clauses]
    exact excluding.fits
  · rw [clauses]
    exact excluding.excluded
  · rw [clauses]
    exact excluding.recorded

theorem excludeCone_excluding (oracle : Oracle σ held interruptions)
    (excluding : s.Excluding held delivered) :
    Continues interruptions s s.excludeCone ∧
      s.excludeCone.Excluding held (delivered ++ [s.value]) := by
  have guarded := excluding.ready.guarded
  have small : s.numPrimary < 2147483647 := Nat.lt_of_le_of_lt guarded.primary guarded.small
  have asserted := excludeCone_asserted oracle.faithful oracle.gauge excluding.fits guarded
  set clause : Clause := sortLiterals (Ledger.coneClause s.truePrimaries) with isClause
  have cone : ∀ a, clause.holds a = true ↔ ¬ Below s.numPrimary s.value a := by
    intro a
    rw [isClause, holds_sortLiterals]
    exact coneClause_iff small a
  have continues : Continues interruptions s s.excludeCone := ⟨rfl, rfl, asserted.count⟩
  have clauses : ∀ other, other ∈ s.excludeCone.ledger.clauses ↔
      other ∈ s.ledger.clauses ∨ other = clause := by
    intro other
    rw [← Ledger.mem_noting, ← asserted.clauses]
    rfl
  refine ⟨continues, ?_, ?_, ?_, ?_⟩
  · exact excluding.ready.of_continues continues asserted.guards
  · intro other member
    rcases (clauses other).mp member with old | rfl
    · exact excluding.fits other old
    · exact mentions_sortLiterals guarded.coneClause_mentions
  · intro other member
    rcases (clauses other).mp member with old | rfl
    · obtain ⟨d, isDelivered, isCone⟩ := excluding.excluded other old
      exact ⟨d, List.mem_append_left _ isDelivered, isCone⟩
    · exact ⟨s.value, List.mem_append_right _ (List.mem_singleton_self _), cone⟩
  · intro d member
    rcases List.mem_append.mp member with old | new
    · obtain ⟨other, isRecorded, isCone⟩ := excluding.recorded d old
      exact ⟨other, (clauses other).mpr (.inl isRecorded), isCone⟩
    · rw [List.mem_singleton.mp new]
      exact ⟨clause, (clauses clause).mpr (.inr rfl), cone⟩

theorem clear_excluding (oracle : Oracle σ held interruptions)
    (excluding : s.Excluding held delivered) :
    Continues interruptions s s.clear ∧ s.clear.Excluding held delivered := by
  obtain ⟨continues, -, guarded, noLive, clauses⟩ :=
    clear_guarded oracle.faithful oracle.gauge excluding.ready.guarded
  refine ⟨continues, ⟨?_, ?_, ?_, ?_⟩⟩
  · rw [noLive]
    exact excluding.ready.of_guarded continues guarded
  · rw [clauses]
    exact excluding.fits
  · rw [clauses]
    exact excluding.excluded
  · rw [clauses]
    exact excluding.recorded

end Session

end ModelFinder
