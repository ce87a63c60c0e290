import ModelFinder.Proofs.Search.Ledger
import ModelFinder.Search.Lifters

/-! Looking for lifters. Each round asks for a model in which a remaining candidate is true and
collects all candidates that it makes true, so the candidates are exhausted before the rounds are, and
those left when a round finds none are true in no model. The constraints of the rounds are taken back
whether a round is answered or fails, and the recorded cones stay on record without being live. -/
namespace ModelFinder.Session

variable {σ : Type} [Backend σ] {held : σ → List Clause} {count interruptions : σ → Nat}
  {base : List Clause} {s : Session σ} {live : List (Nat × Clause)}
  {delivered : List (Nat → Bool)} {units : List Int}
  {candidates found preserved : List Nat}

def IsLifter (s : Session σ) (preserved : List Nat) (v : Nat) : Prop :=
  (1 ≤ v ∧ v ≤ s.numPrimary) ∧ v ∉ preserved ∧
    ∃ a, s.Admits [] [] a ∧ (∀ w ∈ preserved, a w = true) ∧ a v = true

omit [Backend σ] in
theorem admits_append {a : Nat → Bool} {more : List Int} :
    s.Admits live (units ++ more) a ↔ s.Admits live units a ∧ Meets a more := by
  constructor
  · intro admits
    have met := admits.assumptions
    rw [← List.append_assoc] at met
    exact ⟨⟨admits.base, admits.live, (meets_append.mp met).1⟩, (meets_append.mp met).2⟩
  · rintro ⟨admits, met⟩
    refine ⟨admits.base, admits.live, ?_⟩
    rw [← List.append_assoc]
    exact meets_append.mpr ⟨admits.assumptions, met⟩

omit [Backend σ] in
theorem admits_constrained {a : Nat → Bool} {handle : Nat} {clause : Clause} :
    s.Admits (live ++ [(handle, clause)]) units a ↔
      s.Admits live units a ∧ clause.holds a = true := by
  constructor
  · intro admits
    refine ⟨⟨admits.base, fun entry member => ?_, admits.assumptions⟩, ?_⟩
    · exact admits.live entry (List.mem_append_left _ member)
    · exact admits.live (handle, clause) (List.mem_append_right _ (List.mem_singleton_self _))
  · rintro ⟨admits, holds⟩
    refine ⟨admits.base, fun entry member => ?_, admits.assumptions⟩
    rcases List.mem_append.mp member with old | new
    · exact admits.live entry old
    · rw [List.mem_singleton.mp new]
      exact holds

theorem mentions_naturals {limit : Nat} (primary : ∀ v ∈ candidates, 1 ≤ v ∧ v ≤ limit) :
    Mentions limit (candidates.map Int.ofNat) := by
  intro l member
  obtain ⟨v, isCandidate, rfl⟩ := List.mem_map.mp member
  have bound := primary v isCandidate
  simp only [Int.ofNat_eq_natCast]
  omega

theorem holds_naturals {a : Nat → Bool} (positive : ∀ v ∈ candidates, 1 ≤ v) :
    Clause.holds a (candidates.map Int.ofNat) = true ↔ ∃ v ∈ candidates, a v = true := by
  rw [Clause.holds_iff]
  simp only [List.mem_map, exists_exists_and_eq_and]
  apply exists_congr
  intro v
  apply and_congr_right
  intro member
  rw [Int.ofNat_eq_natCast, litHolds_natCast (positive v member)]

theorem meets_naturals {a : Nat → Bool} (positive : ∀ v ∈ candidates, 1 ≤ v) :
    Meets a (candidates.map Int.ofNat) ↔ ∀ v ∈ candidates, a v = true := by
  rw [Meets, List.forall_mem_map]
  apply forall_congr'
  intro v
  apply forall_congr'
  intro member
  rw [Int.ofNat_eq_natCast, litHolds_natCast (positive v member)]

theorem map_signedWord (small : ∀ v ∈ candidates, v < 2147483648) :
    (candidates.map fun (v : Nat) => signedWord v) = candidates.map Int.ofNat := by
  apply List.map_congr_left
  intro v member
  have bound := small v member
  exact signedWord_of_natAbs_lt (by omega)

theorem mergeSort_ascending {vars : List Nat} (apart : vars.Nodup) :
    (vars.mergeSort (· ≤ ·)).Pairwise (· < ·) := by
  have sorted := @List.pairwise_mergeSort Nat (· ≤ ·)
    (fun a b c first second => decide_eq_true
      (Nat.le_trans (of_decide_eq_true first) (of_decide_eq_true second)))
    (fun a b => by simpa using Nat.le_total a b) vars
  have different := (List.mergeSort_perm vars (· ≤ ·)).nodup_iff.mpr apart
  apply (sorted.and different).imp
  intro a b both
  exact Nat.lt_of_le_of_ne (of_decide_eq_true both.1) both.2

omit [Backend σ] in
theorem filter_constrained {handle : Nat} {clause : Clause} (unknown : handle ∉ live.map Prod.fst) :
    (live ++ [(handle, clause)]).filter (·.1 ≠ handle) = live := by
  rw [List.filter_append, filter_ne_of_absent unknown]
  simp

/-- A round takes its constraint back, whatever its search comes to. -/
theorem anyCandidate_guarded (faithful : Faithful σ held) (gauge : Gauge σ count)
    (guarded : s.Guarded held base live) (units : List Int)
    (primary : ∀ v ∈ candidates, 1 ≤ v ∧ v ≤ s.loaded.encoding.cnf.numVars) :
    Maintains count s (s.anyCandidate units candidates).2 ∧
      (s.anyCandidate units candidates).2.Guarded held base live := by
  unfold anyCandidate
  split
  · exact solve_guarded faithful gauge guarded _
  · obtain ⟨added, -, constrained⟩ :=
      addConstraint_guarded faithful gauge guarded (mentions_naturals primary)
    generalize s.addConstraint (candidates.map Int.ofNat) = out at added constrained
    obtain ⟨given, between⟩ := out
    cases given with
    | none => exact ⟨added, constrained.1⟩
    | some handle =>
      obtain ⟨unknown, kept⟩ := constrained
      obtain ⟨searched, after⟩ := solve_guarded faithful gauge kept units
      obtain ⟨removed, final, -⟩ := removeConstraint_guarded faithful gauge after handle
      rw [filter_constrained unknown] at final
      exact ⟨added.trans (searched.trans removed), final⟩

section

variable {between : Session σ} (several : ∀ only, candidates ≠ [only])

include several

theorem anyCandidate_of_refused
    (ran : s.addConstraint (candidates.map Int.ofNat) = (none, between)) :
    s.anyCandidate units candidates = (none, between) := by
  unfold anyCandidate
  split
  · exact absurd rfl (several _)
  · rw [ran]

theorem anyCandidate_of_added {handle : Nat}
    (ran : s.addConstraint (candidates.map Int.ofNat) = (some handle, between)) :
    s.anyCandidate units candidates =
      (some (between.solve units).1, (between.solve units).2.removeConstraint handle) := by
  unfold anyCandidate
  split
  · exact absurd rfl (several _)
  · rw [ran]

end

/-- A round finds a model with a candidate, or there is none, or its search failed or its constraint
was refused. -/
theorem anyCandidate_answers (faithful : Faithful σ held) (gauge : Gauge σ count)
    (guarded : s.Guarded held s.loaded.encoding.cnf.clauses.toList live)
    (fits : Mentions s.loaded.encoding.cnf.numVars units) (nonempty : candidates ≠ [])
    (primary : ∀ v ∈ candidates, 1 ≤ v ∧ v ≤ s.loaded.encoding.cnf.numVars) :
    match (s.anyCandidate units candidates).1 with
    | some (.ok true) => s.Admits live units (s.anyCandidate units candidates).2.value ∧
        ∃ v ∈ candidates, (s.anyCandidate units candidates).2.value v = true
    | some (.ok false) => ∀ a, s.Admits live units a → ∀ v ∈ candidates, ¬ a v = true
    | some (.error failure) => Failed count failure s (s.anyCandidate units candidates).2
    | none => Refused Clause.compound count s.store.backend
        (s.anyCandidate units candidates).2.store.backend := by
  have mentions := mentions_naturals primary
  have positive := fun v member => (primary v member).1
  by_cases single : ∃ only, candidates = [only]
  · obtain ⟨only, rfl⟩ := single
    simp only [anyCandidate]
    have assumed : Mentions s.loaded.encoding.cnf.numVars (units ++ [(only : Int)]) := by
      intro l member
      rcases List.mem_append.mp member with isUnit | isOnly
      · exact fits l isUnit
      · rw [List.mem_singleton.mp isOnly]
        exact mentions (only : Int) (by simp)
    have isTrue : ∀ a, Meets a [(only : Int)] ↔ a only = true := fun a =>
      (meets_naturals positive).trans List.forall_mem_singleton
    obtain ⟨-, answer⟩ := solve_decides faithful guarded assumed
    rcases result : (s.solve (units ++ [(only : Int)])).1 with failure | _ | _
    case error => exact ⟨s, _, .refl s, result, .refl _⟩
    case ok.false =>
      rw [result] at answer
      intro a admits v member chosen
      rw [List.mem_singleton.mp member] at chosen
      exact answer a (admits_append.mpr ⟨admits, (isTrue a).mpr chosen⟩)
    case ok.true =>
      rw [result] at answer
      obtain ⟨admits, met⟩ := admits_append.mp answer
      exact ⟨admits, only, List.mem_cons_self, (isTrue _).mp met⟩
  · have several : ∀ only, candidates ≠ [only] := fun only same => single ⟨only, same⟩
    obtain ⟨added, -, constrained⟩ := addConstraint_guarded faithful gauge guarded mentions
    rcases ran : s.addConstraint (candidates.map Int.ofNat) with ⟨given, between⟩
    rw [ran] at added constrained
    cases given with
    | none =>
      rw [anyCandidate_of_refused several ran]
      exact constrained.2 (by simpa using nonempty)
    | some handle =>
      rw [anyCandidate_of_added several ran]
      obtain ⟨-, kept⟩ := constrained
      obtain ⟨-, after⟩ := solve_guarded faithful gauge kept units
      obtain ⟨removed, -, value⟩ := removeConstraint_guarded faithful gauge after handle
      obtain ⟨-, answer⟩ := solve_decides faithful kept (added.encoding.symm ▸ fits)
      rw [added.encoding] at answer
      rcases result : (between.solve units).1 with failure | _ | _
      case error => exact ⟨between, units, added.toFollows, result, removed.toFollows⟩
      case ok.false =>
        rw [result] at answer
        intro a admits v member chosen
        apply answer a
        exact admits_constrained.mpr ⟨admits, (holds_naturals positive).mpr ⟨v, member, chosen⟩⟩
      case ok.true =>
        rw [result] at answer
        simp only [value]
        obtain ⟨admits, holds⟩ := admits_constrained.mp answer
        exact ⟨admits, (holds_naturals positive).mp holds⟩

theorem collectLifters_guarded (faithful : Faithful σ held) (gauge : Gauge σ count) (limit : Nat)
    (guarded : s.Guarded held base live) (units : List Int)
    (primary : ∀ v ∈ candidates, 1 ≤ v ∧ v ≤ s.loaded.encoding.cnf.numVars) :
    Maintains count s (collectLifters limit s units candidates found).2 ∧
      (collectLifters limit s units candidates found).2.Guarded held base live := by
  induction limit generalizing s candidates found with
  | zero => exact ⟨.refl s, guarded⟩
  | succ limit ih =>
    unfold collectLifters
    split
    · exact ⟨.refl s, guarded⟩
    · obtain ⟨maintains, kept⟩ := anyCandidate_guarded faithful gauge guarded units primary
      generalize s.anyCandidate units candidates = out at maintains kept
      obtain ⟨answer, between⟩ := out
      match answer with
      | some (.ok true) =>
        obtain ⟨further, final⟩ := @ih between (candidates.filter (!between.value ·))
          (found ++ candidates.filter between.value) kept fun v member =>
            maintains.encoding.symm ▸ primary v (List.mem_filter.mp member).1
        exact ⟨maintains.trans further, final⟩
      | some (.ok false) => exact ⟨maintains, kept⟩
      | some (.error failure) => exact ⟨maintains, kept⟩
      | none => exact ⟨maintains, kept⟩

/-- What was collected, beyond what had been found, are candidates that are true in an admitted
assignment, and all of them unless a constraint was refused. -/
structure Collected (count : σ → Nat) (live : List (Nat × Clause)) (units : List Int)
    (candidates found : List Nat) (s after : Session σ) (vars : List Nat) : Prop where
  distinct : (found ++ candidates).Nodup → vars.Nodup
  sound : ∀ v ∈ vars, v ∈ found ∨ v ∈ candidates ∧ ∃ a, s.Admits live units a ∧ a v = true
  complete : (∀ v, v ∈ found ∨ v ∈ candidates ∧ (∃ a, s.Admits live units a ∧ a v = true) → v ∈ vars) ∨
    Refused Clause.compound count s.store.backend after.store.backend

/-- Nothing is collected where no candidate is left that an admitted assignment makes true. -/
theorem collected_nothing {after : Session σ}
    (refuted : (∀ a, s.Admits live units a → ∀ v ∈ candidates, ¬ a v = true) ∨
      Refused Clause.compound count s.store.backend after.store.backend) :
    Collected count live units candidates found s after found where
  distinct apart := (List.nodup_append.mp apart).1
  sound _ := .inl
  complete := refuted.imp_left fun none v either =>
    either.resolve_right fun ⟨member, a, admits, value⟩ => none a admits v member value

/-- What a model makes true is collected, and what is collected after it from the other candidates. -/
theorem Collected.of_model {between after : Session σ} {vars : List Nat}
    (follows : Follows count s between) (admits : s.Admits live units between.value)
    (rest : Collected count live units (candidates.filter (!between.value ·))
      (found ++ candidates.filter between.value) between after vars) :
    Collected count live units candidates found s after vars where
  distinct apart := by
    refine rest.distinct ?_
    rw [List.append_assoc]
    have split := List.filter_append_perm between.value candidates
    exact (split.append_left found).nodup_iff.mpr apart
  sound v member := by
    have sound := rest.sound v member
    simp only [follows.admits, List.mem_append, List.mem_filter] at sound
    rcases sound with (old | ⟨isCandidate, value⟩) | ⟨⟨isCandidate, -⟩, admitted⟩
    · exact .inl old
    · exact .inr ⟨isCandidate, between.value, admits, value⟩
    · exact .inr ⟨isCandidate, admitted⟩
  complete := by
    have complete := rest.complete
    simp only [follows.admits, List.mem_append, List.mem_filter] at complete
    apply complete.imp _ fun refused => refused.widen follows.interruptions (Nat.le_refl _)
    rintro all v (old | ⟨isCandidate, admitted⟩)
    · exact all v (.inl (.inl old))
    · by_cases value : between.value v = true
      · exact all v (.inl (.inr ⟨isCandidate, value⟩))
      · exact all v (.inr ⟨⟨isCandidate, by simp [value]⟩, admitted⟩)

theorem collectLifters_exact (faithful : Faithful σ held) (gauge : Gauge σ count) {limit : Nat}
    (guarded : s.Guarded held s.loaded.encoding.cnf.clauses.toList live)
    (fits : Mentions s.loaded.encoding.cnf.numVars units)
    (primary : ∀ v ∈ candidates, 1 ≤ v ∧ v ≤ s.loaded.encoding.cnf.numVars)
    (enough : candidates.length ≤ limit) :
    match (collectLifters limit s units candidates found).1 with
    | .ok vars => Collected count live units candidates found s
        (collectLifters limit s units candidates found).2 vars
    | .error failure =>
        Failed count failure s (collectLifters limit s units candidates found).2 := by
  induction limit generalizing s candidates found with
  | zero =>
    obtain rfl := List.eq_nil_of_length_eq_zero (Nat.le_zero.mp enough)
    exact collected_nothing (.inl (by simp))
  | succ limit ih =>
    unfold collectLifters
    by_cases empty : candidates.isEmpty = true
    · rw [if_pos empty]
      obtain rfl := List.isEmpty_iff.mp empty
      exact collected_nothing (.inl (by simp))
    · rw [if_neg empty]
      obtain ⟨maintains, kept⟩ := anyCandidate_guarded faithful gauge guarded units primary
      have outcome := anyCandidate_answers faithful gauge guarded fits
        (fun none => empty (List.isEmpty_iff.mpr none)) primary
      generalize s.anyCandidate units candidates = out at maintains kept outcome
      obtain ⟨answer, between⟩ := out
      have follows := maintains.toFollows
      match answer, outcome with
      | some (.ok true), ⟨admits, lifter, isCandidate, chosen⟩ =>
        -- The candidate that became true leaves, so fewer are left for the rounds left.
        have fewer : (candidates.filter (!between.value ·)).length < candidates.length :=
          List.length_filter_lt_length_iff_exists.mpr ⟨lifter, isCandidate, by simp [chosen]⟩
        have rest := @ih between (candidates.filter (!between.value ·))
          (found ++ candidates.filter between.value) (maintains.encoding.symm ▸ kept)
          (follows.encoding.symm ▸ fits)
          (fun v member => follows.encoding.symm ▸ primary v (List.mem_filter.mp member).1)
          (by omega)
        simp only
        generalize collectLifters limit between units _ _ = out at rest
        obtain ⟨result, after⟩ := out
        match result, rest with
        | .ok vars, collected => exact collected.of_model follows admits
        | .error failure, failed => exact follows.failed failed
      | some (.ok false), refuted => exact collected_nothing (.inl refuted)
      | some (.error failure), failed => exact failed
      | none, refused => exact collected_nothing (.inr refused)

theorem mem_others {limit v : Nat} :
    v ∈ (List.range' 1 limit).filter (!preserved.contains ·) ↔
      (1 ≤ v ∧ v ≤ limit) ∧ v ∉ preserved := by
  rw [List.mem_filter, List.mem_range'_1]
  simp only [Bool.not_eq_true', List.contains_eq_mem, decide_eq_false_iff_not]
  apply and_congr_left'
  omega

/-- However the search for lifters ends, no recorded cone is live and no constraint is left. -/
theorem lifters_guarded (faithful : Faithful σ held) (gauge : Gauge σ count)
    (guarded : s.Guarded held base (liveOf s.ledger.entries)) (preserved : List Nat) :
    Maintains count s.clear (s.lifters preserved).2 ∧
      (s.lifters preserved).2.Guarded held base [] := by
  obtain ⟨-, -, cleared, -, -⟩ := clear_guarded faithful gauge guarded
  have inUse := cleared.primary
  apply collectLifters_guarded faithful gauge _ cleared
  intro v member
  have bound := (mem_others.mp member).1
  omega

/-- The lifters given are primary variables outside `preserved` that some assignment of the encoding
makes true together with `preserved`, whatever cones are on record, and all of them unless a
constraint was refused. -/
theorem lifters_sound (faithful : Faithful σ held) (gauge : Gauge σ count)
    (guarded : s.Guarded held s.loaded.encoding.cnf.clauses.toList (liveOf s.ledger.entries))
    (primary : ∀ v ∈ preserved, 1 ≤ v ∧ v ≤ s.numPrimary) :
    match (s.lifters preserved).1 with
    | .ok vars => vars.Pairwise (· < ·) ∧ (∀ v ∈ vars, s.IsLifter preserved v) ∧
        ((∀ v, s.IsLifter preserved v → v ∈ vars) ∨
          Refused Clause.compound count s.store.backend (s.lifters preserved).2.store.backend)
    | .error failure => Failed count failure s.clear (s.lifters preserved).2 := by
  obtain ⟨cleared, -, inOrder, -, -⟩ := clear_guarded faithful gauge guarded
  have inUse := inOrder.primary
  have small := inOrder.small
  have words := map_signedWord fun v member => (by
    have bound := primary v member
    have less := cleared.numPrimary
    omega : v < 2147483648)
  have met := fun a => @meets_naturals preserved a fun v member => (primary v member).1
  have fits : Mentions s.clear.loaded.encoding.cnf.numVars (preserved.map Int.ofNat) :=
    mentions_naturals fun v member => by
      have bound := primary v member
      have less := cleared.numPrimary
      omega
  have collected := @collectLifters_exact σ _ held count s.clear [] _ _ [] faithful gauge
    ((List.range' 1 s.clear.numPrimary).filter (!preserved.contains ·)).length inOrder fits
    (fun v member => by
      have bound := (mem_others.mp member).1
      omega)
    (Nat.le_refl _)
  have isLifter : ∀ v, s.IsLifter preserved v ↔
      v ∈ ([] : List Nat) ∨ v ∈ (List.range' 1 s.clear.numPrimary).filter (!preserved.contains ·) ∧
        ∃ a, s.clear.Admits [] (preserved.map Int.ofNat) a ∧ a v = true := by
    intro v
    rw [IsLifter, mem_others, cleared.numPrimary]
    simp only [List.not_mem_nil, false_or, and_assoc]
    apply and_congr_right
    intro _
    apply and_congr_right
    intro _
    apply and_congr_right
    intro _
    apply exists_congr
    intro a
    rw [← List.nil_append (preserved.map _), admits_append, met, cleared.admits, and_assoc]
  unfold lifters
  simp only [words]
  generalize collectLifters _ s.clear _ _ [] = out at collected
  obtain ⟨result, after⟩ := out
  cases result with
  | ok vars =>
    obtain ⟨distinct, sound, complete⟩ := collected
    simp only [← isLifter] at sound complete
    have apart : vars.Nodup := distinct ((List.nodup_range' ..).filter _)
    refine ⟨mergeSort_ascending apart, fun v member => sound v (List.mem_mergeSort.mp member), ?_⟩
    exact complete.imp (fun all v lifter => List.mem_mergeSort.mpr (all v lifter)) fun refused =>
      refused.widen cleared.interruptions (Nat.le_refl _)
  | error failure => exact collected

/-- The lifters of given variables are the other primary variables that some assignment of the
encoding makes true together with them, whatever cones are on record. -/
theorem lifters_ready (oracle : Oracle σ held interruptions)
    (ready : s.Ready held (liveOf s.ledger.entries))
    (primary : ∀ v ∈ preserved, 1 ≤ v ∧ v ≤ s.numPrimary) :
    Follows interruptions s.clear (s.lifters preserved).2 ∧
      (s.lifters preserved).2.Ready held [] ∧
      match (s.lifters preserved).1 with
      | .ok vars => vars.Pairwise (· < ·) ∧ ∀ v, v ∈ vars ↔
          (1 ≤ v ∧ v ≤ s.numPrimary) ∧ v ∉ preserved ∧
            ∃ a, s.Admits [] [] a ∧ (∀ w ∈ preserved, a w = true) ∧ a v = true
      | .error failure => failure = .aborted ∧
          Stopped interruptions s (s.lifters preserved).2 := by
  obtain ⟨cleared, -⟩ := clear_guarded oracle.faithful oracle.gauge ready.guarded
  obtain ⟨maintains, guarded⟩ :=
    lifters_guarded oracle.faithful oracle.gauge ready.guarded preserved
  have outcome := lifters_sound oracle.faithful oracle.gauge ready.guarded primary
  have continues := cleared.trans maintains.toContinues
  refine ⟨maintains.toFollows, ready.of_guarded continues guarded, ?_⟩
  split at outcome
  · obtain ⟨ascending, sound, complete⟩ := outcome
    exact ⟨ascending, fun v => ⟨sound v, complete.resolve_right oracle.not_refused v⟩⟩
  · obtain ⟨aborted, stopped⟩ := outcome.stopped oracle ready.unlimited
    exact ⟨aborted, cleared.stopped stopped⟩

theorem lifters_excluding (oracle : Oracle σ held interruptions)
    (excluding : s.Excluding held delivered)
    (primary : ∀ v ∈ preserved, 1 ≤ v ∧ v ≤ s.numPrimary) :
    Continues interruptions s (s.lifters preserved).2 ∧
      (s.lifters preserved).2.Excluding held delivered := by
  obtain ⟨cleared, inOrder⟩ := clear_excluding oracle excluding
  obtain ⟨-, -, -, noLive, -⟩ :=
    clear_guarded oracle.faithful oracle.gauge excluding.ready.guarded
  obtain ⟨follows, ready, -⟩ := lifters_ready oracle excluding.ready primary
  exact ⟨cleared.trans follows.toContinues, inOrder.of_follows follows (noLive ▸ ready)⟩

end ModelFinder.Session
