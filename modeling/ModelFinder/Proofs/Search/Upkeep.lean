import ModelFinder.Proofs.Encoding.Meaning
import ModelFinder.Proofs.Search.Lifters

/-! No call of a session leaks or loses a constraint. Minimization and the search for lifters take
their constraints back on every path, and the ledger is changed only together with the store, so that
after any calls the live constraints are those that the ledger has handles of. Clauses that the solver
refuses, searches that fail and searches that are not allowed make no difference. -/
namespace ModelFinder

theorem map_liveOf (entries : List LedgerEntry) :
    (liveOf entries).map Prod.fst = entries.filterMap (·.handle) := by
  rw [liveOf, List.map_filterMap]
  apply List.filterMap_congr
  intro e _
  cases e.handle <;> rfl

/-- Where every entry is live, the live constraints are the recorded clauses in order. -/
theorem map_liveOf_of_live {entries : List LedgerEntry}
    (live : ∀ e ∈ entries, e.handle.isSome = true) :
    (liveOf entries).map Prod.snd = entries.map (·.clause) := by
  rw [liveOf, List.map_filterMap, ← List.filterMap_eq_map]
  apply List.filterMap_congr
  intro e member
  obtain ⟨handle, isHandle⟩ := Option.isSome_iff_exists.mp (live e member)
  rw [isHandle]
  rfl

theorem sortLiterals_pairwise (lits : List Int) : (sortLiterals lits).Pairwise (· ≤ ·) := by
  have sorted := @List.pairwise_mergeSort Int (· ≤ ·)
    (fun a b c first second => decide_eq_true
      (Int.le_trans (of_decide_eq_true first) (of_decide_eq_true second)))
    (fun a b => by simpa using Int.le_total a b) lits
  exact sorted.imp of_decide_eq_true

namespace Ledger

variable {σ : Type} [Backend σ]

theorem assertWhere_of_live {p : LedgerEntry → Bool} {entries : List LedgerEntry} (st : Store σ)
    (live : ∀ e ∈ entries, e.handle.isSome = true) : assertWhere p st entries = (entries, st) := by
  induction entries with
  | nil => rfl
  | cons e rest ih =>
    obtain ⟨handle, isHandle⟩ := Option.isSome_iff_exists.mp (live e List.mem_cons_self)
    have others := ih fun other member => live other (List.mem_cons_of_mem e member)
    simp only [assertWhere, assertEntry, isHandle, ite_self, others]

omit [Backend σ] in
theorem noting_clauses (l : Ledger) (clause : Clause) :
    l.clauses <+: (l.noting clause).map (·.clause) := by
  unfold noting
  split
  · exact List.prefix_refl _
  · rw [List.map_append]
    exact List.prefix_append _ _

omit [Backend σ] in
theorem noting_nodup {l : Ledger} {clause : Clause} (different : l.clauses.Nodup) :
    ((l.noting clause).map (·.clause)).Nodup := by
  unfold noting
  split
  · exact different
  · rename_i unknown
    rw [List.map_append]
    apply List.nodup_append.mpr
    refine ⟨different, List.nodup_singleton _, fun old member new isNew same => unknown ?_⟩
    rw [same, List.mem_singleton.mp isNew] at member
    exact List.contains_iff_mem.mpr member

end Ledger

namespace Session

variable {σ : Type} {held : σ → List Clause} {count : σ → Nat} {base : List Clause}
  {s t u : Session σ}

/-- The ledger accounts for the store: the live constraints are exactly the handles on record, each
guards the clause recorded with it, and the recorded clauses are sorted and pairwise different. -/
structure Accounts (held : σ → List Clause) (base : List Clause) (s : Session σ) : Prop where
  guarded : s.Guarded held base (liveOf s.ledger.entries)
  handles : s.store.selectors.toList.Perm (s.ledger.entries.filterMap (·.handle))
  fits : ∀ clause ∈ s.ledger.clauses, Mentions s.loaded.encoding.cnf.numVars clause
  sorted : ∀ clause ∈ s.ledger.clauses, clause.Pairwise (· ≤ ·)
  different : s.ledger.clauses.Nodup

/-- The later session has the encoding, the variables and the permanent clauses of the earlier one,
and its ledger goes on from the clauses recorded before. -/
structure Upholds (s t : Session σ) : Prop where
  encoding : t.loaded.encoding = s.loaded.encoding
  conserves : s.store.Conserves t.store
  recorded : s.ledger.clauses <+: t.ledger.clauses

theorem Upholds.refl (s : Session σ) : s.Upholds s := ⟨rfl, .refl s.store, List.prefix_refl _⟩

theorem Upholds.trans (first : s.Upholds t) (second : t.Upholds u) : s.Upholds u :=
  ⟨second.encoding.trans first.encoding, first.conserves.trans second.conserves,
    first.recorded.trans second.recorded⟩

theorem Maintains.upholds (maintains : Maintains count s t) : s.Upholds t :=
  ⟨maintains.encoding, maintains.conserves, maintains.ledger ▸ List.prefix_refl _⟩

theorem Guarded.handles (guarded : s.Guarded held base (liveOf s.ledger.entries))
    (distinct : ((liveOf s.ledger.entries).map Prod.fst).Nodup) :
    s.store.selectors.toList.Perm (s.ledger.entries.filterMap (·.handle)) := by
  rw [← map_liveOf]
  apply (List.perm_ext_iff_of_nodup _ distinct).mpr
  · exact guarded.guards.selectors
  · exact s.store.selectors.ascending.imp Nat.ne_of_lt

theorem Accounts.distinct (accounts : s.Accounts held base) :
    ((liveOf s.ledger.entries).map Prod.fst).Nodup := by
  rw [map_liveOf]
  apply accounts.handles.nodup_iff.mp
  exact s.store.selectors.ascending.imp Nat.ne_of_lt

theorem Accounts.controlled (accounts : s.Accounts held base) (control : Control) :
    Accounts held base { s with control } ∧ s.Upholds { s with control } := by
  obtain ⟨⟨guards, roots, primary, small⟩, handles, fits, sorted, different⟩ := accounts
  exact ⟨⟨⟨guards, roots, primary, small⟩, handles, fits, sorted, different⟩, rfl, .refl s.store,
    List.prefix_refl _⟩

theorem Accounts.of_maintains (accounts : s.Accounts held base) (maintains : Maintains count s t)
    (guarded : t.Guarded held base (liveOf s.ledger.entries)) : t.Accounts held base := by
  rw [← maintains.ledger] at guarded
  refine ⟨guarded, guarded.handles ?_, ?_, ?_, ?_⟩
  · rw [maintains.ledger]
    exact accounts.distinct
  · rw [maintains.ledger, maintains.encoding]
    exact accounts.fits
  · rw [maintains.ledger]
    exact accounts.sorted
  · rw [maintains.ledger]
    exact accounts.different

/-- The account is kept when entries with the clauses and the handles on record, and maybe a new
clause, are made live. -/
theorem Accounts.of_asserted [Backend σ] (accounts : s.Accounts held base)
    (encoding : t.loaded.encoding = s.loaded.encoding) {entries : List LedgerEntry}
    {chosen : LedgerEntry → Prop}
    (asserted : Ledger.Asserted held count base s.loaded.encoding.cnf.numVars [] chosen entries
      s.store (t.ledger.entries, t.store))
    (same : liveOf entries = liveOf s.ledger.entries)
    (fits : ∀ clause ∈ entries.map (·.clause), Mentions s.loaded.encoding.cnf.numVars clause)
    (sorted : ∀ clause ∈ entries.map (·.clause), clause.Pairwise (· ≤ ·))
    (different : (entries.map (·.clause)).Nodup) : t.Accounts held base := by
  have clauses : t.ledger.clauses = entries.map (·.clause) := asserted.clauses
  have numPrimary : t.numPrimary = s.numPrimary := by
    rw [Session.numPrimary, Loaded.numPrimary, encoding]
    rfl
  have guarded : t.Guarded held base (liveOf t.ledger.entries) := by
    refine ⟨encoding.symm ▸ asserted.guards, ?_, ?_, ?_⟩
    · rw [encoding]
      exact accounts.guarded.roots
    · rw [encoding, numPrimary]
      exact accounts.guarded.primary
    · rw [encoding]
      exact accounts.guarded.small
  refine ⟨guarded, guarded.handles (asserted.distinct ?_), ?_, ?_, ?_⟩
  · rw [List.nil_append, same]
    exact accounts.distinct
  · rw [clauses, encoding]
    exact fits
  · rw [clauses]
    exact sorted
  · rw [clauses]
    exact different

variable [Backend σ]

theorem ensureAsserted_accounts (faithful : Faithful σ held) (gauge : Gauge σ count)
    (accounts : s.Accounts held base) :
    s.ensureAsserted.Accounts held base ∧ s.Upholds s.ensureAsserted := by
  have asserted := ensureAsserted_asserted faithful gauge accounts.fits accounts.guarded
  have recorded : s.ensureAsserted.ledger.clauses = s.ledger.clauses := asserted.clauses
  constructor
  · exact accounts.of_asserted rfl asserted rfl accounts.fits accounts.sorted accounts.different
  · exact ⟨rfl, asserted.conserves, recorded ▸ List.prefix_refl _⟩

theorem excludeCone_accounts (faithful : Faithful σ held) (gauge : Gauge σ count)
    (accounts : s.Accounts held base) :
    s.excludeCone.Accounts held base ∧ s.Upholds s.excludeCone := by
  have asserted := excludeCone_asserted faithful gauge accounts.fits accounts.guarded
  have recorded : s.excludeCone.ledger.clauses =
      (s.ledger.noting (sortLiterals (Ledger.coneClause s.truePrimaries))).map (·.clause) :=
    asserted.clauses
  constructor
  · refine accounts.of_asserted rfl asserted (Ledger.liveOf_noting ..) ?_ ?_ ?_
    · intro clause member
      rcases Ledger.mem_noting.mp member with old | rfl
      · exact accounts.fits clause old
      · exact mentions_sortLiterals accounts.guarded.coneClause_mentions
    · intro clause member
      rcases Ledger.mem_noting.mp member with old | rfl
      · exact accounts.sorted clause old
      · exact sortLiterals_pairwise _
    · exact Ledger.noting_nodup accounts.different
  · exact ⟨rfl, asserted.conserves, recorded ▸ Ledger.noting_clauses ..⟩

theorem clear_accounts (faithful : Faithful σ held) (gauge : Gauge σ count)
    (accounts : s.Accounts held base) : s.clear.Accounts held base ∧ s.Upholds s.clear := by
  obtain ⟨continues, conserves, guarded, noLive, clauses⟩ :=
    clear_guarded faithful gauge accounts.guarded
  refine ⟨⟨noLive ▸ guarded, (noLive ▸ guarded :).handles ?_, ?_, ?_, ?_⟩,
    continues.encoding, conserves, clauses ▸ List.prefix_refl _⟩
  · rw [noLive]
    exact List.nodup_nil
  · rw [clauses]
    exact accounts.fits
  · rw [clauses]
    exact accounts.sorted
  · rw [clauses]
    exact accounts.different

inductive Operation where
  | abort (raised : Bool)
  | arm
  | solve (assumptions : List Int)
  | minimize (assumptions : List Int)
  | lifters (preserved : List Nat)
  | excludeCone
  | ensureAsserted
  | clear
deriving DecidableEq, Repr

def perform (s : Session σ) : Operation → Session σ
  | .abort aborted => { s with control := { s.control with aborted } }
  | .arm => s.arm
  | .solve assumptions => (s.solve assumptions).2
  | .minimize assumptions => (s.minimize assumptions).2
  | .lifters preserved => (s.lifters preserved).2
  | .excludeCone => s.excludeCone
  | .ensureAsserted => s.ensureAsserted
  | .clear => s.clear

def run (s : Session σ) : List Operation → Session σ
  | [] => s
  | operation :: rest => (s.perform operation).run rest

theorem perform_accounts (faithful : Faithful σ held) (gauge : Gauge σ count)
    (accounts : s.Accounts held base) (operation : Operation) :
    (s.perform operation).Accounts held base ∧ s.Upholds (s.perform operation) := by
  cases operation with
  | abort raised => exact accounts.controlled _
  | arm => exact accounts.controlled _
  | solve assumptions =>
    obtain ⟨maintains, guarded⟩ := solve_guarded faithful gauge accounts.guarded assumptions
    exact ⟨accounts.of_maintains maintains guarded, maintains.upholds⟩
  | minimize assumptions =>
    obtain ⟨maintains, guarded⟩ := minimize_guarded faithful gauge accounts.guarded assumptions
    exact ⟨accounts.of_maintains maintains guarded, maintains.upholds⟩
  | lifters preserved =>
    obtain ⟨cleared, upholds⟩ := clear_accounts faithful gauge accounts
    obtain ⟨-, -, -, noLive, -⟩ := clear_guarded faithful gauge accounts.guarded
    obtain ⟨maintains, guarded⟩ := lifters_guarded faithful gauge accounts.guarded preserved
    rw [← noLive] at guarded
    exact ⟨cleared.of_maintains maintains guarded, upholds.trans maintains.upholds⟩
  | excludeCone => exact excludeCone_accounts faithful gauge accounts
  | ensureAsserted => exact ensureAsserted_accounts faithful gauge accounts
  | clear => exact clear_accounts faithful gauge accounts

theorem run_accounts (faithful : Faithful σ held) (gauge : Gauge σ count)
    (accounts : s.Accounts held base) (operations : List Operation) :
    (s.run operations).Accounts held base ∧ s.Upholds (s.run operations) := by
  induction operations generalizing s with
  | nil => exact ⟨accounts, .refl s⟩
  | cons operation rest ih =>
    obtain ⟨between, upholds⟩ := perform_accounts faithful gauge accounts operation
    obtain ⟨final, further⟩ := ih between
    exact ⟨final, upholds.trans further⟩

theorem start_accounts (faithful : Faithful σ held) {solver : σ} (fresh : held solver = [])
    {f : Formula} {b : Bounds} {e : Encoding} (encodes : e.Encodes f b) (control : Control) :
    (Session.start (e.load solver) control).Accounts held (e.accepted solver) := by
  have guards := Encoding.load_guarded faithful fresh encodes.mentions
  have guarded : (Session.start (e.load solver) control).Guarded held (e.accepted solver) [] :=
    ⟨guards, encodes.roots, encodes.primary, encodes.small⟩
  refine ⟨guarded, guarded.handles List.nodup_nil, ?_, ?_, List.nodup_nil⟩
  · intro clause member
    cases member
  · intro clause member
    cases member

theorem ensureAsserted_of_live (live : ∀ e ∈ s.ledger.entries, e.handle.isSome = true) :
    s.ensureAsserted = s := by
  have same := Ledger.assertWhere_of_live (p := fun _ => true) s.store live
  unfold ensureAsserted onLedger Ledger.ensureAsserted
  rw [same]
  rfl

theorem ensureAsserted_live (faithful : Faithful σ held) {refusals : σ → Nat}
    (counts : Counts σ (fun _ => true) refusals) (accounts : s.Accounts held base)
    (unrefused : refusals s.ensureAsserted.store.backend = refusals s.store.backend) :
    (liveOf s.ensureAsserted.ledger.entries).map Prod.snd = s.ledger.clauses ∧
      s.ensureAsserted.ensureAsserted = s.ensureAsserted := by
  have asserted := ensureAsserted_asserted faithful counts.gauge accounts.fits accounts.guarded
  have live : ∀ e ∈ s.ensureAsserted.ledger.entries, e.handle.isSome = true := by
    rcases asserted.asserted with live | refused
    · exact fun e member => live e member trivial
    · have grown := counts.lt_of_refused refused
      exact absurd unrefused (Nat.ne_of_gt grown)
  exact ⟨(map_liveOf_of_live live).trans asserted.clauses, ensureAsserted_of_live live⟩

end Session

section

variable {σ : Type} [Backend σ] {held : σ → List Clause} {solver : σ} {f : Formula} {b : Bounds}
  {e : Encoding}

/-- No call of a session leaks or loses a constraint: after any calls on a loaded formula, whatever
clauses were refused and whatever searches failed, the ledger accounts for the store, the store has
the variables and the permanent clauses that it had when it was loaded, and no clause is ever dropped
from the ledger or moved. If no clause is refused, taking the ledger back and making it live again
makes exactly the recorded clauses live, and repeating that changes nothing. -/
theorem calls_conserve_constraints (faithful : Faithful σ held) (fresh : held solver = [])
    (built : b.Built) (sorted : f.WellSorted) (o : Options) (fits : f.Fits b o.sharing)
    (encoded : f.encode b o.sharing o.logged = .ok (.clauses e)) (control : Control)
    (operations : List Session.Operation) {s : Session σ}
    (reached : (Session.start (e.load solver) control).run operations = s) :
    s.Accounts held (e.accepted solver) ∧
      s.store.numVariables = (e.load solver).store.numVariables ∧
      s.store.numClauses = (e.load solver).store.numClauses ∧
      (∀ more, s.ledger.clauses <+: (s.run more).ledger.clauses) ∧
      ∀ refusals, Counts σ (fun _ => true) refusals →
        refusals s.clear.ensureAsserted.store.backend = refusals s.clear.store.backend →
        (liveOf s.clear.ensureAsserted.ledger.entries).map Prod.snd = s.ledger.clauses ∧
          s.clear.ensureAsserted.ensureAsserted = s.clear.ensureAsserted := by
  have encodes := Formula.encode_clauses built.regular sorted fits encoded
  obtain ⟨accounts, upholds⟩ := Session.run_accounts faithful .zero
    (Session.start_accounts faithful fresh encodes control) operations
  rw [reached] at accounts upholds
  refine ⟨accounts, upholds.conserves.numVariables, upholds.conserves.numClauses, fun more => ?_,
    fun refusals counts unrefused => ?_⟩
  · exact (Session.run_accounts faithful .zero accounts more).2.recorded
  · obtain ⟨cleared, -⟩ := Session.clear_accounts faithful .zero accounts
    obtain ⟨-, -, -, -, clauses⟩ := Session.clear_guarded faithful .zero accounts.guarded
    rw [← clauses]
    exact Session.ensureAsserted_live faithful counts cleared unrefused

end

/-- A solver that accepts the clause of the smallest problem, refuses the next two additions and the
sixth one, and is interrupted in the third search. -/
def Sample.flawed : Recording Faulty :=
  ⟨⟨⟨[]⟩, [false, true, true, false, false, true], [false, false, true]⟩, []⟩

/-- Calls that meet all the faults: the constraint of a minimization is refused and so is a recorded
cone, which becomes live later on; then a minimization is interrupted and cannot free its selector. -/
def Sample.calls : List Session.Operation :=
  [.solve [], .minimize [], .excludeCone, .lifters [], .ensureAsserted, .minimize []]

theorem sample_calls_conserve : ∃ s,
    (Session.start (Sample.encoding.load Sample.flawed) (.make false none)).run Sample.calls = s ∧
      s.Accounts (·.solver.solver.clauses) (Sample.encoding.accepted Sample.flawed) ∧
      s.ledger.entries = [⟨[-1], some 4⟩] ∧
      s.store.backend.refused = [[-5], [-1, -3], [-1, -2]] ∧
      (liveOf s.clear.ensureAsserted.ledger.entries).map Prod.snd = s.ledger.clauses ∧
      s.clear.ensureAsserted.ensureAsserted = s.clear.ensureAsserted := by
  have fresh : Exhaustive.clauses (Faulty.solver (Recording.solver Sample.flawed)) = [] := rfl
  obtain ⟨accounts, -, -, -, restored⟩ := calls_conserve_constraints
    (Recording.faithful Faulty.faithful) fresh Sample.built Sample.sorted .standard
    (Sample.fits true) (Sample.encoded_eq true) (.make false none) Sample.calls rfl
  have again := restored _ (Recording.counts fun _ => true) (by decide +kernel)
  exact ⟨_, rfl, accounts, by decide +kernel, by decide +kernel, again⟩

end ModelFinder
