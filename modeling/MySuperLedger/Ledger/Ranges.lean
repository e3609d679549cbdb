import MySuperLedger.Ledger.Requests
import MySuperLedger.Transition.System

/-! # Ranges of nominal codes

Each account type may be given a range of nominal codes. A new range is tested
against the stored ranges of the other types by their end points, and against
the accounts of its own type that exist. Both tests are made when a range is
configured, and neither when an account is created: the ranges stay disjoint,
but an account created after its range need not lie in it.
-/

namespace MySuperLedger.Ledger

open Collections Transition Option KeyedMap

/-- A command with the clock reading and the RocksDB snapshot of its turn. -/
structure Turn where
  now : UInt64
  snapshot : DoneMap
  command : Command

def AppState.step (s : AppState) (turn : Turn) : Option AppState :=
  (processCommandAndApply turn.now turn.snapshot s turn.command).map fun (_, _, s) => s

/-- Runs of `processCommandAndApply` from the empty state over commands that
`admits` lets through. -/
def machine (admits : Command → Prop) : System AppState :=
  System.ofGuardedStep {} (fun _ (turn : Turn) => admits turn.command) AppState.step

variable {s after : AppState} {turn : Turn} {account : Account}

theorem AppState.step_cases (h : s.step turn = some after) : after = s ∨
      ∃ payload, Emitted turn.snapshot s turn.command payload ∧ Applied s after payload := by
  obtain ⟨⟨hi, events, next⟩, hs, rfl⟩ := map_eq_some_iff.mp h
  rcases processCommandAndApply_inv hs with ⟨-, rfl⟩ | ⟨payload, callbacks, -, he, ha⟩
  · exact .inl rfl
  · exact .inr ⟨payload, he, applyEvent_inv ha⟩

/-- `[lowInclusive, highInclusive]`. -/
def AccountMetadata.Covers (accountMetadata : AccountMetadata) (nominalCode : UInt64) : Prop :=
  accountMetadata.lowInclusive ≤ nominalCode ∧ nominalCode ≤ accountMetadata.highInclusive

/-- What `verifyCommand` lets through of a range. -/
def Command.RangeIsVerified : Command → Prop
  | .configureAccountMetadata (some accountMetadata) =>
    accountMetadata.lowInclusive < accountMetadata.highInclusive
  | _ => True

instance (command : Command) : Decidable command.RangeIsVerified := by
  unfold Command.RangeIsVerified
  split <;> infer_instance

/-- No stored range is empty, and those of different types have no code in common. -/
structure RangesInv (metadatas : AccountMetadataMap) : Prop where
  proper : ∀ {type metadata}, metadatas.find? type = some metadata →
    metadata.lowInclusive < metadata.highInclusive
  disjoint : ∀ {left right metadata other}, left ≠ right →
    metadatas.find? left = some metadata → metadatas.find? right = some other →
    ∀ nominalCode, ¬ (metadata.Covers nominalCode ∧ other.Covers nominalCode)

theorem not_covers_of_endPoints {metadata other : AccountMetadata}
    (h : metadata.lowInclusive > other.highInclusive ∨
      metadata.highInclusive < other.lowInclusive) (nominalCode : UInt64) :
    ¬ (metadata.Covers nominalCode ∧ other.Covers nominalCode) := by
  simp only [AccountMetadata.Covers, gt_iff_lt, UInt64.lt_iff_toNat_lt, UInt64.le_iff_toNat_le] at *
  omega

theorem RangesInv.put {metadatas : AccountMetadataMap} {accountMetadata : AccountMetadata}
    (hi : RangesInv metadatas) (hver : accountMetadata.lowInclusive < accountMetadata.highInclusive)
    (hfree : rangeIsFree metadatas accountMetadata) :
    RangesInv (metadatas.put accountMetadata) := by
  -- the new range against a stored one
  have hnew : ∀ {type metadata}, accountMetadata.accountType ≠ type →
      metadatas.find? type = some metadata → ∀ nominalCode,
        ¬ (accountMetadata.Covers nominalCode ∧ metadata.Covers nominalCode) := by
    intro type metadata hne hfind
    rcases hfree type (mem_keys.mpr ⟨metadata, hfind⟩) metadata hfind with heq | hends
    · exact absurd heq hne
    · exact not_covers_of_endPoints hends
  constructor
  · intro type metadata hfind
    rw [find?_put] at hfind
    split at hfind
    · cases hfind
      exact hver
    · exact hi.proper hfind
  · intro left right metadata other hne hleft hrt
    rw [find?_put] at hleft hrt
    split at hleft <;> split at hrt
    · exact absurd (‹left = _›.trans ‹right = _›.symm) hne
    · cases hleft
      exact hnew (Ne.symm ‹right ≠ _›) hrt
    · cases hrt
      intro nominalCode hboth
      exact hnew (Ne.symm ‹left ≠ _›) hleft nominalCode hboth.symm
    · exact hi.disjoint hne hleft hrt

theorem RangesInv.step (hi : RangesInv s.accountMetadata) (hv : turn.command.RangeIsVerified)
    (h : s.step turn = some after) : RangesInv after.accountMetadata := by
  rcases AppState.step_cases h with rfl | ⟨payload, he, ha⟩
  · exact hi
  · cases payload with
    | accountCreated account =>
      obtain ⟨-, rfl⟩ := ha
      exact hi
    | accountMetadataConfigured accountMetadata =>
      obtain ⟨hc, hf, -⟩ := he
      obtain rfl : after = _ := ha
      rw [hc] at hv
      exact hi.put hv hf
    | journalEntryRecorded journalEntry =>
      obtain ⟨-, coA, callbacks, -, rfl⟩ := ha
      exact hi

/-- The ranges stay apart in every state that verified commands lead to. -/
theorem ranges_disjoint {s : AppState} (hs : (machine Command.RangeIsVerified).Reachable s) :
    RangesInv s.accountMetadata := by
  refine hs.invariant (fun s => RangesInv s.accountMetadata) ?_ ?_
  · rintro s rfl
    constructor <;> simp
  · rintro s after hi ⟨turn, hv, hstep⟩
    exact hi.step hv hstep

/-- The asset range is configured, widened, and joined by an income range that
touches it. -/
def rangeTurns : List Turn :=
  [⟨0, ∅, .configureAccountMetadata (some ⟨1, .asset, 10, 2000⟩)⟩,
   ⟨0, ∅, .configureAccountMetadata (some ⟨1, .asset, 5, 2999⟩)⟩,
   ⟨0, ∅, .configureAccountMetadata (some ⟨1, .income, 3000, 4000⟩)⟩]

theorem ranges_disjoint_rangeTurns :
    ∃ s, (machine Command.RangeIsVerified).Reachable s ∧ s.accountMetadata.keys.card = 2 ∧
      RangesInv s.accountMetadata := by
  obtain ⟨s, he, hc⟩ : ∃ s, System.exec (System.guardStep
      (fun _ (turn : Turn) => turn.command.RangeIsVerified) AppState.step) {} rangeTurns = some s ∧
      s.accountMetadata.keys.card = 2 := ⟨_, rfl, by decide⟩
  have hr : (machine Command.RangeIsVerified).Reachable s :=
    ⟨{}, rfl, System.guarded_runs_of_exec he⟩
  exact ⟨s, hr, hc, ranges_disjoint hr⟩

def AccountsInRange (s : AppState) : Prop :=
  ∀ nominalCode account metadata, s.coA.find? nominalCode = some account →
    s.accountMetadata.find? account.type = some metadata → metadata.Covers nominalCode

/-- A new account lies in the range of its type, if there is one. -/
def CreatesInRange (s : AppState) : Command → Prop
  | .createAccount (some account) =>
    s.coA.find? account.nominalCode = none → ∀ metadata,
      s.accountMetadata.find? account.type = some metadata → metadata.Covers account.nominalCode
  | _ => True

theorem AccountsInRange.put_account (hi : AccountsInRange s)
    (hn : s.coA.find? account.nominalCode = none) :
    AccountsInRange { s with coA := s.coA.put account } ↔
      CreatesInRange s (.createAccount (some account)) := by
  constructor
  · intro ha _ metadata hm
    exact ha _ account metadata (find?_put_self s.coA account) hm
  · intro hc nominalCode found metadata hf hm
    rw [find?_put] at hf
    split at hf
    · rename_i heq
      cases hf
      rw [heq]
      exact hc hn metadata hm
    · exact hi nominalCode found metadata hf hm

theorem AccountsInRange.put_metadata {accountMetadata : AccountMetadata} (hi : AccountsInRange s)
    (hc : rangeCovers s.coA accountMetadata) :
    AccountsInRange { s with accountMetadata := s.accountMetadata.put accountMetadata } := by
  intro nominalCode account metadata hf hm
  rw [find?_put] at hm
  split at hm
  · rename_i ht
    cases hm
    have he := hc nominalCode (mem_keys.mpr ⟨account, hf⟩) account hf
    rcases he with hne | he
    · exact absurd ht.symm hne
    · rw [not_or] at he
      exact ⟨UInt64.not_lt.mp he.1, UInt64.not_lt.mp he.2⟩
  · exact hi nominalCode account metadata hf hm

theorem applyJournalLines_type {coA after : ChartOfAccounts} {journalLines : List JournalLine}
    {callbacks : List Callback} (h : applyJournalLines coA journalLines = some (after, callbacks))
    {nominalCode : UInt64} (hf : after.find? nominalCode = some account) :
    ∃ before, coA.find? nominalCode = some before ∧ before.type = account.type := by
  induction journalLines generalizing coA callbacks with
  | nil =>
    obtain ⟨rfl, -⟩ := Prod.mk.inj (some.inj h)
    exact ⟨account, hf, rfl⟩
  | cons line lines ih =>
    obtain ⟨moved, later, hl, hr⟩ := applyJournalLines_cons h
    obtain ⟨old, ho, -, hm⟩ := applyJournalLine_spec hl
    obtain ⟨before, hp, ht⟩ := ih hr
    rw [find?_put] at hp
    split at hp
    · rename_i hc
      cases hp
      have hk := key_of_find? ho
      rw [hm.nominalCode_eq, hk] at hc
      exact ⟨old, hc ▸ ho, hm.type_eq.symm.trans ht⟩
    · exact ⟨before, hp, ht⟩

theorem AppState.step_createAccount (hc : turn.command = .createAccount (some account))
    (hn : s.coA.find? account.nominalCode = none) :
    s.step turn = some { s with coA := s.coA.put account } := by
  simp [step, hc, processCommandAndApply, processCommand, processCreateAccount, hn,
    applyEvents, applyEvent, Event.ofPayload, applyAccountCreated]

/-- A turn that ends the process or leaves the state as it is creates no account. -/
theorem CreatesInRange.of_unchanged (h : ∀ after, s.step turn = some after → after = s) :
    CreatesInRange s turn.command := by
  cases hc : turn.command with
  | configureAccountMetadata accountMetadataOpt | recordJournalEntry journalEntryOpt => trivial
  | createAccount accountOpt =>
    cases accountOpt with
    | none => trivial
    | some account =>
      intro hn
      have hs := congrArg AppState.coA (h _ (AppState.step_createAccount hc hn))
      have hp : s.coA.put account = s.coA := hs
      have hf := find?_put_self s.coA account
      rw [hp, hn] at hf
      cases hf

/-- One turn keeps the accounts in range exactly if it creates none outside. -/
theorem AccountsInRange.step_iff (hi : AccountsInRange s) (h : s.step turn = some after) :
    AccountsInRange after ↔ CreatesInRange s turn.command := by
  rcases AppState.step_cases h with rfl | ⟨payload, he, ha⟩
  · refine iff_of_true hi (CreatesInRange.of_unchanged fun next hn => ?_)
    exact some.inj (hn.symm.trans h)
  · cases payload with
    | accountCreated account =>
      obtain ⟨hc, hnew⟩ := he
      obtain ⟨-, rfl⟩ := ha
      rw [hc]
      exact hi.put_account hnew
    | accountMetadataConfigured accountMetadata =>
      obtain ⟨hc, -, hcov⟩ := he
      obtain rfl : after = _ := ha
      rw [hc]
      exact iff_of_true (hi.put_metadata hcov) trivial
    | journalEntryRecorded journalEntry =>
      obtain ⟨hc, -⟩ := he
      obtain ⟨-, coA, callbacks, hl, rfl⟩ := ha
      rw [hc]
      refine iff_of_true ?_ trivial
      intro nominalCode account metadata hf hm
      obtain ⟨before, hp, ht⟩ := applyJournalLines_type hl hf
      exact hi nominalCode before metadata hp (ht ▸ hm)

/-- `P` holds in every state that a run over `turns` passes through. -/
def AtEachState (P : AppState → Prop) (s : AppState) : List Turn → Prop
  | [] => P s
  | turn :: turns => P s ∧ ∀ after, s.step turn = some after → AtEachState P after turns

/-- Every account the run creates lies in the range its type has at that time. -/
def RunCreatesInRange (s : AppState) : List Turn → Prop
  | [] => True
  | turn :: turns =>
    CreatesInRange s turn.command ∧
      ∀ after, s.step turn = some after → RunCreatesInRange after turns

theorem AtEachState.head {P : AppState → Prop} {turns : List Turn} (h : AtEachState P s turns) :
    P s := by
  cases turns with
  | nil => exact h
  | cons turn turns => exact h.1

theorem AccountsInRange.run_iff (hi : AccountsInRange s) (turns : List Turn) :
    AtEachState AccountsInRange s turns ↔ RunCreatesInRange s turns := by
  induction turns generalizing s with
  | nil => exact iff_of_true hi trivial
  | cons turn turns ih =>
    constructor
    · rintro ⟨-, hr⟩
      cases hs : s.step turn with
      | none =>
        have hn : ∀ {after : AppState}, s.step turn ≠ some after := by simp [hs]
        exact ⟨CreatesInRange.of_unchanged fun after h => absurd h hn, fun after h => absurd h hn⟩
      | some after =>
        have hc := (hi.step_iff hs).mp (hr after hs).head
        refine ⟨hc, fun next hnext => ?_⟩
        exact (ih ((hi.step_iff hnext).mpr hc)).mp (hr next hnext)
    · rintro ⟨hc, hr⟩
      refine ⟨hi, fun after hs => ?_⟩
      exact (ih ((hi.step_iff hs).mpr hc)).mpr (hr after hs)

/-- Nothing but the creation of an account takes one out of its range. -/
theorem accountsInRange_iff_runCreatesInRange (turns : List Turn) :
    AtEachState AccountsInRange {} turns ↔ RunCreatesInRange {} turns := by
  refine AccountsInRange.run_iff ?_ turns
  intro nominalCode account metadata hf
  simp at hf

/-- The assets are given the codes 10 to 2000, and an asset account 5000 is
created all the same. -/
def strayTurns : List Turn :=
  [⟨0, ∅, .configureAccountMetadata (some ⟨1, .asset, 10, 2000⟩)⟩,
   ⟨0, ∅, .createAccount (some ⟨1, .asset, 5000, "cash", "", 840, {}⟩)⟩]

theorem not_accountsInRange_strayTurns : ¬ AtEachState AccountsInRange {} strayTurns := by
  rintro ⟨-, hr⟩
  obtain ⟨-, hr⟩ := hr _ rfl
  have hs := hr _ rfl 5000 ⟨1, .asset, 5000, "cash", "", 840, {}⟩ ⟨1, .asset, 10, 2000⟩
    (by decide) (by decide)
  exact absurd hs.2 (by decide)

end MySuperLedger.Ledger
