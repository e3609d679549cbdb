import MySuperLedger.Ledger.StateMachine
import Mathlib.Data.Nat.ModEq

/-! # Which journal entries are recorded

The five rules of double entry, stated over natural numbers, against the check
of `process(RecordJournalEntryCommand)`, which counts in 32 bits and sums in 64.
The check and the rules agree except on entries whose sums or whose numbers of
lines wrap, and those are named exactly.
-/

namespace MySuperLedger.Ledger

open Collections List UInt64 BusinessCode LineTotals

def linesOf (type : TransactionType) (journalLines : List JournalLine) : List JournalLine :=
  journalLines.filter fun journalLine => journalLine.type = type

def sumOf (type : TransactionType) (journalLines : List JournalLine) : Nat :=
  ((linesOf type journalLines).map fun journalLine => journalLine.amount.value.toNat).sum

/-- The line names an account of its currency and is a debit or a credit. -/
def LineIsValid (coA : ChartOfAccounts) (journalLine : JournalLine) : Prop :=
  (∃ account ∈ coA.find? journalLine.nominalCode,
    account.iso4217CurrencyCode = journalLine.iso4217CurrencyCode) ∧
    (journalLine.type = .debit ∨ journalLine.type = .credit)

instance (coA : ChartOfAccounts) (journalLine : JournalLine) :
    Decidable (LineIsValid coA journalLine) :=
  inferInstanceAs (Decidable (_ ∧ _))

/-- Rules 1 to 3: a new id, and every line valid. -/
def IsAdmissible (snapshot : DoneMap) (s : AppState) (journalEntry : JournalEntry) : Prop :=
  (journalEntry.id ∉ s.doneMap ∧ journalEntry.id ∉ snapshot) ∧
    ∀ journalLine ∈ journalEntry.journalLines, LineIsValid s.coA journalLine

/-- Rules 4 and 5: both sides are there and their true sums agree. -/
def IsBalanced (journalLines : List JournalLine) : Prop :=
  linesOf .debit journalLines ≠ [] ∧ linesOf .credit journalLines ≠ [] ∧
    sumOf .debit journalLines = sumOf .credit journalLines

/-- What double entry asks of a journal entry. -/
def ShouldRecord (snapshot : DoneMap) (s : AppState) (journalEntry : JournalEntry) : Prop :=
  IsAdmissible snapshot s journalEntry ∧ IsBalanced journalEntry.journalLines

/-- The check records `journalEntry` if it should be recorded, and otherwise
emits nothing and answers with a code other than OK. -/
def AcceptanceIsExact (now : UInt64) (snapshot : DoneMap) (s : AppState)
    (journalEntry : JournalEntry) : Prop :=
  (ShouldRecord snapshot s journalEntry →
    ∃ hint, processCommand now snapshot s (.recordJournalEntry (some journalEntry)) =
      some (hint, [.ofPayload now (.journalEntryRecorded journalEntry)])) ∧
  (¬ ShouldRecord snapshot s journalEntry →
    ∃ hint, processCommand now snapshot s (.recordJournalEntry (some journalEntry)) =
      some (hint, []) ∧ hint.code ≠ HttpCode.ok)

/-- Rules 4 and 5 as the accumulators see them. -/
def LooksBalanced (journalLines : List JournalLine) : Prop :=
  ¬ 2 ^ 32 ∣ (linesOf .debit journalLines).length ∧
    ¬ 2 ^ 32 ∣ (linesOf .credit journalLines).length ∧
    sumOf .debit journalLines ≡ sumOf .credit journalLines [MOD 2 ^ 64]

def LineTotals.addLines (totals : LineTotals) (journalLines : List JournalLine) : LineTotals where
  debitCnt := totals.debitCnt + UInt32.ofNat (linesOf .debit journalLines).length
  creditCnt := totals.creditCnt + UInt32.ofNat (linesOf .credit journalLines).length
  debitSum := ⟨1, totals.debitSum.value + UInt64.ofNat (sumOf .debit journalLines)⟩
  creditSum := ⟨1, totals.creditSum.value + UInt64.ofNat (sumOf .credit journalLines)⟩

def LineTotals.IsV1 (totals : LineTotals) : Prop := totals.debitSum.IsV1 ∧ totals.creditSum.IsV1

theorem LineTotals.isV1_empty : LineTotals.IsV1 {} := ⟨rfl, rfl⟩

variable {totals : LineTotals} {coA : ChartOfAccounts}

theorem LineTotals.addLines_nil (ht : totals.IsV1) : totals.addLines [] = totals := by
  obtain ⟨debitCnt, creditCnt, ⟨debitVersion, debitValue⟩, ⟨creditVersion, creditValue⟩⟩ := totals
  obtain ⟨hd, hc⟩ := ht
  obtain rfl : debitVersion = 1 := hd
  obtain rfl : creditVersion = 1 := hc
  simp [addLines, linesOf, sumOf]

theorem Amount.add_of_isV1 {left right : Amount} (hl : left.IsV1) (hr : right.IsV1) :
    left.add right = some ⟨1, left.value + right.value⟩ := by
  obtain ⟨leftVersion, leftValue⟩ := left
  obtain rfl : leftVersion = 1 := hl
  have hv : right.version = 1 := hr
  simp [add, hv]

variable {journalLine : JournalLine} {journalLines : List JournalLine}

/-- Counting a line never fails on version 1, and `addLines` counts it first. -/
theorem LineTotals.count_spec (ht : totals.IsV1) (hv : journalLine.IsV1)
    (htype : journalLine.type ≠ .unknown) :
    ∃ counted, totals.count journalLine = some counted ∧ counted.IsV1 ∧
      ∀ journalLines, totals.addLines (journalLine :: journalLines) =
        counted.addLines journalLines := by
  cases hs : journalLine.type with
  | unknown => exact absurd hs htype
  | debit =>
    refine ⟨{ totals with
      debitCnt := totals.debitCnt + 1
      debitSum := ⟨1, totals.debitSum.value + journalLine.amount.value⟩ }, ?_, ⟨rfl, ht.2⟩, ?_⟩
    · simp [count, hs, Amount.add_of_isV1 ht.1 hv.2]
    · intro journalLines
      simp [addLines, linesOf, sumOf, hs, UInt32.ofNat_add, ofNat_add,
        UInt64.add_assoc, UInt32.add_assoc, UInt32.add_comm 1]
  | credit =>
    refine ⟨{ totals with
      creditCnt := totals.creditCnt + 1
      creditSum := ⟨1, totals.creditSum.value + journalLine.amount.value⟩ }, ?_, ⟨ht.1, rfl⟩, ?_⟩
    · simp [count, hs, Amount.add_of_isV1 ht.2 hv.2]
    · intro journalLines
      simp [addLines, linesOf, sumOf, hs, UInt32.ofNat_add, ofNat_add,
        UInt64.add_assoc, UInt32.add_assoc, UInt32.add_comm 1]

theorem LineIsValid.type_ne (hv : LineIsValid coA journalLine) : journalLine.type ≠ .unknown := by
  rcases hv.2 with ht | ht <;> simp [ht]

theorem checkJournalLines_of_valid (ht : totals.IsV1) (hv : ∀ line ∈ journalLines, line.IsV1)
    (hval : ∀ line ∈ journalLines, LineIsValid coA line) :
    checkJournalLines coA totals journalLines = some (.ok (totals.addLines journalLines)) := by
  induction journalLines generalizing totals with
  | nil => rw [addLines_nil ht]; rfl
  | cons line lines ih =>
    obtain ⟨hl, hlin⟩ := forall_mem_cons.mp hv
    obtain ⟨hfst, hr⟩ := forall_mem_cons.mp hval
    obtain ⟨counted, hcnt, hc, ha⟩ := count_spec ht hl hfst.type_ne
    obtain ⟨account, hf, hcur⟩ := hfst.1
    have hf : coA.find? line.nominalCode = some account := hf
    rw [ha, ← ih hc hlin hr]
    simp [checkJournalLines, hf, hcur, hfst.type_ne, hcnt]

/-- An invalid line ends the loop with an error, whatever was summed before it. -/
theorem checkJournalLines_of_not_valid (ht : totals.IsV1) (hv : ∀ line ∈ journalLines, line.IsV1)
    (hval : ¬ ∀ line ∈ journalLines, LineIsValid coA line) :
    ∃ hi, checkJournalLines coA totals journalLines = some (.error hi) ∧
      hi.code ≠ HttpCode.ok := by
  induction journalLines generalizing totals with
  | nil => exact absurd (by simp) hval
  | cons line lines ih =>
    obtain ⟨hl, hlin⟩ := forall_mem_cons.mp hv
    cases hf : coA.find? line.nominalCode with
    | none => simp [checkJournalLines, hf, accountInJournalEntryNotExist, HttpCode.ok]
    | some account =>
      by_cases hc : account.iso4217CurrencyCode = line.iso4217CurrencyCode
      · by_cases htype : line.type = .unknown
        · simp [checkJournalLines, hf, hc, htype, invalidTransactionType, HttpCode.ok]
        · have hfst : LineIsValid coA line := by
            refine ⟨⟨account, hf, hc⟩, ?_⟩
            cases hs : line.type <;> simp_all
          have hr : ¬ ∀ line ∈ lines, LineIsValid coA line := fun hr =>
            hval (forall_mem_cons.mpr ⟨hfst, hr⟩)
          obtain ⟨counted, hcnt, hcoun, -⟩ := count_spec ht hl htype
          simpa [checkJournalLines, hf, hc, htype, hcnt] using ih hcoun hlin hr
      · simp [checkJournalLines, hf, hc, journalLineIsoCurrencyCodeDoesNotMatchAccount, HttpCode.ok]

theorem ofNat_eq_zero_iff (n : Nat) : UInt32.ofNat n = 0 ↔ 2 ^ 32 ∣ n := by
  rw [← UInt32.toNat_inj, UInt32.toNat_ofNat', Nat.dvd_iff_mod_eq_zero]
  rfl

theorem ofNat_eq_ofNat_iff (m n : Nat) : UInt64.ofNat m = UInt64.ofNat n ↔ m ≡ n [MOD 2 ^ 64] := by
  rw [← UInt64.toNat_inj, UInt64.toNat_ofNat', UInt64.toNat_ofNat', Nat.ModEq]

theorem checkTotals_addLines (journalLines : List JournalLine) :
    (LooksBalanced journalLines ∧ checkTotals (addLines {} journalLines) = .ok ()) ∨
      (¬ LooksBalanced journalLines ∧
        ∃ hi, checkTotals (addLines {} journalLines) = .error hi ∧
          hi.code ≠ HttpCode.ok) := by
  simp only [LooksBalanced, ← ofNat_eq_zero_iff, ← ofNat_eq_ofNat_iff, checkTotals,
    addLines, UInt32.zero_add, UInt64.zero_add]
  by_cases hdr : UInt32.ofNat (linesOf .debit journalLines).length = 0
  · simp [hdr, noDebitInJournalEntry, HttpCode.ok]
  · by_cases hcr : UInt32.ofNat (linesOf .credit journalLines).length = 0
    · simp [hdr, hcr, noCreditInJournalEntry, HttpCode.ok]
    · by_cases hs : UInt64.ofNat (sumOf .debit journalLines) =
        UInt64.ofNat (sumOf .credit journalLines)
      · simp [hdr, hcr, hs]
      · simp [hdr, hcr, hs, creditNotEqualToDebit, HttpCode.ok]

theorem isDone_eq_false_iff (snapshot : DoneMap) (s : AppState) (entryId : String) :
    isDone snapshot s entryId = false ↔ entryId ∉ s.doneMap ∧ entryId ∉ snapshot := by
  simp [isDone, Finmap.lookup_eq_none]

/-- What the check lets through. -/
def Accepts (snapshot : DoneMap) (s : AppState) (journalEntry : JournalEntry) : Prop :=
  IsAdmissible snapshot s journalEntry ∧ LooksBalanced journalEntry.journalLines

section

variable {snapshot : DoneMap} {s : AppState} {journalEntry : JournalEntry}

theorem processCommand_of_accepts (now : UInt64) (hv : journalEntry.IsV1)
    (ha : Accepts snapshot s journalEntry) :
    processCommand now snapshot s (.recordJournalEntry (some journalEntry)) =
      some (successHint, [.ofPayload now (.journalEntryRecorded journalEntry)]) := by
  obtain ⟨⟨hn, hval⟩, hl⟩ := ha
  have hd := (isDone_eq_false_iff ..).mpr hn
  have hc := checkJournalLines_of_valid isV1_empty hv.2 hval
  rcases checkTotals_addLines journalEntry.journalLines with ⟨-, ht⟩ | ⟨hnot, -⟩
  · simp [processCommand, processRecordJournalEntry, hd, hc, ht]
  · exact absurd hl hnot

theorem processCommand_of_not_accepts (now : UInt64) (hv : journalEntry.IsV1)
    (ha : ¬ Accepts snapshot s journalEntry) :
    ∃ hi, processCommand now snapshot s (.recordJournalEntry (some journalEntry)) =
      some (hi, []) ∧ hi.code ≠ HttpCode.ok := by
  by_cases hd : isDone snapshot s journalEntry.id
  · simp [processCommand, processRecordJournalEntry, hd, journalEntryAlreadyProcessed, HttpCode.ok]
  · have hn := (isDone_eq_false_iff ..).mp (Bool.eq_false_iff.mpr hd)
    by_cases hval : ∀ line ∈ journalEntry.journalLines, LineIsValid s.coA line
    · have hchk := checkJournalLines_of_valid isV1_empty hv.2 hval
      rcases checkTotals_addLines journalEntry.journalLines with ⟨hl, -⟩ | ⟨-, hi, hh, hc⟩
      · exact absurd ⟨⟨hn, hval⟩, hl⟩ ha
      · exact ⟨hi, by simp [processCommand, processRecordJournalEntry, hd, hchk, hh], hc⟩
    · obtain ⟨hi, hchk, hc⟩ :=
        checkJournalLines_of_not_valid isV1_empty hv.2 hval
      exact ⟨hi, by simp [processCommand, processRecordJournalEntry, hd, hchk], hc⟩

/-- The two sums differ by a multiple of `2 ^ 64` and no count hides it. -/
def SumsWrap (journalLines : List JournalLine) : Prop :=
  sumOf .debit journalLines ≠ sumOf .credit journalLines ∧ LooksBalanced journalLines

/-- A balanced entry with a multiple of `2 ^ 32` lines on one side. -/
def CountsWrap (journalLines : List JournalLine) : Prop :=
  IsBalanced journalLines ∧ (2 ^ 32 ∣ (linesOf .debit journalLines).length ∨
      2 ^ 32 ∣ (linesOf .credit journalLines).length)

theorem not_wrap_iff (journalLines : List JournalLine) :
    ¬ (SumsWrap journalLines ∨ CountsWrap journalLines) ↔
      (LooksBalanced journalLines ↔ IsBalanced journalLines) := by
  have hn : ∀ lines : List JournalLine, ¬ 2 ^ 32 ∣ lines.length → lines ≠ [] := by
    rintro lines hd rfl
    exact hd (Nat.dvd_zero _)
  constructor
  · intro hw
    constructor
    · intro hl
      obtain ⟨hdr, hcr, -⟩ := id hl
      refine ⟨hn _ hdr, hn _ hcr, ?_⟩
      by_contra hs
      exact hw (.inl ⟨hs, hl⟩)
    · intro hb
      obtain ⟨-, -, hs⟩ := id hb
      refine ⟨fun h => hw (.inr ⟨hb, .inl h⟩), fun h => hw (.inr ⟨hb, .inr h⟩), ?_⟩
      rw [hs]
  · rintro hi (⟨hs, hl⟩ | ⟨hb, hd⟩)
    · exact hs (hi.mp hl).2.2
    · obtain ⟨hdr, hcr, -⟩ := hi.mpr hb
      exact hd.elim hdr hcr

/-- Among admissible entries the check errs exactly where a sum or a counter wraps. -/
theorem acceptanceIsExact_iff_not_wrap (now : UInt64) (snapshot : DoneMap) (s : AppState)
    (journalEntry : JournalEntry) (hv : journalEntry.IsV1) :
    AcceptanceIsExact now snapshot s journalEntry ↔ (IsAdmissible snapshot s journalEntry →
        ¬ (SumsWrap journalEntry.journalLines ∨ CountsWrap journalEntry.journalLines)) := by
  rw [not_wrap_iff]
  have hi : (IsAdmissible snapshot s journalEntry →
      (LooksBalanced journalEntry.journalLines ↔ IsBalanced journalEntry.journalLines)) ↔
      (Accepts snapshot s journalEntry ↔ ShouldRecord snapshot s journalEntry) := by
    rw [Accepts, ShouldRecord, and_congr_right_iff]
  rw [hi]
  by_cases ha : Accepts snapshot s journalEntry
  · have hp := processCommand_of_accepts now hv ha
    simp [AcceptanceIsExact, hp, ha]
  · obtain ⟨hint, hp, hc⟩ := processCommand_of_not_accepts now hv ha
    simp [AcceptanceIsExact, hp, ha, hc]

end

/-- An asset and an income account in one currency, both created empty. -/
def twoAccounts : AppState where
  coA := (KeyedMap.empty.put ⟨1, .asset, 1001, "cash", "", 840, {}⟩).put
    ⟨1, .income, 2001, "sales", "", 840, {}⟩

def entryOf (journalLines : List JournalLine) : JournalEntry :=
  { version := 1, id := "entry-1", journalLines := journalLines }

def debitLine (nominalCode value : UInt64) : JournalLine :=
  ⟨1, nominalCode, .debit, ⟨1, value⟩, 840, ""⟩

def creditLine (nominalCode value : UInt64) : JournalLine :=
  ⟨1, nominalCode, .credit, ⟨1, value⟩, 840, ""⟩

theorem acceptanceIsExact_small_entry : (entryOf [debitLine 1001 50, creditLine 2001 50]).IsV1 ∧
      AcceptanceIsExact 0 ∅ twoAccounts (entryOf [debitLine 1001 50, creditLine 2001 50]) := by
  refine ⟨by decide, (acceptanceIsExact_iff_not_wrap 0 ∅ twoAccounts
    (entryOf [debitLine 1001 50, creditLine 2001 50]) (by decide)).mpr ?_⟩
  rintro - (⟨hs, -⟩ | ⟨-, hc⟩)
  · exact hs (by decide)
  · exact absurd hc (by decide)

/-- Two debits of `2 ^ 63` against a credit of 0: the debits wrap to 0. -/
def wrappedDebits : JournalEntry :=
  entryOf [debitLine 1001 0x8000000000000000, debitLine 1001 0x8000000000000000, creditLine 2001 0]

theorem not_acceptanceIsExact_wrappedDebits :
    wrappedDebits.IsV1 ∧ ¬ AcceptanceIsExact 0 ∅ twoAccounts wrappedDebits := by
  refine ⟨by decide, fun he => ?_⟩
  have hsum : sumOf .debit wrappedDebits.journalLines ≠
      sumOf .credit wrappedDebits.journalLines := by
    decide +kernel
  have hr : processCommand 0 ∅ twoAccounts (.recordJournalEntry (some wrappedDebits)) =
      some (successHint, [.ofPayload 0 (.journalEntryRecorded wrappedDebits)]) := by
    decide +kernel
  obtain ⟨hi, hp, -⟩ := he.2 fun hs => hsum hs.2.2.2
  simp [hr] at hp

end MySuperLedger.Ledger
