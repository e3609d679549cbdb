import MySuperLedger.Ledger.TrialBalance
import Mathlib.Algebra.BigOperators.Group.List.Basic

/-! # Journal entries commute

Whether an entry is accepted depends on the ids already done, on the accounts
that exist and on their currencies, and on nothing that another entry changes.
What it leaves behind is a shift of each balance modulo `2 ^ 64`. So the entries
of a batch can be recorded in any order, and the lines of each in any order.
-/

namespace MySuperLedger.Ledger

open Collections List Option KeyedMap

def wrap (x : Int) : UInt64 := UInt64.ofNat (x % 2 ^ 64).toNat

theorem toNat_wrap (x : Int) : ((wrap x).toNat : Int) = x % 2 ^ 64 := by
  rw [wrap, UInt64.toNat_ofNat']
  omega

theorem wrap_emod_add (x y : Int) : wrap (x % 2 ^ 64 + y) = wrap (x + y) := by
  rw [wrap, wrap, Int.emod_add_emod]

theorem wrap_toNat (value : UInt64) : wrap value.toNat = value := by
  have hlt := value.toNat_lt
  have hw := toNat_wrap value.toNat
  apply UInt64.toNat_inj.mp
  omega

/-- The account with the balance that `journalLines` leave in it. -/
def Account.after (account : Account) (journalLines : List JournalLine) : Account :=
  { account with
    balance := { account.balance with value := wrap (exactValue account journalLines) } }

theorem Account.value_after (account : Account) (journalLines : List JournalLine) :
    (account.after journalLines).value = exactValue account journalLines % 2 ^ 64 :=
  toNat_wrap _

variable {account : Account} {journalLines : List JournalLine} {coA final : ChartOfAccounts}
  {s : AppState} {journalEntry : JournalEntry} {entries : List JournalEntry} {other : JournalEntry}
  {middle others : List JournalEntry}

theorem exactValue_of_untouched (h : linesAt account.nominalCode journalLines = []) :
    exactValue account journalLines = account.value := by
  simp [exactValue, h]

theorem Account.after_of_untouched (h : linesAt account.nominalCode journalLines = []) :
    account.after journalLines = account := by
  rw [after, exactValue_of_untouched h, value, wrap_toNat]

theorem netDebit_append (first second : List JournalLine) :
    netDebit (first ++ second) = netDebit first + netDebit second := by
  induction first with
  | nil => simp
  | cons line lines ih => simp [netDebit_cons, ih, add_assoc]

theorem Account.after_append (account : Account) (first second : List JournalLine) :
    account.after (first ++ second) = (account.after first).after second := by
  have hl : linesAt account.nominalCode (first ++ second) =
      linesAt account.nominalCode first ++ linesAt account.nominalCode second := by
    simp [linesAt]
  have hex : wrap (exactValue (account.after first) second) =
      wrap (exactValue account (first ++ second)) := by
    have hc : (account.after first).nominalCode = account.nominalCode := rfl
    have ht : (account.after first).type = account.type := rfl
    rw [exactValue, value_after, hc, ht, wrap_emod_add, exactValue, exactValue, hl,
      netDebit_append, mul_add, add_assoc]
  simp only [after] at hex ⊢
  rw [← hex]

variable {left right : List JournalLine} {journalLine : JournalLine} {moved : Account}
  {snapshot : DoneMap}

theorem netDebit_perm (h : left.Perm right) : netDebit left = netDebit right := by
  have hs : ∀ type, sumOf type left = sumOf type right := fun type =>
    ((h.filter _).map _).sum_eq
  rw [netDebit, netDebit, hs, hs]

theorem Account.after_perm (account : Account) (h : left.Perm right) :
    account.after left = account.after right := by
  have hl : netDebit (linesAt account.nominalCode left) =
      netDebit (linesAt account.nominalCode right) := netDebit_perm (h.filter _)
  rw [after, after, exactValue, exactValue, hl]

theorem applyJournalLine_frame (hf : coA.find? journalLine.nominalCode = some account)
    (h : applyJournalLine coA journalLine = some moved) :
    ∃ value, moved = { account with balance := { account.balance with value := value } } := by
  simp only [applyJournalLine, hf, bind_some] at h
  cases ht : journalLine.type with
  | unknown => simp [ht] at h
  | debit | credit =>
    simp only [ht] at h
    rcases Account.applyBySide_cases h with ⟨-, rfl⟩ | ⟨-, rfl⟩ <;> exact ⟨_, rfl⟩

theorem applyJournalLine_eq (h : applyJournalLine coA journalLine = some moved) :
    ∃ account, coA.find? journalLine.nominalCode = some account ∧
      moved = account.after [journalLine] := by
  obtain ⟨account, hf, -, hmov⟩ := applyJournalLine_spec h
  obtain ⟨value, rfl⟩ := applyJournalLine_frame hf h
  refine ⟨account, hf, ?_⟩
  have hl : linesAt account.nominalCode [journalLine] = [journalLine] := by
    simp [linesAt, key_of_find? hf]
  have hex : exactValue account [journalLine] =
      account.value + account.type.sign * journalLine.signedAmount := by
    simp [exactValue, hl, netDebit_cons]
  have hv : value = wrap (exactValue account [journalLine]) := by
    have hm : (value.toNat : Int) = exactValue account [journalLine] % 2 ^ 64 := by
      rw [hex]
      exact hmov.value_eq
    apply UInt64.toNat_inj.mp
    exact Int.natCast_inj.mp (hm.trans (toNat_wrap _).symm)
  rw [Account.after, ← hv]

theorem applyJournalLines_find? {callbacks : List Callback}
    (h : applyJournalLines coA journalLines = some (final, callbacks)) (nominalCode : UInt64) :
    final.find? nominalCode = (coA.find? nominalCode).map (·.after journalLines) := by
  induction journalLines generalizing coA callbacks with
  | nil =>
    obtain ⟨rfl, -⟩ := Prod.mk.inj (some.inj h)
    have hid : ∀ account : Account, account.after [] = account := fun account =>
      Account.after_of_untouched rfl
    simp [hid]
  | cons line lines ih =>
    obtain ⟨moved, later, hline, hrest⟩ := applyJournalLines_cons h
    obtain ⟨account, hfind, rfl⟩ := applyJournalLine_eq hline
    have hcode : account.nominalCode = line.nominalCode := key_of_find? hfind
    have hput : (coA.put (account.after [line])).find? nominalCode =
        (coA.find? nominalCode).map (·.after [line]) := by
      by_cases hsame : nominalCode = line.nominalCode
      · have hkey : line.nominalCode = (account.after [line]).nominalCode := hcode.symm
        rw [hsame, hfind, hkey, find?_put_self, map_some]
      · have hkey : nominalCode ≠ (account.after [line]).nominalCode := by
          rw [show (account.after [line]).nominalCode = line.nominalCode from hcode]
          exact hsame
        rw [find?_put_of_ne _ hkey]
        cases hoth : coA.find? nominalCode with
        | none => rfl
        | some other =>
          have hunt : linesAt other.nominalCode [line] = [] := by
            simp [linesAt, key_of_find? hoth, Ne.symm hsame]
          rw [Option.map_some, Account.after_of_untouched hunt]
    rw [ih hrest, hput, Option.map_map]
    congr 1
    funext account
    exact (account.after_append [line] lines).symm

instance (snapshot : DoneMap) (s : AppState) (journalEntry : JournalEntry) :
    Decidable (IsAdmissible snapshot s journalEntry) :=
  inferInstanceAs (Decidable (_ ∧ _))

instance (journalLines : List JournalLine) : Decidable (LooksBalanced journalLines) :=
  inferInstanceAs (Decidable (_ ∧ _ ∧ _))

instance (snapshot : DoneMap) (s : AppState) (journalEntry : JournalEntry) :
    Decidable (Accepts snapshot s journalEntry) :=
  inferInstanceAs (Decidable (_ ∧ _))

def accepted (snapshot : DoneMap) (s : AppState) (entries : List JournalEntry) :
    List JournalEntry :=
  entries.filter fun journalEntry => Accepts snapshot s journalEntry

theorem lineIsValid_iff_of_moved {moved : List JournalLine}
    (h : ∀ nominalCode, final.find? nominalCode = (coA.find? nominalCode).map (·.after moved))
    (journalLine : JournalLine) : LineIsValid final journalLine ↔ LineIsValid coA journalLine := by
  rw [LineIsValid, h, LineIsValid]
  cases coA.find? journalLine.nominalCode with
  | none => simp
  | some account => simp [Account.after]

theorem accepts_iff_of_recorded {recorded : JournalEntry} (hid : journalEntry.id ≠ recorded.id)
    (h : ∀ nominalCode, final.find? nominalCode =
      (s.coA.find? nominalCode).map (·.after recorded.journalLines)) :
    Accepts snapshot { s with
      doneMap := s.doneMap.insert recorded.id recorded.validTime, coA := final } journalEntry ↔
      Accepts snapshot s journalEntry := by
  simp [Accepts, IsAdmissible, lineIsValid_iff_of_moved h, hid]

theorem processCommandAndApply_of_accepts (now : UInt64) (hk : AllKnown s.coA)
    (hv : journalEntry.IsV1) (ha : Accepts snapshot s journalEntry) :
    ∃ final, processCommandAndApply now snapshot s (.recordJournalEntry (some journalEntry)) =
        some (successHint, [.ofPayload now (.journalEntryRecorded journalEntry)], { s with
          doneMap := s.doneMap.insert journalEntry.id journalEntry.validTime, coA := final }) ∧
      AllKnown final ∧
      ∀ nominalCode, final.find? nominalCode =
        (s.coA.find? nominalCode).map (·.after journalEntry.journalLines) := by
  have hp := processCommand_of_accepts now hv ha
  have hc : ∀ line ∈ journalEntry.journalLines, CanApply s.coA line := by
    intro line hline
    have hval := ha.1.2 line hline
    obtain ⟨account, hf, -⟩ := hval.1
    exact ⟨hval.type_ne, account, hf, hk _ account hf⟩
  obtain ⟨⟨final, callbacks⟩, hl⟩ := applyJournalLines_isSome_iff.mpr hc
  refine ⟨final, ?_, applyJournalLines_allKnown hl hk, applyJournalLines_find? hl⟩
  have hd := Finmap.lookup_eq_none.mpr ha.1.1.1
  simp [processCommandAndApply, hp, applyEvents, applyEvent, Event.ofPayload,
    applyJournalEntryRecorded, hd, hl]

def recordCommands (entries : List (UInt64 × JournalEntry)) : List (UInt64 × Command) :=
  entries.map fun (now, journalEntry) => (now, .recordJournalEntry (some journalEntry))

/-- The ids of the entries that a run recorded, in order. -/
def recordedIds (events : List Event) : List String :=
  events.filterMap fun event =>
    match event.payload with
    | .journalEntryRecorded journalEntry => some journalEntry.id
    | _ => none

/-- A batch of entries with distinct ids records those that the first state
accepts, and moves the balances by their lines. -/
theorem runCommands_recordCommands (snapshot : DoneMap) {entries : List (UInt64 × JournalEntry)}
    (hk : AllKnown s.coA) (hv : ∀ entry ∈ entries, entry.2.IsV1)
    (hids : (entries.map fun entry => entry.2.id).Nodup) :
    ∃ events after, runCommands snapshot s (recordCommands entries) = some (events, after) ∧
      recordedIds events = (accepted snapshot s (entries.map Prod.snd)).map JournalEntry.id ∧
      ∀ nominalCode, after.coA.find? nominalCode = (s.coA.find? nominalCode).map
          (·.after ((accepted snapshot s (entries.map Prod.snd)).flatMap
            JournalEntry.journalLines)) := by
  induction entries generalizing s with
  | nil =>
    have hid : ∀ account : Account, account.after [] = account := fun account =>
      Account.after_of_untouched rfl
    exact ⟨[], s, rfl, rfl, by simp [accepted, hid]⟩
  | cons entry entries ih =>
    obtain ⟨now, journalEntry⟩ := entry
    obtain ⟨hfst, hrest⟩ := forall_mem_cons.mp hv
    obtain ⟨hnew, hids⟩ := nodup_cons.mp hids
    by_cases ha : Accepts snapshot s journalEntry
    · obtain ⟨final, hstep, hkn, hfin⟩ :=
        processCommandAndApply_of_accepts now hk hfst ha
      have hsame : accepted snapshot { s with
          doneMap := s.doneMap.insert journalEntry.id journalEntry.validTime, coA := final }
            (entries.map Prod.snd) = accepted snapshot s (entries.map Prod.snd) := by
        refine filter_congr fun other hoth => ?_
        obtain ⟨entry, hent, rfl⟩ := mem_map.mp hoth
        have hid : entry.2.id ≠ journalEntry.id := fun heq =>
          hnew (mem_map.mpr ⟨entry, hent, heq⟩)
        rw [decide_eq_decide]
        exact accepts_iff_of_recorded hid hfin
      obtain ⟨events, after, hrun, hrec, hcoA⟩ := ih (s := { s with
        doneMap := s.doneMap.insert journalEntry.id journalEntry.validTime, coA := final })
        hkn hrest hids
      have hcons : accepted snapshot s (((now, journalEntry) :: entries).map Prod.snd) =
          journalEntry :: accepted snapshot s (entries.map Prod.snd) := by
        simp [accepted, ha]
      rw [hsame] at hrec hcoA
      refine ⟨.ofPayload now (.journalEntryRecorded journalEntry) :: events, after, ?_, ?_, ?_⟩
      · rw [recordCommands] at hrun
        simp [recordCommands, runCommands, hstep, hrun]
      · rw [hcons, map_cons, ← hrec]
        rfl
      · intro nominalCode
        rw [hcoA, hfin, hcons, Option.map_map, flatMap_cons]
        congr 1
        funext account
        exact (account.after_append _ _).symm
    · obtain ⟨hint, hproc, -⟩ := processCommand_of_not_accepts now hfst ha
      obtain ⟨events, after, hrun, hrec, hcoA⟩ := ih hk hrest hids
      have hcons : accepted snapshot s (((now, journalEntry) :: entries).map Prod.snd) =
          accepted snapshot s (entries.map Prod.snd) := by
        simp [accepted, ha]
      rw [hcons]
      refine ⟨events, after, ?_, hrec, hcoA⟩
      rw [recordCommands] at hrun
      simp [recordCommands, runCommands, processCommandAndApply, hproc, applyEvents, hrun]

/-- The same entry with its lines in another order. -/
def JournalEntry.Reordered (journalEntry other : JournalEntry) : Prop :=
  other = { journalEntry with journalLines := other.journalLines } ∧
    journalEntry.journalLines.Perm other.journalLines

/-- The same entries in another order, each with its lines in some order. -/
def Rearranged (entries others : List JournalEntry) : Prop :=
  ∃ middle, entries.Perm middle ∧ List.Forall₂ JournalEntry.Reordered middle others

theorem JournalEntry.Reordered.id_eq (h : journalEntry.Reordered other) :
    other.id = journalEntry.id := by
  rw [h.1]

theorem JournalEntry.Reordered.accepts_iff (h : journalEntry.Reordered other) (snapshot : DoneMap)
    (s : AppState) : Accepts snapshot s journalEntry ↔ Accepts snapshot s other := by
  have hl : ∀ type, (linesOf type journalEntry.journalLines).length =
      (linesOf type other.journalLines).length := fun type => (h.2.filter _).length_eq
  have hs : ∀ type, sumOf type journalEntry.journalLines = sumOf type other.journalLines :=
    fun type => ((h.2.filter _).map _).sum_eq
  have hv : (∀ line ∈ journalEntry.journalLines, LineIsValid s.coA line) ↔
      ∀ line ∈ other.journalLines, LineIsValid s.coA line :=
    forall_congr' fun line => imp_congr_left h.2.mem_iff
  rw [Accepts, IsAdmissible, LooksBalanced, hl, hl, hs, hs, hv, ← h.id_eq]
  rfl

section

variable (h : List.Forall₂ JournalEntry.Reordered middle others)
include h

theorem accepted_reordered (snapshot : DoneMap) (s : AppState) :
    List.Forall₂ JournalEntry.Reordered (accepted snapshot s middle)
      (accepted snapshot s others) := by
  refine rel_filter ?_ h
  intro journalEntry other hs
  simpa using hs.accepts_iff snapshot s

theorem map_id_of_reordered : middle.map JournalEntry.id = others.map JournalEntry.id := by
  induction h with
  | nil => rfl
  | cons hf _ ih => simp [hf.id_eq, ih]

theorem journalLines_perm_of_reordered : (middle.flatMap JournalEntry.journalLines).Perm
      (others.flatMap JournalEntry.journalLines) := by
  induction h with
  | nil => exact .refl _
  | cons hf _ ih => simpa using hf.2.append ih

end

theorem JournalEntry.Reordered.isV1 (h : journalEntry.Reordered other) (hv : journalEntry.IsV1) :
    other.IsV1 := by
  refine ⟨?_, fun line hl => hv.2 line (h.2.mem_iff.mpr hl)⟩
  rw [h.1]
  exact hv.1

section

variable (h : Rearranged entries others)
include h

theorem Rearranged.isV1 (hv : ∀ journalEntry ∈ entries, journalEntry.IsV1) :
    ∀ journalEntry ∈ others, journalEntry.IsV1 := by
  obtain ⟨middle, hp, hl⟩ := h
  have hm : ∀ journalEntry ∈ middle, journalEntry.IsV1 := fun journalEntry hmem =>
    hv journalEntry (hp.mem_iff.mpr hmem)
  clear hp
  induction hl with
  | nil => simp
  | cons hf _ ih =>
    obtain ⟨hv1, hr⟩ := forall_mem_cons.mp hm
    exact forall_mem_cons.mpr ⟨hf.isV1 hv1, ih hr⟩

theorem Rearranged.ids_perm : (entries.map JournalEntry.id).Perm (others.map JournalEntry.id) := by
  obtain ⟨middle, hp, hl⟩ := h
  rw [← map_id_of_reordered hl]
  exact hp.map _

theorem Rearranged.accepted (snapshot : DoneMap) (s : AppState) :
    Rearranged (accepted snapshot s entries) (accepted snapshot s others) := by
  obtain ⟨middle, hp, hl⟩ := h
  exact ⟨_, hp.filter _, accepted_reordered hl snapshot s⟩

theorem Rearranged.journalLines_perm : (entries.flatMap JournalEntry.journalLines).Perm
      (others.flatMap JournalEntry.journalLines) := by
  obtain ⟨middle, hp, hl⟩ := h
  exact (hp.flatMap_right _).trans (journalLines_perm_of_reordered hl)

end

/-- Neither the order of the entries nor that of their lines matters: the same ids
are recorded and the accounts end up the same. -/
theorem journalEntries_commute (snapshot : DoneMap) {s : AppState} (hk : AllKnown s.coA)
    {entries others : List (UInt64 × JournalEntry)}
    (hv : ∀ entry ∈ entries, entry.2.IsV1) (hids : (entries.map fun entry => entry.2.id).Nodup)
    (hsame : Rearranged (entries.map Prod.snd) (others.map Prod.snd)) :
    ∃ events after events' after',
      runCommands snapshot s (recordCommands entries) = some (events, after) ∧
      runCommands snapshot s (recordCommands others) = some (events', after') ∧
      (recordedIds events).Perm (recordedIds events') ∧ after.coA = after'.coA := by
  have hv' : ∀ entry ∈ others, entry.2.IsV1 :=
    forall_mem_map.mp (hsame.isV1 (forall_mem_map.mpr hv))
  have hids' : (others.map fun entry => entry.2.id).Nodup := by
    have hperm := hsame.ids_perm
    simp only [List.map_map] at hperm
    exact hperm.nodup_iff.mp hids
  obtain ⟨events, after, hrun, hrec, hcoA⟩ :=
    runCommands_recordCommands snapshot hk hv hids
  obtain ⟨events', after', hrun', hrec', hcoA'⟩ :=
    runCommands_recordCommands snapshot hk hv' hids'
  have hacc := hsame.accepted snapshot s
  refine ⟨events, after, events', after', hrun, hrun', ?_, ?_⟩
  · rw [hrec, hrec']
    exact hacc.ids_perm
  · ext1 nominalCode
    rw [hcoA, hcoA']
    congr 1
    funext account
    exact account.after_perm hacc.journalLines_perm

/-- A sale, and a refund that names its lines the other way round. -/
def saleAndRefund : List (UInt64 × JournalEntry) :=
  [(1, entryOf [debitLine 1001 50, creditLine 2001 50]),
   (2, { entryOf [debitLine 2001 20, creditLine 1001 20] with id := "entry-2" })]

def refundAndSale : List (UInt64 × JournalEntry) :=
  [(1, { entryOf [creditLine 1001 20, debitLine 2001 20] with id := "entry-2" }),
   (2, entryOf [debitLine 1001 50, creditLine 2001 50])]

theorem rearranged_refundAndSale :
    Rearranged (saleAndRefund.map Prod.snd) (refundAndSale.map Prod.snd) := by
  refine ⟨_, List.Perm.swap _ _ [], ?_⟩
  refine .cons ⟨rfl, List.Perm.swap _ _ []⟩ (.cons ⟨rfl, .refl _⟩ .nil)

theorem allKnown_twoAccounts : AllKnown twoAccounts.coA := by
  intro nominalCode account hf
  simp only [twoAccounts, find?_put, find?_empty] at hf
  split at hf
  · cases hf
    decide
  · split at hf
    · cases hf
      decide
    · cases hf

theorem journalEntries_commute_refundAndSale : AllKnown twoAccounts.coA ∧
      Rearranged (saleAndRefund.map Prod.snd) (refundAndSale.map Prod.snd) ∧
      ∃ events after events' after',
        runCommands ∅ twoAccounts (recordCommands saleAndRefund) = some (events, after) ∧
        runCommands ∅ twoAccounts (recordCommands refundAndSale) = some (events', after') ∧
        (recordedIds events).Perm (recordedIds events') ∧ after.coA = after'.coA :=
  ⟨allKnown_twoAccounts, rearranged_refundAndSale,
    journalEntries_commute ∅ allKnown_twoAccounts (by decide) (by decide)
      rearranged_refundAndSale⟩

end MySuperLedger.Ledger
