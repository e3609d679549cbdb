import MySuperLedger.Storage.Truncation

/-! # The segmented log refines the log in memory

Any sequence of operations, restarts included, run on a directory and on an
`InMemoryLog`. One operation keeps a layout between the two; the whole sequence
follows by induction.
-/

namespace MySuperLedger.Storage

open Collections Effects List Option Layout
open Program (RunsTo)

inductive Operation (Entry : Type) where
  | append (entries : List Entry)
  | truncateSuffix (lastIndexKept : Nat)
  | truncatePrefix (firstIndexKept : Nat)
  | setCurrentTerm (term : Nat)
  | setVoteFor (voteFor : Nat)
  /-- The log is closed and constructed again on the same directory. -/
  | reopen

namespace Operation

variable {Entry : Type} (config : Config Entry)

def run (log : SegmentLog) : Operation Entry → Action SegmentLog
  | .append entries => do
      let (log, _) ← log.appendEntries config entries
      return log
  | .truncateSuffix lastIndexKept => log.truncateSuffix config lastIndexKept
  | .truncatePrefix firstIndexKept => log.truncatePrefix config firstIndexKept
  | .setCurrentTerm term => log.setCurrentTerm term
  | .setVoteFor voteFor => log.setVoteFor voteFor
  | .reopen => SegmentLog.init config

def runAll (log : SegmentLog) : List (Operation Entry) → Action SegmentLog
  | [] => return log
  | operation :: operations => do
      let log ← operation.run config log
      runAll log operations

/-- The process starts on a directory and then carries out the operations. -/
abbrev start (operations : List (Operation Entry)) : Action SegmentLog := do
  let log ← SegmentLog.init config
  runAll config log operations

def onMemory (memory : InMemoryLog Entry) : Operation Entry → InMemoryLog Entry
  | .append entries => (memory.appendEntries config entries).1
  | .truncateSuffix lastIndexKept => memory.truncateSuffix lastIndexKept
  | .truncatePrefix firstIndexKept => memory.truncatePrefix firstIndexKept
  | .setCurrentTerm term => memory.setCurrentTerm term
  | .setVoteFor voteFor => memory.setVoteFor voteFor
  | .reopen => memory

def allOnMemory (memory : InMemoryLog Entry) (operations : List (Operation Entry)) :
    InMemoryLog Entry :=
  operations.foldl (onMemory config) memory

/-- What a caller owes before an operation. -/
def Admissible (memory : InMemoryLog Entry) : Operation Entry → Prop
  | .append entries => IsBatch config (memory.lastIndex + 1) entries
  | .truncateSuffix lastIndexKept => memory.firstIndex ≤ lastIndexKept + 1
  | .truncatePrefix firstIndexKept => firstIndexKept ≤ memory.lastIndex
  | .setCurrentTerm _ | .setVoteFor _ | .reopen => True

def AllAdmissible (memory : InMemoryLog Entry) : List (Operation Entry) → Prop
  | [] => True
  | operation :: operations =>
    operation.Admissible config memory ∧ AllAdmissible (operation.onMemory config memory) operations

variable {config}

theorem allAdmissible_append {memory : InMemoryLog Entry} {first later : List (Operation Entry)} :
    AllAdmissible config memory (first ++ later) ↔ AllAdmissible config memory first ∧
        AllAdmissible config (allOnMemory config memory first) later := by
  induction first generalizing memory with
  | nil => simp [AllAdmissible, allOnMemory]
  | cons operation first ih => simp [AllAdmissible, allOnMemory, ih, and_assoc]

end Operation

section

variable {Entry : Type} {config : Config Entry} {layout : Layout Entry}

theorem InMemoryLog.appendEntries_eq {memory : InMemoryLog Entry} {batch : List Entry}
    (h : Numbered config (memory.lastIndex + 1) batch) :
    memory.appendEntries config batch =
      ({ memory with
          lastIndex := memory.lastIndex + batch.length
          log := memory.log ++ batch }, true) := by
  induction batch generalizing memory with
  | nil => simp [appendEntries]
  | cons entry batch ih =>
    obtain ⟨hi, hr⟩ := h
    have ha : memory.appendEntry config entry =
        ({ memory with lastIndex := memory.lastIndex + 1, log := memory.log ++ [entry] }, true) :=
      if_neg (not_not.mpr hi.symm)
    simp only [appendEntries, ha]
    rw [ih hr]
    simp [Nat.add_assoc, Nat.add_comm 1]

theorem Layout.firstIndex_sub_base_le (layout : Layout Entry) :
    layout.firstIndex - layout.base ≤ layout.entries.length := by
  by_cases hn : layout.entries = []
  · simp [layout.firstIndex_eq_base hn]
  · have := firstIndex_le_lastIndex hn
    simp only [lastIndex] at this
    omega

theorem Layout.SameLog.toMemory_append {rolled : Layout Entry} {batch : List Entry}
    (h : layout.SameLog rolled) (hb : Numbered config (layout.lastIndex + 1) batch) :
    (rolled.append batch).toMemory = (layout.toMemory.appendEntries config batch).1 := by
  have hle := layout.firstIndex_sub_base_le
  have hm : layout.toMemory.lastIndex = layout.lastIndex := rfl
  rw [InMemoryLog.appendEntries_eq (hm ▸ hb)]
  have he : (rolled.append batch).entries = layout.entries ++ batch := by
    rw [← h.entries_eq]
    simp [entries, append]
  simp only [toMemory, he, rolled.lastIndex_append, h.lastIndex_eq]
  simp [append, h.currentTerm_eq, h.voteFor_eq, h.firstIndex_eq, h.base_eq,
    drop_append_of_le_length hle]

theorem Layout.toMemory_cut {cut : Layout Entry} {lastIndexKept : Nat}
    (ht : cut.currentTerm = layout.currentTerm) (hv : cut.voteFor = layout.voteFor)
    (hf : cut.firstIndex = layout.firstIndex) (hb : cut.base = layout.base)
    (he : cut.entries = layout.entries.take (lastIndexKept + 1 - layout.base))
    (hl : cut.lastIndex = lastIndexKept) (hle : layout.firstIndex ≤ lastIndexKept)
    (hlt : lastIndexKept < layout.lastIndex) :
    cut.toMemory = layout.toMemory.truncateSuffix lastIndexKept := by
  have hn : ¬ layout.toMemory.lastIndex ≤ lastIndexKept := Nat.not_le.mpr hlt
  have hn' : ¬ lastIndexKept < layout.toMemory.firstIndex := Nat.not_lt.mpr hle
  have hlive := layout.isLive.1
  have hc : lastIndexKept + 1 - layout.base - (layout.firstIndex - layout.base) =
      lastIndexKept + 1 - layout.firstIndex := by omega
  simp only [InMemoryLog.truncateSuffix, hn, hn', if_false]
  simp only [toMemory, ht, hv, hf, hb, he, hl, drop_take, hc]

theorem Layout.toMemory_cutActive {kept : Nat}
    (hl : layout.firstIndex < layout.activeFirst + kept) (hc : kept < layout.active.length)
    (hle : layout.firstIndex ≤ layout.activeFirst + kept - 1) :
    (layout.cutActive kept hl hc).toMemory =
      layout.toMemory.truncateSuffix (layout.activeFirst + kept - 1) := by
  have hp := layout.activeFirst_pos
  have hlast := layout.lastIndex_eq
  refine toMemory_cut rfl rfl rfl rfl ?_ (lastIndex_cutActive hl hc) hle (by omega)
  have hcnt : layout.activeFirst + kept - 1 + 1 - layout.base =
      layout.closed.flatten.length + kept := by
    simp only [activeFirst]
    have := layout.base_pos
    omega
  rw [hcnt, entries, entries, take_length_add_append]
  rfl

theorem CutPoint.toMemory_remaining (cut : CutPoint layout)
    (hlt : cut.lastKept < layout.lastIndex) :
    cut.remaining.toMemory = layout.toMemory.truncateSuffix cut.lastKept := by
  have hpos := cut.start_pos
  refine toMemory_cut rfl rfl rfl rfl ?_ cut.lastIndex_remaining cut.firstIndex_le hlt
  have hc : cut.lastKept + 1 - layout.base = cut.front.flatten.length + cut.kept := by
    simp only [CutPoint.lastKept, CutPoint.start] at hpos ⊢
    omega
  rw [hc, entries, entries, cut.closed_eq]
  simp only [CutPoint.remaining, withBlocks, flatten_append, flatten_cons, flatten_nil,
    append_nil, append_assoc, take_length_add_append,
    take_append_of_le_length cut.kept_le]

theorem Layout.toMemory_cleared {lastIndexKept : Nat}
    (hf : layout.firstIndex = lastIndexKept + 1) (hlt : lastIndexKept < layout.lastIndex) :
    layout.cleared.toMemory = layout.toMemory.truncateSuffix lastIndexKept := by
  have hn : ¬ layout.toMemory.lastIndex ≤ lastIndexKept := Nat.not_le.mpr hlt
  have hb : lastIndexKept < layout.toMemory.firstIndex := by
    simp only [toMemory]
    omega
  simp only [InMemoryLog.truncateSuffix, hn, hb, if_false, if_true]
  simp [toMemory, cleared, withBlocks, lastIndex, entries, hf]

variable {disk : Disk}

theorem Directory.truncateSuffix_runsTo {n : Nat}
    (h : Directory config layout (some (blanks n)) disk) {lastIndexKept : Nat}
    (hfst : layout.firstIndex ≤ lastIndexKept + 1) :
    ∃ (steps : List Step) (cut : Layout Entry) (m : Nat) (disk' : Disk),
      RunsTo (SegmentLog.truncateSuffix config (layout.toLog config) lastIndexKept) disk
        steps (cut.toLog config) disk' ∧
      Directory config cut (some (blanks m)) disk' ∧
      cut.toMemory = layout.toMemory.truncateSuffix lastIndexKept := by
  have hpos := layout.activeFirst_pos
  have hlast := layout.lastIndex_eq
  by_cases hnop : layout.lastIndex ≤ lastIndexKept
  · refine ⟨[], layout, n, disk, ?_, h, ?_⟩
    · exact congrFun (if_pos hnop) disk
    · exact (if_pos hnop).symm
  have hlt : lastIndexKept < layout.lastIndex := Nat.lt_of_not_le hnop
  by_cases hnil : layout.firstIndex = lastIndexKept + 1
  · exact ⟨_, layout.cleared, config.slots, _, h.truncateSuffix_nil hnil hnop,
      h.leftover_nil.dropAll.createActive rfl, toMemory_cleared hnil hlt⟩
  have hle : layout.firstIndex ≤ lastIndexKept := by omega
  by_cases hact : layout.activeFirst ≤ lastIndexKept
  · -- the active segment holds the cut
    obtain ⟨kept, rfl⟩ : ∃ kept, lastIndexKept = layout.activeFirst + kept - 1 :=
      ⟨lastIndexKept + 1 - layout.activeFirst, by omega⟩
    have hkept : 0 < kept := by omega
    have hcut : kept < layout.active.length := by omega
    have hlive : layout.firstIndex < layout.activeFirst + kept := by omega
    have hdir := h.cutActive hlive hcut (Nat.sub_pos_of_lt hcut) (Nat.add_sub_cancel' hcut.le).le
    have htail : blanks (layout.active.length - kept) ++
        (recordsOf config 0 layout.active ++ blanks n).drop
          (kept + (layout.active.length - kept)) = blanks (layout.active.length - kept + n) := by
      rw [Nat.add_sub_cancel' hcut.le, drop_left' (length_recordsOf ..)]
      exact replicate_append_replicate
    rw [htail] at hdir
    exact ⟨_, _, _, _, h.truncateSuffix_active hlive hkept hcut, hdir,
      toMemory_cutActive hlive hcut hle⟩
  · obtain ⟨cut, disk', rfl, hrun, hdir⟩ :=
      h.truncateSuffix_closed hle (Nat.lt_of_not_le hact) hnop
    exact ⟨_, _, _, disk', hrun, hdir, cut.toMemory_remaining hlt⟩

/-- A directory, the objects over it and the log in memory that belong together. -/
def Stores (config : Config Entry) (disk : Disk) (log : SegmentLog) (memory : InMemoryLog Entry) :
    Prop :=
  ∃ (layout : Layout Entry) (n : Nat), Directory config layout (some (blanks n)) disk ∧
    log = layout.toLog config ∧ memory = layout.toMemory

variable {log : SegmentLog} {memory : InMemoryLog Entry}

theorem Stores.agrees (h : Stores config disk log memory) : Agrees config disk log memory := by
  obtain ⟨layout, n, hd, rfl, rfl⟩ := h
  exact hd.agrees

theorem Stores.append (h : Stores config disk log memory) {batch : List Entry}
    (hb : IsBatch config (memory.lastIndex + 1) batch) :
    ∃ steps log' disk', RunsTo (log.appendEntries config batch) disk steps (log', true) disk' ∧
      Stores config disk' log' (memory.appendEntries config batch).1 := by
  obtain ⟨layout, n, hd, rfl, rfl⟩ := h
  obtain ⟨steps, rolled, m, disk', hr, hd', hs⟩ := hd.appendEntries_runsTo hb
  exact ⟨steps, _, disk', hr, _, m, hd', rfl, (hs.toMemory_append hb.numbered).symm⟩

section

variable (h : Stores config disk log memory)
include h

theorem Stores.truncateSuffix {lastIndexKept : Nat} (hf : memory.firstIndex ≤ lastIndexKept + 1) :
    ∃ steps log' disk', RunsTo (log.truncateSuffix config lastIndexKept) disk steps log' disk' ∧
      Stores config disk' log' (memory.truncateSuffix lastIndexKept) := by
  obtain ⟨layout, n, hd, rfl, rfl⟩ := h
  obtain ⟨steps, cut, m, disk', hr, hd', hm⟩ := hd.truncateSuffix_runsTo hf
  exact ⟨steps, _, disk', hr, cut, m, hd', rfl, hm.symm⟩

theorem Stores.truncatePrefix {firstIndexKept : Nat} (hl : firstIndexKept ≤ memory.lastIndex) :
    ∃ steps log' disk', RunsTo (log.truncatePrefix config firstIndexKept) disk steps log' disk' ∧
      Stores config disk' log' (memory.truncatePrefix firstIndexKept) := by
  obtain ⟨layout, n, hd, rfl, rfl⟩ := h
  by_cases hn : firstIndexKept ≤ layout.firstIndex
  · refine ⟨[], _, disk, ?_, layout, n, hd, rfl, if_pos hn⟩
    exact congrFun (if_pos hn) disk
  · obtain ⟨advanced, hr, hd', hm⟩ :=
      hd.truncatePrefix_runsTo (Nat.lt_of_not_le hn) hl
    exact ⟨_, _, _, hr, advanced, n, hd', rfl, hm.symm⟩

theorem Stores.setCurrentTerm (term : Nat) :
    RunsTo (log.setCurrentTerm term) disk [.setCurrentTerm term]
      { log with currentTerm := term } (disk.after (.setCurrentTerm term)) ∧
    Stores config (disk.after (.setCurrentTerm term)) { log with currentTerm := term }
      (memory.setCurrentTerm term) := by
  obtain ⟨layout, n, hd, rfl, rfl⟩ := h
  refine ⟨rfl, { layout with currentTerm := term }, n, ?_, rfl, rfl⟩
  exact { hd with
    fields_eq := congrArg (fun fields => (some term, fields.2)) hd.fields_eq
    closed_hold := hd.closed_hold.congr fun _ _ => ⟨rfl, rfl⟩
    active_holds := fun records hr => (hd.active_holds records hr).congr rfl rfl }

theorem Stores.setVoteFor (voteFor : Nat) :
    RunsTo (log.setVoteFor voteFor) disk [.setVoteFor voteFor]
      { log with voteFor := voteFor } (disk.after (.setVoteFor voteFor)) ∧
    Stores config (disk.after (.setVoteFor voteFor)) { log with voteFor := voteFor }
      (memory.setVoteFor voteFor) := by
  obtain ⟨layout, n, hd, rfl, rfl⟩ := h
  refine ⟨rfl, { layout with voteFor := voteFor }, n, ?_, rfl, rfl⟩
  exact { hd with
    fields_eq := congrArg (fun fields => (fields.1, some voteFor, fields.2.2)) hd.fields_eq
    closed_hold := hd.closed_hold.congr fun _ _ => ⟨rfl, rfl⟩
    active_holds := fun records hr => (hd.active_holds records hr).congr rfl rfl }

end

section

variable {tail : Option (List LogMeta)} (h : Directory config layout tail disk)
include h

theorem Directory.active_eq_nil_of_created (hc : ¬ (tail.isSome ∧ layout.entries ≠ [])) :
    layout.active = [] := by
  cases tail with
  | none => exact h.active_eq_nil rfl
  | some records =>
    refine (entries_eq_nil_iff.mp ?_).2
    simpa using hc

/-- A start finds the log that the directory stores, whatever lies behind its records. -/
theorem Directory.init_agrees :
    ∃ steps disk', RunsTo (SegmentLog.init config) disk steps (layout.toLog config) disk' ∧
      Agrees config disk' (layout.toLog config) layout.toMemory := by
  have hi := h.init
  split at hi
  · rename_i hk
    obtain ⟨records, rfl⟩ := isSome_iff_exists.mp hk.1
    exact ⟨[], disk, hi, h.agrees⟩
  · rename_i hc
    exact ⟨_, _, hi, (h.createActive (h.active_eq_nil_of_created hc)).agrees⟩

theorem Directory.init_stores {n : Nat} (ht : ∀ records ∈ tail, records = blanks n) :
    ∃ steps disk', RunsTo (SegmentLog.init config) disk steps (layout.toLog config) disk' ∧
      Stores config disk' (layout.toLog config) layout.toMemory := by
  have hi := h.init
  split at hi
  · rename_i hk
    obtain ⟨records, rfl⟩ := isSome_iff_exists.mp hk.1
    obtain rfl := ht records rfl
    exact ⟨[], disk, hi, layout, n, h, rfl, rfl⟩
  · rename_i hc
    exact ⟨_, _, hi, layout, config.slots, h.createActive (h.active_eq_nil_of_created hc), rfl, rfl⟩

end

theorem Stores.reopen (h : Stores config disk log memory) :
    ∃ steps disk', RunsTo (SegmentLog.init config) disk steps log disk' ∧
      Stores config disk' log memory := by
  obtain ⟨layout, n, hd, rfl, rfl⟩ := h
  exact hd.init_stores fun records hr => (some.inj hr).symm

theorem Stores.operation (h : Stores config disk log memory) {operation : Operation Entry}
    (ha : operation.Admissible config memory) :
    ∃ steps log' disk', RunsTo (operation.run config log) disk steps log' disk' ∧
      Stores config disk' log' (operation.onMemory config memory) := by
  cases operation with
  | append batch =>
    obtain ⟨steps, log', disk', hr, hs⟩ := h.append ha
    exact ⟨steps, log', disk', hr.bind_right rfl, hs⟩
  | truncateSuffix lastIndexKept => exact h.truncateSuffix ha
  | truncatePrefix firstIndexKept => exact h.truncatePrefix ha
  | setCurrentTerm term => exact ⟨_, _, _, h.setCurrentTerm term⟩
  | setVoteFor voteFor => exact ⟨_, _, _, h.setVoteFor voteFor⟩
  | reopen =>
    obtain ⟨steps, disk', hr, hs⟩ := h.reopen
    exact ⟨steps, log, disk', hr, hs⟩

theorem Stores.runAll {operations : List (Operation Entry)} (h : Stores config disk log memory)
    (ha : Operation.AllAdmissible config memory operations) :
    ∃ steps log' disk', RunsTo (Operation.runAll config log operations) disk steps log' disk' ∧
      Stores config disk' log' (Operation.allOnMemory config memory operations) := by
  induction operations generalizing disk log memory with
  | nil => exact ⟨[], log, disk, rfl, h⟩
  | cons operation operations ih =>
    obtain ⟨hf, hr⟩ := ha
    obtain ⟨steps, log', disk', hrun, hs⟩ := h.operation hf
    obtain ⟨steps', log'', disk'', hr', hs'⟩ := ih hs hr
    exact ⟨steps ++ steps', log'', disk'', hrun.bind hr', hs'⟩

variable (config)

/-- The log of an empty directory. -/
def Layout.fresh : Layout Entry where
  currentTerm := 0
  voteFor := 0
  firstIndex := 1
  retained := []
  base := 1
  closed := []
  active := []
  base_pos := Nat.one_pos
  retained_sorted := .nil
  retained_before := nofun
  closed_ne_nil := forall_mem_nil_ne_nil
  isLive := ⟨le_rfl, .inr ⟨rfl, rfl, rfl⟩⟩

/-- The three small files of a first start. -/
def Disk.fresh : Disk where
  currentTerm := some 0
  voteFor := some 0
  firstIndex := some 1

theorem directory_fresh : Directory config fresh none Disk.fresh where
  fields_eq := rfl
  closed_hold := trivial
  active_holds := nofun
  active_eq_nil _ := rfl
  closed_iff range := by simp [Disk.fresh, fresh, rangesOf]
  active_iff first := by simp [Disk.fresh]

theorem init_stores : ∃ steps log disk, RunsTo (SegmentLog.init config) {} steps log disk ∧
      Stores config disk log {} :=
  ⟨[.setCurrentTerm 0, .setVoteFor 0, .setFirstIndex 1,
      .createData (.active 1) config.dataSizeLimit, .createMeta (.active 1) config.metaSizeLimit],
    fresh.toLog config, Disk.fresh.createActive config 1, rfl,
    fresh, config.slots, (directory_fresh config).createActive rfl, rfl, rfl⟩

theorem exists_run {operations : List (Operation Entry)}
    (ha : Operation.AllAdmissible config {} operations) :
    ∃ steps log disk,
      RunsTo (Operation.start config operations) {} steps log disk ∧
      Stores config disk log (Operation.allOnMemory config {} operations) := by
  obtain ⟨steps, log, disk, hi, hs⟩ := init_stores config
  obtain ⟨steps', log', disk', hr, hs'⟩ := hs.runAll ha
  exact ⟨steps ++ steps', log', disk', hi.bind hr, hs'⟩

/-- From an empty directory on, after each of the operations, the segmented log
answers as the log in memory. -/
theorem segmentLog_agrees {operations done : List (Operation Entry)}
    (hadmissible : Operation.AllAdmissible config {} operations) (hdone : done <+: operations) :
    ∃ steps log disk,
      RunsTo (Operation.start config done) {} steps log disk ∧
      Agrees config disk log (Operation.allOnMemory config {} done) := by
  obtain ⟨later, rfl⟩ := hdone
  obtain ⟨hadmissible, -⟩ := Operation.allAdmissible_append.mp hadmissible
  obtain ⟨steps, log, disk, hr, hs⟩ := exists_run config hadmissible
  exact ⟨steps, log, disk, hr, hs.agrees⟩

theorem exists_run_append {entry : Entry} {batch : List Entry}
    (hb : IsBatch config 1 (entry :: batch)) :
    ∃ steps disk,
      RunsTo (Operation.start config [.append (entry :: batch)]) {} steps
        ((fresh.append (entry :: batch)).toLog config) disk ∧
      Directory config (fresh.append (entry :: batch))
        (some (blanks (config.slots - (batch.length + 1)))) disk := by
  have hd := (directory_fresh config).createActive rfl
  have hf : Fits config (fresh : Layout Entry).active (entry :: batch) := hb.fits
  obtain ⟨ha, hr⟩ := Directory.writeBatch_runsTo (rollIfNeeded_of_fits _ hf) hd
    fresh.sameLog_refl hf hb
  have hi : RunsTo (SegmentLog.init config) {} [.setCurrentTerm 0, .setVoteFor 0, .setFirstIndex 1,
        .createData (.active 1) config.dataSizeLimit, .createMeta (.active 1) config.metaSizeLimit]
      (fresh.toLog config) (Disk.fresh.createActive config 1) := rfl
  have happ : RunsTo (Operation.run config (fresh.toLog config)
      (.append (entry :: batch))) (Disk.fresh.createActive config 1) _
      ((fresh.append (entry :: batch)).toLog config) _ := hr.bind_right rfl
  exact ⟨_, _, hi.bind (happ.bind_right rfl), hd.append ha⟩

end

/-- Entries that are their own index, in unary, all signed with one key version. -/
def unaryFormat (secretKeyVersion : Nat) : EntryFormat Nat where
  term _ := 1
  index entry := entry
  secretKeyVersion _ := secretKeyVersion
  serialize entry := List.replicate entry 0
  parse bytes := some bytes.length
  parse_serialize entry := by rw [length_replicate]

/-- One page for the data of a segment, `pages` for its records, and the key
version 1 if the crypto is enabled. -/
def unaryConfig (isEnabled : Bool) (secretKeyVersion pages : Nat) (hpages : 0 < pages) :
    Config Nat where
  format := unaryFormat secretKeyVersion
  crypto := {
    isEnabled := isEnabled
    descendingVersions := [1]
    versions_ne_nil := nofun
    hmac := fun _ _ _ => .replicate 32 1 }
  dataSizeLimit := 4096
  metaSizeLimit := pages * pageSize
  data_aligned := by decide
  meta_aligned := ⟨Nat.mul_pos hpages (by decide), Nat.dvd_mul_left _ _⟩

abbrev keyedPage : Config Nat := unaryConfig true 1 1 Nat.one_pos

def cutAndReopen : List (Operation Nat) :=
  [.append [1, 2, 3], .truncateSuffix 2, .truncatePrefix 2, .reopen, .append [3]]

theorem segmentLog_agrees_cutAndReopen :
    Operation.AllAdmissible keyedPage {} cutAndReopen ∧
    ∃ steps log disk,
      RunsTo (Operation.start keyedPage cutAndReopen) {} steps log disk ∧
      Agrees keyedPage disk log
        (Operation.allOnMemory keyedPage {} cutAndReopen) := by
  have ha : Operation.AllAdmissible keyedPage {} cutAndReopen := by
    refine ⟨⟨⟨by decide, by decide⟩, ⟨rfl, rfl, rfl, trivial⟩, fun entry _ => ?_⟩,
      (by decide : 1 ≤ 3), (by decide : 2 ≤ 2), trivial,
          ⟨⟨by decide, by decide⟩, ⟨rfl, trivial⟩, fun entry _ => ?_⟩, trivial⟩
    · intro _
      exact .inr (mem_singleton.mpr rfl)
    · intro _
      exact .inr (mem_singleton.mpr rfl)
  exact ⟨ha, segmentLog_agrees _ ha prefix_rfl⟩

/-- An entry that names a key version which the node does not have stops it,
although the batch continues the log and fits. -/
theorem runAll_unknownKeyVersion : Fits (unaryConfig true 2 1 Nat.one_pos) [] [1] ∧
    Numbered (unaryConfig true 2 1 Nat.one_pos) 1 [1] ∧
    ((do
        let log ← SegmentLog.init (unaryConfig true 2 1 Nat.one_pos)
        Operation.runAll (unaryConfig true 2 1 Nat.one_pos) log [.append [1]] :
        Action SegmentLog) {}).result = .error .keyVersion :=
  ⟨⟨by decide, by decide⟩, ⟨rfl, trivial⟩, rfl⟩

end MySuperLedger.Storage
