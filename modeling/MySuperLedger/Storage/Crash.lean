import MySuperLedger.Storage.Refinement

/-! # Crashes inside the structural operations

`rollActiveSegment`, `truncateSuffix` and `truncatePrefix` are lists of durable
steps. A crash leaves the first few of them done; what the next start makes of
the directory is compared with the log before and after the operation.
-/

namespace MySuperLedger.Storage

open Collections Effects List Option AList Layout SegmentLog Operation
open Program (RunsTo)

/-- An operation over whole segments. `rollActiveSegment` is called by an append
whose batch does not fit behind the active segment's entries. -/
inductive Structural (Entry : Type) where
  | roll (batch : List Entry)
  | truncateSuffix (lastIndexKept : Nat)
  | truncatePrefix (firstIndexKept : Nat)

/-- The directory after a crash behind the first `point` steps of a program. -/
def Disk.crashed {α : Type} (disk : Disk) (program : Action α) (point : Nat) : Disk :=
  disk.afterAll ((program disk).effects.take point)

namespace Structural

variable {Entry : Type} (config : Config Entry)

def run (log : SegmentLog) : Structural Entry → Action SegmentLog
  | .roll _ => log.rollActiveSegment config
  | .truncateSuffix lastIndexKept => log.truncateSuffix config lastIndexKept
  | .truncatePrefix firstIndexKept => log.truncatePrefix config firstIndexKept

def onMemory (memory : InMemoryLog Entry) : Structural Entry → InMemoryLog Entry
  | .roll _ => memory
  | .truncateSuffix lastIndexKept => memory.truncateSuffix lastIndexKept
  | .truncatePrefix firstIndexKept => memory.truncatePrefix firstIndexKept

/-- When the operation is called. -/
def Admissible (log : SegmentLog) : Structural Entry → Prop
  | .roll batch => IsBatch config (log.lastIndex + 1) batch ∧
      ∀ active ∈ log.activeSegment, active.exceeds config batch = true
  | .truncateSuffix lastIndexKept => log.firstIndex ≤ lastIndexKept + 1
  | .truncatePrefix firstIndexKept => firstIndexKept ≤ log.lastIndex

/-- The slots that `truncateSuffix` clears in a closed segment. -/
def clearedSlots (log : SegmentLog) (lastIndexKept : Nat) : Nat :=
  if log.firstIndex ≤ lastIndexKept then
    match (log.closedSegments.filter fun segment =>
        segment.firstIndex ≤ lastIndexKept).getLast? with
    | some segment => segment.lastIndex - lastIndexKept
    | none => 0
  else 0

/-- The segments that `truncateSuffix` drops, the active one among them. -/
def droppedSegments (log : SegmentLog) (lastIndexKept : Nat) : Nat :=
  1 + log.closedSegments.countP fun segment =>
    lastIndexKept < segment.firstIndex ∨ lastIndexKept < log.firstIndex

/-- The steps of `truncateSuffix` before it creates a new active segment: a cut of
a closed segment clears slots and renames two files, a drop renames two files. -/
def stepsToDrop (log : SegmentLog) (lastIndexKept : Nat) : Nat :=
  (if clearedSlots log lastIndexKept = 0 then 0 else clearedSlots log lastIndexKept + 2) +
    2 * droppedSegments log lastIndexKept

/-- Crash points that are recovered from. A roll must not stop between its two
renames. A `truncateSuffix` with segments to drop has to be over with them, or not
to have begun; an empty active segment is no loss. -/
def CrashSafe (log : SegmentLog) : Structural Entry → Nat → Prop
  | .roll _, point => point ≠ 1
  | .truncatePrefix _, _ => True
  | .truncateSuffix lastIndexKept, point =>
    log.lastIndex ≤ lastIndexKept ∨
    (∃ active ∈ log.activeSegment,
      active.firstIndex ≤ lastIndexKept ∧ log.firstIndex ≤ lastIndexKept) ∨
    point = 0 ∨ stepsToDrop log lastIndexKept ≤ point ∨
    (point = 2 ∧ clearedSlots log lastIndexKept = 0 ∧
      ∃ active ∈ log.activeSegment, active.lastIndex < active.firstIndex)

end Structural

section

variable {Entry : Type} {config : Config Entry} {layout : Layout Entry} {disk : Disk}
  {tail : Option (List LogMeta)}

/-- The next start returns a log that answers as `memory`. -/
def Recovers (config : Config Entry) (disk : Disk) (memory : InMemoryLog Entry) : Prop :=
  ∃ steps log disk', RunsTo (init config) disk steps log disk' ∧ Agrees config disk' log memory

theorem Directory.recovers (h : Directory config layout tail disk) :
    Recovers config disk layout.toMemory := by
  obtain ⟨steps, disk', hr, ha⟩ := h.init_agrees
  exact ⟨steps, _, disk', hr, ha⟩

variable {steps : List Step} {point : Nat}

theorem crashed_of_runsTo {α : Type} {program : Action α} {x : α} {disk' : Disk}
    (h : RunsTo program disk steps x disk') (point : Nat) :
    disk.crashed program point = disk.afterAll (steps.take point) := by
  rw [Disk.crashed, show program disk = _ from h]

theorem Directory.createData (h : Directory config layout none disk) (first size : Nat) :
    Directory config layout none (disk.after (.createData (.active first) size)) :=
  { h with
    closed_hold := h.closed_hold.congr fun _ _ => ⟨rfl, lookup_insert_ne nofun⟩
    active_holds := nofun }

/-- The two steps that create an active segment. -/
def createSteps (config : Config Entry) (first : Nat) : List Step :=
  [.createData (.active first) config.dataSizeLimit, .createMeta (.active first)
      config.metaSizeLimit]

/-- A crash while the new active segment is created, or after that. -/
theorem Directory.creating (h : Directory config layout none (disk.afterAll steps))
    (hp : steps.length ≤ point) :
    Recovers config
      (disk.afterAll ((steps ++ createSteps config layout.activeFirst).take point))
      layout.toMemory := by
  rw [take_append, take_of_length_le hp, afterAll_append]
  match point - steps.length with
  | 0 => exact h.recovers
  | 1 => exact (h.createData ..).recovers
  | rest + 2 =>
    rw [take_of_length_le (by simp [createSteps])]
    exact (h.createActive (h.active_eq_nil rfl)).recovers

theorem Layout.toMemory_roll (layout : Layout Entry) (ha : layout.active ≠ []) :
    (layout.roll ha).toMemory = layout.toMemory := by
  simp only [toMemory, layout.lastIndex_roll ha]
  simp [entries, roll]

theorem Directory.roll_recovers {tail : List LogMeta} (h : Directory config layout (some tail) disk)
    (ha : layout.active ≠ []) (hpt : point ≠ 1) :
    Recovers config (disk.afterAll ((rollSteps config layout).take point)) layout.toMemory := by
  by_cases hz : point = 0
  · rw [hz]
    exact h.recovers
  · have hs : rollSteps config layout =
        [.renameData (.active layout.activeFirst) (some layout.closedName),
          .renameMeta (.active layout.activeFirst) (some layout.closedName)] ++
        createSteps config (layout.roll ha).activeFirst := by
      have hn : layout.lastIndex + 1 = (layout.roll ha).activeFirst := by
        have := layout.activeFirst_pos
        rw [layout.activeFirst_roll, layout.lastIndex_eq]
        omega
      rw [rollSteps, hn]
      rfl
    rw [hs, ← layout.toMemory_roll ha]
    refine Directory.creating (h.closeActive ha) ?_
    simp only [length_cons, length_nil]
    omega

theorem lookup_moveTo_source {β : Type} {files : AList (fun _ : SegmentName => β)}
    {source target : SegmentName} (hne : source ≠ target) :
    (Disk.moveTo files source (some target)).lookup source = none := by
  unfold Disk.moveTo
  split
  · rename_i file target' hf
    cases hf
    rw [lookup_insert_ne hne, lookup_erase]
  · exact lookup_erase ..

/-- Between the two renames of a roll the active segment has a meta file and no
data file, and the next start fails. -/
theorem Directory.roll_crash_fails {tail : List LogMeta}
    (h : Directory config layout (some tail) disk) :
    (SegmentLog.init config (disk.afterAll ((rollSteps config layout).take 1))).result =
      .error .openData := by
  have hdisk : disk.afterAll ((rollSteps config layout).take 1) =
      disk.after (.renameData (.active layout.activeFirst) (some layout.closedName)) := rfl
  have hhold : HoldAll config
      (disk.after (.renameData (.active layout.activeFirst) (some layout.closedName)))
      layout.base layout.closed := by
    refine h.closed_hold.congr fun range hrng => ⟨rfl, ?_⟩
    have hne := layout.closedName_notMem range hrng
    exact lookup_moveTo_of_ne nofun fun heq => hne (some.inj heq).symm
  have hdata : (disk.after (.renameData (.active layout.activeFirst)
      (some layout.closedName))).datas.lookup (.active layout.activeFirst) = none :=
    lookup_moveTo_source nofun
  have hact : Segment.recoverActiveOrClosedSegment
      (disk.after (.renameData (.active layout.activeFirst) (some layout.closedName)))
      (.active layout.activeFirst) = .error .openData := by
    rw [Segment.recoverActiveOrClosedSegment, hdata]
    rfl
  have hsegs : SegmentLog.recoverSegments
      (disk.after (.renameData (.active layout.activeFirst) (some layout.closedName)))
      layout.firstIndex ⟨layout.retained ++ rangesOf layout.base layout.closed,
        some layout.activeFirst⟩ = .error .openData := by
    simp only [SegmentLog.recoverSegments, layout.recoverClosed hhold, bind, Except.bind,
      lastClosed_eq, ensure_of layout.follows_activeFirst, hact]
  rw [hdisk]
  generalize hcra : disk.after (.renameData (.active layout.activeFirst)
    (some layout.closedName)) = crashed at hsegs
  have hlist : SegmentLog.listSegments crashed =
      .ok ⟨layout.retained ++ rangesOf layout.base layout.closed, some layout.activeFirst⟩ := by
    rw [← hcra]
    exact h.listSegments
  have hfields : crashed.fields = layout.fields := hcra ▸ h.fields_eq
  obtain ⟨hterm, hvote, hfst⟩ := Disk.fields_eq_iff.mp hfields
  have hget : RunsTo (Program.get : Action Disk) crashed [] crashed crashed := rfl
  rw [SegmentLog.init, (recoverField_runsTo hterm).bind_eq, (recoverField_runsTo hvote).bind_eq,
    (recoverField_runsTo hfst).bind_eq, hget.bind_eq,
    (RunsTo.lift hlist crashed).bind_eq, hsegs]
  rfl

theorem take_clearSteps (name : SegmentName) (kept n point : Nat) :
    (clearSteps name kept n).take point = clearSteps name kept (min point n) := by
  rw [clearSteps, clearSteps, ← map_take]
  congr 1
  induction n generalizing kept point with
  | zero => simp
  | succ n ih =>
    cases point with
    | zero => simp
    | succ point => simp [range'_succ, ih, Nat.add_min_add_right]

/-- The scan stops at the first slot that is cleared. -/
theorem Directory.cutActive_recovers {tail : List LogMeta} {kept : Nat}
    (h : Directory config layout (some tail) disk)
    (hk : layout.firstIndex < layout.activeFirst + kept) (hc : kept < layout.active.length) :
    Recovers config
        (disk.afterAll ((cutSteps true layout.activeFirst layout.active.length kept).take point))
        layout.toMemory ∨
      Recovers config
        (disk.afterAll ((cutSteps true layout.activeFirst layout.active.length kept).take point))
        (layout.cutActive kept hk hc).toMemory := by
  have ht : (cutSteps true layout.activeFirst layout.active.length kept).take point =
      clearSteps (.active layout.activeFirst) kept (min point (layout.active.length - kept)) := by
    have hn : blockName true layout.activeFirst layout.active.length =
        .active layout.activeFirst := rfl
    rw [cutSteps, hn, if_pos rfl, append_nil, take_clearSteps]
  rw [ht]
  by_cases hz : point = 0
  · left
    rw [hz, Nat.zero_min]
    exact h.recovers
  · right
    exact (h.cutActive hk hc (by omega) (by omega)).recovers

theorem afterAll_dropSteps (disk : Disk) (names : List SegmentName) :
    disk.afterAll (names.flatMap dropSteps) = disk.dropAll names := by
  induction names generalizing disk with
  | nil => rfl
  | cons name names ih =>
    rw [flatMap_cons, afterAll_append, ih]
    rfl

theorem length_dropSteps (names : List SegmentName) :
    (names.flatMap dropSteps).length = 2 * names.length := by
  simp [dropSteps, Nat.mul_comm]

theorem afterAll_cutClosedSteps (disk : Disk) (first length kept : Nat) :
    disk.afterAll (cutClosedSteps first length kept) = disk.cutClosed first length kept := by
  unfold cutClosedSteps Disk.cutClosed
  split
  · rfl
  · rw [cutSteps, afterAll_append]
    rfl

theorem length_cutClosedSteps (first length kept : Nat) :
    (cutClosedSteps first length kept).length =
      if kept = length then 0 else length - kept + 2 := by
  unfold cutClosedSteps
  split
  · rfl
  · simp [cutSteps, clearSteps]

theorem Directory.dropActive {tail : List LogMeta} (h : Directory config layout (some tail) disk)
    (hn : layout.active = []) :
    Directory config layout none (disk.dropAll [.active layout.activeFirst]) := by
  have hl : Leftover config layout [.active layout.activeFirst] disk := {
    fields_eq := h.fields_eq
    closed_hold := h.closed_hold
    active_eq_nil := hn
    closed_iff := fun range => by simp [h.closed_iff range]
    active_iff := fun first => by simp [h.active_iff first]
    apart := by simp }
  exact hl.dropAll

theorem length_rangesOf (base : Nat) (blocks : List (List Entry)) :
    (rangesOf base blocks).length = blocks.length := by
  induction blocks generalizing base with
  | nil => rfl
  | cons block blocks ih => rw [rangesOf, length_cons, ih, length_cons]

theorem length_closedOf (base : Nat) (blocks : List (List Entry)) :
    (closedOf config base blocks).length = blocks.length := by
  induction blocks generalizing base with
  | nil => rfl
  | cons block blocks ih => rw [closedOf, length_cons, ih, length_cons]

theorem Layout.length_droppedNames (layout : Layout Entry) (base : Nat)
    (behind : List (List Entry)) :
    (layout.droppedNames base behind).length = 1 + behind.length := by
  rw [droppedNames, length_cons, length_reverse, namesOf, length_map, length_rangesOf, Nat.add_comm]

section

variable (cut : CutPoint layout)

theorem CutPoint.filter_firstIndex :
    ((closedOf config layout.base layout.closed).filter fun segment =>
      segment.firstIndex ≤ cut.lastKept) =
        closedOf config layout.base (cut.front ++ [cut.block]) := by
  have hkept := cut.kept_pos
  have hle := cut.kept_le
  have hspl : closedOf config layout.base layout.closed =
      closedOf config layout.base (cut.front ++ [cut.block]) ++
        closedOf config (cut.start + cut.block.length) cut.behind := by
    rw [cut.closed_eq, ← singleton_append, ← append_assoc, closedOf_append]
    simp [CutPoint.start, Nat.add_assoc]
  have hfrt : ∀ segment ∈ closedOf config layout.base (cut.front ++ [cut.block]),
      segment.firstIndex ≤ cut.start := by
    intro segment hseg
    rw [closedOf_append] at hseg
    rcases mem_append.mp hseg with hseg | hseg
    · exact (lt_firstIndex_of_mem_closedOf cut.front_ne_nil hseg).le
    · rw [mem_singleton.mp hseg]
      rfl
  rw [hspl, filter_append]
  have hkeep : ((closedOf config layout.base (cut.front ++ [cut.block])).filter fun segment =>
      segment.firstIndex ≤ cut.lastKept) =
        closedOf config layout.base (cut.front ++ [cut.block]) := by
    refine filter_eq_self.mpr fun segment hseg => decide_eq_true ?_
    have := hfrt segment hseg
    simp only [CutPoint.lastKept]
    omega
  have hdrop : ((closedOf config (cut.start + cut.block.length) cut.behind).filter fun segment =>
      segment.firstIndex ≤ cut.lastKept) = [] := by
    refine filter_eq_nil_iff.mpr fun segment hseg => ?_
    have := le_firstIndex_of_mem_closedOf hseg
    rw [decide_eq_true_eq, CutPoint.lastKept]
    omega
  rw [hkeep, hdrop, append_nil]

theorem CutPoint.clearedSlots_eq :
    Structural.clearedSlots (layout.toLog config) cut.lastKept = cut.block.length - cut.kept := by
  have hpos := cut.start_pos
  have hkept := cut.kept_pos
  have hfst : (layout.toLog config).firstIndex ≤ cut.lastKept := cut.firstIndex_le
  have hlast : (closedOf config layout.base (cut.front ++ [cut.block])).getLast? =
      some (segmentOf config false cut.start cut.block) := by
    simp [closedOf_append, closedOf, CutPoint.start]
  rw [Structural.clearedSlots, if_pos hfst]
  rw [show (layout.toLog config).closedSegments =
    closedOf config layout.base layout.closed from rfl, cut.filter_firstIndex, hlast]
  simp only [segmentOf, CutPoint.lastKept]
  omega

theorem CutPoint.droppedSegments_eq :
    Structural.droppedSegments (layout.toLog config) cut.lastKept = 1 + cut.behind.length := by
  have hlen := congrArg length (@filter_firstIndex _ config _ cut)
  have hall := @List.length_eq_countP_add_countP _ (fun segment : Segment =>
      decide (segment.firstIndex ≤ cut.lastKept)) (closedOf config layout.base layout.closed)
  rw [length_closedOf, cut.closed_eq, length_append, length_cons, ← cut.closed_eq] at hall
  rw [← countP_eq_length_filter, length_closedOf, length_append, length_singleton] at hlen
  have hnot : ¬ cut.lastKept < (layout.toLog config).firstIndex :=
    Nat.not_lt.mpr cut.firstIndex_le
  have hcnt : (layout.toLog config).closedSegments.countP (fun segment =>
      decide (cut.lastKept < segment.firstIndex ∨
        cut.lastKept < (layout.toLog config).firstIndex)) =
      (closedOf config layout.base layout.closed).countP (fun segment =>
        decide ¬ decide (segment.firstIndex ≤ cut.lastKept) = true) := by
    refine countP_congr fun segment _ => ?_
    simp only [decide_eq_true_eq, hnot, or_false, Nat.not_le]
  rw [Structural.droppedSegments, hcnt]
  omega

variable {point : Nat}

section

variable {tail : List LogMeta} (h : Directory config layout (some tail) disk)
include h

theorem Directory.cutAt_recovers
    (hpt : (if cut.kept = cut.block.length then 0 else cut.block.length - cut.kept + 2) +
      2 * (1 + cut.behind.length) ≤ point) :
    Recovers config (disk.afterAll ((cut.steps config).take point)) cut.remaining.toMemory := by
  have hd := (h.leftover_cutAt cut).dropAll
  rw [CutPoint.cutDisk, ← afterAll_cutClosedSteps, ← afterAll_dropSteps, ← afterAll_append] at hd
  have hs : cut.steps config =
      (cutClosedSteps cut.start cut.block.length cut.kept ++
        cut.droppedNames.flatMap dropSteps) ++ createSteps config cut.remaining.activeFirst := by
    rw [CutPoint.steps, dropSuffixSteps, append_assoc, cut.activeFirst_remaining]
    rfl
  rw [hs]
  refine hd.creating ?_
  rwa [length_append, length_cutClosedSteps, length_dropSteps, CutPoint.droppedNames,
    layout.length_droppedNames]

theorem Directory.cleared_recovers (hp : 2 * (1 + layout.closed.length) ≤ point) : Recovers config
      (disk.afterAll ((dropSuffixSteps config (layout.droppedNames layout.base layout.closed)
        layout.firstIndex).take point)) layout.cleared.toMemory := by
  have hd := h.leftover_nil.dropAll
  rw [← afterAll_dropSteps] at hd
  refine hd.creating ?_
  rwa [length_dropSteps, layout.length_droppedNames]

theorem Directory.dropActive_recovers (hn : layout.active = []) (base next : Nat)
    (behind : List (List Entry)) : Recovers config
      (disk.afterAll ((dropSuffixSteps config (layout.droppedNames base behind) next).take 2))
      layout.toMemory :=
  (h.dropActive hn).recovers

end

theorem Layout.lt_firstIndex_iff_nil (layout : Layout Entry) :
    (∃ active ∈ (layout.toLog config).activeSegment, active.lastIndex < active.firstIndex) ↔
      layout.active = [] := by
  have hp := layout.activeFirst_pos
  simp only [toLog, segmentOf, mem_def, Option.some.injEq, exists_eq_left', ← length_eq_zero_iff]
  omega

theorem Directory.drop_recovers {tail : List LogMeta} {lastIndexKept : Nat}
    (h : Directory config layout (some tail) disk) (hfst : layout.firstIndex ≤ lastIndexKept + 1)
    (hlt : lastIndexKept < layout.lastIndex)
    (hdrop : lastIndexKept < layout.activeFirst ∨ lastIndexKept < layout.firstIndex)
    (hsafe : point = 0 ∨ Structural.stepsToDrop (layout.toLog config) lastIndexKept ≤ point ∨
      (point = 2 ∧ Structural.clearedSlots (layout.toLog config) lastIndexKept = 0 ∧
        ∃ active ∈ (layout.toLog config).activeSegment, active.lastIndex < active.firstIndex)) :
    Recovers config (disk.crashed (truncateSuffix config (layout.toLog config) lastIndexKept) point)
        layout.toMemory ∨
      Recovers config
        (disk.crashed (truncateSuffix config (layout.toLog config) lastIndexKept) point)
        (layout.toMemory.truncateSuffix lastIndexKept) := by
  have hnot : ¬ layout.lastIndex ≤ lastIndexKept := Nat.not_le.mpr hlt
  rw [layout.lt_firstIndex_iff_nil] at hsafe
  by_cases hempty : layout.firstIndex = lastIndexKept + 1
  · rw [crashed_of_runsTo (h.truncateSuffix_nil hempty hnot), ← toMemory_cleared hempty hlt]
    have hclr : Structural.clearedSlots (layout.toLog config) lastIndexKept = 0 :=
      if_neg (by simp only [toLog]; omega)
    have hdropped : Structural.droppedSegments (layout.toLog config) lastIndexKept =
        1 + layout.closed.length := by
      have hall : ∀ segment ∈ (layout.toLog config).closedSegments,
          decide (lastIndexKept < segment.firstIndex ∨
            lastIndexKept < (layout.toLog config).firstIndex) = true := by
        intro segment _
        refine decide_eq_true (.inr ?_)
        simp only [toLog]
        omega
      rw [Structural.droppedSegments, countP_eq_length.mpr hall]
      simp only [toLog, length_closedOf]
    rw [Structural.stepsToDrop, hclr, if_pos rfl, Nat.zero_add, hdropped] at hsafe
    rcases hsafe with rfl | hpt | ⟨rfl, -, hnil⟩
    · exact .inl h.recovers
    · exact .inr (h.cleared_recovers hpt)
    · exact .inl (h.dropActive_recovers hnil ..)
  · have hle : layout.firstIndex ≤ lastIndexKept := by omega
    have hact : lastIndexKept < layout.activeFirst := by omega
    obtain ⟨cut, disk', rfl, hrun, -⟩ := h.truncateSuffix_closed hle hact hnot
    have hkept := cut.kept_le
    rw [crashed_of_runsTo hrun, ← cut.toMemory_remaining hlt]
    rw [Structural.stepsToDrop, cut.clearedSlots_eq, cut.droppedSegments_eq] at hsafe
    rcases hsafe with rfl | hpt | ⟨rfl, hzero, hnil⟩
    · exact .inl h.recovers
    · refine .inr (h.cutAt_recovers cut (le_trans ?_ hpt))
      split <;> split <;> omega
    · have hall : cut.kept = cut.block.length := by omega
      rw [CutPoint.steps, cutClosedSteps, if_pos hall, nil_append]
      exact .inl (h.dropActive_recovers hnil ..)

end

variable {log : SegmentLog} {memory : InMemoryLog Entry}

theorem Stores.crash_recovers (h : Stores config disk log memory) {operation : Structural Entry}
    (hadm : operation.Admissible config log) (hsafe : operation.CrashSafe log point) :
    Recovers config (disk.crashed (operation.run config log) point) memory ∨
      Recovers config (disk.crashed (operation.run config log) point)
        (operation.onMemory memory) := by
  obtain ⟨layout, n, hdir, rfl, rfl⟩ := h
  cases operation with
  | roll batch =>
    obtain ⟨hbat, hexc⟩ := hadm
    have hact : layout.active ≠ [] := by
      intro hnil
      have hroll := hexc _ rfl
      rw [hnil, (exceeds_segmentOf ..).mpr hbat.fits] at hroll
      cases hroll
    left
    rw [Structural.run, crashed_of_runsTo (hdir.roll_runsTo hact)]
    exact hdir.roll_recovers hact hsafe
  | truncatePrefix firstIndexKept =>
    by_cases hnop : firstIndexKept ≤ layout.firstIndex
    · left
      have hrun : RunsTo (SegmentLog.truncatePrefix config (layout.toLog config)
          firstIndexKept) disk [] (layout.toLog config) disk := congrFun (if_pos hnop) disk
      rw [Structural.run, crashed_of_runsTo hrun, take_nil]
      exact hdir.recovers
    · obtain ⟨advanced, hrun, hdir', hmemory⟩ :=
        hdir.truncatePrefix_runsTo (Nat.lt_of_not_le hnop) hadm
      rw [Structural.run, crashed_of_runsTo hrun]
      cases point with
      | zero => exact .inl hdir.recovers
      | succ point =>
        right
        rw [Structural.onMemory, ← hmemory, take_of_length_le (by simp)]
        exact hdir'.recovers
  | truncateSuffix lastIndexKept =>
    have hfst : layout.firstIndex ≤ lastIndexKept + 1 := hadm
    by_cases hnop : layout.lastIndex ≤ lastIndexKept
    · left
      have hrun : RunsTo (SegmentLog.truncateSuffix config (layout.toLog config)
          lastIndexKept) disk [] (layout.toLog config) disk := congrFun (if_pos hnop) disk
      rw [Structural.run, crashed_of_runsTo hrun, take_nil]
      exact hdir.recovers
    have hlt : lastIndexKept < layout.lastIndex := Nat.lt_of_not_le hnop
    by_cases hact : layout.activeFirst ≤ lastIndexKept ∧ layout.firstIndex ≤ lastIndexKept
    · have hpos := layout.activeFirst_pos
      have hlast := layout.lastIndex_eq
      obtain ⟨kept, rfl⟩ : ∃ kept, lastIndexKept = layout.activeFirst + kept - 1 :=
        ⟨lastIndexKept + 1 - layout.activeFirst, by omega⟩
      have hkept : 0 < kept := by omega
      have hcut : kept < layout.active.length := by omega
      have hlive : layout.firstIndex < layout.activeFirst + kept := by omega
      rw [Structural.run, crashed_of_runsTo (hdir.truncateSuffix_active hlive hkept hcut),
        Structural.onMemory, ← toMemory_cutActive hlive hcut hact.2]
      exact hdir.cutActive_recovers hlive hcut
    · refine hdir.drop_recovers hfst hlt (by omega) ?_
      rcases hsafe with hle | ⟨active, hmem, hact'⟩ | hsafe
      · exact absurd hle hnop
      · obtain rfl := some.inj hmem
        exact absurd hact' hact
      · exact hsafe

/-- In every state that appends and truncations reach, a crash at a safe point of
a structural operation is recovered from: the next start finds the log before the
operation or the log after it. -/
theorem structural_crash_recovers {operations : List (Operation Entry)}
    (hadmissible : AllAdmissible config {} operations)
    {steps : List Step} {log : SegmentLog} {disk : Disk}
    (hrun : RunsTo (Operation.start config operations) {} steps log disk)
    {operation : Structural Entry} (hoperation : operation.Admissible config log) {point : Nat}
    (hsafe : operation.CrashSafe log point) :
    Recovers config (disk.crashed (operation.run config log) point)
        (allOnMemory config {} operations) ∨
      Recovers config (disk.crashed (operation.run config log) point)
        (operation.onMemory (allOnMemory config {} operations)) := by
  obtain ⟨steps', log', disk', hr', hs⟩ := exists_run config hadmissible
  obtain ⟨-, rfl, rfl⟩ := hrun.unique hr'
  exact hs.crash_recovers hoperation hsafe

end

def onePage : Config Nat := unaryConfig false 0 1 Nat.one_pos

def fillSegment : List (Operation Nat) := [.append (range' 1 64)]

theorem fillSegment_admissible : AllAdmissible onePage {} fillSegment :=
  ⟨⟨⟨by decide, by decide⟩,
    by simp [range', Numbered, onePage, unaryConfig, unaryFormat], nofun⟩, trivial⟩

theorem roll_admissible : (Structural.roll [65]).Admissible onePage
    ((fresh.append (range' 1 64)).toLog onePage) := by
  refine ⟨⟨⟨by decide, by decide⟩, ⟨rfl, trivial⟩, nofun⟩, ?_⟩
  rintro active ha
  obtain rfl := some.inj ha
  decide

theorem structural_crash_recovers_roll : ∃ steps log disk,
      RunsTo (Operation.start onePage fillSegment) {} steps log disk ∧
      (Structural.roll [65]).Admissible onePage log ∧ (Structural.roll [65]).CrashSafe log 2 ∧
      (Recovers onePage (disk.crashed ((Structural.roll [65]).run onePage log) 2)
          (allOnMemory onePage {} fillSegment) ∨
        Recovers onePage (disk.crashed ((Structural.roll [65]).run onePage log) 2)
          ((Structural.roll [65]).onMemory (allOnMemory onePage {} fillSegment))) := by
  obtain ⟨steps, disk, hr, -⟩ := exists_run_append onePage fillSegment_admissible.1
  have hs : (Structural.roll [65]).CrashSafe
      ((fresh.append (range' 1 64)).toLog onePage) 2 := by
    intro heq
    cases heq
  exact ⟨steps, _, disk, hr, roll_admissible, hs,
    structural_crash_recovers fillSegment_admissible hr roll_admissible hs⟩

/-- A crash between the two renames of this roll: the next start stops at the
assertion that opens the data file. -/
theorem roll_crash_openData : AllAdmissible onePage {} fillSegment ∧ ∃ steps log disk,
      RunsTo (Operation.start onePage fillSegment) {} steps log disk ∧
      (Structural.roll [65]).Admissible onePage log ∧
      (SegmentLog.init onePage
        (disk.crashed ((Structural.roll [65]).run onePage log) 1)).result = .error .openData := by
  obtain ⟨steps, disk, hr, hd⟩ := exists_run_append onePage fillSegment_admissible.1
  refine ⟨fillSegment_admissible, steps, _, disk, hr, roll_admissible, ?_⟩
  rw [Structural.run, crashed_of_runsTo (hd.roll_runsTo nofun)]
  exact hd.roll_crash_fails

end MySuperLedger.Storage
