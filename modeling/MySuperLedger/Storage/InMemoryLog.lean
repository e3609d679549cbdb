import MySuperLedger.Storage.Layout

/-! # The log in memory

`storage::InMemoryLog`, a vector of entries with its first index, and what it
means that a segmented log agrees with it. A layout stands between the two: its
entries from the first index on are the vector.
-/

namespace MySuperLedger.Storage

open Collections Effects List Layout

structure InMemoryLog (Entry : Type) where
  log : List Entry := []
  firstIndex : Nat := 1
  lastIndex : Nat := 0
  term : Nat := 0
  voteFor : Nat := 0

namespace InMemoryLog

variable {Entry : Type} (config : Config Entry)

variable (memory : InMemoryLog Entry)

def appendEntry (entry : Entry) : InMemoryLog Entry × Bool :=
  if memory.lastIndex + 1 ≠ config.format.index entry then (memory, false)
  else
    ({ memory with lastIndex := memory.lastIndex + 1, log := memory.log ++ [entry] }, true)

def appendEntries (memory : InMemoryLog Entry) : List Entry → InMemoryLog Entry × Bool
  | [] => (memory, true)
  | entry :: entries =>
    match memory.appendEntry config entry with
    | (memory, true) => memory.appendEntries entries
    | (memory, false) => (memory, false)

/-- `getEntry`; `none` is the answer `false`, and `dummy` the entry of index 0. -/
def getEntry (dummy : Entry) (memory : InMemoryLog Entry) (index : Nat) : Option Entry :=
  if index = 0 then some dummy
  else if index < memory.firstIndex ∨ memory.lastIndex < index then none
  else memory.log[index - memory.firstIndex]?

def truncatePrefix (firstIndexKept : Nat) : InMemoryLog Entry :=
  if firstIndexKept ≤ memory.firstIndex then memory
  else if memory.lastIndex < firstIndexKept then
    { memory with firstIndex := firstIndexKept, lastIndex := firstIndexKept - 1, log := [] }
  else
    { memory with
      firstIndex := firstIndexKept
      log := memory.log.drop (firstIndexKept - memory.firstIndex) }

def truncateSuffix (lastIndexKept : Nat) : InMemoryLog Entry :=
  if memory.lastIndex ≤ lastIndexKept then memory
  else if lastIndexKept < memory.firstIndex then
    { memory with firstIndex := lastIndexKept + 1, lastIndex := lastIndexKept, log := [] }
  else
    { memory with
      lastIndex := lastIndexKept
      log := memory.log.take (lastIndexKept + 1 - memory.firstIndex) }

def setCurrentTerm (term : Nat) : InMemoryLog Entry :=
  { memory with term := term }

def setVoteFor (voteFor : Nat) : InMemoryLog Entry :=
  { memory with voteFor := voteFor }

end InMemoryLog

section

variable {Entry : Type} (config : Config Entry)

/-- The segmented log answers as the log in memory does. -/
structure Agrees (disk : Disk) (log : SegmentLog) (memory : InMemoryLog Entry) : Prop where
  firstIndex_eq : log.firstIndex = memory.firstIndex
  lastIndex_eq : log.lastIndex = memory.lastIndex
  currentTerm_eq : log.currentTerm = memory.term
  voteFor_eq : log.voteFor = memory.voteFor
  getEntry_eq : ∀ dummy index, 1 ≤ index →
    log.getEntry config disk index = .ok (memory.getEntry dummy index)

def Layout.toMemory (layout : Layout Entry) : InMemoryLog Entry where
  log := layout.entries.drop (layout.firstIndex - layout.base)
  firstIndex := layout.firstIndex
  lastIndex := layout.lastIndex
  term := layout.currentTerm
  voteFor := layout.voteFor

variable {config} {disk : Disk} {base : Nat} {blocks : List (List Entry)}

theorem exists_of_mem_closedOf {segment : Segment} (hm : segment ∈ closedOf config base blocks) :
    ∃ front block behind, blocks = front ++ block :: behind ∧
      segment = segmentOf config false (base + front.flatten.length) block := by
  induction blocks generalizing base with
  | nil => cases hm
  | cons block blocks ih =>
    rcases mem_cons.mp hm with rfl | hm
    · exact ⟨[], block, blocks, rfl, rfl⟩
    · obtain ⟨front, found, behind, rfl, rfl⟩ := ih hm
      refine ⟨block :: front, found, behind, rfl, ?_⟩
      rw [flatten_cons, length_append, Nat.add_assoc]

theorem le_firstIndex_of_mem_closedOf {segment : Segment}
    (hm : segment ∈ closedOf config base blocks) : base ≤ segment.firstIndex := by
  obtain ⟨front, block, behind, -, rfl⟩ := exists_of_mem_closedOf hm
  exact Nat.le_add_right ..

variable {index : Nat} {layout : Layout Entry} {tail : List LogMeta}

/-- The closed segment before `upper_bound` is the one whose block reaches the index. -/
theorem getLast?_filter_closedOf (hold : HoldAll config disk base blocks) (hle : base ≤ index)
    (hlt : index < base + blocks.flatten.length) :
    ∃ front block behind, blocks = front ++ block :: behind ∧
      base + front.flatten.length ≤ index ∧ index < base + front.flatten.length + block.length ∧
      ((closedOf config base blocks).filter fun closed => closed.firstIndex ≤ index).getLast? =
        some (segmentOf config false (base + front.flatten.length) block) ∧
      ∃ tail, Holds config disk
        (segmentOf config false (base + front.flatten.length) block).name
        (base + front.flatten.length) block tail := by
  induction blocks generalizing base with
  | nil =>
    simp only [flatten_nil, length_nil] at hlt
    omega
  | cons block blocks ih =>
    obtain ⟨hhold, hrest⟩ := hold
    have hhead : (segmentOf config false base block).firstIndex ≤ index := hle
    rw [flatten_cons, length_append] at hlt
    rw [closedOf, filter_cons_of_pos (by simpa using hhead)]
    by_cases hin : index < base + block.length
    · have hbeh : ((closedOf config (base + block.length) blocks).filter fun closed =>
          closed.firstIndex ≤ index) = [] := by
        refine filter_eq_nil_iff.mpr fun segment hmem => ?_
        have := le_firstIndex_of_mem_closedOf hmem
        simp only [decide_eq_true_eq]
        omega
      exact ⟨[], block, blocks, rfl, hle, hin, by simp [hbeh], hhold⟩
    · obtain ⟨front, found, behind, rfl, hfst, hlast, hfnd, hhold⟩ :=
        ih hrest (by omega) (by omega)
      have hst : base + block.length + front.flatten.length =
          base + (block :: front).flatten.length := by
        simp [Nat.add_assoc]
      rw [hst] at hfst hlast hfnd hhold
      refine ⟨block :: front, found, behind, rfl, hfst, hlast, ?_, hhold⟩
      rw [getLast?_cons, hfnd]
      rfl

/-- The segment that holds `index`, its block, and where the block lies in the log. -/
structure Located (config : Config Entry) (disk : Disk) (layout : Layout Entry) (index : Nat)
    (isActive : Bool) (first : Nat) (block : List Entry) : Prop where
  getSegment_eq :
    (layout.toLog config).getSegment index = .ok (some (segmentOf config isActive first block))
  holds : ∃ tail, Holds config disk (segmentOf config isActive first block).name first block tail
  pos : 0 < first
  le : first ≤ index
  lt : index < first + block.length
  entries_eq : ∃ before behind, layout.entries = before ++ (block ++ behind) ∧
    layout.base + before.length = first

theorem Located.getElem?_eq {first : Nat} {isActive : Bool} {block : List Entry}
    (h : Located config disk layout index isActive first block) :
    layout.entries[index - layout.base]? = block[index - first]? := by
  obtain ⟨before, behind, he, hf⟩ := h.entries_eq
  have hle := h.le
  have hlt := h.lt
  have hp : index - layout.base - before.length = index - first := by omega
  rw [he, getElem?_append_right (by omega), hp,
    getElem?_append_left (by omega)]

section

variable (h : Directory config layout (some tail) disk)
include h

theorem Directory.exists_located
    (hfst : layout.firstIndex ≤ index) (hlast : index ≤ layout.lastIndex) :
    ∃ isActive first block, Located config disk layout index isActive first block := by
  have hbase := layout.isLive.1
  have hpos := layout.base_pos
  have hlastIndex := layout.lastIndex_eq
  have hactivePos := layout.activeFirst_pos
  have hnil : Segment.isEmpty (layout.toLog config).firstIndex (layout.toLog config).lastIndex =
      false := by
    simp only [Segment.isEmpty, toLog, beq_eq_false_iff_ne]
    omega
  have hbds : ¬ (index < (layout.toLog config).firstIndex ∨
      (layout.toLog config).lastIndex < index) := by
    simp only [toLog]
    omega
  by_cases hact : layout.activeFirst ≤ index
  · -- the active segment holds the entry
    have hfilt : (layout.toLog config).activeSegment.filter
        (fun active => active.firstIndex ≤ index) =
          some (segmentOf config true layout.activeFirst layout.active) := by
      simp [toLog, segmentOf, hact]
    exact ⟨true, layout.activeFirst, layout.active, {
      getSegment_eq := by
        simp only [SegmentLog.getSegment, hnil, hbds, if_false, Bool.false_eq_true, hfilt]
      holds := ⟨tail, h.active_holds tail rfl⟩
      pos := hactivePos
      le := hact
      lt := by omega
      entries_eq := ⟨layout.closed.flatten, [], by simp [entries], rfl⟩ }⟩
  · -- it lies in a closed one
    have hfilt : (layout.toLog config).activeSegment.filter
        (fun active => active.firstIndex ≤ index) = none := by
      simpa [toLog, segmentOf] using hact
    have hlt : index < layout.base + layout.closed.flatten.length := Nat.lt_of_not_le hact
    obtain ⟨front, block, behind, hcl, hle, hlt, hfnd, hhold⟩ :=
      getLast?_filter_closedOf h.closed_hold (hbase.trans hfst) hlt
    exact ⟨false, layout.base + front.flatten.length, block, {
      getSegment_eq := by
        simp only [SegmentLog.getSegment, hnil, hbds, if_false, Bool.false_eq_true, hfilt]
        rw [show (layout.toLog config).closedSegments = closedOf config layout.base layout.closed
          from rfl, hfnd]
      holds := hhold
      pos := by omega
      le := hle
      lt := hlt
      entries_eq := ⟨front.flatten, behind.flatten ++ layout.active, by simp [entries, hcl], rfl⟩ }⟩

theorem Directory.getSegment (hf : layout.firstIndex ≤ index) (hlast : index ≤ layout.lastIndex) :
    ∃ segment, (layout.toLog config).getSegment index = .ok (some segment) ∧
      segment.getEntry config disk index = .ok layout.entries[index - layout.base]? := by
  obtain ⟨isActive, first, block, hl⟩ := h.exists_located hf hlast
  obtain ⟨records, hh⟩ := hl.holds
  have hp : index - first < block.length :=
    Nat.sub_lt_left_of_lt_add hl.le hl.lt
  have hg := hh.getEntry hl.pos (getElem?_eq_getElem hp)
  rw [Nat.add_sub_cancel' hl.le, ← getElem?_eq_getElem hp] at hg
  refine ⟨_, hl.getSegment_eq, ?_⟩
  rw [hg, hl.getElem?_eq]

theorem Directory.agrees : Agrees config disk (layout.toLog config) layout.toMemory where
  firstIndex_eq := rfl
  lastIndex_eq := rfl
  currentTerm_eq := rfl
  voteFor_eq := rfl
  getEntry_eq := by
    intro dummy index hi
    have hne : index ≠ 0 := by omega
    have hbase := layout.isLive.1
    by_cases hb : index < layout.firstIndex ∨ layout.lastIndex < index
    · have hn : (layout.toLog config).getSegment index = .ok none := by
        simp only [SegmentLog.getSegment, toLog, hb, if_true, ite_self]
      simp only [SegmentLog.getEntry, hn, InMemoryLog.getEntry, hne, if_false, toMemory,
        hb, if_true]
      rfl
    · have hf : layout.firstIndex ≤ index := by omega
      have hl : index ≤ layout.lastIndex := by omega
      obtain ⟨segment, hs, hg⟩ := h.getSegment hf hl
      have hp : layout.firstIndex - layout.base + (index - layout.firstIndex) =
          index - layout.base := by omega
      simp only [SegmentLog.getEntry, hs, bind, Except.bind, hg, InMemoryLog.getEntry, hne,
        if_false, toMemory, hb, getElem?_drop, hp]

end

end

end MySuperLedger.Storage
