import MySuperLedger.Storage.Writes

/-! # Truncating the log

`truncatePrefix` writes the new first index and leaves the files alone: the
segments before it become retained ones. `truncateSuffix` cuts inside the active
segment, or inside a closed one with everything behind it dropped, or drops all
segments if nothing of the log is left.
-/

namespace MySuperLedger.Storage

open Collections Effects List Option AList Segment Layout
open Program (RunsTo)

variable {Entry : Type} {config : Config Entry} {disk : Disk} {layout : Layout Entry}

/-! ## The prefix -/

variable {dead live : List (List Entry)} {firstIndexKept base : Nat}

/-- The closed segments that end before `firstIndexKept`, and the others. -/
theorem exists_dead_live (firstIndexKept : Nat) {base : Nat} (hbase : 0 < base)
    (blocks : List (List Entry)) :
    ∃ dead live, blocks = dead ++ live ∧
      (closedOf config base blocks).dropWhile (fun segment => segment.lastIndex < firstIndexKept) =
        closedOf config (base + dead.flatten.length) live ∧
      (dead ≠ [] → base + dead.flatten.length ≤ firstIndexKept) ∧
      ∀ block ∈ live.head?, firstIndexKept < base + dead.flatten.length + block.length := by
  induction blocks generalizing base with
  | nil => exact ⟨[], [], rfl, rfl, fun h => absurd rfl h, by simp⟩
  | cons block blocks ih =>
    by_cases hdead : base + block.length - 1 < firstIndexKept
    · obtain ⟨dead, live, hspl, hdrop, hpre, hlive⟩ := ih (Nat.add_pos_left hbase block.length)
      refine ⟨block :: dead, live, by rw [hspl, cons_append], ?_, ?_, ?_⟩
      · rw [closedOf, dropWhile_cons_of_pos (by exact decide_eq_true hdead), hdrop,
          flatten_cons, length_append, Nat.add_assoc]
      · intro _
        rw [flatten_cons, length_append, ← Nat.add_assoc]
        cases dead with
        | nil =>
          simp only [flatten_nil, length_nil]
          omega
        | cons head dead => exact hpre (cons_ne_nil _ _)
      · rwa [flatten_cons, length_append, ← Nat.add_assoc]
    · refine ⟨[], block :: blocks, rfl, ?_, fun h => absurd rfl h, ?_⟩
      · rw [closedOf, dropWhile_cons_of_neg (by exact fun h => hdead (of_decide_eq_true h))]
        rfl
      · rintro head hhead
        obtain rfl := some.inj hhead
        simp only [flatten_nil, length_nil]
        omega

/-- The ranges of blocks that are dropped from the front lie behind those dropped before. -/
theorem Layout.retained_sorted_append (hc : layout.closed = dead ++ live) :
    (layout.retained ++ rangesOf layout.base dead).Pairwise
      fun left right => left.1 < right.1 := by
  have hd : ∀ block ∈ dead, block ≠ [] := fun block hb =>
    layout.closed_ne_nil block (hc ▸ mem_append_left _ hb)
  refine pairwise_append.mpr ⟨layout.retained_sorted, rangesOf_sorted hd, ?_⟩
  intro left hl right hr
  have := layout.retained_before left hl
  have := rangesOf_bounds hd hr
  omega

theorem Layout.retained_before_append (hc : layout.closed = dead ++ live) :
    ∀ range ∈ layout.retained ++ rangesOf layout.base dead,
      range.1 ≤ range.2 ∧ range.2 < layout.base + dead.flatten.length := by
  have hd : ∀ block ∈ dead, block ≠ [] := fun block hb =>
    layout.closed_ne_nil block (hc ▸ mem_append_left _ hb)
  intro range hr
  rcases mem_append.mp hr with hr | hr
  · have := layout.retained_before range hr
    omega
  · have := rangesOf_bounds hd hr
    omega

theorem Layout.isLive_advance (hcl : layout.closed = dead ++ live)
    (hp : layout.base + dead.flatten.length ≤ firstIndexKept) (hlive : ∀ block ∈ live.head?,
      firstIndexKept < layout.base + dead.flatten.length + block.length)
    (hl : firstIndexKept ≤ layout.lastIndex) :
    IsLive firstIndexKept (layout.base + dead.flatten.length) live layout.active := by
  refine ⟨hp, .inl ?_⟩
  cases live with
  | cons block live => exact hlive block rfl
  | nil =>
    have hpos := layout.base_pos
    rw [lastIndex, entries, hcl] at hl
    simp only [append_nil, length_append] at hl
    simp only [headD_nil]
    omega

/-- The layout without the prefix; the blocks `dead` become retained segments. -/
def Layout.advance (layout : Layout Entry) (firstIndexKept : Nat) (dead live : List (List Entry))
    (hclosed : layout.closed = dead ++ live)
    (hbefore : layout.base + dead.flatten.length ≤ firstIndexKept)
    (hlive : ∀ block ∈ live.head?,
      firstIndexKept < layout.base + dead.flatten.length + block.length)
    (hlast : firstIndexKept ≤ layout.lastIndex) : Layout Entry where
  currentTerm := layout.currentTerm
  voteFor := layout.voteFor
  firstIndex := firstIndexKept
  retained := layout.retained ++ rangesOf layout.base dead
  base := layout.base + dead.flatten.length
  closed := live
  active := layout.active
  base_pos := Nat.add_pos_left layout.base_pos _
  retained_sorted := layout.retained_sorted_append hclosed
  retained_before := layout.retained_before_append hclosed
  closed_ne_nil block hblock := layout.closed_ne_nil block (hclosed ▸ mem_append_right _ hblock)
  isLive := layout.isLive_advance hclosed hbefore hlive hlast

theorem Layout.activeFirst_advance (hc : layout.closed = dead ++ live)
    (hb : layout.base + dead.flatten.length ≤ firstIndexKept) (hl : ∀ block ∈ live.head?,
      firstIndexKept < layout.base + dead.flatten.length + block.length)
    (hlast : firstIndexKept ≤ layout.lastIndex) :
    (layout.advance firstIndexKept dead live hc hb hl hlast).activeFirst =
      layout.activeFirst := by
  simp [activeFirst, advance, hc, Nat.add_assoc]

/-- `truncatePrefix` inside the log writes the small file and nothing else. -/
theorem Directory.truncatePrefix_runsTo {tail : Option (List LogMeta)}
    (h : Directory config layout tail disk) (hfst : layout.firstIndex < firstIndexKept)
    (hlast : firstIndexKept ≤ layout.lastIndex) :
    ∃ advanced : Layout Entry,
      RunsTo (SegmentLog.truncatePrefix config (layout.toLog config) firstIndexKept) disk
        [.setFirstIndex firstIndexKept] (advanced.toLog config)
        (disk.after (.setFirstIndex firstIndexKept)) ∧
      Directory config advanced tail (disk.after (.setFirstIndex firstIndexKept)) ∧
      advanced.toMemory = layout.toMemory.truncatePrefix firstIndexKept := by
  have hbase := layout.isLive.1
  obtain ⟨dead, live, hcl, hdrop, hdead, hlive⟩ :=
    @exists_dead_live _ config firstIndexKept _ layout.base_pos layout.closed
  have hpre : layout.base + dead.flatten.length ≤ firstIndexKept := by
    cases dead with
    | nil =>
      simp only [flatten_nil, length_nil]
      omega
    | cons block dead => exact hdead nofun
  have hact := activeFirst_advance hcl hpre hlive hlast
  have hlastIndex : (layout.advance firstIndexKept dead live hcl hpre hlive hlast).lastIndex =
      layout.lastIndex := by
    rw [lastIndex_eq, hact, layout.lastIndex_eq]
    rfl
  refine ⟨layout.advance firstIndexKept dead live hcl hpre hlive hlast, ?_, ?_, ?_⟩
  · have hlog : (layout.advance firstIndexKept dead live hcl hpre hlive hlast).toLog config =
        { layout.toLog config with
          firstIndex := firstIndexKept
          closedSegments := closedOf config (layout.base + dead.flatten.length) live } := by
      simp only [toLog, hact, hlastIndex]
      rfl
    have hnot : ¬ firstIndexKept ≤ (layout.toLog config).firstIndex := Nat.not_le.mpr hfst
    have hperf : RunsTo (perform (.setFirstIndex firstIndexKept)) disk
        [.setFirstIndex firstIndexKept] () (disk.after (.setFirstIndex firstIndexKept)) :=
      perform_runsTo trivial
    simp only [SegmentLog.truncatePrefix, hnot, if_false]
    refine hperf.bind ?_
    rw [show (layout.toLog config).closedSegments = closedOf config layout.base layout.closed
      from rfl, hdrop, hlog]
    cases live with
    | cons block live => rfl
    | nil =>
      have hkept : ¬ (segmentOf config true layout.activeFirst layout.active).lastIndex <
          firstIndexKept := by
        rw [layout.lastIndex_eq] at hlast
        exact Nat.not_lt.mpr hlast
      refine (RunsTo.require rfl _).bind_nil ?_
      rw [if_neg hkept]
      rfl
  · have hhold := h.closed_hold
    rw [hcl] at hhold
    exact {
      fields_eq := congrArg (fun fields => (fields.1, fields.2.1, some firstIndexKept)) h.fields_eq
      closed_hold := (holdAll_append.mp hhold).2.congr fun _ _ => ⟨rfl, rfl⟩
      active_holds := fun records hrecs => by
        rw [hact]
        exact (h.active_holds records hrecs).congr rfl rfl
      active_eq_nil := h.active_eq_nil
      closed_iff := fun range => by
        refine (h.closed_iff range).trans ?_
        rw [hcl, rangesOf_append, ← append_assoc]
        rfl
      active_iff := fun first => by
        rw [hact]
        exact h.active_iff first }
  · have hents : layout.entries = dead.flatten ++
        (layout.advance firstIndexKept dead live hcl hpre hlive hlast).entries := by
      simp [Layout.entries, hcl, Layout.advance]
    have hpos : layout.firstIndex - layout.base + (firstIndexKept - layout.firstIndex) =
        dead.flatten.length + (firstIndexKept - (layout.base + dead.flatten.length)) := by omega
    have hnot : ¬ firstIndexKept ≤ layout.toMemory.firstIndex := Nat.not_le.mpr hfst
    have hnot' : ¬ layout.toMemory.lastIndex < firstIndexKept := Nat.not_lt.mpr hlast
    simp only [InMemoryLog.truncatePrefix, hnot, hnot', if_false]
    simp only [toMemory, hlastIndex, drop_drop, hpos, hents, drop_length_add_append]
    rfl

/-! ## Cutting a segment -/

section

variable {name : SegmentName} {first : Nat} {entries : List Entry} {tail : List LogMeta}

def clearSteps (name : SegmentName) (kept n : Nat) : List Step :=
  (range' kept n).map fun position => .writeMeta name position [.blank]

variable {kept : Nat}

theorem forEach_clear_runsTo {n : Nat} (hn : kept + n ≤ (disk.metaOf name).length) :
    RunsTo (Program.forEach (range' kept n) fun position =>
        perform (.writeMeta name position [.blank]))
      disk (clearSteps name kept n) () (disk.cleared name kept n) := by
  induction n generalizing disk kept with
  | zero => rfl
  | succ n ih =>
    have ha : disk.allows (.writeMeta name kept [.blank]) := by
      simp only [Disk.allows, length_singleton]
      omega
    have hl : ((disk.after (.writeMeta name kept [.blank])).metaOf name).length =
        (disk.metaOf name).length := by
      rw [← @length_writeAt _ (disk.metaOf name) _ _ ha]
      simp [Disk.after, Disk.metaOf, lookup_insert]
    exact (perform_runsTo ha).bind (ih (by omega))

/-- The name of the files of a block with `length` entries. -/
def blockName (isActive : Bool) (first length : Nat) : SegmentName :=
  if isActive then .active first else .closed first (first + length - 1)

theorem name_segmentOf (isActive : Bool) :
    (segmentOf config isActive first entries).name = blockName isActive first entries.length := rfl

/-- The steps that cut a block behind its first `kept` entries. -/
def cutSteps (isActive : Bool) (first length kept : Nat) : List Step :=
  clearSteps (blockName isActive first length) kept (length - kept) ++
    if isActive then []
    else [.renameData (.closed first (first + length - 1))
        (some (.closed first (first + kept - 1))),
      .renameMeta (.closed first (first + length - 1)) (some (.closed first (first + kept - 1)))]

def Disk.cut (disk : Disk) (isActive : Bool) (first length kept : Nat) : Disk :=
  let cleared := disk.cleared (blockName isActive first length) kept (length - kept)
  if isActive then cleared
  else cleared.moved (.closed first (first + length - 1)) (some (.closed first (first + kept - 1)))

variable {isActive : Bool}

theorem Holds.cut
    (h : Holds config disk (blockName isActive first entries.length) first entries tail)
    (hp : 0 < first) (hcut : kept < entries.length) :
    Holds config (disk.cut isActive first entries.length kept) (blockName isActive first kept) first
      (entries.take kept) (blanks (entries.length - kept) ++ tail) := by
  have hc := h.cleared hp (show kept + (entries.length - kept) ≤ entries.length by omega)
    (by omega)
  have ht : (recordsOf config 0 entries ++ tail).drop (kept + (entries.length - kept)) = tail := by
    rw [Nat.add_sub_cancel' hcut.le, drop_left' (length_recordsOf ..)]
  rw [ht] at hc
  cases isActive with
  | true => exact hc
  | false => exact hc.moved _

theorem Holds.truncateSuffix_runsTo
    (h : Holds config disk (blockName isActive first entries.length) first entries tail)
    (hpos : 0 < first) (hkept : 0 < kept) (hcut : kept < entries.length) :
    RunsTo ((segmentOf config isActive first entries).truncateSuffix (first + kept - 1))
      disk (cutSteps isActive first entries.length kept)
      (segmentOf config isActive first (entries.take kept))
      (disk.cut isActive first entries.length kept) := by
  have hmeta : disk.metaOf (blockName isActive first entries.length) =
      recordsOf config 0 entries ++ tail := by
    rw [Disk.metaOf, h.records_eq]
    rfl
  have hnot : ¬ (segmentOf config isActive first entries).lastIndex ≤ first + kept - 1 := by
    simp only [segmentOf]
    omega
  have hcnt : (segmentOf config isActive first entries).lastIndex - (first + kept - 1) =
      entries.length - kept := by
    simp only [segmentOf]
    omega
  have hposition : first + kept - 1 + 1 - (segmentOf config isActive first entries).firstIndex =
      kept := by
    simp only [segmentOf]
    omega
  have hroom : kept + (entries.length - kept) ≤
      (disk.metaOf (blockName isActive first entries.length)).length := by
    simp only [hmeta, length_append, length_recordsOf]
    omega
  have hhold := h.cleared hpos (show kept + (entries.length - kept) ≤ entries.length by omega)
    (by omega)
  -- the last entry that stays says where the data ends
  obtain ⟨front, entry, hfrt⟩ : ∃ front entry, entries.take kept = front ++ [entry] := by
    rcases eq_nil_or_concat' (entries.take kept) with hnil | hcat
    · have := congrArg length hnil
      simp only [length_take, length_nil] at this
      omega
    · exact hcat
  have hlen : front.length + 1 = kept := by
    have := congrArg length hfrt
    simp only [length_take, length_append, length_singleton] at this
    omega
  have hlast : (segmentOf config isActive first (entries.take kept)).lastIndex =
      first + kept - 1 := by
    simp only [segmentOf, hfrt, length_append, length_singleton, hlen]
  have hidx : first + front.length = first + kept - 1 := by omega
  have hent : (entries.take kept)[front.length]? = some entry := by
    rw [hfrt]
    exact getElem?_concat_length
  have hget : Segment.getMeta
      (disk.cleared (blockName isActive first entries.length) kept (entries.length - kept))
      { segmentOf config isActive first entries with lastIndex := first + kept - 1 }
      (blockName isActive first entries.length) (first + kept - 1) =
        .ok (recordOf config (Segment.dataLength config front) entry) := by
    have hread := @Holds.getMeta _ _ _ _ _ _ _ isActive _ _ hhold hpos hent
    rw [hidx, hfrt, take_left, ← hfrt] at hread
    rw [← hread, ← hlast]
    rfl
  have htrun : segmentOf config isActive first (entries.take kept) =
      { segmentOf config isActive first entries with
        lastIndex := first + kept - 1
        metaOffset := kept * metaSize
        dataOffset := Segment.dataLength config front + Segment.byteSize config entry } := by
    rw [← hlast]
    simp [segmentOf, hfrt, hlen, dataLength_append]
  have hdisk : RunsTo (Program.get : Action Disk) (disk.cleared
      (blockName isActive first entries.length) kept (entries.length - kept)) [] _ _ := rfl
  simp only [Segment.truncateSuffix, hnot, if_false, hcnt, hposition, name_segmentOf]
  refine (forEach_clear_runsTo hroom).bind (hdisk.bind_nil ?_)
  refine (RunsTo.lift hget _).bind_nil ?_
  rw [htrun]
  cases isActive with
  | true => rfl
  | false => exact (renameFiles_runsTo _ hhold.mem_datas hhold.mem_metas).bind rfl

end

/-! ## The suffix: objects -/

/-- The closed segments that start at `lastIndexKept` or before it, and the
segments behind them, which the loop of `truncateSuffix` meets last to first. -/
theorem exists_kept_behind (lastIndexKept base : Nat) (blocks : List (List Entry)) :
    ∃ kept behind, blocks = kept ++ behind ∧
      ((closedOf config base blocks).reverse.takeWhile fun segment =>
        lastIndexKept < segment.firstIndex) =
          (closedOf config (base + kept.flatten.length) behind).reverse ∧
      ((closedOf config base blocks).reverse.dropWhile fun segment =>
        lastIndexKept < segment.firstIndex).head? = (closedOf config base kept).getLast? ∧
      (behind ≠ [] → lastIndexKept < base + kept.flatten.length) ∧
      ∀ front block, kept = front ++ [block] → base + front.flatten.length ≤ lastIndexKept := by
  induction blocks using reverseRecOn with
  | nil => exact ⟨[], [], rfl, rfl, rfl, fun h => absurd rfl h, by simp⟩
  | append_singleton blocks block ih =>
    have hrev : (closedOf config base (blocks ++ [block])).reverse =
        segmentOf config false (base + blocks.flatten.length) block ::
          (closedOf config base blocks).reverse := by
      simp [closedOf_append, closedOf]
    by_cases hbeh : lastIndexKept <
        (segmentOf config false (base + blocks.flatten.length) block).firstIndex
    · obtain ⟨kept, behind, hspl, htake, hdrop, hlt, hle⟩ := ih
      refine ⟨kept, behind ++ [block], by rw [hspl, append_assoc], ?_, ?_, ?_, hle⟩
      · rw [hrev, takeWhile_cons_of_pos (by exact decide_eq_true hbeh), htake,
          closedOf_append, hspl]
        simp [closedOf, Nat.add_assoc]
      · rw [hrev, dropWhile_cons_of_pos (by exact decide_eq_true hbeh), hdrop]
      · intro _
        cases behind with
        | nil => simpa [hspl, segmentOf] using hbeh
        | cons next behind => exact hlt (cons_ne_nil _ _)
    · have hstop : ¬ decide (lastIndexKept <
          (segmentOf config false (base + blocks.flatten.length) block).firstIndex) = true :=
        fun h => hbeh (of_decide_eq_true h)
      refine ⟨blocks ++ [block], [], (append_nil _).symm, ?_, ?_, fun h => absurd rfl h, ?_⟩
      · rw [hrev, takeWhile_cons_of_neg (by exact hstop)]
        rfl
      · rw [hrev, dropWhile_cons_of_neg (by exact hstop)]
        simp [closedOf_append, closedOf]
      · intro front last heq
        obtain ⟨rfl, -⟩ := append_inj' heq rfl
        exact Nat.not_lt.mp hbeh

variable {blocks : List (List Entry)} {range : Nat × Nat} {first : Nat} {behind : List (List Entry)}

theorem filter_closedOf {base : Nat} {kept behind : List (List Entry)}
    (hne : ∀ block ∈ kept, block ≠ []) :
    ((closedOf config base (kept ++ behind)).filter fun segment =>
      ((closedOf config (base + kept.flatten.length) behind).reverse).all fun dropped =>
        dropped.firstIndex != segment.firstIndex) = closedOf config base kept := by
  have hk : ((closedOf config base kept).filter fun segment =>
      ((closedOf config (base + kept.flatten.length) behind).reverse).all fun dropped =>
        dropped.firstIndex != segment.firstIndex) = closedOf config base kept := by
    refine filter_eq_self.mpr fun segment hs => all_eq_true.mpr ?_
    intro dropped hd
    have hlt := lt_firstIndex_of_mem_closedOf hne hs
    have hle := le_firstIndex_of_mem_closedOf (mem_reverse.mp hd)
    simp only [bne_iff_ne, ne_eq]
    omega
  have hb : ((closedOf config (base + kept.flatten.length) behind).filter fun segment =>
      ((closedOf config (base + kept.flatten.length) behind).reverse).all fun dropped =>
        dropped.firstIndex != segment.firstIndex) = [] := by
    refine filter_eq_nil_iff.mpr fun segment hs ha => ?_
    have := all_eq_true.mp ha segment (mem_reverse.mpr hs)
    simp at this
  rw [closedOf_append, filter_append, hk, hb, append_nil]

/-- The active segment and, last to first, the closed ones behind the cut. -/
def Layout.dropped (config : Config Entry) (layout : Layout Entry) (base : Nat)
    (behind : List (List Entry)) : List Segment :=
  segmentOf config true layout.activeFirst layout.active :: (closedOf config base behind).reverse

/-- The log of a `truncateSuffix` while it has no active segment. -/
def Layout.inactive (config : Config Entry) (layout : Layout Entry) (lastIndexKept : Nat)
    (kept : List (List Entry)) : SegmentLog :=
  { layout.toLog config with
    lastIndex := lastIndexKept
    activeSegment := none
    closedSegments := closedOf config layout.base kept }

/-- What `truncateSuffix` takes out of the objects if the cut lies before the
active segment. -/
theorem cutSegments_eq {lastIndexKept : Nat} (hact : lastIndexKept < layout.activeFirst) :
    ∃ kept behind, layout.closed = kept ++ behind ∧
      SegmentLog.cutSegments { layout.toLog config with lastIndex := lastIndexKept }
          (segmentOf config true layout.activeFirst layout.active) lastIndexKept =
        ({ layout.inactive config lastIndexKept kept with
            firstIndex := if kept = [] then lastIndexKept + 1 else layout.firstIndex },
          (closedOf config layout.base kept).getLast?,
          layout.dropped config (layout.base + kept.flatten.length) behind) ∧
      (behind ≠ [] → lastIndexKept < layout.base + kept.flatten.length) ∧
      ∀ front block, kept = front ++ [block] →
        layout.base + front.flatten.length ≤ lastIndexKept := by
  obtain ⟨kept, behind, hcl, htake, hdrop, hlt, hle⟩ :=
    @exists_kept_behind _ config lastIndexKept layout.base layout.closed
  refine ⟨kept, behind, hcl, ?_, hlt, hle⟩
  have hkept : ∀ block ∈ kept, block ≠ [] := fun block hblk =>
    layout.closed_ne_nil block (hcl ▸ mem_append_left _ hblk)
  have hfilt := @filter_closedOf _ config layout.base kept behind hkept
  have hnil : (closedOf config layout.base kept).isEmpty = decide (kept = []) := by
    cases kept <;> simp [closedOf]
  have hnot : ¬ (segmentOf config true layout.activeFirst layout.active).firstIndex ≤
      lastIndexKept := Nat.not_le.mpr hact
  have hsegs : (layout.toLog config).closedSegments =
      closedOf config layout.base layout.closed := rfl
  simp only [SegmentLog.cutSegments, hnot, if_false, hsegs, htake, hdrop]
  rw [← hcl] at hfilt
  simp only [hfilt, hnil, decide_eq_true_eq]
  rfl

/-! ## The suffix: files -/

/-- The layout with other blocks under the same first index. -/
def Layout.withBlocks (layout : Layout Entry) (base : Nat) (closed : List (List Entry))
    (active : List Entry) (hbase : layout.base ≤ base) (hne : ∀ block ∈ closed, block ≠ [])
    (hlive : IsLive layout.firstIndex base closed active) : Layout Entry :=
  { layout with
    base := base
    closed := closed
    active := active
    base_pos := layout.base_pos.trans_le hbase
    retained_before := fun range hrange =>
      ⟨(layout.retained_before range hrange).1,
        (layout.retained_before range hrange).2.trans_le hbase⟩
    closed_ne_nil := hne
    isLive := hlive }

/-- The names of the closed segments of a chain of blocks. -/
def namesOf (base : Nat) (blocks : List (List Entry)) : List SegmentName :=
  (rangesOf base blocks).map fun range => .closed range.1 range.2

theorem map_name_closedOf (base : Nat) (blocks : List (List Entry)) :
    (closedOf config base blocks).map name = namesOf base blocks := by
  induction blocks generalizing base with
  | nil => rfl
  | cons block blocks ih =>
    rw [closedOf, map_cons, ih]
    rfl

theorem closed_mem_namesOf :
    SegmentName.closed range.1 range.2 ∈ namesOf base blocks ↔ range ∈ rangesOf base blocks := by
  simp [namesOf]

theorem active_notMem_namesOf : SegmentName.active first ∉ namesOf base blocks := by
  simp [namesOf]

theorem mem_metas_dropAll {names : List SegmentName} {name : SegmentName} :
    name ∈ (disk.dropAll names).metas ↔ name ∉ names ∧ name ∈ disk.metas := by
  rw [← lookup_isSome, ← lookup_isSome, metas_dropAll]
  by_cases hm : name ∈ names <;> simp [hm]

/-- The directory stores the layout, without an active segment, and has the files
of the segments `extra` besides. -/
structure Leftover (config : Config Entry) (layout : Layout Entry) (extra : List SegmentName)
    (disk : Disk) : Prop where
  fields_eq : disk.fields = layout.fields
  closed_hold : HoldAll config disk layout.base layout.closed
  active_eq_nil : layout.active = []
  closed_iff : ∀ range : Nat × Nat, .closed range.1 range.2 ∈ disk.metas ↔
    range ∈ layout.retained ++ rangesOf layout.base layout.closed ∨
      .closed range.1 range.2 ∈ extra
  active_iff : ∀ first, .active first ∈ disk.metas ↔ .active first ∈ extra
  apart : ∀ range ∈ layout.retained ++ rangesOf layout.base layout.closed,
    .closed range.1 range.2 ∉ extra

theorem fields_dropAll (disk : Disk) (names : List SegmentName) :
    (disk.dropAll names).fields = disk.fields := by
  induction names generalizing disk with
  | nil => rfl
  | cons name names ih => exact ih (disk.moved name none)

theorem Leftover.dropAll {extra : List SegmentName} (h : Leftover config layout extra disk) :
    Directory config layout none (disk.dropAll extra) where
  fields_eq := (fields_dropAll disk extra).trans h.fields_eq
  closed_hold := by
    refine h.closed_hold.congr fun range hr => ?_
    have hn := h.apart range (mem_append_right _ hr)
    rw [metas_dropAll, datas_dropAll, if_neg hn, if_neg hn]
    exact ⟨rfl, rfl⟩
  active_holds := nofun
  active_eq_nil _ := h.active_eq_nil
  closed_iff range := by
    have hap := h.apart range
    rw [mem_metas_dropAll, h.closed_iff]
    tauto
  active_iff first := by
    rw [mem_metas_dropAll, h.active_iff]
    simp

/-- The names that `truncateSuffix` drops: the active segment and, last to first,
the blocks behind the cut. -/
def Layout.droppedNames (layout : Layout Entry) (base : Nat) (behind : List (List Entry)) :
    List SegmentName :=
  .active layout.activeFirst :: (namesOf base behind).reverse

theorem closed_mem_droppedNames :
    SegmentName.closed range.1 range.2 ∈ layout.droppedNames base behind ↔
      range ∈ rangesOf base behind := by
  rw [droppedNames, mem_cons, mem_reverse, closed_mem_namesOf]
  simp

theorem active_mem_droppedNames :
    SegmentName.active first ∈ layout.droppedNames base behind ↔ first = layout.activeFirst := by
  rw [droppedNames, mem_cons, mem_reverse]
  simp [active_notMem_namesOf]

/-- The empty log at the first index. -/
def Layout.cleared (layout : Layout Entry) : Layout Entry :=
  layout.withBlocks layout.firstIndex [] [] layout.isLive.1 forall_mem_nil_ne_nil
    ⟨le_rfl, .inr ⟨rfl, rfl, rfl⟩⟩

theorem Directory.leftover_nil {tail : List LogMeta}
    (h : Directory config layout (some tail) disk) :
    Leftover config layout.cleared (layout.droppedNames layout.base layout.closed) disk where
  fields_eq := h.fields_eq
  closed_hold := trivial
  active_eq_nil := rfl
  closed_iff range := by
    rw [h.closed_iff, closed_mem_droppedNames, mem_append]
    simp [cleared, withBlocks, rangesOf]
  active_iff first := by
    rw [h.active_iff, active_mem_droppedNames]
    simp
  apart range hr := by
    rw [closed_mem_droppedNames]
    intro hm
    have hret : range ∈ layout.retained := by
      simpa [cleared, withBlocks, rangesOf] using hr
    have := layout.retained_before range hret
    have := rangesOf_bounds layout.closed_ne_nil hm
    omega

/-- A closed block after the cut behind its first `kept` entries; there is
nothing to do if that is all of it. -/
def Disk.cutClosed (disk : Disk) (first length kept : Nat) : Disk :=
  if kept = length then disk else disk.cut false first length kept

def cutClosedSteps (first length kept : Nat) : List Step :=
  if kept = length then [] else cutSteps false first length kept

section

variable {first kept length : Nat} {block : List Entry} {tail : List LogMeta}

theorem lookup_cutClosed {name : SegmentName} (hn : ∀ last, name ≠ .closed first last) :
    (disk.cutClosed first length kept).metas.lookup name = disk.metas.lookup name ∧
      (disk.cutClosed first length kept).datas.lookup name = disk.datas.lookup name := by
  unfold Disk.cutClosed
  split
  · exact ⟨rfl, rfl⟩
  · have ht : some (SegmentName.closed first (first + kept - 1)) ≠ some name :=
      fun heq => hn _ (some.inj heq).symm
    refine ⟨(lookup_moveTo_of_ne (hn _) ht).trans ?_, (lookup_moveTo_of_ne (hn _) ht).trans ?_⟩
    · exact cleared_metas_of_ne (hn _) _ _
    · rw [cleared_datas]

theorem fields_cleared (name : SegmentName) (kept n : Nat) :
    (disk.cleared name kept n).fields = disk.fields := by
  induction n with
  | zero => rfl
  | succ n ih =>
    rw [cleared_succ]
    exact ih

theorem fields_cutClosed : (disk.cutClosed first length kept).fields = disk.fields := by
  unfold Disk.cutClosed
  split
  · rfl
  · exact fields_cleared ..

theorem Holds.cutClosed
    (h : Holds config disk (.closed first (first + block.length - 1)) first block tail)
    (hp : 0 < first) (hk : kept ≤ block.length) :
    ∃ tail', Holds config (disk.cutClosed first block.length kept)
      (.closed first (first + kept - 1)) first (block.take kept) tail' := by
  unfold Disk.cutClosed
  split
  · rename_i heq
    rw [heq, take_length]
    exact ⟨tail, h⟩
  · have hc : kept < block.length := by omega
    exact ⟨_, Holds.cut h hp hc⟩

theorem Holds.mem_cutClosed
    (h : Holds config disk (.closed first (first + block.length - 1)) first block tail)
    (hpos : 0 < first) (hkept : kept ≤ block.length)
    (hname : ∀ last, .closed first last ∈ disk.metas ↔ last = first + block.length - 1)
    (last : Nat) :
    .closed first last ∈ (disk.cutClosed first block.length kept).metas ↔
      last = first + kept - 1 := by
  unfold Disk.cutClosed
  split
  · rename_i heq
    rw [hname, heq]
  · have hclr := (h.cleared hpos (show kept + (block.length - kept) ≤ block.length by omega)
      (by omega)).mem_metas
    refine (mem_moveTo hclr).trans ?_
    have hmem : SegmentName.closed first last ≠ .closed first (first + block.length - 1) →
        .closed first last ∉ (disk.cleared (.closed first (first + block.length - 1)) kept
          (block.length - kept)).metas := by
      intro hne
      rw [← lookup_isSome, cleared_metas_of_ne hne, lookup_isSome, hname]
      simpa using hne
    simp only [Option.some.injEq, SegmentName.closed.injEq, true_and]
    constructor
    · rintro (heq | ⟨hne, hin⟩)
      · exact heq.symm
      · exact absurd hin (hmem hne)
    · exact fun heq => .inl heq.symm

end

/-- A cut inside a closed segment, behind the first `kept` entries of its block. -/
structure CutPoint (layout : Layout Entry) where
  front : List (List Entry)
  block : List Entry
  behind : List (List Entry)
  kept : Nat
  closed_eq : layout.closed = front ++ block :: behind
  kept_pos : 0 < kept
  kept_le : kept ≤ block.length
  firstIndex_lt : layout.firstIndex < layout.base + front.flatten.length + kept

namespace CutPoint

variable (cut : CutPoint layout)

/-- The first index of the segment. -/
def start : Nat := layout.base + cut.front.flatten.length

/-- The last index before the cut. -/
def lastKept : Nat := cut.start + cut.kept - 1

theorem start_pos : 0 < cut.start := Nat.add_pos_left layout.base_pos _

theorem firstIndex_le : layout.firstIndex ≤ cut.lastKept := Nat.le_sub_one_of_lt cut.firstIndex_lt

theorem front_ne_nil : ∀ other ∈ cut.front, other ≠ [] := fun other hoth =>
  layout.closed_ne_nil other (cut.closed_eq ▸ mem_append_left _ hoth)

theorem behind_ne_nil : ∀ other ∈ cut.block :: cut.behind, other ≠ [] := fun other hoth =>
  layout.closed_ne_nil other (cut.closed_eq ▸ mem_append_right _ hoth)

theorem isLive :
    IsLive layout.firstIndex layout.base (cut.front ++ [cut.block.take cut.kept]) [] := by
  obtain ⟨front, block, behind, kept, hcl, -, -, hfst⟩ := cut
  obtain ⟨hbase, hlive⟩ := layout.isLive
  refine ⟨hbase, .inl ?_⟩
  cases front with
  | nil =>
    simp only [hcl, nil_append, headD_cons, flatten_nil, length_nil,
      reduceCtorEq, false_and, or_false] at hlive hfst ⊢
    rw [length_take]
    omega
  | cons head front => simpa [hcl] using hlive

theorem kept_ne_nil : ∀ other ∈ cut.front ++ [cut.block.take cut.kept], other ≠ [] := by
  intro other hoth
  rcases mem_append.mp hoth with hoth | hoth
  · exact cut.front_ne_nil other hoth
  · have hkept := cut.kept_pos
    have hle := cut.kept_le
    rw [mem_singleton.mp hoth]
    refine length_pos_iff.mp ?_
    rw [length_take]
    omega

/-- The log up to the cut. -/
def remaining : Layout Entry :=
  layout.withBlocks layout.base (cut.front ++ [cut.block.take cut.kept]) [] le_rfl
    cut.kept_ne_nil cut.isLive

/-- The names behind the segment, which is cut itself. -/
def droppedNames : List SegmentName :=
  layout.droppedNames (cut.start + cut.block.length) cut.behind

/-- The directory with the segment cut. -/
def cutDisk (disk : Disk) : Disk := disk.cutClosed cut.start cut.block.length cut.kept

theorem rangesOf_closed : rangesOf layout.base layout.closed = rangesOf layout.base cut.front ++
      (cut.start, cut.start + cut.block.length - 1) ::
        rangesOf (cut.start + cut.block.length) cut.behind := by
  rw [cut.closed_eq, rangesOf_append]
  rfl

theorem rangesOf_kept : rangesOf layout.base (cut.front ++ [cut.block.take cut.kept]) =
    rangesOf layout.base cut.front ++ [(cut.start, cut.lastKept)] := by
  rw [rangesOf_append, rangesOf, rangesOf, length_take, Nat.min_eq_left cut.kept_le]
  rfl

variable {range : Nat × Nat}

/-- What lies before the segment starts before it. -/
theorem range_before (hr : range ∈ layout.retained ++ rangesOf layout.base cut.front) :
    range.1 < cut.start := by
  rcases mem_append.mp hr with hr | hr
  · have := layout.retained_before range hr
    simp only [start]
    omega
  · have := rangesOf_bounds cut.front_ne_nil hr
    simp only [start]
    omega

/-- What lies behind the segment starts behind it. -/
theorem range_behind (hr : range ∈ rangesOf (cut.start + cut.block.length) cut.behind) :
    cut.start < range.1 := by
  obtain ⟨hblk, hbeh⟩ := forall_mem_cons.mp cut.behind_ne_nil
  have := length_pos_iff.mpr hblk
  have := rangesOf_bounds hbeh hr
  omega

end CutPoint

section

variable {front : List (List Entry)} {block : List Entry} {kept : Nat}
variable {tail : List LogMeta} {base : Nat} {name : SegmentName} {lastIndexKept : Nat}

section

variable (h : Directory config layout (some tail) disk) (cut : CutPoint layout)
include h

theorem Directory.holds_block :
    ∃ records, Holds config disk (.closed cut.start (cut.start + cut.block.length - 1)) cut.start
      cut.block records := by
  have hhold := h.closed_hold
  rw [cut.closed_eq] at hhold
  exact (holdAll_append.mp hhold).2.1

theorem Directory.closed_mem_iff (last : Nat) : SegmentName.closed cut.start last ∈ disk.metas ↔
      last = cut.start + cut.block.length - 1 := by
  have hi := h.closed_iff (cut.start, last)
  rw [cut.rangesOf_closed, ← append_assoc, mem_append, mem_cons] at hi
  refine hi.trans ⟨?_, fun heq => .inr (.inl (by rw [heq]))⟩
  rintro (hm | heq | hm)
  · exact absurd (cut.range_before hm) (lt_irrefl _)
  · exact (Prod.ext_iff.mp heq).2
  · exact absurd (cut.range_behind hm) (lt_irrefl _)

theorem Directory.leftover_cutAt :
    Leftover config cut.remaining cut.droppedNames (cut.cutDisk disk) := by
  have hhold := h.closed_hold
  rw [cut.closed_eq] at hhold
  have hhol := (holdAll_append.mp hhold).1
  obtain ⟨records, hholds⟩ := h.holds_block cut
  have hran : layout.retained ++ rangesOf layout.base (cut.front ++ [cut.block.take cut.kept]) =
      (layout.retained ++ rangesOf layout.base cut.front) ++ [(cut.start, cut.lastKept)] := by
    rw [cut.rangesOf_kept, append_assoc]
  refine ⟨fields_cutClosed.trans h.fields_eq, ?_, rfl, ?_, ?_, ?_⟩
  · refine holdAll_append.mpr ⟨hhol.congr fun range hrng => lookup_cutClosed ?_, ?_, trivial⟩
    · intro last heq
      have := cut.range_before (mem_append_right _ hrng)
      simp only [SegmentName.closed.injEq] at heq
      omega
    · rw [length_take, Nat.min_eq_left cut.kept_le]
      exact hholds.cutClosed cut.start_pos cut.kept_le
  · intro range
    show _ ↔ range ∈ layout.retained ++
      rangesOf layout.base (cut.front ++ [cut.block.take cut.kept]) ∨ _
    rw [CutPoint.droppedNames, closed_mem_droppedNames, hran, mem_append, mem_singleton]
    by_cases hsame : range.1 = cut.start
    · -- the block that is cut, under its new name
      obtain ⟨first, last⟩ := range
      obtain rfl : first = cut.start := hsame
      refine (hholds.mem_cutClosed cut.start_pos cut.kept_le (h.closed_mem_iff cut) last).trans
        ⟨?_, ?_⟩
      · exact fun heq => .inl (.inr (by rw [heq]; rfl))
      · rintro ((hmem | heq) | hmem)
        · exact absurd (cut.range_before hmem) (lt_irrefl _)
        · exact (Prod.ext_iff.mp heq).2
        · exact absurd (cut.range_behind hmem) (lt_irrefl _)
    · -- the other names are as before
      have hlook := (@lookup_cutClosed disk cut.start cut.kept cut.block.length
        (.closed range.1 range.2) (by intro last heq; exact hsame (by injection heq))).1
      rw [← lookup_isSome, CutPoint.cutDisk, hlook, lookup_isSome, h.closed_iff,
        cut.rangesOf_closed, ← append_assoc, mem_append, mem_cons]
      have hne : ∀ last, ¬ range = (cut.start, last) :=
        fun last heq => hsame (congrArg Prod.fst heq)
      simp only [hne, false_or, or_false]
  · intro first
    have hlook := (@lookup_cutClosed disk cut.start cut.kept cut.block.length
      (.active first) nofun).1
    rw [← lookup_isSome, CutPoint.cutDisk, hlook, lookup_isSome, h.active_iff,
      CutPoint.droppedNames, active_mem_droppedNames]
    simp
  · intro range hrng hmem
    have hrng : range ∈ layout.retained ++
        rangesOf layout.base (cut.front ++ [cut.block.take cut.kept]) := hrng
    have hbeh := cut.range_behind (closed_mem_droppedNames.mp hmem)
    rw [hran, mem_append, mem_singleton] at hrng
    rcases hrng with hrng | rfl
    · exact absurd (cut.range_before hrng) (Nat.not_lt.mpr hbeh.le)
    · exact lt_irrefl _ hbeh

end

/-! ## The suffix: runs -/

theorem Layout.isLive_take (hk : layout.firstIndex < layout.activeFirst + kept)
    (hcut : kept < layout.active.length) :
    IsLive layout.firstIndex layout.base layout.closed (layout.active.take kept) := by
  obtain ⟨hb, hl⟩ := layout.isLive
  refine ⟨hb, ?_⟩
  cases hc : layout.closed with
  | cons block blocks => simpa [hc] using hl
  | nil =>
    simp only [activeFirst, hc, flatten_nil, length_nil] at hk
    left
    rw [headD_nil, length_take]
    omega

/-- A cut inside the active segment. -/
def Layout.cutActive (layout : Layout Entry) (kept : Nat)
    (hkept : layout.firstIndex < layout.activeFirst + kept) (hcut : kept < layout.active.length) :
    Layout Entry :=
  layout.withBlocks layout.base layout.closed (layout.active.take kept) le_rfl
    layout.closed_ne_nil (layout.isLive_take hkept hcut)

theorem Layout.lastIndex_cutActive (hk : layout.firstIndex < layout.activeFirst + kept)
    (hc : kept < layout.active.length) :
    (layout.cutActive kept hk hc).lastIndex = layout.activeFirst + kept - 1 := by
  rw [lastIndex_eq]
  simp only [cutActive, withBlocks, activeFirst, length_take, Nat.min_eq_left hc.le]

/-- The active segment is cut with the first record that is cleared. -/
theorem Directory.cutActive (h : Directory config layout (some tail) disk)
    (hkept : layout.firstIndex < layout.activeFirst + kept) (hcut : kept < layout.active.length)
    {n : Nat} (hpos : 0 < n) (hn : kept + n ≤ layout.active.length) :
    Directory config (layout.cutActive kept hkept hcut)
      (some (blanks n ++ (recordsOf config 0 layout.active ++ tail).drop (kept + n)))
      (disk.cleared (.active layout.activeFirst) kept n) := by
  have hhold := (h.active_holds tail rfl).cleared layout.activeFirst_pos hn hpos
  have hoth : ∀ name, name ≠ SegmentName.active layout.activeFirst →
      (disk.cleared (.active layout.activeFirst) kept n).metas.lookup name =
        disk.metas.lookup name := fun name hne => cleared_metas_of_ne hne _ _
  refine ⟨(fields_cleared ..).trans h.fields_eq, ?_, ?_, nofun, ?_, ?_⟩
  · refine h.closed_hold.congr fun range _ => ⟨hoth _ nofun, ?_⟩
    rw [cleared_datas]
  · rintro records hrecs
    obtain rfl := some.inj hrecs
    exact hhold
  · intro range
    rw [← lookup_isSome, hoth (.closed range.1 range.2) nofun, lookup_isSome]
    exact h.closed_iff range
  · intro first
    by_cases hfst : first = layout.activeFirst
    · subst hfst
      exact iff_of_true hhold.mem_metas ⟨rfl, rfl⟩
    · have hne : SegmentName.active first ≠ .active layout.activeFirst := by simpa using hfst
      rw [← lookup_isSome, hoth _ hne, lookup_isSome]
      exact h.active_iff first

/-- The steps of a `truncateSuffix` that drops segments. -/
def dropSuffixSteps (config : Config Entry) (names : List SegmentName) (next : Nat) : List Step :=
  names.flatMap dropSteps ++ [.createData (.active next) config.dataSizeLimit,
    .createMeta (.active next) config.metaSizeLimit]

theorem Directory.truncateSuffix_active (h : Directory config layout (some tail) disk)
    (hfst : layout.firstIndex < layout.activeFirst + kept) (hkept : 0 < kept)
    (hcut : kept < layout.active.length) :
    RunsTo
      (SegmentLog.truncateSuffix config (layout.toLog config) (layout.activeFirst + kept - 1)) disk
      (cutSteps true layout.activeFirst layout.active.length kept)
      ((layout.cutActive kept hfst hcut).toLog config)
      (disk.cut true layout.activeFirst layout.active.length kept) := by
  have hpos := layout.activeFirst_pos
  have hlast := layout.lastIndex_eq
  have hnot : ¬ (layout.toLog config).lastIndex ≤ layout.activeFirst + kept - 1 := by
    simp only [toLog]
    omega
  have hreq := layout.requireActive_runsTo config disk
  have hseg : (segmentOf config true layout.activeFirst layout.active).firstIndex ≤
      layout.activeFirst + kept - 1 := by
    simp only [segmentOf]
    omega
  have hle : (layout.toLog config).firstIndex ≤ layout.activeFirst + kept - 1 := by
    simp only [toLog]
    omega
  have hhold : Holds config disk (blockName true layout.activeFirst layout.active.length)
      layout.activeFirst layout.active tail := h.active_holds tail rfl
  have htrun := hhold.truncateSuffix_runsTo hpos hkept hcut
  have hlog : (layout.cutActive kept hfst hcut).toLog config =
      { layout.toLog config with
        lastIndex := layout.activeFirst + kept - 1
        activeSegment := some (segmentOf config true layout.activeFirst
          (layout.active.take kept)) } := by
    simp only [toLog, lastIndex_cutActive hfst hcut]
    rfl
  have hcutLast : RunsTo (SegmentLog.cutLastSegment
        { layout.toLog config with lastIndex := layout.activeFirst + kept - 1 }
        (segmentOf config true layout.activeFirst layout.active) (layout.activeFirst + kept - 1) [])
      disk (cutSteps true layout.activeFirst layout.active.length kept)
      ((layout.cutActive kept hfst hcut).toLog config, [])
      (disk.cut true layout.activeFirst layout.active.length kept) := by
    simp only [SegmentLog.cutLastSegment, hle, if_true]
    refine htrun.bind_right ?_
    rw [hlog]
    exact congrFun (if_pos rfl) _
  simp only [SegmentLog.truncateSuffix, hnot, if_false]
  refine hreq.bind_nil ?_
  simp only [SegmentLog.cutSegments, hseg, if_true]
  exact hcutLast.bind_right rfl

theorem Layout.cutSegments_at {lastIndexKept : Nat} (hfst : layout.firstIndex ≤ lastIndexKept)
    (hact : lastIndexKept < layout.activeFirst) :
    ∃ cut : CutPoint layout, lastIndexKept = cut.lastKept ∧
      SegmentLog.cutSegments { layout.toLog config with lastIndex := lastIndexKept }
          (segmentOf config true layout.activeFirst layout.active) lastIndexKept =
        (layout.inactive config lastIndexKept (cut.front ++ [cut.block]),
          some (segmentOf config false cut.start cut.block),
          layout.dropped config (cut.start + cut.block.length) cut.behind) := by
  have hbase := layout.isLive.1
  have hpos := layout.base_pos
  obtain ⟨kept, behind, hcl, hcut, hlt, hle⟩ := @cutSegments_eq _ config layout _ hact
  have hupp : lastIndexKept < layout.base + kept.flatten.length := by
    cases behind with
    | nil =>
      rw [append_nil] at hcl
      rwa [activeFirst, hcl] at hact
    | cons next behind => exact hlt (cons_ne_nil _ _)
  rcases eq_nil_or_concat' kept with rfl | ⟨front, block, rfl⟩
  · simp only [flatten_nil, length_nil] at hupp
    omega
  · have hlow := hle front block rfl
    simp only [flatten_append, flatten_singleton, length_append] at hupp
    refine ⟨⟨front, block, behind, lastIndexKept + 1 - (layout.base + front.flatten.length),
      by simpa using hcl, by omega, by omega, by omega⟩, ?_, ?_⟩
    · simp only [CutPoint.lastKept, CutPoint.start]
      omega
    · rw [hcut]
      simp [closedOf_append, closedOf, inactive, toLog, CutPoint.start, Nat.add_assoc]

theorem HoldAll.mem_files {blocks : List (List Entry)} (h : HoldAll config disk base blocks)
    (hn : name ∈ namesOf base blocks) : name ∈ disk.datas ∧ name ∈ disk.metas := by
  induction blocks generalizing base with
  | nil => cases hn
  | cons block blocks ih =>
    obtain ⟨⟨records, hh⟩, hr⟩ := h
    rcases mem_cons.mp hn with rfl | hn
    · exact ⟨hh.mem_datas, hh.mem_metas⟩
    · exact ih hr hn

theorem map_name_dropped (layout : Layout Entry) (base : Nat) (behind : List (List Entry)) :
    (layout.dropped config base behind).map Segment.name = layout.droppedNames base behind := by
  rw [dropped, map_cons, map_reverse, map_name_closedOf]
  rfl

theorem Layout.droppedNames_nodup (layout : Layout Entry) (hne : ∀ block ∈ behind, block ≠ []) :
    (layout.droppedNames base behind).Nodup := by
  refine nodup_cons.mpr ⟨?_, nodup_reverse.mpr ?_⟩
  · rw [mem_reverse]
    exact active_notMem_namesOf
  · refine List.Pairwise.map _ ?_ (rangesOf_sorted hne)
    intro left right hlt heq
    simp only [SegmentName.closed.injEq] at heq
    omega

/-- The end of `truncateSuffix`: the segments are dropped and a new active one
is created. -/
theorem finishSuffix_runsTo {origin : Layout Entry} (log : SegmentLog)
    (hf : ∀ name ∈ origin.droppedNames base behind, name ∈ disk.datas ∧ name ∈ disk.metas)
    (hne : ∀ block ∈ behind, block ≠ []) (hl : layout.toLog config =
      { log with activeSegment := some (segmentOf config true layout.activeFirst []) })
    (hnone : log.activeSegment = none) :
    RunsTo (do
        Program.forEach (origin.dropped config base behind) dropSegment
        let active ← SegmentLog.ensureActive config log.activeSegment layout.activeFirst
        return { log with activeSegment := some active } : Action SegmentLog) disk
      (dropSuffixSteps config (origin.droppedNames base behind) layout.activeFirst)
      (layout.toLog config)
      ((disk.dropAll (origin.droppedNames base behind)).createActive config
          layout.activeFirst) := by
  have hn := @map_name_dropped _ config origin base behind
  have hd := @forEach_dropSegment_runsTo disk (origin.dropped config base behind)
    (fun segment hs => hf _ (hn ▸ mem_map_of_mem hs))
    (hn ▸ origin.droppedNames_nodup hne)
  rw [hn] at hd
  rw [dropSuffixSteps, ← hn, flatMap_map, hn, hnone, hl]
  exact hd.bind ((createActiveSegment_runsTo _ _).bind rfl)

theorem Holds.truncateClosed_runsTo {first : Nat}
    (h : Holds config disk (.closed first (first + block.length - 1)) first block tail)
    (hp : 0 < first) (hk : 0 < kept) (hle : kept ≤ block.length) :
    RunsTo ((segmentOf config false first block).truncateSuffix (first + kept - 1)) disk
      (cutClosedSteps first block.length kept) (segmentOf config false first (block.take kept))
      (disk.cutClosed first block.length kept) := by
  unfold cutClosedSteps Disk.cutClosed
  split
  · rename_i heq
    subst heq
    rw [take_length]
    simp only [truncateSuffix]
    exact congrFun (if_pos le_rfl) _
  · have hc : kept < block.length := by omega
    exact Holds.truncateSuffix_runsTo h hp hk hc

theorem map_closedOf (base : Nat) (hne : ∀ other ∈ front, other ≠ []) :
    ((closedOf config base (front ++ [block])).map fun segment =>
      if segment.firstIndex = base + front.flatten.length then
        segmentOf config false (base + front.flatten.length) (block.take kept) else segment) =
      closedOf config base (front ++ [block.take kept]) := by
  have hf : ((closedOf config base front).map fun segment =>
      if segment.firstIndex = base + front.flatten.length then
        segmentOf config false (base + front.flatten.length) (block.take kept) else segment) =
      closedOf config base front := by
    refine map_congr_left (g := id) (fun segment hs => ?_) |>.trans (map_id _)
    have := lt_firstIndex_of_mem_closedOf hne hs
    exact if_neg (by omega)
  rw [closedOf_append, closedOf_append, map_append, hf]
  simp [closedOf, segmentOf]

/-- The steps of a `truncateSuffix` that ends inside a closed segment. -/
def CutPoint.steps (config : Config Entry) (cut : CutPoint layout) : List Step :=
  cutClosedSteps cut.start cut.block.length cut.kept ++
    dropSuffixSteps config cut.droppedNames (cut.start + cut.kept)

theorem CutPoint.activeFirst_remaining (cut : CutPoint layout) :
    cut.remaining.activeFirst = cut.start + cut.kept := by
  simp [activeFirst, remaining, withBlocks, start, cut.kept_le, Nat.add_assoc]

theorem CutPoint.lastIndex_remaining (cut : CutPoint layout) :
    cut.remaining.lastIndex = cut.lastKept := by
  rw [lastIndex_eq, cut.activeFirst_remaining]
  rfl

theorem Directory.mem_droppedFiles (h : Directory config layout (some tail) disk)
    (cut : CutPoint layout) (hn : name ∈ cut.droppedNames) :
    name ∈ (cut.cutDisk disk).datas ∧ name ∈ (cut.cutDisk disk).metas := by
  have hhold := h.closed_hold
  rw [cut.closed_eq] at hhold
  obtain ⟨-, -, hbehind⟩ := holdAll_append.mp hhold
  have hne : ∀ last, name ≠ .closed cut.start last := by
    rintro last rfl
    have hr : (cut.start, last) ∈ rangesOf (cut.start + cut.block.length) cut.behind :=
      closed_mem_droppedNames.mp hn
    exact lt_irrefl _ (cut.range_behind hr)
  have hfiles : name ∈ disk.datas ∧ name ∈ disk.metas := by
    rcases mem_cons.mp hn with rfl | hn
    · have hhold := h.active_holds tail rfl
      exact ⟨hhold.mem_datas, hhold.mem_metas⟩
    · exact hbehind.mem_files (mem_reverse.mp hn)
  obtain ⟨hmetas, hdatas⟩ := @lookup_cutClosed disk cut.start cut.kept cut.block.length name hne
  rw [← lookup_isSome, ← lookup_isSome, CutPoint.cutDisk, hmetas, hdatas, lookup_isSome,
    lookup_isSome]
  exact hfiles

/-- A cut inside a closed segment: it is cut, everything behind it is dropped and
a new active segment is created. -/
theorem Directory.truncateSuffix_closed (h : Directory config layout (some tail) disk)
    (hfst : layout.firstIndex ≤ lastIndexKept) (hact : lastIndexKept < layout.activeFirst)
    (hnot : ¬ layout.lastIndex ≤ lastIndexKept) :
    ∃ (cut : CutPoint layout) (disk' : Disk), lastIndexKept = cut.lastKept ∧
      RunsTo (SegmentLog.truncateSuffix config (layout.toLog config) lastIndexKept) disk
        (cut.steps config) (cut.remaining.toLog config) disk' ∧
      Directory config cut.remaining (some (blanks config.slots)) disk' := by
  obtain ⟨cut, hlast, hsegs⟩ := @Layout.cutSegments_at _ config layout _ hfst hact
  have hpos := cut.start_pos
  obtain ⟨records, hholds⟩ := h.holds_block cut
  have hnext := cut.activeFirst_remaining
  have hlog : cut.remaining.toLog config =
      { layout.inactive config lastIndexKept (cut.front ++ [cut.block.take cut.kept]) with
        activeSegment := some (segmentOf config true cut.remaining.activeFirst []) } := by
    rw [hlast, ← cut.lastIndex_remaining]
    rfl
  have hreq := layout.requireActive_runsTo config disk
  have hcutLast : RunsTo (SegmentLog.cutLastSegment
        (layout.inactive config lastIndexKept (cut.front ++ [cut.block]))
        (segmentOf config false cut.start cut.block) lastIndexKept
        (layout.dropped config (cut.start + cut.block.length) cut.behind))
      disk (cutClosedSteps cut.start cut.block.length cut.kept)
      (layout.inactive config lastIndexKept (cut.front ++ [cut.block.take cut.kept]),
        layout.dropped config (cut.start + cut.block.length) cut.behind)
      (cut.cutDisk disk) := by
    have hfst' : (layout.inactive config lastIndexKept (cut.front ++ [cut.block])).firstIndex ≤
        lastIndexKept := hfst
    have htrun := hholds.truncateClosed_runsTo hpos cut.kept_pos cut.kept_le
    rw [← CutPoint.lastKept, ← hlast] at htrun
    simp only [SegmentLog.cutLastSegment, hfst', if_true]
    refine htrun.bind_right ?_
    rw [if_neg nofun, inactive, inactive, ← map_closedOf layout.base cut.front_ne_nil]
    rfl
  have hfin := finishSuffix_runsTo
    (layout.inactive config lastIndexKept (cut.front ++ [cut.block.take cut.kept]))
    (fun name hname => h.mem_droppedFiles cut hname)
    (forall_mem_cons.mp cut.behind_ne_nil).2 hlog rfl
  refine ⟨cut, _, hlast, ?_, (h.leftover_cutAt cut).dropAll.createActive rfl⟩
  rw [hnext] at hfin ⊢
  have hcut : lastIndexKept + 1 = cut.start + cut.kept := by
    rw [hlast, CutPoint.lastKept]
    omega
  simp only [SegmentLog.truncateSuffix, show ¬ (layout.toLog config).lastIndex ≤ lastIndexKept
    from hnot, if_false]
  refine hreq.bind_nil ?_
  rw [hsegs, hcut]
  exact hcutLast.bind hfin

/-- The log that `truncateSuffix` empties, before it has an active segment again,
and the segments to drop. -/
def Layout.emptied (config : Config Entry) (layout : Layout Entry) (lastIndexKept : Nat) :
    SegmentLog × List Segment :=
  (layout.inactive config lastIndexKept [], layout.dropped config layout.base layout.closed)

/-- Either no segment holds the cut, or the one that does is dropped too. -/
theorem Layout.cutSegments_nil {lastIndexKept : Nat}
    (hfst : layout.firstIndex = lastIndexKept + 1) :
    SegmentLog.cutSegments { layout.toLog config with lastIndex := lastIndexKept }
        (segmentOf config true layout.activeFirst layout.active) lastIndexKept =
      ((layout.emptied config lastIndexKept).1, none, (layout.emptied config lastIndexKept).2) ∨
    ∃ log lastSegment dropped,
      SegmentLog.cutSegments { layout.toLog config with lastIndex := lastIndexKept }
          (segmentOf config true layout.activeFirst layout.active) lastIndexKept =
        (log, some lastSegment, dropped) ∧
      SegmentLog.cutLastSegment log lastSegment lastIndexKept dropped =
        pure (layout.emptied config lastIndexKept) := by
  have hnot : ¬ layout.firstIndex ≤ lastIndexKept := by omega
  by_cases hact : layout.activeFirst ≤ lastIndexKept
  · -- all closed segments are truncated already
    have hcl : layout.closed = [] := by
      by_contra hne
      have := firstIndex_lt_activeFirst hne
      omega
    have hseg : (segmentOf config true layout.activeFirst layout.active).firstIndex ≤
        lastIndexKept := hact
    refine .inr ⟨_, _, _, by rw [SegmentLog.cutSegments, if_pos hseg], ?_⟩
    simp [SegmentLog.cutLastSegment, toLog, hnot, emptied, inactive, dropped, hcl,
      closedOf]
  · obtain ⟨kept, behind, hcl, hcut, -, hle⟩ :=
      @cutSegments_eq _ config layout _ (Nat.lt_of_not_le hact)
    rcases eq_nil_or_concat' kept with rfl | ⟨front, block, rfl⟩
    · left
      rw [nil_append] at hcl
      rw [hcut]
      simp [emptied, inactive, dropped, toLog, closedOf, hcl, hfst]
    · -- only the first block reaches to the first index
      have hfrt : front = [] := by
        by_contra hne
        have hbd := hle front block rfl
        obtain ⟨head, front, rfl⟩ := exists_cons_of_ne_nil hne
        rcases layout.isLive.2 with hlive | ⟨hnil, -⟩
        · simp only [hcl, cons_append, headD_cons, flatten_cons, length_append] at hlive hbd
          omega
        · simp [hcl] at hnil
      subst hfrt
      refine .inr ⟨_, segmentOf config false layout.base block, _, hcut, ?_⟩
      simp [SegmentLog.cutLastSegment, hnot, emptied, inactive, dropped, hcl, closedOf,
        toLog]

theorem Directory.truncateSuffix_nil (h : Directory config layout (some tail) disk)
    (hfst : layout.firstIndex = lastIndexKept + 1) (hnot : ¬ layout.lastIndex ≤ lastIndexKept) :
    RunsTo (SegmentLog.truncateSuffix config (layout.toLog config) lastIndexKept) disk
      (dropSuffixSteps config (layout.droppedNames layout.base layout.closed) layout.firstIndex)
      (layout.cleared.toLog config)
      ((disk.dropAll (layout.droppedNames layout.base layout.closed)).createActive config
        layout.firstIndex) := by
  have hreq := layout.requireActive_runsTo config disk
  have hfil : ∀ name ∈ layout.droppedNames layout.base layout.closed,
      name ∈ disk.datas ∧ name ∈ disk.metas := by
    intro name hname
    rcases mem_cons.mp hname with rfl | hname
    · have hhold := h.active_holds tail rfl
      exact ⟨hhold.mem_datas, hhold.mem_metas⟩
    · exact h.closed_hold.mem_files (mem_reverse.mp hname)
  have hlog : layout.cleared.toLog config =
      { layout.inactive config lastIndexKept [] with
        activeSegment := some (segmentOf config true layout.cleared.activeFirst []) } := by
    have hlast : layout.cleared.lastIndex = lastIndexKept := by
      simp [Layout.lastIndex, Layout.cleared, Layout.withBlocks, Layout.entries, hfst]
    rw [← hlast]
    rfl
  have hfin := finishSuffix_runsTo (layout.inactive config lastIndexKept []) hfil
    layout.closed_ne_nil hlog rfl
  simp only [SegmentLog.truncateSuffix, show ¬ (layout.toLog config).lastIndex ≤ lastIndexKept
    from hnot, if_false]
  refine hreq.bind_nil ?_
  rw [← hfst]
  rcases @Layout.cutSegments_nil _ config layout _ hfst with
    hsegs | ⟨log, lastSegment, dropped, hsegs, hcut⟩
  · rw [hsegs]
    exact hfin
  · rw [hsegs]
    simp only [hcut]
    exact (RunsTo.pure _ disk).bind_nil hfin

end

end MySuperLedger.Storage
