import MySuperLedger.Storage.InMemoryLog

/-! # What the writes do to a directory

Each writing operation of a segment and of the log, run on a directory that
stores a layout: the steps it takes, the objects it leaves and the layout that
the directory stores afterwards.
-/

namespace MySuperLedger.Storage

open Collections Effects List Option AList Segment Layout SegmentLog Disk Segment
open Program (RunsTo)

variable {Entry : Type} {config : Config Entry} {disk : Disk}

theorem afterAll_append (disk : Disk) (steps later : List Step) :
    disk.afterAll (steps ++ later) = (disk.afterAll steps).afterAll later := foldl_append ..

section

variable {β : Type} {files : AList (fun _ : SegmentName => β)} {source name : SegmentName}
  {target : Option SegmentName}

theorem lookup_moveTo_of_ne (hs : name ≠ source) (ht : target ≠ some name) :
    (moveTo files source target).lookup name = files.lookup name := by
  unfold moveTo
  split
  · rename_i file target' hf
    have hne : name ≠ target' := by
      rintro rfl
      exact ht rfl
    rw [lookup_insert_ne hne, lookup_erase_ne hs]
  · exact lookup_erase_ne hs

theorem lookup_moveTo_target {target : SegmentName} (h : source ∈ files) :
    (moveTo files source (some target)).lookup target = files.lookup source := by
  obtain ⟨file, hf⟩ := isSome_iff_exists.mp (lookup_isSome.mpr h)
  simp [moveTo, hf, lookup_insert]

theorem mem_moveTo (h : source ∈ files) :
    name ∈ moveTo files source target ↔ target = some name ∨ name ≠ source ∧ name ∈ files := by
  obtain ⟨file, hf⟩ := isSome_iff_exists.mp (lookup_isSome.mpr h)
  cases target with
  | none => simp [moveTo, hf, mem_erase]
  | some target => simp [moveTo, hf, mem_insert, mem_erase, eq_comm]

end

/-- Both files of a segment under a new name, or dropped. -/
def Disk.moved (disk : Disk) (source : SegmentName) (target : Option SegmentName) : Disk :=
  (disk.after (.renameData source target)).after (.renameMeta source target)

theorem renameFiles_runsTo {source : SegmentName} (target : Option SegmentName)
    (hd : source ∈ disk.datas) (hm : source ∈ disk.metas) :
    RunsTo (renameFiles source target) disk
      [.renameData source target, .renameMeta source target] () (disk.moved source target) := by
  have ha : disk.allows (.renameData source target) := hd
  have ha' : (disk.after (.renameData source target)).allows (.renameMeta source target) :=
    hm
  exact (perform_runsTo ha).bind (perform_runsTo ha')

section

variable {name : SegmentName} {first : Nat} {entries : List Entry} {tail : List LogMeta}

section

variable (h : Holds config disk name first entries tail)
include h

theorem Holds.mem_datas : name ∈ disk.datas := by
  obtain ⟨rest, hd, -⟩ := h.data_eq
  exact lookup_isSome.mp (by rw [hd]; rfl)

theorem Holds.mem_metas : name ∈ disk.metas :=
  lookup_isSome.mp (by rw [h.records_eq]; rfl)

theorem Holds.moved (target : SegmentName) :
    Holds config (disk.moved name (some target)) target first entries tail :=
  h.congr (lookup_moveTo_target h.mem_metas) (lookup_moveTo_target h.mem_datas)

end

/-- There is room for `entries` behind the block `held`. -/
structure Fits (config : Config Entry) (held entries : List Entry) : Prop where
  slots : held.length + entries.length ≤ config.slots
  data : dataLength config held + dataLength config entries ≤ config.dataSizeLimit

theorem Fits.of_held (h : Fits config held entries) : Fits config [] entries where
  slots := (Nat.add_le_add_right (Nat.zero_le _) _).trans h.slots
  data := (Nat.add_le_add_right (Nat.zero_le _) _).trans h.data

theorem exceeds_segmentOf (isActive : Bool) (first : Nat) (held entries : List Entry) :
    (segmentOf config isActive first held).exceeds config entries = false ↔
      Fits config held entries := by
  have hm : held.length * metaSize + entries.length * metaSize ≤ config.metaSizeLimit ↔
      held.length + entries.length ≤ config.slots := by
    rw [← Nat.add_mul, ← slots_mul_metaSize]
    exact Nat.mul_le_mul_right_iff (by decide)
  simp only [exceeds, segmentOf, Bool.or_eq_false_iff, decide_eq_false_iff_not, Nat.not_lt,
    gt_iff_lt, hm]
  exact ⟨fun h => ⟨h.1, h.2⟩, fun h => ⟨h.slots, h.data⟩⟩

/-- The batch is numbered on, fits and can be signed. -/
structure CanAppend (config : Config Entry) (first : Nat) (held batch : List Entry) : Prop where
  fits : Fits config held batch
  numbered : Numbered config (first + held.length) batch
  signed : ∀ entry ∈ batch, CanSign config entry

/-- A batch that continues a log at `next` and fits into an empty segment. -/
structure IsBatch (config : Config Entry) (next : Nat) (batch : List Entry) : Prop where
  fits : Fits config [] batch
  numbered : Numbered config next batch
  signed : ∀ entry ∈ batch, CanSign config entry

/-- The two writes of `appendEntries`, with the records that reach the meta file. -/
def Disk.written (config : Config Entry) (disk : Disk) (name : SegmentName)
    (held batch : List Entry) (records : List LogMeta) : Disk :=
  (disk.after (.writeData name (dataLength config held) (bytesOf config batch))).after
    (.writeMeta name held.length records)

variable {held batch : List Entry} {records : List LogMeta}

theorem metas_written (h : disk.metas.lookup name = some (recordsOf config 0 held ++ tail)) :
    (disk.written config name held batch records).metas.lookup name =
      some (recordsOf config 0 held ++ records ++ tail.drop records.length) := by
  have hm : disk.metaOf name = recordsOf config 0 held ++ tail := by
    rw [metaOf, h]
    rfl
  have hw := writeAt_append (recordsOf config 0 held) tail records
  rw [length_recordsOf] at hw
  rw [← hw, ← hm]
  exact lookup_insert _

theorem Holds.datas_written (h : Holds config disk name first held tail)
    (hf : Fits config held batch) :
    ∃ rest, (disk.written config name held batch records).datas.lookup name =
        some (bytesOf config (held ++ batch) ++ rest) ∧
      dataLength config (held ++ batch) + rest.length = config.dataSizeLimit := by
  obtain ⟨rest, hd, hs⟩ := h.data_eq
  have hr := hf.data
  have hfile : disk.dataOf name = bytesOf config held ++ rest := by
    rw [dataOf, hd]
    rfl
  have hwr := writeAt_append (bytesOf config held) rest (bytesOf config batch)
  rw [length_bytesOf, length_bytesOf] at hwr
  refine ⟨rest.drop (dataLength config batch), ?_, ?_⟩
  · rw [bytesOf_append, ← hwr, ← hfile]
    exact lookup_insert _
  · rw [dataLength_append, length_drop]
    omega

variable {n : Nat}

theorem Holds.appended (h : Holds config disk name first held (blanks n)) (hp : 0 < first)
    (ha : CanAppend config first held batch) :
    Holds config (disk.written config name held batch
        (recordsOf config (dataLength config held) batch))
      name first (held ++ batch) (blanks (n - batch.length)) where
  records_eq := by
    rw [metas_written h.records_eq, recordsOf_append, Nat.zero_add]
    simp [blanks]
  length_eq := by
    have hl := h.length_eq
    have hr := ha.fits.slots
    simp only [blanks, length_replicate, length_append] at hl ⊢
    omega
  data_eq := h.datas_written ha.fits
  numbered := numbered_append.mpr ⟨h.numbered, ha.numbered⟩
  signed := by
    intro entry he
    rcases mem_append.mp he with he | he
    · exact h.signed entry he
    · exact ha.signed entry he
  stops := stops_blanks (Nat.add_pos_left hp _) _

theorem Holds.appendEntries_runsTo (h : Holds config disk (.active first) first held tail)
    (hpos : 0 < first) (happ : CanAppend config first held batch) :
    RunsTo ((segmentOf config true first held).appendEntries config batch) disk
      [.writeData (.active first) (dataLength config held) (bytesOf config batch),
        .writeMeta (.active first) held.length
          (recordsOf config (dataLength config held) batch)]
      (segmentOf config true first (held ++ batch))
      (disk.written config (.active first) held batch
        (recordsOf config (dataLength config held) batch)) := by
  obtain ⟨rest, hdata, hsize⟩ := h.data_eq
  have hrecs : recordsFor config (segmentOf config true first held).dataOffset
      ((segmentOf config true first held).lastIndex + 1) batch =
        .ok (recordsOf config (dataLength config held) batch) := by
    have hnext : (segmentOf config true first held).lastIndex + 1 = first + held.length := by
      simp only [segmentOf]
      omega
    rw [hnext]
    exact recordsFor_eq happ.numbered happ.signed
  have hposition : (segmentOf config true first held).metaOffset / metaSize = held.length :=
    Nat.mul_div_cancel _ (by decide)
  have hall : disk.allows (.writeData (.active first) (dataLength config held)
      (bytesOf config batch)) := by
    have hroom := happ.fits.data
    simp only [Disk.allows, Disk.dataOf, hdata, getD_some, length_append, length_bytesOf]
    omega
  have hall' : (disk.after (.writeData (.active first) (dataLength config held)
      (bytesOf config batch))).allows (.writeMeta (.active first) held.length
        (recordsOf config (dataLength config held) batch)) := by
    have hroom := happ.fits.slots
    have hlen := h.length_eq
    simp only [Disk.allows, Disk.metaOf, Disk.after, h.records_eq, getD_some,
      length_append, length_recordsOf]
    omega
  refine (RunsTo.assert rfl disk).bind_nil ?_
  refine (RunsTo.lift hrecs disk).bind_nil ?_
  refine (perform_runsTo hall).bind ?_
  rw [hposition]
  refine (perform_runsTo hall').bind ?_
  have hseg : segmentOf config true first (held ++ batch) =
      { segmentOf config true first held with
        dataOffset := Segment.dataLength config held + Segment.dataLength config batch
        metaOffset := held.length * metaSize + batch.length * metaSize
        lastIndex := first + held.length - 1 + batch.length } := by
    simp only [segmentOf, dataLength_append, length_append, Nat.add_mul, Segment.mk.injEq,
      true_and, and_true]
    omega
  rw [hseg]
  rfl

/-- The records of the positions from `kept` on are cleared, `n` of them. -/
def Disk.cleared (disk : Disk) (name : SegmentName) (kept n : Nat) : Disk :=
  disk.afterAll ((List.range' kept n).map fun position => .writeMeta name position [.blank])

theorem cleared_succ (kept n : Nat) : disk.cleared name kept (n + 1) =
      (disk.cleared name kept n).after (.writeMeta name (kept + n) [.blank]) := by
  simp [cleared, afterAll, range'_concat, map_append]

theorem blanks_succ (n : Nat) : blanks (n + 1) = blanks n ++ [.blank] := replicate_succ'

variable {kept : Nat}

theorem metas_cleared (h : disk.metas.lookup name = some records) (hn : kept + n ≤ records.length) :
    (disk.cleared name kept n).metas.lookup name =
      some (records.take kept ++ blanks n ++ records.drop (kept + n)) := by
  induction n with
  | zero => simpa [cleared, afterAll, blanks] using h
  | succ n ih =>
    have hf : (disk.cleared name kept n).metaOf name =
        records.take kept ++ blanks n ++ records.drop (kept + n) := by
      rw [metaOf, ih (by omega)]
      rfl
    have hl : (records.take kept ++ blanks n).length = kept + n := by
      simp only [length_append, length_take, blanks, length_replicate]
      omega
    have hwr := writeAt_append (records.take kept ++ blanks n) (records.drop (kept + n))
      [LogMeta.blank]
    rw [hl, ← hf, drop_drop] at hwr
    rw [cleared_succ, blanks_succ, ← append_assoc, ← Nat.add_assoc]
    refine (lookup_insert _).trans (congrArg some ?_)
    simpa using hwr

theorem cleared_metas_of_ne {other : SegmentName} (hne : other ≠ name) (kept n : Nat) :
    (disk.cleared name kept n).metas.lookup other = disk.metas.lookup other := by
  induction n with
  | zero => rfl
  | succ n ih =>
    rw [cleared_succ, ← ih]
    exact lookup_insert_ne hne

theorem cleared_datas (kept n : Nat) : (disk.cleared name kept n).datas = disk.datas := by
  induction n with
  | zero => rfl
  | succ n ih =>
    rw [cleared_succ, ← ih]
    rfl

theorem take_recordsOf (offset n : Nat) (entries : List Entry) :
    (recordsOf config offset entries).take n = recordsOf config offset (entries.take n) := by
  induction entries generalizing offset n with
  | nil => simp [recordsOf]
  | cons entry entries ih =>
    cases n with
    | zero => rfl
    | succ n => simp [recordsOf, ih]

/-- The first entries of a block, after the records behind them are cleared. -/
theorem Holds.cleared (h : Holds config disk name first entries tail) (hpos : 0 < first)
    (hn : kept + n ≤ entries.length) (hcut : 0 < n) :
    Holds config (disk.cleared name kept n) name first (entries.take kept)
      (blanks n ++ (recordsOf config 0 entries ++ tail).drop (kept + n)) where
  records_eq := by
    have hlen : kept + n ≤ (recordsOf config 0 entries ++ tail).length := by
      simp only [length_append, length_recordsOf]
      omega
    have hkept : kept ≤ (recordsOf config 0 entries).length := by
      rw [length_recordsOf]
      omega
    rw [metas_cleared h.records_eq hlen, append_assoc, take_append_of_le_length hkept,
      take_recordsOf]
  length_eq := by
    have := h.length_eq
    simp only [length_append, length_take, length_drop, blanks, length_replicate, length_recordsOf]
    omega
  data_eq := by
    obtain ⟨rest, hdata, hsize⟩ := h.data_eq
    refine ⟨bytesOf config (entries.drop kept) ++ rest, ?_, ?_⟩
    · rw [cleared_datas, hdata, ← append_assoc, ← bytesOf_append, take_append_drop]
    · rw [← take_append_drop kept entries, dataLength_append] at hsize
      simp only [length_append, length_bytesOf]
      omega
  numbered := h.numbered.take kept
  signed entry hent := h.signed entry (mem_of_mem_take hent)
  stops := by
    have hhead : (blanks n ++ (recordsOf config 0 entries ++ tail).drop (kept + n)).head? =
        (blanks n).head? := by
      obtain ⟨m, rfl⟩ : ∃ m, n = m + 1 := ⟨n - 1, by omega⟩
      rfl
    intro record hrec
    rw [hhead] at hrec
    exact stops_blanks (Nat.add_pos_left hpos _) n record hrec

/-- The files of all the names are dropped. -/
def Disk.dropAll (disk : Disk) (names : List SegmentName) : Disk :=
  names.foldl (fun disk name => disk.moved name none) disk

def dropSteps (name : SegmentName) : List Step := [.renameData name none, .renameMeta name none]

end

theorem lookup_moveTo_none {β : Type} (files : AList (fun _ : SegmentName => β))
    (source name : SegmentName) :
    (moveTo files source none).lookup name =
      if name = source then none else files.lookup name := by
  have he : moveTo files source none = files.erase source := by
    unfold moveTo
    cases files.lookup source <;> rfl
  rw [he]
  split
  · rename_i heq
    rw [heq, lookup_erase]
  · rename_i hne
    exact lookup_erase_ne hne

theorem metas_dropAll (disk : Disk) (names : List SegmentName) (name : SegmentName) :
    (disk.dropAll names).metas.lookup name =
      if name ∈ names then none else disk.metas.lookup name := by
  induction names generalizing disk with
  | nil => rfl
  | cons head names ih =>
    have hh : (disk.moved head none).metas.lookup name =
        if name = head then none else disk.metas.lookup name := lookup_moveTo_none ..
    rw [dropAll, foldl_cons, ← dropAll, ih, hh]
    by_cases hs : name = head <;> simp [hs]

theorem datas_dropAll (disk : Disk) (names : List SegmentName) (name : SegmentName) :
    (disk.dropAll names).datas.lookup name =
      if name ∈ names then none else disk.datas.lookup name := by
  induction names generalizing disk with
  | nil => rfl
  | cons head names ih =>
    have hh : (disk.moved head none).datas.lookup name =
        if name = head then none else disk.datas.lookup name := lookup_moveTo_none ..
    rw [dropAll, foldl_cons, ← dropAll, ih, hh]
    by_cases hs : name = head <;> simp [hs]

theorem forEach_dropSegment_runsTo {segments : List Segment}
    (hf : ∀ segment ∈ segments, segment.name ∈ disk.datas ∧ segment.name ∈ disk.metas)
    (hnd : (segments.map name).Nodup) :
    RunsTo (Program.forEach segments dropSegment) disk
      (segments.flatMap fun segment => dropSteps segment.name) ()
      (disk.dropAll (segments.map name)) := by
  induction segments generalizing disk with
  | nil => rfl
  | cons segment segments ih =>
    obtain ⟨⟨hd, hm⟩, ho⟩ := forall_mem_cons.mp hf
    obtain ⟨hn, hr⟩ := nodup_cons.mp hnd
    refine (renameFiles_runsTo none hd hm).bind (ih ?_ hr)
    intro other hoth
    have hne : other.name ≠ segment.name := by
      intro heq
      exact hn (heq ▸ mem_map_of_mem hoth)
    obtain ⟨hd', hm'⟩ := ho other hoth
    exact ⟨(mem_moveTo hd).mpr (.inr ⟨hne, hd'⟩), (mem_moveTo hm).mpr (.inr ⟨hne, hm'⟩)⟩

theorem rangesOf_append (base : Nat) (blocks later : List (List Entry)) :
    rangesOf base (blocks ++ later) =
      rangesOf base blocks ++ rangesOf (base + blocks.flatten.length) later := by
  induction blocks generalizing base with
  | nil => simp [rangesOf]
  | cons block blocks ih => simp [rangesOf, ih, Nat.add_assoc]

theorem closedOf_append (base : Nat) (blocks later : List (List Entry)) :
    closedOf config base (blocks ++ later) =
      closedOf config base blocks ++ closedOf config (base + blocks.flatten.length) later := by
  induction blocks generalizing base with
  | nil => simp [closedOf]
  | cons block blocks ih => simp [closedOf, ih, Nat.add_assoc]

theorem holdAll_append {base : Nat} {blocks later : List (List Entry)} :
    HoldAll config disk base (blocks ++ later) ↔ HoldAll config disk base blocks ∧
        HoldAll config disk (base + blocks.flatten.length) later := by
  induction blocks generalizing base with
  | nil => simp [HoldAll]
  | cons block blocks ih => simp [HoldAll, ih, Nat.add_assoc, and_assoc]

namespace Layout

variable (layout : Layout Entry)

def append (batch : List Entry) : Layout Entry :=
  { layout with
    active := layout.active ++ batch
    isLive := by
      obtain ⟨hbase, hlive⟩ := layout.isLive
      refine ⟨hbase, ?_⟩
      cases hclosed : layout.closed with
      | cons block blocks => simpa [hclosed] using hlive
      | nil =>
        simp only [hclosed, headD_nil, length_append, true_and, append_eq_nil_iff] at hlive ⊢
        rcases hlive with hlive | ⟨hactive, hfirst⟩
        · omega
        · cases batch with
          | nil => exact .inr ⟨⟨hactive, rfl⟩, hfirst⟩
          | cons entry batch =>
            left
            simp only [length_cons]
            omega }

def roll (hactive : layout.active ≠ []) : Layout Entry :=
  { layout with
    closed := layout.closed ++ [layout.active]
    active := []
    closed_ne_nil := by
      intro block hblock
      rcases mem_append.mp hblock with hblock | hblock
      · exact layout.closed_ne_nil block hblock
      · rw [mem_singleton.mp hblock]
        exact hactive
    isLive := by
      obtain ⟨hbase, hlive⟩ := layout.isLive
      refine ⟨hbase, .inl ?_⟩
      cases hclosed : layout.closed with
      | cons block blocks => simpa [hclosed] using hlive
      | nil => simpa [hclosed, hactive] using hlive }

theorem activeFirst_roll (ha : layout.active ≠ []) :
    (layout.roll ha).activeFirst = layout.activeFirst + layout.active.length := by
  simp [activeFirst, roll, Nat.add_assoc]

theorem lastIndex_roll (ha : layout.active ≠ []) :
    (layout.roll ha).lastIndex = layout.lastIndex := by
  simp [lastIndex, entries, roll]

end Layout

section

variable {layout : Layout Entry} {tail : List LogMeta}

def Layout.closedName (layout : Layout Entry) : SegmentName :=
  .closed layout.activeFirst (layout.activeFirst + layout.active.length - 1)

theorem Layout.closedName_notMem (layout : Layout Entry) :
    ∀ range ∈ rangesOf layout.base layout.closed,
      SegmentName.closed range.1 range.2 ≠ layout.closedName := by
  intro range hr heq
  have hb := rangesOf_bounds layout.closed_ne_nil hr
  have hf : range.1 = layout.activeFirst := by
    simp only [closedName, SegmentName.closed.injEq] at heq
    exact heq.1
  simp only [activeFirst] at hf
  omega

theorem Directory.closeActive (h : Directory config layout (some tail) disk)
    (hact : layout.active ≠ []) :
    Directory config (layout.roll hact) none
      (disk.moved (.active layout.activeFirst) (some layout.closedName)) where
  fields_eq := h.fields_eq
  closed_hold := by
    refine holdAll_append.mpr ⟨h.closed_hold.congr fun range hrng => ?_, ?_, trivial⟩
    · have hne := layout.closedName_notMem range hrng
      have htgt : some layout.closedName ≠ some (SegmentName.closed range.1 range.2) :=
        fun heq => hne (some.inj heq).symm
      exact ⟨lookup_moveTo_of_ne nofun htgt, lookup_moveTo_of_ne nofun htgt⟩
    · exact ⟨tail, (h.active_holds tail rfl).moved _⟩
  active_holds := nofun
  active_eq_nil _ := rfl
  closed_iff range := by
    have hmem := (h.active_holds tail rfl).mem_metas
    have hcl := h.closed_iff range
    refine (mem_moveTo hmem).trans ?_
    rw [hcl]
    simp [closedName, roll, rangesOf_append, rangesOf, activeFirst,
      Prod.ext_iff, eq_comm, or_comm, or_left_comm]
  active_iff first := by
    have hmem := (h.active_holds tail rfl).mem_metas
    have hfst := h.active_iff first
    refine (mem_moveTo hmem).trans ?_
    simp [hfst, closedName]

theorem Directory.closeActive_runsTo (h : Directory config layout (some tail) disk) :
    RunsTo (segmentOf config true layout.activeFirst layout.active).closeActiveSegment disk
      [.renameData (.active layout.activeFirst) (some layout.closedName),
        .renameMeta (.active layout.activeFirst) (some layout.closedName)]
      (segmentOf config false layout.activeFirst layout.active)
      (disk.moved (.active layout.activeFirst) (some layout.closedName)) := by
  have hh := h.active_holds tail rfl
  refine (RunsTo.assert rfl disk).bind_nil ?_
  exact (renameFiles_runsTo _ hh.mem_datas hh.mem_metas).bind rfl

/-- The steps of `rollActiveSegment`. -/
def rollSteps (config : Config Entry) (layout : Layout Entry) : List Step :=
  [.renameData (.active layout.activeFirst) (some layout.closedName),
    .renameMeta (.active layout.activeFirst) (some layout.closedName),
    .createData (.active (layout.lastIndex + 1)) config.dataSizeLimit,
    .createMeta (.active (layout.lastIndex + 1)) config.metaSizeLimit]

variable {segment : Segment} {n : Nat} {rolled : Layout Entry}

theorem lt_firstIndex_of_mem_closedOf {base : Nat} {blocks : List (List Entry)}
    (hne : ∀ block ∈ blocks, block ≠ []) (hm : segment ∈ closedOf config base blocks) :
    segment.firstIndex < base + blocks.flatten.length := by
  obtain ⟨front, block, behind, rfl, rfl⟩ := exists_of_mem_closedOf hm
  have hpos := length_pos_iff.mpr (hne block (by simp))
  simp only [segmentOf, flatten_append, flatten_cons, length_append]
  omega

theorem putClosed_eq {closed : List Segment}
    (h : ∀ other ∈ closed, other.firstIndex < segment.firstIndex) :
    putClosed segment closed = closed ++ [segment] := by
  have hf : (closed.filter fun other => other.firstIndex != segment.firstIndex) = closed := by
    refine filter_eq_self.mpr fun other ho => ?_
    have := h other ho
    simp only [bne_iff_ne, ne_eq]
    omega
  rw [putClosed, hf]
  clear hf
  induction closed with
  | nil => rfl
  | cons head closed ih =>
    obtain ⟨hh, hr⟩ := forall_mem_cons.mp h
    rw [orderedInsert_cons, if_neg (Nat.not_le.mpr hh), ih hr, cons_append]

theorem Layout.requireActive_runsTo (layout : Layout Entry) (config : Config Entry) (disk : Disk) :
    RunsTo (Program.require Check.noActive (layout.toLog config).activeSegment : Action Segment)
      disk [] (segmentOf config true layout.activeFirst layout.active) disk :=
  RunsTo.require rfl disk

theorem Directory.roll_runsTo (h : Directory config layout (some tail) disk)
    (hact : layout.active ≠ []) :
    RunsTo (rollActiveSegment config (layout.toLog config)) disk
      (rollSteps config layout) ((layout.roll hact).toLog config)
      ((disk.moved (.active layout.activeFirst) (some layout.closedName)).createActive config
        (layout.lastIndex + 1)) := by
  have hreq := layout.requireActive_runsTo config disk
  refine hreq.bind_nil (h.closeActive_runsTo.bind ?_)
  refine (createActiveSegment_runsTo _ _).bind ?_
  have hput : putClosed (segmentOf config false layout.activeFirst layout.active)
      (layout.toLog config).closedSegments =
        closedOf config layout.base (layout.closed ++ [layout.active]) := by
    rw [putClosed_eq, closedOf_append]
    · rfl
    · exact fun other hoth => lt_firstIndex_of_mem_closedOf layout.closed_ne_nil hoth
  have hnext : layout.lastIndex + 1 = (layout.roll hact).activeFirst := by
    have := layout.activeFirst_pos
    rw [layout.activeFirst_roll, layout.lastIndex_eq]
    omega
  have hlog : (layout.roll hact).toLog config =
      { layout.toLog config with
        closedSegments := putClosed
          (segmentOf config false layout.activeFirst layout.active)
          (layout.toLog config).closedSegments
        activeSegment := some (segmentOf config true (layout.lastIndex + 1) []) } := by
    rw [hput, hnext]
    simp only [toLog, layout.lastIndex_roll]
    rfl
  rw [hlog]
  rfl

/-- The two directories differ in the files of `name` at most. -/
structure SameBut (disk disk' : Disk) (name : SegmentName) : Prop where
  fields_eq : disk'.fields = disk.fields
  metas_eq : ∀ other, other ≠ name → disk'.metas.lookup other = disk.metas.lookup other
  datas_eq : ∀ other, other ≠ name → disk'.datas.lookup other = disk.datas.lookup other

variable {disk' : Disk} {batch : List Entry}

theorem SameBut.trans {disk'' : Disk} {name : SegmentName} (h : SameBut disk disk' name)
    (h' : SameBut disk' disk'' name) : SameBut disk disk'' name where
  fields_eq := h'.fields_eq.trans h.fields_eq
  metas_eq other hne := (h'.metas_eq other hne).trans (h.metas_eq other hne)
  datas_eq other hne := (h'.datas_eq other hne).trans (h.datas_eq other hne)

theorem Directory.extendActive {tail' : List LogMeta} (h : Directory config layout (some tail) disk)
    (hs : SameBut disk disk' (.active layout.activeFirst))
    (hh : Holds config disk' (.active layout.activeFirst) layout.activeFirst
      (layout.active ++ batch) tail') :
    Directory config (layout.append batch) (some tail') disk' where
  fields_eq := hs.fields_eq.trans h.fields_eq
  closed_hold := h.closed_hold.congr fun _ _ => ⟨hs.metas_eq _ nofun, hs.datas_eq _ nofun⟩
  active_holds := by
    rintro records hr
    obtain rfl := some.inj hr
    exact hh
  active_eq_nil := nofun
  closed_iff range := by
    rw [← lookup_isSome, hs.metas_eq (.closed range.1 range.2) nofun, lookup_isSome]
    exact h.closed_iff range
  active_iff first := by
    by_cases hf : first = layout.activeFirst
    · subst hf
      exact iff_of_true hh.mem_metas ⟨rfl, rfl⟩
    · have hne : SegmentName.active first ≠ .active layout.activeFirst := by simpa using hf
      rw [← lookup_isSome, hs.metas_eq _ hne, lookup_isSome]
      exact h.active_iff first

theorem written_sameBut (disk : Disk) (name : SegmentName) (held batch : List Entry)
    (records : List LogMeta) : SameBut disk (disk.written config name held batch records) name :=
  ⟨rfl, fun _ hne => lookup_insert_ne hne, fun _ hne => lookup_insert_ne hne⟩

theorem Directory.append {n : Nat} {batch : List Entry}
    (h : Directory config layout (some (blanks n)) disk)
    (ha : CanAppend config layout.activeFirst layout.active batch) :
    Directory config (layout.append batch) (some (blanks (n - batch.length)))
      (disk.written config (.active layout.activeFirst) layout.active batch
        (recordsOf config (dataLength config layout.active) batch)) :=
  h.extendActive (written_sameBut ..)
    ((h.active_holds _ rfl).appended layout.activeFirst_pos ha)

/-- What rolling does not change. -/
structure Layout.SameLog (layout rolled : Layout Entry) : Prop where
  currentTerm_eq : rolled.currentTerm = layout.currentTerm
  voteFor_eq : rolled.voteFor = layout.voteFor
  firstIndex_eq : rolled.firstIndex = layout.firstIndex
  base_eq : rolled.base = layout.base
  entries_eq : rolled.entries = layout.entries

theorem Layout.sameLog_refl (layout : Layout Entry) : layout.SameLog layout :=
  ⟨rfl, rfl, rfl, rfl, rfl⟩

theorem shouldRoll_runsTo (config : Config Entry) (first : Nat) (held batch : List Entry)
    (disk : Disk) :
    RunsTo ((segmentOf config true first held).shouldRoll config batch) disk []
      ((segmentOf config true first held).exceeds config batch) disk :=
  (RunsTo.assert rfl disk).bind_nil rfl

theorem rollIfNeeded_of_fits (disk : Disk) (hf : Fits config layout.active batch) :
    RunsTo (rollIfNeeded config (layout.toLog config) batch) disk []
      (layout.toLog config) disk := by
  have hr := layout.requireActive_runsTo config disk
  have hs := shouldRoll_runsTo config layout.activeFirst layout.active batch disk
  rw [(exceeds_segmentOf ..).mpr hf] at hs
  exact hr.bind_nil (hs.bind_nil rfl)

/-- The roll before an append: it happens if the batch does not fit, and then
the active segment is not empty. -/
theorem Directory.rollIfNeeded_runsTo (h : Directory config layout (some (blanks n)) disk)
    (hfits : Fits config [] batch) :
    ∃ steps rolled m disk', RunsTo (rollIfNeeded config (layout.toLog config) batch) disk steps
        (rolled.toLog config) disk' ∧
      Directory config rolled (some (blanks m)) disk' ∧ Fits config rolled.active batch ∧
      layout.SameLog rolled ∧
      rolled.active.length =
        (if (segmentOf config true layout.activeFirst layout.active).exceeds config batch then 0
          else layout.active.length) ∧
      disk.afterAll steps = disk' := by
  have hreq := layout.requireActive_runsTo config disk
  have hshd := shouldRoll_runsTo config layout.activeFirst layout.active batch disk
  cases hroll : (segmentOf config true layout.activeFirst layout.active).exceeds config batch with
  | false =>
    have hfits := (exceeds_segmentOf ..).mp hroll
    exact ⟨[], layout, n, disk, rollIfNeeded_of_fits disk hfits, h, hfits, layout.sameLog_refl, rfl,
      rfl⟩
  | true =>
    have hact : layout.active ≠ [] := by
      intro hnil
      rw [hnil, (exceeds_segmentOf ..).mpr hfits] at hroll
      cases hroll
    have hcre := (h.closeActive hact).createActive rfl
    have hnext : layout.lastIndex + 1 = (layout.roll hact).activeFirst := by
      have := layout.activeFirst_pos
      rw [layout.activeFirst_roll, layout.lastIndex_eq]
      omega
    rw [← hnext] at hcre
    refine ⟨rollSteps config layout, layout.roll hact, config.slots, _, ?_, hcre, hfits,
      ⟨rfl, rfl, rfl, rfl, by simp [Layout.entries, Layout.roll]⟩, rfl, rfl⟩
    rw [hroll] at hshd
    exact hreq.bind_nil (hshd.bind_nil (h.roll_runsTo hact))

/-- The two writes of an append to the active segment. -/
def appendSteps (config : Config Entry) (layout : Layout Entry) (batch : List Entry) : List Step :=
  [.writeData (.active layout.activeFirst) (dataLength config layout.active)
      (bytesOf config batch),
    .writeMeta (.active layout.activeFirst) layout.active.length
      (recordsOf config (dataLength config layout.active) batch)]

theorem Layout.lastIndex_append (layout : Layout Entry) (batch : List Entry) :
    (layout.append batch).lastIndex = layout.lastIndex + batch.length := by
  have := layout.base_pos
  simp only [lastIndex, entries, append, length_append]
  omega

theorem Layout.SameLog.lastIndex_eq (h : layout.SameLog rolled) :
    rolled.lastIndex = layout.lastIndex := by
  rw [lastIndex, lastIndex, h.base_eq, h.entries_eq]

theorem Directory.writeBatch_runsTo {entry : Entry} {steps : List Step}
    (hroll : RunsTo (rollIfNeeded config (layout.toLog config) (entry :: batch))
      disk steps (rolled.toLog config) disk') (hdir : Directory config rolled (some tail) disk')
    (hsame : layout.SameLog rolled) (hfits : Fits config rolled.active (entry :: batch))
    (hbat : IsBatch config (layout.lastIndex + 1) (entry :: batch)) :
    CanAppend config rolled.activeFirst rolled.active (entry :: batch) ∧
    RunsTo (appendEntries config (layout.toLog config) (entry :: batch)) disk
      (steps ++ appendSteps config rolled (entry :: batch))
      ((rolled.append (entry :: batch)).toLog config, true)
      (disk'.written config (.active rolled.activeFirst) rolled.active (entry :: batch)
        (recordsOf config (dataLength config rolled.active) (entry :: batch))) := by
  have hidx : ¬ config.format.index entry ≠ (layout.toLog config).lastIndex + 1 :=
    not_not.mpr hbat.numbered.1
  have hnext : layout.lastIndex + 1 = rolled.activeFirst + rolled.active.length := by
    have := rolled.activeFirst_pos
    rw [← hsame.lastIndex_eq, rolled.lastIndex_eq]
    omega
  have happ : CanAppend config rolled.activeFirst rolled.active (entry :: batch) :=
    ⟨hfits, hnext ▸ hbat.numbered, hbat.signed⟩
  have hreq := rolled.requireActive_runsTo config disk'
  have hwr := (hdir.active_holds _ rfl).appendEntries_runsTo rolled.activeFirst_pos happ
  have hlog : (rolled.append (entry :: batch)).toLog config =
      { rolled.toLog config with
        activeSegment := some (segmentOf config true rolled.activeFirst
          (rolled.active ++ entry :: batch))
        lastIndex := (rolled.toLog config).lastIndex + (entry :: batch).length } := by
    simp only [toLog, rolled.lastIndex_append]
    rfl
  refine ⟨happ, ?_⟩
  simp only [SegmentLog.appendEntries, hidx, if_false]
  refine hroll.bind (hreq.bind_nil (hwr.bind_right ?_))
  rw [hlog]
  rfl

theorem Directory.appendEntries_runsTo (h : Directory config layout (some (blanks n)) disk)
    (hb : IsBatch config (layout.lastIndex + 1) batch) :
    ∃ steps rolled m disk', RunsTo (appendEntries config (layout.toLog config) batch) disk steps
        ((rolled.append batch).toLog config, true) disk' ∧
      Directory config (rolled.append batch) (some (blanks m)) disk' ∧ layout.SameLog rolled := by
  cases batch with
  | nil =>
    have hn : layout.append [] = layout := by simp [Layout.append]
    refine ⟨[], layout, n, disk, ?_, by rwa [hn], layout.sameLog_refl⟩
    rw [hn]
    rfl
  | cons entry batch =>
    obtain ⟨steps, rolled, m, disk', hr, hd, hf, hs, -⟩ :=
      h.rollIfNeeded_runsTo hb.fits
    obtain ⟨ha, hrun⟩ := Directory.writeBatch_runsTo hr hd hs hf hb
    exact ⟨_, rolled, _, _, hrun, hd.append ha, hs⟩

end

end MySuperLedger.Storage
