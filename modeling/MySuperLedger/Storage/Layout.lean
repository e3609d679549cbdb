import MySuperLedger.Storage.Block

/-! # The log as a chain of blocks

A layout is what the directory means: the blocks of the closed segments and of
the active one, which lie one behind the other from `base` on, the segments that
a truncated prefix has left behind, and the three small files. Its fields say
that it is well formed. `Directory` ties it to the files and `Layout.toLog` to
the objects in memory; a start on the directory finds the objects of the layout.
-/

namespace MySuperLedger.Storage

open Collections Effects List Option AList SegmentLog
open Program (RunsTo)

section

variable {names : List SegmentName} {listing : Listing} {closed : List (Nat × Nat)}
  {active : Option Nat}

/-- The listing holds exactly the names seen so far. -/
structure Listed (names : List SegmentName) (listing : Listing) : Prop where
  sorted : listing.closed.Pairwise fun left right => left.1 < right.1
  closed_iff : ∀ range, range ∈ listing.closed ↔ SegmentName.closed range.1 range.2 ∈ names
  active_iff : ∀ first, listing.active = some first ↔ SegmentName.active first ∈ names

/-- No two names claim the same place in the chain. -/
structure Unambiguous (names : List SegmentName) : Prop where
  closed_eq : ∀ {first last last'}, SegmentName.closed first last ∈ names →
    SegmentName.closed first last' ∈ names → last = last'
  active_eq : ∀ {first first'}, SegmentName.active first ∈ names →
    SegmentName.active first' ∈ names → first = first'

theorem pairwise_orderedInsert {range : Nat × Nat} {ranges : List (Nat × Nat)}
    (hs : ranges.Pairwise fun left right => left.1 < right.1)
    (hnew : ∀ other ∈ ranges, other.1 ≠ range.1) :
    (ranges.orderedInsert (fun left right => left.1 ≤ right.1) range).Pairwise
      fun left right => left.1 < right.1 := by
  induction ranges with
  | nil => simp
  | cons head ranges ih =>
    obtain ⟨hh, hr⟩ := pairwise_cons.mp hs
    obtain ⟨hne, hn⟩ := forall_mem_cons.mp hnew
    rw [orderedInsert_cons]
    split
    · rename_i hle
      refine pairwise_cons.mpr ⟨?_, hs⟩
      intro other ho
      rcases mem_cons.mp ho with rfl | ho
      · omega
      · have := hh other ho
        omega
    · rename_i hlt
      refine pairwise_cons.mpr ⟨?_, ih hr hn⟩
      intro other ho
      rcases (mem_orderedInsert _).mp ho with rfl | ho
      · omega
      · exact hh other ho

theorem eq_of_first_eq {range range' : Nat × Nat}
    (hs : closed.Pairwise fun left right => left.1 < right.1) (hm : range ∈ closed)
    (hm' : range' ∈ closed) (hf : range.1 = range'.1) : range = range' := by
  induction closed with
  | nil => cases hm
  | cons head closed ih =>
    obtain ⟨hh, hr⟩ := pairwise_cons.mp hs
    rcases mem_cons.mp hm with rfl | hin <;> rcases mem_cons.mp hm' with rfl | hin'
    · rfl
    · have := hh range' hin'
      omega
    · have := hh range hin
      omega
    · exact ih hr hin hin'

theorem addName_listed {done : List SegmentName} {name : SegmentName}
    (hlist : Listed done listing) (hnew : name ∉ done) (hone : Unambiguous (done ++ [name])) :
    ∃ next, addName listing name = .ok next ∧ Listed (done ++ [name]) next := by
  cases name with
  | closed first last =>
    have hfree : ∀ other ∈ listing.closed, other.1 ≠ first := by
      rintro ⟨first', last'⟩ hmem rfl
      have hdone := (hlist.closed_iff _).mp hmem
      have hsame := hone.closed_eq (mem_append_left _ hdone)
        (mem_append_right _ (mem_singleton_self _))
      simp only at hsame
      exact hnew (hsame ▸ hdone)
    have hany : (listing.closed.any fun range => range.1 == first) = false := by
      simpa using hfree
    refine ⟨_, by simp only [addName, hany]; rfl, ?_, ?_, ?_⟩
    · exact pairwise_orderedInsert hlist.sorted hfree
    · intro range
      simp [mem_orderedInsert, hlist.closed_iff, Prod.ext_iff, or_comm]
    · simpa using hlist.active_iff
  | active first =>
    have hnone : listing.active = none := by
      cases hact : listing.active with
      | none => rfl
      | some other =>
        have hdone := (hlist.active_iff other).mp hact
        have hsame := hone.active_eq (mem_append_left _ hdone)
          (mem_append_right _ (mem_singleton_self _))
        exact absurd (hsame ▸ hdone) hnew
    refine ⟨{ listing with active := some first }, by simp [addName, hnone],
      hlist.sorted, ?_, ?_⟩
    · simpa using hlist.closed_iff
    · intro other
      have hdone := hlist.active_iff other
      rw [hnone] at hdone
      simp [← hdone, eq_comm]

theorem foldlM_addName {done : List SegmentName} (hl : Listed done listing)
    (hnd : (done ++ names).Nodup) (ho : Unambiguous (done ++ names)) :
    ∃ final, names.foldlM addName listing = .ok final ∧
      Listed (done ++ names) final := by
  induction names generalizing done listing with
  | nil => exact ⟨listing, rfl, by simpa using hl⟩
  | cons name names ih =>
    have hs : done ++ name :: names = done ++ [name] ++ names := by simp
    rw [hs] at hnd ho ⊢
    have hnew : name ∉ done := by
      intro hm
      have hd := (nodup_append.mp (nodup_append.mp hnd).1).2.2
      exact hd name hm name (mem_singleton_self _) rfl
    have hfst : Unambiguous (done ++ [name]) :=
      ⟨fun h h' => ho.closed_eq (mem_append_left _ h) (mem_append_left _ h'),
        fun h h' => ho.active_eq (mem_append_left _ h) (mem_append_left _ h')⟩
    obtain ⟨next, ha, hn⟩ := addName_listed hl hnew hfst
    obtain ⟨final, hf, hfin⟩ := ih hn hnd ho
    exact ⟨final, by rw [foldlM_cons, ha]; exact hf, hfin⟩

theorem listSegments_eq {disk : Disk} (hs : closed.Pairwise fun left right => left.1 < right.1)
    (hcl : ∀ range : Nat × Nat, .closed range.1 range.2 ∈ disk.metas ↔ range ∈ closed)
    (ha : ∀ first, .active first ∈ disk.metas ↔ active = some first) :
    listSegments disk = .ok ⟨closed, active⟩ := by
  have hn : Listed [] {} := ⟨.nil, by simp, by simp⟩
  have ho : Unambiguous ([] ++ disk.metas.keys) := by
    refine ⟨fun {first last last'} h h' => ?_, fun {first first'} h h' => ?_⟩
    · have hm := (hcl (first, last)).mp h
      have hm' := (hcl (first, last')).mp h'
      exact congrArg Prod.snd (eq_of_first_eq hs hm hm' rfl)
    · have hfst := (ha first).mp h
      have hf' := (ha first').mp h'
      exact some.inj (hfst.symm.trans hf')
  obtain ⟨⟨closed', active'⟩, hf, hl⟩ :=
    foldlM_addName hn (by simpa using disk.metas.keys_nodup) ho
  have hsame : closed' = closed := by
    refine hl.sorted.eq_of_mem_iff hs fun range => ?_
    rw [hl.closed_iff, ← hcl]
    rfl
  have ha' : active' = active := by
    ext first
    exact (hl.active_iff first).trans (ha first)
  rw [listSegments, hf, hsame, ha']

end

/-- The first index lies in the first block, or the log is empty. -/
def IsLive {Entry : Type} (firstIndex base : Nat) (closed : List (List Entry))
    (active : List Entry) : Prop :=
  base ≤ firstIndex ∧ (firstIndex < base + (closed.headD active).length ∨
    closed = [] ∧ active = [] ∧ firstIndex = base)

theorem forall_mem_nil_ne_nil : ∀ block ∈ ([] : List (List Entry)), block ≠ [] := by
  simp

structure Layout (Entry : Type) where
  currentTerm : Nat
  voteFor : Nat
  firstIndex : Nat
  /-- Ranges of the closed segments whose entries are all truncated. -/
  retained : List (Nat × Nat)
  base : Nat
  closed : List (List Entry)
  active : List Entry
  base_pos : 0 < base
  retained_sorted : retained.Pairwise fun left right => left.1 < right.1
  retained_before : ∀ range ∈ retained, range.1 ≤ range.2 ∧ range.2 < base
  closed_ne_nil : ∀ block ∈ closed, block ≠ []
  isLive : IsLive firstIndex base closed active

variable {Entry : Type} (config : Config Entry)

/-- The ranges of blocks that lie one behind the other. -/
def rangesOf (base : Nat) : List (List Entry) → List (Nat × Nat)
  | [] => []
  | block :: blocks => (base, base + block.length - 1) :: rangesOf (base + block.length) blocks

def closedOf (base : Nat) : List (List Entry) → List Segment
  | [] => []
  | block :: blocks => segmentOf config false base block :: closedOf (base + block.length) blocks

/-- The files of the closed segments hold their blocks. -/
def HoldAll (disk : Disk) (base : Nat) : List (List Entry) → Prop
  | [] => True
  | block :: blocks =>
    (∃ tail, Holds config disk (.closed base (base + block.length - 1)) base block tail) ∧
      HoldAll disk (base + block.length) blocks

namespace Layout

variable (layout : Layout Entry)

def activeFirst : Nat := layout.base + layout.closed.flatten.length

def entries : List Entry := layout.closed.flatten ++ layout.active

def lastIndex : Nat := layout.base + layout.entries.length - 1

/-- The objects in memory. -/
def toLog : SegmentLog where
  firstIndex := layout.firstIndex
  lastIndex := layout.lastIndex
  currentTerm := layout.currentTerm
  voteFor := layout.voteFor
  closedSegments := closedOf config layout.base layout.closed
  activeSegment := some (segmentOf config true layout.activeFirst layout.active)

/-- What the three small files hold. -/
def fields : Option Nat × Option Nat × Option Nat :=
  (some layout.currentTerm, some layout.voteFor, some layout.firstIndex)

end Layout

def Disk.fields (disk : Disk) : Option Nat × Option Nat × Option Nat :=
  (disk.currentTerm, disk.voteFor, disk.firstIndex)

theorem Disk.fields_eq_iff {disk : Disk} {layout : Layout Entry} :
    disk.fields = layout.fields ↔ disk.currentTerm = some layout.currentTerm ∧
      disk.voteFor = some layout.voteFor ∧ disk.firstIndex = some layout.firstIndex := by
  simp [Disk.fields, Layout.fields]

/-- The directory stores the layout. `tail` is what follows the records of the
active segment in its meta file, `none` if the active segment has no files. -/
structure Directory (layout : Layout Entry) (tail : Option (List LogMeta)) (disk : Disk) :
    Prop where
  fields_eq : disk.fields = layout.fields
  closed_hold : HoldAll config disk layout.base layout.closed
  active_holds : ∀ records ∈ tail, Holds config disk (.active layout.activeFirst)
    layout.activeFirst layout.active records
  active_eq_nil : tail = none → layout.active = []
  closed_iff : ∀ range : Nat × Nat, .closed range.1 range.2 ∈ disk.metas ↔
    range ∈ layout.retained ++ rangesOf layout.base layout.closed
  active_iff : ∀ first, .active first ∈ disk.metas ↔ tail.isSome ∧ first = layout.activeFirst

variable {config}

section

variable {disk : Disk} {base firstIndex : Nat} {blocks : List (List Entry)}

theorem rangesOf_bounds (hne : ∀ block ∈ blocks, block ≠ []) {range : Nat × Nat}
    (hm : range ∈ rangesOf base blocks) :
    base ≤ range.1 ∧ range.1 ≤ range.2 ∧ range.2 < base + blocks.flatten.length := by
  induction blocks generalizing base with
  | nil => cases hm
  | cons block blocks ih =>
    obtain ⟨hb, hr⟩ := forall_mem_cons.mp hne
    have hl := length_pos_iff.mpr hb
    rw [flatten_cons, length_append]
    rcases mem_cons.mp hm with rfl | hm
    · simp only
      omega
    · have := ih hr hm
      omega

theorem rangesOf_sorted (hne : ∀ block ∈ blocks, block ≠ []) :
    (rangesOf base blocks).Pairwise fun left right => left.1 < right.1 := by
  induction blocks generalizing base with
  | nil => exact .nil
  | cons block blocks ih =>
    obtain ⟨hb, hr⟩ := forall_mem_cons.mp hne
    have hl := length_pos_iff.mpr hb
    refine pairwise_cons.mpr ⟨fun range hm => ?_, ih hr⟩
    have := rangesOf_bounds hr hm
    simp only
    omega

theorem recoverClosed_retained {retained ranges : List (Nat × Nat)}
    (hp : ∀ range ∈ retained, range.1 ≤ range.2 ∧ range.2 < firstIndex) :
    recoverClosed disk firstIndex none (retained ++ ranges) =
      recoverClosed disk firstIndex none ranges := by
  induction retained with
  | nil => rfl
  | cons range retained ih =>
    obtain ⟨⟨hle, hlt⟩, hr⟩ := forall_mem_cons.mp hp
    obtain ⟨first, last⟩ := range
    have hf : SegmentLog.Follows firstIndex first none := by
      simp only [SegmentLog.Follows]
      omega
    simp only [cons_append, recoverClosed, ensure_of hle, ensure_of hf, bind, Except.bind]
    rw [if_pos ⟨trivial, hlt⟩, ih hr]

theorem recoverClosed_blocks {previous : Option Nat} (hpos : 0 < base)
    (hne : ∀ block ∈ blocks, block ≠ []) (hold : HoldAll config disk base blocks)
    (hfol : SegmentLog.Follows firstIndex base previous)
    (hlive : previous = none → ∀ block ∈ blocks.head?, firstIndex < base + block.length) :
    recoverClosed disk firstIndex previous (rangesOf base blocks) =
      .ok (closedOf config base blocks) := by
  induction blocks generalizing base previous with
  | nil => rfl
  | cons block blocks ih =>
    obtain ⟨hblk, hrest⟩ := forall_mem_cons.mp hne
    have hlen := length_pos_iff.mpr hblk
    obtain ⟨⟨tail, hhold⟩, hold⟩ := hold
    have hle : base ≤ base + block.length - 1 := by omega
    have hkept : ¬ (previous = none ∧ base + block.length - 1 < firstIndex) := by
      rintro ⟨hnone, hlt⟩
      have := hlive hnone block rfl
      omega
    have hnext : SegmentLog.Follows firstIndex (base + block.length)
        (some (base + block.length - 1)) := by
      simp only [SegmentLog.Follows]
      omega
    have hpos' : 0 < base + block.length := by omega
    have htail := ih hpos' hrest hold hnext nofun
    simp only [rangesOf, recoverClosed, ensure_of hle, ensure_of hfol, bind,
      Except.bind, hhold.recover hpos (.inr rfl)]
    rw [if_neg hkept]
    simp only [segmentOf, htail]
    rfl

theorem getLast?_closedOf (hne : ∀ block ∈ blocks, block ≠ []) (hb : blocks ≠ []) :
    (closedOf config base blocks).getLast?.map Segment.lastIndex =
      some (base + blocks.flatten.length - 1) := by
  induction blocks generalizing base with
  | nil => exact absurd rfl hb
  | cons block blocks ih =>
    cases blocks with
    | nil => simp [closedOf, segmentOf]
    | cons next blocks =>
      rw [closedOf, getLast?_cons_of_ne_nil (by simp [closedOf]),
        ih (forall_mem_cons.mp hne).2 (cons_ne_nil _ _)]
      simp only [flatten_cons, length_append]
      congr 1
      omega

end

theorem perform_runsTo {disk : Disk} {step : Step} (h : disk.allows step) :
    RunsTo (perform step) disk [step] () (disk.after step) := by
  simp [RunsTo, perform, Program.get, Program.assert, Program.emit, Program.modify, h,
    bind, Program.bind]

/-- The two files of a new active segment. -/
def Disk.createActive (config : Config Entry) (disk : Disk) (first : Nat) : Disk :=
  (disk.after (.createData (.active first) config.dataSizeLimit)).after
    (.createMeta (.active first) config.metaSizeLimit)

theorem createActiveSegment_runsTo (disk : Disk) (first : Nat) :
    RunsTo (Segment.createActiveSegment config first) disk
      [.createData (.active first) config.dataSizeLimit,
        .createMeta (.active first) config.metaSizeLimit]
      (segmentOf config true first []) (disk.createActive config first) := by
  have hd : disk.allows (.createData (.active first) config.dataSizeLimit) := trivial
  have hm : (disk.after (.createData (.active first) config.dataSizeLimit)).allows
      (.createMeta (.active first) config.metaSizeLimit) := trivial
  refine (perform_runsTo hd).bind ((perform_runsTo hm).bind ?_)
  rfl

def blanks (n : Nat) : List LogMeta := List.replicate n .blank

theorem stops_blanks {next : Nat} (hp : 0 < next) (n : Nat) : Stops next (blanks n) := by
  intro record hr
  have hm : record ∈ blanks n := mem_of_mem_head? hr
  rw [eq_of_mem_replicate hm]
  exact hp.ne

section

variable {layout : Layout Entry} {tail : Option (List LogMeta)} {disk : Disk}

theorem Directory.listSegments (h : Directory config layout tail disk) :
    listSegments disk = .ok ⟨layout.retained ++ rangesOf layout.base layout.closed,
      tail.map fun _ => layout.activeFirst⟩ := by
  refine listSegments_eq ?_ h.closed_iff ?_
  · refine pairwise_append.mpr ⟨layout.retained_sorted, rangesOf_sorted layout.closed_ne_nil, ?_⟩
    intro left hl right hr
    have := layout.retained_before left hl
    have := rangesOf_bounds layout.closed_ne_nil hr
    omega
  · intro first
    rw [h.active_iff]
    cases tail <;> simp [eq_comm]

theorem Layout.recoverClosed (layout : Layout Entry)
    (ho : HoldAll config disk layout.base layout.closed) :
    recoverClosed disk layout.firstIndex none
      (layout.retained ++ rangesOf layout.base layout.closed) =
        .ok (closedOf config layout.base layout.closed) := by
  have hb := layout.isLive.1
  rw [recoverClosed_retained]
  · refine recoverClosed_blocks layout.base_pos layout.closed_ne_nil ho hb ?_
    intro _ block hblk
    obtain ⟨rest, hcl⟩ := head?_eq_some_iff.mp hblk
    have hl := layout.isLive.2
    simpa [hcl] using hl
  · intro range hr
    have := layout.retained_before range hr
    omega

theorem HoldAll.congr {disk' : Disk} {base : Nat} {blocks : List (List Entry)}
    (h : HoldAll config disk base blocks)
    (hfil : ∀ range ∈ rangesOf base blocks,
      disk'.metas.lookup (.closed range.1 range.2) = disk.metas.lookup (.closed range.1 range.2) ∧
      disk'.datas.lookup (.closed range.1 range.2) = disk.datas.lookup (.closed range.1 range.2)) :
    HoldAll config disk' base blocks := by
  induction blocks generalizing base with
  | nil => trivial
  | cons block blocks ih =>
    obtain ⟨⟨records, hh⟩, hr⟩ := h
    obtain ⟨hf, ho⟩ := forall_mem_cons.mp hfil
    exact ⟨⟨records, hh.congr hf.1 hf.2⟩, ih hr ho⟩

theorem Directory.createActive (h : Directory config layout tail disk) (hnil : layout.active = []) :
    Directory config layout (some (blanks config.slots))
      (disk.createActive config layout.activeFirst) where
  fields_eq := h.fields_eq
  closed_hold := by
    refine h.closed_hold.congr fun range _ => ⟨?_, ?_⟩
    · exact lookup_insert_ne nofun
    · exact lookup_insert_ne nofun
  active_holds := by
    rintro records hrecs
    obtain rfl := some.inj hrecs
    rw [hnil]
    have hpos : 0 < layout.activeFirst := Nat.add_pos_left layout.base_pos _
    refine ⟨?_, ?_, ⟨List.replicate config.dataSizeLimit 0, ?_, ?_⟩, trivial, by simp,
      stops_blanks hpos _⟩
    · exact lookup_insert _
    · simp [blanks]
    · exact lookup_insert _
    · simp
  active_eq_nil := nofun
  closed_iff range := by
    rw [← h.closed_iff]
    simp [Disk.createActive, Disk.after, mem_insert]
  active_iff first := by
    have hact := h.active_iff first
    simp [Disk.createActive, Disk.after, mem_insert, hact]

namespace Layout

theorem activeFirst_pos (layout : Layout Entry) : 0 < layout.activeFirst :=
  Nat.add_pos_left layout.base_pos _

theorem lastIndex_eq (layout : Layout Entry) :
    layout.lastIndex = layout.activeFirst + layout.active.length - 1 := by
  simp [lastIndex, entries, activeFirst, Nat.add_assoc]

theorem base_lt_activeFirst (h : layout.closed ≠ []) : layout.base < layout.activeFirst := by
  obtain ⟨block, blocks, hc⟩ := exists_cons_of_ne_nil h
  have hb := layout.closed_ne_nil block (by simp [hc])
  have hl := length_pos_iff.mpr hb
  simp only [activeFirst, hc, flatten_cons, length_append]
  omega

theorem firstIndex_lt_activeFirst (h : layout.closed ≠ []) :
    layout.firstIndex < layout.activeFirst := by
  obtain ⟨block, blocks, hc⟩ := exists_cons_of_ne_nil h
  rcases layout.isLive.2 with hl | ⟨hn, -⟩
  · simp only [activeFirst, hc, flatten_cons, length_append, headD_cons] at hl ⊢
    omega
  · exact absurd hn h

theorem entries_eq_nil_iff : layout.entries = [] ↔ layout.closed = [] ∧ layout.active = [] := by
  refine ⟨fun h => ?_, fun ⟨hc, ha⟩ => by simp [entries, hc, ha]⟩
  obtain ⟨hf, ha⟩ := append_eq_nil_iff.mp h
  refine ⟨eq_nil_iff_forall_not_mem.mpr fun block hb => ?_, ha⟩
  exact layout.closed_ne_nil block hb (flatten_eq_nil_iff.mp hf block hb)

theorem firstIndex_le_lastIndex (h : layout.entries ≠ []) :
    layout.firstIndex ≤ layout.lastIndex := by
  by_cases hc : layout.closed = []
  · rcases layout.isLive.2 with hl | ⟨-, ha, -⟩
    · simp only [hc, headD_nil] at hl
      simp only [lastIndex, entries, hc, flatten_nil, nil_append]
      omega
    · exact absurd (entries_eq_nil_iff.mpr ⟨hc, ha⟩) h
  · have := firstIndex_lt_activeFirst hc
    rw [lastIndex_eq]
    omega

theorem firstIndex_eq_base (h : layout.entries = []) : layout.firstIndex = layout.base := by
  obtain ⟨hc, ha⟩ := entries_eq_nil_iff.mp h
  rcases layout.isLive.2 with hl | ⟨-, -, hf⟩
  · simp only [hc, ha, headD_nil, length_nil] at hl
    have := layout.isLive.1
    omega
  · exact hf

theorem lastClosed_eq (layout : Layout Entry) :
    (closedOf config layout.base layout.closed).getLast?.map Segment.lastIndex =
      if layout.closed = [] then none else some (layout.activeFirst - 1) := by
  by_cases hc : layout.closed = []
  · simp [hc, closedOf]
  · rw [if_neg hc, getLast?_closedOf layout.closed_ne_nil hc]
    rfl

theorem follows_activeFirst (layout : Layout Entry) :
    SegmentLog.Follows layout.firstIndex layout.activeFirst
      (if layout.closed = [] then none else some (layout.activeFirst - 1)) := by
  by_cases hc : layout.closed = []
  · have := layout.isLive.1
    simpa [hc, SegmentLog.Follows, activeFirst] using this
  · have := layout.activeFirst_pos
    simp only [hc, if_false, SegmentLog.Follows]
    omega

end Layout

/-- The active segment is found, unless it has no files or the log is empty. -/
theorem Directory.recoverSegments (h : Directory config layout tail disk) :
    ∃ active last, recoverSegments disk layout.firstIndex
        ⟨layout.retained ++ rangesOf layout.base layout.closed,
          tail.map fun _ => layout.activeFirst⟩ =
        .ok (closedOf config layout.base layout.closed, active, last) ∧
      (if last = 0 then layout.firstIndex - 1 else last) = layout.lastIndex ∧
      active = if tail.isSome ∧ layout.entries ≠ [] then
        some (segmentOf config true layout.activeFirst layout.active) else none := by
  have hcl := layout.recoverClosed h.closed_hold
  have hpos := layout.activeFirst_pos
  have hbase := layout.base_pos
  cases tail with
  | none =>
    have hact := h.active_eq_nil rfl
    refine ⟨none, ((if layout.closed = [] then none else some (layout.activeFirst - 1)).getD 0),
      ?_, ?_, by simp⟩
    · simp only [recoverSegments, hcl, bind, Except.bind, Layout.lastClosed_eq]
      rfl
    · have hlast := layout.lastIndex_eq
      simp only [hact, length_nil] at hlast
      by_cases hnil : layout.closed = []
      · have hfst := Layout.firstIndex_eq_base (Layout.entries_eq_nil_iff.mpr ⟨hnil, hact⟩)
        simp [hnil, hlast, hfst, Layout.activeFirst]
      · have := Layout.base_lt_activeFirst hnil
        simp only [hnil, if_false, getD_some]
        rw [if_neg (by omega)]
        omega
  | some records =>
    have hhold := h.active_holds records rfl
    have hrec := hhold.recover hpos (.inl rfl)
    have hlast : (segmentOf config true layout.activeFirst layout.active).lastIndex =
        layout.lastIndex := layout.lastIndex_eq.symm
    by_cases hnil : layout.entries = []
    · obtain ⟨hnoC, hact⟩ := Layout.entries_eq_nil_iff.mp hnil
      have hfst := Layout.firstIndex_eq_base hnil
      have hlt : layout.lastIndex < layout.firstIndex := by
        simp only [Layout.lastIndex, hnil, length_nil]
        omega
      refine ⟨none, 0, ?_, ?_, by simp [hnil]⟩
      · simp only [recoverSegments, hcl, bind, Except.bind, Layout.lastClosed_eq,
          map_some, ensure_of layout.follows_activeFirst, hrec]
        simp only [decide_true, hlast, hlt, if_true, hnoC]
        rfl
      · simp [Layout.lastIndex, hnil, hfst]
    · have hle := Layout.firstIndex_le_lastIndex hnil
      have hfst := layout.isLive.1
      refine ⟨some (segmentOf config true layout.activeFirst layout.active), layout.lastIndex,
        ?_, if_neg (by omega), by simp [hnil]⟩
      simp only [recoverSegments, hcl, bind, Except.bind, Layout.lastClosed_eq,
        map_some, ensure_of layout.follows_activeFirst, hrec]
      simp only [decide_true, hlast, Nat.not_lt.mpr hle, if_false]
      rfl

theorem recoverField_runsTo {field : Disk → Option Nat} {persist : Nat → Step} {initial value : Nat}
    (h : field disk = some value) :
    RunsTo (recoverField field persist initial) disk [] value disk := by
  have hg : RunsTo (Program.get : Action Disk) disk [] disk disk := rfl
  refine hg.bind_nil ?_
  simp only [h]
  rfl

/-- A start finds the objects of the layout. It writes nothing if the active
segment has entries to hold, and otherwise gives it new files. -/
theorem Directory.init (h : Directory config layout tail disk) :
    if tail.isSome ∧ layout.entries ≠ [] then
      RunsTo (SegmentLog.init config) disk [] (layout.toLog config) disk
    else
      RunsTo (SegmentLog.init config) disk
        [.createData (.active layout.activeFirst) config.dataSizeLimit,
          .createMeta (.active layout.activeFirst) config.metaSizeLimit]
        (layout.toLog config) (disk.createActive config layout.activeFirst) := by
  obtain ⟨active, last, hrec, hlast, hact⟩ := h.recoverSegments
  have hget : RunsTo (Program.get : Action Disk) disk [] disk disk := rfl
  have hst : ∀ {steps : List Step} {disk' : Disk},
      RunsTo (SegmentLog.ensureActive config active (layout.lastIndex + 1)) disk steps
        (segmentOf config true layout.activeFirst layout.active) disk' →
      RunsTo (SegmentLog.init config) disk steps (layout.toLog config) disk' := by
    intro steps disk' hrun
    obtain ⟨hterm, hvote, hfst⟩ := Disk.fields_eq_iff.mp h.fields_eq
    refine (recoverField_runsTo hterm).bind_nil ?_
    refine (recoverField_runsTo hvote).bind_nil ?_
    refine (recoverField_runsTo hfst).bind_nil ?_
    refine hget.bind_nil ?_
    refine (RunsTo.lift h.listSegments disk).bind_nil ?_
    refine (RunsTo.lift hrec disk).bind_nil ?_
    simp only [hlast]
    rw [← append_nil steps]
    exact hrun.bind rfl
  split
  · rename_i hkept
    rw [if_pos hkept] at hact
    refine hst ?_
    rw [hact]
    rfl
  · rename_i hcre
    rw [if_neg hcre] at hact
    have hnil : layout.active = [] := by
      cases tail with
      | none => exact h.active_eq_nil rfl
      | some records =>
        refine (Layout.entries_eq_nil_iff.mp ?_).2
        simpa using hcre
    have hnext : layout.lastIndex + 1 = layout.activeFirst := by
      have := layout.activeFirst_pos
      rw [layout.lastIndex_eq, hnil]
      simp only [length_nil]
      omega
    refine hst ?_
    rw [hact, hnext, hnil]
    exact createActiveSegment_runsTo disk layout.activeFirst

end

end MySuperLedger.Storage
