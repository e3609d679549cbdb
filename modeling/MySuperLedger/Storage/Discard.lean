import MySuperLedger.Storage.Refinement
import Mathlib.Data.List.TakeWhile

/-! # Discarding a whole log

`truncatePrefix` behind the last index forgets every segment and starts a new
active one. The files of the former active segment stay in the directory under
their in-progress name, beside those of the new one. While the log is open nobody
looks at them: every operation does what it would do on the directory without
them. The next start lists the directory and finds two active segments.
-/

namespace MySuperLedger.Storage

open Collections Effects List Option AList SegmentLog
open Program (RunsTo)

variable {Entry : Type} {config : Config Entry}

/-! ## Files beside the log -/

/-- The name of an in-progress file that starts at one of the indices `stale`. -/
def SegmentName.IsStale (stale : List Nat) : SegmentName → Prop
  | .active firstIndex => firstIndex ∈ stale
  | .closed _ _ => False

variable {stale : List Nat} {firstIndex : Nat} {disk : Disk} {first : Nat}

@[simp] theorem isStale_active :
    (SegmentName.active firstIndex).IsStale stale ↔ firstIndex ∈ stale := Iff.rfl

@[simp] theorem not_isStale_closed {lastIndex : Nat} :
    ¬ (SegmentName.closed firstIndex lastIndex).IsStale stale := id

def Step.names : Step → List SegmentName
  | .createData name _ | .createMeta name _ | .writeData name _ _ | .writeMeta name _ _ => [name]
  | .renameData source target | .renameMeta source target => source :: target.toList
  | .setCurrentTerm _ | .setVoteFor _ | .setFirstIndex _ => []

/-- Both directories have the same files, apart from the names in `stale`. -/
def SameFiles {β : Type} (stale : List Nat) (clean files : AList (fun _ : SegmentName => β)) :
    Prop :=
  ∀ name, ¬ name.IsStale stale → files.lookup name = clean.lookup name

section

variable {β : Type} {stale : List Nat} {clean files : AList (fun _ : SegmentName => β)}

theorem SameFiles.mem_iff (h : SameFiles stale clean files) (name : SegmentName)
    (hn : ¬ name.IsStale stale) : name ∈ files ↔ name ∈ clean := by
  rw [← lookup_isSome, ← lookup_isSome, h _ hn]

theorem SameFiles.insert (h : SameFiles stale clean files) (name : SegmentName) (file : β) :
    SameFiles stale (clean.insert name file) (files.insert name file) := by
  intro other ho
  by_cases hs : other = name
  · rw [hs, lookup_insert, lookup_insert]
  · rw [lookup_insert_ne hs, lookup_insert_ne hs, h _ ho]

theorem SameFiles.moveTo (h : SameFiles stale clean files) {source : SegmentName}
    (hsrc : ¬ source.IsStale stale) (target : Option SegmentName) :
    SameFiles stale (Disk.moveTo clean source target) (Disk.moveTo files source target) := by
  intro other ho
  by_cases hm : source ∈ files
  · by_cases ht : target = some other
    · rw [ht, lookup_moveTo_target hm, lookup_moveTo_target ((h.mem_iff _ hsrc).mp hm), h _ hsrc]
    · by_cases hs : other = source
      · have hg : ∀ {files : AList (fun _ : SegmentName => β)}, source ∈ files →
            (Disk.moveTo files source target).lookup other = none := by
          intro files hm
          refine lookup_eq_none.mpr fun ho => ?_
          rcases (mem_moveTo hm).mp ho with heq | ⟨hne, -⟩
          · exact ht heq
          · exact hne hs
        rw [hg hm, hg ((h.mem_iff _ hsrc).mp hm)]
      · rw [lookup_moveTo_of_ne hs ht, lookup_moveTo_of_ne hs ht, h _ ho]
  · have hn := lookup_eq_none.mpr hm
    have hn' := lookup_eq_none.mpr (mt (h.mem_iff _ hsrc).mpr hm)
    simp only [Disk.moveTo, hn, hn']
    by_cases hs : other = source
    · rw [hs, lookup_erase, lookup_erase]
    · rw [lookup_erase_ne hs, lookup_erase_ne hs, h _ ho]

end

/-- The directory is `clean` with the in-progress files `stale` beside it. -/
structure Beside (stale : List Nat) (clean disk : Disk) : Prop where
  fields_eq : disk.fields = clean.fields
  datas : SameFiles stale clean.datas disk.datas
  metas : SameFiles stale clean.metas disk.metas
  gone : ∀ first ∈ stale, .active first ∉ clean.metas
  left : ∀ first ∈ stale, .active first ∈ disk.metas

theorem Beside.refl (disk : Disk) : Beside [] disk disk where
  fields_eq := rfl
  datas _ _ := rfl
  metas _ _ := rfl
  gone _ hm := absurd hm not_mem_nil
  left _ hm := absurd hm not_mem_nil

theorem mem_metas_after {step : Step} {name : SegmentName} (h : name ∉ step.names) :
    name ∈ (disk.after step).metas ↔ name ∈ disk.metas := by
  cases step with
  | createMeta other size | writeMeta other position records =>
    have hne : name ≠ other := by simpa [Step.names] using h
    simp [Disk.after, mem_insert, hne]
  | renameMeta source target =>
    have hne : name ≠ source ∧ target ≠ some name := by
      simpa [Step.names] using h
    rw [← lookup_isSome, ← lookup_isSome]
    simp only [Disk.after, lookup_moveTo_of_ne hne.1 hne.2]
  | setCurrentTerm _ | setVoteFor _ | setFirstIndex _ | createData _ _ | writeData _ _ _
  | renameData _ _ => exact Iff.rfl

section

variable {stale : List Nat} {clean disk : Disk}

theorem Beside.dataOf_eq (h : Beside stale clean disk) {name : SegmentName}
    (hn : ¬ name.IsStale stale) : disk.dataOf name = clean.dataOf name := by
  rw [Disk.dataOf, Disk.dataOf, h.datas _ hn]

theorem Beside.metaOf_eq (h : Beside stale clean disk) {name : SegmentName}
    (hn : ¬ name.IsStale stale) : disk.metaOf name = clean.metaOf name := by
  rw [Disk.metaOf, Disk.metaOf, h.metas _ hn]

variable {step : Step} {steps : List Step} {segment lastSegment : Segment} {lastIndexKept : Nat}

theorem Beside.after (h : Beside stale clean disk)
    (hnam : ∀ name ∈ step.names, ¬ name.IsStale stale) :
    Beside stale (clean.after step) (disk.after step) := by
  have hap : ∀ first ∈ stale, SegmentName.active first ∉ step.names := by
    intro first hfst hmem
    exact hnam _ hmem hfst
  have hgone : ∀ first ∈ stale, .active first ∉ (clean.after step).metas := fun first hfst =>
    mt (mem_metas_after (hap first hfst)).mp (h.gone first hfst)
  have hleft : ∀ first ∈ stale, .active first ∈ (disk.after step).metas := fun first hfst =>
    (mem_metas_after (hap first hfst)).mpr (h.left first hfst)
  cases step with
  | setCurrentTerm term =>
    have hfields := congrArg (fun fields => (some term, fields.2)) h.fields_eq
    exact { h with fields_eq := hfields, gone := hgone, left := hleft }
  | setVoteFor voteFor =>
    have hfields := congrArg (fun fields => (fields.1, some voteFor, fields.2.2)) h.fields_eq
    exact { h with fields_eq := hfields, gone := hgone, left := hleft }
  | setFirstIndex firstIndex =>
    have hfields := congrArg (fun fields => (fields.1, fields.2.1, some firstIndex)) h.fields_eq
    exact { h with fields_eq := hfields, gone := hgone, left := hleft }
  | createData name size =>
    exact { h with datas := h.datas.insert name _, gone := hgone, left := hleft }
  | createMeta name size =>
    exact { h with metas := h.metas.insert name _, gone := hgone, left := hleft }
  | renameData source target =>
    have hsrc := hnam source (.head _)
    exact { h with datas := h.datas.moveTo hsrc target, gone := hgone, left := hleft }
  | renameMeta source target =>
    have hsrc := hnam source (.head _)
    exact { h with metas := h.metas.moveTo hsrc target, gone := hgone, left := hleft }
  | writeData name offset bytes =>
    have hdata : disk.after (.writeData name offset bytes) = { disk with
        datas := disk.datas.insert name (writeAt (clean.dataOf name) offset bytes) } := by
      rw [← h.dataOf_eq (hnam name (.head _))]
      rfl
    rw [hdata] at hleft ⊢
    exact { h with datas := h.datas.insert name _, gone := hgone, left := hleft }
  | writeMeta name position records =>
    have hmeta : disk.after (.writeMeta name position records) = { disk with
        metas := disk.metas.insert name (writeAt (clean.metaOf name) position records) } := by
      rw [← h.metaOf_eq (hnam name (.head _))]
      rfl
    rw [hmeta] at hleft ⊢
    exact { h with metas := h.metas.insert name _, gone := hgone, left := hleft }

theorem Beside.allows (h : Beside stale clean disk)
    (hn : ∀ name ∈ step.names, ¬ name.IsStale stale) (ha : clean.allows step) :
    disk.allows step := by
  cases step with
  | renameData source target => exact (h.datas.mem_iff _ (hn source (.head _))).mpr ha
  | renameMeta source target => exact (h.metas.mem_iff _ (hn source (.head _))).mpr ha
  | writeData name offset bytes =>
    simp only [Disk.allows, h.dataOf_eq (hn name (.head _))]
    exact ha
  | writeMeta name position records =>
    simp only [Disk.allows, h.metaOf_eq (hn name (.head _))]
    exact ha
  | setCurrentTerm _ | setVoteFor _ | setFirstIndex _ | createData _ _ | createMeta _ _ =>
    trivial

/-! ## Programs that leave them alone -/

theorem perform_inv {u : Unit} {after : Disk} (h : (perform step).RunsTo disk steps u after) :
    disk.allows step ∧ steps = [step] ∧ after = disk.after step := by
  by_cases ha : disk.allows step
  · obtain ⟨rfl, -, rfl⟩ := (perform_runsTo ha).unique h
    exact ⟨ha, rfl, rfl⟩
  · rw [RunsTo, perform] at h
    simp [bind, Program.bind, Program.get, Program.assert, ha] at h

theorem respects_perform (step : Step) (hn : ∀ name ∈ step.names, ¬ name.IsStale stale) :
    (perform step).Respects (Beside stale) where
  run {clean disk steps u after} h hr := by
    obtain ⟨ha, rfl, rfl⟩ := perform_inv hr
    exact ⟨_, perform_runsTo (h.allows hn ha), h.after hn⟩

theorem respects_renameFiles {source : SegmentName} {target : Option SegmentName}
    (hs : ¬ source.IsStale stale) (ht : ∀ name ∈ target, ¬ name.IsStale stale) :
    (Segment.renameFiles source target).Respects (Beside stale) := by
  have hn : ∀ name ∈ source :: target.toList, ¬ name.IsStale stale := by
    simpa using ⟨hs, ht⟩
  exact .bind (respects_perform _ hn) fun _ => respects_perform _ hn

theorem respects_createActiveSegment {first : Nat} (hf : first ∉ stale) :
    (Segment.createActiveSegment config first).Respects (Beside stale) := by
  have hn : ∀ name ∈ [SegmentName.active first], ¬ name.IsStale stale := by
    simpa using hf
  exact .bind (respects_perform _ hn) fun _ =>
    .bind (respects_perform _ hn) fun _ => .pure _

/-- The files of the segment are none of the stale ones. -/
def Segment.Apart (stale : List Nat) (segment : Segment) : Prop :=
  segment.isActive = true → segment.firstIndex ∉ stale

theorem Segment.Apart.name (h : segment.Apart stale) : ¬ segment.name.IsStale stale := by
  unfold Segment.name
  split
  · exact h ‹_›
  · exact not_isStale_closed

theorem Segment.apart_of_closed (h : segment.isActive = false) : segment.Apart stale := by
  intro ha
  rw [h] at ha
  cases ha

theorem respects_dropSegment (h : segment.Apart stale) :
    segment.dropSegment.Respects (Beside stale) :=
  respects_renameFiles h.name (by simp)

theorem respects_segmentAppend (h : segment.Apart stale) (entries : List Entry) :
    (segment.appendEntries config entries).Respects (Beside stale) := by
  have hn : ∀ name ∈ [segment.name], ¬ name.IsStale stale := by
    simpa using h.name
  exact .bind (.assert _ _) fun _ => .bind (.lift _) fun _ =>
    .bind (respects_perform _ hn) fun _ => .bind (respects_perform _ hn) fun _ => .pure _

theorem respects_segmentTruncate (h : segment.Apart stale) (lastIndexKept : Nat) :
    (segment.truncateSuffix lastIndexKept).Respects (Beside stale) := by
  have hnam : ∀ name ∈ [segment.name], ¬ name.IsStale stale := by
    simpa using h.name
  refine .ite (fun _ => .pure _) fun _ => ?_
  refine .bind (.forEach fun _ _ => respects_perform _ hnam) fun _ => ?_
  refine .get_bind ?_ ?_
  · intro clean disk hb
    simp only [Segment.getMeta, hb.metaOf_eq h.name]
  · intro disk
    refine .bind (.lift _) fun record => ?_
    refine .bind (.when ?_) fun _ => .pure _
    refine respects_renameFiles h.name fun name hn => ?_
    have hap : Segment.Apart stale { segment with
        lastIndex := lastIndexKept
        metaOffset := (lastIndexKept + 1 - segment.firstIndex) * metaSize
        dataOffset := record.offset + record.length } := h
    rw [← some.inj hn]
    exact hap.name

/-- The files of the log are none of the stale ones. -/
structure SegmentLog.Apart (stale : List Nat) (log : SegmentLog) : Prop where
  closed : ∀ segment ∈ log.closedSegments, segment.isActive = false
  active : ∀ segment ∈ log.activeSegment, segment.Apart stale

variable {log : SegmentLog}

section

variable (h : log.Apart stale) (hn : log.lastIndex + 1 ∉ stale)
include h hn

theorem respects_rollIfNeeded
    (entries : List Entry) : (log.rollIfNeeded config entries).Respects (Beside stale) := by
  refine .bind (.require _ _) fun active => ?_
  refine .bind (.bind (.assert _ _) fun _ => .pure _) fun roll => ?_
  refine .ite (fun _ => ?_) fun _ => .pure _
  refine .bind_of (.require _ _) fun {_ _ active _} ha => ?_
  refine .bind (.bind_of (.assert _ _) fun {_ _ _ _} hasrt => ?_) fun _ =>
    .bind (respects_createActiveSegment hn) fun _ => .pure _
  have hf := h.active active ha.of_require.1 hasrt.of_assert.1
  exact .bind (respects_renameFiles (by simpa using hf) (by simp)) fun _ => .pure _

theorem apart_of_rollIfNeeded {entries : List Entry} {rolled : SegmentLog} {after : Disk}
    (hr : (log.rollIfNeeded config entries).RunsTo disk steps rolled after) :
    ∀ segment ∈ rolled.activeSegment, segment.Apart stale := by
  obtain ⟨_, active, _, _, -, hr, -⟩ := hr.of_bind
  obtain ⟨_, roll, _, _, -, hr, -⟩ := hr.of_bind
  cases roll with
  | false =>
    cases hr
    exact h.active
  | true =>
    obtain ⟨_, _, _, _, -, hr, -⟩ := RunsTo.of_bind hr
    obtain ⟨_, closed, _, _, -, hr, -⟩ := hr.of_bind
    obtain ⟨_, created, _, _, hc, hr, -⟩ := hr.of_bind
    cases hr
    obtain ⟨-, rfl, -⟩ := hc.unique (createActiveSegment_runsTo _ _)
    intro segment hs _
    rw [← some.inj hs]
    exact hn

theorem respects_appendEntries
    (entries : List Entry) : (log.appendEntries config entries).Respects (Beside stale) := by
  cases entries with
  | nil => exact .pure _
  | cons entry entries =>
    refine .ite (fun _ => .pure _) fun _ => ?_
    refine .bind_of (respects_rollIfNeeded h hn _) fun {_ _ rolled _} hr => ?_
    refine .bind_of (.require _ _) fun {_ _ active _} ha => ?_
    have hap := apart_of_rollIfNeeded h hn hr active ha.of_require.1
    exact .bind (respects_segmentAppend hap _) fun _ => .pure _

end

theorem respects_truncatePrefix {firstIndexKept : Nat}
    (hk : log.firstIndex < firstIndexKept → firstIndexKept ∉ stale) :
    (log.truncatePrefix config firstIndexKept).Respects (Beside stale) := by
  refine .ite (fun _ => .pure _) fun hf => ?_
  refine .bind (respects_perform _ (by simp [Step.names])) fun _ => ?_
  dsimp only
  split
  · exact .pure _
  · refine .bind (.require _ _) fun active => ?_
    refine .ite (fun _ => ?_) fun _ => .pure _
    exact .bind (respects_createActiveSegment (hk (Nat.lt_of_not_le hf))) fun _ => .pure _

theorem apart_of_cutSegments (h : log.Apart stale) {active : Segment} (ha : active.Apart stale)
    (lastIndexKept : Nat) :
    (∀ segment ∈ (log.cutSegments active lastIndexKept).2.1, segment.Apart stale) ∧
      ∀ segment ∈ (log.cutSegments active lastIndexKept).2.2, segment.Apart stale := by
  unfold cutSegments
  split
  · simpa using ha
  · refine ⟨fun segment hs => ?_, forall_mem_cons.mpr ⟨ha, ?_⟩⟩
    · have hm := (dropWhile_suffix _).mem (mem_of_mem_head? hs)
      exact Segment.apart_of_closed (h.closed segment (mem_reverse.mp hm))
    · intro segment hs
      have hm := (List.takeWhile_prefix _).mem hs
      exact Segment.apart_of_closed (h.closed segment (mem_reverse.mp hm))

theorem respects_cutLastSegment (h : lastSegment.Apart stale) (lastIndexKept : Nat)
    (dropped : List Segment) :
    (log.cutLastSegment lastSegment lastIndexKept dropped).Respects (Beside stale) := by
  refine .ite (fun _ => ?_) fun _ => .ite (fun _ => .pure _) fun _ => .pure _
  exact .bind (respects_segmentTruncate h _) fun _ => .ite (fun _ => .pure _) fun _ => .pure _

theorem dropped_of_cutLastSegment {dropped : List Segment} {cut : SegmentLog × List Segment}
    {after : Disk}
    (hr : (log.cutLastSegment lastSegment lastIndexKept dropped).RunsTo disk steps cut after)
    (hs : segment ∈ cut.2) : segment ∈ dropped ∨ segment = lastSegment := by
  unfold cutLastSegment at hr
  split at hr
  · obtain ⟨_, truncated, _, _, -, hr, -⟩ := hr.of_bind
    split at hr
    · cases hr
      exact .inl hs
    · cases hr
      exact .inl hs
  · split at hr
    · cases hr
      simpa using hs
    · cases hr
      simpa using hs

theorem respects_truncateSuffix (h : log.Apart stale) (hnext : lastIndexKept + 1 ∉ stale) :
    (log.truncateSuffix config lastIndexKept).Respects (Beside stale) := by
  have hens : ∀ active : Option Segment,
      (ensureActive config active (lastIndexKept + 1)).Respects (Beside stale) := by
    intro active
    cases active with
    | none => exact respects_createActiveSegment hnext
    | some active => exact .pure _
  refine .ite (fun _ => .pure _) fun _ => ?_
  refine .bind_of (.require _ _) fun {_ _ active _} hact => ?_
  have hlog : ({ log with lastIndex := lastIndexKept } : SegmentLog).Apart stale :=
    ⟨h.closed, h.active⟩
  obtain ⟨hlast, hdrop⟩ := apart_of_cutSegments hlog
    (h.active active hact.of_require.1) lastIndexKept
  generalize cutSegments { log with lastIndex := lastIndexKept } active lastIndexKept =
    cut at hlast hdrop
  obtain ⟨cut, lastSegment, dropped⟩ := cut
  have hfin : ∀ (log : SegmentLog) {dropped : List Segment},
      (∀ segment ∈ dropped, segment.Apart stale) →
      (do
        Program.forEach dropped Segment.dropSegment
        let active ← ensureActive config log.activeSegment (lastIndexKept + 1)
        return { log with activeSegment := some active } : Action SegmentLog).Respects
          (Beside stale) := by
    intro log dropped hdrop
    exact .bind (.forEach fun segment hseg => respects_dropSegment (hdrop segment hseg))
      fun _ => .bind (hens _) fun _ => .pure _
  cases lastSegment with
  | none =>
    refine .bind_of (.pure _) fun {_ _ cut _} hcut => hfin _ ?_
    cases hcut
    exact hdrop
  | some lastSegment =>
    have hlast := hlast lastSegment rfl
    refine .bind_of (respects_cutLastSegment hlast _ _) fun {_ _ cut _} hcut => hfin _ ?_
    intro segment hseg
    rcases dropped_of_cutLastSegment hcut hseg with hmem | rfl
    · exact hdrop segment hmem
    · exact hlast

end

theorem Beside.trans {extra : List Nat} {clean middle : Disk} (hfst : Beside extra clean middle)
    (hsnd : Beside stale middle disk) : Beside (extra ++ stale) clean disk where
  fields_eq := hsnd.fields_eq.trans hfst.fields_eq
  datas name hname := by
    cases name with
    | closed first last => exact (hsnd.datas _ id).trans (hfst.datas _ id)
    | active first =>
      obtain ⟨hext, hstal⟩ := not_or.mp (mt mem_append.mpr hname)
      exact (hsnd.datas (.active first) hstal).trans (hfst.datas (.active first) hext)
  metas name hname := by
    cases name with
    | closed first last => exact (hsnd.metas _ id).trans (hfst.metas _ id)
    | active first =>
      obtain ⟨hext, hstal⟩ := not_or.mp (mt mem_append.mpr hname)
      exact (hsnd.metas (.active first) hstal).trans (hfst.metas (.active first) hext)
  gone first hmem := by
    by_cases hext : first ∈ extra
    · exact hfst.gone first hext
    · have hstal := (mem_append.mp hmem).resolve_left hext
      exact mt (hfst.metas.mem_iff (.active first) hext).mpr (hsnd.gone first hstal)
  left first hmem := by
    by_cases hstal : first ∈ stale
    · exact hsnd.left first hstal
    · have hext := (mem_append.mp hmem).resolve_right hstal
      exact (hsnd.metas.mem_iff (.active first) hstal).mpr (hfst.left first hext)

/-! ## The new active segment -/

section

variable {layout : Layout Entry} {disk : Disk} {firstIndexKept : Nat}

theorem Layout.retained_before_discarded (h : layout.lastIndex < firstIndexKept) :
    ∀ range ∈ layout.retained ++ rangesOf layout.base layout.closed,
      range.1 ≤ range.2 ∧ range.2 < firstIndexKept := by
  have hl := layout.lastIndex_eq
  have hb := layout.base_pos
  intro range hr
  simp only [activeFirst] at hl
  rcases mem_append.mp hr with hr | hr
  · have := layout.retained_before range hr
    omega
  · have := rangesOf_bounds layout.closed_ne_nil hr
    omega

/-- The empty log at `firstIndexKept`; the closed segments become retained ones. -/
def Layout.discarded (layout : Layout Entry) (firstIndexKept : Nat)
    (h : layout.lastIndex < firstIndexKept) : Layout Entry where
  currentTerm := layout.currentTerm
  voteFor := layout.voteFor
  firstIndex := firstIndexKept
  retained := layout.retained ++ rangesOf layout.base layout.closed
  base := firstIndexKept
  closed := []
  active := []
  base_pos := Nat.zero_lt_of_lt h
  retained_sorted := layout.retained_sorted_append (append_nil layout.closed).symm
  retained_before := layout.retained_before_discarded h
  closed_ne_nil := forall_mem_nil_ne_nil
  isLive := ⟨le_rfl, .inr ⟨rfl, rfl, rfl⟩⟩

theorem Directory.leftover_discarded {tail : List LogMeta}
    (h : Directory config layout (some tail) disk) (hl : layout.lastIndex < firstIndexKept) :
    Leftover config (layout.discarded firstIndexKept hl) [.active layout.activeFirst]
      (disk.after (.setFirstIndex firstIndexKept)) where
  fields_eq := congrArg (fun fields => (fields.1, fields.2.1, some firstIndexKept)) h.fields_eq
  closed_hold := trivial
  active_eq_nil := rfl
  closed_iff range := by
    refine (h.closed_iff range).trans ?_
    simp [Layout.discarded, rangesOf]
  active_iff first := by
    refine (h.active_iff first).trans ?_
    simp
  apart range _ := by simp

theorem lastIndex_lt_of_mem_closedOf {base : Nat} {blocks : List (List Entry)} (hp : 0 < base)
    {segment : Segment} (hm : segment ∈ closedOf config base blocks) :
    segment.lastIndex < base + blocks.flatten.length := by
  obtain ⟨front, block, behind, rfl, rfl⟩ := exists_of_mem_closedOf hm
  simp only [segmentOf, flatten_append, flatten_cons, length_append]
  omega

/-- `truncatePrefix` behind the log starts a new active segment. -/
theorem Layout.discard_runsTo (layout : Layout Entry) (hfst : layout.firstIndex < firstIndexKept)
    (hlast : layout.lastIndex < firstIndexKept) (disk : Disk) :
    RunsTo (truncatePrefix config (layout.toLog config) firstIndexKept) disk
      [.setFirstIndex firstIndexKept, .createData (.active firstIndexKept) config.dataSizeLimit,
        .createMeta (.active firstIndexKept) config.metaSizeLimit]
      ((layout.discarded firstIndexKept hlast).toLog config)
      ((disk.after (.setFirstIndex firstIndexKept)).createActive config firstIndexKept) := by
  have hnot : ¬ firstIndexKept ≤ (layout.toLog config).firstIndex := Nat.not_le.mpr hfst
  have hend := layout.lastIndex_eq
  have hcl : ((layout.toLog config).closedSegments.dropWhile fun segment =>
      segment.lastIndex < firstIndexKept) = [] := by
    refine dropWhile_eq_nil_iff.mpr fun segment hseg => ?_
    have := lastIndex_lt_of_mem_closedOf layout.base_pos hseg
    simp only [activeFirst] at hend
    simp only [decide_eq_true_eq]
    omega
  have hact : (segmentOf config true layout.activeFirst layout.active).lastIndex <
      firstIndexKept := by
    rw [hend] at hlast
    exact hlast
  have hperf : RunsTo (perform (.setFirstIndex firstIndexKept)) disk
      [.setFirstIndex firstIndexKept] () (disk.after (.setFirstIndex firstIndexKept)) :=
    perform_runsTo trivial
  simp only [truncatePrefix, hnot, if_false, hcl]
  refine hperf.bind ((RunsTo.require rfl _).bind_nil ?_)
  rw [if_pos hact]
  exact (createActiveSegment_runsTo _ firstIndexKept).bind_right rfl

/-- The former in-progress files, if the new ones do not replace them. -/
def staleAfter (activeFirst firstIndexKept : Nat) : List Nat :=
  if activeFirst = firstIndexKept then [] else [activeFirst]

theorem Beside.createActive {stale : List Nat} {clean : Disk} (h : Beside stale clean disk)
    {first : Nat} (hf : first ∉ stale) :
    Beside stale (clean.createActive config first) (disk.createActive config first) := by
  have hn : ∀ name ∈ [SegmentName.active first], ¬ name.IsStale stale := by
    simpa using hf
  have hd : Beside stale _ (disk.after (.createData (.active first) config.dataSizeLimit)) :=
    h.after hn
  exact hd.after hn

theorem lookup_insert_congr {β : Type} {files files' : AList (fun _ : SegmentName => β)}
    {name : SegmentName} (h : ∀ other, other ≠ name → files'.lookup other = files.lookup other)
    (file : β) (other : SegmentName) :
    (files'.insert name file).lookup other = (files.insert name file).lookup other := by
  by_cases hs : other = name
  · rw [hs, lookup_insert, lookup_insert]
  · rw [lookup_insert_ne hs, lookup_insert_ne hs, h other hs]

theorem beside_createActive {old next : Nat} (hold : .active old ∈ disk.metas) :
    Beside (staleAfter old next) ((disk.dropAll [.active old]).createActive config next)
      (disk.createActive config next) := by
  have hfields := (fields_dropAll disk [.active old]).symm
  by_cases hs : old = next
  · rw [staleAfter, if_pos hs]
    refine ⟨hfields, fun name _ => ?_, fun name _ => ?_, by simp, by simp⟩
    · refine lookup_insert_congr (fun other ho => ?_) _ name
      rw [← hs] at ho
      exact ((datas_dropAll disk _ other).trans (if_neg (by simpa using ho))).symm
    · refine lookup_insert_congr (fun other ho => ?_) _ name
      rw [← hs] at ho
      exact ((metas_dropAll disk _ other).trans (if_neg (by simpa using ho))).symm
  · rw [staleAfter, if_neg hs]
    have hd : Beside [old] (disk.dropAll [.active old]) disk := by
      refine ⟨hfields, fun name hn => ?_, fun name hn => ?_, ?_, ?_⟩
      · exact ((datas_dropAll disk _ name).trans (if_neg fun hm => hn (by simp_all))).symm
      · exact ((metas_dropAll disk _ name).trans (if_neg fun hm => hn (by simp_all))).symm
      · simp [mem_metas_dropAll]
      · simpa using hold
    exact hd.createActive (by simpa using Ne.symm hs)

end

/-! ## Two active segments -/

theorem active_of_foldlM {names : List SegmentName} {listing final : Listing}
    (h : names.foldlM addName listing = .ok final)
    (hfst : listing.active = some first ∨ .active first ∈ names) : final.active = some first := by
  induction names generalizing listing with
  | nil =>
    cases h
    simpa using hfst
  | cons name names ih =>
    rw [foldlM_cons] at h
    cases hadd : addName listing name with
    | error check =>
      rw [hadd] at h
      cases h
    | ok next =>
      rw [hadd] at h
      refine ih h ?_
      cases name with
      | closed other last =>
        have hact : next.active = listing.active := by
          simp only [addName] at hadd
          split at hadd
          · cases hadd
          · cases hadd
            rfl
        rw [hact]
        simpa using hfst
      | active other =>
        simp only [addName] at hadd
        split at hadd
        · cases hadd
        · rename_i hnone
          cases hadd
          rcases hfst with hfst | hmem
          · simp [hfst] at hnone
          · rcases mem_cons.mp hmem with heq | hmem
            · cases heq
              exact .inl rfl
            · exact .inr hmem

theorem init_active_unique {after : Disk} {steps : List Step} {log : SegmentLog}
    (h : (init config).RunsTo disk steps log after) {other : Nat}
    (hfst : .active first ∈ disk.metas) (hoth : .active other ∈ disk.metas) : first = other := by
  have hfiel : ∀ {field : Disk → Option Nat} {persist : Nat → Step} {initial value : Nat}
      {disk disk' : Disk} {steps : List Step},
      (∀ disk value, (Disk.after disk (persist value)).metas = disk.metas) →
      (recoverField field persist initial).RunsTo disk steps value disk' →
      disk'.metas = disk.metas := by
    intro field persist initial value disk disk' steps hpers hrun
    obtain ⟨_, found, _, _, hget, hrun, -⟩ := hrun.of_bind
    cases hget
    split at hrun
    · cases hrun
      rfl
    · obtain ⟨_, _, _, _, hperf, hrun, -⟩ := hrun.of_bind
      cases hrun
      obtain ⟨-, -, rfl⟩ := perform_inv hperf
      exact hpers _ _
  obtain ⟨_, _, disk₁, _, hterm, h, -⟩ := h.of_bind
  obtain ⟨_, _, disk₂, _, hvote, h, -⟩ := h.of_bind
  obtain ⟨_, _, disk₃, _, hidx, h, -⟩ := h.of_bind
  have h := h.of_get
  obtain ⟨_, listing, _, _, hlist, -, -⟩ := h.of_bind
  have hmet : disk₃.metas = disk.metas :=
    (hfiel (fun _ _ => rfl) hidx).trans
      ((hfiel (fun _ _ => rfl) hvote).trans (hfiel (fun _ _ => rfl) hterm))
  have hlisted : listSegments disk₃ = .ok listing := by
    cases hres : listSegments disk₃ with
    | error check =>
      rw [hres] at hlist
      cases hlist
    | ok found =>
      rw [hres] at hlist
      cases hlist
      rfl
  rw [listSegments, hmet] at hlisted
  exact some.inj ((active_of_foldlM hlisted (.inr hfst)).symm.trans
    (active_of_foldlM hlisted (.inr hoth)))

/-! ## Any operation on a log with files beside it -/

namespace Operation

variable (config)

/-- What a caller owes before an operation; any prefix may be truncated. -/
def Valid (memory : InMemoryLog Entry) : Operation Entry → Prop
  | .append entries => IsBatch config (memory.lastIndex + 1) entries
  | .truncateSuffix lastIndexKept => memory.firstIndex ≤ lastIndexKept + 1
  | .truncatePrefix _ | .setCurrentTerm _ | .setVoteFor _ | .reopen => True

def AllValid (memory : InMemoryLog Entry) : List (Operation Entry) → Prop
  | [] => True
  | operation :: operations =>
    operation.Valid config memory ∧ AllValid (operation.onMemory config memory) operations

end Operation

theorem InMemoryLog.firstIndex_appendEntries (memory : InMemoryLog Entry) (entries : List Entry) :
    (memory.appendEntries config entries).1.firstIndex = memory.firstIndex := by
  induction entries generalizing memory with
  | nil => rfl
  | cons entry entries ih =>
    by_cases hi : memory.lastIndex + 1 = config.format.index entry
    · simp only [appendEntries, appendEntry, hi, ne_eq, not_true_eq_false, if_false, ih]
    · simp only [appendEntries, appendEntry, hi, ne_eq, not_false_eq_true, if_true]

theorem Operation.Valid.firstIndex_le {memory : InMemoryLog Entry} {operation : Operation Entry}
    (h : operation.Valid config memory) :
    memory.firstIndex ≤ (operation.onMemory config memory).firstIndex := by
  cases operation with
  | append entries => exact (memory.firstIndex_appendEntries entries).ge
  | truncateSuffix lastIndexKept =>
    simp only [Operation.onMemory, InMemoryLog.truncateSuffix]
    split
    · exact le_rfl
    · split
      · exact h
      · exact le_rfl
  | truncatePrefix firstIndexKept =>
    simp only [Operation.onMemory, InMemoryLog.truncatePrefix]
    split
    · exact le_rfl
    · split
      · exact Nat.le_of_not_le ‹_›
      · exact Nat.le_of_not_le ‹_›
  | setCurrentTerm _ | setVoteFor _ | reopen => exact le_rfl

section

variable {stale : List Nat} {clean disk : Disk} {log : SegmentLog} {memory : InMemoryLog Entry}

theorem Stores.apart (h : Stores config clean log memory)
    (hg : ∀ first ∈ stale, .active first ∉ clean.metas) : log.Apart stale := by
  obtain ⟨layout, n, hd, rfl, rfl⟩ := h
  refine ⟨fun segment hs => ?_, fun segment hs _ hm => ?_⟩
  · obtain ⟨_, _, _, -, rfl⟩ := exists_of_mem_closedOf hs
    rfl
  · rw [← some.inj hs] at hm
    exact hg _ hm ((hd.active_iff _).mpr ⟨rfl, rfl⟩)

theorem Stores.firstIndex_le (h : Stores config clean log memory) :
    memory.firstIndex ≤ memory.lastIndex + 1 := by
  obtain ⟨layout, n, hd, rfl, rfl⟩ := h
  have hle := layout.firstIndex_sub_base_le
  have hb := layout.isLive.1
  have hp := layout.base_pos
  simp only [Layout.toMemory, Layout.lastIndex]
  omega

/-- An operation does not look at the files beside the log. -/
theorem Stores.respects (h : Stores config clean log memory)
    (hgone : ∀ first ∈ stale, .active first ∉ clean.metas)
    (hstal : ∀ first ∈ stale, first < memory.firstIndex) {operation : Operation Entry}
    (hval : operation.Valid config memory) (hreop : operation ≠ .reopen) :
    (operation.run config log).Respects (Beside stale) := by
  have hap := h.apart hgone
  have hagr := h.agrees
  cases operation with
  | append entries =>
    have hle := h.firstIndex_le
    have hnext : log.lastIndex + 1 ∉ stale := by
      intro hmem
      have := hstal _ hmem
      have := hagr.lastIndex_eq
      omega
    exact .bind (respects_appendEntries hap hnext entries) fun _ => .pure _
  | truncateSuffix lastIndexKept =>
    have hnext : lastIndexKept + 1 ∉ stale := by
      intro hmem
      have := hstal _ hmem
      have : memory.firstIndex ≤ lastIndexKept + 1 := hval
      omega
    exact respects_truncateSuffix hap hnext
  | truncatePrefix firstIndexKept =>
    refine respects_truncatePrefix fun hfst hmem => ?_
    have := hstal _ hmem
    have := hagr.firstIndex_eq
    omega
  | setCurrentTerm term | setVoteFor voteFor =>
    exact .bind (respects_perform _ (by simp [Step.names])) fun _ => .pure _
  | reopen => exact absurd rfl hreop

/-- The directory stores the log and has the in-progress files `stale` of discarded logs
beside it. -/
structure CoveredBy (config : Config Entry) (stale : List Nat) (disk : Disk) (log : SegmentLog)
    (memory : InMemoryLog Entry) : Prop where
  stored : ∃ clean, Stores config clean log memory ∧ Beside stale clean disk
  below : ∀ first ∈ stale, first < memory.firstIndex

theorem Stores.coveredBy (h : Stores config disk log memory) :
    CoveredBy config [] disk log memory :=
  ⟨⟨disk, h, .refl disk⟩, by simp⟩

variable {layout : Layout Entry} {firstIndexKept : Nat} {steps : List Step} {disk' : Disk}
  {log' : SegmentLog} {operations : List (Operation Entry)}

/-- The in-progress files are those of the active segment and the stale ones. -/
theorem Beside.active_mem_iff {tail : List LogMeta} (hb : Beside stale clean disk)
    (hd : Directory config layout (some tail) clean) (first : Nat) :
    .active first ∈ disk.metas ↔ first = layout.activeFirst ∨ first ∈ stale := by
  by_cases hm : first ∈ stale
  · simp [hm, hb.left first hm]
  · rw [hb.metas.mem_iff (.active first) hm, hd.active_iff]
    simp [hm]

theorem staleAfter_append_eq_nil_iff {activeFirst : Nat}
    (hb : ∀ first ∈ stale, first < firstIndexKept) :
    staleAfter activeFirst firstIndexKept ++ stale = [] ↔
      ∀ first, first = activeFirst ∨ first ∈ stale → first = firstIndexKept := by
  rw [append_eq_nil_iff, staleAfter]
  constructor
  · rintro ⟨hn, rfl⟩ first hf
    split at hn
    · simp_all
    · cases hn
  · intro h
    refine ⟨if_pos (h _ (.inl rfl)), eq_nil_iff_forall_not_mem.mpr fun first hm => ?_⟩
    exact (hb first hm).ne (h first (.inr hm))

/-- The whole log is discarded. Nothing is left beside it if the new in-progress files
replace all the old ones. -/
theorem CoveredBy.discard (h : CoveredBy config stale disk log memory)
    (hlast : memory.lastIndex < firstIndexKept) :
    ∃ steps log' disk' stale',
      RunsTo (log.truncatePrefix config firstIndexKept) disk steps log' disk' ∧
      CoveredBy config stale' disk' log' (memory.truncatePrefix firstIndexKept) ∧
      (stale' = [] ↔ ∀ first, .active first ∈ disk.metas → first = firstIndexKept) := by
  obtain ⟨⟨clean, ⟨layout, n, hdir, rfl, rfl⟩, hbes⟩, hbel⟩ := h
  have hbeh : layout.lastIndex < firstIndexKept := hlast
  simp only [hbes.active_mem_iff hdir]
  by_cases hnop : firstIndexKept ≤ layout.firstIndex
  · -- the log is empty already, and starts there
    have hnil : layout.entries = [] := by
      by_contra hne
      have := Layout.firstIndex_le_lastIndex hne
      omega
    obtain ⟨hcl, hact⟩ := Layout.entries_eq_nil_iff.mp hnil
    have hbase := Layout.firstIndex_eq_base hnil
    have hsame : layout.activeFirst = firstIndexKept := by
      have hend := layout.lastIndex_eq
      have hpos := layout.activeFirst_pos
      simp only [hact, length_nil, Layout.activeFirst, hcl, flatten_nil] at hend ⊢
      omega
    have hst : layout.firstIndex = firstIndexKept := by
      rw [hbase, ← hsame]
      simp [Layout.activeFirst, hcl]
    have hmemory : layout.toMemory.truncatePrefix firstIndexKept = layout.toMemory := if_pos hnop
    refine ⟨[], _, disk, stale, congrFun (if_pos hnop) disk, ?_, ?_⟩
    · rw [hmemory]
      exact ⟨⟨clean, ⟨layout, n, hdir, rfl, rfl⟩, hbes⟩, hbel⟩
    · have hkept : ∀ first ∈ stale, first < firstIndexKept := hst ▸ hbel
      rw [← staleAfter_append_eq_nil_iff hkept, staleAfter, if_pos hsame, nil_append]
  · have hfst : layout.firstIndex < firstIndexKept := Nat.lt_of_not_le hnop
    have hkept : ∀ first ∈ stale, first < firstIndexKept := fun first hmem =>
      (hbel first hmem).trans hfst
    obtain ⟨disk', hrun, hbes'⟩ :=
      (respects_truncatePrefix fun _ hmem => (hkept _ hmem).ne rfl).run hbes
        (layout.discard_runsTo hfst hlast clean)
    have hold : SegmentName.active layout.activeFirst ∈
        (clean.after (.setFirstIndex firstIndexKept)).metas :=
      (hdir.active_iff _).mpr ⟨rfl, rfl⟩
    have hmemory : layout.toMemory.truncatePrefix firstIndexKept =
        (layout.discarded firstIndexKept hlast).toMemory := by
      have hnot : ¬ firstIndexKept ≤ layout.toMemory.firstIndex := hnop
      simp only [InMemoryLog.truncatePrefix, hnot, hlast, if_false, if_true]
      simp [Layout.toMemory, Layout.discarded, Layout.lastIndex, Layout.entries]
    refine ⟨_, _, disk', staleAfter layout.activeFirst firstIndexKept ++ stale, hrun,
      ⟨⟨_, ⟨layout.discarded firstIndexKept hlast, config.slots,
        (hdir.leftover_discarded hlast).dropAll.createActive rfl, rfl, hmemory⟩,
        (beside_createActive hold).trans hbes'⟩, ?_⟩, staleAfter_append_eq_nil_iff hkept⟩
    have hact : layout.activeFirst ≤ firstIndexKept := by
      have := layout.lastIndex_eq
      omega
    intro first hmem
    rw [hmemory]
    show first < firstIndexKept
    rcases mem_append.mp hmem with hmem | hmem
    · unfold staleAfter at hmem
      split at hmem
      · cases hmem
      · rename_i hne
        obtain rfl := mem_singleton.mp hmem
        exact Nat.lt_of_le_of_ne hact hne
    · exact hkept first hmem

theorem CoveredBy.operation (h : CoveredBy config stale disk log memory)
    {operation : Operation Entry} (hv : operation.Valid config memory)
    (ha : operation.Admissible config memory) (hreop : operation ≠ .reopen) :
    ∃ steps log' disk', RunsTo (operation.run config log) disk steps log' disk' ∧
      CoveredBy config stale disk' log' (operation.onMemory config memory) := by
  obtain ⟨⟨clean, hs, hb⟩, hbel⟩ := h
  have hr := hs.respects hb.gone hbel hv hreop
  obtain ⟨steps, log', clean', hrun, hs'⟩ := hs.operation ha
  obtain ⟨disk', hr', hb'⟩ := hr.run hb hrun
  exact ⟨steps, log', disk', hr', ⟨clean', hs', hb'⟩,
    fun first hm => (hbel first hm).trans_le hv.firstIndex_le⟩

theorem Directory.congr {tail : Option (List LogMeta)} (h : Directory config layout tail clean)
    (hb : Beside [] clean disk) : Directory config layout tail disk where
  fields_eq := hb.fields_eq.trans h.fields_eq
  closed_hold := h.closed_hold.congr fun _ _ => ⟨hb.metas _ id, hb.datas _ id⟩
  active_holds records hr :=
    (h.active_holds records hr).congr (hb.metas _ (by simp)) (hb.datas _ (by simp))
  active_eq_nil := h.active_eq_nil
  closed_iff range := (hb.metas.mem_iff _ (by simp)).trans (h.closed_iff range)
  active_iff first := (hb.metas.mem_iff _ (by simp)).trans (h.active_iff first)

section

variable (h : CoveredBy config stale disk log memory)
include h

/-- A start goes through exactly if nothing is left beside the log, and finds it again. -/
theorem CoveredBy.init_iff : (∃ steps found disk', RunsTo (init config) disk steps found disk') ↔
      stale = [] := by
  obtain ⟨⟨clean, ⟨layout, n, hd, rfl, rfl⟩, hb⟩, hbel⟩ := h
  constructor
  · rintro ⟨steps, found, disk', hr⟩
    refine eq_nil_iff_forall_not_mem.mpr fun first hm => ?_
    have ha := init_active_unique hr ((hb.active_mem_iff hd first).mpr (.inr hm))
      ((hb.active_mem_iff hd layout.activeFirst).mpr (.inl rfl))
    exact hb.gone first hm (ha ▸ (hd.active_iff _).mpr ⟨rfl, rfl⟩)
  · rintro rfl
    have hs : Stores config disk (layout.toLog config) layout.toMemory :=
      ⟨layout, n, hd.congr hb, rfl, rfl⟩
    obtain ⟨steps, disk', hr, -⟩ := hs.reopen
    exact ⟨steps, _, disk', hr⟩

theorem CoveredBy.of_init {found : SegmentLog} (hr : RunsTo (init config) disk steps found disk') :
    found = log ∧ Stores config disk' log memory := by
  obtain rfl := h.init_iff.mp ⟨steps, found, disk', hr⟩
  obtain ⟨⟨clean, ⟨layout, n, hd, rfl, rfl⟩, hb⟩, hbel⟩ := h
  have hs : Stores config disk (layout.toLog config) layout.toMemory :=
    ⟨layout, n, hd.congr hb, rfl, rfl⟩
  obtain ⟨steps', after, hr', hs'⟩ := hs.reopen
  obtain ⟨-, rfl, rfl⟩ := hr.unique hr'
  exact ⟨rfl, hs'⟩

/-! ## Whole runs -/

/-- Any operation that goes through leaves a log that the directory stores. -/
theorem CoveredBy.of_operation {operation : Operation Entry} (hv : operation.Valid config memory)
    (hr : RunsTo (operation.run config log) disk steps log' disk') :
    ∃ stale', CoveredBy config stale' disk' log' (operation.onMemory config memory) := by
  by_cases hreop : operation = .reopen
  · subst hreop
    obtain ⟨rfl, hs⟩ := h.of_init hr
    exact ⟨[], hs.coveredBy⟩
  by_cases ha : operation.Admissible config memory
  · obtain ⟨steps', log'', disk'', hr', hc⟩ := h.operation hv ha hreop
    obtain ⟨-, rfl, rfl⟩ := hr.unique hr'
    exact ⟨stale, hc⟩
  · cases operation with
    | truncatePrefix firstIndexKept =>
      obtain ⟨steps', log'', disk'', stale', hr', hc, -⟩ :=
        h.discard (Nat.lt_of_not_le ha)
      obtain ⟨-, rfl, rfl⟩ := RunsTo.unique hr hr'
      exact ⟨stale', hc⟩
    | append _ | truncateSuffix _ | setCurrentTerm _ | setVoteFor _ | reopen =>
      exact absurd hv ha

theorem CoveredBy.of_runAll (hv : Operation.AllValid config memory operations)
    (hr : RunsTo (Operation.runAll config log operations) disk steps log' disk') :
    ∃ stale', CoveredBy config stale' disk' log'
      (Operation.allOnMemory config memory operations) := by
  induction operations generalizing disk log memory steps stale with
  | nil =>
    cases hr
    exact ⟨stale, h⟩
  | cons operation operations ih =>
    obtain ⟨hf, hrest⟩ := hv
    obtain ⟨_, next, middle, _, ho, hl, -⟩ := hr.of_bind
    obtain ⟨stale', hn⟩ := h.of_operation hf ho
    exact ih hn hrest hl

end

theorem coveredBy_of_run (hv : Operation.AllValid config {} operations)
    (hr : RunsTo (Operation.start config operations) {} steps log disk) :
    ∃ stale, CoveredBy config stale disk log (Operation.allOnMemory config {} operations) := by
  obtain ⟨_, first, _, _, hi, hl, -⟩ := hr.of_bind
  obtain ⟨steps', opened, disk', hi', hs⟩ := init_stores config
  obtain ⟨-, rfl, rfl⟩ := hi.unique hi'
  exact hs.coveredBy.of_runAll hv hl

section

variable (h : CoveredBy config stale disk log memory)
include h

theorem CoveredBy.runAll_append {batches : List (List Entry)}
    (hv : Operation.AllValid config memory (batches.map .append)) :
    ∃ steps log' disk',
      RunsTo (Operation.runAll config log (batches.map .append)) disk steps log' disk' ∧
      CoveredBy config stale disk' log'
        (Operation.allOnMemory config memory (batches.map .append)) := by
  induction batches generalizing disk log memory with
  | nil => exact ⟨[], log, disk, rfl, h⟩
  | cons batch batches ih =>
    obtain ⟨hf, hr⟩ := hv
    obtain ⟨steps, next, middle, ho, hn⟩ := h.operation hf hf (by simp)
    obtain ⟨later, log', disk', hl, hc⟩ := ih hn hr
    exact ⟨steps ++ later, log', disk', ho.bind hl, hc⟩

theorem CoveredBy.firstIndex_eq : log.firstIndex = memory.firstIndex := by
  obtain ⟨clean, hs, -⟩ := h.stored
  exact hs.agrees.firstIndex_eq

theorem CoveredBy.lastIndex_eq : log.lastIndex = memory.lastIndex := by
  obtain ⟨clean, hs, -⟩ := h.stored
  exact hs.agrees.lastIndex_eq

theorem CoveredBy.firstIndex_le : memory.firstIndex ≤ memory.lastIndex + 1 := by
  obtain ⟨clean, hs, -⟩ := h.stored
  exact hs.firstIndex_le

theorem CoveredBy.truncatePrefix_bounds (hl : memory.lastIndex < firstIndexKept) :
    (memory.truncatePrefix firstIndexKept).firstIndex = firstIndexKept ∧
      (memory.truncatePrefix firstIndexKept).lastIndex = firstIndexKept - 1 := by
  have hle := h.firstIndex_le
  by_cases hn : firstIndexKept ≤ memory.firstIndex
  · rw [InMemoryLog.truncatePrefix, if_pos hn]
    omega
  · rw [InMemoryLog.truncatePrefix, if_neg hn, if_pos hl]
    exact ⟨rfl, rfl⟩

end

/-- A log that is discarded as a whole is empty at the new first index. It survives later
starts exactly if no other in-progress file was in the directory. -/
theorem discarded_log_survives_iff {operations : List (Operation Entry)}
    (hvalid : Operation.AllValid config {} operations) {steps : List Step}
    (hrun : RunsTo (Operation.start config operations) {} steps log disk)
    {firstIndexKept : Nat} (hlast : log.lastIndex < firstIndexKept) :
    ∃ steps' discarded disk',
      RunsTo (log.truncatePrefix config firstIndexKept) disk steps' discarded disk' ∧
      discarded.firstIndex = firstIndexKept ∧ discarded.lastIndex = firstIndexKept - 1 ∧
      ∀ {batches : List (List Entry)} {memory : InMemoryLog Entry},
        memory = (Operation.allOnMemory config {} operations).truncatePrefix firstIndexKept →
        Operation.AllValid config memory (batches.map .append) →
        ∃ later appended disk'',
          RunsTo (Operation.runAll config discarded (batches.map .append)) disk' later
            appended disk'' ∧
          ((∃ steps'' after, RunsTo (init config) disk'' steps'' appended after ∧
              Agrees config after appended
                (Operation.allOnMemory config memory (batches.map .append))) ↔
            ∀ first, .active first ∈ disk.metas → first = firstIndexKept) := by
  obtain ⟨stale, hcov⟩ := coveredBy_of_run hvalid hrun
  rw [hcov.lastIndex_eq] at hlast
  obtain ⟨steps', discarded, disk', stale', hdisc, hcov', hstal⟩ := hcov.discard hlast
  obtain ⟨hfir, hlastIndex⟩ := hcov.truncatePrefix_bounds hlast
  refine ⟨steps', discarded, disk', hdisc, hcov'.firstIndex_eq.trans hfir,
    hcov'.lastIndex_eq.trans hlastIndex, ?_⟩
  rintro batches memory rfl hbat
  obtain ⟨later, appended, disk'', happ, hcov''⟩ := hcov'.runAll_append hbat
  refine ⟨later, appended, disk'', happ, ?_⟩
  rw [← hstal, ← hcov''.init_iff]
  constructor
  · rintro ⟨steps'', after, hinit, -⟩
    exact ⟨steps'', appended, after, hinit⟩
  · rintro ⟨steps'', found, after, hinit⟩
    obtain ⟨rfl, hsto⟩ := hcov''.of_init hinit
    exact ⟨steps'', after, hinit, hsto.agrees⟩

end

theorem isBatch_one : IsBatch keyedPage 1 [1] where
  fits := ⟨by decide, by decide⟩
  numbered := ⟨rfl, trivial⟩
  signed _ _ _ := .inr (mem_singleton.mpr rfl)

theorem allValid_one : Operation.AllValid keyedPage {} [.append [1]] :=
  ⟨isBatch_one, trivial⟩

theorem discarded_log_survives_iff_appendOne : ∃ steps log disk,
      RunsTo (Operation.start keyedPage [.append [1]]) {} steps log disk ∧
      ∃ steps' discarded disk',
        RunsTo (log.truncatePrefix keyedPage 3) disk steps' discarded disk' ∧
        discarded.firstIndex = 3 ∧ discarded.lastIndex = 2 ∧
        ∃ later appended disk'',
          RunsTo (Operation.runAll keyedPage discarded [.append [3]]) disk' later appended disk'' ∧
          ((∃ steps'' after, RunsTo (init keyedPage) disk'' steps'' appended after ∧
              Agrees keyedPage after appended { log := [3], firstIndex := 3, lastIndex := 3 }) ↔
            ∀ first, .active first ∈ disk.metas → first = 3) := by
  obtain ⟨steps, disk, hr, -⟩ := exists_run_append _ isBatch_one
  have hl : ((Layout.fresh.append [1]).toLog keyedPage).lastIndex < 3 := by decide
  obtain ⟨steps', discarded, disk', hd, hf, hl', happ⟩ :=
    discarded_log_survives_iff allValid_one hr hl
  have hb : Operation.AllValid keyedPage { log := [], firstIndex := 3, lastIndex := 2 }
      [.append [3]] :=
    ⟨⟨⟨by decide, by decide⟩, ⟨rfl, trivial⟩, fun _ _ _ => .inr (mem_singleton.mpr rfl)⟩, trivial⟩
  exact ⟨steps, _, disk, hr, steps', discarded, disk', hd, hf, hl', @happ [[3]] _ rfl hb⟩

/-- One entry is appended and the log is discarded up to index 3: the in-progress files
from index 1 on stop the next start. -/
theorem discarded_log_lost_at_restart : ∃ steps log disk,
      RunsTo (Operation.start keyedPage [.append [1]]) {} steps log disk ∧
      log.lastIndex < 3 ∧
      ∃ steps' discarded disk',
        RunsTo (log.truncatePrefix keyedPage 3) disk steps'
          discarded disk' ∧
        ∀ steps'' found after, ¬ RunsTo (init keyedPage) disk' steps''
            found after := by
  obtain ⟨steps, disk, hr, hd⟩ := exists_run_append _ isBatch_one
  have hsto : Stores keyedPage disk
      ((Layout.fresh.append [1]).toLog _) (Layout.fresh.append [1]).toMemory :=
    ⟨_, _, hd, rfl, rfl⟩
  have hl : (Layout.fresh.append [1] : Layout Nat).toMemory.lastIndex < 3 := by decide
  have ha : SegmentName.active 1 ∈ disk.metas := (hd.active_iff 1).mpr ⟨rfl, rfl⟩
  obtain ⟨steps', discarded, disk', stale, hdisc, hc, hs⟩ :=
    hsto.coveredBy.discard hl
  refine ⟨steps, _, disk, hr, hl, steps', discarded, disk', hdisc, ?_⟩
  intro steps'' found after hi
  have ho := hs.mp (hc.init_iff.mp ⟨steps'', found, after, hi⟩) 1 ha
  cases ho

end MySuperLedger.Storage
