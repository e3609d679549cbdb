import MySuperLedger.Storage.Refinement

/-! # Crashes inside an append

The data of a batch is durable before its records are. The records are written
back page by page, so a crash leaves any of the pages. The next start takes the
records up to the first gap and leaves those behind it in the file; whether they
come back depends on what is appended later.
-/

namespace MySuperLedger.Storage

open Collections Effects List Option AList Segment Layout SegmentLog Operation
open Program (RunsTo)

/-- The page of the meta file in which a slot lies. -/
def pageOf (slot : Nat) : Nat := slot / (pageSize / metaSize)

/-- The directory after a crash in the last sync of an append: the steps before it
are durable, and of the meta records those whose page has reached the disk. -/
def Disk.tornBy {α : Type} (disk : Disk) (program : Action α) (pages : Nat → Bool) : Disk :=
  match (program disk).effects.getLast? with
  | some (.writeMeta name position records) =>
    let before := disk.afterAll (program disk).effects.dropLast
    { before with
      metas := before.metas.insert name
        (torn (fun slot => pages (pageOf slot)) 0 (before.metaOf name)
          (writeAt (before.metaOf name) position records)) }
  | _ => disk.afterAll (program disk).effects

section

variable {Entry : Type} (config : Config Entry)

def startSlot (log : SegmentLog) (batch : List Entry) : Nat :=
  match log.activeSegment with
  | some active => if active.exceeds config batch then 0 else active.metaOffset / metaSize
  | none => 0

/-- No page of the batch has reached the disk before one that has not, or the log
was empty and its first page is missing: then the next start makes new files. -/
def TornSafe (log : SegmentLog) (batch : List Entry) (pages : Nat → Bool) : Prop :=
  (∀ i j, i ≤ j → j < batch.length → pages (pageOf (startSlot config log batch + j)) = true →
    pages (pageOf (startSlot config log batch + i)) = true) ∨
  (log.lastIndex < log.firstIndex ∧ pages (pageOf (startSlot config log batch)) = false)

/-- The next start finds the old log and a prefix of the batch, and so does every
later one, behind which only what was appended in between is found. -/
def Survives (disk : Disk) (memory : InMemoryLog Entry) (batch : List Entry) : Prop :=
  ∃ count ≤ batch.length, ∃ steps log disk', RunsTo (init config) disk steps log disk' ∧
    Agrees config disk' log (memory.appendEntries config (batch.take count)).1 ∧
    ∀ later : List (List Entry),
      AllAdmissible config (memory.appendEntries config (batch.take count)).1
        (later.map .append) →
      ∃ steps' log' disk'', RunsTo (runAll config log (later.map .append ++ [.reopen])) disk' steps'
          log' disk'' ∧
        Agrees config disk'' log' (allOnMemory config
          (memory.appendEntries config (batch.take count)).1 (later.map .append))

variable {config}

variable {persisted : Nat → Bool} {disk disk' : Disk}

variable {next : Nat} {entry : Entry} {memory : InMemoryLog Entry}

theorem stops_torn {slot : Nat} {records : List LogMeta} (hp : 0 < next)
    (hg : 0 < n → persisted slot = false) :
    Stops next (torn persisted slot (blanks n) records ++ blanks m) := by
  intro record hr
  have hm : record = .blank := by
    cases n with
    | zero =>
      have : torn persisted slot (blanks 0) records = [] := by cases records <;> rfl
      rw [this, nil_append] at hr
      exact eq_of_mem_replicate (mem_of_mem_head? hr)
    | succ n =>
      cases records with
      | nil => exact eq_of_mem_replicate (mem_of_mem_head? hr)
      | cons first records =>
        have hb : blanks (n + 1) = .blank :: blanks n := rfl
        simp only [hb, torn, hg n.succ_pos, cons_append, head?_cons,
          mem_def, Option.some.injEq] at hr
        exact hr.symm
  rw [hm]
  exact hp.ne

/-- What is left of the records of a batch behind those of `held`. -/
def tornTail (config : Config Entry) (persisted : Nat → Bool) (held batch : List Entry) :
    List LogMeta :=
  torn persisted held.length (blanks batch.length) (recordsOf config (dataLength config held) batch)

/-- A file of a block, the torn records of a batch behind it, and blanks. -/
structure HoldsTorn (config : Config Entry) (persisted : Nat → Bool) (disk : Disk)
    (name : SegmentName) (first : Nat) (held batch : List Entry) (m : Nat) : Prop where
  records_eq : disk.metas.lookup name =
    some (recordsOf config 0 held ++ (tornTail config persisted held batch ++ blanks m))
  length_eq : held.length + batch.length + m = config.slots
  data_eq : ∃ rest, disk.datas.lookup name = some (bytesOf config (held ++ batch) ++ rest) ∧
    dataLength config (held ++ batch) + rest.length = config.dataSizeLimit
  numbered : Numbered config first (held ++ batch)
  signed : ∀ entry ∈ held ++ batch, CanSign config entry

variable {name : SegmentName} {first m : Nat} {held batch : List Entry}

theorem drop_recordsOf (offset k : Nat) (entries : List Entry) :
    (recordsOf config offset entries).drop k =
      recordsOf config (offset + dataLength config (entries.take k)) (entries.drop k) := by
  induction entries generalizing offset k with
  | nil => simp [recordsOf]
  | cons entry entries ih =>
    cases k with
    | zero => simp
    | succ k => simp [recordsOf, ih, Nat.add_assoc]

variable {run count : Nat} {log : SegmentLog}

theorem length_tornTail : (tornTail config persisted held batch).length = batch.length := by
  rw [tornTail, length_torn _ (by simp [blanks]), length_recordsOf]

theorem drop_tornTail (hle : count ≤ batch.length) :
    (tornTail config persisted held batch).drop count =
      tornTail config persisted (held ++ batch.take count) (batch.drop count) := by
  have hblanks : (blanks batch.length).drop count = blanks (batch.drop count).length := by
    rw [length_drop]
    exact drop_replicate ..
  rw [tornTail, drop_torn, drop_recordsOf, hblanks, tornTail, dataLength_append, length_append,
    length_take_of_le hle]

/-- The records before the first gap are as written. -/
theorem tornTail_eq (hrun : persistedRun persisted held.length batch.length = run) :
    tornTail config persisted held batch =
      recordsOf config (dataLength config held) (batch.take run) ++
        tornTail config persisted (held ++ batch.take run) (batch.drop run) := by
  have hle : run ≤ batch.length := hrun ▸ persistedRun_le _ _
  have hfront : (tornTail config persisted held batch).take run =
      recordsOf config (dataLength config held) (batch.take run) := by
    have hnew := @take_torn_run _ (blanks batch.length)
      (recordsOf config (dataLength config held) batch) persisted held.length (by simp [blanks])
    rwa [length_recordsOf, hrun, take_recordsOf] at hnew
  rw [← drop_tornTail hle, ← hfront, take_append_drop]

section

variable (h : HoldsTorn config persisted disk name first held batch m)
include h

theorem HoldsTorn.shift (hrun : persistedRun persisted held.length batch.length = run) :
    HoldsTorn config persisted disk name first (held ++ batch.take run) (batch.drop run) m := by
  have hsplit : held ++ batch.take run ++ batch.drop run = held ++ batch := by
    rw [append_assoc, take_append_drop]
  refine ⟨?_, ?_, hsplit ▸ h.data_eq, hsplit ▸ h.numbered, hsplit ▸ h.signed⟩
  · rw [h.records_eq, tornTail_eq hrun, recordsOf_append, Nat.zero_add]
    simp only [append_assoc]
  · have := h.length_eq
    simp only [length_append, length_take, length_drop]
    omega

/-- The scan of a start stops at the gap. -/
theorem HoldsTorn.holds (hpos : 0 < first)
    (hrun : persistedRun persisted held.length batch.length = run) :
    Holds config disk name first (held ++ batch.take run)
      (tornTail config persisted (held ++ batch.take run) (batch.drop run) ++ blanks m) := by
  have hle : run ≤ batch.length := hrun ▸ persistedRun_le _ _
  have hs := h.shift hrun
  refine ⟨hs.records_eq, ?_, ?_, (numbered_append.mp hs.numbered).1,
    fun entry hent => hs.signed entry (mem_append_left _ hent), ?_⟩
  · have hlen := hs.length_eq
    rw [Nat.add_assoc] at hlen
    simpa only [length_append, length_tornTail, blanks, length_replicate] using hlen
  · obtain ⟨rest, hdata, hsize⟩ := hs.data_eq
    refine ⟨bytesOf config (batch.drop run) ++ rest, ?_, ?_⟩
    · rw [hdata, bytesOf_append _ (batch.drop run), append_assoc]
    · rw [dataLength_append _ (batch.drop run)] at hsize
      rw [length_append, length_bytesOf]
      omega
  · refine stops_torn (Nat.add_pos_left hpos _) fun hgap => ?_
    rw [length_append, length_take_of_le hle, ← hrun]
    rw [length_drop] at hgap
    exact not_persisted_run (by omega)

/-- The first `count` entries of the batch are written again, over the same bytes;
the torn records behind them stay. -/
theorem HoldsTorn.refilled (hle : count ≤ batch.length) :
    HoldsTorn config persisted
      (disk.written config name held (batch.take count)
        (recordsOf config (dataLength config held) (batch.take count)))
      name first (held ++ batch.take count) (batch.drop count) m := by
  have hsplit : held ++ batch.take count ++ batch.drop count = held ++ batch := by
    rw [append_assoc, take_append_drop]
  refine ⟨?_, ?_, ?_, hsplit ▸ h.numbered, hsplit ▸ h.signed⟩
  · have hroom : count ≤ (tornTail config persisted held batch).length := by
      rwa [length_tornTail]
    rw [metas_written h.records_eq, length_recordsOf, length_take_of_le hle,
      drop_append_of_le_length hroom, drop_tornTail hle, recordsOf_append, Nat.zero_add]
  · have := h.length_eq
    simp only [length_append, length_take, length_drop]
    omega
  · obtain ⟨rest, hdata, hsize⟩ := h.data_eq
    refine ⟨rest, ?_, hsplit ▸ hsize⟩
    have hwhole : disk.dataOf name = bytesOf config (held ++ batch) ++ rest := by
      rw [Disk.dataOf, hdata, getD_some]
    have hfile : disk.dataOf name = bytesOf config held ++
        (bytesOf config (batch.take count) ++ (bytesOf config (batch.drop count) ++ rest)) := by
      rw [hwhole, ← hsplit]
      simp only [bytesOf_append, append_assoc]
    have hwr := writeAt_append (bytesOf config held)
      (bytesOf config (batch.take count) ++ (bytesOf config (batch.drop count) ++ rest))
      (bytesOf config (batch.take count))
    rw [drop_left, ← hfile, length_bytesOf, append_assoc, ← hfile] at hwr
    rw [hsplit, ← hwhole]
    exact (lookup_insert _).trans (congrArg some hwr)

theorem HoldsTorn.fits (hle : count ≤ batch.length) : Fits config held (batch.take count) := by
  have hlen := h.length_eq
  obtain ⟨rest, -, hsize⟩ := h.data_eq
  rw [dataLength_append, ← take_append_drop count batch, dataLength_append] at hsize
  refine ⟨?_, by omega⟩
  rw [length_take]
  omega

end

/-- A batch behind the block `held`, with its records torn. -/
def Disk.tornWritten (config : Config Entry) (disk : Disk) (name : SegmentName)
    (held batch : List Entry) (persisted : Nat → Bool) : Disk :=
  let before := disk.after (.writeData name (dataLength config held) (bytesOf config batch))
  { before with
    metas := before.metas.insert name (torn persisted 0 (before.metaOf name)
      (writeAt (before.metaOf name) held.length
        (recordsOf config (dataLength config held) batch))) }

theorem tornWritten_sameBut (disk : Disk) (name : SegmentName) (held batch : List Entry) :
    SameBut disk (disk.tornWritten config name held batch persisted) name :=
  ⟨rfl, fun _ hne => lookup_insert_ne hne, fun _ hne => lookup_insert_ne hne⟩

theorem Holds.torn (h : Holds config disk name first held (blanks n))
    (happ : CanAppend config first held batch) :
    HoldsTorn config persisted (disk.tornWritten config name held batch persisted) name first held
      batch (n - batch.length) where
  records_eq := by
    have hroom := happ.fits.slots
    have hlen := h.length_eq
    simp only [blanks, length_replicate] at hlen
    have hmeta : disk.metaOf name = recordsOf config 0 held ++ blanks n := by
      rw [Disk.metaOf, h.records_eq]
      rfl
    have hwr := writeAt_append (recordsOf config 0 held) (blanks n)
      (recordsOf config (dataLength config held) batch)
    rw [length_recordsOf, length_recordsOf, ← hmeta] at hwr
    have hrest : (blanks n).drop batch.length = blanks (n - batch.length) := drop_replicate ..
    have hspl : blanks n = blanks batch.length ++ blanks (n - batch.length) := by
      rw [blanks, blanks, blanks, replicate_append_replicate]
      congr 1
      omega
    refine (lookup_insert _).trans (congrArg some ?_)
    show Collections.torn persisted 0 (disk.metaOf name)
      (writeAt (disk.metaOf name) held.length _) = _
    rw [hwr, hrest, hmeta, hspl, append_assoc, torn_append rfl, torn_self,
      torn_append (by simp [blanks]), torn_self, length_recordsOf, Nat.zero_add, tornTail]
  length_eq := by
    have hroom := happ.fits.slots
    have hlen := h.length_eq
    simp only [blanks, length_replicate] at hlen
    omega
  data_eq :=
    (h.datas_written happ.fits : ∃ rest, (disk.written config name held batch []).datas.lookup
      name = some (bytesOf config (held ++ batch) ++ rest) ∧ _)
  numbered := numbered_append.mpr ⟨h.numbered, happ.numbered⟩
  signed := by
    intro entry hent
    rcases mem_append.mp hent with hent | hent
    · exact h.signed entry hent
    · exact happ.signed entry hent

variable {layout rolled : Layout Entry} {pages : Nat → Bool}

theorem tornBy_append {steps : List Step} {x : SegmentLog × Bool} {final : Disk}
    (hr : RunsTo (appendEntries config log (entry :: batch)) disk
      (steps ++ appendSteps config rolled (entry :: batch)) x final)
    (hs : disk.afterAll steps = disk') :
    disk.tornBy (appendEntries config log (entry :: batch)) pages =
      disk'.tornWritten config (.active rolled.activeFirst) rolled.active (entry :: batch)
        fun slot => pages (pageOf slot) := by
  have he : ((appendEntries config log (entry :: batch)) disk).effects =
      (steps ++ [.writeData (.active rolled.activeFirst) (dataLength config rolled.active)
        (bytesOf config (entry :: batch))]) ++
      [.writeMeta (.active rolled.activeFirst) rolled.active.length
        (recordsOf config (dataLength config rolled.active) (entry :: batch))] := by
    rw [show appendEntries config log (entry :: batch) disk = _ from hr, append_assoc]
    rfl
  have hp : disk.afterAll (steps ++ [.writeData (.active rolled.activeFirst)
      (dataLength config rolled.active) (bytesOf config (entry :: batch))]) =
      disk'.after (.writeData (.active rolled.activeFirst)
        (dataLength config rolled.active) (bytesOf config (entry :: batch))) := by
    rw [afterAll_append, hs]
    rfl
  simp only [Disk.tornBy, he, getLast?_concat, dropLast_concat, hp]
  rfl

/-- An append that was torn in the directory of `rolled`. -/
structure TornAppend (config : Config Entry) (persisted : Nat → Bool) (rolled : Layout Entry)
    (batch : List Entry) (before crashed : Disk) (n m : Nat) : Prop where
  directory : Directory config rolled (some (blanks n)) before
  sameBut : SameBut before crashed (.active rolled.activeFirst)
  holdsTorn : HoldsTorn config persisted crashed (.active rolled.activeFirst) rolled.activeFirst
    rolled.active batch m
  isBatch : IsBatch config (rolled.lastIndex + 1) batch

variable {before crashed : Disk} {n : Nat}

theorem TornAppend.recovered (h : TornAppend config persisted rolled batch before crashed n m)
    (hr : persistedRun persisted rolled.active.length batch.length = run) :
    Directory config (rolled.append (batch.take run))
      (some (tornTail config persisted (rolled.active ++ batch.take run) (batch.drop run) ++
        blanks m)) crashed :=
  h.directory.extendActive h.sameBut (h.holdsTorn.holds rolled.activeFirst_pos hr)

theorem toMemory_take (hs : layout.SameLog rolled)
    (hb : Numbered config (layout.lastIndex + 1) batch) (count : Nat) :
    (rolled.append (batch.take count)).toMemory =
      (layout.toMemory.appendEntries config (batch.take count)).1 :=
  hs.toMemory_append (hb.take count)

theorem Stores.later_appends (h : Stores config disk log memory) {later : List (List Entry)}
    (hl : AllAdmissible config memory (later.map .append)) :
    ∃ steps log' disk',
      RunsTo (Operation.runAll config log (later.map .append ++ [.reopen])) disk steps log'
        disk' ∧
      Agrees config disk' log' (allOnMemory config memory (later.map .append)) := by
  have ha : AllAdmissible config memory (later.map .append ++ [.reopen]) :=
    allAdmissible_append.mpr ⟨hl, trivial, trivial⟩
  obtain ⟨steps, log', disk', hr, hs⟩ := h.runAll ha
  refine ⟨steps, log', disk', hr, ?_⟩
  have hm : Operation.allOnMemory config memory (later.map .append ++ [.reopen]) =
      allOnMemory config memory (later.map .append) := by
    simp [allOnMemory, onMemory]
  rw [← hm]
  exact hs.agrees

/-- A start on an empty log makes new files, whatever the old ones hold. -/
theorem Directory.init_stores_of_nil {records : Option (List LogMeta)}
    (h : Directory config layout records disk) (hn : layout.entries = []) :
    ∃ steps disk', RunsTo (SegmentLog.init config) disk steps (layout.toLog config) disk' ∧
      Stores config disk' (layout.toLog config) layout.toMemory := by
  have hi := h.init
  rw [if_neg (fun hk => hk.2 hn)] at hi
  exact ⟨_, _, hi, layout, config.slots, h.createActive (entries_eq_nil_iff.mp hn).2, rfl, rfl⟩

theorem TornAppend.survives (h : TornAppend config persisted rolled batch before crashed n m)
    (hsame : layout.SameLog rolled)
    (hsafe : (∀ i j, i ≤ j → j < batch.length → persisted (rolled.active.length + j) = true →
        persisted (rolled.active.length + i) = true) ∨
      (layout.entries = [] ∧ persisted rolled.active.length = false)) :
    Survives config crashed layout.toMemory batch := by
  have hnum : Numbered config (layout.lastIndex + 1) batch :=
    hsame.lastIndex_eq ▸ h.isBatch.numbered
  obtain ⟨run, hrun⟩ : ∃ run, persistedRun persisted rolled.active.length batch.length = run :=
    ⟨_, rfl⟩
  have hle : run ≤ batch.length := hrun ▸ persistedRun_le _ _
  have hdir := h.recovered hrun
  have hsto : ∃ steps disk', RunsTo (SegmentLog.init config) crashed steps
        ((rolled.append (batch.take run)).toLog config) disk' ∧
      Stores config disk' ((rolled.append (batch.take run)).toLog config)
        (rolled.append (batch.take run)).toMemory := by
    rcases hsafe with hnog | ⟨hnil, hfst⟩
    · -- nothing has reached the disk behind the run
      have hnone : ∀ i < (blanks (batch.drop run).length).length,
          persisted ((rolled.active ++ batch.take run).length + i) = false := by
        intro i hi
        simp only [blanks, length_replicate, length_drop] at hi
        rw [length_append, length_take_of_le hle]
        by_contra hpers
        have hgap := hnog run (run + i) (Nat.le_add_right ..) (by omega)
          (by rw [← Nat.add_assoc]; simpa using hpers)
        have hmiss : persisted (rolled.active.length + run) = false := by
          rw [← hrun]
          exact not_persisted_run (by omega)
        rw [hmiss] at hgap
        cases hgap
      rw [tornTail, torn_eq_old (by simp [blanks]) hnone] at hdir
      refine hdir.init_stores (n := (batch.drop run).length + m) fun records hrecs => ?_
      rw [← some.inj hrecs]
      exact replicate_append_replicate
    · have hzero : run = 0 := by
        rw [← hrun]
        cases batch with
        | nil => rfl
        | cons entry batch => exact if_neg (by simp [hfst])
      refine hdir.init_stores_of_nil ?_
      have hents : rolled.entries = [] := hsame.entries_eq.trans hnil
      obtain ⟨hcl, hact⟩ := Layout.entries_eq_nil_iff.mp hents
      simp [Layout.entries, Layout.append, hcl, hact, hzero]
  obtain ⟨steps, disk', hinit, hsto⟩ := hsto
  rw [toMemory_take hsame hnum] at hsto
  exact ⟨run, hle, steps, _, disk', hinit, hsto.agrees, fun later hlate => hsto.later_appends hlate⟩

theorem IsBatch.middle (h : IsBatch config next batch) (hle : run ≤ batch.length) (count : Nat) :
    IsBatch config (next + run) ((batch.drop run).take count) where
  fits := by
    have hslots := h.fits.slots
    have hdata := h.fits.data
    rw [← take_append_drop run batch, dataLength_append,
      ← take_append_drop count (batch.drop run), dataLength_append] at hdata
    refine ⟨?_, by omega⟩
    rw [length_take, length_drop]
    omega
  numbered := by
    have hnum := h.numbered
    rw [← take_append_drop run batch, numbered_append, length_take_of_le hle] at hnum
    exact hnum.2.take count
  signed entry he := h.signed entry (mem_of_mem_drop (mem_of_mem_take he))

section

variable (h : TornAppend config persisted rolled batch before crashed n m)
include h

/-- The start after the entries up to a record behind the gap have been appended
again finds that record too. -/
theorem TornAppend.refilled
    (hrun : persistedRun persisted rolled.active.length batch.length = run) (hpos : 0 < count)
    (hlt : run + count < batch.length)
    (hpers : persisted (rolled.active.length + (run + count)) = true) :
    ∃ steps disk' found, rolled.lastIndex + (run + count) < found.lastIndex ∧
      RunsTo (runAll config ((rolled.append (batch.take run)).toLog config)
        [.append ((batch.drop run).take count), .reopen]) crashed steps found disk' := by
  have hdir := h.recovered hrun
  have hrest : (batch.drop run).length = batch.length - run := length_drop
  have hcount : count ≤ (batch.drop run).length := by omega
  have hshift := h.holdsTorn.shift hrun
  have hfits : Fits config (rolled.append (batch.take run)).active ((batch.drop run).take count) :=
    hshift.fits hcount
  have hmid : IsBatch config ((rolled.append (batch.take run)).lastIndex + 1)
      ((batch.drop run).take count) := by
    have hbat := h.isBatch.middle (show run ≤ batch.length by omega) count
    rwa [rolled.lastIndex_append, length_take_of_le (by omega), Nat.add_right_comm]
  -- the file after the append still has the torn records behind it
  have htorn := hshift.refilled hcount
  obtain ⟨more, hmore⟩ : ∃ more, persistedRun persisted
      (rolled.active ++ batch.take run ++ (batch.drop run).take count).length
      ((batch.drop run).drop count).length = more := ⟨_, rfl⟩
  have hmorePos : 0 < more := by
    obtain ⟨k, hk⟩ : ∃ k, ((batch.drop run).drop count).length = k + 1 :=
      ⟨batch.length - run - count - 1, by rw [length_drop, hrest]; omega⟩
    rw [← hmore, length_append, length_append, length_take_of_le (by omega),
      length_take_of_le hcount, Nat.add_assoc, hk, persistedRun, if_pos hpers]
    exact Nat.succ_pos _
  have hle : more ≤ ((batch.drop run).drop count).length := hmore ▸ persistedRun_le _ _
  have hhold := htorn.holds rolled.activeFirst_pos hmore
  rw [append_assoc rolled.active, append_assoc rolled.active] at hhold
  have hfnd := h.directory.extendActive (h.sameBut.trans (written_sameBut ..)) hhold
  obtain ⟨steps, disk', hinit, -⟩ := hfnd.init_agrees
  obtain ⟨entry, rest, hcons⟩ : ∃ entry rest, (batch.drop run).take count = entry :: rest := by
    refine exists_cons_of_ne_nil (length_pos_iff.mp ?_)
    rw [length_take_of_le hcount]
    exact hpos
  have hlast : rolled.lastIndex + (run + count) <
      (rolled.append (batch.take run ++ (batch.drop run).take count ++
        ((batch.drop run).drop count).take more)).lastIndex := by
    rw [rolled.lastIndex_append, length_append, length_append, length_take_of_le (by omega),
      length_take_of_le hcount, length_take_of_le hle]
    omega
  rw [hcons] at hfits hmid hinit hlast ⊢
  obtain ⟨-, happend⟩ := Directory.writeBatch_runsTo (rollIfNeeded_of_fits crashed hfits) hdir
    (rolled.append (batch.take run)).sameLog_refl hfits hmid
  have happ : RunsTo (Operation.run config ((rolled.append (batch.take run)).toLog config)
        (.append (entry :: rest))) crashed _ _ _ := happend.bind_right rfl
  exact ⟨_, disk', _, hlast, happ.bind (hinit.bind_right rfl)⟩

/-- A start finds the records before the gap, and leaves the files as they are
unless the log is empty. -/
theorem TornAppend.init (hr : persistedRun persisted rolled.active.length batch.length = run)
    (hk : rolled.entries = [] → 0 < run) (hle : run ≤ batch.length) :
    RunsTo (init config) crashed []
      ((rolled.append (batch.take run)).toLog config) crashed := by
  have hi := (h.recovered hr).init
  have he : (rolled.append (batch.take run)).entries = rolled.entries ++ batch.take run :=
    (append_assoc ..).symm
  have hne : (rolled.append (batch.take run)).entries ≠ [] := by
    intro hn
    rw [he, append_eq_nil_iff, take_eq_nil_iff] at hn
    have hp := hk hn.1
    rcases hn.2 with hz | hn
    · omega
    · rw [hn, length_nil] at hle
      omega
  rwa [if_pos ⟨rfl, hne⟩] at hi

/-- Behind a gap nothing is safe unless the next start makes new files: appending
up to a record behind the gap brings that record back. -/
theorem TornAppend.safe_of_survives
    (hsame : layout.SameLog rolled) (hsur : Survives config crashed layout.toMemory batch) :
    (∀ i j, i ≤ j → j < batch.length → persisted (rolled.active.length + j) = true →
        persisted (rolled.active.length + i) = true) ∨
      (layout.entries = [] ∧ persisted rolled.active.length = false) := by
  by_contra huns
  obtain ⟨hgap, hcre⟩ := not_or.mp huns
  simp only [not_forall, Bool.not_eq_true] at hgap
  obtain ⟨i, filled, hle, hfill, hpers, hmiss⟩ := hgap
  have hnum : Numbered config (layout.lastIndex + 1) batch :=
    hsame.lastIndex_eq ▸ h.isBatch.numbered
  obtain ⟨run, hrun⟩ : ∃ run, persistedRun persisted rolled.active.length batch.length = run :=
    ⟨_, rfl⟩
  have hlt : run < filled := by
    have hpre : run ≤ i := hrun ▸ persistedRun_le_of_missing hmiss
    have hne : i ≠ filled := by
      rintro rfl
      rw [hmiss] at hpers
      cases hpers
    omega
  have hkept : rolled.entries = [] → 0 < run := by
    intro hnil
    by_contra hzero
    have hgap : persistedRun persisted rolled.active.length batch.length < batch.length := by omega
    have hfst := not_persisted_run hgap
    rw [hrun, Nat.eq_zero_of_not_pos hzero, Nat.add_zero] at hfst
    exact hcre ⟨hsame.entries_eq ▸ hnil, hfst⟩
  have hlastIndex : ∀ k ≤ batch.length,
      (rolled.append (batch.take k)).lastIndex = rolled.lastIndex + k := by
    intro k hk
    rw [rolled.lastIndex_append, length_take, Nat.min_eq_left hk]
  -- the log that survives is the one the next start finds
  obtain ⟨count, hcnt, steps, log, disk', hinit, hagr, hlate⟩ := hsur
  obtain ⟨-, rfl, rfl⟩ := (h.init hrun hkept (by omega)).unique hinit
  rw [← toMemory_take hsame hnum] at hagr hlate
  obtain rfl : run = count := by
    have hlast : (rolled.append (batch.take run)).lastIndex =
        (rolled.append (batch.take count)).lastIndex := hagr.lastIndex_eq
    rw [hlastIndex run (by omega), hlastIndex count hcnt] at hlast
    omega
  obtain ⟨gap, rfl⟩ : ∃ gap, filled = run + gap := ⟨filled - run, by omega⟩
  have hmid : IsBatch config ((rolled.append (batch.take run)).lastIndex + 1)
      ((batch.drop run).take gap) := by
    rw [hlastIndex run (by omega), Nat.add_right_comm]
    exact h.isBatch.middle (by omega) gap
  obtain ⟨steps', log', disk'', hagn, hagr'⟩ := hlate [(batch.drop run).take gap] ⟨hmid, trivial⟩
  obtain ⟨_, _, found, hfnd, href⟩ := h.refilled hrun (by omega) hfill hpers
  obtain ⟨-, rfl, rfl⟩ := hagn.unique href
  have hlast : log'.lastIndex = ((rolled.append (batch.take run)).toMemory.appendEntries config
      ((batch.drop run).take gap)).1.lastIndex := hagr'.lastIndex_eq
  rw [InMemoryLog.appendEntries_eq hmid.numbered] at hlast
  have hend : log'.lastIndex = (rolled.append (batch.take run)).lastIndex +
      ((batch.drop run).take gap).length := hlast
  rw [hlastIndex run (by omega), length_take] at hend
  omega

end

theorem Layout.entries_eq_nil_iff_lastIndex_lt (layout : Layout Entry) :
    layout.entries = [] ↔ layout.lastIndex < layout.firstIndex := by
  constructor
  · intro hn
    have hp := layout.base_pos
    rw [layout.firstIndex_eq_base hn, lastIndex, hn, length_nil]
    omega
  · intro hlt
    by_contra hne
    have := firstIndex_le_lastIndex hne
    omega

theorem startSlot_toLog (layout : Layout Entry) (batch : List Entry) :
    startSlot config (layout.toLog config) batch =
      if (segmentOf config true layout.activeFirst layout.active).exceeds config batch then 0
      else layout.active.length := by
  have hs : (segmentOf config true layout.activeFirst layout.active).metaOffset / metaSize =
      layout.active.length := Nat.mul_div_cancel _ (by decide)
  rw [← hs]
  rfl

theorem Directory.tornBy (h : Directory config layout (some (blanks n)) disk)
    (hb : IsBatch config (layout.lastIndex + 1) (entry :: batch)) (pages : Nat → Bool) :
    ∃ rolled before k m, layout.SameLog rolled ∧
      rolled.active.length = startSlot config (layout.toLog config) (entry :: batch) ∧
      TornAppend config (fun slot => pages (pageOf slot)) rolled (entry :: batch) before
        (disk.tornBy (appendEntries config (layout.toLog config) (entry :: batch)) pages)
        k m := by
  obtain ⟨steps, rolled, k, before, hr, hd, hf, hs, hslot, hstp⟩ :=
    h.rollIfNeeded_runsTo hb.fits
  obtain ⟨ha, hrun⟩ := Directory.writeBatch_runsTo hr hd hs hf hb
  rw [tornBy_append hrun hstp]
  exact ⟨rolled, before, k, k - (entry :: batch).length, hs, hslot.trans (startSlot_toLog ..).symm,
    hd, tornWritten_sameBut .., (hd.active_holds _ rfl).torn ha,
    hs.lastIndex_eq ▸ hb⟩

theorem Stores.survives_iff (h : Stores config disk log memory)
    (hb : IsBatch config (log.lastIndex + 1) batch) (pages : Nat → Bool) :
    Survives config (disk.tornBy (log.appendEntries config batch) pages) memory batch ↔
      TornSafe config log batch pages := by
  cases batch with
  | nil =>
    -- nothing is written
    obtain ⟨steps, disk', hi, hsto⟩ := h.reopen
    have hsafe : TornSafe config log [] pages := .inl fun _ _ _ hlt => by cases hlt
    exact iff_of_true ⟨0, le_rfl, steps, log, disk', hi, hsto.agrees,
      fun later hl => hsto.later_appends hl⟩ hsafe
  | cons entry batch =>
    obtain ⟨layout, n, hd, rfl, rfl⟩ := h
    obtain ⟨rolled, before, k, m, hs, hslot, ht⟩ := hd.tornBy hb pages
    have hn : layout.entries = [] ↔
        (layout.toLog config).lastIndex < (layout.toLog config).firstIndex :=
      layout.entries_eq_nil_iff_lastIndex_lt
    rw [TornSafe, ← hslot, ← hn]
    exact ⟨ht.safe_of_survives hs, ht.survives hs⟩

/-- In every state that appends and truncations reach, the log survives a crash in
an append if and only if the pages that have reached the disk are safe. -/
theorem append_crash_survives_iff {operations : List (Operation Entry)}
    (hadmissible : AllAdmissible config {} operations)
    {steps : List Step} {log : SegmentLog} {disk : Disk}
    (hrun : RunsTo (Operation.start config operations) {} steps log disk)
    {batch : List Entry} (hbatch : IsBatch config (log.lastIndex + 1) batch) (pages : Nat → Bool) :
    Survives config (disk.tornBy (log.appendEntries config batch) pages)
        (allOnMemory config {} operations) batch ↔
      TornSafe config log batch pages := by
  obtain ⟨steps', log', disk', hr', hs⟩ := exists_run config hadmissible
  obtain ⟨-, rfl, rfl⟩ := hrun.unique hr'
  exact hs.survives_iff hbatch pages

end

def twoPages : Config Nat := unaryConfig false 0 2 Nat.two_pos

/-- The records of these entries take the slots 1 to 65, of which 64 and 65 lie on
the second page. -/
def overTwoPages : List Nat := List.range' 2 65

theorem one_admissible : AllAdmissible twoPages {} [.append [1]] :=
  ⟨⟨⟨by decide, by decide⟩, ⟨rfl, trivial⟩, nofun⟩, trivial⟩

theorem overTwoPages_isBatch :
    IsBatch twoPages (((fresh.append [1]).toLog twoPages).lastIndex + 1) overTwoPages :=
  ⟨⟨by decide, by decide⟩,
    by simp [overTwoPages, List.range', Numbered, twoPages, unaryConfig, unaryFormat,
      Layout.toLog, Layout.lastIndex, Layout.fresh, Layout.append, Layout.entries], nofun⟩

theorem append_crash_survives_firstPage : ∃ steps log disk,
      RunsTo (Operation.start twoPages [.append [1]]) {} steps log disk ∧
      IsBatch twoPages (log.lastIndex + 1) overTwoPages ∧
      Survives twoPages (disk.tornBy (log.appendEntries twoPages overTwoPages) (· == 0))
        (allOnMemory twoPages {} [.append [1]]) overTwoPages := by
  obtain ⟨steps, disk, hr, -⟩ := exists_run_append twoPages one_admissible.1
  refine ⟨steps, _, disk, hr, overTwoPages_isBatch,
    (append_crash_survives_iff one_admissible hr overTwoPages_isBatch _).mpr (.inl ?_)⟩
  intro i j hle _ hf
  simp only [pageOf, beq_iff_eq, Nat.div_eq_zero_iff] at hf ⊢
  omega

/-- Only the second page of the batch has reached the disk. The next start finds
the log `[1]`; after the entries 2 to 64 have been appended, the one after it finds
entries behind them. -/
theorem append_crash_secondPage : ∃ steps log disk,
      RunsTo (Operation.start twoPages [.append [1]]) {} steps log disk ∧
      IsBatch twoPages (log.lastIndex + 1) overTwoPages ∧
      (∃ steps' reopened found disk', RunsTo (init twoPages)
          (disk.tornBy (log.appendEntries twoPages overTwoPages) (· == 1)) [] reopened
          (disk.tornBy (log.appendEntries twoPages overTwoPages) (· == 1)) ∧
        reopened.lastIndex = 1 ∧
        RunsTo
          (runAll twoPages reopened [.append (overTwoPages.take 63), .reopen])
          (disk.tornBy (log.appendEntries twoPages overTwoPages) (· == 1)) steps' found disk' ∧
        64 < found.lastIndex) ∧
      ¬ Survives twoPages (disk.tornBy (log.appendEntries twoPages overTwoPages) (· == 1))
        (allOnMemory twoPages {} [.append [1]]) overTwoPages := by
  obtain ⟨steps, log, disk, hrun, hsto⟩ := exists_run twoPages one_admissible
  obtain ⟨_, _, hrun', hdir⟩ := exists_run_append twoPages one_admissible.1
  obtain ⟨-, rfl, rfl⟩ := hrun.unique hrun'
  refine ⟨steps, _, disk, hrun, overTwoPages_isBatch, ?_, ?_⟩
  · obtain ⟨rolled, before, k, m, hsame, hslot, htorn⟩ :=
      hdir.tornBy overTwoPages_isBatch (· == 1)
    have hslot : rolled.active.length = 1 := hslot.trans (by decide)
    have hlast : rolled.lastIndex = 1 := hsame.lastIndex_eq
    have hzero : persistedRun (fun slot => pageOf slot == 1) rolled.active.length
        overTwoPages.length = 0 := by
      rw [hslot]
      rfl
    have hne : rolled.entries ≠ [] := by
      rw [hsame.entries_eq]
      decide
    have hinit := htorn.init hzero (fun hnil => absurd hnil hne) (Nat.zero_le _)
    have hpers : (pageOf (rolled.active.length + 63) == 1) = true := by
      rw [hslot]
      rfl
    obtain ⟨steps', disk', found, hfnd, hagn⟩ :=
      htorn.refilled hzero (by decide : 0 < 63) (by decide) (by rwa [Nat.zero_add])
    refine ⟨steps', _, found, disk', hinit, ?_, hagn, by omega⟩
    exact (rolled.lastIndex_append _).trans (by rw [hlast]; rfl)
  · rw [hsto.survives_iff overTwoPages_isBatch]
    rintro (hnog | ⟨hempty, -⟩)
    · exact absurd (hnog 0 63 (by decide) (by decide) (by decide)) (by decide)
    · exact absurd hempty (by decide)

end MySuperLedger.Storage
