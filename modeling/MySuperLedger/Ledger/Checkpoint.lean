import MySuperLedger.Collections.Numbered
import MySuperLedger.Ledger.RocksDB
import MySuperLedger.Transition.System

/-! # Checkpoints of the event apply loop

The loop takes bundles in log order, applies their events one by one and commits
each bundle. Puts reach RocksDB in whole batches: when `commit` finds enough of
them, or when the command process loop swaps the state out between two bundles.
The process may stop anywhere. Whatever happened, RocksDB holds exactly the
effect of the bundles up to its `last_applied_index`.
-/

namespace MySuperLedger.Ledger

open Collections Transition List Option RocksDBBacked

/-- The events of one log entry, decoded: version 1, under an index from 1 on. -/
structure Bundle where
  id : UInt64
  events : List Event
  id_pos : 0 < id
  isV1 : ∀ event ∈ events, event.payload.IsV1

def eventsOf (bundles : List Bundle) : List Event := bundles.flatMap Bundle.events

def lastId (bundles : List Bundle) : Option UInt64 := bundles.getLast?.map Bundle.id

/-- Where the loop is inside one iteration of `run`. -/
inductive Pc where
  | idle
  | applying (events : List Event) (commandId : UInt64)
  | committing (commandId : UInt64)
  deriving DecidableEq

structure Loop where
  machine : RocksDBBacked := {}
  pending : List Bundle := []
  pc : Pc := .idle
  shouldRecover : Bool := true

/-- Everything the loop, a swap or a crash can do. The mutex of the loop keeps a
swap out of an iteration. A failed assertion is a crash. -/
inductive Loop.Step (bundles : List Bundle) : Loop → Loop → Prop where
  | load {loop : Loop} {bundle : Bundle} {pending : List Bundle} (hpc : loop.pc = .idle)
      (hrecover : loop.shouldRecover = false) (hpending : loop.pending = bundle :: pending) :
      Step bundles loop
        { loop with pending := pending, pc := .applying bundle.events bundle.id }
  | applyEvent {loop : Loop} {event : Event} {events : List Event} {commandId : UInt64}
      {machine : RocksDBBacked} (hpc : loop.pc = .applying (event :: events) commandId)
      (happly : loop.machine.applyEvent event = some machine) :
      Step bundles loop { loop with machine := machine, pc := .applying events commandId }
  | putAppliedIndex {loop : Loop} {commandId : UInt64} (hpc : loop.pc = .applying [] commandId) :
      Step bundles loop
        { loop with
          machine := loop.machine.putAppliedIndex commandId
          pc := .committing commandId }
  | flushIfNeeded {loop : Loop} {commandId : UInt64} (hpc : loop.pc = .committing commandId) :
      Step bundles loop
        { loop with machine := loop.machine.flushIfNeeded commandId, pc := .idle }
  | swapState {loop : Loop} (memory : AppState) (hpc : loop.pc = .idle) :
      Step bundles loop
        { loop with
          machine := (swapState memory loop.machine).2
          shouldRecover := true }
  | recoverSelf {loop : Loop} {machine : RocksDBBacked} (hpc : loop.pc = .idle)
      (hrecover : loop.shouldRecover = true) (hload : loop.machine.recoverSelf = some machine) :
      Step bundles loop
        { machine := machine
          pending := laterThan Bundle.id bundles machine.lastFlushedIndex
          pc := .idle
          shouldRecover := false }
  | crash {loop : Loop} :
      Step bundles loop { machine := { rocksDB := loop.machine.rocksDB } }

/-- Runs start from an empty database, in the recovery of the constructor. -/
def Loop.system (bundles : List Bundle) : System Loop where
  init loop := loop = {}
  step := Loop.Step bundles

theorem eventsOf_append (bundles later : List Bundle) :
    eventsOf (bundles ++ later) = eventsOf bundles ++ eventsOf later :=
  flatMap_append

theorem lastId_append_singleton (bundles : List Bundle) (bundle : Bundle) :
    lastId (bundles ++ [bundle]) = some bundle.id := by
  simp [lastId]

variable {stored rest bundles : List Bundle} {machine : RocksDBBacked} {events : List Event}
  {s reference : AppState} {loop : Loop} {callbacks : List Callback} {bundle : Bundle}
  {pending : List Bundle} {next : AppState} {event : Event} {last : RocksDBBacked}

theorem id_le_lastId (hi : Increasing Bundle.id stored) (hm : bundle ∈ stored) :
    bundle.id ≤ (lastId stored).getD 0 := by
  rcases eq_nil_or_concat stored with rfl | ⟨front, last, rfl⟩
  · exact absurd hm not_mem_nil
  · rw [concat_eq_append] at hi hm ⊢
    rw [lastId_append_singleton, getD_some]
    rcases mem_append.mp hm with hf | hl
    · have hlt := (pairwise_append.mp hi).2.2 bundle hf last mem_cons_self
      exact UInt64.le_of_lt hlt
    · have heq : bundle = last := mem_singleton.mp hl
      rw [heq]
      exact UInt64.le_refl _

section

variable (hi : Increasing Bundle.id (stored ++ rest))
include hi

theorem lastId_lt_id (hm : bundle ∈ rest) : (lastId stored).getD 0 < bundle.id := by
  rcases eq_nil_or_concat stored with rfl | ⟨front, last, rfl⟩
  · exact bundle.id_pos
  · rw [concat_eq_append] at hi ⊢
    rw [lastId_append_singleton, getD_some]
    have hl : last ∈ front ++ [last] := mem_append_right _ mem_cons_self
    exact (pairwise_append.mp hi).2.2 last hl bundle hm

theorem upTo_lastId : upTo Bundle.id (stored ++ rest) ((lastId stored).getD 0) = stored :=
  upTo_append (fun _ hm => id_le_lastId (pairwise_append.mp hi).1 hm)
    (fun _ hm => lastId_lt_id hi hm)

theorem laterThan_lastId : laterThan Bundle.id (stored ++ rest) ((lastId stored).getD 0) = rest :=
  laterThan_append (fun _ hm => id_le_lastId (pairwise_append.mp hi).1 hm)
    (fun _ hm => lastId_lt_id hi hm)

end

/-- `db` stores the effect of the bundles `stored` and their last id. -/
structure StoredAt (db : RocksDB) (stored : List Bundle) (reference : AppState) : Prop where
  index_eq : db.lastAppliedIndex = lastId stored
  absorbed : absorbEvents {} (eventsOf stored) = some reference
  stores : Stores db reference

/-- `db` is the checkpoint of some prefix of the log. -/
def IsCheckpoint (bundles : List Bundle) (db : RocksDB) : Prop :=
  ∃ stored rest reference, bundles = stored ++ rest ∧ StoredAt db stored reference

/-- How far the machine is, with its batch, at each place of the loop. -/
def Progress (bundles pending : List Bundle) (machine : RocksDBBacked) : Pc → Prop
  | .idle => ∃ processed reference, bundles = processed ++ pending ∧
      absorbEvents {} (eventsOf processed) = some reference ∧
      Tracks machine reference (lastId processed)
  | .applying events commandId => ∃ processed bundle applied reference,
      bundles = processed ++ bundle :: pending ∧ bundle.id = commandId ∧
      bundle.events = applied ++ events ∧
      absorbEvents {} (eventsOf processed ++ applied) = some reference ∧
      Tracks machine reference (lastId processed)
  | .committing commandId => ∃ processed bundle reference,
      bundles = processed ++ bundle :: pending ∧ bundle.id = commandId ∧
      absorbEvents {} (eventsOf (processed ++ [bundle])) = some reference ∧
      Tracks machine reference (some commandId)

structure Loop.Inv (bundles : List Bundle) (loop : Loop) : Prop where
  checkpoint : IsCheckpoint bundles loop.machine.rocksDB
  recovering : loop.shouldRecover = true → loop.pc = .idle ∧ loop.machine.writeBatch = []
  progress : loop.shouldRecover = false →
    Progress bundles loop.pending loop.machine loop.pc

theorem eventsOf_singleton (bundle : Bundle) : eventsOf [bundle] = bundle.events := by
  simp [eventsOf]

theorem Progress.idle_flushed (hp : Progress bundles pending machine .idle) :
    IsCheckpoint bundles machine.flushed := by
  rcases hp with ⟨processed, reference, hs, ha, ht⟩
  exact ⟨processed, pending, reference, hs, ht.index_eq, ha, ht.stores⟩

theorem Progress.committing_idle {commandId : UInt64}
    (hp : Progress bundles pending machine (.committing commandId)) :
    Progress bundles pending machine .idle := by
  rcases hp with ⟨processed, bundle, reference, hs, hid, ha, ht⟩
  refine ⟨processed ++ [bundle], reference, ?_, ha, ?_⟩
  · rw [hs, append_assoc, singleton_append]
  · rw [lastId_append_singleton, hid]
    exact ht

theorem Progress.flushIfNeeded {bundles pending : List Bundle} {machine : RocksDBBacked}
    (hp : Progress bundles pending machine .idle) (appliedIndex : UInt64) :
    Progress bundles pending (machine.flushIfNeeded appliedIndex) .idle := by
  rcases hp with ⟨processed, reference, hs, ha, ht⟩
  exact ⟨processed, reference, hs, ha, ht.flushIfNeeded appliedIndex⟩

theorem Progress.load (hp : Progress bundles (bundle :: pending) machine .idle) :
    Progress bundles pending machine (.applying bundle.events bundle.id) := by
  rcases hp with ⟨processed, reference, hspl, habs, ht⟩
  refine ⟨processed, bundle, [], reference, hspl, rfl, rfl, ?_, ht⟩
  rw [append_nil]
  exact habs

theorem Progress.applyEvent {commandId : UInt64}
    (hp : Progress bundles pending machine (.applying (event :: events) commandId))
    (happ : machine.applyEvent event = some last) :
    Progress bundles pending last (.applying events commandId) := by
  rcases hp with ⟨processed, bundle, applied, reference, hspl, hid, hevs, habs, ht⟩
  rcases ht.applyEvent happ with ⟨reference', hnext, ht'⟩
  refine ⟨processed, bundle, applied ++ [event], reference', hspl, hid, ?_, ?_, ht'⟩
  · rw [hevs, append_assoc, singleton_append]
  · rw [← append_assoc, absorbEvents_append, habs, bind_some]
    simp [absorbEvents, hnext]

theorem Progress.putAppliedIndex {commandId : UInt64}
    (hp : Progress bundles pending machine (.applying [] commandId)) :
    Progress bundles pending (machine.putAppliedIndex commandId) (.committing commandId) := by
  rcases hp with ⟨processed, bundle, applied, reference, hspl, hid, hevs, habs, ht⟩
  rw [append_nil] at hevs
  refine ⟨processed, bundle, reference, hspl, hid, ?_, ht.putAppliedIndex commandId⟩
  rw [eventsOf_append, eventsOf_singleton, hevs]
  exact habs

theorem Progress.append {bundles pending : List Bundle} {machine : RocksDBBacked} {pc : Pc}
    (hp : Progress bundles pending machine pc) (later : List Bundle) :
    Progress (bundles ++ later) (pending ++ later) machine pc := by
  cases pc with
  | idle =>
    rcases hp with ⟨processed, reference, hs, h⟩
    exact ⟨processed, reference, by simp [hs], h⟩
  | applying events commandId =>
    rcases hp with ⟨processed, bundle, applied, reference, hs, h⟩
    exact ⟨processed, bundle, applied, reference, by simp [hs], h⟩
  | committing commandId =>
    rcases hp with ⟨processed, bundle, reference, hs, h⟩
    exact ⟨processed, bundle, reference, by simp [hs], h⟩

theorem Loop.Inv.append {bundles : List Bundle} {loop : Loop} (hi : loop.Inv bundles)
    (later : List Bundle) :
    Loop.Inv (bundles ++ later) { loop with pending := loop.pending ++ later } := by
  refine ⟨?_, hi.recovering, fun hr => (hi.progress hr).append later⟩
  rcases hi.checkpoint with ⟨stored, rest, reference, hspl, hs⟩
  exact ⟨stored, rest ++ later, reference, by simp [hspl], hs⟩

theorem absorbEvents_isV1 (he : ∀ event ∈ events, event.payload.IsV1) (hv : s.IsV1)
    (h : absorbEvents s events = some reference) : reference.IsV1 := by
  induction events generalizing s with
  | nil =>
    rw [← some.inj h]
    exact hv
  | cons event events ih =>
    rcases bind_eq_some_iff.mp h with ⟨next, hn, hr⟩
    have hh := he event mem_cons_self
    exact ih (fun later hl => he later (mem_cons_of_mem _ hl)) (absorb_isV1 hh hv hn) hr

theorem StoredAt.isV1 {db : RocksDB} (hs : StoredAt db stored reference) : reference.IsV1 := by
  refine absorbEvents_isV1 ?_ AppState.isV1_empty hs.absorbed
  intro event he
  rcases mem_flatMap.mp he with ⟨bundle, -, hm⟩
  exact bundle.isV1 event hm

/-- Recovery from a checkpoint takes up right behind the stored bundles. -/
theorem StoredAt.recoverSelf {machine : RocksDBBacked} {stored : List Bundle}
    {reference : AppState} (hb : machine.writeBatch = [])
    (hs : StoredAt machine.rocksDB stored reference) :
    ∃ recovered, machine.recoverSelf = some recovered ∧
      recovered.lastFlushedIndex = (lastId stored).getD 0 ∧
      recovered.rocksDB = machine.rocksDB ∧ Tracks recovered reference (lastId stored) := by
  have hr := recoverSelf_of_stores hb hs.stores hs.isV1
  refine ⟨_, hr, ?_, rfl, ?_⟩
  · rw [hs.index_eq]
  · have hf : RocksDB.write machine.rocksDB machine.writeBatch = machine.rocksDB := by
      rw [hb, RocksDB.write_nil]
    refine ⟨?_, ?_, ⟨rfl, rfl⟩, fun _ hid => absurd hid Finmap.notMem_empty⟩
    · unfold flushed
      rw [hf]
      exact hs.stores
    · unfold flushed
      rw [hf]
      exact hs.index_eq

theorem Loop.inv_init (bundles : List Bundle) : Loop.Inv bundles {} := by
  refine ⟨⟨[], bundles, {}, rfl, rfl, rfl, ?_⟩, fun _ => ⟨rfl, rfl⟩, ?_⟩
  · refine ⟨?_, ?_, rfl⟩
    · intro code
      rw [KeyedMap.find?_empty]
      rfl
    · intro type
      rw [KeyedMap.find?_empty]
      rfl
  · intro h
    cases h

/-- Between two recoveries the progress at the program counter is all there is to show. -/
theorem Loop.Inv.of_progress (hc : IsCheckpoint bundles loop.machine.rocksDB)
    (hr : loop.shouldRecover = false) (hp : Progress bundles loop.pending loop.machine loop.pc) :
    loop.Inv bundles := by
  refine ⟨hc, fun h => ?_, fun _ => hp⟩
  rw [hr] at h
  cases h

theorem Loop.Inv.not_recovering (hi : loop.Inv bundles) (hpc : loop.pc ≠ .idle) :
    loop.shouldRecover = false := by
  cases hr : loop.shouldRecover with
  | false => rfl
  | true => exact absurd (hi.recovering hr).1 hpc

theorem Loop.Inv.progress_at {pc : Pc} (hi : loop.Inv bundles) (hpc : loop.pc = pc)
    (hr : loop.shouldRecover = false) : Progress bundles loop.pending loop.machine pc :=
  hpc ▸ hi.progress hr

theorem Loop.Inv.flushed (hi : loop.Inv bundles) (hpc : loop.pc = .idle) :
    IsCheckpoint bundles loop.machine.flushed := by
  cases hrec : loop.shouldRecover with
  | true =>
    -- nothing is batched while a recovery is due
    unfold RocksDBBacked.flushed
    rw [(hi.recovering hrec).2, RocksDB.write_nil]
    exact hi.checkpoint
  | false => exact (hi.progress_at hpc hrec).idle_flushed

theorem Loop.Inv.recoverSelf (hinc : Increasing Bundle.id bundles) (hi : loop.Inv bundles)
    (hrec : loop.shouldRecover = true) (hload : loop.machine.recoverSelf = some last) :
    Loop.Inv bundles
      { machine := last, pending := laterThan Bundle.id bundles last.lastFlushedIndex
        pc := .idle, shouldRecover := false } := by
  rcases hi.checkpoint with ⟨stored, rest, reference, hspl, hsto⟩
  rcases hsto.recoverSelf (hi.recovering hrec).2 with ⟨recovered, hrecovered, hidx, hdb, ht⟩
  obtain rfl : last = recovered := some.inj (hload.symm.trans hrecovered)
  refine .of_progress ?_ rfl ⟨stored, reference, ?_, hsto.absorbed, ht⟩
  · rw [hdb]
    exact ⟨stored, rest, reference, hspl, hsto⟩
  · rw [hidx, hspl, laterThan_lastId (hspl ▸ hinc)]

theorem Loop.inv_step (hinc : Increasing Bundle.id bundles) {next : Loop} (hi : loop.Inv bundles)
    (hstep : Loop.Step bundles loop next) : next.Inv bundles := by
  cases hstep with
  | @load bundle pending hpc hrec hpend =>
    have hp := hi.progress_at hpc hrec
    rw [hpend] at hp
    exact .of_progress hi.checkpoint hrec hp.load
  | @applyEvent event events commandId machine hpc happ =>
    have hrec := hi.not_recovering (by rw [hpc]; nofun)
    refine .of_progress ?_ hrec ((hi.progress_at hpc hrec).applyEvent happ)
    rw [applyEvent_rocksDB happ]
    exact hi.checkpoint
  | @putAppliedIndex commandId hpc =>
    have hrec := hi.not_recovering (by rw [hpc]; nofun)
    exact .of_progress hi.checkpoint hrec (hi.progress_at hpc hrec).putAppliedIndex
  | @flushIfNeeded commandId hpc =>
    have hrec := hi.not_recovering (by rw [hpc]; nofun)
    have hidle := (hi.progress_at hpc hrec).committing_idle
    refine .of_progress ?_ hrec (hidle.flushIfNeeded commandId)
    rcases loop.machine.flushIfNeeded_rocksDB commandId with h | h
    · rw [h]
      exact hi.checkpoint
    · rw [h]
      exact hidle.idle_flushed
  | swapState memory hpc => exact ⟨hi.flushed hpc, fun _ => ⟨hpc, rfl⟩, nofun⟩
  | @recoverSelf machine hpc hrec hload => exact hi.recoverSelf hinc hrec hload
  | crash => exact ⟨hi.checkpoint, fun _ => ⟨rfl, rfl⟩, nofun⟩

theorem Loop.inv_of_reachable (hinc : Increasing Bundle.id bundles)
    (hr : (Loop.system bundles).Reachable loop) : loop.Inv bundles := by
  refine System.Reachable.invariant (Loop.Inv bundles) ?_ ?_ hr
  · intro start hs
    have heq : start = {} := hs
    rw [heq]
    exact Loop.inv_init bundles
  · intro loop next hi hstep
    exact Loop.inv_step hinc hi hstep

def RocksDBBacked.applyBundle (machine : RocksDBBacked) (bundle : Bundle) : Option RocksDBBacked :=
  (machine.applyEvents bundle.events).map fun machine => machine.commit bundle.id

def RocksDBBacked.applyBundles (machine : RocksDBBacked) : List Bundle → Option RocksDBBacked
  | [] => some machine
  | bundle :: bundles =>
    (machine.applyBundle bundle).bind fun machine => machine.applyBundles bundles

/-- The machine is at `s`, whatever index it has put last. -/
def Follows (machine : RocksDBBacked) (s : AppState) : Prop := ∃ index, Tracks machine s index

/-- An event that `s` accepts is accepted by a state with the same books that does not know
its id, with the same callbacks. -/
theorem applyEvent_of_sameBooks {s' : AppState} (h : applyEvent s event = some (next, callbacks))
    (hbk : SameBooks s s') (hfr : ∀ journalEntry,
      event.payload = .journalEntryRecorded journalEntry → journalEntry.id ∉ s'.doneMap) :
    ∃ next', applyEvent s' event = some (next', callbacks) ∧ SameBooks next next' := by
  rcases hbk with ⟨hcoA, hmeta⟩
  unfold applyEvent at h ⊢
  cases hpay : event.payload with
  | accountCreated account =>
    simp only [hpay, applyAccountCreated, ← hcoA] at h ⊢
    cases hfind : s.coA.find? account.nominalCode with
    | some found => simp [hfind] at h
    | none =>
      simp only [hfind, Option.some.injEq, Prod.mk.injEq] at h ⊢
      rcases h with ⟨rfl, rfl⟩
      exact ⟨_, ⟨rfl, rfl⟩, rfl, hmeta⟩
  | accountMetadataConfigured accountMetadata =>
    simp only [hpay, applyAccountMetadataConfigured, Option.some.injEq, Prod.mk.injEq] at h ⊢
    rcases h with ⟨rfl, rfl⟩
    refine ⟨_, ⟨rfl, rfl⟩, hcoA, ?_⟩
    show s.accountMetadata.put accountMetadata = s'.accountMetadata.put accountMetadata
    rw [hmeta]
  | journalEntryRecorded journalEntry =>
    simp only [hpay, applyJournalEntryRecorded, ite_none_left_eq_some,
      map_eq_some_iff, Finmap.lookup_isSome] at h ⊢
    rcases h with ⟨-, ⟨coA, later⟩, hlin, hpair⟩
    have hnext := (Prod.mk.inj hpair).1
    have hcb := (Prod.mk.inj hpair).2
    subst hnext hcb
    rw [hcoA] at hlin
    exact ⟨_, ⟨hfr journalEntry hpay, (coA, later), hlin, rfl⟩, rfl, hmeta⟩

theorem fresh_of_applyEvent (h : applyEvent s event = some (next, callbacks))
    {journalEntry : JournalEntry} (hp : event.payload = .journalEntryRecorded journalEntry) :
    journalEntry.id ∉ s.doneMap := by
  have ha := applyEvent_inv h
  rw [hp] at ha
  exact ha.1

namespace Follows

variable {machine : RocksDBBacked} {leader leader' : RocksDBBacked}

/-- A machine that follows an uninterrupted one can apply what the other applied. -/
theorem applyEvent {event : Event} (hf : Follows machine leader.state)
    (h : leader.applyEvent event = some leader') :
    ∃ machine', machine.applyEvent event = some machine' ∧ Follows machine' leader'.state := by
  rcases hf with ⟨index, ht⟩
  rcases RocksDBBacked.applyEvent_inv h with ⟨state, callbacks, puts, ha, hp, rfl⟩
  have hfr : ∀ journalEntry, event.payload = .journalEntryRecorded journalEntry →
      journalEntry.id ∉ machine.state.doneMap :=
    fun journalEntry hpay hmem =>
      fresh_of_applyEvent ha hpay (ht.remembers _ hmem)
  rcases applyEvent_of_sameBooks ha ht.books hfr with ⟨next', ha', -⟩
  have hm : machine.applyEvent event =
      some { machine with state := next', writeBatch := machine.writeBatch ++ puts } := by
    simp [RocksDBBacked.applyEvent, ha', hp]
  rcases ht.applyEvent hm with ⟨reference', habs, ht'⟩
  have heq : reference' = state :=
    some.inj (habs.symm.trans (absorb_of_applyEvent ha))
  subst heq
  exact ⟨_, hm, index, ht'⟩

theorem applyEvents (hf : Follows machine leader.state)
    (h : leader.applyEvents events = some leader') :
    ∃ machine', machine.applyEvents events = some machine' ∧ Follows machine' leader'.state := by
  induction events generalizing machine leader with
  | nil =>
    rw [← some.inj h]
    exact ⟨machine, rfl, hf⟩
  | cons event events ih =>
    rcases bind_eq_some_iff.mp h with ⟨next, hn, hr⟩
    rcases hf.applyEvent hn with ⟨machine', hm, hf'⟩
    rcases ih hf' hr with ⟨machine'', hm', hf''⟩
    refine ⟨machine'', ?_, hf''⟩
    rw [RocksDBBacked.applyEvents, hm, bind_some, hm']

end Follows

theorem RocksDBBacked.flushIfNeeded_state (machine : RocksDBBacked) (appliedIndex : UInt64) :
    (machine.flushIfNeeded appliedIndex).state = machine.state := by
  unfold flushIfNeeded
  split
  · rfl
  · rfl

theorem RocksDBBacked.commit_state (machine : RocksDBBacked) (appliedIndex : UInt64) :
    (machine.commit appliedIndex).state = machine.state :=
  flushIfNeeded_state _ _

theorem Follows.applyBundles {leader leader' : RocksDBBacked} (hf : Follows machine leader.state)
    (h : leader.applyBundles bundles = some leader') :
    ∃ machine', machine.applyBundles bundles = some machine' ∧
      Follows machine' leader'.state := by
  induction bundles generalizing machine leader with
  | nil =>
    rw [← some.inj h]
    exact ⟨machine, rfl, hf⟩
  | cons bundle bundles ih =>
    rcases bind_eq_some_iff.mp h with ⟨next, hn, hr⟩
    rcases map_eq_some_iff.mp hn with ⟨applied, ha, rfl⟩
    rcases hf.applyEvents ha with ⟨machine', hm, hf'⟩
    have hc : Follows (machine'.commit bundle.id) (applied.commit bundle.id).state := by
      rcases hf' with ⟨index, ht⟩
      rw [commit_state]
      exact ⟨_, (ht.putAppliedIndex bundle.id).flushIfNeeded bundle.id⟩
    rcases ih hc hr with ⟨machine'', hm', hf''⟩
    refine ⟨machine'', ?_, hf''⟩
    simp [applyBundles, applyBundle, hm, hm']

theorem RocksDBBacked.applyBundles_append (h : machine.applyBundles (stored ++ rest) = some last) :
    ∃ middle, machine.applyBundles stored = some middle ∧
      middle.applyBundles rest = some last := by
  induction stored generalizing machine with
  | nil => exact ⟨machine, rfl, h⟩
  | cons bundle stored ih =>
    rcases bind_eq_some_iff.mp h with ⟨next, hn, hr⟩
    rcases ih hr with ⟨middle, hm, hl⟩
    refine ⟨middle, ?_, hl⟩
    rw [applyBundles, hn, bind_some, hm]

theorem RocksDBBacked.applyEvents_absorb {next : RocksDBBacked}
    (h : machine.applyEvents events = some next) :
    absorbEvents machine.state events = some next.state := by
  induction events generalizing machine with
  | nil =>
    rw [← some.inj h]
    rfl
  | cons event events ih =>
    rcases bind_eq_some_iff.mp h with ⟨middle, hm, hr⟩
    rcases applyEvent_inv hm with ⟨state, callbacks, puts, ha, -, hmiddle_eq⟩
    have hst : middle.state = state := by rw [hmiddle_eq]
    rw [absorbEvents, absorb_of_applyEvent ha, bind_some, ← hst]
    exact ih hr

theorem RocksDBBacked.applyBundles_absorb (h : machine.applyBundles bundles = some last) :
    absorbEvents machine.state (eventsOf bundles) = some last.state := by
  induction bundles generalizing machine with
  | nil =>
    rw [← some.inj h]
    rfl
  | cons bundle bundles ih =>
    rcases bind_eq_some_iff.mp h with ⟨next, hn, hr⟩
    rcases map_eq_some_iff.mp hn with ⟨applied, ha, rfl⟩
    have hs := applyEvents_absorb ha
    have hl := ih hr
    rw [commit_state] at hl
    have hc : eventsOf (bundle :: bundles) = bundle.events ++ eventsOf bundles := rfl
    rw [hc, absorbEvents_append, hs, bind_some, hl]

theorem absorbEvents_of_applyEvents (h : applyEvents s events = some (reference, callbacks)) :
    absorbEvents s events = some reference := by
  induction events generalizing s callbacks with
  | nil =>
    rw [← (Prod.mk.inj (some.inj h)).1]
    rfl
  | cons event events ih =>
    rcases bind_eq_some_iff.mp h with ⟨⟨next, made⟩, hn, h⟩
    rcases map_eq_some_iff.mp h with ⟨⟨last, later⟩, hr, hp⟩
    have hl := (Prod.mk.inj hp).1
    subst hl
    rw [absorbEvents, absorb_of_applyEvent hn, bind_some]
    exact ih hr

/-- In every state the loop can reach, RocksDB stores the effect of the bundles
up to its index; if applying these from the empty state trips no assertion, it
stores that state; and recovery followed by the later bundles ends where an
uninterrupted run ends. -/
theorem checkpoint_of_reachable (bundles : List Bundle) (hinc : Increasing Bundle.id bundles)
    (loop : Loop) (hr : (Loop.system bundles).Reachable loop) :
    (∃ reference, absorbEvents {} (eventsOf
        (upTo Bundle.id bundles (loop.machine.rocksDB.lastAppliedIndex.getD 0))) = some reference ∧
      Stores loop.machine.rocksDB reference) ∧
    (∀ reference callbacks, applyEvents {} (eventsOf
        (upTo Bundle.id bundles (loop.machine.rocksDB.lastAppliedIndex.getD 0))) =
          some (reference, callbacks) →
      Stores loop.machine.rocksDB reference) ∧
    (∀ uninterrupted, ({} : RocksDBBacked).applyBundles bundles = some uninterrupted →
      ∃ recovered replayed,
        recoverSelf { rocksDB := loop.machine.rocksDB } = some recovered ∧
        recovered.applyBundles (laterThan Bundle.id bundles recovered.lastFlushedIndex) =
          some replayed ∧
        SameBooks replayed.state uninterrupted.state ∧
        replayed.flushed.doneIds = uninterrupted.state.doneMap) := by
  have hi := Loop.inv_of_reachable hinc hr
  rcases hi.checkpoint with ⟨stored, rest, reference, hspl, hsto⟩
  have hupTo : upTo Bundle.id bundles (loop.machine.rocksDB.lastAppliedIndex.getD 0) = stored := by
    rw [hsto.index_eq, hspl, upTo_lastId (hspl ▸ hinc)]
  rw [hupTo]
  refine ⟨⟨reference, hsto.absorbed, hsto.stores⟩, ?_, ?_⟩
  · intro applied callbacks happ
    have heq : reference = applied :=
      some.inj (hsto.absorbed.symm.trans (absorbEvents_of_applyEvents happ))
    rw [← heq]
    exact hsto.stores
  · intro uninterrupted hrun
    rw [hspl] at hrun
    rcases applyBundles_append hrun with ⟨middle, hmid, hlast⟩
    have heq : reference = middle.state :=
      some.inj (hsto.absorbed.symm.trans (applyBundles_absorb hmid))
    subst heq
    have hcra : StoredAt ({ rocksDB := loop.machine.rocksDB } : RocksDBBacked).rocksDB
      stored middle.state := hsto
    rcases hcra.recoverSelf rfl with ⟨recovered, hrec, hidx, -, ht⟩
    have hf : Follows recovered middle.state := ⟨_, ht⟩
    rcases hf.applyBundles hlast with ⟨replayed, hrepl, index, ht'⟩
    refine ⟨recovered, replayed, hrec, ?_, ⟨ht'.books.1.symm, ht'.books.2.symm⟩, ht'.stores.doneIds⟩
    rw [hidx, hspl, laterThan_lastId (hspl ▸ hinc)]
    exact hrepl

/-- A log of two entries, at the indices 2 and 5. -/
def twoBundles : List Bundle :=
  [{ id := 2
     events := [.ofPayload 0 (.accountCreated ⟨1, .asset, 1001, "cash", "", 840, {}⟩)]
     id_pos := by decide
     isV1 := by decide },
   { id := 5
     events := [.ofPayload 0 (.accountCreated ⟨1, .income, 2001, "sales", "", 840, {}⟩)]
     id_pos := by decide
     isV1 := by decide }]

/-- The first bundle is applied and flushed by a swap. -/
theorem checkpoint_twoBundles : ∃ loop, (Loop.system twoBundles).Reachable loop ∧
      loop.machine.rocksDB.lastAppliedIndex = some 2 ∧
      ∃ reference, absorbEvents {} (eventsOf (upTo Bundle.id twoBundles 2)) = some reference ∧
        Stores loop.machine.rocksDB reference := by
  have hi : Increasing Bundle.id twoBundles := by
    unfold Increasing twoBundles
    decide
  have hst : (Loop.system twoBundles).Reachable {} := .init rfl
  have hr := hst.step (.recoverSelf rfl rfl rfl)
  have hl := hr.step (.load rfl rfl rfl)
  have ha := hl.step (.applyEvent rfl rfl)
  have hp := ha.step (.putAppliedIndex rfl)
  have hc := hp.step (.flushIfNeeded rfl)
  have hs := hc.step (.swapState {} rfl)
  exact ⟨_, hs, rfl, (checkpoint_of_reachable twoBundles hi _ hs).1⟩

end MySuperLedger.Ledger
