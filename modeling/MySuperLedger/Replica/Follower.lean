import MySuperLedger.Replica.Plan
import MySuperLedger.Replica.Process

/-! # The event apply loop follows the committed log

Whatever its threads do, the event apply loop has read a prefix of the committed
log, decoded the front of it into bundles, delivered some of these, and applied
what it delivered. So the duplicate check of `apply` passes, and between two
bundles the machine stands for all events up to its applied index.
-/

namespace MySuperLedger.Replica

open Ledger Raft Collections List Option ReadonlyRaftCommandEventStore

/-- The entries that were loaded and are not in the cache yet. -/
def ReadonlyRaftCommandEventStore.waiting (store : ReadonlyRaftCommandEventStore) : List Entry :=
  store.taskQueue.flatMap Task.entries

/-- The loop as far as checkpoints are concerned. -/
def EventApplyLoop.loop (eal : EventApplyLoop) : Loop where
  machine := eal.machine
  pending := eal.store.cachedBundles
  pc := eal.pc
  shouldRecover := eal.shouldRecover

namespace EventApplyLoop

/-- The loop has read `popped` and what waits; the bundles of `popped` are delivered or
cached. -/
structure Inv (committed : List Entry → Prop) (eal : EventApplyLoop) (popped : List Entry)
    (delivered : List Bundle) : Prop where
  read : committed (popped ++ eal.store.waiting)
  decrypted : decryptEntries popped = some (delivered ++ eal.store.cachedBundles)
  checkpoint : eal.loop.Inv (delivered ++ eal.store.cachedBundles)
  recovering : eal.shouldRecover = true → eal.store = {}
  loaded : eal.shouldRecover = false →
    eal.store.loadedIndex = (popped ++ eal.store.waiting).length
  applied : eal.store.appliedIndex ≤ ((lastId delivered).getD 0).toNat
  applying : eal.store.applyingIndex ≤ ((lastId delivered).getD 0).toNat
  tasks : ∀ task ∈ eal.store.taskQueue, task.flag = .done →
    decryptEntries task.entries = some task.bundles

variable {committed committed' : List Entry → Prop} {eal eal' : EventApplyLoop}
  {popped : List Entry} {delivered : List Bundle}

theorem Inv.mono (h : eal.Inv committed popped delivered)
    (hm : ∀ log, committed log → committed' log) : eal.Inv committed' popped delivered :=
  { h with read := hm _ h.read }

theorem Inv.start (h : eal.Inv committed popped delivered)
    (hclosed : ∀ log log', committed log → log' <+: log → committed log') :
    Inv committed { machine := { rocksDB := eal.machine.rocksDB } } popped
      (delivered ++ eal.store.cachedBundles) where
  read := hclosed _ _ h.read (by simp [waiting])
  decrypted := by simpa using h.decrypted
  checkpoint := by
    refine ⟨?_, fun _ => ⟨rfl, rfl⟩, fun hr => nomatch hr⟩
    simpa [loop] using h.checkpoint.checkpoint
  recovering _ := rfl
  loaded hr := nomatch hr
  applied := Nat.zero_le _
  applying := Nat.zero_le _
  tasks _ hm := nomatch hm

theorem inv_initial (hn : committed []) : Inv committed {} [] [] where
  read := hn
  decrypted := rfl
  checkpoint := Loop.inv_init []
  recovering _ := rfl
  loaded hr := nomatch hr
  applied := Nat.zero_le _
  applying := Nat.zero_le _
  tasks _ hm := nomatch hm

theorem Inv.recoverSelf (h : eal.Inv committed popped delivered)
    (hclosed : ∀ log log', committed log → log' <+: log → committed log')
    (hsound : ∀ log, committed log → Sound log) (hrec : eal.shouldRecover = true)
    (hrun : eal.recoverSelf = some eal') :
    (∃ popped' delivered', eal'.Inv committed popped' delivered') ∧
      eal'.shouldRecover = false ∧ eal'.pc = .idle := by
  rcases bind_eq_some_iff.mp hrun with ⟨machine, hmach, hrun⟩
  rcases map_eq_some_iff.mp hrun with ⟨store, hstore, rfl⟩
  have hnil := h.recovering hrec
  rcases h.checkpoint.recovering hrec with ⟨hpc, hbat⟩
  refine ⟨?_, rfl, hpc⟩
  have hdecr := h.decrypted
  rcases h.checkpoint.checkpoint with ⟨stored, rest, reference, hspl, hsto⟩
  rw [hspl] at hdecr
  have hpop := hclosed _ popped h.read (prefix_append _ _)
  rcases (hsound popped hpop).genuine.split hdecr with ⟨front, back, rfl, hfrt, _, hlen⟩
  rcases hsto.recoverSelf hbat with ⟨recovered, hrecovered, hidx, hdb, ht⟩
  have heq : machine = recovered := some.inj (hmach.symm.trans hrecovered)
  subst heq
  simp only [setCurrentOffset, hnil] at hstore
  cases hstore
  refine ⟨front, stored, ?_, ?_, ?_, nofun, ?_, ?_, Nat.zero_le _, nofun⟩
  · exact hclosed _ _ hpop
      (by simp [waiting, init])
  · simpa [init] using hfrt
  · refine ⟨⟨stored, [], reference, ?_, ?_⟩, nofun, fun _ => ?_⟩
    · simp [init]
    · show StoredAt machine.rocksDB stored reference
      rw [hdb]
      exact hsto
    · show Progress _ _ machine eal.pc
      rw [show eal.pc = .idle from hpc]
      exact ⟨stored, reference, rfl, hsto.absorbed, ht⟩
  · intro _
    simp [waiting, init, hidx, hlen]
  · simp [init, hidx]

section

variable (h : eal.Inv committed popped delivered)
include h

theorem Inv.markApplied : Inv committed
      { eal with
        store := { eal.store with
          appliedIndex := max eal.store.appliedIndex eal.store.applyingIndex } }
      popped delivered :=
  { h with
    recovering := fun hr => by
      rw [h.recovering hr]
      rfl
    applied := max_le h.applied h.applying }

theorem Inv.tryAsyncLoadBundles (hcac : eal.store.cachedBundles = []) :
    ∃ popped', Inv committed { eal with store := eal.store.tryAsyncLoadBundles } popped'
      delivered := by
  unfold ReadonlyRaftCommandEventStore.tryAsyncLoadBundles
  rcases hque : eal.store.taskQueue with _ | ⟨task, taskQueue⟩
  · exact ⟨popped, h⟩
  · by_cases hdone : task.flag = .done
    · simp only [hdone, if_true]
      have htask := h.tasks task (by simp [hque]) hdone
      have hwait : popped ++ eal.store.waiting =
          popped ++ task.entries ++ taskQueue.flatMap Task.entries := by
        simp [waiting, hque]
      have hdecr := h.decrypted
      have hchec := h.checkpoint.append task.bundles
      have hpend : eal.loop.pending ++ task.bundles = task.bundles := by simp [loop, hcac]
      rw [hcac, append_nil] at hdecr hchec
      rw [hpend] at hchec
      refine ⟨popped ++ task.entries, ?_, ?_, hchec, ?_, ?_, h.applied, h.applying, ?_⟩
      · show committed (popped ++ task.entries ++ taskQueue.flatMap Task.entries)
        rw [← hwait]
        exact h.read
      · exact decryptEntries_append_of_some hdecr htask
      · intro hrec
        have hnil := h.recovering hrec
        rw [hnil] at hque
        cases hque
      · intro hrec
        have hlen := congrArg length hwait
        exact (h.loaded hrec).trans hlen
      · exact fun other hmem => h.tasks other (by simp [hque, show other ∈ taskQueue from hmem])
    · simp only [hdone, if_false]
      exact ⟨popped, h⟩

theorem Inv.deliver {bundle : Bundle} {cachedBundles : List Bundle}
    (hinc : Increasing Bundle.id (delivered ++ eal.store.cachedBundles))
    (hcac : eal.store.cachedBundles = bundle :: cachedBundles) (hpc : eal.pc = .idle) :
    Inv committed
      { eal with
        store := { eal.store with
          cachedBundles := cachedBundles, applyingIndex := bundle.id.toNat }
        pc := .applying bundle.events bundle.id }
      popped (delivered ++ [bundle]) := by
  have hbun : delivered ++ eal.store.cachedBundles =
      delivered ++ [bundle] ++ cachedBundles := by
    simp [hcac]
  have hrec : eal.shouldRecover = false := by
    cases hr : eal.shouldRecover with
    | false => rfl
    | true =>
      rw [h.recovering hr] at hcac
      cases hcac
  have hlast : (lastId delivered).getD 0 < bundle.id := lastId_lt_id hinc (by simp [hcac])
  refine ⟨h.read, ?_, ?_, ?_, h.loaded, ?_, ?_, h.tasks⟩
  · rw [← hbun]
    exact h.decrypted
  · rw [← hbun]
    exact Loop.inv_step hinc h.checkpoint (.load hpc hrec hcac)
  · intro hr
    rw [show eal.shouldRecover = true from hr] at hrec
    cases hrec
  · have happl := h.applied
    rw [lastId_append_singleton, getD_some]
    rw [UInt64.lt_iff_toNat_lt] at hlast
    show eal.store.appliedIndex ≤ _
    omega
  · rw [lastId_append_singleton, getD_some]

end

section Committed

variable (hclosed : ∀ log log', committed log → log' <+: log → committed log')
  (hsound : ∀ log, committed log → Sound log)
include hclosed hsound

section

variable (h : eal.Inv committed popped delivered)
include h

theorem Inv.increasing : Increasing Bundle.id (delivered ++ eal.store.cachedBundles) :=
  (hsound popped (hclosed _ _ h.read (prefix_append _ _))).genuine.increasing h.decrypted

theorem Inv.loadNextCommandEvents (hpc : eal.pc = .idle) :
    ∃ popped' delivered', eal.loadNextCommandEvents.Inv committed popped' delivered' := by
  have hm := h.markApplied
  unfold EventApplyLoop.loadNextCommandEvents ReadonlyRaftCommandEventStore.loadNextCommandEvents
  generalize { eal.store with
    appliedIndex := max eal.store.appliedIndex eal.store.applyingIndex } = marked at hm ⊢
  have hl : ∃ popped', Inv committed
      { eal with
        store := if marked.cachedBundles = [] then marked.tryAsyncLoadBundles else marked }
      popped' delivered := by
    split
    · next hc => exact hm.tryAsyncLoadBundles hc
    · exact ⟨popped, hm⟩
  simp only
  generalize (if marked.cachedBundles = [] then marked.tryAsyncLoadBundles else marked) = store
    at hl ⊢
  rcases hl with ⟨popped', hl⟩
  rcases hc : store.cachedBundles with _ | ⟨bundle, cachedBundles⟩
  · exact ⟨popped', delivered, hl⟩
  · exact ⟨popped', delivered ++ [bundle], hl.deliver (hl.increasing hclosed hsound) hc hpc⟩

theorem Inv.run (hrun : eal.run = some eal') :
    ∃ popped' delivered', eal'.Inv committed popped' delivered' := by
  have hinc := h.increasing hclosed hsound
  unfold EventApplyLoop.run at hrun
  rcases hpc : eal.pc with _ | ⟨_ | ⟨event, events⟩, commandId⟩ | commandId
  · rw [hpc] at hrun
    rcases map_eq_some_iff.mp hrun with ⟨ready, hrdy, rfl⟩
    split at hrdy
    · rename_i hrec
      rcases h.recoverSelf hclosed hsound hrec hrdy with
        ⟨⟨popped', delivered', h'⟩, _, hpc'⟩
      exact h'.loadNextCommandEvents hclosed hsound hpc'
    · cases hrdy
      exact h.loadNextCommandEvents hclosed hsound hpc
  · rw [hpc] at hrun
    cases hrun
    exact ⟨popped, delivered, { h with
      checkpoint := Loop.inv_step hinc h.checkpoint (.putAppliedIndex hpc) }⟩
  · rw [hpc] at hrun
    rcases map_eq_some_iff.mp hrun with ⟨machine, happ, rfl⟩
    exact ⟨popped, delivered, { h with
      checkpoint := Loop.inv_step hinc h.checkpoint (.applyEvent hpc happ) }⟩
  · rw [hpc] at hrun
    cases hrun
    exact ⟨popped, delivered, { h with
      checkpoint := Loop.inv_step hinc h.checkpoint (.flushIfNeeded hpc) }⟩

end

end Committed

theorem Inv.load (h : eal.Inv committed popped delivered) {entries : List Entry}
    (hrun : eal.store.running = true)
    (hents : committed (popped ++ eal.store.waiting ++ entries)) :
    Inv committed
      { eal with
        store := { eal.store with
          loadedIndex := eal.store.loadedIndex + entries.length
          taskQueue := eal.store.taskQueue ++ [{ entries := entries }] } }
      popped delivered := by
  have hwait : ∀ tasks : List Task,
      (tasks ++ [(⟨entries, [], .initial⟩ : Task)]).flatMap Task.entries =
        tasks.flatMap Task.entries ++ entries := by
    simp
  refine ⟨?_, h.decrypted, h.checkpoint, ?_, ?_, h.applied, h.applying, ?_⟩
  · show committed (popped ++ (eal.store.taskQueue ++ _).flatMap Task.entries)
    rw [hwait, ← append_assoc]
    exact hents
  · intro hrec
    rw [h.recovering hrec] at hrun
    cases hrun
  · intro hrec
    show _ = (popped ++ (eal.store.taskQueue ++ _).flatMap Task.entries).length
    have hload := h.loaded hrec
    rw [hwait]
    simp only [length_append, waiting] at hload ⊢
    omega
  · intro task hmem hdone
    rcases mem_append.mp hmem with hold | hnew
    · exact h.tasks task hold hdone
    · rw [mem_singleton.mp hnew] at hdone
      cases hdone

theorem decryptTask_inv {task task' : Task} (h : decryptTask task = some task') :
    task'.entries = task.entries ∧
      (task'.flag = .done → decryptEntries task'.entries = some task'.bundles) := by
  unfold decryptTask at h
  cases hf : task.flag with
  | initial =>
    rw [hf] at h
    cases h
    exact ⟨rfl, nofun⟩
  | doing =>
    rw [hf] at h
    rcases map_eq_some_iff.mp h with ⟨bundles, hb, rfl⟩
    exact ⟨rfl, fun _ => hb⟩
  | done =>
    rw [hf] at h
    cases h

variable {position : Nat} {store : ReadonlyRaftCommandEventStore}

section

variable (h : eal.Inv committed popped delivered)
include h

theorem Inv.decrypt (hstep : eal.store.decrypt position = some store) :
    Inv committed { eal with store := store } popped delivered := by
  unfold ReadonlyRaftCommandEventStore.decrypt at hstep
  split at hstep
  · rename_i hrun
    rcases bind_eq_some_iff.mp hstep with ⟨task, htask, hstep⟩
    rcases map_eq_some_iff.mp hstep with ⟨task', hdecr, rfl⟩
    rcases decryptTask_inv hdecr with ⟨hents, hdone⟩
    rcases List.getElem?_eq_some_iff.mp htask with ⟨hlt, heq⟩
    have hwait : (eal.store.taskQueue.set position task').flatMap Task.entries =
        eal.store.waiting := by
      have hlt' : position < (eal.store.taskQueue.map Task.entries).length := by simpa using hlt
      have hsame : task'.entries = (eal.store.taskQueue.map Task.entries)[position] := by
        simp [hents, heq]
      simp only [waiting, flatMap_def]
      rw [map_set, hsame, set_getElem_self]
    refine ⟨?_, h.decrypted, h.checkpoint, ?_, ?_, h.applied, h.applying, ?_⟩
    · show committed (popped ++ (eal.store.taskQueue.set position task').flatMap Task.entries)
      rw [hwait]
      exact h.read
    · intro hrec
      rw [h.recovering hrec] at hrun
      cases hrun
    · intro hrec
      show eal.store.loadedIndex =
        (popped ++ (eal.store.taskQueue.set position task').flatMap Task.entries).length
      rw [hwait]
      exact h.loaded hrec
    · intro other hmem hflag
      rcases mem_or_eq_of_mem_set hmem with hold | rfl
      · exact h.tasks other hold hflag
      · exact hdone hflag
  · cases hstep

theorem Inv.swapState (hclosed : ∀ log log', committed log → log' <+: log → committed log')
    (hi : Increasing Bundle.id (delivered ++ eal.store.cachedBundles)) (hpc : eal.pc = .idle)
    (memory : AppState) :
    Inv committed
      { eal with
        machine := (RocksDBBacked.swapState memory eal.machine).2
        store := eal.store.teardown
        shouldRecover := true }
      popped (delivered ++ eal.store.cachedBundles) := by
  have hs := Loop.inv_step hi h.checkpoint (.swapState memory hpc)
  refine ⟨?_, ?_, ?_, fun _ => rfl, nofun, Nat.zero_le _, Nat.zero_le _, nofun⟩
  · exact hclosed _ _ h.read
      (by simp [waiting, teardown])
  · simpa [teardown] using h.decrypted
  · refine ⟨?_, hs.recovering, nofun⟩
    simpa [loop, teardown] using hs.checkpoint

theorem Inv.fresh (hsound : Sound popped) {event : Event} {events : List Event} {commandId : UInt64}
    (hpc : eal.pc = .applying (event :: events) commandId) {journalEntry : JournalEntry}
    (hpay : event.payload = .journalEntryRecorded journalEntry) :
    journalEntry.id ∉ eal.machine.state.doneMap := by
  have hrec := h.checkpoint.not_recovering (by
    rw [show eal.loop.pc = _ from hpc]
    exact nofun)
  have hprog := h.checkpoint.progress hrec
  rw [show eal.loop.pc = _ from hpc] at hprog
  rcases hprog with
    ⟨processed, bundle, applied, reference, hspl, _, hevs, habs, ht⟩
  rcases hsound.genuine.exists_replay with ⟨s, hs⟩
  have hlog : eventsIn popped =
      (eventsOf processed ++ applied) ++ event :: (events ++ eventsOf eal.loop.pending) := by
    rw [← eventsOf_decryptEntries h.decrypted, hspl, append_cons, eventsOf_append,
      eventsOf_append, eventsOf_singleton, hevs]
    simp
  unfold replay at hs
  rw [hlog, stateAfter_append] at hs
  rcases bind_eq_some_iff.mp hs with ⟨s', hs', hs⟩
  rw [stateAfter_cons] at hs
  rcases bind_eq_some_iff.mp hs with ⟨⟨next, callbacks⟩, happ, _⟩
  have heq : reference = s' :=
    some.inj (habs.symm.trans (absorbEvents_of_stateAfter hs'))
  subst heq
  exact fun hmem => fresh_of_applyEvent happ hpay (ht.remembers _ hmem)

theorem Inv.lastId_le_length (hsound : Sound popped) :
    ((lastId delivered).getD 0).toNat ≤ popped.length := by
  rcases hsound.genuine.split h.decrypted with ⟨front, back, rfl, _, _, hl⟩
  simp
  omega

/-- Between two bundles the machine stands for the entries whose bundles were delivered. -/
theorem Inv.mirrors_delivered (hpc : eal.pc = .idle)
    (hr : eal.shouldRecover = false) (hsound : Sound popped) :
    ∃ front s, front <+: popped ∧ eventsIn front = eventsOf delivered ∧ replay front = some s ∧
      Mirrors eal.machine.flushed.doneIds eal.machine.state s := by
  have hp := h.checkpoint.progress hr
  rw [show eal.loop.pc = .idle from hpc] at hp
  rcases hp with ⟨processed, reference, hspl, ha, ht⟩
  have hproc : delivered = processed := append_cancel_right hspl
  rcases hsound.genuine.split h.decrypted with ⟨front, back, rfl, hf, _, _⟩
  have he : eventsIn front = eventsOf delivered := (eventsOf_decryptEntries hf).symm
  rcases (hsound.of_isPrefix (prefix_append front back)).genuine.exists_replay with ⟨s, hs⟩
  have href : reference = s := by
    have hs' := absorbEvents_of_stateAfter hs
    rw [he, hproc, ha] at hs'
    exact some.inj hs'
  subst href
  refine ⟨front, reference, prefix_append _ _, he, hs, ht.books, fun id => ?_⟩
  have hd : eal.machine.flushed.doneIds = reference.doneMap := ht.stores.doneIds
  rw [hd]
  exact ⟨Or.inr, fun hor => hor.elim (ht.remembers id) fun hm => hm⟩

theorem Inv.mirrors (hpc : eal.pc = .idle)
    (hrec : eal.shouldRecover = false) (hsound : Sound (popped ++ eal.store.waiting))
    (hrest : ∀ k entry, eal.store.appliedIndex ≤ k →
      (popped ++ eal.store.waiting)[k]? = some entry → entry.events = []) :
    ∃ s, replay (popped ++ eal.store.waiting) = some s ∧
      Mirrors eal.machine.flushed.doneIds eal.machine.state s := by
  have hpop : Sound popped := hsound.of_isPrefix (prefix_append _ _)
  have happl := h.applied
  have hlast := h.lastId_le_length hpop
  have hcac : eal.store.cachedBundles = [] := by
    by_contra hne
    rcases exists_mem_of_ne_nil _ hne with ⟨bundle, hmem⟩
    -- a bundle still to come would stand behind the applied index
    rcases hpop.genuine.id_of_mem h.decrypted (mem_append_right _ hmem) with
      ⟨before, entry, hpre, hevs, hid⟩
    have hlt := lastId_lt_id (hpop.genuine.increasing h.decrypted) hmem
    rw [UInt64.lt_iff_toNat_lt] at hlt
    refine hevs (hrest before.length entry (by omega) ?_)
    rcases hpre.trans (prefix_append popped eal.store.waiting) with ⟨rest, heq⟩
    rw [← heq]
    simp
  have hwait : eventsIn eal.store.waiting = [] := by
    refine flatMap_eq_nil_iff.mpr fun entry hmem => ?_
    rcases getElem?_of_mem hmem with ⟨k, hk⟩
    refine hrest (popped.length + k) entry (by omega) ?_
    rw [getElem?_append_right (by omega), Nat.add_sub_cancel_left]
    exact hk
  rcases h.mirrors_delivered hpc hrec hpop with ⟨front, s, _, hevs, hs, hmir⟩
  refine ⟨s, ?_, hmir⟩
  have hdecr := h.decrypted
  rw [hcac, append_nil] at hdecr
  rw [replay_append_of_eventsIn_nil hwait, replay, ← eventsOf_decryptEntries hdecr, ← hevs]
  exact hs

end

/-- Until the next swap, the loop does not go back. -/
structure Advances (eal eal' : EventApplyLoop) : Prop where
  recovered : eal.shouldRecover = false → eal'.shouldRecover = false
  loaded : eal.shouldRecover = false → eal.store.loadedIndex ≤ eal'.store.loadedIndex
  applied : eal.shouldRecover = false → eal.store.appliedIndex ≤ eal'.store.appliedIndex

theorem advances_of_same (hr : eal'.shouldRecover = eal.shouldRecover)
    (hl : eal.store.loadedIndex ≤ eal'.store.loadedIndex)
    (ha : eal.store.appliedIndex ≤ eal'.store.appliedIndex) : Advances eal eal' :=
  ⟨fun h => hr.trans h, fun _ => hl, fun _ => ha⟩

theorem loadNextCommandEvents_indices (store : ReadonlyRaftCommandEventStore) :
    store.loadNextCommandEvents.1.loadedIndex = store.loadedIndex ∧
      store.loadNextCommandEvents.1.appliedIndex =
        max store.appliedIndex store.applyingIndex := by
  have ht : ∀ store : ReadonlyRaftCommandEventStore,
      store.tryAsyncLoadBundles.loadedIndex = store.loadedIndex ∧
        store.tryAsyncLoadBundles.appliedIndex = store.appliedIndex := by
    intro store
    unfold ReadonlyRaftCommandEventStore.tryAsyncLoadBundles
    split
    · exact ⟨rfl, rfl⟩
    · split <;> exact ⟨rfl, rfl⟩
  unfold ReadonlyRaftCommandEventStore.loadNextCommandEvents
  simp only
  split <;> split <;> simp [ht]

theorem loadNextCommandEvents_store (eal : EventApplyLoop) :
    eal.loadNextCommandEvents.store = eal.store.loadNextCommandEvents.1 ∧
      eal.loadNextCommandEvents.shouldRecover = eal.shouldRecover := by
  unfold loadNextCommandEvents
  split <;> simp [*]

theorem loadNextCommandEvents_advances (eal : EventApplyLoop) :
    Advances eal eal.loadNextCommandEvents := by
  have hi := loadNextCommandEvents_indices eal.store
  rcases eal.loadNextCommandEvents_store with ⟨hs, hr⟩
  rw [← hs] at hi
  exact advances_of_same hr hi.1.ge (by rw [hi.2]; exact le_max_left _ _)

theorem run_advances (hr : eal.run = some eal') : Advances eal eal' := by
  unfold EventApplyLoop.run at hr
  rcases hpc : eal.pc with _ | ⟨_ | ⟨event, events⟩, commandId⟩ | commandId
  · rw [hpc] at hr
    rcases map_eq_some_iff.mp hr with ⟨ready, hrdy, rfl⟩
    split at hrdy
    · rename_i hrec
      have hno : eal.shouldRecover ≠ false := by rw [hrec]; exact Bool.noConfusion
      exact ⟨fun h => absurd h hno, fun h => absurd h hno, fun h => absurd h hno⟩
    · cases hrdy
      exact eal.loadNextCommandEvents_advances
  · rw [hpc] at hr
    cases hr
    exact advances_of_same rfl le_rfl le_rfl
  · rw [hpc] at hr
    rcases map_eq_some_iff.mp hr with ⟨machine, _, rfl⟩
    exact advances_of_same rfl le_rfl le_rfl
  · rw [hpc] at hr
    cases hr
    exact advances_of_same rfl le_rfl le_rfl

theorem run_loadedIndex (hr : eal.run = some eal') (hrec : eal.shouldRecover = false) :
    eal'.store.loadedIndex = eal.store.loadedIndex := by
  unfold EventApplyLoop.run at hr
  rcases hpc : eal.pc with _ | ⟨_ | ⟨event, events⟩, commandId⟩ | commandId
  · rw [hpc] at hr
    simp only [hrec, Bool.false_eq_true, if_false, map_some, some.injEq] at hr
    rw [← hr, (eal.loadNextCommandEvents_store).1, (loadNextCommandEvents_indices _).1]
  · rw [hpc] at hr
    cases hr
    rfl
  · rw [hpc] at hr
    rcases map_eq_some_iff.mp hr with ⟨machine, _, rfl⟩
    rfl
  · rw [hpc] at hr
    cases hr
    rfl

theorem decrypt_loadedIndex (hs : eal.store.decrypt position = some store) :
    store.loadedIndex = eal.store.loadedIndex := by
  unfold decrypt at hs
  split at hs
  · rcases bind_eq_some_iff.mp hs with ⟨task, _, hs⟩
    rcases map_eq_some_iff.mp hs with ⟨task', _, rfl⟩
    rfl
  · cases hs

theorem decrypt_advances (hs : eal.store.decrypt position = some store) :
    Advances eal { eal with store := store } := by
  unfold decrypt at hs
  split at hs
  · rcases bind_eq_some_iff.mp hs with ⟨task, _, hs⟩
    rcases map_eq_some_iff.mp hs with ⟨task', _, rfl⟩
    exact advances_of_same rfl le_rfl le_rfl
  · cases hs

end EventApplyLoop

end MySuperLedger.Replica
