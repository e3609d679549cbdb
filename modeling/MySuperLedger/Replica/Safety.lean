import MySuperLedger.Raft.Safety
import MySuperLedger.Replica.Invariant

/-! # What the committed log records

Commands are executed ahead of the log, by a leader that took its state over
from the event apply loop. Still every committed entry is what its command emits
in the state of the entries before it, and no journal entry is recorded twice.
-/

namespace MySuperLedger.Replica

open Consensus Ledger Raft Transition List Replicas

variable {size : Nat} {config : Config RaftPayload}

namespace Replicas

variable (replicas : Replicas size)

def committedLog (id : Fin size) : List Entry := Replica.committedLog (replicas.cluster.nodes id)

end Replicas

/-- The assertion of `apply` on the id of a journal entry would fail. -/
def IsDuplicate (s : AppState) (event : Event) : Prop :=
  ∃ journalEntry, event.payload = .journalEntryRecorded journalEntry ∧ journalEntry.id ∈ s.doneMap

/-- The node is elected and commits its first entry. -/
def soloLeads : List (Action 1) :=
  [.raft 0 .electionTimeout, .raft 0 (.becomeLeader ⟨1, .createAccount none, [], by decide⟩),
    .raft 0 .advanceCommitIndex]

/-- The event apply loop recovers and takes in `count` entries. -/
def soloLoads (count : Nat) : List (Action 1) :=
  [.thread 0 .applyEvents, .thread 0 (.loadEntries count 10), .thread 0 (.decryptEntries 0),
    .thread 0 (.decryptEntries 0), .thread 0 .applyEvents]

/-- A command takes `count` steps until its events are on their way to the log. -/
def soloExecutes (command : Command) (count : Nat) : List (Action 1) :=
  .thread 0 (.dequeueCommand command) ::
    List.replicate count (.thread 0 (.processCommands ⟨.Leader, 1, 1⟩ 0)) ++
    [.thread 0 .persist, .sendBatch 0, .raft 0 .receiveClientRequests, .raft 0 .advanceCommitIndex]

def createCash : Command := .createAccount (some ⟨1, .asset, 1001, "cash", "", 840, {}⟩)

def createSales : Command := .createAccount (some ⟨1, .income, 2001, "sales", "", 840, {}⟩)

def saleEntry : JournalEntry where
  version := 1
  id := "sale-1"
  journalLines :=
    [⟨1, 1001, .debit, ⟨1, 50⟩, 840, ""⟩, ⟨1, 2001, .credit, ⟨1, 50⟩, 840, ""⟩]

def soloRecords : List (Action 1) :=
  soloLeads ++ soloLoads 1 ++ soloExecutes createCash 11 ++ soloExecutes createSales 4 ++
    soloExecutes (.recordJournalEntry (some saleEntry)) 4

/-- The process stops and starts again; the event apply loop comes to the journal entry. -/
def soloRestarts : List (Action 1) :=
  .crash 0 .electionTimeout 0 :: soloLeads ++ soloLoads 5 ++
    List.replicate 8 (.thread 0 .applyEvents)

def afterRecord : Replicas 1 :=
  (initial.run soloConfig soloRecords).getD initial

def afterRestart : Replicas 1 := (afterRecord.run soloConfig soloRestarts).getD initial

theorem run_soloRecords : (initial.run soloConfig soloRecords).isSome = true ∧
      ((afterRecord.cluster.nodes 0).log.getEntry 4).isSome = true ∧
      ((afterRecord.cluster.nodes 0).log.getEntry 4).map LogEntry.noop = some false ∧
      4 ≤ (afterRecord.cluster.nodes 0).commitIndex := by
  decide +kernel

theorem reachable_afterRecord : (system soloConfig).Reachable afterRecord :=
  ⟨initial, rfl, System.runs_of_isSome _ run_soloRecords.1⟩

theorem runs_afterRestart : (system soloConfig).Runs afterRecord afterRestart :=
  System.runs_of_isSome _ (by decide +kernel)

theorem ReplicasInv.sound_committedLog {replicas : Replicas size} {a : Ghost size RaftPayload}
    {planned : Nat → List Entry} (h : ReplicasInv replicas a planned) (id : Fin size) :
    Sound (replicas.committedLog id) :=
  h.plan.sound_of_committed h.cluster.inv (h.cluster.volatile id).committed

/-- A committed entry carries its index as command id and, up to the clock reading `now`, the
events its command emits after the entries before it. -/
theorem committed_events_eq {replicas : Replicas size}
    (hreachable : (system config).Reachable replicas) {id : Fin size} {index : Nat}
    {entry : Entry} (hindex : index ≤ (replicas.cluster.nodes id).commitIndex)
    (hentry : (replicas.cluster.nodes id).log.getEntry index = some entry)
    (hnoop : entry.noop = false) :
    entry.index = index ∧ entry.payload.id.toNat = index ∧
      ∃ now s hint events, replay ((replicas.committedLog id).take (index - 1)) = some s ∧
        processCommand now ∅ s entry.payload.command = some (hint, events) ∧
        entry.payload.events = stampAll entry.payload.id 0 events := by
  rcases replicasInv_of_reachable hreachable with ⟨a, planned, h⟩
  have hsnd := h.sound_committedLog id
  rcases (h.cluster.log id).whole.exists_concat_of_getEntry hentry with ⟨before, hlen, hpre⟩
  have hcomm : before ++ [entry] <+: replicas.committedLog id := by
    have hle : (replicas.committedLog id).length = (replicas.cluster.nodes id).commitIndex :=
      length_take_of_le (h.cluster.volatile id).commit_le
    refine prefix_of_prefix_length_le hpre (List.take_prefix _ _) ?_
    rw [hle]
    simp
    omega
  have hbefore : before = (replicas.committedLog id).take (index - 1) := by
    have heq := prefix_iff_eq_take.mp ((prefix_append before [entry]).trans hcomm)
    rwa [show before.length = index - 1 by omega] at heq
  rcases hsnd.genuine before entry hcomm hnoop with
    ⟨hid, _, now, s, hint, events, after, hrepl, hproc, hevs⟩
  refine ⟨?_, hid.trans hlen, now, s, hint, events, hbefore ▸ hrepl,
    (processCommandAndApply_stateAfter hproc).1, hevs⟩
  exact (hsnd.numbered.index_eq hcomm).trans hlen

theorem committed_events_eq_afterRecord :
    ∃ entry, (afterRecord.cluster.nodes 0).log.getEntry 4 = some entry ∧ entry.noop = false ∧
      entry.payload.id.toNat = 4 ∧
      ∃ now s hint events, replay ((afterRecord.committedLog 0).take 3) = some s ∧
        processCommand now ∅ s entry.payload.command = some (hint, events) ∧
        entry.payload.events = stampAll entry.payload.id 0 events := by
  obtain ⟨-, hs, hn, hc⟩ := run_soloRecords
  rcases Option.isSome_iff_exists.mp hs with ⟨entry, he⟩
  rw [he] at hn
  have hn' : entry.noop = false := Option.some.inj hn
  exact ⟨entry, he, hn', (committed_events_eq reachable_afterRecord hc he hn').2⟩

/-- The replicas agree on what is committed, no journal entry is in it twice, and
neither of the loops meets an event of an entry that is done. -/
theorem recorded_once {earlier later : Replicas size}
    (hreachable : (system config).Reachable earlier) (hruns : (system config).Runs earlier later) :
    (∀ id id', earlier.committedLog id <+: later.committedLog id' ∨
      later.committedLog id' <+: earlier.committedLog id) ∧
    (∀ id, (recordedIds (later.committedLog id)).Nodup) ∧
    (∀ id event events commandId,
      (later.processes id).eal.pc = .applying (event :: events) commandId →
      ¬ IsDuplicate (later.processes id).eal.machine.state event) ∧
    ∀ id command now hint events before event after s callbacks,
      (later.processes id).cpl.pc = .processing command →
      processCommand now (later.processes id).cpl.snapshot (later.processes id).cpl.machine
        command = some (hint, events) →
      events = before ++ event :: after →
      applyEvents (later.processes id).cpl.machine before = some (s, callbacks) →
      ¬ IsDuplicate s event := by
  rcases replicasInv_of_reachable hreachable with ⟨a, planned, h⟩
  rcases h.runs hruns with ⟨a', planned', hgrow, h'⟩
  refine ⟨?_, ?_, ?_, ?_⟩
  · intro id id'
    have hc := (h.cluster.volatile id).committed.mono hgrow le_rfl
    exact h'.cluster.inv.committed_total majorities_meet hc (h'.cluster.volatile id').committed
  · intro id
    rcases (h'.sound_committedLog id).genuine.exists_replay with ⟨s, hs⟩
    exact (recordsOnce_replay hs).nodup
  · rintro id event events commandId hpc ⟨journalEntry, hpay, hmem⟩
    rcases h'.follower id with ⟨popped, delivered, he⟩
    have hpop := he.read.of_isPrefix (prefix_append _ _)
    exact he.fresh (h'.plan.sound_of_committed h'.cluster.inv hpop) hpc hpay hmem
  · rintro id command now hint events before event after s callbacks _ hproc rfl happ
      ⟨journalEntry, hpay, hmem⟩
    rcases processCommand_inv hproc with hnil | ⟨payload, hone, hemit⟩
    · simp at hnil
    · -- the one event that was emitted is the first to be applied
      rcases before with _ | ⟨first, before⟩
      · cases happ
        rw [nil_append] at hone
        cases hone
        cases hpay
        exact hemit.2.notDone.1 hmem
      · simp at hone

theorem recorded_once_afterRestart : recordedIds (afterRecord.committedLog 0) = ["sale-1"] ∧
      (recordedIds (afterRestart.committedLog 0)).Nodup ∧
      (afterRestart.processes 0).eal.pc =
        .applying [stamp 4 0 (.ofPayload 0 (.journalEntryRecorded saleEntry))] 4 ∧
      ¬ IsDuplicate (afterRestart.processes 0).eal.machine.state
        (stamp 4 0 (.ofPayload 0 (.journalEntryRecorded saleEntry))) := by
  have ho := recorded_once reachable_afterRecord runs_afterRestart
  have hpc : (afterRestart.processes 0).eal.pc =
      .applying [stamp 4 0 (.ofPayload 0 (.journalEntryRecorded saleEntry))] 4 := by
    decide +kernel
  exact ⟨by decide +kernel, ho.2.1 0, hpc, ho.2.2.1 0 _ _ _ hpc⟩

/-- Between two bundles the machine is where the log up to its last index leads. -/
theorem EventApplyLoop.Inv.tracks {committed : List Entry → Prop} {eal : EventApplyLoop}
    {popped : List Entry} {delivered : List Bundle} (h : eal.Inv committed popped delivered)
    (hpc : eal.pc = .idle) (hr : eal.shouldRecover = false) (hsound : Sound popped) :
    ∃ front reference, front <+: popped ∧
      front.length = (eal.machine.flushed.lastAppliedIndex.getD 0).toNat ∧
      (decryptEntries front).bind (absorbEvents {} <| eventsOf ·) = some reference ∧
      Tracks eal.machine reference eal.machine.flushed.lastAppliedIndex := by
  have hp := h.checkpoint.progress hr
  rw [show eal.loop.pc = .idle from hpc] at hp
  rcases hp with ⟨processed, reference, hsplit, habsorb, ht⟩
  have hdelivered : delivered = processed := append_cancel_right hsplit
  subst hdelivered
  rcases hsound.genuine.split h.decrypted with ⟨front, back, rfl, hfront, _, hlen⟩
  have hindex := ht.index_eq
  rw [show eal.loop.machine = eal.machine from rfl] at hindex ht
  rw [hindex]
  exact ⟨front, reference, prefix_append _ _, hlen, by rw [hfront]; exact habsorb, ht⟩

/-- Replicas that have applied the log up to the same index have the same books and know the same
journal entry ids, wherever and whenever each of them has come there. -/
theorem replicas_agree {earlier later : Replicas size}
    (hreachable : (system config).Reachable earlier)
    (hruns : (system config).Runs earlier later) {id id' : Fin size}
    {eal eal' : EventApplyLoop} (heal : (earlier.processes id).eal = eal)
    (heal' : (later.processes id').eal = eal') (hidle : eal.pc = .idle ∧ eal.shouldRecover = false)
    (hidle' : eal'.pc = .idle ∧ eal'.shouldRecover = false)
    (hindex : eal.machine.flushed.lastAppliedIndex = eal'.machine.flushed.lastAppliedIndex) :
    SameBooks eal.machine.state eal'.machine.state ∧
      eal.machine.flushed.doneIds = eal'.machine.flushed.doneIds := by
  subst heal heal'
  rcases replicasInv_of_reachable hreachable with ⟨a, planned, h⟩
  rcases h.runs hruns with ⟨a', planned', hgrow, h'⟩
  rcases h.follower id with ⟨popped, delivered, he⟩
  rcases h'.follower id' with ⟨popped', delivered', he'⟩
  have hpop := he.read.of_isPrefix (prefix_append _ _)
  have hpop' := he'.read.of_isPrefix (prefix_append _ _)
  rcases he.tracks hidle.1 hidle.2 (h.plan.sound_of_committed h.cluster.inv hpop) with
    ⟨front, reference, hfront, hlen, habsorb, ht⟩
  rcases he'.tracks hidle'.1 hidle'.2 (h'.plan.sound_of_committed h'.cluster.inv hpop') with
    ⟨front', reference', hfront', hlen', habsorb', ht'⟩
  -- both have read the beginning of one log, and equally far
  have heq : front = front' := by
    rw [hindex, ← hlen'] at hlen
    rcases h'.cluster.inv.committed_total majorities_meet (hpop.mono hgrow le_rfl) hpop' with
      hp | hp
    · exact (prefix_of_prefix_length_le (hfront.trans hp) hfront' hlen.le).eq_of_length hlen
    · exact ((prefix_of_prefix_length_le (hfront'.trans hp) hfront hlen.ge).eq_of_length
        hlen.symm).symm
  subst heq
  have href : reference = reference' := Option.some.inj (habsorb.symm.trans habsorb')
  subst href
  exact ⟨⟨ht.books.1.symm.trans ht'.books.1, ht.books.2.symm.trans ht'.books.2⟩,
    ht.stores.doneIds.trans ht'.stores.doneIds.symm⟩

/-- The journal entry is applied; then the process stops once more and applies everything again. -/
def soloApplies : List (Action 1) := List.replicate 3 (.thread 0 .applyEvents)

def afterApply : Replicas 1 := (afterRestart.run soloConfig soloApplies).getD initial

def afterReplay : Replicas 1 :=
  (afterApply.run soloConfig (soloRestarts ++ soloApplies)).getD initial

theorem replicas_agree_afterReplay :
    (afterApply.processes 0).eal.machine.flushed.lastAppliedIndex = some 4 ∧
      SameBooks (afterApply.processes 0).eal.machine.state
        (afterReplay.processes 0).eal.machine.state := by
  have happly : (system soloConfig).Runs afterRestart afterApply :=
    System.runs_of_isSome _ (by decide +kernel)
  have hreplay : (system soloConfig).Runs afterApply afterReplay :=
    System.runs_of_isSome _ (by decide +kernel)
  refine ⟨by decide +kernel, (replicas_agree ((reachable_afterRecord.runs runs_afterRestart).runs
    happly) hreplay rfl rfl ?_ ?_ ?_).1⟩
  all_goals decide +kernel

end MySuperLedger.Replica
