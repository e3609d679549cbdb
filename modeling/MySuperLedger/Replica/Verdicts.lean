import MySuperLedger.Replica.Invariant
import MySuperLedger.Replica.ReplyLoop

/-! # What a verdict rests on

A command is judged on the plan of its term, or, if the term passed before the
state was taken over, on entries that are committed. An entry built from it is
the next one of the plan, or comes too late to be written. Either way the entry
at the index of the task tells whether the verdict stands.
-/

namespace MySuperLedger.Replica

open Consensus Ledger Raft List Option

variable {size : Nat} {a a' : Ghost size RaftPayload} {planned planned' : Nat → List Entry}
  {replicas replicas' : Replicas size} {id : Fin size} {config : Config RaftPayload}
  {node node' : Node size RaftPayload Unit} {eal eal' : EventApplyLoop}
  {cpl cpl' : CommandProcessLoop}

/-- What a step keeps of the terms that `id` leads and of what it knows to be committed. -/
structure Onward (a a' : Ghost size RaftPayload) (planned planned' : Nat → List Entry)
    (id : Fin size) (node node' : Node size RaftPayload Unit) : Prop where
  elected : ∀ term x, a.elected term = some x → a'.elected term = some x
  isPrefix : ∀ term base, a.elected term = some (id, base) → planned term <+: planned' term
  passed : ∀ term base, a.elected term = some (id, base) → term < node.log.currentTerm →
    planned' term = planned term
  term_le : node.log.currentTerm ≤ node'.log.currentTerm
  commit_le : node.commitIndex ≤ node'.commitIndex
  committed : committedLog node <+: committedLog node'

theorem Onward.other (hg : Grows a a') (hlog : node'.log = node.log)
    (hc : node'.commitIndex = node.commitIndex)
    (hp : ∀ term base, a.elected term = some (id, base) → planned' term = planned term) :
    Onward a a' planned planned' id node node' where
  elected := hg.elected
  isPrefix term base hel := by rw [hp term base hel]
  passed term base hel _ := hp term base hel
  term_le := by rw [hlog]
  commit_le := hc.ge
  committed := by rw [committedLog, committedLog, hlog, hc]

theorem Onward.replans (h : Replans a id node cpl cpl' planned planned') :
    Onward a a planned planned' id node node where
  elected _ _ hel := hel
  isPrefix term _ _ := h.isPrefix term
  passed term _ _ hp := h.passed term hp
  term_le := le_rfl
  commit_le := le_rfl
  committed := prefix_rfl

theorem length_committedLog (hv : VolatileRel id node a) :
    (committedLog node).length = node.commitIndex :=
  length_take_of_le hv.commit_le

theorem Onward.run (planned : Nat → List Entry) (hrel : LogRel id node.log a)
    (hv : VolatileRel id node a)
    (hv' : VolatileRel id node' a') (hinv : GhostInv a) (hmov : Moves id node.supply a a')
    (hkept : Kept node node') :
    Onward a a' planned (replan planned a a' fun _ => False) id node node' := by
  have hgrow := (NodeRun.frame hmov hinv).toGrows
  refine ⟨hgrow.elected, ?_, ?_, hkept.term_le, hkept.commit_le, ?_⟩
  · intro term base _
    by_cases heq : planned term = a.leaderLog term
    · rw [replan_of_eq heq, heq]
      exact hgrow.leaderLog term
    · rw [replan, if_neg fun hor => hor.elim heq fun h => h]
  · intro term base _ hpass
    refine replan_of_other (fun h => h) ?_
    by_contra hne
    have hle := NodeRun.term_le hmov hinv hne
    rw [hrel.term] at hle
    omega
  · have hlen := length_committedLog hv
    have hlen' := length_committedLog hv'
    have hle := hkept.commit_le
    rcases (NodeRun.inv hmov hinv).committed_total majorities_meet
      (hv.committed.mono hgrow le_rfl) hv'.committed with hpre | hpre
    · exact hpre
    · have heq : committedLog node' = committedLog node := hpre.eq_of_length_le (by
        show (committedLog node).length ≤ (committedLog node').length
        omega)
      rw [heq]

variable {entry : Entry} {task : PendingTask} {log : List Entry} {index : Nat} {pc : CommandPc}
  {now : UInt64} {command : Command}

theorem getElem?_of_isPrefix {log' : List Entry} (hp : log <+: log') {k : Nat}
    (hent : log[k]? = some entry) : log'[k]? = some entry := by
  rcases List.getElem?_eq_some_iff.mp hent with ⟨hlt, rfl⟩
  exact List.prefix_iff_getElem?.mp hp k hlt

/-- The verdict is what the command yields in the state the task remembers, and the entry
carries the command and its events. -/
def PendingTask.IsVerdict (task : PendingTask) : Prop :=
  ∃ now events machine, processCommandAndApply now task.snapshot task.machine task.command =
      some (⟨task.code, task.message⟩, events, machine) ∧
    (task.entry = none → events = []) ∧
    ∀ entry, task.entry = some entry → entry.payload.command = task.command ∧
      entry.payload.events = stampAll entry.payload.id 0 events

/-- The log has an entry of the term at the index of the task. It is the one that was built
from the command, and if none was built then all that the verdict rests on is in the log. -/
def PendingTask.Settled (task : PendingTask) (log : List Entry) : Prop :=
  ∃ entry, 1 ≤ task.index ∧ log[task.index - 1]? = some entry ∧ entry.term = task.term ∧
    (∀ built, task.entry = some built → entry = built) ∧
    (task.entry = none → ∃ basis s, basis <+: log ∧ replay basis = some s ∧
      Mirrors task.snapshot task.machine s)

structure TaskRel (a : Ghost size RaftPayload) (planned : Nat → List Entry) (id : Fin size)
    (node : Node size RaftPayload Unit) (task : PendingTask) : Prop where
  elected : ∃ base, a.elected task.term = some (id, base)
  verdict : task.IsVerdict
  built : ∀ entry, task.entry = some entry →
    (planned task.term)[task.index - 1]? = some entry ∨
      (task.term < node.log.currentTerm ∧ (planned task.term).length < task.index)
  judged : task.entry = none → ∃ basis s, replay basis = some s ∧
    Mirrors task.snapshot task.machine s ∧
    ((basis <+: planned task.term ∧ basis.length ≤ task.index) ∨ basis <+: committedLog node)

theorem TaskRel.onward (h : TaskRel a planned id node task)
    (ho : Onward a a' planned planned' id node node') : TaskRel a' planned' id node' task := by
  rcases h.elected with ⟨base, hel⟩
  have hpre := ho.isPrefix _ base hel
  refine ⟨⟨base, ho.elected _ _ hel⟩, h.verdict, fun entry hent => ?_, fun hn => ?_⟩
  · rcases h.built entry hent with hp | ⟨hpass, hl⟩
    · exact .inl (getElem?_of_isPrefix hpre hp)
    · rw [ho.passed _ base hel hpass]
      exact .inr ⟨hpass.trans_le ho.term_le, hl⟩
  · rcases h.judged hn with ⟨basis, s, hs, hm, ⟨hb, hl⟩ | hb⟩
    · exact ⟨basis, s, hs, hm, .inl ⟨hb.trans hpre, hl⟩⟩
    · exact ⟨basis, s, hs, hm, .inr (hb.trans ho.committed)⟩

/-- What is committed up to an entry was written by the leader of its term. -/
theorem committed_concat (hinv : GhostInv a) (hr : LogRel id node.log a) (hp : 1 ≤ index)
    (hent : (committedLog node)[index - 1]? = some entry) :
    (committedLog node).take index = (committedLog node).take (index - 1) ++ [entry] ∧
      (committedLog node).take (index - 1) ++ [entry] <+: a.leaderLog entry.term := by
  rcases List.getElem?_eq_some_iff.mp hent with ⟨hlt, heq⟩
  have hc : (committedLog node).take index =
      (committedLog node).take (index - 1) ++ [entry] := by
    rw [← heq, take_concat_get', Nat.sub_add_cancel hp]
  refine ⟨hc, (hinv.log_matches id _ entry ?_).2⟩
  rw [← hc, hr.entries]
  exact (List.take_prefix _ _).trans (List.take_prefix _ _)

theorem committed_isPrefix_planned (hplan : Plan a planned) (hinv : GhostInv a)
    (hr : LogRel id node.log a) (hp : 1 ≤ index)
    (hent : (committedLog node)[index - 1]? = some entry) :
    (committedLog node).take index <+: planned entry.term ∧
      ((committedLog node).take index).length = index := by
  rcases List.getElem?_eq_some_iff.mp hent with ⟨hlt, _⟩
  rcases committed_concat hinv hr hp hent with ⟨hc, hl⟩
  rw [← hc] at hl
  exact ⟨hl.trans (hplan.leader entry.term), length_take_of_le (by omega)⟩

theorem TaskRel.settled (h : TaskRel a planned id node task) (hplan : Plan a planned)
    (hinv : GhostInv a) (hr : LogRel id node.log a) (hpos : 1 ≤ task.index)
    (hent : (committedLog node)[task.index - 1]? = some entry) (ht : entry.term = task.term) :
    task.Settled (committedLog node) := by
  rcases committed_isPrefix_planned hplan hinv hr hpos hent with ⟨hp, hl⟩
  rw [ht] at hp
  refine ⟨entry, hpos, hent, ht, fun built hblt => ?_, fun hn => ?_⟩
  · have hplanned : (planned task.term)[task.index - 1]? = some entry := by
      refine getElem?_of_isPrefix hp ?_
      rw [getElem?_take_of_lt (by omega)]
      exact hent
    rcases h.built built hblt with hsame | ⟨_, hsh⟩
    · rw [hplanned] at hsame
      exact some.inj hsame
    · have hle := hp.length_le
      omega
  · rcases h.judged hn with ⟨basis, s, hs, hm, ⟨hb, hbd⟩ | hb⟩
    · have hshar := prefix_of_prefix_length_le hb hp (by omega)
      exact ⟨basis, s, hshar.trans (List.take_prefix _ _), hs, hm⟩
    · exact ⟨basis, s, hb, hs, hm⟩

/-- The state was taken over after its term had passed, and stands for committed entries. What
is written of the term is all that will be. -/
def Overtaken (planned : Nat → List Entry) (node : Node size RaftPayload Unit)
    (cpl : CommandProcessLoop) : Prop :=
  cpl.store.lastCheckedTerm < node.log.currentTerm ∧
    cpl.lastCommandId = (planned cpl.store.lastCheckedTerm).length ∧
    ∃ basis s, basis <+: committedLog node ∧ replay basis = some s ∧
      Mirrors cpl.snapshot cpl.machine s

/-- What the loop has found out beyond `Knows`: the event apply loop is not ahead of the commit
index it has read, and a command is judged on a plan or on committed entries. -/
def Ready (a : Ghost size RaftPayload) (planned : Nat → List Entry) (id : Fin size)
    (node : Node size RaftPayload Unit) (eal : EventApplyLoop) (cpl : CommandProcessLoop) :
    CommandPc → Prop
  | .readLoadedIndex _ _ commitIndex => commitIndex ≤ node.commitIndex
  | .readAppliedIndex _ _ commitIndex loadedIndex => commitIndex ≤ node.commitIndex ∧
      (loadedIndex ≠ 0 → eal.store.loadedIndex ≤ max loadedIndex node.commitIndex)
  | .scanning _ lastIndex _ => lastIndex ≠ 0 → eal.store.loadedIndex ≤ node.commitIndex
  | .swapping _ _ => eal.store.loadedIndex ≤ node.commitIndex
  | .processing _ => Speculates a planned id cpl ∨ Overtaken planned node cpl
  | _ => True

theorem Overtaken.onward (h : Overtaken planned node cpl)
    (ho : Onward a a' planned planned' id node node') {base : List Entry}
    (hel : a.elected cpl.store.lastCheckedTerm = some (id, base)) :
    Overtaken planned' node' cpl := by
  rcases h with ⟨hp, hl, basis, s, hb, hs, hm⟩
  refine ⟨hp.trans_le ho.term_le, ?_, basis, s, hb.trans ho.committed, hs, hm⟩
  rw [ho.passed _ base hel hp]
  exact hl

theorem Ready.onward (h : Ready a planned id node eal cpl pc)
    (ho : Onward a a' planned planned' id node node')
    (hkn : Knows a planned id node eal cpl pc) (helec : cpl.store.lastCheckedRole = .Leader →
      ∃ base, a.elected cpl.store.lastCheckedTerm = some (id, base))
    (hs : Speculates a planned id cpl → Speculates a' planned' id cpl) :
    Ready a' planned' id node' eal cpl pc := by
  have hc := ho.commit_le
  cases pc with
  | readLoadedIndex command lastIndex commitIndex => exact le_trans h hc
  | readAppliedIndex command lastIndex commitIndex loadedIndex =>
    refine ⟨h.1.trans hc, fun hne => (h.2 hne).trans ?_⟩
    omega
  | scanning command lastIndex index => exact fun hne => le_trans (h hne) hc
  | swapping command lastIndex => exact le_trans h hc
  | processing command =>
    rcases helec hkn with ⟨base, hel⟩
    exact Or.imp hs (fun hover => hover.onward ho hel) h
  | _ => trivial

theorem Ready.advance {pc : CommandPc} (h : Ready a planned id node eal cpl pc)
    (hkn : Knows a planned id node eal cpl pc)
    (hl : eal.shouldRecover = false →
      eal'.store.loadedIndex ≤ max eal.store.loadedIndex node.commitIndex) :
    Ready a planned id node eal' cpl pc := by
  cases pc with
  | readLoadedIndex command lastIndex commitIndex => exact h
  | readAppliedIndex command lastIndex commitIndex loadedIndex =>
    refine ⟨h.1, fun hne => (hl (hkn hne).1).trans ?_⟩
    have hle := h.2 hne
    omega
  | scanning command lastIndex index =>
    intro hne
    rcases hkn hne with ⟨log, hr, _⟩
    have hle := hl hr
    have hle' := h hne
    omega
  | swapping command lastIndex =>
    rcases hkn with ⟨log, entry, _, ⟨hr, _⟩, _⟩
    have hle := hl hr
    have hle' : eal.store.loadedIndex ≤ node.commitIndex := h
    show eal'.store.loadedIndex ≤ node.commitIndex
    omega
  | processing command => exact h
  | _ => trivial

theorem Ready.of_logStore (h : Ready a planned id node eal cpl pc) (logStore : RaftLogStore) :
    Ready a planned id node eal { cpl with store := { cpl.store with logStore := logStore } }
      pc := by
  cases pc <;> exact h

theorem loadEntries_loadedIndex_le {store store' : ReadonlyRaftCommandEventStore}
    {commitIndex room : Nat} (hr : store.loadEntries config node commitIndex room = some store') :
    store'.loadedIndex ≤ max store.loadedIndex node.commitIndex := by
  unfold ReadonlyRaftCommandEventStore.loadEntries at hr
  split at hr
  · rcases map_eq_some_iff.mp hr with ⟨entries, hents, rfl⟩
    have hs := Log.getEntries_length_le hents
    simp only
    omega
  · cases hr

/-- A committed log that is not longer than what the node has committed is part of it. -/
theorem isPrefix_committedLog (hinv : GhostInv a) (hv : VolatileRel id node a) {bound : Nat}
    (hlog : IsCommitted a bound log) (hle : log.length ≤ node.commitIndex) :
    log <+: committedLog node := by
  rcases hinv.committed_total majorities_meet hlog hv.committed with hp | hp
  · exact hp
  · have hl := length_committedLog hv
    have heq : committedLog node = log := hp.eq_of_length_le (by
      show log.length ≤ (committedLog node).length
      omega)
    rw [heq]

section Run

variable (h : LeaderInv a planned id node eal cpl) (hplan : Plan a planned) (hinv : GhostInv a)
  (hlog : LogRel id node.log a) (hv : VolatileRel id node a) {popped : List Entry}
  {delivered : List Bundle} (he : eal.Inv (IsCommitted a node.log.currentTerm) popped delivered)
include h hplan hinv hlog hv he

theorem LeaderInv.overtaken {command : Command} {lastIndex : Nat}
    (hpc : cpl.pc = .swapping command lastIndex) (hidle : eal.pc = .idle)
    (hrdy : eal.store.loadedIndex ≤ node.commitIndex)
    (hpass : cpl.store.lastCheckedTerm < node.log.currentTerm) :
    Overtaken planned node
      { cpl with
        pc := .processing command
        lastCommandId := lastIndex
        machine := eal.machine.state
        snapshot := eal.machine.flushed.doneIds } := by
  have hkn := h.knows
  rw [hpc] at hkn
  rcases hkn with ⟨log, entry, hpos, ⟨hrec, hload, hcomm, _, _⟩, hent, hterm⟩
  rcases (h.waiting (by rw [hpc]; rfl)).2 with ⟨base, hel, hst, hplanned⟩
  refine ⟨hpass, ?_, ?_⟩
  · -- the entry that was waited for is the last one the leader of the term has written
    have htake : log.take lastIndex <+: committedLog node :=
      isPrefix_committedLog hinv hv (hcomm.of_isPrefix (List.take_prefix _ _))
        (by rw [length_take]; omega)
    have hent' : (committedLog node)[lastIndex - 1]? = some entry := by
      refine getElem?_of_isPrefix htake ?_
      rw [getElem?_take_of_lt (by omega)]
      exact hent
    have hcat := (committed_concat hinv hlog hpos hent').2
    rcases committed_isPrefix_planned hplan hinv hlog hpos hent' with ⟨hpre, hlen⟩
    rw [hterm] at hcat hpre
    show lastIndex = (planned cpl.store.lastCheckedTerm).length
    have hle := hpre.length_le
    have hle' := hst.length_le
    rcases hinv.leader_entry _ id base _ entry hel hcat with ⟨hlt, _⟩ | ⟨_, hbase⟩
    · omega
    · have hbas := hbase.length_le
      rw [length_take] at hbas
      rw [hplanned] at hle ⊢
      omega
  · have hpop := he.read.of_isPrefix (prefix_append _ _)
    rcases he.mirrors_delivered hidle hrec (hplan.sound_of_committed hinv hpop) with
      ⟨front, s, hfrt, _, hs, hmir⟩
    have hread := isPrefix_committedLog hinv hv he.read (by rw [← he.loaded hrec]; exact hrdy)
    exact ⟨front, s, (hfrt.trans (prefix_append _ _)).trans hread, hs, hmir⟩

variable (hrdy : Ready a planned id node eal cpl cpl.pc) {reading : Reading}
  (hread : reading.IsOf node) {now : UInt64}
  (hrun : cpl.run node reading eal now = some (cpl', eal'))
include hrdy hread hrun

theorem LeaderInv.ready_waitRun (hwait : cpl.pc.isWaiting = true)
    (h' : LeaderInv a planned id node eal' cpl') : Ready a planned id node eal' cpl' cpl'.pc := by
  cases hpc : cpl.pc with simp only [CommandProcessLoop.run, hpc] at hrun hrdy hwait
  | idle | readTerm command | readRole command term | readTermAgain command term role
  | processing command => cases hwait
  | checkTerm command =>
    split at hrun
    · cases hrun
      trivial
    · cases hrun
      trivial
  | readLastIndex command =>
    cases hrun
    trivial
  | readCommitIndex command lastIndex =>
    cases hrun
    exact hread.2
  | readLoadedIndex command lastIndex commitIndex =>
    cases hrun
    exact ⟨hrdy, fun _ => le_max_left _ _⟩
  | readAppliedIndex command lastIndex commitIndex loadedIndex =>
    split at hrun
    · rename_i hsame
      cases hrun
      intro hne
      have hle := hrdy.2 (by omega)
      have hle' := hrdy.1
      omega
    · cases hrun
      trivial
  | scanning command lastIndex index =>
    rcases map_eq_some_iff.mp hrun with ⟨_, hscan, heq⟩
    cases heq
    unfold CommandProcessLoop.scan at hscan
    split at hscan
    · cases hscan
      trivial
    · split at hscan
      · rcases map_eq_some_iff.mp hscan with ⟨entry, hent, rfl⟩
        have hpos := hlog.whole.one_le_of_getEntry hent
        split
        · trivial
        · split
          · exact hrdy (by omega)
          · exact hrdy
      · cases hscan
  | swapping command lastIndex =>
    simp only [CommandProcessLoop.swapStateAndTeardown] at hrun
    cases hidle : eal.pc with rw [hidle] at hrun
    | idle =>
      cases hrun
      rcases h'.speculates (h.waiting (by rw [hpc]; rfl)).1 rfl with hpass | hspec
      · exact .inr (h.overtaken hplan hinv hlog hv he hpc hidle hrdy hpass)
      · exact .inl hspec
    | applying events commandId | committing commandId => cases hrun

theorem LeaderInv.ready_run (h' : LeaderInv a planned' id node eal' cpl')
    (hrepl : Replans a id node cpl cpl' planned planned') :
    Ready a planned' id node eal' cpl' cpl'.pc := by
  have hwait := h.ready_waitRun hplan hinv hlog hv he hrdy hread hrun
  cases hpc : cpl.pc with simp only [CommandProcessLoop.run, hpc] at hrun
  | idle => cases hrun
  | readTerm command | readRole command term =>
    cases hrun
    trivial
  | readTermAgain command term role =>
    split at hrun
    · rename_i hterm
      rcases map_eq_some_iff.mp hrun with ⟨_, hrefr, heq⟩
      cases heq
      rcases onRefreshed_inv h.logStoreTerm h.logStoreRole hrefr with
        ⟨rfl, hlead, hchk⟩ | ⟨_, ⟨_, rfl⟩ | ⟨_, rfl⟩⟩
      · -- the term lasts, so the machine stands for its plan
        refine .inl ((h'.speculates hlead rfl).resolve_left ?_)
        show ¬ cpl.store.lastCheckedTerm < node.log.currentTerm
        omega
      · trivial
      · trivial
    · cases hrun
      trivial
  | processing command =>
    rcases map_eq_some_iff.mp hrun with ⟨_, hproc, heq⟩
    cases heq
    rcases processCommand_cases hproc with ⟨_, _, rfl⟩ | ⟨_, _, _, _, _, _, _, _, _, rfl⟩
    · trivial
    · trivial
  | _ =>
    -- the plan only changes with a command
    obtain rfl := hrepl.idle (by simp [hpc])
    exact hwait (by rw [hpc]; rfl) h'

end Run

theorem processCommand_of_step {process process' : Process} {config : Config RaftPayload}
    {reading : Reading}
    (hrun : process.step config node (.processCommands reading now) = some process')
    (hpc : process.cpl.pc = .processing command) :
    process.cpl.processCommand now command = some process'.cpl := by
  simp only [Process.step] at hrun
  split at hrun
  · rcases map_eq_some_iff.mp hrun with ⟨⟨cpl, eal⟩, hcpl, rfl⟩
    simp only [CommandProcessLoop.run, hpc] at hcpl
    rcases map_eq_some_iff.mp hcpl with ⟨_, hproc, heq⟩
    cases heq
    exact hproc
  · cases hrun

theorem push_inv {loop : RaftReplyLoop} {new : PendingTask} {k : Nat}
    (h : (loop.tasks ++ [new])[k]? = some task) :
    loop.tasks[k]? = some task ∨ (k = loop.tasks.length ∧ task = new) := by
  rcases Nat.lt_or_ge k loop.tasks.length with hlt | hge
  · rw [getElem?_append_left hlt] at h
    exact .inl h
  · rw [getElem?_append_right hge, getElem?_singleton] at h
    split at h
    · rename_i heq
      cases h
      exact .inr ⟨by omega, rfl⟩
    · cases h

theorem pushedTasks_inv (hrun : cpl.processCommand now command = some cpl') (handle : Option Nat) :
    ∃ task, pushedTasks cpl cpl' command handle = [task] ∧ task.handle = handle ∧
      task.flag = .initial ∧ task.term = cpl.store.lastCheckedTerm ∧
      task.snapshot = cpl.snapshot ∧ task.machine = cpl.machine ∧ task.IsVerdict ∧
      ((task.entry = none ∧ task.index = cpl.lastCommandId) ∨ ∃ persistEntry,
          cpl'.store.logStore.persistQueue = cpl.store.logStore.persistQueue ++ [persistEntry] ∧
          task.entry = some persistEntry.entry ∧ task.index = cpl.lastCommandId + 1) := by
  rcases processCommand_cases hrun with ⟨hint, hproc, rfl⟩ |
    ⟨hint, events, machine, payload, hne, rfl, hid, hevs, hproc, rfl⟩
  · refine ⟨
      { index := cpl.lastCommandId
        term := cpl.store.lastCheckedTerm
        code := hint.code
        message := hint.message
        handle := handle
        command := command
        snapshot := cpl.snapshot
        machine := cpl.machine
        entry := none },
      by simp [pushedTasks, RaftCommandEventStore.pushTask], rfl, rfl, rfl, rfl, rfl,
      ⟨now, [], cpl.machine, hproc, fun _ => rfl, fun _ hent => ?_⟩, .inl ⟨rfl, rfl⟩⟩
    cases hent
  · refine ⟨
      { index := payload.id.toNat
        term := cpl.store.lastCheckedTerm
        code := hint.code
        message := hint.message
        handle := handle
        command := payload.command
        snapshot := cpl.snapshot
        machine := cpl.machine
        entry := some (PersistEntry.entry ⟨cpl.store.logStore.logStoreTerm, payload⟩) },
      by simp [pushedTasks, RaftCommandEventStore.pushTask, RaftCommandEventStore.persistAsync,
        RaftLogStore.persistAsync], rfl, rfl, rfl, rfl, rfl,
      ⟨now, events, machine, hproc, fun hnone => ?_, fun _ hent => ?_⟩,
      .inr ⟨_, rfl, rfl, hid⟩⟩
    · cases hnone
    · cases hent
      exact ⟨rfl, hevs⟩

theorem taskRel_of_pushed (h : LeaderInv a planned id node eal cpl)
    (hpc : cpl.pc = .processing command) (hrdy : Ready a planned id node eal cpl cpl.pc)
    (hrun : cpl.processCommand now command = some cpl')
    (hrepl : Replans a id node cpl cpl' planned planned') {handle : Option Nat}
    (htask : task ∈ pushedTasks cpl cpl' command handle) : TaskRel a planned' id node task := by
  have hlead := h.knows
  rw [hpc] at hlead hrdy
  rcases pushedTasks_inv hrun handle with
    ⟨_, heq, _, _, hterm, hsnap, hmach, hver, hent⟩
  rw [heq, mem_singleton] at htask
  subst htask
  have hlast : cpl.lastCommandId = (planned cpl.store.lastCheckedTerm).length := by
    rcases hrdy with ⟨_, _, _, _, _, _, _, hlast⟩ | ⟨_, hlast, _⟩ <;> exact hlast
  refine ⟨hterm ▸ h.elected hlead, hver, fun entry hblt => ?_, fun hnone => ?_⟩
  · rcases hent with ⟨hnone, _⟩ | ⟨persistEntry, hque, hsome, hidx⟩
    · rw [hnone] at hblt
      cases hblt
    · rw [hsome] at hblt
      cases hblt
      rw [hterm, hidx, Nat.add_sub_cancel, hlast]
      by_cases hpass : cpl.store.lastCheckedTerm < node.log.currentTerm
      · rw [hrepl.passed _ hpass]
        exact .inr ⟨hpass, Nat.lt_succ_self _⟩
      · rw [(hrepl.executed persistEntry hque).resolve_left hpass]
        exact .inl (getElem?_concat_length ..)
  · have hidx : task.index = cpl.lastCommandId := by
      rcases hent with ⟨_, hidx⟩ | ⟨_, _, hsome, _⟩
      · exact hidx
      · rw [hsome] at hnone
        cases hnone
    rw [hterm, hidx, hsnap, hmach]
    rcases hrdy with ⟨_, _, s, _, _, hs, hmir, _⟩ | ⟨_, _, basis, s, hbas, hs, hmir⟩
    · exact ⟨_, s, hs, hmir, .inl ⟨hrepl.isPrefix _, hlast.ge⟩⟩
    · exact ⟨basis, s, hs, hmir, .inr hbas⟩

end MySuperLedger.Replica
