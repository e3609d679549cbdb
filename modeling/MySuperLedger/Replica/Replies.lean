import MySuperLedger.Replica.Safety
import MySuperLedger.Replica.Verdicts
import MySuperLedger.Transition.Custody

/-! # Replies are sound

Every request is answered at most once, and with its own verdict only if the
entry at the index of its task was committed with the term of the task. Then the
entry is the one that was built from the request, and all that the verdict rests
on is committed.
-/

namespace MySuperLedger.Replica

open Consensus Ledger Raft Transition List Option Function RaftReplyLoop Service NodeRun

variable {size : Nat} {a a' : Ghost size RaftPayload} {planned planned' : Nat → List Entry}
  {service service' : Service size} {id : Fin size} {config : Config RaftPayload}
  {node node' : Node size RaftPayload Unit} {loop loop' : RaftReplyLoop}
  {thread : Fin concurrency} {answers : List (Answer size)}

theorem getElem?_setFlag (loop : RaftReplyLoop) (position k : Nat) (flag : TaskFlag) :
    (loop.setFlag position flag).tasks[k]? =
      if position = k then loop.tasks[k]?.map fun task => { task with flag := flag }
      else loop.tasks[k]? := by
  simp only [setFlag, getElem?_modify]
  split <;> simp

variable {position lastLogIndex commitIndex : Nat} {pc : ReplyPc} {j : Fin size}
  {op : Op size RaftPayload} {replicas : Replicas size} {threadStep : ThreadStep}
  {reading : Reading} {now : UInt64} {action : ServiceAction size}

theorem nextTask_inv (hn : loop.nextTask = some position) :
    ∃ task, loop.tasks[position]? = some task ∧ task.flag = .initial := by
  rcases map_eq_some_iff.mp hn with ⟨k, hk, rfl⟩
  rcases findIdx?_eq_some_iff_getElem.mp hk with ⟨hlt, hf, _⟩
  refine ⟨(loop.tasks.drop loop.popped)[k], ?_, by simpa using hf⟩
  rw [← getElem?_drop]
  exact getElem?_eq_getElem hlt

/-- A thread takes a task, goes on with it, or answers it. -/
theorem reply_cases
    (hrun : loop.reply node thread lastLogIndex commitIndex = some (loop', answers)) :
    (∃ position task, loop.threads thread = .idle ∧ loop.tasks[position]? = some task ∧
      task.flag = .initial ∧ answers = [] ∧
      loop' = (loop.setFlag position .doing).setPc thread (.waiting position)) ∨
    (∃ position pc, (loop.threads thread).position = some position ∧
      pc.position = some position ∧ answers = [] ∧ loop' = loop.setPc thread pc ∧
      ∀ p, pc = .replying p true → ∃ task entry, loop.tasks[p]? = some task ∧
        task.index ≤ node.commitIndex ∧ node.log.getEntry task.index = some entry ∧
        entry.term = task.term) ∨
    ∃ position isCommitted task, loop.threads thread = .replying position isCommitted ∧
      loop.tasks[position]? = some task ∧ answers = task.answers node isCommitted ∧
      loop' = (loop.setFlag position .done).setPc thread .idle := by
  unfold reply at hrun
  cases hpc : loop.threads thread with simp only [hpc] at hrun
  | idle =>
    split at hrun
    · rcases map_eq_some_iff.mp hrun with ⟨position, hnext, heq⟩
      cases heq
      rcases nextTask_inv hnext with ⟨task, htask, hflag⟩
      exact .inl ⟨position, task, rfl, htask, hflag, rfl, rfl⟩
    · cases hrun
  | waiting position =>
    cases hrun
    refine .inr (.inl ⟨position, _, rfl, ?_, rfl, rfl, ?_⟩)
    · split <;> rfl
    · split <;> simp
  | readTerm position | readLastLogIndex position term1 =>
    cases hrun
    exact .inr (.inl ⟨position, _, rfl, rfl, rfl, rfl, by simp⟩)
  | readTermAgain position term1 lastLogIndex =>
    split at hrun
    · cases hrun
      exact .inr (.inl ⟨position, _, rfl, rfl, rfl, rfl, by simp⟩)
    · rcases bind_eq_some_iff.mp hrun with ⟨task, htask, hrun⟩
      split at hrun
      · cases hrun
        refine .inr (.inl ⟨position, _, rfl, ?_, rfl, rfl, ?_⟩)
        · split <;> rfl
        · split <;> simp
      · cases hrun
  | readCommitIndex position =>
    rcases map_eq_some_iff.mp hrun with ⟨task, htask, heq⟩
    cases heq
    refine .inr (.inl ⟨position, _, rfl, ?_, rfl, rfl, ?_⟩)
    · split <;> rfl
    · split <;> simp
  | readEntry position =>
    rcases bind_eq_some_iff.mp hrun with ⟨task, htask, hrun⟩
    split at hrun
    · rename_i hcom
      rcases map_eq_some_iff.mp hrun with ⟨entry, hent, heq⟩
      cases heq
      refine .inr (.inl ⟨position, _, rfl, rfl, rfl, rfl, ?_⟩)
      intro p hp
      simp only [ReplyPc.replying.injEq, decide_eq_true_eq] at hp
      rcases hp with ⟨rfl, hterm⟩
      exact ⟨task, entry, htask, hcom, hent, hterm⟩
    · cases hrun
  | replying position isCommitted =>
    rcases map_eq_some_iff.mp hrun with ⟨task, htask, heq⟩
    cases heq
    exact .inr (.inr ⟨position, isCommitted, task, rfl, htask, rfl, rfl⟩)

/-- The tasks of a loop stand for their verdicts, and a thread that answers with one has seen
its entry committed. -/
structure LoopRel (a : Ghost size RaftPayload) (planned : Nat → List Entry) (id : Fin size)
    (node : Node size RaftPayload Unit) (loop : RaftReplyLoop) : Prop where
  tasks : ∀ task ∈ loop.tasks, TaskRel a planned id node task
  committed : ∀ thread position, loop.threads thread = .replying position true →
    ∃ task entry, loop.tasks[position]? = some task ∧ 1 ≤ task.index ∧
      (committedLog node)[task.index - 1]? = some entry ∧ entry.term = task.term

theorem LoopRel.empty : LoopRel a planned id node {} where
  tasks _ ht := nomatch ht
  committed _ _ hpc := nomatch hpc

section

variable (h : LoopRel a planned id node loop)
include h

theorem LoopRel.onward
    (ho : Onward a a' planned planned' id node node') : LoopRel a' planned' id node' loop where
  tasks task ht := (h.tasks task ht).onward ho
  committed thread position hpc := by
    rcases h.committed thread position hpc with ⟨task, entry, ht, hp, he, hterm⟩
    exact ⟨task, entry, ht, hp, getElem?_of_isPrefix ho.committed he, hterm⟩

theorem LoopRel.push {new : List PendingTask} (hn : ∀ task ∈ new, TaskRel a planned id node task) :
    LoopRel a planned id node { loop with tasks := loop.tasks ++ new } where
  tasks task ht := (mem_append.mp ht).elim (h.tasks task) (hn task)
  committed thread position hpc := by
    rcases h.committed thread position hpc with ⟨task, entry, ht, hr⟩
    rcases List.getElem?_eq_some_iff.mp ht with ⟨hlt, _⟩
    exact ⟨task, entry, by simpa [List.getElem?_append_left hlt] using ht, hr⟩

theorem LoopRel.setFlag (position : Nat) (flag : TaskFlag) :
    LoopRel a planned id node (loop.setFlag position flag) where
  tasks task ht := by
    rcases getElem?_of_mem ht with ⟨k, hk⟩
    rw [getElem?_setFlag] at hk
    split at hk
    · rcases map_eq_some_iff.mp hk with ⟨old, ho, rfl⟩
      have hr := h.tasks old (mem_of_getElem? ho)
      exact { hr with }
    · exact h.tasks task (mem_of_getElem? hk)
  committed thread p hpc := by
    rcases h.committed thread p hpc with ⟨task, entry, ht, hrest⟩
    simp only [getElem?_setFlag, ht]
    split
    · exact ⟨_, entry, rfl, hrest⟩
    · exact ⟨task, entry, rfl, hrest⟩

theorem LoopRel.setPc (hpc : ∀ position, pc = .replying position true → ∃ task entry,
      loop.tasks[position]? = some task ∧ 1 ≤ task.index ∧
        (committedLog node)[task.index - 1]? = some entry ∧ entry.term = task.term) :
    LoopRel a planned id node (loop.setPc thread pc) where
  tasks := h.tasks
  committed other position ho := by
    by_cases ht : other = thread
    · subst ht
      simp only [RaftReplyLoop.setPc, update_self] at ho
      exact hpc position ho
    · simp only [RaftReplyLoop.setPc, update_of_ne ht] at ho
      exact h.committed other position ho

end

/-- An answer given by a reply thread. -/
def Answer.IsSound (answer : Answer size) (task : PendingTask) : Prop :=
  task.handle = some answer.handle ∧ task.IsVerdict ∧
    ((answer.code = 301 ∧ answer.message = "NotLeaderAnyMore") ∨
      (answer.code = task.code ∧ answer.message = task.message ∧ task.Settled answer.committedLog))

theorem LoopRel.reply (h : LoopRel a planned id node loop) (hplan : Plan a planned)
    (hinv : GhostInv a) (hrel : LogRel id node.log a)
    (hrun : loop.reply node thread lastLogIndex commitIndex = some (loop', answers)) :
    LoopRel a planned id node loop' ∧
      ∀ answer ∈ answers, ∀ task, answer.task = some task → answer.IsSound task := by
  rcases reply_cases hrun with ⟨position, task, _, _, _, rfl, rfl⟩ |
    ⟨position, pc, _, _, rfl, rfl, hpc⟩ | ⟨position, isCommitted, task, hthr, htask, rfl, rfl⟩
  · exact ⟨(h.setFlag position .doing).setPc (by simp), by simp⟩
  · refine ⟨h.setPc fun p hp => ?_, by simp⟩
    rcases hpc p hp with ⟨task, entry, htask, hcom, hent, hterm⟩
    have hpos := hrel.whole.one_le_of_getEntry hent
    rw [hrel.whole.getEntry_eq hpos] at hent
    refine ⟨task, entry, htask, hpos, ?_, hterm⟩
    rw [committedLog, getElem?_take_of_lt (by omega)]
    exact hent
  · refine ⟨(h.setFlag position .done).setPc (by simp), fun answer hans task' htask' => ?_⟩
    have hmem := h.tasks task (List.mem_of_getElem? htask)
    simp only [PendingTask.answers, List.mem_map, mem_toList] at hans
    rcases hans with ⟨handle, hhd, rfl⟩
    cases htask'
    refine ⟨hhd, hmem.verdict, ?_⟩
    cases isCommitted with
    | false => exact .inl ⟨rfl, rfl⟩
    | true =>
      rcases h.committed thread position hthr with ⟨_, entry, htask', hpos, hent, hterm⟩
      rw [htask] at htask'
      cases htask'
      exact .inr ⟨rfl, rfl, hmem.settled hplan hinv hrel hpos hent hterm⟩

/-- What holds of the command in hand and of the pending tasks at one node. -/
structure VerdictsRel (a : Ghost size RaftPayload) (planned : Nat → List Entry) (id : Fin size)
    (node : Node size RaftPayload Unit) (process : Process) (loop : RaftReplyLoop) : Prop where
  ready : Ready a planned id node process.eal process.cpl process.cpl.pc
  loop : LoopRel a planned id node loop

structure VerdictsInv (service : Service size) (a : Ghost size RaftPayload)
    (planned : Nat → List Entry) : Prop where
  replicas : ReplicasInv service.replicas a planned
  nodes : ∀ id, VerdictsRel a planned id (service.replicas.cluster.nodes id)
    (service.replicas.processes id) (service.loops id)
  answers : ∀ answer ∈ service.answers, ∀ task, answer.task = some task → answer.IsSound task

theorem VerdictsInv.initial : VerdictsInv (initial : Service size) State.initial fun _ => [] where
  replicas := ReplicasInv.initial
  nodes _ := ⟨trivial, LoopRel.empty⟩
  answers _ ha := nomatch ha

section

variable (h : VerdictsInv service a planned)
include h

theorem VerdictsInv.onward
    (ho : Onward a a' planned planned' id (service.replicas.cluster.nodes id) node)
    (hs : Speculates a planned id (service.replicas.processes id).cpl →
      Speculates a' planned' id (service.replicas.processes id).cpl) :
    VerdictsRel a' planned' id node (service.replicas.processes id) (service.loops id) where
  ready := (h.nodes id).ready.onward ho (h.replicas.leader id).knows
    (h.replicas.leader id).elected hs
  loop := (h.nodes id).loop.onward ho

theorem VerdictsInv.other (hs : SameFor j a a')
    (hp : ∀ term base, a.elected term = some (j, base) → planned' term = planned term) :
    VerdictsRel a' planned' j (service.replicas.cluster.nodes j) (service.replicas.processes j)
      (service.loops j) :=
  h.onward (Onward.other hs.grows rfl rfl hp) fun hspec => hspec.other hs hp

theorem VerdictsInv.setLoop (hl : LoopRel a planned id (service.replicas.cluster.nodes id) loop) :
    VerdictsInv (service.setLoop id loop) a planned where
  replicas := h.replicas
  nodes j := by
    by_cases hj : j = id
    · subst hj
      simp only [Service.setLoop, update_self]
      exact ⟨(h.nodes j).ready, hl⟩
    · simp only [Service.setLoop, update_of_ne hj]
      exact h.nodes j
  answers := h.answers

theorem VerdictsInv.raft (hstep : service.replicas.step config (.raft id op) = some replicas) :
    ∃ a' planned', VerdictsInv { service with replicas := replicas } a' planned' := by
  rcases map_eq_some_iff.mp hstep with ⟨cluster', hclu, rfl⟩
  rcases h.replicas.raft hclu with ⟨a', node', hmov, hkept, hnod, h'⟩
  have hinv := h.replicas.cluster.inv
  have hv' := h'.cluster.volatile id
  have hself : cluster'.nodes id = node' := by rw [hnod, update_self]
  simp only [hself] at hv'
  have honw := Onward.run planned (h.replicas.cluster.log id)
    (h.replicas.cluster.volatile id) hv' hinv hmov hkept
  have hplan : ∀ j, j ≠ id → ∀ term base, a.elected term = some (j, base) →
      replan planned a a' (fun _ => False) term = planned term :=
    fun j hj term base hel => replan_of_other (fun hd => hd)
      ((SameFor.of_frame (frame hmov hinv) hj).leaderLog term base hel)
  refine ⟨a', _, h', fun j => ?_, h.answers⟩
  by_cases hj : j = id
  · subst hj
    simp only [hself]
    exact h.onward honw fun hspec =>
      hspec.replan h.replicas.plan hinv hmov (h.replicas.supplies j)
  · simp only [hnod, update_of_ne hj]
    exact h.other (SameFor.of_frame (frame hmov hinv) hj) (hplan j hj)

theorem VerdictsInv.crash {count : Nat} {hasHandle : Bool}
    (hstep : service.replicas.step config (.crash id op count) = some replicas) :
    ∃ a' planned',
      VerdictsInv (service.follow (.crash id op count) hasHandle replicas) a' planned' := by
  rcases map_eq_some_iff.mp hstep with ⟨cluster', hclu, rfl⟩
  rcases h.replicas.crash hclu with ⟨a', node', hmov, hnod, h'⟩
  have hfr := frame hmov h.replicas.cluster.inv
  -- only the plans of the node that stopped were dropped
  have hplan : ∀ j, j ≠ id → ∀ term base, a.elected term = some (j, base) →
      replan planned a a' (fun term => ∃ base, a'.elected term = some (id, base)) term =
        planned term := by
    intro j hj term base hel
    refine replan_of_other ?_ ((SameFor.of_frame hfr hj).leaderLog term base hel)
    rintro ⟨base', hel'⟩
    rw [hfr.elected _ _ hel] at hel'
    cases hel'
    exact hj rfl
  refine ⟨a', _, h', fun j => ?_, h.answers⟩
  by_cases hj : j = id
  · subst hj
    simp only [follow, update_self]
    exact ⟨trivial, LoopRel.empty⟩
  · simp only [follow, hnod, update_of_ne hj]
    exact h.other (SameFor.of_frame hfr hj) (hplan j hj)

theorem VerdictsInv.ready_thread {process : Process}
    (hrun : (service.replicas.processes id).step config (service.replicas.cluster.nodes id)
      threadStep = some process) (hrepl : Replans a id (service.replicas.cluster.nodes id)
      (service.replicas.processes id).cpl process.cpl planned planned')
    (h' : ReplicasInv (service.replicas.setProcess id process) a planned') :
    Ready a planned' id (service.replicas.cluster.nodes id) process.eal process.cpl
      process.cpl.pc := by
  have hrdy := (h.nodes id).ready
  have hlead := h.replicas.leader id
  cases threadStep with
  | dequeueCommand command =>
    simp only [Process.step, Process.dequeueCommand] at hrun
    split at hrun
    · cases hrun
      trivial
    · cases hrun
  | processCommands reading now =>
    simp only [Process.step] at hrun
    split at hrun
    · rename_i hread
      rcases map_eq_some_iff.mp hrun with ⟨⟨cpl, eal⟩, hcpl, rfl⟩
      rcases h.replicas.follower id with ⟨popped, delivered, he⟩
      have hlead' := h'.leader id
      simp only [Replicas.setProcess, update_self] at hlead'
      exact hlead.ready_run h.replicas.plan h.replicas.cluster.inv
        (h.replicas.cluster.log id) (h.replicas.cluster.volatile id) he hrdy hread hcpl
        hlead' hrepl
    · cases hrun
  | applyEvents =>
    rcases map_eq_some_iff.mp hrun with ⟨eal, heal, rfl⟩
    rw [hrepl.idle fun _ hpc => hpc]
    exact hrdy.advance hlead.knows fun hrec => by
      rw [EventApplyLoop.run_loadedIndex heal hrec]
      exact le_max_left _ _
  | loadEntries commitIndex room =>
    rcases map_eq_some_iff.mp hrun with ⟨store, hsto, rfl⟩
    rw [hrepl.idle fun _ hpc => hpc]
    exact hrdy.advance hlead.knows fun _ => loadEntries_loadedIndex_le hsto
  | decryptEntries position =>
    rcases map_eq_some_iff.mp hrun with ⟨store, hsto, rfl⟩
    rw [hrepl.idle fun _ hpc => hpc]
    exact hrdy.advance hlead.knows fun _ => by
      rw [EventApplyLoop.decrypt_loadedIndex hsto]
      exact le_max_left _ _
  | persist =>
    rcases map_eq_some_iff.mp hrun with ⟨logStore, _, rfl⟩
    rw [hrepl.idle fun _ hpc => hpc]
    exact hrdy.of_logStore logStore

theorem VerdictsInv.process {process : Process}
    (hrun : (service.replicas.processes id).step config (service.replicas.cluster.nodes id)
      threadStep = some process) :
    ∃ planned', Replans a id (service.replicas.cluster.nodes id)
        (service.replicas.processes id).cpl process.cpl planned planned' ∧
      VerdictsInv { service with replicas := service.replicas.setProcess id process } a
        planned' := by
  rcases h.replicas.thread hrun with ⟨planned', hr, h'⟩
  have hs : ∀ j, SameFor j a a := fun _ => ⟨Grows.refl a, fun _ _ hel => hel, fun _ _ _ => rfl⟩
  refine ⟨planned', hr, h', fun j => ?_, h.answers⟩
  by_cases hj : j = id
  · subst hj
    simp only [Replicas.setProcess, update_self]
    exact ⟨h.ready_thread hrun hr h', (h.nodes j).loop.onward (Onward.replans hr)⟩
  · simp only [Replicas.setProcess, update_of_ne hj]
    exact h.other (hs j) fun term base hel => hr.other term j base hj hel

/-- The command process loop pushes a task for a command it has processed, and answers one that
it rejects itself. -/
theorem VerdictsInv.afterCommand {process : Process}
    (hrun : (service.replicas.processes id).step config (service.replicas.cluster.nodes id)
      (.processCommands reading now) = some process) :
    ∃ planned', VerdictsInv
      (service.afterCommand id (service.replicas.setProcess id process)) a planned' := by
  rcases h.process hrun with ⟨planned', hrepl, h'⟩
  refine ⟨planned', ?_⟩
  unfold Service.afterCommand
  simp only
  split
  · rename_i command hpc
    have hset := h'.setLoop ((h'.nodes id).loop.push fun task
      (htask : task ∈ pushedTasks _ process.cpl command (service.handles id)) =>
        taskRel_of_pushed (h.replicas.leader id) hpc (h.nodes id).ready
          (processCommand_of_step hrun hpc) hrepl htask)
    simp only [Replicas.setProcess, update_self]
    exact { hset with }
  · refine ⟨h'.replicas, h'.nodes, fun answer hans task htask => ?_⟩
    rcases mem_append.mp hans with hold | hnew
    · exact h'.answers answer hold task htask
    · simp only [rejections, List.mem_map] at hnew
      rcases hnew with ⟨_, _, rfl⟩
      cases htask
  · exact h'

theorem VerdictsInv.sendBatch (hr : service.replicas.sendBatch config id = some replicas) :
    VerdictsInv { service with replicas := replicas } a planned := by
  have h' := h.replicas.sendBatch hr
  unfold Replicas.sendBatch at hr
  simp only at hr
  split at hr
  · cases hr
  · cases hr
    refine ⟨h', fun j => ?_, h.answers⟩
    by_cases hj : j = id
    · subst hj
      simp only [Cluster.setNode, update_self]
      refine ⟨(h.onward ?_ fun hs => hs).ready.of_logStore _, (h.onward ?_ fun hs => hs).loop⟩
      all_goals exact Onward.other (Grows.refl a) rfl rfl fun _ _ _ => rfl
    · simp only [Cluster.setNode, update_of_ne hj]
      exact h.nodes j

theorem VerdictsInv.step (hstep : service.step config action = some service') :
    ∃ a' planned', VerdictsInv service' a' planned' := by
  cases action with
  | replicas action hasHandle =>
    rcases map_eq_some_iff.mp hstep with ⟨replicas, hrepl, rfl⟩
    cases action with
    | raft id op => exact h.raft hrepl
    | crash id op count => exact h.crash hrepl
    | thread id threadStep =>
      rcases map_eq_some_iff.mp hrepl with ⟨process, hproc, rfl⟩
      cases threadStep with
      | processCommands reading now => exact ⟨a, h.afterCommand hproc⟩
      | _ =>
        rcases h.process hproc with ⟨planned', _, h'⟩
        exact ⟨a, planned', h'.replicas, h'.nodes, h'.answers⟩
    | sendBatch id => exact ⟨a, planned, h.sendBatch hrepl⟩
  | reply id thread lastLogIndex commitIndex =>
    simp only [step] at hstep
    split at hstep
    · rcases map_eq_some_iff.mp hstep with ⟨⟨loop, answers⟩, hrep, rfl⟩
      rcases (h.nodes id).loop.reply h.replicas.plan h.replicas.cluster.inv
        (h.replicas.cluster.log id) hrep with ⟨hloop, hans⟩
      have h' := h.setLoop hloop
      exact ⟨a, planned, h'.replicas, h'.nodes, fun answer hanswer =>
        (mem_append.mp hanswer).elim (h.answers answer) (hans answer)⟩
    · cases hstep
  | pop id =>
    rcases map_eq_some_iff.mp hstep with ⟨loop, hpop, rfl⟩
    rcases bind_eq_some_iff.mp hpop with ⟨task, _, hpop⟩
    split at hpop
    · cases hpop
      have hloop := (h.nodes id).loop
      exact ⟨a, planned, h.setLoop ⟨hloop.tasks, hloop.committed⟩⟩
    · cases hpop
  | stop id =>
    cases hstep
    have hloop := (h.nodes id).loop
    exact ⟨a, planned, h.setLoop ⟨hloop.tasks, hloop.committed⟩⟩

end

/-- Where the handle of a request is until it is answered, and then. -/
inductive Place (size : Nat) where
  | command (id : Fin size)
  | task (id : Fin size) (position : Nat)
  | answered

def Service.Holds (service : Service size) (handle : Nat) : Place size → Prop
  | .command id => service.handles id = some handle
  | .task id position => ∃ task, (service.loops id).tasks[position]? = some task ∧
      task.handle = some handle ∧ task.flag ≠ .done
  | .answered => handle ∈ service.answers.map Answer.handle

/-- A thread works on a task of its own. -/
structure LoopInv (loop : RaftReplyLoop) : Prop where
  doing : ∀ thread position, (loop.threads thread).position = some position →
    ∃ task, loop.tasks[position]? = some task ∧ task.flag = .doing
  apart : ∀ thread thread' position, (loop.threads thread).position = some position →
    (loop.threads thread').position = some position → thread = thread'

theorem LoopInv.empty : LoopInv {} where
  doing _ _ hp := nomatch hp
  apart _ _ _ hp := nomatch hp

theorem LoopInv.push (h : LoopInv loop) (new : List PendingTask) :
    LoopInv { loop with tasks := loop.tasks ++ new } where
  doing thread position hp := by
    rcases h.doing thread position hp with ⟨task, ht, hf⟩
    rcases List.getElem?_eq_some_iff.mp ht with ⟨hlt, _⟩
    exact ⟨task, by simpa [List.getElem?_append_left hlt] using ht, hf⟩
  apart := h.apart

theorem setPc_threads (loop : RaftReplyLoop) (thread other : Fin concurrency) (pc : ReplyPc) :
    (loop.setPc thread pc).threads other = if other = thread then pc else loop.threads other :=
  update_apply ..

theorem LoopInv.goOn (h : LoopInv loop) (hpc : pc.position = (loop.threads thread).position) :
    LoopInv (loop.setPc thread pc) := by
  have hs : ∀ other, ((loop.setPc thread pc).threads other).position =
      (loop.threads other).position := by
    intro other
    rw [setPc_threads]
    split
    · next heq => rw [heq, hpc]
    · rfl
  constructor
  · intro other position hp
    rw [hs] at hp
    exact h.doing other position hp
  · intro other other' position hp hp'
    rw [hs] at hp hp'
    exact h.apart other other' position hp hp'

theorem LoopInv.take (h : LoopInv loop) (thread : Fin concurrency) {task : PendingTask}
    (htask : loop.tasks[position]? = some task) (hflag : task.flag = .initial) :
    LoopInv ((loop.setFlag position .doing).setPc thread (.waiting position)) := by
  have hfree : ∀ other, (loop.threads other).position ≠ some position := by
    intro other hoth
    rcases h.doing other position hoth with ⟨task', htask', hflag'⟩
    rw [htask] at htask'
    cases htask'
    rw [hflag] at hflag'
    cases hflag'
  constructor
  · intro other p hp
    show ∃ task, (loop.setFlag position .doing).tasks[p]? = some task ∧ task.flag = .doing
    rw [getElem?_setFlag]
    rw [setPc_threads] at hp
    split at hp
    · cases hp
      exact ⟨_, by rw [if_pos rfl, htask]; rfl, rfl⟩
    · rcases h.doing other p hp with ⟨task', htask', hflag'⟩
      rw [if_neg fun heq : position = p => hfree other (heq ▸ hp)]
      exact ⟨task', htask', hflag'⟩
  · intro other other' p hp hp'
    rw [setPc_threads] at hp hp'
    split at hp
    · rename_i heq
      cases hp
      split at hp'
      · next heq' => rw [heq, heq']
      · exact absurd hp' (hfree other')
    · split at hp'
      · cases hp'
        exact absurd hp (hfree other)
      · exact h.apart other other' p hp hp'

theorem LoopInv.finish (h : LoopInv loop) (hpos : (loop.threads thread).position = some position) :
    LoopInv ((loop.setFlag position .done).setPc thread .idle) := by
  constructor
  · intro other p hp
    show ∃ task, (loop.setFlag position .done).tasks[p]? = some task ∧ task.flag = .doing
    rw [setPc_threads] at hp
    split at hp
    · cases hp
    · rename_i hne
      have hp' : position ≠ p := by
        rintro rfl
        exact hne (h.apart other thread position hp hpos)
      rw [getElem?_setFlag, if_neg hp']
      exact h.doing other p hp
  · intro other other' p hp hp'
    rw [setPc_threads] at hp hp'
    split at hp
    · cases hp
    · split at hp'
      · cases hp'
      · exact h.apart other other' p hp hp'

structure HandlesInv (service : Service size) : Prop where
  loops : ∀ id, LoopInv (service.loops id)
  custody : Custody service.Holds service.requests
  once : (service.answers.map Answer.handle).Nodup

theorem HandlesInv.initial : HandlesInv (Service.initial : Service size) where
  loops _ := LoopInv.empty
  custody := by
    constructor
    · rintro token (_ | _ | _) hh <;> simp [Service.initial, Service.Holds] at hh
    · rintro token (_ | _ | _) place' hh <;> simp [Service.initial, Service.Holds] at hh
  once := nodup_nil

theorem HandlesInv.loops_update (h : HandlesInv service) (hl : LoopInv loop) (j : Fin size) :
    LoopInv (update service.loops id loop j) := by
  by_cases hj : j = id
  · subst hj
    rw [update_self]
    exact hl
  · rw [update_of_ne hj]
    exact h.loops j

theorem HandlesInv.once_append (h : HandlesInv service) (source : Place size)
    (hs : source ≠ .answered) {held : Option Nat}
    (hh : ∀ handle, held = some handle → service.Holds handle source) :
    (service.answers.map Answer.handle ++ held.toList).Nodup := by
  cases held with
  | none => simpa using h.once
  | some handle =>
    refine nodup_append.mpr ⟨h.once, nodup_singleton _, ?_⟩
    rintro handle' ha other ho rfl
    simp only [toList_some, mem_singleton] at ho
    subst ho
    exact hs (h.custody.unique _ _ .answered (hh _ rfl) ha)

theorem map_handle_answers (task : PendingTask) (node : Node size RaftPayload Unit)
    (isCommitted : Bool) :
    (task.answers node isCommitted).map Answer.handle = task.handle.toList := by
  simp [PendingTask.answers, comp_def]

theorem map_handle_rejections (node : Node size RaftPayload Unit) (handle : Option Nat) :
    (rejections node handle).map Answer.handle = handle.toList := by
  simp [rejections, comp_def]

section

variable (h : HandlesInv service)
include h

theorem HandlesInv.setLoop (hl : LoopInv loop)
    (htsk : ∀ (position : Nat) (task : PendingTask), loop.tasks[position]? = some task →
      task.flag ≠ .done → ∃ task', (service.loops id).tasks[position]? = some task' ∧
        task'.handle = task.handle ∧ task'.flag ≠ .done) :
    HandlesInv (service.setLoop id loop) where
  loops := h.loops_update hl
  custody := by
    refine h.custody.drop fun handle place hh => ?_
    cases place with
    | command j => exact hh
    | task j position =>
      by_cases hj : j = id
      · subst hj
        rcases hh with ⟨task, ht, hhd, hf⟩
        simp only [Service.setLoop, update_self] at ht
        rcases htsk position task ht hf with ⟨task', ht', hs, hf'⟩
        exact ⟨task', ht', hs.trans hhd, hf'⟩
      · simpa [Service.Holds, Service.setLoop, update_of_ne hj] using hh
    | answered => exact hh
  once := h.once

theorem HandlesInv.crash (replicas : Replicas size)
    (op : Op size RaftPayload) (count : Nat) (hasHandle : Bool) :
    HandlesInv (service.follow (.crash id op count) hasHandle replicas) where
  loops := h.loops_update LoopInv.empty
  custody := by
    refine h.custody.drop fun handle place hh => ?_
    cases place with
    | command j | task j position =>
      by_cases hj : j = id
      · subst hj
        simp [Service.Holds, follow] at hh
      · simpa [Service.Holds, follow, update_of_ne hj] using hh
    | answered => exact hh
  once := h.once

theorem HandlesInv.dequeueCommand (replicas : Replicas size)
    (command : Command) (hasHandle : Bool) :
    HandlesInv (service.follow (.thread id (.dequeueCommand command)) hasHandle replicas) where
  loops := h.loops
  custody := by
    refine h.custody.issue (.command id) fun handle place hh => ?_
    cases place with
    | command j =>
      by_cases hj : j = id
      · subst hj
        simp only [Service.Holds, follow, update_self] at hh
        split at hh
        · cases hh
          exact .inr ⟨rfl, rfl⟩
        · cases hh
      · simp only [Service.Holds, follow, update_of_ne hj] at hh
        exact .inl hh
    | task j position | answered => exact .inl hh
  once := h.once

/-- The handle of the command goes into its task, or into a rejection. -/
theorem HandlesInv.afterCommand {process : Process}
    (hrun : (service.replicas.processes id).step config (service.replicas.cluster.nodes id)
      (.processCommands reading now) = some process) :
    HandlesInv (service.afterCommand id (service.replicas.setProcess id process)) := by
  unfold Service.afterCommand
  simp only
  split
  · rename_i command hpc
    have hproc := processCommand_of_step hrun hpc
    rcases pushedTasks_inv hproc (service.handles id) with ⟨task, hpush, hhd, _⟩
    simp only [Replicas.setProcess, update_self, hpush]
    refine ⟨h.loops_update ((h.loops id).push [task]), ?_, h.once⟩
    refine h.custody.move (.command id) (.task id (service.loops id).tasks.length)
      fun handle place hhold => ?_
    cases place with
    | command j =>
      by_cases hj : j = id
      · subst hj
        simp [Service.Holds] at hhold
      · simp only [Service.Holds, update_of_ne hj] at hhold
        exact .inl ⟨hhold, by simpa using hj⟩
    | task j position =>
      by_cases hj : j = id
      · subst hj
        rcases hhold with ⟨task', htask', hhd', hflag'⟩
        simp only [update_self] at htask'
        rcases push_inv htask' with hold | ⟨rfl, rfl⟩
        · exact .inl ⟨⟨task', hold, hhd', hflag'⟩, by simp⟩
        · exact .inr ⟨rfl, hhd.symm.trans hhd'⟩
      · simp only [Service.Holds, update_of_ne hj] at hhold
        exact .inl ⟨hhold, by simp⟩
    | answered => exact .inl ⟨hhold, by simp⟩
  · refine ⟨h.loops, ?_, ?_⟩
    · refine h.custody.move (.command id) .answered fun handle place hhold => ?_
      cases place with
      | command j =>
        by_cases hj : j = id
        · subst hj
          simp [Service.Holds] at hhold
        · simp only [Service.Holds, update_of_ne hj] at hhold
          exact .inl ⟨hhold, by simpa using hj⟩
      | task j position => exact .inl ⟨hhold, by simp⟩
      | answered =>
        simp only [Service.Holds, map_append, map_handle_rejections, mem_append,
          mem_toList] at hhold
        exact hhold.imp (fun hold => ⟨hold, by simp⟩) fun hnew => ⟨rfl, hnew⟩
    · simp only [map_append, map_handle_rejections]
      exact h.once_append (.command id) (by simp) fun _ hheld => hheld
  · exact { h with }

theorem HandlesInv.reply
    (hrun : (service.loops id).reply node thread lastLogIndex commitIndex = some (loop', answers)) :
    HandlesInv { service.setLoop id loop' with answers := service.answers ++ answers } := by
  rcases reply_cases hrun with ⟨position, task, _, htask, hflag, rfl, rfl⟩ |
    ⟨position, pc, hpos, hpc, rfl, rfl, _⟩ |
    ⟨position, isCommitted, task, hthr, htask, rfl, rfl⟩
  · rw [append_nil]
    refine h.setLoop ((h.loops id).take thread htask hflag) fun p task' htask' hflag' => ?_
    simp only [setPc, getElem?_setFlag] at htask'
    split at htask'
    · rename_i heq
      subst heq
      simp only [htask, map_some, some.injEq] at htask'
      subst htask'
      exact ⟨task, htask, rfl, by simp [hflag]⟩
    · exact ⟨task', htask', rfl, hflag'⟩
  · rw [append_nil]
    exact h.setLoop ((h.loops id).goOn (hpc.trans hpos.symm)) fun p task htask hflag =>
      ⟨task, htask, rfl, hflag⟩
  · have hpos : ((service.loops id).threads thread).position = some position := by
      rw [hthr]
      rfl
    -- the task is not done yet, so its handle was not answered
    have hsrc : ∀ handle, task.handle = some handle →
        service.Holds handle (.task id position) := by
      intro handle hhd
      rcases (h.loops id).doing thread position hpos with ⟨task', htask', hflag⟩
      rw [htask] at htask'
      cases htask'
      exact ⟨task, htask, hhd, by simp [hflag]⟩
    refine ⟨h.loops_update ((h.loops id).finish hpos), ?_, ?_⟩
    · refine h.custody.move (.task id position) .answered fun handle place hhold => ?_
      cases place with
      | command j => exact .inl ⟨hhold, by simp⟩
      | task j p =>
        by_cases hj : j = id
        · subst hj
          rcases hhold with ⟨task', htask', hhd', hflag'⟩
          simp only [Service.setLoop, update_self, setPc, getElem?_setFlag] at htask'
          split at htask'
          · rcases map_eq_some_iff.mp htask' with ⟨_, _, rfl⟩
            exact absurd rfl hflag'
          · next hne => exact .inl ⟨⟨task', htask', hhd', hflag'⟩, by simpa using Ne.symm hne⟩
        · simp only [Service.Holds, Service.setLoop, update_of_ne hj] at hhold
          exact .inl ⟨hhold, by simp [hj]⟩
      | answered =>
        simp only [Service.Holds, map_append, map_handle_answers, mem_append, mem_toList] at hhold
        exact hhold.imp (fun hold => ⟨hold, by simp⟩) fun hnew => ⟨rfl, hsrc handle hnew⟩
    · simp only [map_append, map_handle_answers]
      exact h.once_append (.task id position) (by simp) hsrc

theorem HandlesInv.step
    (hstep : service.step config action = some service') : HandlesInv service' := by
  cases action with
  | replicas action hasHandle =>
    rcases map_eq_some_iff.mp hstep with ⟨replicas, hrepl, rfl⟩
    cases action with
    | raft id op => exact { h with }
    | crash id op count => exact h.crash replicas op count hasHandle
    | thread id threadStep =>
      rcases map_eq_some_iff.mp hrepl with ⟨process, hproc, rfl⟩
      cases threadStep with
      | dequeueCommand command => exact h.dequeueCommand _ command hasHandle
      | processCommands reading now => exact h.afterCommand hproc
      | _ => exact { h with }
    | sendBatch id => exact { h with }
  | reply id thread lastLogIndex commitIndex =>
    simp only [step] at hstep
    split at hstep
    · rcases map_eq_some_iff.mp hstep with ⟨⟨loop, answers⟩, hrep, rfl⟩
      exact h.reply hrep
    · cases hstep
  | pop id =>
    rcases map_eq_some_iff.mp hstep with ⟨loop, hpop, rfl⟩
    rcases bind_eq_some_iff.mp hpop with ⟨task, _, hpop⟩
    split at hpop
    · cases hpop
      exact h.setLoop ⟨(h.loops id).doing, (h.loops id).apart⟩ fun _ task htask hflag =>
        ⟨task, htask, rfl, hflag⟩
    · cases hpop
  | stop id =>
    cases hstep
    exact h.setLoop ⟨(h.loops id).doing, (h.loops id).apart⟩ fun _ task htask hflag =>
      ⟨task, htask, rfl, hflag⟩

end

theorem service_inv_of_reachable (hr : (system config).Reachable service) :
    (∃ a planned, VerdictsInv service a planned) ∧ HandlesInv service := by
  refine hr.invariant
    (fun service => (∃ a planned, VerdictsInv service a planned) ∧ HandlesInv service) ?_ ?_
  · rintro start rfl
    exact ⟨⟨_, _, VerdictsInv.initial⟩, HandlesInv.initial⟩
  · rintro before after ⟨⟨a, planned, h⟩, hh⟩ ⟨action, hs⟩
    exact ⟨h.step hs, hh.step hs⟩

/-- No handle is answered twice, and a task is answered with its own verdict only when that is
settled by what is committed. -/
theorem replies_sound (hreachable : (system config).Reachable service) :
    (service.answers.map Answer.handle).Nodup ∧
      ∀ answer ∈ service.answers, ∀ task, answer.task = some task →
        task.handle = some answer.handle ∧ task.IsVerdict ∧
          ((answer.code = 301 ∧ answer.message = "NotLeaderAnyMore") ∨
            (answer.code = task.code ∧ answer.message = task.message ∧
              task.Settled answer.committedLog)) := by
  rcases service_inv_of_reachable hreachable with ⟨⟨a, planned, h⟩, hh⟩
  exact ⟨hh.once, h.answers⟩

/-- An account is created and then refused, and both requests are answered. -/
def soloReplies : List (ServiceAction 1) :=
  let refused : List (Action 1) := .thread 0 (.dequeueCommand createCash) ::
    replicate 4 (.thread 0 (.processCommands ⟨.Leader, 1, 1⟩ 0))
  (soloLeads ++ soloLoads 1 ++ soloExecutes createCash 11 ++ refused).map (.replicas · true) ++
    replicate 8 (.reply 0 0 2 2) ++ replicate 8 (.reply 0 1 2 2)

def afterReplies : Service 1 :=
  (initial.run soloConfig soloReplies).getD initial

theorem reachable_afterReplies : (system soloConfig).Reachable afterReplies :=
  ⟨initial, rfl, System.runs_of_isSome _ (by decide +kernel)⟩

theorem replies_sound_afterReplies :
    afterReplies.answers.map (fun answer => (answer.handle, answer.code)) = [(0, 200), (1, 1000)] ∧
      (afterReplies.answers.map Answer.handle).Nodup ∧
      ∀ answer ∈ afterReplies.answers, ∀ task, answer.task = some task →
        task.Settled answer.committedLog := by
  have hc : afterReplies.answers.map (fun answer => (answer.handle, answer.code)) =
      [(0, 200), (1, 1000)] := by
    decide +kernel
  rcases replies_sound reachable_afterReplies with ⟨ho, hsnd⟩
  refine ⟨hc, ho, fun answer ha task ht => ?_⟩
  rcases (hsnd answer ha task ht).2.2 with ⟨hcode, _⟩ | ⟨_, _, hs⟩
  · have hm : (answer.handle, answer.code) ∈ [(0, (200 : UInt64)), (1, 1000)] :=
      hc ▸ mem_map_of_mem ha
    simp [hcode] at hm
  · exact hs

end MySuperLedger.Replica
