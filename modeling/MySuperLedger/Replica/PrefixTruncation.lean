import MySuperLedger.Raft.Advance
import MySuperLedger.Replica.ReplyThreads

/-! # Replies while the log loses its beginning

An administrator may drop the beginning of the log, up to the commit index, while
reply threads work on their tasks. A thread that finds its entry committed reads
it in a later step, and the process ends if it is gone by then. So a truncation
has to spare the entries of all tasks that no thread has read yet; then every
task is answered as if nothing had been dropped.

Raft may receive anything at any time here, and the loop is not destroyed.
-/

namespace MySuperLedger.Replica

open Effects Raft Transition List Option Log

variable {size : Nat}

/-- A node with its reply loop, and the answers so far. -/
structure Answering (size : Nat) where
  node : Node size RaftPayload Unit
  loop : RaftReplyLoop := {}
  answers : List (Answer size) := []

inductive AnsweringAction (size : Nat) where
  | raft (op : Op size RaftPayload)
  | enqueueClientRequests (requests : List (ClientRequest RaftPayload Unit))
  | truncatePrefix (firstIndexKept : Nat)
  /-- The term of a task is one that raft has had. -/
  | pushTask (task : PendingTask)
  | reply (thread : Fin concurrency) (lastLogIndex commitIndex : Nat)
  | pop

namespace Answering

def start (log : Log size RaftPayload) : Answering size where
  node := Node.start log 0

variable (config : Config RaftPayload) (self : Fin size)

def step (s : Answering size) : AnsweringAction size → Option (Answering size)
  | .raft op =>
    match (op.run config self s.node).result with
    | .ok (_, node) => some { s with node := node }
    | .error _ => none
  | .enqueueClientRequests requests =>
    some { s with node := { s.node with
      clientRequestsQueue := s.node.clientRequestsQueue ++ [requests] } }
  | .truncatePrefix firstIndexKept =>
    if firstIndexKept ≤ s.node.commitIndex then
      some { s with node := { s.node with log := s.node.log.truncatePrefix firstIndexKept } }
    else none
  | .pushTask task =>
    if task.term ≤ s.node.log.currentTerm then
      some { s with loop := { s.loop with
        tasks := s.loop.tasks ++ [{ task with flag := .initial }] } }
    else none
  | .reply thread lastLogIndex commitIndex =>
    if commitIndex ≤ s.node.commitIndex then
      (s.loop.reply s.node thread lastLogIndex commitIndex).map fun (loop, answers) =>
        { s with loop := loop, answers := s.answers ++ answers }
    else none
  | .pop => s.loop.pop.map fun loop => { s with loop := loop }

def system (log : Log size RaftPayload) : System (Answering size) :=
  .ofStep (start log) (step config self)

/-- A truncation spares the entries of open tasks, and a task is pushed for an entry the log has
not lost. -/
def InTime (s : Answering size) : AnsweringAction size → Prop
  | .truncatePrefix firstIndexKept =>
    ∀ position task, s.loop.IsOpen position task → firstIndexKept ≤ task.index
  | .pushTask task => s.node.log.firstIndex ≤ task.index
  | .raft _ => True
  | .enqueueClientRequests _ => True
  | .reply _ _ _ => True
  | .pop => True

theorem inTime_truncatePrefix {s : Answering size} {firstIndexKept : Nat} :
    s.InTime (.truncatePrefix firstIndexKept) ↔
      ∀ position : Fin s.loop.tasks.length, (s.loop.tasks.get position).flag ≠ .done →
        (∀ thread isCommitted, s.loop.threads thread ≠ .replying position isCommitted) →
        firstIndexKept ≤ (s.loop.tasks.get position).index := by
  constructor
  · intro h position hf hu
    exact h position (s.loop.tasks.get position) ⟨getElem?_eq_getElem position.isLt, hf, hu⟩
  · intro h position task ho
    obtain ⟨hlt, heq⟩ := List.getElem?_eq_some_iff.mp ho.get
    have hf : (s.loop.tasks.get ⟨position, hlt⟩).flag ≠ .done := by
      rw [get_eq_getElem, heq]
      exact ho.flag
    have hle := h ⟨position, hlt⟩ hf ho.undecided
    rw [get_eq_getElem, heq] at hle
    exact hle

instance (s : Answering size) (action : AnsweringAction size) : Decidable (s.InTime action) :=
  match action with
  | .truncatePrefix _ => decidable_of_iff _ inTime_truncatePrefix.symm
  | .pushTask task => inferInstanceAs (Decidable (s.node.log.firstIndex ≤ task.index))
  | .raft _ => isTrue trivial
  | .enqueueClientRequests _ => isTrue trivial
  | .reply _ _ _ => isTrue trivial
  | .pop => isTrue trivial

/-- The runs in which all steps are in time. -/
def timely (log : Log size RaftPayload) : System (Answering size) :=
  .ofGuardedStep (start log) InTime (step config self)

/-- A thread that works on a task cannot go on: a check fails. -/
def AssertFails (s : Answering size) : Prop :=
  ∃ thread lastLogIndex commitIndex, s.loop.threads thread ≠ .idle ∧
    s.loop.reply s.node thread lastLogIndex commitIndex = none

/-- Only the reply threads run, and they read what is there. -/
def replying : System (Answering size) where
  init _ := True
  step s s' := ∃ thread, s.step config self
    (.reply thread s.node.log.lastLogIndex s.node.commitIndex) = some s'

/-- The task at the position is done, and its client has an answer. -/
def HasAnswered (s : Answering size) (position : Nat) : Prop :=
  ∃ task, s.loop.tasks[position]? = some task ∧ task.flag = .done ∧
    ∀ handle, task.handle = some handle → ∃ answer ∈ s.answers, answer.handle = handle

end Answering

namespace Answering

variable {config : Config RaftPayload} {self : Fin size} {log : Log size RaftPayload}
  {s s' : Answering size}

structure Inv (s : Answering size) : Prop where
  queue : QueueInv s.loop
  covered : s.node.Covered
  role : s.node.role ≠ .Syncer
  term_le : ∀ (position : Nat) (task : PendingTask), s.loop.tasks[position]? = some task →
    task.term ≤ s.node.log.currentTerm
  sound : ∀ (thread : Fin concurrency) (position : Nat) (task : PendingTask),
    (s.loop.threads thread).position = some position → s.loop.tasks[position]? = some task →
    (s.loop.threads thread).Sound s.node task
  answered : ∀ (position : Nat) (task : PendingTask), s.loop.tasks[position]? = some task →
    task.flag = .done →
    ∀ handle, task.handle = some handle → ∃ answer ∈ s.answers, answer.handle = handle

theorem Inv.start (hl : 1 ≤ log.firstIndex) : Inv (start log) where
  queue := QueueInv.empty
  covered := ⟨hl, Nat.zero_le _⟩
  role := by simp [Answering.start, Node.start]
  term_le := by simp [Answering.start]
  sound := by simp [Answering.start, ReplyPc.position]
  answered := by simp [Answering.start]

variable {node : Node size RaftPayload Unit} {loop : RaftReplyLoop} {action : AnsweringAction size}
  {task : PendingTask} {position : Nat}

theorem Inv.setNode (h : Inv s) (hterm : s.node.log.currentTerm ≤ node.log.currentTerm)
    (hcom : s.node.commitIndex ≤ node.commitIndex) (hc : node.Covered)
    (hr : node.role ≠ .Syncer) : Inv { s with node := node } where
  queue := h.queue
  covered := hc
  role := hr
  term_le position task ht := Nat.le_trans (h.term_le position task ht) hterm
  sound thread position task hp ht :=
    (h.sound thread position task hp ht).mono hterm hcom
  answered := h.answered

variable {new : PendingTask} {thread : Fin concurrency} {answers : List (Answer size)} {index : Nat}

theorem Inv.pushTask (h : Inv s) (hterm : new.term ≤ s.node.log.currentTerm)
    (hf : new.flag = .initial) :
    Inv { s with loop := { s.loop with tasks := s.loop.tasks ++ [new] } } where
  queue := h.queue.push hf
  covered := h.covered
  role := h.role
  term_le position task ht := by
    rcases push_inv ht with ho | ⟨_, rfl⟩
    · exact h.term_le position task ho
    · exact hterm
  sound thread position task hp ht := by
    rcases push_inv ht with ho | ⟨rfl, _⟩
    · exact h.sound thread position task hp ho
    · obtain ⟨held, hh, _⟩ := h.queue.doing thread _ hp
      have hlt := (List.getElem?_eq_some_iff.mp hh).choose
      exact absurd hlt (Nat.lt_irrefl _)
  answered position task ht hd := by
    rcases push_inv ht with ho | ⟨_, rfl⟩
    · exact h.answered position task ho hd
    · rw [hf] at hd
      cases hd

theorem Inv.pop (h : Inv s) (hp : s.loop.pop = some loop) : Inv { s with loop := loop } := by
  have hq := h.queue.pop hp
  obtain ⟨task, _, hr⟩ := bind_eq_some_iff.mp hp
  split at hr
  · cases hr
    exact ⟨hq, h.covered, h.role, h.term_le, h.sound, h.answered⟩
  · cases hr

theorem Inv.reply (h : Inv s) {lastLogIndex commitIndex : Nat}
    (hcom : commitIndex ≤ s.node.commitIndex)
    (hrepl : Replied s.node s.loop thread lastLogIndex commitIndex loop answers) :
    Inv { s with loop := loop, answers := s.answers ++ answers } where
  queue := h.queue.reply hrepl
  covered := h.covered
  role := h.role
  term_le position task htask := by
    obtain ⟨old, hold, heq⟩ := hrepl.task_inv htask
    rw [heq]
    exact h.term_le position old hold
  sound other position task hpos htask := by
    obtain ⟨old, hold, heq⟩ := hrepl.task_inv htask
    rw [heq]
    refine ReplyPc.Sound.setFlag ?_
    rcases hrepl.thread_inv other with hsame | hidle | ⟨k, hwait⟩ | ⟨k, held, hk, hheld, hpc⟩
    · rw [hsame] at hpos ⊢
      exact h.sound other position old hpos hold
    · rw [hidle]
      trivial
    · rw [hwait]
      trivial
    · rw [nextPc_position hpc, hk] at hpos
      cases hpos
      rw [hold] at hheld
      cases hheld
      exact sound_nextPc (h.sound other position old hk hold) hcom hpc
  answered position task htask hdone handle hhd := by
    obtain ⟨old, hold, heq⟩ := hrepl.task_inv htask
    rw [heq] at hhd
    simp only [mem_append]
    rcases hrepl.done_inv hold htask hdone with hdone' | hnew
    · obtain ⟨answer, hmem, hans⟩ := h.answered position old hold hdone' handle hhd
      exact ⟨answer, .inl hmem, hans⟩
    · obtain ⟨answer, hmem, hans⟩ := hnew handle hhd
      exact ⟨answer, .inr hmem, hans⟩

/-- Everything a step can do. -/
inductive Changed (s : Answering size) : AnsweringAction size → Answering size → Prop
  | node (action : AnsweringAction size) (node : Node size RaftPayload Unit)
      (hadvances : Advances s.node node) : Changed s action { s with node := node }
  | truncatePrefix (firstIndexKept : Nat) (hle : firstIndexKept ≤ s.node.commitIndex) :
      Changed s (.truncatePrefix firstIndexKept)
        { s with node := { s.node with log := s.node.log.truncatePrefix firstIndexKept } }
  | pushTask (task : PendingTask) (hterm : task.term ≤ s.node.log.currentTerm) :
      Changed s (.pushTask task)
        { s with loop := { s.loop with tasks := s.loop.tasks ++ [{ task with flag := .initial }] } }
  | reply (thread : Fin concurrency) (lastLogIndex commitIndex : Nat) (loop : RaftReplyLoop)
      (answers : List (Answer size)) (hcommit : commitIndex ≤ s.node.commitIndex)
      (hreply : s.loop.reply s.node thread lastLogIndex commitIndex = some (loop, answers)) :
      Changed s (.reply thread lastLogIndex commitIndex)
        { s with loop := loop, answers := s.answers ++ answers }
  | pop (loop : RaftReplyLoop) (hpop : s.loop.pop = some loop) :
      Changed s .pop { s with loop := loop }

theorem changed_of_step (h : s.step config self action = some s') : Changed s action s' := by
  cases action with
  | raft op =>
    simp only [step] at h
    cases hres : (op.run config self s.node).result with
    | error check =>
      rw [hres] at h
      cases h
    | ok result =>
      obtain ⟨_, node⟩ := result
      rw [hres] at h
      cases h
      exact .node _ node ((Handler.advancing_op config self op).run (.of_result hres))
  | enqueueClientRequests requests =>
    cases h
    exact .node _ _ (.of_entries (Nat.le_refl _) rfl rfl rfl id)
  | truncatePrefix firstIndexKept =>
    simp only [step] at h
    split at h
    · rename_i hle
      cases h
      exact .truncatePrefix firstIndexKept hle
    · cases h
  | pushTask task =>
    simp only [step] at h
    split at h
    · rename_i hterm
      cases h
      exact .pushTask task hterm
    · cases h
  | reply thread lastLogIndex commitIndex =>
    simp only [step] at h
    split at h
    · rename_i hcom
      obtain ⟨⟨loop, answers⟩, hrep, heq⟩ := map_eq_some_iff.mp h
      cases heq
      exact .reply thread lastLogIndex commitIndex loop answers hcom hrep
    · cases h
  | pop =>
    obtain ⟨loop, hpop, heq⟩ := map_eq_some_iff.mp h
    cases heq
    exact .pop loop hpop

/-- Dropping entries up to the commit index changes neither end of what is committed. -/
theorem covered_truncatePrefix {firstIndexKept : Nat} (h : node.Covered)
    (hle : firstIndexKept ≤ node.commitIndex) :
    Node.Covered { node with log := node.log.truncatePrefix firstIndexKept } := by
  have hp := h.pos
  have hl := h.le
  unfold truncatePrefix
  split
  · exact h
  · rename_i hlt
    refine ⟨?_, ?_⟩
    · show 1 ≤ firstIndexKept
      omega
    · unfold lastLogIndex at hl ⊢
      simp only [length_drop]
      omega

theorem Inv.step (h : Inv s) (hs : s.step config self action = some s') : Inv s' := by
  cases changed_of_step hs with
  | node _ node ha =>
    exact h.setNode ha.term_le ha.commit_le (ha.covered h.covered) (ha.role h.role)
  | truncatePrefix firstIndexKept hle =>
    refine h.setNode (Nat.le_of_eq ?_) (Nat.le_refl _) (covered_truncatePrefix h.covered hle) h.role
    simp only [truncatePrefix]
    split <;> rfl
  | pushTask task ht => exact h.pushTask ht rfl
  | reply thread lastLogIndex commitIndex loop answers hc hr =>
    exact h.reply hc (replied_of_reply h.queue.running h.queue.toLoopInv hr)
  | pop loop hp => exact h.pop hp

/-- The log has the entries of all open tasks that it will have. -/
def Kept (s : Answering size) : Prop :=
  ∀ position task, s.loop.IsOpen position task → s.node.log.firstIndex ≤ task.index

theorem isOpen_push
    (h : RaftReplyLoop.IsOpen { loop with tasks := loop.tasks ++ [new] } position task) :
    loop.IsOpen position task ∨ task = new := by
  rcases push_inv h.get with ho | ⟨_, hn⟩
  · exact .inl ⟨ho, h.flag, h.undecided⟩
  · exact .inr hn

theorem Kept.step (hinv : Inv s) (h : s.Kept) (htime : s.InTime action)
    (hstep : s.step config self action = some s') : s'.Kept := by
  intro position task hopen
  cases changed_of_step hstep with
  | node _ node hadv =>
    rw [hadv.firstIndex_eq]
    exact h position task hopen
  | truncatePrefix firstIndexKept _ =>
    show (s.node.log.truncatePrefix firstIndexKept).firstIndex ≤ task.index
    unfold truncatePrefix
    split
    · exact h position task hopen
    · exact htime position task hopen
  | pushTask new _ =>
    rcases isOpen_push hopen with hold | rfl
    · exact h position task hold
    · exact htime
  | reply thread lastLogIndex commitIndex loop answers _ hrep =>
    obtain ⟨old, hold, heq⟩ := hopen.of_replied
      (replied_of_reply hinv.queue.running hinv.queue.toLoopInv hrep)
    rw [heq]
    exact h position old hold
  | pop loop hpop =>
    obtain ⟨_, _, hrun⟩ := bind_eq_some_iff.mp hpop
    split at hrun
    · cases hrun
      exact h position task { hopen with }
    · cases hrun

theorem inv_of_timely (hl : 1 ≤ log.firstIndex) (hs : (timely config self log).Reachable s) :
    Inv s ∧ s.Kept := by
  refine hs.invariant (fun s => Inv s ∧ s.Kept) ?_ ?_
  · rintro s rfl
    exact ⟨.start hl, fun _ _ ho => by cases ho.get⟩
  · rintro s s' ⟨hi, hk⟩ ⟨action, ht, hstep⟩
    exact ⟨hi.step hstep, Kept.step hi hk ht hstep⟩

theorem exists_getEntry (h : node.Covered) (hf : node.log.firstIndex ≤ index)
    (hc : index ≤ node.commitIndex) : node.log.getEntry index ≠ none := by
  have hp := h.pos
  have hle := h.le
  unfold lastLogIndex at hle
  unfold getEntry
  rw [if_neg (by omega), ne_eq, getElem?_eq_none_iff]
  omega

theorem not_assertFails (h : Inv s) (hkept : s.Kept) : ¬ s.AssertFails := by
  rintro ⟨thread, lastLogIndex, commitIndex, hbusy, hnone⟩
  obtain ⟨position, hpos⟩ : ∃ position, (s.loop.threads thread).position = some position := by
    cases hpc : s.loop.threads thread with
    | idle => exact absurd hpc hbusy
    | _ => exact ⟨_, rfl⟩
  obtain ⟨task, htask, hdoing⟩ := h.queue.doing thread position hpos
  by_cases hdec : ∃ isCommitted, s.loop.threads thread = .replying position isCommitted
  · obtain ⟨isCommitted, hpc⟩ := hdec
    simp [RaftReplyLoop.reply, hpc, htask] at hnone
  · have hund : ∀ isCommitted, s.loop.threads thread ≠ .replying position isCommitted :=
      fun isCommitted hpc => hdec ⟨isCommitted, hpc⟩
    rw [reply_eq_nextPc h.queue.running hpos htask hund, map_eq_none_iff] at hnone
    have hnot : ∀ k isCommitted, s.loop.threads thread ≠ .replying k isCommitted := by
      intro k isCommitted hpc
      rw [hpc] at hpos
      cases hpos
      exact hund isCommitted hpc
    obtain ⟨hcom, hent⟩ := nextPc_eq_none (h.sound thread position task hpos htask)
      (h.term_le position task htask) hbusy hnot hnone
    have hopen : s.loop.IsOpen position task := by
      refine ⟨htask, by simp [hdoing], fun other isCommitted hoth => ?_⟩
      have hsame : other = thread :=
        h.queue.apart other thread position (by rw [hoth]; rfl) hpos
      exact hund isCommitted (hsame ▸ hoth)
    exact exists_getEntry h.covered (hkept position task hopen) hcom hent

/-- As long as no check fails, some thread comes closer to an answer for a resolved task. -/
theorem exists_reply_step (config : Config RaftPayload) (self : Fin size) (h : Inv s)
    (hgo : ¬ s.AssertFails) (ht : s.loop.tasks[position]? = some task)
    (hf : task.flag ≠ .done) (hres : task.IsResolved s.node)
    (hfew : (s.loop.unresolvedBefore s.node position).ncard < concurrency) :
    ∃ thread s', s.step config self
        (.reply thread s.node.log.lastLogIndex s.node.commitIndex) = some s' ∧
      s'.node = s.node ∧ s'.loop.rank s.node < s.loop.rank s.node ∧
      ∃ answers, Replied s.node s.loop thread s.node.log.lastLogIndex s.node.commitIndex s'.loop
        answers := by
  obtain ⟨thread, loop, answers, hr, hlt⟩ :=
    exists_reply_lt h.queue ht hf hres hfew
      fun thread hb hn => hgo ⟨thread, _, _, hb, hn⟩
  refine ⟨thread, { s with loop := loop, answers := s.answers ++ answers }, ?_, rfl, hlt, answers,
    replied_of_reply h.queue.running h.queue.toLoopInv hr⟩
  simp [step, hr]

theorem exists_answered (config : Config RaftPayload) (self : Fin size) (h : Inv s) (hkept : s.Kept)
    (htask : s.loop.tasks[position]? = some task) (hres : task.IsResolved s.node)
    (hfew : (s.loop.unresolvedBefore s.node position).ncard < concurrency) :
    ∃ s', (replying config self).Runs s s' ∧ s'.HasAnswered position := by
  by_cases hdone : task.flag = .done
  · exact ⟨s, .refl _ _, task, htask, hdone, h.answered position task htask hdone⟩
  · refine System.Runs.exists_of_rank Nat.lt_wfRel.wf (fun s => s.loop.rank s.node)
      (fun s => (Inv s ∧ s.Kept) ∧ (∃ task, s.loop.tasks[position]? = some task ∧
        task.flag ≠ .done ∧ task.IsResolved s.node) ∧
        (s.loop.unresolvedBefore s.node position).ncard < concurrency)
      (fun s => s.HasAnswered position) ?_ ⟨⟨h, hkept⟩, ⟨task, htask, hdone, hres⟩, hfew⟩
    rintro s ⟨⟨hinv, hkept⟩, ⟨task, htask, hflag, hres⟩, hfew⟩
    obtain ⟨thread, s', hstep, hnode, hlt, answers, hrepl⟩ := exists_reply_step config self hinv
      (not_assertFails hinv hkept) htask hflag hres hfew
    refine ⟨s', ⟨thread, hstep⟩, ?_⟩
    obtain ⟨task', htask', heq⟩ := hrepl.task_of htask
    have hinv' := hinv.step hstep
    by_cases hdone : task'.flag = .done
    · exact .inl ⟨task', htask', hdone, hinv'.answered position task' htask' hdone⟩
    · have htime : s.InTime (.reply thread s.node.log.lastLogIndex s.node.commitIndex) := trivial
      refine .inr ⟨⟨⟨hinv', Kept.step hinv hkept htime hstep⟩, ⟨task', htask', hdone, ?_⟩, ?_⟩, ?_⟩
      · rw [hnode, heq]
        exact hres
      · rw [hnode]
        exact (Set.ncard_le_ncard (unresolvedBefore_of_replied hrepl)
          finite_unresolvedBefore).trans_lt hfew
      · rw [hnode]
        exact hlt

/-- The entry of an open task is gone, and its threads will look for it: the fate of all tasks is
known, and no thread has read a last index that would spare it the look. -/
structure Doomed (s : Answering size) (position : Nat) (task : PendingTask) : Prop where
  isOpen : s.loop.IsOpen position task
  gone : task.index < s.node.log.firstIndex
  committed : task.index ≤ s.node.commitIndex
  unread : ∀ thread last,
    s.loop.threads thread = .readTermAgain position s.node.log.currentTerm last →
      task.index ≤ last
  resolved : ∀ (k : Nat) (task : PendingTask), s.loop.tasks[k]? = some task →
    task.IsResolved s.node

theorem getEntry_of_lt (h : index < node.log.firstIndex) : node.log.getEntry index = none := by
  simp [getEntry, h]

theorem Doomed.replied (hinv : Inv s) (h : s.Doomed position task) (hnode : s'.node = s.node)
    (hrepl : Replied s.node s.loop thread s.node.log.lastLogIndex s.node.commitIndex s'.loop
      answers) : ∃ task', s'.Doomed position task' := by
  obtain ⟨task', hopen, heq⟩ := h.isOpen.replied hrepl (by
    intro isCommitted _ hpc
    rcases nextPc_eq_replying hpc with ⟨last, hthr, hlt⟩ | ⟨entry, hent⟩
    · exact absurd (h.unread thread last hthr) (Nat.not_le_of_lt hlt)
    · rw [getEntry_of_lt h.gone] at hent
      cases hent)
  have hidx : task'.index = task.index := by rw [heq]
  refine ⟨task', hopen, ?_, ?_, ?_, ?_⟩
  · rw [hnode, hidx]
    exact h.gone
  · rw [hnode, hidx]
    exact h.committed
  · intro other last hoth
    rw [hnode] at hoth
    rw [hidx]
    rcases hrepl.thread_inv other with hsame | hidle | ⟨k, hwait⟩ | ⟨k, held, _, _, hpc⟩
    · rw [hsame] at hoth
      exact h.unread other last hoth
    · rw [hidle] at hoth
      cases hoth
    · rw [hwait] at hoth
      cases hoth
    · rw [hoth] at hpc
      rw [nextPc_eq_readTermAgain hpc]
      exact Nat.le_trans h.committed hinv.covered.le
  · intro k held hheld
    obtain ⟨old, hold, hsame⟩ := hrepl.task_inv hheld
    rw [hnode, hsame]
    exact h.resolved k old hold

theorem Doomed.exists_assertFails (config : Config RaftPayload) (self : Fin size)
    (log : Log size RaftPayload) (hi : Inv s) (h : s.Doomed position task) :
    ∃ s', (timely config self log).Runs s s' ∧ s'.AssertFails := by
  by_cases hf : s.AssertFails
  · exact ⟨s, .refl _ _, hf⟩
  · refine System.Runs.exists_of_rank Nat.lt_wfRel.wf (fun s => s.loop.rank s.node)
      (fun s => Inv s ∧ ¬ s.AssertFails ∧ ∃ task, s.Doomed position task) AssertFails ?_
      ⟨hi, hf, task, h⟩
    rintro s ⟨hi, hgo, task, h⟩
    have hnone : s.loop.unresolvedBefore s.node position = ∅ := by
      refine Set.eq_empty_of_forall_notMem ?_
      rintro k ⟨_, held, hh, hu⟩
      exact hu (h.resolved k held hh.get)
    obtain ⟨thread, s', hs, hn, hlt, answers, hr⟩ := exists_reply_step config self hi
      hgo h.isOpen.get h.isOpen.flag (h.resolved position task h.isOpen.get) (by simp [hnone])
    have ht : s.InTime (.reply thread s.node.log.lastLogIndex s.node.commitIndex) := trivial
    refine ⟨s', ⟨_, ht, hs⟩, ?_⟩
    by_cases hf : s'.AssertFails
    · exact .inl hf
    · refine .inr ⟨⟨hi.step hs, hf, h.replied hi hn hr⟩, ?_⟩
      rw [hn]
      exact hlt

/-- Once the entry of an open task is gone, raft may commit all it has in a new term, and then a
check fails. -/
theorem exists_assertFails_of_gone (config : Config RaftPayload) (self : Fin size)
    (log : Log size RaftPayload) (hinv : Inv s) (hopen : s.loop.IsOpen position task)
    (hgone : task.index < s.node.log.firstIndex) :
    ∃ s', (timely config self log).Runs s s' ∧ s'.AssertFails := by
  obtain ⟨op, node, hres, hterm, hlast, hcom⟩ :=
    Handler.exists_commitAll config self self hinv.role hinv.covered
  have hadv := (Handler.advancing_op config self op).run (.of_result hres)
  have hstep : s.step config self (.raft op) = some { s with node := node } := by
    simp [step, hres]
  have hfst : s.node.log.firstIndex ≤ s.node.log.lastLogIndex + 1 := by
    unfold lastLogIndex
    omega
  have hdoom : Doomed { s with node := node } position task := by
    refine ⟨hopen, ?_, ?_, ?_, ?_⟩
    · rw [hadv.firstIndex_eq]
      exact hgone
    · rw [hcom]
      omega
    · intro thread last hthr
      have hthr : s.loop.threads thread = .readTermAgain position node.log.currentTerm last :=
        hthr
      have hsnd := hinv.sound thread position task (by rw [hthr]; rfl) hopen.get
      rw [hthr] at hsnd
      have hle : node.log.currentTerm ≤ s.node.log.currentTerm := hsnd
      omega
    · intro k held hheld
      have hhel := hinv.term_le k held hheld
      show held.index ≤ node.commitIndex ∨
        (node.log.lastLogIndex < held.index ∧ held.term < node.log.currentTerm)
      omega
  obtain ⟨s', hruns, hfail⟩ := hdoom.exists_assertFails config self log (hinv.step hstep)
  have htime : s.InTime (.raft op) := trivial
  have hone : (timely config self log).step s { s with node := node } := ⟨_, htime, hstep⟩
  exact ⟨s', (System.Runs.step hone).trans hruns, hfail⟩

/-- A step that is not in time leaves an open task without its entry. -/
theorem exists_gone (hinv : Inv s) (hkept : s.Kept) (hlate : ¬ s.InTime action)
    (hstep : s.step config self action = some s') :
    ∃ position task, s'.loop.IsOpen position task ∧ task.index < s'.node.log.firstIndex := by
  cases action with
  | raft op | enqueueClientRequests requests => exact absurd trivial hlate
  | reply thread lastLogIndex commitIndex | pop => exact absurd trivial hlate
  | truncatePrefix firstIndexKept =>
    simp only [InTime, not_forall] at hlate
    obtain ⟨position, task, hopen, hlt⟩ := hlate
    have hfst := hkept position task hopen
    simp only [step] at hstep
    split at hstep
    · cases hstep
      refine ⟨position, task, hopen, ?_⟩
      show task.index < (s.node.log.truncatePrefix firstIndexKept).firstIndex
      unfold truncatePrefix
      rw [if_neg (by omega)]
      exact Nat.lt_of_not_le hlt
    · cases hstep
  | pushTask task =>
    simp only [step] at hstep
    split at hstep
    · cases hstep
      refine ⟨s.loop.tasks.length, { task with flag := .initial }, ⟨?_, by simp, ?_⟩,
        Nat.lt_of_not_le hlate⟩
      · exact getElem?_concat_length
      · intro thread isCommitted hthr
        have hthr : s.loop.threads thread = .replying s.loop.tasks.length isCommitted := hthr
        obtain ⟨held, hheld, _⟩ := hinv.queue.doing thread s.loop.tasks.length (by rw [hthr]; rfl)
        rw [getElem?_length] at hheld
        cases hheld
    · cases hstep

/-- No check of the reply threads fails while all steps are in time, and a task is answered once
its fate is known and the tasks before it leave a thread for it. After a step that is not in time,
the log may go on such that a check fails, though all later steps are in time. -/
theorem replies_survive_truncation_iff (config : Config RaftPayload) (self : Fin size)
    (hlog : 1 ≤ log.firstIndex) (hs : (timely config self log).Reachable s) :
    ¬ s.AssertFails ∧
    (∀ position task, s.loop.tasks[position]? = some task → task.IsResolved s.node →
      (s.loop.unresolvedBefore s.node position).ncard < concurrency →
        ∃ s', (replying config self).Runs s s' ∧ s'.HasAnswered position) ∧
    ∀ action s', s.step config self action = some s' →
      ((∀ s'', (timely config self log).Runs s' s'' → ¬ s''.AssertFails) ↔ s.InTime action) := by
  obtain ⟨hinv, hkept⟩ := inv_of_timely hlog hs
  refine ⟨not_assertFails hinv hkept, ?_, ?_⟩
  · intro position task htask hres hfew
    exact exists_answered config self hinv hkept htask hres hfew
  · intro action s' hstep
    constructor
    · intro hsafe
      by_contra hlate
      obtain ⟨position, task, hopen, hgone⟩ := exists_gone hinv hkept hlate hstep
      obtain ⟨s'', hruns, hfail⟩ :=
        exists_assertFails_of_gone config self log (hinv.step hstep) hopen hgone
      exact hsafe s'' hruns hfail
    · intro htime s'' hruns
      have hone : (timely config self log).step s s' := ⟨action, htime, hstep⟩
      obtain ⟨first, hinit, hpre⟩ := hs
      have hs'' : (timely config self log).Reachable s'' :=
        ⟨first, hinit, hpre.trans ((System.Runs.step hone).trans hruns)⟩
      obtain ⟨hinv'', hkept''⟩ := inv_of_timely hlog hs''
      exact not_assertFails hinv'' hkept''

def sampleTask (index handle : Nat) : PendingTask where
  index := index
  term := 1
  code := 200
  message := "Success"
  handle := some handle
  command := createCash
  snapshot := ∅
  machine := {}
  entry := none

theorem id_pos_samplePayload : (0 : UInt64) < 1 := by decide

def samplePayload : RaftPayload := ⟨1, .createAccount none, [], id_pos_samplePayload⟩

def sampleRequest (index : Nat) : ClientRequest RaftPayload Unit :=
  ⟨⟨1, index, false, samplePayload⟩, none⟩

/-- A leader commits three entries, and clients wait for the last two. -/
def soloWaits : List (AnsweringAction 1) :=
  [ .raft .electionTimeout, .raft (.becomeLeader samplePayload),
    .enqueueClientRequests [sampleRequest 2, sampleRequest 3],
    .raft .receiveClientRequests,
    .raft .advanceCommitIndex,
    .pushTask (sampleTask 2 5),
    .pushTask (sampleTask 3 6) ]

/-- A thread answers the first task before its entry is dropped. -/
theorem exec_soloInTime : (System.exec (System.guardStep InTime (step soloConfig 0)) (start empty)
      (soloWaits ++ replicate 8 (.reply 0 3 3) ++ [.truncatePrefix 3])).map (fun s =>
        (s.node.log.firstIndex, s.node.commitIndex, s.loop.tasks.map fun task =>
          (task.index, task.flag))) = some (3, 3, [(2, .done), (3, .initial)]) := by
  decide +kernel

/-- The thread has found its entry committed when the entry is dropped. -/
theorem exec_soloTooEarly : (System.exec (step soloConfig 0) (start empty)
      (soloWaits ++ replicate 6 (.reply 0 3 3) ++ [.truncatePrefix 3])).map (fun s =>
        (s.loop.threads 0, (s.loop.reply s.node 0 3 3).isNone, s.node.commitIndex)) =
      some (.readEntry 0, true, 3) := by
  decide +kernel

theorem replies_survive_truncation_solo :
    ∃ s s' : Answering 1, (timely soloConfig 0 empty).Reachable s ∧
      s.node.log.firstIndex = 3 ∧ ¬ s.AssertFails ∧
      (replying soloConfig 0).Runs s s' ∧ s'.HasAnswered 1 := by
  obtain ⟨s, hexec, hfct⟩ := map_eq_some_iff.mp exec_soloInTime
  simp only [Prod.mk.injEq] at hfct
  obtain ⟨hfst, hcom, htsk⟩ := hfct
  have hs : (timely soloConfig 0 empty).Reachable s :=
    ⟨start empty, rfl, System.guarded_runs_of_exec hexec⟩
  obtain ⟨hsafe, hanswers, -⟩ :=
    replies_survive_truncation_iff soloConfig 0 (Nat.le_refl 1 : 1 ≤ (empty).firstIndex) hs
  have hget : ∀ k : Nat, s.loop.tasks[k]?.map (fun task => (task.index, task.flag)) =
      [(2, TaskFlag.done), (3, TaskFlag.initial)][k]? := by
    intro k
    rw [← htsk, getElem?_map]
  obtain ⟨task, htask, heq⟩ := map_eq_some_iff.mp (hget 1)
  have hidx : task.index = 3 := congrArg Prod.fst heq
  have hnone : s.loop.unresolvedBefore s.node 1 = ∅ := by
    refine Set.eq_empty_of_forall_notMem ?_
    rintro k ⟨hk, held, hopen, -⟩
    have hzero : k = 0 := by omega
    subst hzero
    have hheld := hget 0
    rw [hopen.get] at hheld
    exact hopen.flag (congrArg Prod.snd (some.inj hheld))
  obtain ⟨s', hruns, hans⟩ := hanswers 1 task htask (.inl (by omega)) (by simp [hnone])
  exact ⟨s, s', hs, hfst, hsafe, hruns, hans⟩

/-- The first task is open when its entry is dropped, which is committed. -/
theorem truncation_fails_reply : ∃ s : Answering 1, (system soloConfig 0 empty).Reachable s ∧
      s.loop.threads 0 = .readEntry 0 ∧ s.node.commitIndex = 3 ∧ s.AssertFails := by
  obtain ⟨s, he, hf⟩ := map_eq_some_iff.mp exec_soloTooEarly
  simp only [Prod.mk.injEq, isNone_iff_eq_none] at hf
  obtain ⟨ht, hn, hc⟩ := hf
  refine ⟨s, ⟨start empty, rfl, System.runs_of_exec he⟩, ht, hc, 0, 3, 3, ?_, hn⟩
  simp [ht]

end Answering

end MySuperLedger.Replica
