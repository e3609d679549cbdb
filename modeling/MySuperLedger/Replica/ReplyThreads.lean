import Mathlib.Algebra.Order.BigOperators.Group.Finset
import Mathlib.Data.Set.Card
import Mathlib.Order.Interval.Finset.Nat
import MySuperLedger.Replica.Replies

/-! # How reply threads get on

A thread within a task goes from one reading to the next until it knows how to
answer. Tasks are taken in the order of the queue. As long as raft stands still
and the fate of the tasks is known, each step brings a thread closer to an
answer.
-/

namespace MySuperLedger.Replica

open Raft List Option RaftReplyLoop

variable {size : Nat}

/-- The entry at the index of the task is committed, or the log of a later term ends before. -/
def PendingTask.IsResolved (task : PendingTask) (node : Node size RaftPayload Unit) : Prop :=
  task.index ≤ node.commitIndex ∨
    (node.log.lastLogIndex < task.index ∧ task.term < node.log.currentTerm)

section

variable {node : Node size RaftPayload Unit} {loop loop' : RaftReplyLoop} {task : PendingTask}
  {thread : Fin concurrency} {position lastLogIndex commitIndex : Nat} {pc pc' : ReplyPc}
  {answers : List (Answer size)}

/-- Where a thread goes from within its task; `none` if a check fails. -/
def nextPc (node : Node size RaftPayload Unit) (task : PendingTask)
    (lastLogIndex commitIndex : Nat) : ReplyPc → Option ReplyPc
  | .idle => none
  | .waiting position => some (.readTerm position)
  | .readTerm position => some (.readLastLogIndex position node.log.currentTerm)
  | .readLastLogIndex position term1 => some (.readTermAgain position term1 lastLogIndex)
  | .readTermAgain position term1 lastLogIndex =>
    if node.log.currentTerm ≠ term1 then some (.readTerm position)
    else if task.term ≤ term1 then
      some (if lastLogIndex < task.index ∧ task.term < term1 then .replying position false
        else .readCommitIndex position)
    else none
  | .readCommitIndex position =>
    some (if commitIndex < task.index then .waiting position else .readEntry position)
  | .readEntry position =>
    if task.index ≤ node.commitIndex then
      (node.log.getEntry task.index).map fun entry =>
        .replying position (entry.term = task.term)
    else none
  | .replying _ _ => none

theorem reply_eq_nextPc (hrun : loop.running = true)
    (hpos : (loop.threads thread).position = some position)
    (htask : loop.tasks[position]? = some task)
    (hdec : ∀ isCommitted, loop.threads thread ≠ .replying position isCommitted) :
    loop.reply node thread lastLogIndex commitIndex =
      (nextPc node task lastLogIndex commitIndex (loop.threads thread)).map fun pc =>
        (loop.setPc thread pc, []) := by
  unfold reply nextPc
  cases hpc : loop.threads thread with
  | idle =>
    rw [hpc] at hpos
    cases hpos
  | replying p isCommitted =>
    rw [hpc] at hpos
    cases hpos
    exact absurd hpc (hdec isCommitted)
  | waiting p => simp [hrun]
  | readTerm p | readLastLogIndex p term1 => rfl
  | readTermAgain p term1 last =>
    rw [hpc] at hpos
    cases hpos
    simp only [htask, bind_some]
    split
    · rfl
    · split <;> rfl
  | readCommitIndex p =>
    rw [hpc] at hpos
    cases hpos
    simp [htask]
  | readEntry p =>
    rw [hpc] at hpos
    cases hpos
    simp only [htask, bind_some]
    split
    · cases node.log.getEntry task.index <;> rfl
    · rfl

theorem nextPc_position (h : nextPc node task lastLogIndex commitIndex pc = some pc') :
    pc'.position = pc.position := by
  unfold nextPc at h
  cases pc with
  | readTermAgain p term1 last =>
    dsimp only at h
    split at h
    · cases h
      rfl
    · split at h
      · cases h
        split <;> rfl
      · cases h
  | readCommitIndex p =>
    cases h
    split <;> rfl
  | readEntry p =>
    dsimp only at h
    split at h
    · obtain ⟨entry, _, rfl⟩ := map_eq_some_iff.mp h
      rfl
    · cases h
  | idle | replying p isCommitted => cases h
  | waiting p | readTerm p | readLastLogIndex p term1 =>
    cases h
    rfl

/-- What a thread does: it takes the next task, goes on with its own, or answers. -/
inductive Replied (node : Node size RaftPayload Unit) (loop : RaftReplyLoop)
    (thread : Fin concurrency) (lastLogIndex commitIndex : Nat) :
    RaftReplyLoop → List (Answer size) → Prop
  | takes (position : Nat) (task : PendingTask) (hidle : loop.threads thread = .idle)
      (hnext : loop.nextTask = some position) (htask : loop.tasks[position]? = some task)
      (hflag : task.flag = .initial) :
      Replied node loop thread lastLogIndex commitIndex
        ((loop.setFlag position .doing).setPc thread (.waiting position)) []
  | goesOn (position : Nat) (task : PendingTask) (pc : ReplyPc)
      (hposition : (loop.threads thread).position = some position)
      (htask : loop.tasks[position]? = some task) (hflag : task.flag = .doing)
      (hpc : nextPc node task lastLogIndex commitIndex (loop.threads thread) = some pc) :
      Replied node loop thread lastLogIndex commitIndex (loop.setPc thread pc) []
  | finishes (position : Nat) (isCommitted : Bool) (task : PendingTask)
      (hpc : loop.threads thread = .replying position isCommitted)
      (htask : loop.tasks[position]? = some task) :
      Replied node loop thread lastLogIndex commitIndex
        ((loop.setFlag position .done).setPc thread .idle) (task.answers node isCommitted)

theorem replied_of_reply (hr : loop.running = true) (hinv : LoopInv loop)
    (h : loop.reply node thread lastLogIndex commitIndex = some (loop', answers)) :
    Replied node loop thread lastLogIndex commitIndex loop' answers := by
  cases hp : (loop.threads thread).position with
  | none =>
    have hi : loop.threads thread = .idle := by
      cases hpc : loop.threads thread <;> simp_all [ReplyPc.position]
    simp only [reply, hi, hr, if_true] at h
    obtain ⟨position, hn, heq⟩ := map_eq_some_iff.mp h
    cases heq
    obtain ⟨task, ht, hf⟩ := nextTask_inv hn
    exact .takes position task hi hn ht hf
  | some position =>
    obtain ⟨task, ht, hf⟩ := hinv.doing thread position hp
    by_cases hd : ∃ isCommitted, loop.threads thread = .replying position isCommitted
    · obtain ⟨isCommitted, hpc⟩ := hd
      simp only [reply, hpc, ht, map_some, some.injEq] at h
      cases h
      exact .finishes position isCommitted task hpc ht
    · have hnot : ∀ isCommitted, loop.threads thread ≠ .replying position isCommitted :=
        fun isCommitted hpc => hd ⟨isCommitted, hpc⟩
      rw [reply_eq_nextPc hr hp ht hnot] at h
      obtain ⟨pc, hpc, heq⟩ := map_eq_some_iff.mp h
      cases heq
      exact .goesOn position task pc hp ht hf hpc

variable {k : Nat} {task' : PendingTask}

theorem setFlag_inv {flag : TaskFlag} (h : (loop.setFlag position flag).tasks[k]? = some task') :
    ∃ task, loop.tasks[k]? = some task ∧
      task' = if position = k then { task with flag := flag } else task := by
  rw [getElem?_setFlag] at h
  split at h
  · rename_i heq
    obtain ⟨task, ht, rfl⟩ := map_eq_some_iff.mp h
    exact ⟨task, ht, by rw [if_pos heq]⟩
  · next hne => exact ⟨task', h, by rw [if_neg hne]⟩

theorem nextTask_first (hnext : loop.nextTask = some position) (hp : loop.popped ≤ k)
    (hlt : k < position) (ht : loop.tasks[k]? = some task) : task.flag ≠ .initial := by
  obtain ⟨n, hn, rfl⟩ := map_eq_some_iff.mp hnext
  obtain ⟨_, _, hb⟩ := findIdx?_eq_some_iff_getElem.mp hn
  have hk : k - loop.popped < n := by omega
  have hg : (loop.tasks.drop loop.popped)[k - loop.popped]? = some task := by
    rw [getElem?_drop, Nat.add_sub_cancel' hp]
    exact ht
  obtain ⟨hl, hg⟩ := List.getElem?_eq_some_iff.mp hg
  have hf := hb (k - loop.popped) hk
  simpa [hg] using hf

theorem exists_nextTask (hp : loop.popped ≤ k) (ht : loop.tasks[k]? = some task)
    (hf : task.flag = .initial) : ∃ position, loop.nextTask = some position ∧ position ≤ k := by
  have hg : (loop.tasks.drop loop.popped)[k - loop.popped]? = some task := by
    rw [getElem?_drop, Nat.add_sub_cancel' hp]
    exact ht
  have hs : ((loop.tasks.drop loop.popped).findIdx? fun task =>
      task.flag = .initial).isSome = true := by
    rw [List.findIdx?_isSome, List.any_eq_true]
    exact ⟨task, List.mem_of_getElem? hg, by simpa using hf⟩
  obtain ⟨n, hn⟩ := isSome_iff_exists.mp hs
  have hnext : loop.nextTask = some (loop.popped + n) := by
    unfold nextTask
    rw [hn]
    rfl
  refine ⟨loop.popped + n, hnext, ?_⟩
  by_contra hlt
  exact nextTask_first hnext hp (by omega) ht hf

/-- Tasks are taken one after the other, and those that were taken are worked on or done. -/
structure QueueInv (loop : RaftReplyLoop) : Prop extends LoopInv loop where
  running : loop.running = true
  held : ∀ (position : Nat) (task : PendingTask), loop.tasks[position]? = some task →
    task.flag = .doing → ∃ thread, (loop.threads thread).position = some position
  inOrder : ∀ (position position' : Nat) (task task' : PendingTask),
    loop.tasks[position]? = some task → loop.tasks[position']? = some task' →
    position ≤ position' → task.flag = .initial → task'.flag = .initial
  popped_le : loop.popped ≤ loop.tasks.length
  popped : ∀ (position : Nat) (task : PendingTask), position < loop.popped →
    loop.tasks[position]? = some task → task.flag = .done

namespace QueueInv

theorem empty : QueueInv {} where
  toLoopInv := LoopInv.empty
  running := rfl
  held := by simp
  inOrder := by simp
  popped_le := le_rfl
  popped := by simp

section

variable (h : QueueInv loop)
include h

theorem push {new : PendingTask} (hflag : new.flag = .initial) :
    QueueInv { loop with tasks := loop.tasks ++ [new] } where
  toLoopInv := h.toLoopInv.push [new]
  running := h.running
  held position task htask hdoing := by
    rcases push_inv htask with hold | ⟨_, rfl⟩
    · exact h.held position task hold hdoing
    · rw [hflag] at hdoing
      cases hdoing
  inOrder position position' task task' htask htask' hle hinit := by
    rcases push_inv htask' with hold' | ⟨_, rfl⟩
    · rcases push_inv htask with hold | ⟨rfl, _⟩
      · exact h.inOrder position position' task task' hold hold' hle hinit
      · have hlt := (List.getElem?_eq_some_iff.mp hold').choose
        omega
    · exact hflag
  popped_le := by
    have hle := h.popped_le
    simp only [length_append]
    omega
  popped position task hlt htask := by
    have hle := h.popped_le
    rcases push_inv htask with hold | ⟨rfl, _⟩
    · exact h.popped position task hlt hold
    · simp only at hlt
      omega

theorem goesOn (hpc : pc.position = (loop.threads thread).position) :
    QueueInv (loop.setPc thread pc) where
  toLoopInv := h.toLoopInv.goOn hpc
  running := h.running
  held position task ht hd := by
    obtain ⟨other, ho⟩ := h.held position task ht hd
    refine ⟨other, ?_⟩
    rw [setPc_threads]
    split
    · next heq => rw [hpc, ← heq, ho]
    · exact ho
  inOrder := h.inOrder
  popped_le := h.popped_le
  popped := h.popped

theorem setsFlag {flag : TaskFlag} (hl : LoopInv ((loop.setFlag position flag).setPc thread pc))
    (hne : flag ≠ .initial) (hpc : flag = .doing → pc.position = some position)
    (hth : ∀ k, position ≠ k → (loop.threads thread).position ≠ some k)
    (hb : ∀ k old, loop.tasks[k]? = some old → k < position → old.flag ≠ .initial)
    (hpop : position < loop.popped → flag = .done) :
    QueueInv ((loop.setFlag position flag).setPc thread pc) where
  toLoopInv := hl
  running := h.running
  held k task' htask' hdoing := by
    obtain ⟨old, hold, heq⟩ := setFlag_inv htask'
    by_cases hk : position = k
    · rw [heq, if_pos hk] at hdoing
      exact ⟨thread, by rw [setPc_threads, if_pos rfl, hpc hdoing, hk]⟩
    · rw [heq, if_neg hk] at hdoing
      obtain ⟨other, hoth⟩ := h.held k old hold hdoing
      refine ⟨other, ?_⟩
      rw [setPc_threads]
      split
      · next hthr => exact absurd (hthr ▸ hoth) (hth k hk)
      · exact hoth
  inOrder k k' task' task'' htask' htask'' hle hinit := by
    obtain ⟨old, hold, heq⟩ := setFlag_inv htask'
    obtain ⟨old', hold', heq'⟩ := setFlag_inv htask''
    by_cases hk : position = k
    · rw [heq, if_pos hk] at hinit
      exact absurd hinit hne
    · rw [heq, if_neg hk] at hinit
      have hlate := h.inOrder k k' old old' hold hold' hle hinit
      by_cases hk' : position = k'
      · exact absurd hinit (hb k old hold (by omega))
      · rw [heq', if_neg hk']
        exact hlate
  popped_le := by
    simp only [setPc, setFlag, length_modify]
    exact h.popped_le
  popped k task' hlt htask' := by
    obtain ⟨old, hold, heq⟩ := setFlag_inv htask'
    rw [heq]
    split
    · next hk => exact hpop (hk ▸ hlt)
    · exact h.popped k old hlt hold

theorem popped_le_of_initial (ht : loop.tasks[position]? = some task)
    (hf : task.flag = .initial) : loop.popped ≤ position := by
  by_contra hlt
  rw [h.popped position task (by omega) ht] at hf
  cases hf

theorem takes (hidle : loop.threads thread = .idle)
    (hnext : loop.nextTask = some position) (htask : loop.tasks[position]? = some task)
    (hflag : task.flag = .initial) :
    QueueInv ((loop.setFlag position .doing).setPc thread (.waiting position)) := by
  refine h.setsFlag (h.toLoopInv.take thread htask hflag) (by simp) (fun _ => rfl) ?_ ?_ ?_
  · intro k _ hk
    rw [hidle] at hk
    cases hk
  · -- nothing that is left stands before the task that was taken
    intro k old hold hlt hinit
    exact nextTask_first hnext (h.popped_le_of_initial hold hinit) hlt hold hinit
  · intro hlt
    have hle := h.popped_le_of_initial htask hflag
    omega

theorem finishes (hpos : (loop.threads thread).position = some position) :
    QueueInv ((loop.setFlag position .done).setPc thread .idle) := by
  refine h.setsFlag (h.toLoopInv.finish hpos) (by simp) (by simp) ?_ ?_ fun _ => rfl
  · intro k hk heq
    rw [hpos] at heq
    exact hk (some.inj heq)
  · intro k old hold hlt hinit
    obtain ⟨doing, hget, hflag⟩ := h.doing thread position hpos
    rw [h.inOrder k position old doing hold hget hlt.le hinit] at hflag
    cases hflag

theorem pop (hp : loop.pop = some loop') : QueueInv loop' := by
  obtain ⟨task, ht, hr⟩ := bind_eq_some_iff.mp hp
  split at hr
  · rename_i hd
    cases hr
    have hl := (List.getElem?_eq_some_iff.mp ht).choose
    refine ⟨⟨h.doing, h.apart⟩, h.running, h.held, h.inOrder, hl, ?_⟩
    intro position task' hlt ht'
    rcases Nat.lt_succ_iff_lt_or_eq.mp hlt with hlt | heq
    · exact h.popped position task' hlt ht'
    · rw [heq, ht] at ht'
      cases ht'
      exact hd.2
  · cases hr

end

end QueueInv

theorem QueueInv.reply (h : QueueInv loop)
    (hr : Replied node loop thread lastLogIndex commitIndex loop' answers) : QueueInv loop' := by
  cases hr with
  | takes position task hi hn ht hf => exact h.takes hi hn ht hf
  | goesOn position task pc hp _ _ hpc =>
    exact h.goesOn (nextPc_position hpc)
  | finishes position isCommitted task hpc _ =>
    exact h.finishes (by rw [hpc]; rfl)

section

variable (hrepl : Replied node loop thread lastLogIndex commitIndex loop' answers)
include hrepl

theorem Replied.task_inv (ht' : loop'.tasks[k]? = some task') :
    ∃ task, loop.tasks[k]? = some task ∧ task' = { task with flag := task'.flag } := by
  have hf : ∀ {position : Nat} {flag : TaskFlag},
      (loop.setFlag position flag).tasks[k]? = some task' →
      ∃ task, loop.tasks[k]? = some task ∧ task' = { task with flag := task'.flag } := by
    intro position flag hg
    obtain ⟨old, ho, heq⟩ := setFlag_inv hg
    refine ⟨old, ho, ?_⟩
    rw [heq]
    split <;> rfl
  cases hrepl with
  | takes position => exact hf ht'
  | goesOn => exact ⟨task', ht', rfl⟩
  | finishes position => exact hf ht'

theorem Replied.task_of (ht : loop.tasks[k]? = some task) :
    ∃ task', loop'.tasks[k]? = some task' ∧ task' = { task with flag := task'.flag } := by
  have hf : ∀ (position : Nat) (flag : TaskFlag), ∃ task',
      (loop.setFlag position flag).tasks[k]? = some task' ∧
        task' = { task with flag := task'.flag } := by
    intro position flag
    refine ⟨if position = k then { task with flag := flag } else task, ?_, ?_⟩
    · rw [getElem?_setFlag, ht]
      split <;> rfl
    · split <;> rfl
  cases hrepl with
  | takes position => exact hf position .doing
  | goesOn => exact ⟨task, ht, rfl⟩
  | finishes position => exact hf position .done

/-- Another thread stays where it is; this one takes a task, goes on or is done with its task. -/
theorem Replied.thread_inv (other : Fin concurrency) :
    loop'.threads other = loop.threads other ∨ loop'.threads other = .idle ∨
      (∃ position, loop'.threads other = .waiting position) ∨
      ∃ position task, (loop.threads other).position = some position ∧
        loop.tasks[position]? = some task ∧
        nextPc node task lastLogIndex commitIndex (loop.threads other) =
          some (loop'.threads other) := by
  by_cases ho : other = thread
  · subst ho
    cases hrepl with
    | takes position =>
      exact .inr (.inr (.inl ⟨position, by rw [setPc_threads, if_pos rfl]⟩))
    | goesOn position task pc hp ht _ hpc =>
      refine .inr (.inr (.inr ⟨position, task, hp, ht, ?_⟩))
      rw [setPc_threads, if_pos rfl]
      exact hpc
    | finishes position => exact .inr (.inl (by rw [setPc_threads, if_pos rfl]))
  · left
    cases hrepl <;> rw [setPc_threads, if_neg ho] <;> rfl

theorem Replied.done_inv
    (htask : loop.tasks[k]? = some task) (htask' : loop'.tasks[k]? = some task')
    (hdone : task'.flag = .done) :
    task.flag = .done ∨
      ∀ handle, task.handle = some handle → ∃ answer ∈ answers, answer.handle = handle := by
  cases hrepl with
  | takes position =>
    obtain ⟨old, hold, heq⟩ := setFlag_inv htask'
    rw [htask] at hold
    cases hold
    split at heq
    · rw [heq] at hdone
      cases hdone
    · exact .inl (heq ▸ hdone)
  | goesOn =>
    have hsame : task = task' := some.inj (htask.symm.trans htask')
    exact .inl (hsame ▸ hdone)
  | finishes position isCommitted held hpc hheld =>
    obtain ⟨old, hold, heq⟩ := setFlag_inv htask'
    rw [htask] at hold
    cases hold
    split at heq
    · rename_i hk
      rw [hk, htask] at hheld
      cases hheld
      refine .inr fun handle hhd => ?_
      simp [PendingTask.answers, hhd]
    · exact .inl (heq ▸ hdone)

end

/-- What a thread has read is not ahead of raft. -/
def ReplyPc.Sound (node : Node size RaftPayload Unit) (task : PendingTask) : ReplyPc → Prop
  | .readLastLogIndex _ term1 => term1 ≤ node.log.currentTerm
  | .readTermAgain _ term1 _ => term1 ≤ node.log.currentTerm
  | .readEntry _ => task.index ≤ node.commitIndex
  | .idle | .waiting _ | .readTerm _ | .readCommitIndex _ | .replying _ _ => True

section

variable (h : pc.Sound node task)
include h

theorem ReplyPc.Sound.mono {node' : Node size RaftPayload Unit}
    (ht : node.log.currentTerm ≤ node'.log.currentTerm)
    (hc : node.commitIndex ≤ node'.commitIndex) : pc.Sound node' task := by
  cases pc with
  | readLastLogIndex p term1 | readTermAgain p term1 last => exact Nat.le_trans h ht
  | readEntry p => exact Nat.le_trans h hc
  | _ => trivial

theorem ReplyPc.Sound.setFlag {flag : TaskFlag} : pc.Sound node { task with flag := flag } := by
  cases pc <;> exact h

theorem sound_nextPc (hcom : commitIndex ≤ node.commitIndex)
    (hpc : nextPc node task lastLogIndex commitIndex pc = some pc') : pc'.Sound node task := by
  unfold nextPc at hpc
  cases pc with
  | idle | replying p isCommitted => cases hpc
  | waiting p =>
    cases hpc
    trivial
  | readTerm p =>
    cases hpc
    exact Nat.le_refl _
  | readLastLogIndex p term1 =>
    cases hpc
    exact h
  | readTermAgain p term1 last =>
    dsimp only at hpc
    split at hpc
    · cases hpc
      trivial
    · split at hpc
      · cases hpc
        split <;> trivial
      · cases hpc
  | readCommitIndex p =>
    cases hpc
    split
    · trivial
    · next hle => exact Nat.le_trans (Nat.le_of_not_lt hle) hcom
  | readEntry p =>
    dsimp only at hpc
    split at hpc
    · obtain ⟨entry, _, rfl⟩ := map_eq_some_iff.mp hpc
      trivial
    · cases hpc

/-- The only check that can fail is the one that the entry is there. -/
theorem nextPc_eq_none (ht : task.term ≤ node.log.currentTerm)
    (hi : pc ≠ .idle) (hd : ∀ position isCommitted, pc ≠ .replying position isCommitted)
    (hn : nextPc node task lastLogIndex commitIndex pc = none) :
    task.index ≤ node.commitIndex ∧ node.log.getEntry task.index = none := by
  unfold nextPc at hn
  cases pc with
  | idle => exact absurd rfl hi
  | replying p isCommitted => exact absurd rfl (hd p isCommitted)
  | waiting p | readTerm p | readLastLogIndex p term1 => cases hn
  | readTermAgain p term1 last =>
    dsimp only at hn
    split at hn
    · cases hn
    · rename_i hs
      rw [if_pos (by omega)] at hn
      cases hn
  | readCommitIndex p => cases hn
  | readEntry p =>
    have hle : task.index ≤ node.commitIndex := h
    dsimp only at hn
    rw [if_pos hle, map_eq_none_iff] at hn
    exact ⟨hle, hn⟩

end

/-- A thread decides on what it has read in one term, or on the entry. -/
theorem nextPc_eq_replying {isCommitted : Bool}
    (h : nextPc node task lastLogIndex commitIndex pc = some (.replying position isCommitted)) :
    (∃ last, pc = .readTermAgain position node.log.currentTerm last ∧ last < task.index) ∨
      ∃ entry, node.log.getEntry task.index = some entry := by
  unfold nextPc at h
  cases pc with
  | idle | replying p decided | waiting p | readTerm p | readLastLogIndex p term1 => cases h
  | readTermAgain p term1 last =>
    dsimp only at h
    split at h
    · cases h
    · rename_i hsame
      split at h
      · split at h
        · rename_i hlt
          cases h
          rw [Decidable.not_not.mp hsame]
          exact .inl ⟨last, rfl, hlt.1⟩
        · cases h
      · cases h
  | readCommitIndex p =>
    dsimp only at h
    split at h <;> cases h
  | readEntry p =>
    dsimp only at h
    split at h
    · obtain ⟨entry, hent, _⟩ := map_eq_some_iff.mp h
      exact .inr ⟨entry, hent⟩
    · cases h

theorem nextPc_eq_readTermAgain {term1 last : Nat}
    (h : nextPc node task lastLogIndex commitIndex pc =
      some (.readTermAgain position term1 last)) : last = lastLogIndex := by
  unfold nextPc at h
  cases pc with
  | readLastLogIndex p term =>
    cases h
    rfl
  | readTermAgain p term last' =>
    dsimp only at h
    split at h
    · cases h
    · split at h
      · split at h <;> cases h
      · cases h
  | readCommitIndex p =>
    dsimp only at h
    split at h <;> cases h
  | readEntry p =>
    dsimp only at h
    split at h
    · obtain ⟨entry, _, heq⟩ := map_eq_some_iff.mp h
      cases heq
    · cases h
  | _ => cases h

/-- A bound on the steps a thread still makes within a task whose fate is known. A term or a last
index that was read before costs another round. -/
def ReplyPc.cost (node : Node size RaftPayload Unit) (task : PendingTask) : ReplyPc → Nat
  | .idle => 0
  | .replying _ _ => 1
  | .readEntry _ => 2
  | .readCommitIndex _ => if task.index ≤ node.commitIndex then 3 else 8
  | .readTermAgain _ term1 lastLogIndex =>
    if term1 ≠ node.log.currentTerm then 8
    else if lastLogIndex < task.index ∨ task.index ≤ node.commitIndex then 4
    else 9
  | .readLastLogIndex _ term1 => if term1 = node.log.currentTerm then 5 else 9
  | .readTerm _ => 6
  | .waiting _ => 7

theorem cost_nextPc_lt (hres : task.IsResolved node)
    (h : nextPc node task node.log.lastLogIndex node.commitIndex pc = some pc') :
    pc'.cost node task < pc.cost node task := by
  unfold PendingTask.IsResolved at hres
  unfold nextPc at h
  cases pc with
  | idle | replying p isCommitted => cases h
  | waiting p | readTerm p =>
    cases h
    simp [ReplyPc.cost]
  | readLastLogIndex p term1 =>
    cases h
    simp only [ReplyPc.cost]
    grind
  | readTermAgain p term1 last =>
    dsimp only at h
    simp only [ReplyPc.cost]
    grind [ReplyPc.cost]
  | readCommitIndex p =>
    cases h
    simp only [ReplyPc.cost]
    grind [ReplyPc.cost]
  | readEntry p =>
    dsimp only at h
    split at h
    · obtain ⟨entry, _, rfl⟩ := map_eq_some_iff.mp h
      simp [ReplyPc.cost]
    · cases h

/-- What the thread contributes to the rank. -/
def RaftReplyLoop.threadCost (loop : RaftReplyLoop) (node : Node size RaftPayload Unit)
    (thread : Fin concurrency) : Nat :=
  ((loop.threads thread).position.bind (loop.tasks[·]?)).elim 0
    ((loop.threads thread).cost node)

/-- A bound on the steps that the threads still make for the tasks in the queue. -/
def RaftReplyLoop.rank (loop : RaftReplyLoop) (node : Node size RaftPayload Unit) : Nat :=
  8 * loop.tasks.countP (fun task => task.flag = .initial) + ∑ thread, loop.threadCost node thread

variable (node) in
theorem threadCost_of_position (hp : (loop.threads thread).position = some position)
    (ht : loop.tasks[position]? = some task) :
    loop.threadCost node thread = (loop.threads thread).cost node task := by
  simp [threadCost, hp, ht]

theorem threadCost_setPc_idle : (loop.setPc thread .idle).threadCost node thread = 0 := by
  simp [threadCost, setPc_threads, ReplyPc.position]

theorem threadCost_setPc (hp : pc.position = some position)
    (htask : loop.tasks[position]? = some task) :
    (loop.setPc thread pc).threadCost node thread = pc.cost node task := by
  have ht : (loop.setPc thread pc).threads thread = pc := by
    rw [setPc_threads, if_pos rfl]
  have ht' : (loop.setPc thread pc).tasks[position]? = some task := htask
  simp [threadCost, ht, hp, ht']

theorem threadCost_setFlag (flag : TaskFlag) :
    (loop.setFlag position flag).threadCost node thread = loop.threadCost node thread := by
  have hc : ∀ task : PendingTask, (loop.threads thread).cost node { task with flag := flag } =
      (loop.threads thread).cost node task := by
    intro task
    cases loop.threads thread <;> rfl
  unfold threadCost
  show ((loop.threads thread).position.bind ((loop.setFlag position flag).tasks[·]?)).elim 0
    ((loop.threads thread).cost node) = _
  cases (loop.threads thread).position with
  | none => rfl
  | some k =>
    simp only [bind_some, getElem?_setFlag]
    split
    · cases loop.tasks[k]? <;> simp [hc]
    · rfl

variable (node) in
theorem rank_setPc (loop : RaftReplyLoop) (thread : Fin concurrency) (pc : ReplyPc) :
    (loop.setPc thread pc).rank node + loop.threadCost node thread =
      loop.rank node + (loop.setPc thread pc).threadCost node thread := by
  have hothers : ∑ other ∈ Finset.univ.erase thread, (loop.setPc thread pc).threadCost node other =
      ∑ other ∈ Finset.univ.erase thread, loop.threadCost node other := by
    refine Finset.sum_congr rfl fun other ho => ?_
    have hne : other ≠ thread := Finset.ne_of_mem_erase ho
    simp only [threadCost, setPc_threads, if_neg hne]
    rfl
  have hp := Finset.add_sum_erase Finset.univ (loop.threadCost node) (Finset.mem_univ thread)
  have ha := Finset.add_sum_erase Finset.univ ((loop.setPc thread pc).threadCost node)
    (Finset.mem_univ thread)
  have ht : (loop.setPc thread pc).tasks = loop.tasks := rfl
  simp only [rank, ht]
  omega

theorem countP_modify {α : Type} (p : α → Bool) (f : α → α) {x : α} :
    ∀ {xs : List α} {k : Nat}, xs[k]? = some x → (xs.modify k f).countP p + (if p x then 1 else 0) =
        xs.countP p + (if p (f x) then 1 else 0)
  | [], _, h => by simp at h
  | y :: ys, 0, h => by
      cases h
      simp only [modify_zero_cons, countP_cons]
      omega
  | y :: ys, k + 1, h => by
      have ih := countP_modify p f (show ys[k]? = some x by simpa using h)
      simp only [modify_succ_cons, countP_cons]
      omega

variable (node) in
theorem rank_setFlag (ht : loop.tasks[position]? = some task) (flag : TaskFlag)
    (hf : flag ≠ .initial) :
    (loop.setFlag position flag).rank node + (if task.flag = .initial then 8 else 0) =
      loop.rank node := by
  have hc := countP_modify (fun task : PendingTask => decide (task.flag = .initial))
    (fun task => { task with flag := flag }) ht
  simp only [rank, threadCost_setFlag]
  simp only [setFlag]
  grind

/-- Nobody has decided yet how to answer the task. -/
structure RaftReplyLoop.IsOpen (loop : RaftReplyLoop) (position : Nat) (task : PendingTask) :
    Prop where
  get : loop.tasks[position]? = some task
  flag : task.flag ≠ .done
  undecided : ∀ thread isCommitted, loop.threads thread ≠ .replying position isCommitted

/-- The open tasks before a position whose fate is not known: they may keep threads busy. -/
def RaftReplyLoop.unresolvedBefore (loop : RaftReplyLoop) (node : Node size RaftPayload Unit)
    (position : Nat) : Set Nat :=
  {k | k < position ∧ ∃ task, loop.IsOpen k task ∧ ¬ task.IsResolved node}

theorem finite_unresolvedBefore : (loop.unresolvedBefore node position).Finite :=
  (Set.finite_Iio position).subset fun _ hk => hk.1

/-- A thread whose task is resolved, or that has decided, comes closer to the answer. -/
theorem rank_lt_of_replied (hpos : (loop.threads thread).position = some position)
    (htask : loop.tasks[position]? = some task)
    (hnear : task.IsResolved node ∨ ∃ isCommitted,
      loop.threads thread = .replying position isCommitted)
    (hrepl : Replied node loop thread node.log.lastLogIndex node.commitIndex loop' answers) :
    loop'.rank node < loop.rank node := by
  have hpre := threadCost_of_position node hpos htask
  cases hrepl with
  | takes _ _ hidle =>
    rw [hidle] at hpos
    cases hpos
  | goesOn k held pc hk hheld _ hpc =>
    rw [hpos] at hk
    cases hk
    rw [htask] at hheld
    cases hheld
    have hres : task.IsResolved node := by
      rcases hnear with hres | ⟨isCommitted, hrep⟩
      · exact hres
      · rw [hrep] at hpc
        cases hpc
    have haft : (loop.setPc thread pc).threadCost node thread = pc.cost node task :=
      threadCost_setPc (by rw [nextPc_position hpc, hpos]) htask
    have hlt := cost_nextPc_lt hres hpc
    have hrank := rank_setPc node loop thread pc
    omega
  | finishes k isCommitted held hpc hheld =>
    have hcost : loop.threadCost node thread = 1 := by
      rw [hpre, hpc]
      rfl
    have hdone := rank_setFlag node hheld .done (by simp)
    have hrank := rank_setPc node (loop.setFlag k .done) thread .idle
    rw [threadCost_setFlag, threadCost_setPc_idle] at hrank
    omega

theorem rank_lt_of_takes (ht : loop.tasks[position]? = some task) (hf : task.flag = .initial) :
    ((loop.setFlag position .doing).setPc thread (.waiting position)).rank node <
      loop.rank node := by
  have ht' : (loop.setFlag position .doing).tasks[position]? =
      some { task with flag := .doing } := by
    rw [getElem?_setFlag, if_pos rfl, ht]
    rfl
  have hc : ((loop.setFlag position .doing).setPc thread
      (.waiting position)).threadCost node thread = 7 := threadCost_setPc rfl ht'
  have hd := rank_setFlag node ht .doing (by simp)
  have hr := rank_setPc node (loop.setFlag position .doing) thread (.waiting position)
  rw [if_pos hf] at hd
  omega

/-- Only tasks before one that nobody has taken can keep all threads busy. -/
theorem exists_idle (h : QueueInv loop) (htask : loop.tasks[position]? = some task)
    (hinit : task.flag = .initial)
    (hfew : (loop.unresolvedBefore node position).ncard < concurrency)
    (hfar : ∀ thread k held, (loop.threads thread).position = some k →
      loop.tasks[k]? = some held → held.flag = .doing →
      loop.IsOpen k held ∧ ¬ held.IsResolved node) :
    ∃ thread, loop.threads thread = .idle := by
  by_contra hbusy
  have hwait : ∀ thread, ∃ k ∈ loop.unresolvedBefore node position,
      (loop.threads thread).position = some k := by
    intro thread
    obtain ⟨k, hk⟩ : ∃ k, (loop.threads thread).position = some k := by
      cases hpc : loop.threads thread with
      | idle => exact absurd ⟨thread, hpc⟩ hbusy
      | _ => exact ⟨_, rfl⟩
    obtain ⟨held, hheld, hdoing⟩ := h.doing thread k hk
    have hlt : k < position := by
      by_contra hle
      have hlate := h.inOrder position k task held htask hheld (by omega) hinit
      rw [hdoing] at hlate
      cases hlate
    exact ⟨k, ⟨hlt, held, hfar thread k held hk hheld hdoing⟩, hk⟩
  choose place hmem hplc using hwait
  have hinj : Function.Injective place := by
    intro thread thread' heq
    exact h.apart thread thread' (place thread) (hplc thread) (by rw [heq, hplc])
  have hcard : Nat.card (Fin concurrency) ≤ (loop.unresolvedBefore node position).ncard := by
    rw [← Set.ncard_range_of_injective hinj]
    exact Set.ncard_le_ncard (Set.range_subset_iff.mpr hmem) finite_unresolvedBefore
  rw [Nat.card_fin] at hcard
  omega

/-- As long as a resolved task is not done and no check fails, some thread comes closer, unless
all threads may be busy with tasks before it. -/
theorem exists_reply_lt (h : QueueInv loop) (htask : loop.tasks[position]? = some task)
    (hflag : task.flag ≠ .done) (hres : task.IsResolved node)
    (hfew : (loop.unresolvedBefore node position).ncard < concurrency)
    (hgo : ∀ thread, loop.threads thread ≠ .idle →
      loop.reply node thread node.log.lastLogIndex node.commitIndex ≠ none) :
    ∃ thread loop' answers,
      loop.reply node thread node.log.lastLogIndex node.commitIndex = some (loop', answers) ∧
        loop'.rank node < loop.rank node := by
  by_cases hnear : ∃ thread k held, (loop.threads thread).position = some k ∧
      loop.tasks[k]? = some held ∧
        (held.IsResolved node ∨ ∃ isCommitted, loop.threads thread = .replying k isCommitted)
  · obtain ⟨thread, k, held, hk, hheld, hnear⟩ := hnear
    have hbusy : loop.threads thread ≠ .idle := by
      intro hidle
      rw [hidle] at hk
      cases hk
    obtain ⟨⟨loop', answers⟩, hrep⟩ := ne_none_iff_exists'.mp (hgo thread hbusy)
    exact ⟨thread, loop', answers, hrep,
      rank_lt_of_replied hk hheld hnear (replied_of_reply h.running h.toLoopInv hrep)⟩
  · have hinit : task.flag = .initial := by
      cases hcs : task.flag with
      | initial => rfl
      | done => exact absurd hcs hflag
      | doing =>
        obtain ⟨thread, hthr⟩ := h.held position task htask hcs
        exact absurd ⟨thread, position, task, hthr, htask, .inl hres⟩ hnear
    have hfar : ∀ thread k held, (loop.threads thread).position = some k →
        loop.tasks[k]? = some held → held.flag = .doing →
        loop.IsOpen k held ∧ ¬ held.IsResolved node := by
      intro thread k held hk hheld hdoing
      constructor
      · refine ⟨hheld, by simp [hdoing], fun other isCommitted hoth => ?_⟩
        have hk' : (loop.threads other).position = some k := by
          rw [hoth]
          rfl
        exact hnear ⟨other, k, held, hk', hheld, .inr ⟨isCommitted, hoth⟩⟩
      · intro hhel
        exact hnear ⟨thread, k, held, hk, hheld, .inl hhel⟩
    obtain ⟨thread, hthr⟩ := exists_idle h htask hinit hfew hfar
    have hpop : loop.popped ≤ position := by
      by_contra hlt
      exact hflag (h.popped position task (by omega) htask)
    obtain ⟨k, hnext, _⟩ := exists_nextTask hpop htask hinit
    obtain ⟨held, hheld, hheldFlag⟩ := nextTask_inv hnext
    refine ⟨thread, (loop.setFlag k .doing).setPc thread (.waiting k), [], ?_,
      rank_lt_of_takes hheld hheldFlag⟩
    simp [reply, hthr, h.running, hnext]

theorem undecided_of_setPc (ht : ∀ isCommitted, loop.threads thread ≠ .replying k isCommitted)
    (h : ∀ other isCommitted, (loop.setPc thread pc).threads other ≠ .replying k isCommitted)
    (other : Fin concurrency) (isCommitted : Bool) :
    loop.threads other ≠ .replying k isCommitted := by
  by_cases heq : other = thread
  · rw [heq]
    exact ht isCommitted
  · have ho := h other isCommitted
    rw [setPc_threads, if_neg heq] at ho
    exact ho

/-- A thread changes nothing about a task but its flag, and opens none. -/
theorem RaftReplyLoop.IsOpen.of_replied
    (hrepl : Replied node loop thread lastLogIndex commitIndex loop' answers)
    (hopen : loop'.IsOpen k task') :
    ∃ task, loop.IsOpen k task ∧ task' = { task with flag := task'.flag } := by
  obtain ⟨hget, hflag', hund⟩ := hopen
  cases hrepl with
  | takes position taken hidle _ htask hflag =>
    obtain ⟨old, hold, heq⟩ := setFlag_inv hget
    refine ⟨old, ⟨hold, ?_, ?_⟩, ?_⟩
    · by_cases hk : position = k
      · rw [← hk, htask] at hold
        cases hold
        simp [hflag]
      · rw [heq, if_neg hk] at hflag'
        exact hflag'
    · exact undecided_of_setPc (fun _ => by simp [hidle]) hund
    · rw [heq]
      split <;> rfl
  | goesOn position held pc hpos htask hdoing hpc =>
    refine ⟨task', ⟨hget, hflag', undecided_of_setPc (fun _ hrep => ?_) hund⟩, rfl⟩
    rw [hrep] at hpc
    cases hpc
  | finishes position decided held hpc htask =>
    obtain ⟨old, hold, heq⟩ := setFlag_inv hget
    have hk : position ≠ k := by
      intro hk
      rw [heq, if_pos hk] at hflag'
      exact hflag' rfl
    rw [if_neg hk] at heq
    subst heq
    refine ⟨task', ⟨hold, hflag', undecided_of_setPc (fun _ hrep => ?_) hund⟩, rfl⟩
    have hsame := hpc.symm.trans hrep
    cases hsame
    exact hk rfl

theorem RaftReplyLoop.IsOpen.replied (hopen : loop.IsOpen k task)
    (hrepl : Replied node loop thread lastLogIndex commitIndex loop' answers)
    (hund : ∀ isCommitted, (loop.threads thread).position = some k →
      nextPc node task lastLogIndex commitIndex (loop.threads thread) ≠
        some (.replying k isCommitted)) :
    ∃ task', loop'.IsOpen k task' ∧ task' = { task with flag := task'.flag } := by
  cases hrepl with
  | takes position taken hidle _ htask hflag =>
    refine ⟨if position = k then { task with flag := .doing } else task, ⟨?_, ?_, ?_⟩, ?_⟩
    · show (loop.setFlag position .doing).tasks[k]? = _
      rw [getElem?_setFlag, hopen.get]
      split <;> rfl
    · split
      · simp
      · exact hopen.flag
    · intro other isCommitted
      rw [setPc_threads]
      split
      · simp
      · exact hopen.undecided other isCommitted
    · split <;> rfl
  | goesOn position held pc hpos htask _ hpc =>
    refine ⟨task, ⟨hopen.get, hopen.flag, fun other isCommitted => ?_⟩, rfl⟩
    rw [setPc_threads]
    split
    · intro hdec
      have hk := nextPc_position hpc
      rw [hdec, hpos] at hk
      cases hk
      have hsame := hopen.get.symm.trans htask
      cases hsame
      rw [hdec] at hpc
      exact hund isCommitted hpos hpc
    · exact hopen.undecided other isCommitted
  | finishes position decided held hpc _ =>
    have hk : position ≠ k := by
      intro hk
      rw [hk] at hpc
      exact hopen.undecided thread decided hpc
    refine ⟨task, ⟨?_, hopen.flag, fun other isCommitted => ?_⟩, rfl⟩
    · show (loop.setFlag position .done).tasks[k]? = _
      rw [getElem?_setFlag, if_neg hk]
      exact hopen.get
    · rw [setPc_threads]
      split
      · simp
      · exact hopen.undecided other isCommitted

theorem unresolvedBefore_of_replied
    (hr : Replied node loop thread lastLogIndex commitIndex loop' answers) :
    loop'.unresolvedBefore node position ⊆ loop.unresolvedBefore node position := by
  rintro k ⟨hlt, task', ho, hu⟩
  obtain ⟨task, ho', heq⟩ := ho.of_replied hr
  rw [heq] at hu
  exact ⟨hlt, task, ho', hu⟩

end

end MySuperLedger.Replica
