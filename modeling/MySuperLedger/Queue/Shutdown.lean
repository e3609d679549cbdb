import MySuperLedger.Queue.DoubleBuffer
import Mathlib.Data.Fintype.Basic

/-! # Shutdown of the double-buffer queue

The order of the elements and the counter survive every schedule. Two schedules
around `shutdown` do not end well. An `enqueue` that has read the stop flag
before the store inserts its element after `dequeue` has thrown. And a store
and a notification that fall between the predicate of `wait` and its blocking
are both missed, so the consumer sleeps on. Each is named here as a condition
on the state before one step, and without that step the queue does what it
promises.
-/

namespace MySuperLedger.Queue

open Transition List Option DoubleBuffer

namespace DoubleBuffer

variable {Producer T : Type} {queue after : DoubleBuffer Producer T}
  {action : QueueAction Producer T}

theorem buffersInv_of_reachable [DecidableEq Producer] (hq : (system Producer T).Reachable queue) :
    BuffersInv queue := by
  refine hq.invariant BuffersInv ?_ ?_
  · rintro queue rfl
    constructor <;> simp [DequeuePc.lag, DequeuePc.hasElement]
  · rintro queue after hi ⟨action, hs⟩
    exact hi.step hs

theorem BuffersInv.queueSize_pos (hi : BuffersInv queue) (hpc : queue.consumer = .taking) :
    0 < queue.queueSize := by
  have hf : queue.consumerQueue ≠ [] := hi.inHand (by rw [hpc]; rfl)
  have hp : 0 < queue.consumerQueue.length := length_pos_iff.mpr hf
  have hs := hi.size
  simp only [hpc, DequeuePc.lag] at hs
  omega

/-- Once `dequeue` has thrown, what it returned before is all that was accepted. -/
def DeliversAccepted (queue : DoubleBuffer Producer T) : Prop :=
  ∀ before, queue.thrownAfter = some before → queue.inserted = before

def IsQuiet (queue : DoubleBuffer Producer T) : Prop := ∀ producer, queue.producers producer = none

/-- If the step throws, no `enqueue` is past its test. -/
def ThrowsWhenQuiet (queue : DoubleBuffer Producer T) : QueueAction Producer T → Prop
  | .lock | .test => queue.producerQueue = [] → queue.shouldExit = true → queue.IsQuiet
  | _ => True

instance [Fintype Producer] (queue : DoubleBuffer Producer T) : Decidable queue.IsQuiet :=
  inferInstanceAs (Decidable (∀ producer, queue.producers producer = none))

instance [Fintype Producer] [DecidableEq T] (queue : DoubleBuffer Producer T)
    (action : QueueAction Producer T) : Decidable (queue.ThrowsWhenQuiet action) := by
  cases action <;> unfold ThrowsWhenQuiet <;> infer_instance

structure ThrowInv (queue : DoubleBuffer Producer T) : Prop where
  buffers : BuffersInv queue
  delivered : queue.DeliversAccepted
  quiet : queue.thrownAfter.isSome → queue.IsQuiet

theorem ThrowInv.frame (hi : ThrowInv queue) (hb : BuffersInv after)
    (hins : after.inserted = queue.inserted) (hp : after.producers = queue.producers)
    (ht : after.thrownAfter = queue.thrownAfter) : ThrowInv after where
  buffers := hb
  delivered before hpre := by
    rw [hins]
    exact hi.delivered before (ht ▸ hpre)
  quiet hs producer := by
    rw [hp]
    exact hi.quiet (ht ▸ hs) producer

theorem ThrowInv.throw (hi : ThrowInv queue) (hb : BuffersInv queue.throw)
    (hn : queue.producerQueue = []) (hc : queue.consumerQueue = [])
    (hqt : queue.IsQuiet) : ThrowInv queue.throw where
  buffers := hb
  delivered before hp := by
    have hp : queue.thrownAfter.getD queue.delivered = before := some.inj hp
    cases ht : queue.thrownAfter with
    | none =>
      rw [ht, getD_none] at hp
      have ho := hi.buffers.order
      rw [hn, hc, append_nil, append_nil] at ho
      exact ho.trans hp
    | some first =>
      rw [ht, getD_some] at hp
      exact hi.delivered before (hp ▸ ht)
  quiet _ := hqt

theorem ThrowInv.examine (hi : ThrowInv queue) {next : DequeuePc}
    (hb : BuffersInv (queue.examine next)) (hc : queue.consumerQueue = [])
    (hok : queue.producerQueue = [] → queue.shouldExit = true → queue.IsQuiet) :
    ThrowInv (queue.examine next) := by
  revert hb
  rw [DoubleBuffer.examine]
  split
  · exact fun hb => hi.frame hb rfl rfl rfl
  · rename_i hn
    have hn : queue.producerQueue = [] := by simpa using hn
    split
    · rename_i he
      exact fun hb => hi.throw hb hn hc (hok hn he)
    · exact fun hb => hi.frame hb rfl rfl rfl

theorem notifyOne_frame (queue : DoubleBuffer Producer T) :
    queue.notifyOne.inserted = queue.inserted ∧ queue.notifyOne.producers = queue.producers ∧
      queue.notifyOne.thrownAfter = queue.thrownAfter := by
  rw [notifyOne]
  split <;> exact ⟨rfl, rfl, rfl⟩

theorem ThrowInv.step [DecidableEq Producer] (hi : ThrowInv queue)
    (hok : queue.ThrowsWhenQuiet action) (h : queue.step action = some after) : ThrowInv after := by
  have hbuf := hi.buffers.step h
  cases action with
  | enqueue producer t =>
    simp only [step] at h
    split_ifs at h with hbusy hexit
    · cases h
      exact hi
    · -- the flag is not set, so nothing has been thrown
      cases h
      have hnone : queue.thrownAfter = none := by
        cases hthr : queue.thrownAfter with
        | none => rfl
        | some before => exact absurd (hi.buffers.thrown before hthr).1 hexit
      exact ⟨hbuf, fun before hpre => absurd (hnone ▸ hpre) (by simp),
        fun hsome => absurd (hnone ▸ hsome) (by simp)⟩
  | insert producer =>
    obtain ⟨t, hbusy, h⟩ := bind_eq_some_iff.mp h
    have hnone : queue.thrownAfter = none := by
      cases hthr : queue.thrownAfter with
      | none => rfl
      | some before =>
        have hidle := hi.quiet (by simp [hthr]) producer
        simp [hidle] at hbusy
    have hpush : after.thrownAfter = none := by
      split_ifs at h
      · cases h
        exact (notifyOne_frame _).2.2.trans hnone
      · cases h
        exact hnone
    exact ⟨hbuf, fun before hpre => absurd (hpush ▸ hpre) (by simp),
      fun hsome => absurd (hpush ▸ hsome) (by simp)⟩
  | lock | test =>
    obtain ⟨hpc, h⟩ := ite_none_left_eq_some.mp h
    cases h
    have hnil := hi.buffers.swapping (by rw [not_not.mp hpc]; rfl)
    exact hi.examine hbuf hnil hok
  | dequeue =>
    simp only [step] at h
    split_ifs at h <;> cases h <;> exact hi.frame hbuf rfl rfl rfl
  | pop =>
    obtain ⟨-, h⟩ := ite_none_left_eq_some.mp h
    split at h
    · cases h
    · cases h
      exact hi.frame hbuf rfl rfl rfl
  | notify =>
    obtain ⟨-, h⟩ := ite_none_left_eq_some.mp h
    cases h
    obtain ⟨hins, hprod, hthr⟩ := notifyOne_frame queue
    exact hi.frame hbuf hins hprod hthr
  | block | spuriousWake | relock | decrement | shutdown =>
    obtain ⟨-, h⟩ := ite_none_left_eq_some.mp h
    cases h
    exact hi.frame hbuf rfl rfl rfl

/-- The runs in which `dequeue` never throws past an `enqueue` that is under way. -/
def quietSystem (Producer T : Type) [DecidableEq Producer] : System (DoubleBuffer Producer T) :=
  System.ofGuardedStep {} ThrowsWhenQuiet step

theorem throwInv_of_reachable [DecidableEq Producer] (hq : (quietSystem Producer T).Reachable queue)
    : ThrowInv queue := by
  refine hq.invariant ThrowInv ?_ ?_
  · rintro queue rfl
    exact ⟨buffersInv_of_reachable (System.Reachable.init rfl), nofun, nofun⟩
  · rintro queue after hi ⟨action, hok, hs⟩
    exact hi.step hok hs

theorem throw_of_not_throwsWhenQuiet [DecidableEq Producer] (h : queue.step action = some after)
    (hl : ¬ queue.ThrowsWhenQuiet action) :
    after = queue.throw ∧ queue.producerQueue = [] ∧
      ∃ producer t, queue.producers producer = some t := by
  have hcs : action = .lock ∨ action = .test := by
    cases action <;> simp_all [ThrowsWhenQuiet]
  obtain ⟨hn, hexit, producer, hb⟩ : queue.producerQueue = [] ∧ queue.shouldExit = true ∧
      ∃ producer, queue.producers producer ≠ none := by
    rcases hcs with rfl | rfl <;> simpa [ThrowsWhenQuiet, IsQuiet] using hl
  obtain ⟨t, ht⟩ := ne_none_iff_exists'.mp hb
  refine ⟨?_, hn, producer, t, ht⟩
  have he : ∀ pc, queue.examine pc = queue.throw := by simp [examine, hn, hexit]
  rcases hcs with rfl | rfl
  · rw [← some.inj (ite_none_left_eq_some.mp h).2, he]
  · rw [← some.inj (ite_none_left_eq_some.mp h).2, he]

/-- A step that throws past an `enqueue` leads to an element that is accepted and
was not returned before. -/
theorem not_deliversAccepted_of_throw [DecidableEq Producer]
    (hq : (system Producer T).Reachable queue) (h : queue.step action = some after)
    (hl : ¬ queue.ThrowsWhenQuiet action) :
    ∃ later, (system Producer T).Runs after later ∧ ¬ later.DeliversAccepted := by
  have hi := (buffersInv_of_reachable hq).step h
  obtain ⟨rfl, hn, producer, t, hb⟩ := throw_of_not_throwsWhenQuiet h hl
  have hins : queue.throw.step (.insert producer) = some (queue.throw.push producer t) := by
    simp [step, throw, hb, hn, mutexIsFree, notifyOne, push]
  refine ⟨_, System.Runs.step ⟨.insert producer, hins⟩, fun hd => ?_⟩
  -- what was returned before the throw is a part of what was inserted before it
  have hp : queue.inserted ++ [t] = queue.thrownAfter.getD queue.delivered :=
    hd _ rfl
  have hle := (hi.thrown _ rfl).2.length_le
  have ho := congrArg List.length hi.order
  have hlen := congrArg List.length hp
  simp only [throw, length_append, length_singleton] at hle ho hlen
  omega

/-- Elements come out in the order of their insertion. All of them do if `dequeue`
throws only when no `enqueue` is under way; any other throw can lose one. -/
theorem delivers_accepted (Producer T : Type) [DecidableEq Producer] :
    (∀ queue, (system Producer T).Reachable queue →
      queue.inserted = queue.delivered ++ (queue.consumerQueue ++ queue.producerQueue) ∧
        (queue.consumer = .taking → 0 < queue.queueSize)) ∧
    (∀ queue, (quietSystem Producer T).Reachable queue → queue.DeliversAccepted) ∧
    (∀ queue action after, (system Producer T).Reachable queue →
      queue.step action = some after → ¬ queue.ThrowsWhenQuiet action →
      ∃ later, (system Producer T).Runs after later ∧ ¬ later.DeliversAccepted) := by
  refine ⟨fun queue hq => ?_, fun queue hq => (throwInv_of_reachable hq).delivered, ?_⟩
  · have hi := buffersInv_of_reachable hq
    exact ⟨hi.order, hi.queueSize_pos⟩
  · intro queue action after hq h hl
    exact not_deliversAccepted_of_throw hq h hl

def orderlyStop : List (QueueAction Unit Nat) :=
  [.enqueue () 7, .insert (), .dequeue, .lock, .decrement, .shutdown, .pop, .notify, .dequeue,
   .lock]

theorem delivers_accepted_orderlyStop :
    ∃ queue, (quietSystem Unit Nat).Reachable queue ∧ queue.thrownAfter = some [7] ∧
      queue.DeliversAccepted := by
  obtain ⟨queue, he, ht⟩ : ∃ queue,
      System.exec (System.guardStep ThrowsWhenQuiet step) {} orderlyStop = some queue ∧
      queue.thrownAfter = some [7] := ⟨_, rfl, rfl⟩
  have hr : (quietSystem Unit Nat).Reachable queue :=
    ⟨{}, rfl, System.guarded_runs_of_exec he⟩
  exact ⟨queue, hr, ht, (delivers_accepted Unit Nat).2.1 queue hr⟩

/-- The producer reads the flag, `shutdown` sets it, `dequeue` throws, and then
the producer inserts its element and returns. -/
def lateInsert : List (QueueAction Unit Nat) :=
  [.enqueue () 7, .shutdown, .notify, .dequeue, .lock, .insert ()]

theorem not_deliversAccepted_lateInsert :
    ∃ queue, (system Unit Nat).Reachable queue ∧ ¬ queue.DeliversAccepted := by
  obtain ⟨queue, he, ht, hi⟩ : ∃ queue, System.exec step {} lateInsert = some queue ∧
      queue.thrownAfter = some [] ∧ queue.inserted = [7] := ⟨_, rfl, rfl, rfl⟩
  refine ⟨queue, ⟨{}, rfl, System.runs_of_exec he⟩, fun hd => ?_⟩
  have heq := hd [] ht
  simp [hi] at heq

/-- `shutdown` has returned and the consumer sleeps in `wait`. -/
def IsStranded (queue : DoubleBuffer Producer T) : Prop :=
  queue.stopper = .returned ∧ queue.consumer = .blocked

/-- If the step is the notification of `shutdown`, the consumer is not between
its predicate and its blocking. -/
def NotifiesInTime (queue : DoubleBuffer Producer T) : QueueAction Producer T → Prop
  | .notify => queue.consumer ≠ .blocking
  | _ => True

instance (queue : DoubleBuffer Producer T) (action : QueueAction Producer T) :
    Decidable (queue.NotifiesInTime action) := by
  cases action <;> unfold NotifiesInTime <;> infer_instance

structure WakeInv (queue : DoubleBuffer Producer T) : Prop where
  stored : queue.stopper ≠ .notCalled → queue.shouldExit = true
  awake : queue.stopper = .returned → queue.consumer ≠ .blocking ∧ queue.consumer ≠ .blocked

theorem WakeInv.frame (hi : WakeInv queue) (hs : after.stopper = queue.stopper)
    (he : after.shouldExit = queue.shouldExit) (hc : after.consumer = queue.consumer ∨
      (after.consumer ≠ .blocking ∧ after.consumer ≠ .blocked)) : WakeInv after where
  stored h := by
    rw [he]
    exact hi.stored (hs ▸ h)
  awake h := by
    rcases hc with hsame | ha
    · rw [hsame]
      exact hi.awake (hs ▸ h)
    · exact ha

theorem notifyOne_awake (queue : DoubleBuffer Producer T) :
    queue.notifyOne.stopper = queue.stopper ∧ queue.notifyOne.shouldExit = queue.shouldExit ∧
      queue.notifyOne.consumer ≠ .blocked ∧
      (queue.notifyOne.consumer = queue.consumer ∨ queue.notifyOne.consumer = .woken) := by
  rw [notifyOne]
  split
  · exact ⟨rfl, rfl, by simp, .inr rfl⟩
  · rename_i ha
    exact ⟨rfl, rfl, ha, .inl rfl⟩

theorem WakeInv.examine (hi : WakeInv queue) (next : DequeuePc) : WakeInv (queue.examine next) := by
  rw [DoubleBuffer.examine]
  split
  · exact hi.frame rfl rfl (.inr (by simp [DoubleBuffer.swap]))
  · split
    · exact hi.frame rfl rfl (.inr (by simp [DoubleBuffer.throw]))
    · rename_i he
      refine ⟨hi.stored, fun hr => absurd (hi.stored ?_) he⟩
      have hr : queue.stopper = .returned := hr
      simp [hr]

theorem WakeInv.step [DecidableEq Producer] (hi : WakeInv queue) (hok : queue.NotifiesInTime action)
    (h : queue.step action = some after) : WakeInv after := by
  cases action with
  | enqueue producer t =>
    simp only [step] at h
    split_ifs at h <;> cases h <;> exact hi.frame rfl rfl (.inl rfl)
  | insert producer =>
    obtain ⟨t, -, h⟩ := bind_eq_some_iff.mp h
    split_ifs at h
    · cases h
      obtain ⟨hstop, hexit, -, hcons⟩ := notifyOne_awake (queue.push producer t)
      refine hi.frame hstop hexit (hcons.imp_right fun hwok => ?_)
      simp [hwok]
    · cases h
      exact hi.frame rfl rfl (.inl rfl)
  | dequeue =>
    simp only [step] at h
    split_ifs at h <;> cases h <;> exact hi.frame rfl rfl (.inr (by simp))
  | lock | test =>
    obtain ⟨-, h⟩ := ite_none_left_eq_some.mp h
    cases h
    exact hi.examine _
  | block =>
    obtain ⟨hpc, h⟩ := ite_none_left_eq_some.mp h
    cases h
    exact ⟨hi.stored, fun hret => absurd (not_not.mp hpc) (hi.awake hret).1⟩
  | pop =>
    obtain ⟨-, h⟩ := ite_none_left_eq_some.mp h
    split at h
    · cases h
    · cases h
      exact hi.frame rfl rfl (.inr (by simp))
  | shutdown =>
    obtain ⟨-, h⟩ := ite_none_left_eq_some.mp h
    cases h
    exact ⟨fun _ => rfl, by simp⟩
  | notify =>
    obtain ⟨hpc, h⟩ := ite_none_left_eq_some.mp h
    cases h
    obtain ⟨-, hexit, hawa, hcons⟩ := notifyOne_awake queue
    have hsto : queue.shouldExit = true := hi.stored (by simp [not_not.mp hpc])
    refine ⟨fun _ => hexit.trans hsto, fun _ => ⟨?_, hawa⟩⟩
    rcases hcons with hsame | hwok
    · have haway : queue.notifyOne.consumer ≠ .blocking := hsame ▸ hok
      exact haway
    · simp [hwok]
  | spuriousWake | relock | decrement =>
    obtain ⟨-, h⟩ := ite_none_left_eq_some.mp h
    cases h
    exact hi.frame rfl rfl (.inr (by simp))

def timelySystem (Producer T : Type) [DecidableEq Producer] : System (DoubleBuffer Producer T) :=
  System.ofGuardedStep {} NotifiesInTime step

theorem wakeInv_of_reachable [DecidableEq Producer] (hq : (timelySystem Producer T).Reachable queue)
    : WakeInv queue := by
  refine hq.invariant WakeInv ?_ ?_
  · rintro queue rfl
    exact ⟨fun h => absurd rfl h, nofun⟩
  · rintro queue after hi ⟨action, hok, hs⟩
    exact hi.step hok hs

/-- A `shutdown` wakes the consumer if it notifies in time, and only then for sure. -/
theorem shutdown_wakes_consumer (Producer T : Type) [DecidableEq Producer] :
    (∀ queue, (timelySystem Producer T).Reachable queue → ¬ queue.IsStranded) ∧
    (∀ queue action after, (system Producer T).Reachable queue →
      queue.step action = some after → ¬ queue.NotifiesInTime action →
      ∃ later, (system Producer T).Runs after later ∧ later.IsStranded) := by
  constructor
  · rintro queue hq ⟨hr, hblk⟩
    exact ((wakeInv_of_reachable hq).awake hr).2 hblk
  · intro queue action after hq h hl
    obtain ⟨rfl, hb⟩ : action = .notify ∧ queue.consumer = .blocking := by
      cases action <;> simp_all [NotifiesInTime]
    obtain ⟨-, h⟩ := ite_none_left_eq_some.mp h
    obtain rfl : { queue with stopper := .returned } = after := by
      simpa [notifyOne, hb] using h
    refine ⟨{ queue with stopper := .returned, consumer := .blocked },
      System.Runs.step ⟨.block, ?_⟩, rfl, rfl⟩
    simp [step, hb]

def timelyStop : List (QueueAction Unit Nat) :=
  [.dequeue, .lock, .test, .shutdown, .block, .notify, .relock, .test]

theorem shutdown_wakes_consumer_timelyStop :
    ∃ queue, (timelySystem Unit Nat).Reachable queue ∧ queue.stopper = .returned ∧
      queue.thrownAfter = some [] ∧ ¬ queue.IsStranded := by
  obtain ⟨queue, he, hret, ht⟩ : ∃ queue,
      System.exec (System.guardStep NotifiesInTime step) {} timelyStop = some queue ∧
      queue.stopper = .returned ∧ queue.thrownAfter = some [] := ⟨_, rfl, rfl, rfl⟩
  have hr : (timelySystem Unit Nat).Reachable queue :=
    ⟨{}, rfl, System.guarded_runs_of_exec he⟩
  exact ⟨queue, hr, hret, ht, (shutdown_wakes_consumer Unit Nat).1 queue hr⟩

/-- The predicate is false, then `shutdown` stores and notifies, then the
consumer blocks. -/
def lostWakeUp : List (QueueAction Unit Nat) :=
  [.dequeue, .lock, .test, .shutdown, .notify, .block]

theorem isStranded_lostWakeUp : ∃ queue, (system Unit Nat).Reachable queue ∧ queue.IsStranded := by
  obtain ⟨queue, he, hs⟩ : ∃ queue, System.exec step {} lostWakeUp = some queue ∧
      queue.IsStranded := ⟨_, rfl, rfl, rfl⟩
  exact ⟨queue, ⟨{}, rfl, System.runs_of_exec he⟩, hs⟩

end DoubleBuffer

end MySuperLedger.Queue
