import MySuperLedger.Transition.System
import Mathlib.Data.List.Basic
import Mathlib.Logic.Function.Basic

/-! # The double-buffer queue

`MpscDoubleBufferQueue`: any number of producers push onto one list under a
mutex, one consumer pops from another and exchanges the two when its own is
empty. `mShouldExit` and `mQueueSize` are atomics. The stop flag is read by
`enqueue` before it takes the mutex and stored by `shutdown` without it, so the
store may fall between any two steps of the others, the steps of the consumer
inside its own critical section included.

What a step leaves out of sight of the other threads is one step with the
shared access that follows it. `condition_variable::wait` tests its predicate
under the mutex, and releases the mutex and blocks in one later step; a
notification reaches a consumer that is blocked and is lost otherwise.
-/

namespace MySuperLedger.Queue

open Transition List Option Function

/-- Where the consumer is. The mutex comes next at `entering` and `woken`; it is held at
`testing`, before the predicate of `wait`, and at `blocking`, after it was false. At `taking`
the consumer queue has an element and `--mQueueSize` comes next, at `popping` `pop_front`. -/
inductive DequeuePc where
  | outside
  | entering
  | testing
  | blocking
  | blocked
  | woken
  | taking
  | popping
  deriving DecidableEq, Repr

def DequeuePc.hasElement : DequeuePc → Bool
  | .taking | .popping => true
  | _ => false

def DequeuePc.needsSwap : DequeuePc → Bool
  | .outside | .taking | .popping => false
  | _ => true

/-- `mQueueSize` is behind the buffers between `--mQueueSize` and `pop_front`. -/
def DequeuePc.lag : DequeuePc → Nat
  | .popping => 1
  | _ => 0

inductive ShutdownPc where
  | notCalled
  | notifying
  | returned
  deriving DecidableEq, Repr

structure DoubleBuffer (Producer T : Type) where
  producerQueue : List T := []
  consumerQueue : List T := []
  queueSize : Nat := 0
  shouldExit : Bool := false
  /-- The element of an `enqueue` that has passed its test of `mShouldExit`. -/
  producers : Producer → Option T := fun _ => none
  consumer : DequeuePc := .outside
  stopper : ShutdownPc := .notCalled
  inserted : List T := []
  delivered : List T := []
  /-- What had been returned when `dequeue` first threw. -/
  thrownAfter : Option (List T) := none

/-- `enqueue`, `dequeue` and `shutdown` go up to their first test or store. The critical sections
are `insert` of `enqueue`, and `lock`, up to `wait`, and `test`, from its predicate on, of
`dequeue`. -/
inductive QueueAction (Producer T : Type) where
  | enqueue (producer : Producer) (t : T)
  | insert (producer : Producer)
  | dequeue
  | lock
  | test
  | block
  | spuriousWake
  | relock
  | decrement
  | pop
  | shutdown
  | notify

namespace DoubleBuffer

variable {Producer T : Type}

variable (queue : DoubleBuffer Producer T)

def notifyOne : DoubleBuffer Producer T :=
  if queue.consumer = .blocked then { queue with consumer := .woken } else queue

def throw : DoubleBuffer Producer T :=
  { queue with consumer := .outside, thrownAfter := some (queue.thrownAfter.getD queue.delivered) }

def swap : DoubleBuffer Producer T :=
  { queue with
    producerQueue := queue.consumerQueue, consumerQueue := queue.producerQueue
    consumer := .taking }

/-- `dequeue` looks at the producer queue and at the flag under the mutex: it goes
on with the swap, throws, or comes to stand at `otherwise`. -/
def examine (otherwise : DequeuePc) : DoubleBuffer Producer T :=
  if ¬ queue.producerQueue.isEmpty then queue.swap
  else if queue.shouldExit then queue.throw
  else { queue with consumer := otherwise }

/-- The consumer holds the mutex from its first test in `wait` until it blocks. -/
def mutexIsFree : Bool :=
  queue.consumer != .testing && queue.consumer != .blocking

section

variable [DecidableEq Producer]

def push (queue : DoubleBuffer Producer T) (producer : Producer) (t : T) :
    DoubleBuffer Producer T :=
  { queue with
    producers := update queue.producers producer none
    producerQueue := queue.producerQueue ++ [t]
    queueSize := queue.queueSize + 1
    inserted := queue.inserted ++ [t] }

/-- One step of one thread. `none` is a step that cannot be taken now. -/
def step (queue : DoubleBuffer Producer T) :
    QueueAction Producer T → Option (DoubleBuffer Producer T)
  | .enqueue producer t =>
    if (queue.producers producer).isSome then none
    -- a producer that throws is back outside
    else if queue.shouldExit then some queue
    else some { queue with producers := update queue.producers producer (some t) }
  | .insert producer =>
    (queue.producers producer).bind fun t =>
      if ¬ queue.mutexIsFree then none
      else if queue.producerQueue.isEmpty then some (queue.push producer t).notifyOne
      else some (queue.push producer t)
  | .dequeue =>
    if queue.consumer ≠ .outside then none
    else if queue.consumerQueue.isEmpty then some { queue with consumer := .entering }
    else some { queue with consumer := .taking }
  | .lock =>
    if queue.consumer ≠ .entering then none else some (queue.examine .testing)
  | .test =>
    if queue.consumer ≠ .testing then none else some (queue.examine .blocking)
  | .block =>
    if queue.consumer ≠ .blocking then none else some { queue with consumer := .blocked }
  | .spuriousWake =>
    if queue.consumer ≠ .blocked then none else some { queue with consumer := .woken }
  | .relock =>
    if queue.consumer ≠ .woken then none else some { queue with consumer := .testing }
  | .decrement =>
    if queue.consumer ≠ .taking then none
    else some { queue with queueSize := queue.queueSize - 1, consumer := .popping }
  | .pop =>
    if queue.consumer ≠ .popping then none
    else
      match queue.consumerQueue with
      | [] => none
      | t :: rest => some { queue with
          consumerQueue := rest, delivered := queue.delivered ++ [t], consumer := .outside }
  | .shutdown =>
    if queue.stopper ≠ .notCalled then none
    else some { queue with shouldExit := true, stopper := .notifying }
  | .notify =>
    if queue.stopper ≠ .notifying then none
    else some { queue.notifyOne with stopper := .returned }

end

def system (Producer T : Type) [DecidableEq Producer] : System (DoubleBuffer Producer T) :=
  System.ofStep {} step

structure BuffersInv (queue : DoubleBuffer Producer T) : Prop where
  order : queue.inserted = queue.delivered ++ (queue.consumerQueue ++ queue.producerQueue)
  size : queue.queueSize + queue.consumer.lag =
    queue.consumerQueue.length + queue.producerQueue.length
  inHand : queue.consumer.hasElement → queue.consumerQueue ≠ []
  swapping : queue.consumer.needsSwap → queue.consumerQueue = []
  thrown : ∀ before, queue.thrownAfter = some before →
    queue.shouldExit = true ∧ before <+: queue.delivered

variable {queue : DoubleBuffer Producer T} {pc : DequeuePc}

section

variable (hi : BuffersInv queue)
include hi

theorem BuffersInv.push [DecidableEq Producer] (producer : Producer) (t : T) :
    BuffersInv (queue.push producer t) where
  order := by simp [DoubleBuffer.push, hi.order]
  size := by
    have hs := hi.size
    simp only [DoubleBuffer.push, length_append, length_singleton]
    omega
  inHand := hi.inHand
  swapping := hi.swapping
  thrown := hi.thrown

theorem BuffersInv.move (pc : DequeuePc)
    (hl : pc.lag = queue.consumer.lag) (hinH : pc.hasElement → queue.consumerQueue ≠ [])
    (hs : pc.needsSwap → queue.consumerQueue = []) : BuffersInv { queue with consumer := pc } where
  order := hi.order
  size := by
    rw [hl]
    exact hi.size
  inHand := hinH
  swapping := hs
  thrown := hi.thrown

theorem BuffersInv.moveOn {next : DequeuePc} (hpc : queue.consumer = pc)
    (hf : pc.needsSwap) (hto : next.needsSwap) : BuffersInv { queue with consumer := next } := by
  have he : queue.consumerQueue = [] := hi.swapping (by rw [hpc]; exact hf)
  refine hi.move next ?_ ?_ fun _ => he
  · cases pc <;> cases next <;> simp_all [DequeuePc.lag, DequeuePc.needsSwap]
  · cases next <;> simp_all [DequeuePc.hasElement, DequeuePc.needsSwap]

theorem BuffersInv.notifyOne : BuffersInv queue.notifyOne := by
  rw [DoubleBuffer.notifyOne]
  split
  · rename_i hb
    exact hi.moveOn hb rfl rfl
  · exact hi

section

variable (hpc : queue.consumer = pc)
include hpc

theorem BuffersInv.size_of_needsSwap (hf : pc.needsSwap) :
    queue.queueSize = queue.consumerQueue.length + queue.producerQueue.length := by
  have hl : queue.consumer.lag = 0 := by
    rw [hpc]
    cases pc <;> simp_all [DequeuePc.lag, DequeuePc.needsSwap]
  rw [← hi.size, hl, Nat.add_zero]

theorem BuffersInv.swap (hf : pc.needsSwap)
    (hfull : queue.producerQueue ≠ []) : BuffersInv queue.swap := by
  have he : queue.consumerQueue = [] := hi.swapping (by rw [hpc]; exact hf)
  have hs := hi.size_of_needsSwap hpc hf
  constructor
  · simpa [DoubleBuffer.swap, he] using hi.order
  · simpa [DoubleBuffer.swap, DequeuePc.lag, Nat.add_comm] using hs
  · exact fun _ => hfull
  · nofun
  · exact hi.thrown

theorem BuffersInv.throw (hf : pc.needsSwap)
    (he : queue.shouldExit = true) : BuffersInv queue.throw := by
  have hs := hi.size_of_needsSwap hpc hf
  constructor
  · exact hi.order
  · exact hs
  · nofun
  · nofun
  · intro before h
    have hp : queue.thrownAfter.getD queue.delivered = before := some.inj h
    cases ht : queue.thrownAfter with
    | none =>
      rw [ht, getD_none] at hp
      exact ⟨he, hp ▸ prefix_refl _⟩
    | some first =>
      rw [ht, getD_some] at hp
      exact hp ▸ hi.thrown first ht

theorem BuffersInv.examine {next : DequeuePc}
    (hf : pc.needsSwap) (hto : next.needsSwap) : BuffersInv (queue.examine next) := by
  rw [DoubleBuffer.examine]
  split
  · rename_i hfull
    exact hi.swap hpc hf (by simpa using hfull)
  · split
    · rename_i he
      exact hi.throw hpc hf he
    · exact hi.moveOn hpc hf hto

end

theorem BuffersInv.step [DecidableEq Producer] {after : DoubleBuffer Producer T}
    {action : QueueAction Producer T} (h : queue.step action = some after) : BuffersInv after := by
  cases action with
  | enqueue producer t =>
    simp only [DoubleBuffer.step] at h
    split_ifs at h
    · cases h
      exact hi
    · cases h
      exact { hi with }
  | insert producer =>
    obtain ⟨t, -, h⟩ := bind_eq_some_iff.mp h
    split_ifs at h
    · cases h
      exact (hi.push producer t).notifyOne
    · cases h
      exact hi.push producer t
  | dequeue =>
    simp only [DoubleBuffer.step] at h
    split_ifs at h with hpc hnil
    · cases h
      refine hi.move .entering ?_ nofun fun _ => ?_
      · rw [not_not.mp hpc]
        rfl
      · simpa using hnil
    · cases h
      refine hi.move .taking ?_ (fun _ => ?_) nofun
      · rw [not_not.mp hpc]
        rfl
      · simpa using hnil
  | lock | test =>
    obtain ⟨hpc, h⟩ := ite_none_left_eq_some.mp h
    cases h
    exact hi.examine (not_not.mp hpc) rfl rfl
  | block | spuriousWake | relock =>
    obtain ⟨hpc, h⟩ := ite_none_left_eq_some.mp h
    cases h
    exact hi.moveOn (not_not.mp hpc) rfl rfl
  | decrement =>
    obtain ⟨hpc, h⟩ := ite_none_left_eq_some.mp h
    cases h
    have hpc := not_not.mp hpc
    -- until the `pop` the counter is one less than the buffers hold
    have hfull : queue.consumerQueue ≠ [] := hi.inHand (by rw [hpc]; rfl)
    refine ⟨hi.order, ?_, fun _ => hfull, nofun, hi.thrown⟩
    have hsize := hi.size
    have hpos : 0 < queue.consumerQueue.length := length_pos_iff.mpr hfull
    simp only [hpc, DequeuePc.lag] at hsize ⊢
    omega
  | pop =>
    obtain ⟨hpc, h⟩ := ite_none_left_eq_some.mp h
    split at h
    · cases h
    · rename_i t rest hque
      cases h
      have hord := hi.order
      have hsize := hi.size
      rw [hque] at hord hsize
      refine ⟨?_, ?_, nofun, nofun, fun before hpre => ?_⟩
      · simpa using hord
      · simp only [not_not.mp hpc, DequeuePc.lag, length_cons] at hsize ⊢
        omega
      · obtain ⟨hexit, hle⟩ := hi.thrown before hpre
        exact ⟨hexit, hle.trans (prefix_append _ _)⟩
  | shutdown =>
    obtain ⟨-, h⟩ := ite_none_left_eq_some.mp h
    cases h
    exact ⟨hi.order, hi.size, hi.inHand, hi.swapping,
      fun before hpre => ⟨rfl, (hi.thrown before hpre).2⟩⟩
  | notify =>
    obtain ⟨-, h⟩ := ite_none_left_eq_some.mp h
    cases h
    have hn := hi.notifyOne
    exact { hn with }

end

end DoubleBuffer

end MySuperLedger.Queue
