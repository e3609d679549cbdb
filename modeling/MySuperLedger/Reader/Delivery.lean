import MySuperLedger.Reader.Tasks

/-! # The reader delivers in order

What the load thread has read is, in the order of the log, what the consumer has
taken, then the tasks of the queue, then the batch the load thread has in hand.
Each task is decrypted once. It follows that the bundles returned so far are the
first ones of the log above the offset.
-/

namespace MySuperLedger.Reader

open Ledger (Bundle)
open Raft Replica Transition List Option Function

def LoadPc.inFlight : LoadPc → List Entry
  | .count entries | .push entries => entries
  | _ => []

/-- Entries that are read and not yet counted in `mLoadedIndex`. -/
def LoadPc.uncounted : LoadPc → Nat
  | .count entries => entries.length
  | _ => 0

theorem LoadPc.uncounted_of_inFlight_nil {pc : LoadPc} (h : pc.inFlight = []) :
    pc.uncounted = 0 := by
  cases pc <;> simp_all [inFlight, uncounted]

def ConsumerPc.held : ConsumerPc → List Entry
  | .swap task => task.entries
  | _ => []

namespace State

variable {config : Config RaftPayload} {workers : Nat}

/-- What is read and not yet decrypted for the consumer, in the order of the log. -/
def pending (s : State config workers) : List Entry :=
  s.consumer.held ++ s.taskQueue.flatMap Task.entries ++ s.loader.inFlight

/-- The load thread has seen a commit index above what it has loaded. -/
def LoaderInv (s : State config workers) : Prop :=
  match s.loader with
  | .getEntries commitIndex => s.loadedIndex < commitIndex ∧ commitIndex ≤ s.view.commitIndex
  | .count entries | .push entries => entries ≠ []
  | _ => True

/-- The cache is empty while it is filled, by the one way or the other. -/
def ConsumerInv (asyncLoad : Bool) (s : State config workers) : Prop :=
  match s.consumer with
  | .idle => True
  | .readQueueSize => asyncLoad = true ∧ s.cachedBundles = []
  | .readFront | .readFlag => asyncLoad = true ∧ s.cachedBundles = [] ∧ s.taskQueue ≠ []
  | .pop =>
    asyncLoad = true ∧ s.cachedBundles = [] ∧
      ∃ task, s.taskQueue.head? = some task ∧ task.flag = .done
  | .swap task =>
    asyncLoad = true ∧ s.cachedBundles = [] ∧ task.entries ≠ [] ∧
      decryptEntries task.entries = some task.bundles
  | .readCommitIndex => asyncLoad = false ∧ s.cachedBundles = []
  | .loadBundles commitIndex =>
    asyncLoad = false ∧ s.cachedBundles = [] ∧ s.loadedIndex < commitIndex ∧
      commitIndex ≤ s.view.commitIndex

structure Lifecycle (asyncLoad : Bool) (s : State config workers) : Prop where
  joining : s.joining = true → s.consumer = .idle ∧ s.running = false
  running : s.joining = false → s.loader ≠ .stopped → s.running = true
  decrypting : s.joining = false → s.loader ≠ .stopped → ∀ worker, s.decrypter worker ≠ .stopped
  loading : s.loader = .stopped → s.joining = false → ∀ worker, s.decrypter worker = .stopped
  sync : asyncLoad = false → s.IsQuiet ∧ s.taskQueue = []

structure Inv (asyncLoad : Bool) (s : State config workers) : Prop where
  flow : Flow s.view.committed s.offset (s.loadedIndex + s.loader.uncounted) s.pending
    (s.delivered ++ s.cachedBundles)
  owned : Owned s.decrypter (taskAt s.popped s.taskQueue)
  loader : s.LoaderInv
  consumer : s.ConsumerInv asyncLoad
  lifecycle : s.Lifecycle asyncLoad

section

variable {asyncLoad : Bool} {s after : State config workers}

theorem Lifecycle.async (h : s.Lifecycle asyncLoad) (hl : s.loader ≠ .stopped) :
    asyncLoad = true := by
  cases asyncLoad with
  | true => rfl
  | false => exact absurd (h.sync rfl).1.1 hl

theorem Lifecycle.moveLoader (h : s.Lifecycle asyncLoad) (pc : LoadPc)
    (hl : s.loader ≠ .stopped) (hpc : pc ≠ .stopped) :
    { s with loader := pc }.Lifecycle asyncLoad where
  joining := h.joining
  running hj _ := h.running hj hl
  decrypting hj _ := h.decrypting hj hl
  loading hs := absurd hs hpc
  sync hsync := absurd (h.sync hsync).1.1 hl

theorem Lifecycle.stopLoader (h : s.Lifecycle asyncLoad) (hl : s.loader ≠ .stopped)
    (hr : s.running = false) : { s with loader := .stopped }.Lifecycle asyncLoad := by
  have hj : s.joining = true := by
    by_contra hn
    have hr' := h.running (Bool.eq_false_of_not_eq_true hn) hl
    rw [hr] at hr'
    cases hr'
  refine ⟨h.joining, fun hn => ?_, fun hn => ?_, fun _ hn => ?_, fun hs => ?_⟩
  · simp [hj] at hn
  · simp [hj] at hn
  · simp [hj] at hn
  · exact absurd (h.sync hs).1.1 hl

theorem Inv.moveLoader (hi : s.Inv asyncLoad) (pc : LoadPc) (hb : s.loader.inFlight = [])
    (ha : pc.inFlight = []) (hinv : { s with loader := pc }.LoaderInv)
    (hl : { s with loader := pc }.Lifecycle asyncLoad) :
    { s with loader := pc }.Inv asyncLoad := by
  refine ⟨?_, hi.owned, hinv, hi.consumer, hl⟩
  have hf := hi.flow
  simp only [pending, hb, LoadPc.uncounted_of_inFlight_nil hb] at hf
  simpa only [pending, ha, LoadPc.uncounted_of_inFlight_nil ha] using hf

theorem Inv.offset_le (hi : s.Inv asyncLoad) (hn : s.loader.inFlight = []) :
    s.offset ≤ s.loadedIndex := by
  obtain ⟨taken, -, -, hr⟩ := hi.flow
  rw [LoadPc.uncounted_of_inFlight_nil hn] at hr
  omega

theorem Inv.keepLoading (hi : s.Inv asyncLoad) (pc : LoadPc) (hl : s.loader ≠ .stopped)
    (hb : s.loader.inFlight = []) (hpc : pc ≠ .stopped) (ha : pc.inFlight = [])
    (hinv : { s with loader := pc }.LoaderInv) : { s with loader := pc }.Inv asyncLoad :=
  hi.moveLoader pc hb ha hinv (hi.lifecycle.moveLoader pc hl hpc)

section

variable (hi : s.Inv asyncLoad) (h : s.load = some after)
include hi h

theorem Inv.load_getEntries {commitIndex : Nat} (hfst : s.view.firstIndex ≤ s.offset + 1)
    (hpc : s.loader = .getEntries commitIndex) : after.Inv asyncLoad := by
  have hinv := hi.loader
  have hflow := hi.flow
  have hoff := hi.offset_le (by simp [hpc, LoadPc.inFlight])
  simp only [LoaderInv, hpc] at hinv
  simp only [pending, hpc, LoadPc.inFlight, LoadPc.uncounted, Nat.add_zero, append_nil] at hflow
  obtain ⟨entries, hget, hne, hpre⟩ :=
    s.view.exists_getEntries (by omega) hinv.1 hinv.2
  simp only [State.load, hpc, hget, map_some, some.injEq] at h
  subst h
  refine ⟨?_, hi.owned, hne, hi.consumer, hi.lifecycle.moveLoader _ (by simp [hpc]) (by simp)⟩
  exact hflow.load hpre

theorem Inv.load_count {entries : List Entry} (hpc : s.loader = .count entries) :
    after.Inv asyncLoad := by
  have hinv := hi.loader
  have hflow := hi.flow
  have hlife := hi.lifecycle.moveLoader (.push entries) (by simp [hpc]) (by simp)
  have hasy := hi.lifecycle.async (by simp [hpc])
  simp only [State.load, hpc, some.injEq] at h
  simp only [LoaderInv, hpc] at hinv
  simp only [pending, hpc, LoadPc.inFlight, LoadPc.uncounted] at hflow
  subst h
  refine ⟨hflow, hi.owned, hinv, ?_, { hlife with }⟩
  have hcons := hi.consumer
  subst hasy
  unfold ConsumerInv at hcons ⊢
  cases hcon : s.consumer <;> simp_all

theorem Inv.load_push {entries : List Entry} (hpc : s.loader = .push entries) :
    after.Inv asyncLoad := by
  have hinv := hi.loader
  have hflow := hi.flow
  have hlife := hi.lifecycle.moveLoader .testRunning (by simp [hpc]) (by simp)
  simp only [State.load, hpc, some.injEq] at h
  simp only [LoaderInv, hpc] at hinv
  simp only [pending, hpc, LoadPc.inFlight, LoadPc.uncounted] at hflow
  subst h
  refine ⟨?_, ?_, trivial, ?_, { hlife with
    sync := fun hsync => absurd (hi.lifecycle.sync hsync).1.1 (by simp [hpc]) }⟩
  · simpa [pending, LoadPc.inFlight, LoadPc.uncounted] using hflow
  · rw [taskAt_push]
    exact hi.owned.push taskAt_next hinv
  · have hcons := hi.consumer
    unfold ConsumerInv at hcons ⊢
    cases hcon : s.consumer with
    | pop =>
      simp only [hcon] at hcons ⊢
      obtain ⟨hasy, hcac, task, hhead, hflag⟩ := hcons
      exact ⟨hasy, hcac, task, by simp [head?_append, hhead], hflag⟩
    | _ => simp_all

theorem Inv.load (hfst : s.view.firstIndex ≤ s.offset + 1) : after.Inv asyncLoad := by
  cases hpc : s.loader with
  | stopped => simp [State.load, hpc] at h
  | testRunning =>
    simp only [State.load, hpc, some.injEq] at h
    subst h
    split
    · exact hi.keepLoading .readQueueSize (by simp [hpc]) (by rw [hpc]; rfl) (by simp) rfl trivial
    · rename_i hrun
      exact hi.moveLoader .stopped (by rw [hpc]; rfl) rfl trivial
        (hi.lifecycle.stopLoader (by simp [hpc]) (Bool.eq_false_of_not_eq_true hrun))
  | readQueueSize =>
    simp only [State.load, hpc, some.injEq] at h
    subst h
    split
    · exact hi.keepLoading .testRunning (by simp [hpc]) (by rw [hpc]; rfl) (by simp) rfl trivial
    · exact hi.keepLoading .readCommitIndex (by simp [hpc]) (by rw [hpc]; rfl) (by simp) rfl trivial
  | readCommitIndex =>
    simp only [State.load, hpc, some.injEq] at h
    subst h
    split
    · exact hi.keepLoading .testRunning (by simp [hpc]) (by rw [hpc]; rfl) (by simp) rfl trivial
    · rename_i hlt
      exact hi.keepLoading (.getEntries s.view.commitIndex) (by simp [hpc]) (by rw [hpc]; rfl)
        (by simp) rfl ⟨Nat.not_le.mp hlt, le_rfl⟩
  | getEntries commitIndex => exact hi.load_getEntries h hfst hpc
  | count entries => exact hi.load_count h hpc
  | push entries => exact hi.load_push h hpc

end

variable {worker : Fin workers} {pc : DecryptPc}

theorem Lifecycle.moveDecrypter (h : s.Lifecycle asyncLoad)
    (hw : s.decrypter worker ≠ .stopped) (hpc : pc ≠ .stopped) :
    (s.setDecrypter worker pc).Lifecycle asyncLoad where
  joining := h.joining
  running := h.running
  decrypting hj hl other := by
    by_cases ho : other = worker
    · subst ho
      simpa [setDecrypter] using hpc
    · simpa [setDecrypter, ho] using h.decrypting hj hl other
  loading hl hj := absurd (h.loading hl hj worker) hw
  sync hs := absurd ((h.sync hs).1.2 worker) hw

theorem Lifecycle.stopDecrypter (h : s.Lifecycle asyncLoad)
    (hw : s.decrypter worker ≠ .stopped) (hr : s.running = false) :
    (s.setDecrypter worker .stopped).Lifecycle asyncLoad := by
  have hj : ¬ s.joining = false := by
    intro hn
    by_cases hl : s.loader = .stopped
    · exact hw (h.loading hl hn worker)
    · simpa [hr] using h.running hn hl
  refine ⟨h.joining, h.running, fun hn => absurd hn hj, fun _ hn => absurd hn hj, fun hs => ?_⟩
  exact absurd ((h.sync hs).1.2 worker) hw

theorem Inv.moveDecrypter (hi : s.Inv asyncLoad) (hb : (s.decrypter worker).holds = none)
    (ha : pc.holds = none) (hl : (s.setDecrypter worker pc).Lifecycle asyncLoad) :
    (s.setDecrypter worker pc).Inv asyncLoad :=
  ⟨hi.flow, hi.owned.move hb ha, hi.loader, hi.consumer, hl⟩

variable {number : Nat} {before : Task}

theorem ConsumerInv.setTask (h : s.ConsumerInv asyncLoad) (ht : s.task? number = some before)
    (hf : before.flag ≠ .done) (task : Task) : (s.setTask number task).ConsumerInv asyncLoad := by
  unfold ConsumerInv at h ⊢
  cases hpc : s.consumer with
  | pop =>
    simp only [State.setTask, hpc] at h ⊢
    obtain ⟨ha, hc, front, hh, hd⟩ := h
    refine ⟨ha, hc, front, ?_, hd⟩
    have hne : number - s.popped ≠ 0 := by
      intro hz
      obtain ⟨-, hat⟩ := ite_none_right_eq_some.mp ht
      rw [hz, ← head?_eq_getElem?, hh] at hat
      cases hat
      exact hf hd
    rw [head?_eq_getElem?, getElem?_set_ne hne, ← head?_eq_getElem?, hh]
  | idle => simp [State.setTask, hpc]
  | _ => simpa [State.setTask, hpc] using h

theorem Inv.work (hi : s.Inv asyncLoad) {task : Task} (ht : s.task? number = some before)
    (he : task.entries = before.entries) (hflag : before.flag ≠ .done)
    (ho : Owned (update s.decrypter worker pc)
      (update (taskAt s.popped s.taskQueue) number (some task)))
    (hw : s.decrypter worker ≠ .stopped) (hpc : pc ≠ .stopped) :
    ((s.setTask number task).setDecrypter worker pc).Inv asyncLoad := by
  have hl := hi.lifecycle.moveDecrypter hw hpc
  refine ⟨?_, ?_, hi.loader, hi.consumer.setTask ht hflag task, ⟨hl.joining, hl.running,
    hl.decrypting, hl.loading, fun hs => ?_⟩⟩
  · have hsame := flatMap_entries_set ht he
    have hf := hi.flow
    simp only [pending] at hf
    simpa only [pending, setDecrypter, setTask, hsame] using hf
  · rw [← taskAt_set ht] at ho
    exact ho
  · exact absurd ((hi.lifecycle.sync hs).1.2 worker) hw

theorem Inv.decrypt (hi : s.Inv asyncLoad) (h : s.decrypt worker = some after) :
    after.Inv asyncLoad := by
  cases hpc : s.decrypter worker with
  | stopped => simp [State.decrypt, hpc] at h
  | testRunning =>
    simp only [State.decrypt, hpc, some.injEq] at h
    subst h
    have hwork : s.decrypter worker ≠ .stopped := by simp [hpc]
    have hfree : (s.decrypter worker).holds = none := by simp [hpc, DecryptPc.holds]
    split
    · exact hi.moveDecrypter hfree rfl (hi.lifecycle.moveDecrypter hwork (by simp))
    · rename_i hrun
      exact hi.moveDecrypter hfree rfl
        (hi.lifecycle.stopDecrypter hwork (Bool.eq_false_of_not_eq_true hrun))
  | take =>
    have hwork : s.decrypter worker ≠ .stopped := by simp [hpc]
    have hfree : (s.decrypter worker).holds = none := by simp [hpc, DecryptPc.holds]
    simp only [State.decrypt, hpc] at h
    split at h
    · cases h
      exact hi.moveDecrypter hfree rfl (hi.lifecycle.moveDecrypter hwork (by simp))
    · rename_i position hfnd
      obtain ⟨task, htask, rfl⟩ := map_eq_some_iff.mp h
      have hflag : task.flag = .initial := by
        obtain ⟨hlt, hinit, -⟩ := findIdx?_eq_some_iff_getElem.mp hfnd
        obtain ⟨-, hat⟩ := ite_none_right_eq_some.mp htask
        rw [Nat.add_sub_cancel_left, getElem?_eq_getElem hlt] at hat
        cases hat
        exact of_decide_eq_true hinit
      exact hi.work htask rfl (by simp [hflag]) (hi.owned.take hfree htask hflag) hwork
        (by simp)
  | decrypt number =>
    have hwork : s.decrypter worker ≠ .stopped := by simp [hpc]
    simp only [State.decrypt, hpc] at h
    obtain ⟨task, htask, h⟩ := bind_eq_some_iff.mp h
    obtain ⟨bundles, hbun, rfl⟩ := map_eq_some_iff.mp h
    have hhold : (s.decrypter worker).holds = some number := by rw [hpc]; rfl
    obtain ⟨hflag, -⟩ := hi.owned.of_holds hhold htask
    exact hi.work htask rfl (by simp [hflag]) (hi.owned.decrypt hpc htask hbun) hwork
      (by simp)
  | finish number =>
    have hwork : s.decrypter worker ≠ .stopped := by simp [hpc]
    simp only [State.decrypt, hpc] at h
    obtain ⟨task, htask, rfl⟩ := map_eq_some_iff.mp h
    have hhold : (s.decrypter worker).holds = some number := by rw [hpc]; rfl
    obtain ⟨hflag, -⟩ := hi.owned.of_holds hhold htask
    exact hi.work htask rfl (by simp [hflag]) (hi.owned.finish hpc htask) hwork (by simp)

theorem Lifecycle.moveConsumer (h : s.Lifecycle asyncLoad) (hj : s.joining = false)
    (pc : ConsumerPc) : { s with consumer := pc }.Lifecycle asyncLoad :=
  { h with joining := fun hn => by simp [hj] at hn }

theorem Lifecycle.not_joining (h : s.Lifecycle asyncLoad) (hpc : s.consumer ≠ .idle) :
    s.joining = false := by
  by_contra hn
  exact hpc (h.joining (Bool.eq_true_of_not_eq_false hn)).1

theorem Inv.moveConsumer (hi : s.Inv asyncLoad) (pc : ConsumerPc) (hb : s.consumer.held = [])
    (ha : pc.held = []) (hj : s.joining = false)
    (hinv : { s with consumer := pc }.ConsumerInv asyncLoad) :
    { s with consumer := pc }.Inv asyncLoad := by
  refine ⟨?_, hi.owned, hi.loader, hinv, hi.lifecycle.moveConsumer hj pc⟩
  have hf := hi.flow
  simp only [pending, hb] at hf
  simpa only [pending, ha] using hf

theorem Inv.takeBundle (hi : { s with consumer := .idle }.Inv asyncLoad) :
    s.takeBundle.Inv asyncLoad := by
  unfold State.takeBundle
  split
  · exact hi
  · rename_i bundle cachedBundles hc
    have hl := hi.lifecycle
    refine ⟨?_, hi.owned, hi.loader, trivial, { hl with }⟩
    have hf := hi.flow
    simp only [pending, hc] at hf
    simpa [pending] using hf

section

variable (hi : s.Inv asyncLoad) (h : s.consume asyncLoad = some after)
include hi h

theorem Inv.consume_idle (hpc : s.consumer = .idle) : after.Inv asyncLoad := by
  simp only [State.consume, hpc] at h
  obtain ⟨hnot, h⟩ := ite_none_left_eq_some.mp h
  have hjoin : s.joining = false := Bool.eq_false_of_not_eq_true hnot
  have happl : { s with
      appliedIndex := max s.appliedIndex s.applyingIndex, consumer := .idle }.Inv asyncLoad := by
    have hidle := hi.moveConsumer .idle (by simp [hpc, ConsumerPc.held]) rfl hjoin trivial
    exact { hidle with lifecycle := { hidle.lifecycle with } }
  split at h
  · rename_i hcac
    cases h
    have hcac : s.cachedBundles = [] := isEmpty_iff.mp hcac
    split
    · rename_i hasy
      exact happl.moveConsumer .readQueueSize rfl rfl hjoin ⟨hasy, hcac⟩
    · rename_i hsync
      exact happl.moveConsumer .readCommitIndex rfl rfl hjoin
        ⟨Bool.eq_false_of_not_eq_true hsync, hcac⟩
  · cases h
    exact happl.takeBundle

theorem Inv.consume_pop (hpc : s.consumer = .pop) : after.Inv asyncLoad := by
  have hjoin := hi.lifecycle.not_joining (by simp [hpc])
  have hcons := hi.consumer
  simp only [State.consume, hpc] at h
  simp only [ConsumerInv, hpc] at hcons
  obtain ⟨hasy, hcac, task, hhead, hdone⟩ := hcons
  rw [hhead, map_some, some.injEq] at h
  subst h
  have hque : s.taskQueue = task :: s.taskQueue.tail := (cons_head?_tail hhead).symm
  have htask : taskAt s.popped s.taskQueue s.popped = some task := taskAt_front.trans hhead
  refine ⟨?_, ?_, hi.loader, ?_, { hi.lifecycle.moveConsumer hjoin (.swap task) with
    sync := fun hsync => by simp [hsync] at hasy }⟩
  · have hflow := hi.flow
    simp only [pending, hpc, ConsumerPc.held] at hflow
    rw [hque] at hflow
    simpa [pending, ConsumerPc.held] using hflow
  · rw [taskAt_pop]
    exact hi.owned.pop htask hdone
  · exact ⟨hasy, hcac, hi.owned.entries_ne_nil _ _ htask, (hi.owned.done htask hdone).1⟩

theorem Inv.consume_swap {task : Task} (hpc : s.consumer = .swap task) : after.Inv asyncLoad := by
  have hjoin := hi.lifecycle.not_joining (by simp [hpc])
  have hcons := hi.consumer
  simp only [State.consume, hpc, some.injEq] at h
  simp only [ConsumerInv, hpc] at hcons
  obtain ⟨hasy, hcac, -, hbun⟩ := hcons
  subst h
  refine Inv.takeBundle ⟨?_, hi.owned, hi.loader, trivial,
    { hi.lifecycle.moveConsumer hjoin .idle with }⟩
  have hflow := hi.flow
  simp only [pending, hpc, ConsumerPc.held, hcac, append_nil, append_assoc] at hflow
  simpa [pending, ConsumerPc.held] using hflow.take hbun

theorem Inv.consume_loadBundles {commitIndex : Nat} (hfst : s.view.firstIndex ≤ s.offset + 1)
    (hpc : s.consumer = .loadBundles commitIndex) : after.Inv asyncLoad := by
  have hjoin := hi.lifecycle.not_joining (by simp [hpc])
  have hcons := hi.consumer
  simp only [ConsumerInv, hpc] at hcons
  obtain ⟨hsync, hcac, hlt, hle⟩ := hcons
  obtain ⟨⟨hload, -⟩, hque⟩ := hi.lifecycle.sync hsync
  have hoff := hi.offset_le (by simp [hload, LoadPc.inFlight])
  have hflow := hi.flow
  simp only [pending, hpc, hload, hque, hcac, ConsumerPc.held, LoadPc.inFlight,
    LoadPc.uncounted, Nat.add_zero, append_nil, flatMap_nil] at hflow
  obtain ⟨entries, hget, -, hpre⟩ := s.view.exists_getEntries (by omega) hlt hle
  simp only [State.consume, hpc, hget, bind_some] at h
  obtain ⟨bundles, hbun, rfl⟩ := map_eq_some_iff.mp h
  refine Inv.takeBundle ⟨?_, hi.owned, ?_, trivial,
    { hi.lifecycle.moveConsumer hjoin .idle with }⟩
  · have hread := hflow.load hpre
    rw [nil_append, ← append_nil entries] at hread
    simpa [pending, ConsumerPc.held, hload, hque, LoadPc.inFlight, LoadPc.uncounted] using
      hread.take hbun
  · simp [LoaderInv, hload]

theorem Inv.consume (hfst : s.view.firstIndex ≤ s.offset + 1) : after.Inv asyncLoad := by
  have hcons := hi.consumer
  have hjoin := hi.lifecycle.not_joining
  cases hpc : s.consumer with
  | idle => exact hi.consume_idle h hpc
  | readQueueSize =>
    simp only [State.consume, hpc, some.injEq] at h
    simp only [ConsumerInv, hpc] at hcons
    subst h
    split
    · exact hi.moveConsumer .idle (by rw [hpc]; rfl) rfl (hjoin (by simp [hpc])) trivial
    · rename_i hfull
      exact hi.moveConsumer .readFront (by rw [hpc]; rfl) rfl (hjoin (by simp [hpc]))
        ⟨hcons.1, hcons.2, fun hnil => hfull (isEmpty_iff.mpr hnil)⟩
  | readFront =>
    simp only [State.consume, hpc, some.injEq] at h
    simp only [ConsumerInv, hpc] at hcons
    subst h
    exact hi.moveConsumer .readFlag (by rw [hpc]; rfl) rfl (hjoin (by simp [hpc])) hcons
  | readFlag =>
    simp only [State.consume, hpc] at h
    simp only [ConsumerInv, hpc] at hcons
    obtain ⟨task, hhead, rfl⟩ := map_eq_some_iff.mp h
    split
    · rename_i hdone
      exact hi.moveConsumer .pop (by rw [hpc]; rfl) rfl (hjoin (by simp [hpc]))
        ⟨hcons.1, hcons.2.1, task, hhead, hdone⟩
    · exact hi.moveConsumer .idle (by rw [hpc]; rfl) rfl (hjoin (by simp [hpc])) trivial
  | pop => exact hi.consume_pop h hpc
  | swap task => exact hi.consume_swap h hpc
  | readCommitIndex =>
    simp only [State.consume, hpc, some.injEq] at h
    simp only [ConsumerInv, hpc] at hcons
    subst h
    split
    · exact hi.moveConsumer .idle (by rw [hpc]; rfl) rfl (hjoin (by simp [hpc])) trivial
    · rename_i hlt
      exact hi.moveConsumer (.loadBundles s.view.commitIndex) (by rw [hpc]; rfl) rfl
        (hjoin (by simp [hpc])) ⟨hcons.1, hcons.2, Nat.not_le.mp hlt, le_rfl⟩
  | loadBundles commitIndex => exact hi.consume_loadBundles h hfst hpc

end

theorem eq_idle_of_isIdle {pc : ConsumerPc} (h : pc.isIdle = true) : pc = .idle := by
  cases pc with
  | idle => rfl
  | _ => cases h

theorem inv_start (asyncLoad : Bool) (view : RaftView config) (running : Bool) :
    { view := view, running := running : State config workers }.Inv asyncLoad where
  flow := Flow.nil view.committed 0
  owned := ⟨by simp [taskAt], by simp [taskAt], by simp [DecryptPc.holds]⟩
  loader := trivial
  consumer := trivial
  lifecycle := ⟨by simp, by simp, by simp, by simp, fun _ => ⟨⟨rfl, fun _ => rfl⟩, rfl⟩⟩

section

variable (hi : s.Inv asyncLoad)
include hi

theorem Inv.teardown (hidle : s.consumer = .idle) : s.teardown.Inv asyncLoad :=
  { hi with
    lifecycle := ⟨fun _ => ⟨hidle, rfl⟩, by simp [State.teardown], by simp [State.teardown],
      by simp [State.teardown], hi.lifecycle.sync⟩ }

theorem Inv.setCurrentOffset (hidle : s.consumer = .idle) (hqt : s.IsQuiet) {currentOffset : Nat}
    (h : s.setCurrentOffset currentOffset = some after) : after.Inv asyncLoad := by
  obtain ⟨⟨-, hload⟩, h⟩ := ite_none_right_eq_some.mp h
  cases h
  have hf := hi.flow
  have hl := hi.lifecycle
  rw [hload, hqt.1] at hf
  obtain ⟨-, hp, hb⟩ := hf.eq_nil_of_read_zero
  refine ⟨?_, hi.owned, by simp [LoaderInv, hqt.1], by simp [ConsumerInv, hidle],
    { hl with }⟩
  simp only [pending, hqt.1] at hp
  simp only [pending, hqt.1, hp, hb]
  exact Flow.nil _ _

theorem Inv.init (hj : s.joining = false) (hqt : s.IsQuiet) : (s.init asyncLoad).Inv asyncLoad := by
  have hl := hi.lifecycle
  unfold State.init
  split
  · rename_i ha
    refine ⟨?_, ?_, trivial, hi.consumer, ⟨by simp [hj], by simp, by simp, by simp, ?_⟩⟩
    · have hf := hi.flow
      simp only [pending, hqt.1] at hf
      exact hf
    · exact hi.owned.restart (by simp [hqt.2, DecryptPc.holds]) (by simp [DecryptPc.holds])
    · intro hs
      simp [hs] at ha
  · exact ⟨hi.flow, hi.owned, hi.loader, hi.consumer, ⟨by simp [hj], fun _ _ => rfl,
      hl.decrypting, hl.loading, hl.sync⟩⟩

theorem Inv.raft {view : RaftView config} (hg : s.view.Grows view) :
    { s with view := view }.Inv asyncLoad := by
  have hl := hi.lifecycle
  have hle : s.view.commitIndex ≤ view.commitIndex := by
    have hlen := hg.length_le
    rwa [s.view.length_committed, view.length_committed] at hlen
  refine ⟨hi.flow.mono hg, hi.owned, ?_, ?_, { hl with }⟩
  · have hload := hi.loader
    unfold LoaderInv at hload ⊢
    cases hpc : s.loader with
    | getEntries commitIndex =>
      simp only [hpc] at hload ⊢
      exact ⟨hload.1, hload.2.trans hle⟩
    | _ => simp_all
  · have hc := hi.consumer
    unfold ConsumerInv at hc ⊢
    cases hpc : s.consumer with
    | loadBundles commitIndex =>
      simp only [hpc] at hc ⊢
      exact ⟨hc.1, hc.2.1, hc.2.2.1, hc.2.2.2.trans hle⟩
    | _ => simp_all

theorem Inv.step {action : Action config workers}
    (hok : s.Admissible action) (h : s.step asyncLoad action = some after) :
    after.Inv asyncLoad := by
  cases action with
  | load => exact hi.load h hok
  | decrypt worker => exact hi.decrypt h
  | consume => exact hi.consume h hok
  | teardown =>
    obtain ⟨hm, h⟩ := ite_none_right_eq_some.mp h
    cases h
    exact hi.teardown (eq_idle_of_isIdle hm.1)
  | cleanup =>
    obtain ⟨-, h⟩ := ite_none_right_eq_some.mp h
    cases h
    exact inv_start asyncLoad s.view s.running
  | setCurrentOffset currentOffset =>
    obtain ⟨⟨hm, hqt⟩, h⟩ := ite_none_right_eq_some.mp h
    exact hi.setCurrentOffset (eq_idle_of_isIdle hm.1) hqt h
  | init =>
    obtain ⟨⟨hm, hqt⟩, h⟩ := ite_none_right_eq_some.mp h
    cases h
    exact hi.init hm.2 hqt
  | raft view =>
    cases h
    exact hi.raft hok

end

end

end State

variable {asyncLoad : Bool} {config : Config RaftPayload} {workers : Nat} {s : State config workers}

theorem inv_of_reachable {view : RaftView config} (hs : (reader asyncLoad workers view).Reachable s)
    : s.Inv asyncLoad := by
  refine hs.invariant (State.Inv asyncLoad) ?_ ?_
  · rintro s rfl
    exact State.inv_start asyncLoad view true
  · rintro s after hi ⟨action, hok, hstep⟩
    exact hi.step hok hstep

/-- What has been returned are the bundles of the first entries above the offset. -/
theorem State.Inv.delivered_isPrefix (hi : s.Inv asyncLoad) : s.delivered.map some <+:
      (s.view.deliverable s.offset).map fun entry => entry.payload.decode := by
  obtain ⟨rest, hr⟩ := hi.flow.isPrefix s.view.decodes
  rw [RaftView.deliverable, ← map_some_of_decryptEntries hr]
  simp

end MySuperLedger.Reader
