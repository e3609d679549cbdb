import Mathlib.Algebra.Order.BigOperators.Group.Finset
import MySuperLedger.Reader.Delivery

/-! # The reader delivers everything

As long as an entry above the offset is left, some thread can take a step that
brings it nearer: the consumer finishes its call, or starts one if the oldest
task is done; otherwise the owner of that task works on it, or a thread takes
it; without a task the load thread loads one. A rank measures how far it is.
-/

namespace MySuperLedger.Reader

open Ledger (Bundle)
open Raft Replica Transition List Option Function

/-- Steps until a batch is in the queue. -/
def LoadPc.rank : LoadPc → Nat
  | .stopped => 23
  | .testRunning => 22
  | .readQueueSize => 21
  | .readCommitIndex => 20
  | .getEntries _ => 19
  | .count _ => 18
  | .push _ => 17

/-- Steps until the thread has taken a task. -/
def DecryptPc.rank : DecryptPc → Nat
  | .stopped => 23
  | .decrypt _ => 16
  | .finish _ => 15
  | .testRunning => 14
  | .take => 13

namespace State

variable {config : Config RaftPayload} {workers : Nat}

/-- The committed entries that the consumer has not taken. -/
def remaining (s : State config workers) : Nat :=
  s.view.commitIndex + s.pending.length - (s.loadedIndex + s.loader.uncounted)

def frontIsDone (s : State config workers) : Bool :=
  s.taskQueue.head?.any fun task => task.flag = .done

/-- Steps until the oldest task is done; `helper` takes it if nobody has. -/
def workRank (s : State config workers) (helper : Fin workers) : Nat :=
  match s.taskQueue with
  | [] => s.loader.rank
  | task :: _ =>
    match task.flag with
    | .initial => (s.decrypter helper).rank
    | .doing => if ∃ worker, s.decrypter worker = .finish s.popped then 11 else 12
    | .done => 5

/-- A call that finds no finished task has to be made once more. -/
def callRank (s : State config workers) (helper : Fin workers) : Nat :=
  match s.consumer with
  | .swap _ => 0
  | .pop | .loadBundles _ => 1
  | .readCommitIndex => 2
  | .readFlag => if s.frontIsDone then 2 else 101
  | .readFront => if s.frontIsDone then 3 else 102
  | .readQueueSize => if s.frontIsDone then 4 else 103
  | .idle => s.workRank helper

theorem workRank_lt (s : State config workers) (helper : Fin workers) :
    s.workRank helper < 101 := by
  unfold workRank
  split
  · cases s.loader <;> simp [LoadPc.rank]
  · split
    · cases s.decrypter helper <;> simp [DecryptPc.rank]
    · split <;> omega
    · omega

/-- A step that delivers, or that leaves less to do. -/
def Advances (helper : Fin workers) (s after : State config workers) : Prop :=
  (after.view = s.view ∧ after.offset = s.offset ∧ after.joining = s.joining) ∧
    ((∃ bundle, after.delivered = s.delivered ++ [bundle]) ∨
      after.delivered = s.delivered ∧ (after.loader = .stopped → s.loader = .stopped) ∧
        (after.remaining < s.remaining ∨
          after.remaining = s.remaining ∧ after.callRank helper < s.callRank helper))

/-- The threads are there, and an entry is left. -/
structure Waiting (asyncLoad : Bool) (s : State config workers) : Prop where
  inv : s.Inv asyncLoad
  joining : s.joining = false
  loading : asyncLoad = true → s.loader ≠ .stopped
  first : s.view.firstIndex ≤ s.offset + 1
  missing : decryptEntries (s.view.committed.drop s.offset) ≠ some s.delivered

section

variable {asyncLoad : Bool} {s : State config workers} (helper : Fin workers)

theorem Inv.read_le (hi : s.Inv asyncLoad) (hp : s.pending ≠ []) :
    s.loadedIndex + s.loader.uncounted ≤ s.view.commitIndex := by
  obtain ⟨taken, -, hpre, hr⟩ := hi.flow
  have hpos := length_pos_iff.mpr hp
  have hl := hpre.length_le
  rw [length_drop, s.view.length_committed, length_append] at hl
  rw [length_append] at hr
  omega

theorem Waiting.loadedIndex_lt (h : s.Waiting asyncLoad) (hp : s.pending = [])
    (hc : s.cachedBundles = []) : s.loadedIndex < s.view.commitIndex := by
  by_contra hle
  have hf := h.inv.flow
  rw [hp, hc, append_nil] at hf
  refine h.missing (hf.eq_of_complete ?_)
  rw [s.view.length_committed]
  omega

theorem takeBundle_advances {before : State config workers}
    (hsame : s.view = before.view ∧ s.offset = before.offset ∧ s.joining = before.joining)
    (hd : s.delivered = before.delivered) (hl : s.loader = before.loader)
    (hless : { s with consumer := .idle }.remaining < before.remaining) :
    before.Advances helper s.takeBundle := by
  unfold takeBundle
  split
  · exact ⟨hsame, .inr ⟨hd, fun hs => hl ▸ hs, .inl hless⟩⟩
  · rename_i bundle rest hc
    exact ⟨hsame, .inl ⟨bundle, by rw [hd]⟩⟩

variable {task : Task} {worker : Fin workers} {number : Nat} {rest : List Task}
  {after : State config workers}

theorem Waiting.consume_swap (h : s.Waiting asyncLoad) (hpc : s.consumer = .swap task) :
    ∃ after, s.consume asyncLoad = some after ∧ s.Advances helper after := by
  have hc := h.inv.consumer
  simp only [ConsumerInv, hpc] at hc
  refine ⟨{ s with cachedBundles := task.bundles }.takeBundle, by simp only [consume, hpc],
    ?_⟩
  have hpos := length_pos_iff.mpr hc.2.2.1
  have hp : s.pending ≠ [] := by
    simp [pending, hpc, ConsumerPc.held, hc.2.2.1]
  have hle := h.inv.read_le hp
  apply takeBundle_advances
  · exact ⟨rfl, rfl, rfl⟩
  · rfl
  · rfl
  · simp only [remaining, pending, hpc, ConsumerPc.held, length_append, nil_append]
    omega

theorem Waiting.consume_loadBundles (h : s.Waiting asyncLoad) {commitIndex : Nat}
    (hpc : s.consumer = .loadBundles commitIndex) :
    ∃ after, s.consume asyncLoad = some after ∧ s.Advances helper after := by
  have hc := h.inv.consumer
  simp only [ConsumerInv, hpc] at hc
  obtain ⟨hs, hcac, hlt, hle⟩ := hc
  obtain ⟨⟨hl, -⟩, hq⟩ := h.inv.lifecycle.sync hs
  have ho := h.inv.offset_le (by simp [hl, LoadPc.inFlight])
  have hf := h.first
  obtain ⟨entries, hg, hne, hp⟩ := s.view.exists_getEntries (by omega) hlt hle
  obtain ⟨bundles, hb⟩ := exists_decryptEntries_of_isPrefix s.view.decodes hp
  refine ⟨{ s with
      loadedIndex := s.loadedIndex + entries.length, cachedBundles := bundles }.takeBundle,
    by simp only [consume, hpc, hg, hb, bind_some, map_some], ?_⟩
  have hpos := length_pos_iff.mpr hne
  apply takeBundle_advances
  · exact ⟨rfl, rfl, rfl⟩
  · rfl
  · rfl
  · simp only [remaining, pending, hpc, hl, hq, ConsumerPc.held, LoadPc.inFlight,
      LoadPc.uncounted, flatMap_nil, append_nil, length_nil]
    omega

theorem advances_moveConsumer (pc : ConsumerPc) (hb : s.consumer.held = []) (ha : pc.held = [])
    (hr : { s with consumer := pc }.callRank helper < s.callRank helper) :
    s.Advances helper { s with consumer := pc } := by
  refine ⟨⟨rfl, rfl, rfl⟩, .inr ⟨rfl, id, .inr ⟨?_, hr⟩⟩⟩
  simp only [remaining, pending, hb, ha]

theorem Waiting.consume_running (h : s.Waiting asyncLoad) (hpc : s.consumer ≠ .idle) :
    ∃ after, s.consume asyncLoad = some after ∧ s.Advances helper after := by
  have hcons := h.inv.consumer
  have hrank := s.workRank_lt helper
  -- each step of the call lowers its rank; a call in vain passes the work to a helper
  cases hat : s.consumer with
  | idle => exact absurd hat hpc
  | swap task => exact h.consume_swap helper hat
  | loadBundles commitIndex => exact h.consume_loadBundles helper hat
  | readQueueSize =>
    by_cases hnil : s.taskQueue.isEmpty = true
    · have hdone : s.frontIsDone = false := by
        simp [frontIsDone, isEmpty_iff.mp hnil]
      refine ⟨{ s with consumer := .idle }, by simp only [consume, hat, if_pos hnil],
        advances_moveConsumer helper _ (by simp [hat, ConsumerPc.held]) rfl ?_⟩
      simp only [callRank, hat, hdone]
      exact hrank.trans (by decide)
    · refine ⟨{ s with consumer := .readFront }, by simp only [consume, hat, if_neg hnil],
        advances_moveConsumer helper _ (by simp [hat, ConsumerPc.held]) rfl ?_⟩
      simp only [callRank, hat]
      have hsame : { s with consumer := .readFront }.frontIsDone = s.frontIsDone := rfl
      rw [hsame]
      split <;> omega
  | readFront =>
    refine ⟨{ s with consumer := .readFlag }, by simp only [consume, hat],
      advances_moveConsumer helper _ (by simp [hat, ConsumerPc.held]) rfl ?_⟩
    simp only [callRank, hat]
    have hsame : { s with consumer := .readFlag }.frontIsDone = s.frontIsDone := rfl
    rw [hsame]
    split <;> omega
  | readFlag =>
    simp only [ConsumerInv, hat] at hcons
    obtain ⟨task, rest, hque⟩ := exists_cons_of_ne_nil hcons.2.2
    by_cases hdone : task.flag = .done
    · refine ⟨{ s with consumer := .pop }, by simp [consume, hat, hque, hdone],
        advances_moveConsumer helper _ (by simp [hat, ConsumerPc.held]) rfl ?_⟩
      simp [callRank, hat, frontIsDone, hque, hdone]
    · refine ⟨{ s with consumer := .idle }, by simp [consume, hat, hque, hdone],
        advances_moveConsumer helper _ (by simp [hat, ConsumerPc.held]) rfl ?_⟩
      have hnot : s.frontIsDone = false := by simp [frontIsDone, hque, hdone]
      simp only [callRank, hat, hnot]
      exact hrank
  | pop =>
    simp only [ConsumerInv, hat] at hcons
    obtain ⟨-, -, task, hhead, -⟩ := hcons
    have hque : s.taskQueue = task :: s.taskQueue.tail := (cons_head?_tail hhead).symm
    refine ⟨{ s with
        taskQueue := s.taskQueue.tail, popped := s.popped + 1, consumer := .swap task },
      by simp only [consume, hat, hhead, map_some],
      ⟨⟨rfl, rfl, rfl⟩, .inr ⟨rfl, id, .inr ⟨?_, by simp [callRank, hat]⟩⟩⟩⟩
    have hpend : s.taskQueue.flatMap Task.entries =
        task.entries ++ s.taskQueue.tail.flatMap Task.entries := by
      rw [hque]
      simp
    simp only [remaining, pending, hat, ConsumerPc.held, hpend, nil_append]
  | readCommitIndex =>
    simp only [ConsumerInv, hat] at hcons
    obtain ⟨⟨hload, -⟩, hque⟩ := h.inv.lifecycle.sync hcons.1
    have hlt := h.loadedIndex_lt
      (by simp [pending, hat, hload, hque, ConsumerPc.held, LoadPc.inFlight]) hcons.2
    refine ⟨{ s with consumer := .loadBundles s.view.commitIndex },
      by simp only [consume, hat, if_neg (Nat.not_le.mpr hlt)],
      advances_moveConsumer helper _ (by simp [hat, ConsumerPc.held]) rfl ?_⟩
    simp [callRank, hat]

/-- A call is started with something in the cache, with a finished task, or synchronously. -/
theorem Waiting.consume_idle (h : s.Waiting asyncLoad) (hpc : s.consumer = .idle)
    (hrdy : s.cachedBundles ≠ [] ∨ s.frontIsDone = true ∨ asyncLoad = false) :
    ∃ after, s.consume asyncLoad = some after ∧ s.Advances helper after := by
  have hjoin := h.joining
  by_cases hcac : s.cachedBundles = []
  · cases asyncLoad with
    | true =>
      have hdone : s.frontIsDone = true := by simpa [hcac] using hrdy
      obtain ⟨task, rest, hque⟩ : ∃ task rest, s.taskQueue = task :: rest := by
        refine exists_cons_of_ne_nil fun hnil => ?_
        simp [frontIsDone, hnil] at hdone
      have hflag : task.flag = .done := by simpa [frontIsDone, hque] using hdone
      refine ⟨{ s with
          appliedIndex := max s.appliedIndex s.applyingIndex, consumer := .readQueueSize },
        by simp [consume, hpc, hjoin, hcac],
        ⟨⟨rfl, rfl, rfl⟩, .inr ⟨rfl, id, .inr ⟨?_, ?_⟩⟩⟩⟩
      · simp only [remaining, pending, hpc, ConsumerPc.held]
      · simp [callRank, hpc, workRank, frontIsDone, hque, hflag]
    | false =>
      obtain ⟨⟨hload, -⟩, hque⟩ := h.inv.lifecycle.sync rfl
      refine ⟨{ s with
          appliedIndex := max s.appliedIndex s.applyingIndex, consumer := .readCommitIndex },
        by simp [consume, hpc, hjoin, hcac],
        ⟨⟨rfl, rfl, rfl⟩, .inr ⟨rfl, id, .inr ⟨?_, ?_⟩⟩⟩⟩
      · simp only [remaining, pending, hpc, ConsumerPc.held]
      · simp [callRank, hpc, workRank, hque, hload, LoadPc.rank]
  · obtain ⟨bundle, rest, hcons⟩ := exists_cons_of_ne_nil hcac
    refine ⟨{ s with appliedIndex := max s.appliedIndex s.applyingIndex }.takeBundle,
      by simp [consume, hpc, hjoin, hcac], ?_⟩
    refine ⟨?_, .inl ⟨bundle, ?_⟩⟩
    · simp [takeBundle, hcons]
    · simp [takeBundle, hcons]

/-- A decrypt thread takes a step, and the oldest task comes nearer to be done. -/
theorem advances_work {pc : DecryptPc} {before : Task} (ht : s.task? number = some before)
    (he : task.entries = before.entries) (hpc : s.consumer = .idle)
    (hr : ((s.setTask number task).setDecrypter worker pc).workRank helper < s.workRank helper) :
    s.Advances helper ((s.setTask number task).setDecrypter worker pc) := by
  refine ⟨⟨rfl, rfl, rfl⟩, .inr ⟨rfl, id, .inr ⟨?_, ?_⟩⟩⟩
  · have hs := flatMap_entries_set ht he
    simp only [remaining, pending, setDecrypter, setTask, hs]
  · simp only [callRank, setDecrypter, setTask, hpc]
    exact hr

theorem Inv.exists_decryptEntries (hi : s.Inv asyncLoad) (hm : task ∈ s.taskQueue) :
    ∃ bundles, decryptEntries task.entries = some bundles := by
  obtain ⟨taken, -, hp, -⟩ := hi.flow
  obtain ⟨earlier, later, hq⟩ := append_of_mem hm
  obtain ⟨all, ha⟩ := exists_decryptEntries_of_isPrefix s.view.decodes hp
  have hs : (decryptEntries (taken ++ s.pending)).isSome = true := by rw [ha]; rfl
  simp only [pending, hq, flatMap_append, flatMap_cons,
    isSome_decryptEntries_append, Bool.and_eq_true] at hs
  exact isSome_iff_exists.mp hs.2.1.2.2.1

theorem Waiting.decrypt_owner (h : s.Waiting asyncLoad) (hpc : s.consumer = .idle)
    (hque : s.taskQueue = task :: rest) (hflag : task.flag = .doing) :
    ∃ worker after, s.decrypt worker = some after ∧ s.Advances helper after := by
  have htask : s.task? s.popped = some task := by
    rw [task?, taskAt_front, hque, head?_cons]
  have hst := h.inv.owned.state _ _ htask
  simp only [TaskState, hflag] at hst
  obtain ⟨worker, huniq, ⟨hat, -⟩ | ⟨hat, -⟩⟩ := hst
  · have hmem : task ∈ s.taskQueue := by
      rw [hque]
      exact mem_cons_self
    obtain ⟨bundles, hbun⟩ := h.inv.exists_decryptEntries hmem
    have hnot : ¬ ∃ other, s.decrypter other = .finish s.popped := by
      rintro ⟨other, hoth⟩
      have hsame := huniq other (by rw [hoth]; rfl)
      rw [hsame, hat] at hoth
      cases hoth
    refine ⟨worker, (s.setTask s.popped
      { task with bundles := task.bundles ++ bundles }).setDecrypter worker (.finish s.popped),
      by simp [State.decrypt, hat, htask, hbun],
      advances_work helper htask rfl hpc ?_⟩
    have hfin : ∃ other, update s.decrypter worker (.finish s.popped) other =
        .finish s.popped := ⟨worker, update_self ..⟩
    simp [workRank, setDecrypter, setTask, hque, hflag, hnot, hfin]
  · have hfin : ∃ other, s.decrypter other = .finish s.popped := ⟨worker, hat⟩
    refine ⟨worker,
      (s.setTask s.popped { task with flag := .done }).setDecrypter worker .testRunning,
      by simp [State.decrypt, hat, htask], advances_work helper htask rfl hpc ?_⟩
    simp [workRank, setDecrypter, setTask, hque, hflag, hfin]

/-- Whoever works while the oldest task is free works on a later one. -/
theorem Inv.held_behind (hi : s.Inv asyncLoad) {front : Task}
    (hfrt : s.task? s.popped = some front) (hflag : front.flag = .initial)
    (hh : (s.decrypter worker).holds = some number) :
    ∃ held position, s.task? number = some held ∧ number - s.popped = position + 1 := by
  obtain ⟨held, hheld⟩ := hi.owned.held worker number hh
  have hf := hi.owned.state _ _ hfrt
  simp only [TaskState, hflag] at hf
  have hne : number ≠ s.popped := by
    rintro rfl
    exact hf.2 worker hh
  have hle : s.popped ≤ number := (ite_none_right_eq_some.mp hheld).1
  exact ⟨held, number - s.popped - 1, hheld, by omega⟩

/-- Some thread takes the oldest task, after it has finished what it has. -/
theorem Waiting.decrypt_helper (h : s.Waiting true) (hpc : s.consumer = .idle)
    (hque : s.taskQueue = task :: rest) (hflag : task.flag = .initial) :
    ∃ after, s.decrypt helper = some after ∧ s.Advances helper after := by
  have hrun := h.inv.lifecycle.running h.joining (h.loading rfl)
  have htask : s.task? s.popped = some task := by
    rw [task?, taskAt_front, hque, head?_cons]
  have hpre : s.workRank helper = (s.decrypter helper).rank := by
    simp [workRank, hque, hflag]
  cases hat : s.decrypter helper with
  | stopped => exact absurd hat (h.inv.lifecycle.decrypting h.joining (h.loading rfl) helper)
  | testRunning =>
    refine ⟨s.setDecrypter helper .take, by simp [State.decrypt, hat, hrun],
      ⟨⟨rfl, rfl, rfl⟩, .inr ⟨rfl, id, .inr ⟨rfl, ?_⟩⟩⟩⟩
    simp only [callRank, hpc, hpre]
    simp [workRank, setDecrypter, hpc, hat, hque, hflag, DecryptPc.rank]
  | take =>
    have hfnd : s.taskQueue.findIdx? (fun task => task.flag = .initial) = some 0 := by
      rw [hque, findIdx?_cons]
      simp [hflag]
    refine ⟨(s.setTask s.popped { task with flag := .doing }).setDecrypter helper
      (.decrypt s.popped), by simp only [State.decrypt, hat, hfnd, Nat.add_zero, htask,
        map_some], advances_work helper htask rfl hpc ?_⟩
    rw [hpre, hat]
    simp only [workRank, setDecrypter, setTask, hque, Nat.sub_self, set_cons_zero]
    split <;> simp [DecryptPc.rank]
  | decrypt number =>
    have hhold : (s.decrypter helper).holds = some number := by rw [hat]; rfl
    obtain ⟨held, position, hheld, hpos⟩ := h.inv.held_behind htask hflag hhold
    have hmem : held ∈ s.taskQueue :=
      mem_of_getElem? (ite_none_right_eq_some.mp hheld).2
    obtain ⟨bundles, hbun⟩ := h.inv.exists_decryptEntries hmem
    refine ⟨(s.setTask number { held with bundles := held.bundles ++ bundles }).setDecrypter
      helper (.finish number), by simp [State.decrypt, hat, hheld, hbun],
      advances_work helper hheld rfl hpc ?_⟩
    rw [hpre, hat]
    simp [workRank, setDecrypter, setTask, hque, hflag, hpos, DecryptPc.rank]
  | finish number =>
    have hhold : (s.decrypter helper).holds = some number := by rw [hat]; rfl
    obtain ⟨held, position, hheld, hpos⟩ := h.inv.held_behind htask hflag hhold
    refine ⟨(s.setTask number { held with flag := .done }).setDecrypter helper .testRunning,
      by simp [State.decrypt, hat, hheld], advances_work helper hheld rfl hpc ?_⟩
    rw [hpre, hat]
    simp [workRank, setDecrypter, setTask, hque, hflag, hpos, DecryptPc.rank]

theorem advances_load
    (hsame : after.view = s.view ∧ after.offset = s.offset ∧ after.joining = s.joining)
    (hd : after.delivered = s.delivered) (hc : after.consumer = .idle)
    (hpc : s.consumer = .idle) (he : s.taskQueue = []) (hl : after.loader ≠ .stopped)
    (hr : after.remaining = s.remaining) (hrank : after.workRank helper < s.loader.rank) :
    s.Advances helper after := by
  refine ⟨hsame, .inr ⟨hd, fun hs => absurd hs hl, .inr ⟨hr, ?_⟩⟩⟩
  simp only [callRank, hc, hpc]
  simpa [workRank, he] using hrank

theorem Waiting.load (h : s.Waiting true) (hpc : s.consumer = .idle)
    (hcac : s.cachedBundles = []) (hnil : s.taskQueue = []) :
    ∃ after, s.load = some after ∧ s.Advances helper after := by
  have hrun := h.inv.lifecycle.running h.joining (h.loading rfl)
  have hinv := h.inv.loader
  -- before it reads entries, the thread holds none
  have hmove : ∀ pc : LoadPc, s.load = some { s with loader := pc } → pc ≠ .stopped →
      pc.inFlight = s.loader.inFlight → pc.uncounted = s.loader.uncounted →
      pc.rank < s.loader.rank → ∃ after, s.load = some after ∧ s.Advances helper after := by
    intro pc hload hstop hflight huncounted hrank
    refine ⟨_, hload, advances_load helper ⟨rfl, rfl, rfl⟩ rfl hpc hpc hnil hstop ?_ ?_⟩
    · simp only [remaining, pending, hflight, huncounted]
    · simpa only [workRank, hnil] using hrank
  cases hat : s.loader with
  | stopped => exact absurd hat (h.loading rfl)
  | testRunning =>
    exact hmove .readQueueSize (by simp [State.load, hat, hrun]) (by simp) (hat ▸ rfl)
      (hat ▸ rfl) (by simp [hat, LoadPc.rank])
  | readQueueSize =>
    exact hmove .readCommitIndex (by simp [State.load, hat, hnil, maxQueueSize]) (by simp)
      (hat ▸ rfl) (hat ▸ rfl) (by simp [hat, LoadPc.rank])
  | readCommitIndex =>
    have hlt := h.loadedIndex_lt
      (by simp [pending, hpc, hnil, hat, ConsumerPc.held, LoadPc.inFlight]) hcac
    exact hmove (.getEntries s.view.commitIndex)
      (by simp only [State.load, hat, if_neg (Nat.not_le.mpr hlt)]) (by simp)
      (hat ▸ rfl) (hat ▸ rfl) (by simp [hat, LoadPc.rank])
  | getEntries commitIndex =>
    simp only [LoaderInv, hat] at hinv
    have hoff := h.inv.offset_le (by simp [hat, LoadPc.inFlight])
    have hfst := h.first
    obtain ⟨entries, hget, -, -⟩ := s.view.exists_getEntries (by omega) hinv.1 hinv.2
    refine ⟨{ s with loader := .count entries }, by simp [State.load, hat, hget],
      advances_load helper ⟨rfl, rfl, rfl⟩ rfl hpc hpc hnil (by simp) ?_ ?_⟩
    · simp only [remaining, pending, hat, LoadPc.inFlight, LoadPc.uncounted,
        length_append, length_nil]
      omega
    · simp [workRank, hnil, hat, LoadPc.rank]
  | count entries =>
    refine ⟨{ s with loadedIndex := s.loadedIndex + entries.length, loader := .push entries },
      by simp [State.load, hat],
      advances_load helper ⟨rfl, rfl, rfl⟩ rfl hpc hpc hnil (by simp) ?_ ?_⟩
    · simp only [remaining, pending, hat, LoadPc.inFlight, LoadPc.uncounted, Nat.add_zero]
    · simp [workRank, hnil, hat, LoadPc.rank]
  | push entries =>
    refine ⟨{ s with
        taskQueue := s.taskQueue ++ [{ entries := entries }], loader := .testRunning },
      by simp [State.load, hat],
      advances_load helper ⟨rfl, rfl, rfl⟩ rfl hpc hpc hnil (by simp) ?_ ?_⟩
    · simp [remaining, pending, hnil, hat, LoadPc.inFlight, LoadPc.uncounted]
    · have hther := h.inv.lifecycle.decrypting h.joining (h.loading rfl) helper
      simp only [workRank, hnil, hat, nil_append]
      cases hhel : s.decrypter helper with
      | stopped => exact absurd hhel hther
      | _ => simp [DecryptPc.rank, LoadPc.rank]

theorem Waiting.exists_step (h : s.Waiting asyncLoad) :
    ∃ after, (threads asyncLoad s).step s after ∧ s.Advances helper after := by
  have hc : (∃ after, s.consume asyncLoad = some after ∧ s.Advances helper after) →
      ∃ after, (threads asyncLoad s).step s after ∧ s.Advances helper after := by
    rintro ⟨after, hs, ha⟩
    exact ⟨after, ⟨.consume, ⟨trivial, h.first⟩, hs⟩, ha⟩
  by_cases hpc : s.consumer = .idle
  · by_cases hr : s.cachedBundles ≠ [] ∨ s.frontIsDone = true ∨ asyncLoad = false
    · exact hc (h.consume_idle helper hpc hr)
    · simp only [not_or, not_not, Bool.not_eq_true, Bool.not_eq_false] at hr
      obtain ⟨hcac, hfrt, rfl⟩ := hr
      cases hq : s.taskQueue with
      | nil =>
        obtain ⟨after, hs, ha⟩ := h.load helper hpc hcac hq
        exact ⟨after, ⟨.load, ⟨trivial, h.first⟩, hs⟩, ha⟩
      | cons task rest =>
        cases hf : task.flag with
        | initial =>
          obtain ⟨after, hs, ha⟩ := h.decrypt_helper helper hpc hq hf
          exact ⟨after, ⟨.decrypt helper, ⟨trivial, trivial⟩, hs⟩, ha⟩
        | doing =>
          obtain ⟨worker, after, hs, ha⟩ := h.decrypt_owner helper hpc hq hf
          exact ⟨after, ⟨.decrypt worker, ⟨trivial, trivial⟩, hs⟩, ha⟩
        | done => simp [frontIsDone, hq, hf] at hfrt
  · exact hc (h.consume_running helper hpc)

theorem Waiting.next (h : s.Waiting asyncLoad) (hs : (threads asyncLoad s).step s after)
    (ha : s.Advances helper after) (hd : after.delivered = s.delivered)
    (hl : after.loader = .stopped → s.loader = .stopped) : after.Waiting asyncLoad := by
  obtain ⟨action, ⟨-, hok⟩, hs⟩ := hs
  obtain ⟨⟨hv, ho, hj⟩, -⟩ := ha
  exact ⟨h.inv.step hok hs, hj.trans h.joining,
    fun hasy hstop => h.loading hasy (hl hstop), by rw [hv, ho]; exact h.first,
    by rw [hv, ho, hd]; exact h.missing⟩

theorem Waiting.delivers (h : s.Waiting asyncLoad) (hw : 0 < workers) :
    ∃ after bundle, (threads asyncLoad s).Runs s after ∧ after.Inv asyncLoad ∧
      after.view = s.view ∧ after.offset = s.offset ∧
      after.delivered = s.delivered ++ [bundle] := by
  let helper : Fin workers := ⟨0, hw⟩
  have hr : ∃ after, (threads asyncLoad s).Runs s after ∧ (after.Inv asyncLoad ∧
      after.view = s.view ∧ after.offset = s.offset ∧
      ∃ bundle, after.delivered = s.delivered ++ [bundle]) := by
    refine System.Runs.exists_of_rank (WellFounded.prod_lex Nat.lt_wfRel.wf Nat.lt_wfRel.wf)
      (fun now => (now.remaining, now.callRank helper))
      (fun now => now.Waiting asyncLoad ∧ now.view = s.view ∧ now.offset = s.offset ∧
        now.delivered = s.delivered) _ ?_ ⟨h, rfl, rfl, rfl⟩
    rintro now ⟨hn, hv, ho, hd⟩
    obtain ⟨after, hs, ha⟩ := hn.exists_step helper
    refine ⟨after, hs, ?_⟩
    obtain ⟨⟨hv', ho', -⟩, ⟨bundle, hb⟩ | ⟨hsame, hl, hrank⟩⟩ := id ha
    · obtain ⟨action, ⟨-, hok⟩, hs⟩ := hs
      exact .inl ⟨hn.inv.step hok hs, hv'.trans hv, ho'.trans ho, bundle, by rw [hb, hd]⟩
    · exact .inr ⟨⟨hn.next helper hs ha hsame hl, hv'.trans hv,
        ho'.trans ho, hsame.trans hd⟩, Prod.lex_def.mpr hrank⟩
  obtain ⟨after, hr, hi, hv, ho, bundle, hb⟩ := hr
  exact ⟨after, bundle, hr, hi, hv, ho, hb⟩

end

end State

/-- Steps until the load thread ends, once it is told to. -/
def LoadPc.stopRank : LoadPc → Nat
  | .stopped => 0
  | .testRunning => 1
  | .push _ => 2
  | .count _ => 3
  | .getEntries _ => 4
  | .readCommitIndex => 5
  | .readQueueSize => 6

def DecryptPc.stopRank : DecryptPc → Nat
  | .stopped => 0
  | .testRunning => 1
  | .finish _ => 2
  | .decrypt _ => 3
  | .take => 4

namespace State

variable {config : Config RaftPayload} {workers : Nat} {asyncLoad : Bool}
  {s : State config workers}

def stopRank (s : State config workers) : Nat :=
  s.loader.stopRank + ∑ worker, (s.decrypter worker).stopRank

variable {worker : Fin workers}

theorem stopRank_setDecrypter_lt {pc : DecryptPc}
    (h : pc.stopRank < (s.decrypter worker).stopRank) :
    (s.setDecrypter worker pc).stopRank < s.stopRank := by
  refine Nat.add_lt_add_left (Finset.sum_lt_sum (fun other _ => ?_)
    ⟨worker, Finset.mem_univ _, ?_⟩) _
  · by_cases ho : other = worker
    · subst ho
      simpa [setDecrypter] using h.le
    · simp [setDecrypter, ho]
  · simpa [setDecrypter] using h

/-- `teardown` waits for the threads. -/
structure Joining (asyncLoad : Bool) (s : State config workers) : Prop where
  inv : s.Inv asyncLoad
  joining : s.joining = true
  first : s.view.firstIndex ≤ s.offset + 1

/-- A step after which the threads are nearer to their end. -/
def Leaves (s after : State config workers) : Prop :=
  after.stopRank < s.stopRank ∧ after.joining = true ∧ after.view.firstIndex ≤ after.offset + 1

theorem Joining.load (h : s.Joining asyncLoad) (hloader : s.loader ≠ .stopped) :
    ∃ after, s.load = some after ∧ s.Leaves after := by
  have hrun := (h.inv.lifecycle.joining h.joining).2
  have hinv := h.inv.loader
  have hmove : ∀ (pc : LoadPc) (loadedIndex : Nat) (taskQueue : List Task), s.load =
        some { s with loader := pc, loadedIndex := loadedIndex, taskQueue := taskQueue } →
      pc.stopRank < s.loader.stopRank → ∃ after, s.load = some after ∧ s.Leaves after :=
    fun _ _ _ hload hrank => ⟨_, hload, Nat.add_lt_add_right hrank _, h.joining, h.first⟩
  cases hat : s.loader with
  | stopped => exact absurd hat hloader
  | testRunning =>
    exact hmove .stopped s.loadedIndex s.taskQueue (by simp [State.load, hat, hrun])
      (by simp [hat, LoadPc.stopRank])
  | readQueueSize =>
    by_cases hfull : maxQueueSize ≤ s.taskQueue.length
    · exact hmove .testRunning s.loadedIndex s.taskQueue (by simp [State.load, hat, hfull])
        (by simp [hat, LoadPc.stopRank])
    · exact hmove .readCommitIndex s.loadedIndex s.taskQueue (by simp [State.load, hat, hfull])
        (by simp [hat, LoadPc.stopRank])
  | readCommitIndex =>
    by_cases hread : s.view.commitIndex ≤ s.loadedIndex
    · exact hmove .testRunning s.loadedIndex s.taskQueue (by simp [State.load, hat, hread])
        (by simp [hat, LoadPc.stopRank])
    · exact hmove (.getEntries s.view.commitIndex) s.loadedIndex s.taskQueue
        (by simp [State.load, hat, hread]) (by simp [hat, LoadPc.stopRank])
  | getEntries commitIndex =>
    simp only [LoaderInv, hat] at hinv
    have hoff := h.inv.offset_le (by simp [hat, LoadPc.inFlight])
    have hfst := h.first
    obtain ⟨entries, hget, -, -⟩ := s.view.exists_getEntries (by omega) hinv.1 hinv.2
    exact hmove (.count entries) s.loadedIndex s.taskQueue (by simp [State.load, hat, hget])
      (by simp [hat, LoadPc.stopRank])
  | count entries =>
    exact hmove (.push entries) (s.loadedIndex + entries.length) s.taskQueue
      (by simp [State.load, hat]) (by simp [hat, LoadPc.stopRank])
  | push entries =>
    exact hmove .testRunning s.loadedIndex (s.taskQueue ++ [{ entries := entries }])
      (by simp [State.load, hat]) (by simp [hat, LoadPc.stopRank])

theorem Joining.decrypt (h : s.Joining asyncLoad) (hwork : s.decrypter worker ≠ .stopped) :
    ∃ after, s.decrypt worker = some after ∧ s.Leaves after := by
  have hrun := (h.inv.lifecycle.joining h.joining).2
  have hheld : ∀ number, (s.decrypter worker).holds = some number →
      ∃ task bundles, s.task? number = some task ∧
        decryptEntries task.entries = some bundles := by
    intro number hhold
    obtain ⟨task, htask⟩ := h.inv.owned.held worker number hhold
    have hmem : task ∈ s.taskQueue :=
      mem_of_getElem? (ite_none_right_eq_some.mp htask).2
    obtain ⟨bundles, hbun⟩ := h.inv.exists_decryptEntries hmem
    exact ⟨task, bundles, htask, hbun⟩
  have hmove : ∀ (pc : DecryptPc) (taskQueue : List Task),
      s.decrypt worker = some ({ s with taskQueue := taskQueue }.setDecrypter worker pc) →
      pc.stopRank < (s.decrypter worker).stopRank →
      ∃ after, s.decrypt worker = some after ∧ s.Leaves after := by
    intro pc taskQueue hdecr hrank
    exact ⟨_, hdecr, stopRank_setDecrypter_lt (s := { s with taskQueue := taskQueue }) hrank,
      h.joining, h.first⟩
  cases hat : s.decrypter worker with
  | stopped => exact absurd hat hwork
  | testRunning =>
    have hstop : s.decrypt worker = some (s.setDecrypter worker .stopped) := by
      simp [State.decrypt, hat, hrun]
    exact hmove .stopped s.taskQueue hstop (by simp [hat, DecryptPc.stopRank])
  | take =>
    cases hfnd : s.taskQueue.findIdx? (fun task => task.flag = .initial) with
    | none =>
      exact hmove .testRunning s.taskQueue (by simp only [State.decrypt, hat, hfnd])
        (by simp [hat, DecryptPc.stopRank])
    | some position =>
      obtain ⟨hlt, -⟩ := findIdx?_eq_some_iff_getElem.mp hfnd
      have htask : s.task? (s.popped + position) = some s.taskQueue[position] := by
        rw [task?, taskAt, if_pos (Nat.le_add_right _ _), Nat.add_sub_cancel_left,
          getElem?_eq_getElem hlt]
      have htake : s.decrypt worker =
          some ((s.setTask (s.popped + position) { s.taskQueue[position] with
            flag := .doing }).setDecrypter worker (.decrypt (s.popped + position))) := by
        simp only [State.decrypt, hat, hfnd, htask, map_some]
      exact hmove _ _ htake (by simp [hat, DecryptPc.stopRank])
  | decrypt number =>
    obtain ⟨task, bundles, htask, hbun⟩ := hheld number (by rw [hat]; rfl)
    have hdecr : s.decrypt worker =
        some ((s.setTask number { task with bundles := task.bundles ++ bundles }).setDecrypter
          worker (.finish number)) := by
      simp only [State.decrypt, hat, htask, hbun, bind_some, map_some]
    exact hmove _ _ hdecr (by simp [hat, DecryptPc.stopRank])
  | finish number =>
    obtain ⟨task, bundles, htask, hbun⟩ := hheld number (by rw [hat]; rfl)
    have hfin : s.decrypt worker =
        some ((s.setTask number { task with flag := .done }).setDecrypter worker
          .testRunning) := by
      simp only [State.decrypt, hat, htask, map_some]
    exact hmove _ _ hfin (by simp [hat, DecryptPc.stopRank])

theorem Joining.eventually_quiet (h : s.Joining asyncLoad) :
    ∃ after, (threads asyncLoad s).Runs s after ∧ after.joining = true ∧ after.IsQuiet := by
  by_cases hqt : s.IsQuiet
  · exact ⟨s, System.Runs.refl _ _, h.joining, hqt⟩
  · refine System.Runs.exists_of_rank Nat.lt_wfRel.wf stopRank
      (fun now => now.Joining asyncLoad ∧ ¬ now.IsQuiet)
      (fun now => now.joining = true ∧ now.IsQuiet) ?_ ⟨h, hqt⟩
    rintro now ⟨hn, hb⟩
    have hs : ∃ after action, action.IsThread ∧ now.Admissible action ∧
        now.step asyncLoad action = some after ∧ now.Leaves after := by
      by_cases hl : now.loader = .stopped
      · obtain ⟨worker, hw⟩ : ∃ worker, now.decrypter worker ≠ .stopped := by
          by_contra hnone
          exact hb ⟨hl, fun worker => not_not.mp fun hne => hnone ⟨worker, hne⟩⟩
        obtain ⟨after, hdecr, hr⟩ := hn.decrypt hw
        exact ⟨after, .decrypt worker, trivial, trivial, hdecr, hr⟩
      · obtain ⟨after, hload, hr⟩ := hn.load hl
        exact ⟨after, .load, trivial, hn.first, hload, hr⟩
    obtain ⟨after, action, ht, hok, ha, hrank, hj, hf⟩ := hs
    refine ⟨after, ⟨action, ⟨ht, hok⟩, ha⟩, ?_⟩
    by_cases hd : after.IsQuiet
    · exact .inl ⟨hj, hd⟩
    · exact .inr ⟨⟨⟨hn.inv.step hok ha, hj, hf⟩, hd⟩, hrank⟩

/-- Between `init` and `teardown`; without threads no `init` is needed. -/
def IsUp (asyncLoad : Bool) (s : State config workers) : Prop :=
  s.joining = false ∧ (asyncLoad = true → s.loader ≠ .stopped)

theorem decryptEntries_ne_of_lt (hl : s.delivered.length < (s.view.deliverable s.offset).length) :
    decryptEntries (s.view.committed.drop s.offset) ≠ some s.delivered := by
  intro ha
  have hlen := congrArg List.length (map_some_of_decryptEntries ha)
  rw [length_map, length_map] at hlen
  exact absurd hlen hl.ne

/-- Over the same log two stores return the same bundles, as far as they have come. -/
theorem Inv.comparable (hi : s.Inv asyncLoad) {otherAsync : Bool} {otherWorkers : Nat}
    {other : State config otherWorkers} (hoth : other.Inv otherAsync)
    (hoff : other.offset = s.offset) (hg : s.view.Grows other.view) :
    s.delivered <+: other.delivered ∨ other.delivered <+: s.delivered := by
  obtain ⟨rest, hr⟩ := (hi.flow.mono hg).isPrefix other.view.decodes
  obtain ⟨otherRest, ho⟩ := hoth.flow.isPrefix other.view.decodes
  rw [hoff] at ho
  have hs := some.inj (hr.symm.trans ho)
  rw [append_assoc, append_assoc] at hs
  have hf := prefix_append s.delivered (s.cachedBundles ++ rest)
  rw [hs] at hf
  exact prefix_or_prefix_of_prefix hf (prefix_append _ _)

end State

/-- The reader hands on the committed bundles in order and once. There is always a
run of its threads to the next bundle, and to the end of a `teardown`. Readers
of two views of one log agree. -/
theorem reader_delivers_exactly_once {config : Config RaftPayload} {workers : Nat}
    (hworkers : 0 < workers) {asyncLoad : Bool} {view : RaftView config}
    {s : State config workers} (hs : (reader asyncLoad workers view).Reachable s) :
    (s.delivered.map some <+:
      (s.view.deliverable s.offset).map fun entry => entry.payload.decode) ∧
    (s.view.firstIndex ≤ s.offset + 1 → s.IsUp asyncLoad →
      s.delivered.length < (s.view.deliverable s.offset).length →
      ∃ after bundle, (threads asyncLoad s).Runs s after ∧
        after.delivered = s.delivered ++ [bundle] ∧
        (s.delivered ++ [bundle]).map some <+:
          (s.view.deliverable s.offset).map fun entry => entry.payload.decode) ∧
    (s.view.firstIndex ≤ s.offset + 1 → s.joining = true →
      ∃ after, (threads asyncLoad s).Runs s after ∧ after.joining = true ∧ after.IsQuiet) ∧
    ∀ {otherAsync : Bool} {otherWorkers : Nat} {otherView : RaftView config}
      {other : State config otherWorkers},
      (reader otherAsync otherWorkers otherView).Reachable other → other.offset = s.offset →
      s.view.Grows other.view →
      s.delivered <+: other.delivered ∨ other.delivered <+: s.delivered := by
  have hi := inv_of_reachable hs
  refine ⟨hi.delivered_isPrefix, ?_, ?_, ?_⟩
  · intro hfst hup hleft
    have hwait : s.Waiting asyncLoad :=
      ⟨hi, hup.1, hup.2, hfst, State.decryptEntries_ne_of_lt hleft⟩
    obtain ⟨after, bundle, hruns, haft, hview, hoff, hdel⟩ :=
      hwait.delivers hworkers
    refine ⟨after, bundle, hruns, hdel, ?_⟩
    rw [← hdel, ← hview, ← hoff]
    exact haft.delivered_isPrefix
  · intro hfst hjoin
    exact State.Joining.eventually_quiet ⟨hi, hjoin, hfst⟩
  · intro otherAsync otherWorkers otherView other hoth hoff hgrow
    exact hi.comparable (inv_of_reachable hoth) hoff hgrow

def opening : Ledger.Event := .ofPayload 0 (.accountCreated ⟨1, .asset, 1001, "cash", "", 840, {}⟩)

theorem openingId_pos : (0 : UInt64) < 2 := by decide

/-- A no-op, a command with an event, and a command without one. -/
def threeEntries : List Entry :=
  [⟨1, 1, true, ⟨2, .createAccount none, [], openingId_pos⟩⟩,
    ⟨1, 2, false, ⟨2, .createAccount none, [opening], openingId_pos⟩⟩,
    ⟨1, 3, false, ⟨2, .createAccount none, [], openingId_pos⟩⟩]

def threeCommitted : RaftView soloConfig where
  history := threeEntries
  firstIndex := 1
  commitIndex := 3
  room _ := 1
  firstIndex_pos := le_rfl
  firstIndex_le := by decide
  commitIndex_le := by decide
  room_pos _ := le_rfl
  fits := by decide
  decodes := by decide

def started : State soloConfig 1 := State.init true { view := threeCommitted }

theorem reachable_started : (reader true 1 threeCommitted).Reachable started := by
  refine (System.Reachable.init rfl).step ⟨.init, trivial, ?_⟩
  rfl

theorem reader_delivers_exactly_once_started :
    started.IsUp true ∧ ∃ after bundle, (threads true started).Runs started after ∧
      after.delivered = [bundle] ∧ bundle.events = [opening] := by
  have hup : started.IsUp true := ⟨rfl, fun _ => by decide⟩
  obtain ⟨-, hdel, -⟩ := reader_delivers_exactly_once Nat.one_pos reachable_started
  obtain ⟨after, bundle, hr, hd, hn⟩ := hdel le_rfl hup (by decide)
  have ha : ∀ decoded ∈ (started.view.deliverable started.offset).map
      (fun entry => entry.payload.decode),
      decoded.map (fun bundle => bundle.events) = some [opening] := by
    decide
  have hm := hn.subset (mem_map_of_mem (mem_append_right _ (.head _)))
  exact ⟨hup, after, bundle, hr, hd, some.inj (ha _ hm)⟩

end MySuperLedger.Reader
