import MySuperLedger.Reader.Pipeline

/-! # Batches, tasks and their owners

What the store rests on, apart from its threads. Decrypting goes entry by entry,
so batches may be decrypted one by one and in any order. A task belongs to at
most one decrypt thread from the moment it is taken until it is done. The queue
numbers its tasks, and a number keeps its task while others come and go.
-/

namespace MySuperLedger.Reader

open Ledger (Bundle)
open Raft Replica Transition List Option Function

theorem isSome_decryptEntries_append (entries later : List Entry) :
    (decryptEntries (entries ++ later)).isSome =
      ((decryptEntries entries).isSome && (decryptEntries later).isSome) := by
  rw [decryptEntries_append]
  cases decryptEntries entries <;> simp

variable {entries : List Entry} {config : Config RaftPayload}

theorem exists_decryptEntries_of_isPrefix {all : List Entry}
    (ha : (decryptEntries all).isSome = true) {offset : Nat} (h : entries <+: all.drop offset) :
    ∃ bundles, decryptEntries entries = some bundles := by
  rcases h with ⟨rest, hr⟩
  rw [← take_append_drop offset all, ← hr, isSome_decryptEntries_append,
    isSome_decryptEntries_append] at ha
  simp only [Bool.and_eq_true] at ha
  exact isSome_iff_exists.mp ha.2.1

/-- No-ops and commands without events give no bundle, every other entry gives its own. -/
theorem map_some_of_decryptEntries {bundles : List Bundle}
    (h : decryptEntries entries = some bundles) :
    bundles.map some =
      (entries.filter fun entry => !entry.noop && !entry.payload.events.isEmpty).map
        fun entry => entry.payload.decode := by
  induction entries generalizing bundles with
  | nil =>
    cases h
    rfl
  | cons entry entries ih =>
    have hc : (!entry.noop && !entry.payload.events.isEmpty) = true ↔
        entry.events ≠ [] := by
      cases hn : entry.noop <;> simp [Entry.events, hn]
    rcases decryptEntries_cons_inv h with ⟨hnil, ht⟩ | ⟨bundle, more, hne, hd, ht, rfl⟩
    · rw [filter_cons_of_neg (by simp [hc, hnil]), ih ht]
    · rw [filter_cons_of_pos (by exact hc.mpr hne), map_cons, map_cons,
        ih ht, hd]

/-- `bundles` come from entries above `offset` that lie before `pending`; the two together
reach up to `read`. -/
def Flow (committed : List Entry) (offset read : Nat) (pending : List Entry)
    (bundles : List Bundle) : Prop :=
  ∃ taken, decryptEntries taken = some bundles ∧ taken ++ pending <+: committed.drop offset ∧
    offset + (taken ++ pending).length = read

namespace Flow

variable {committed pending : List Entry} {offset read : Nat} {bundles : List Bundle}

theorem nil (committed : List Entry) (offset : Nat) : Flow committed offset offset [] [] :=
  ⟨[], rfl, by simp, by simp⟩

theorem mono {after : List Entry} (h : Flow committed offset read pending bundles)
    (hg : committed <+: after) : Flow after offset read pending bundles := by
  obtain ⟨taken, ht, hp, hr⟩ := h
  exact ⟨taken, ht, hp.trans (hg.drop offset), hr⟩

theorem load {entries : List Entry} (h : Flow committed offset read pending bundles)
    (he : entries <+: committed.drop read) :
    Flow committed offset (read + entries.length) (pending ++ entries) bundles := by
  obtain ⟨taken, ht, hp, rfl⟩ := h
  refine ⟨taken, ht, ?_, ?_⟩
  · rw [← append_assoc]
    rw [← drop_drop] at he
    obtain ⟨rest, hr⟩ := hp
    rw [← hr, drop_left] at he
    rw [← hr]
    exact (prefix_append_right_inj _).mpr he
  · simp only [length_append]
    omega

theorem take {entries : List Entry} {more : List Bundle}
    (h : Flow committed offset read (entries ++ pending) bundles)
    (hm : decryptEntries entries = some more) :
    Flow committed offset read pending (bundles ++ more) := by
  obtain ⟨taken, ht, hp, hr⟩ := h
  refine ⟨taken ++ entries, decryptEntries_append_of_some ht hm, ?_, ?_⟩
  · rwa [append_assoc]
  · rwa [append_assoc]

theorem eq_nil_of_read_zero (h : Flow committed offset 0 pending bundles) :
    offset = 0 ∧ pending = [] ∧ bundles = [] := by
  obtain ⟨taken, ht, -, hr⟩ := h
  simp only [length_append] at hr
  have ht' : taken = [] := eq_nil_of_length_eq_zero (by omega)
  have hp : pending = [] := eq_nil_of_length_eq_zero (by omega)
  subst ht'
  cases ht
  exact ⟨by omega, hp, rfl⟩

theorem isPrefix (h : Flow committed offset read pending bundles)
    (ha : (decryptEntries committed).isSome = true) :
    ∃ rest, decryptEntries (committed.drop offset) = some (bundles ++ rest) := by
  obtain ⟨taken, ht, ⟨later, hl⟩, -⟩ := h
  rw [append_assoc] at hl
  obtain ⟨all, hs⟩ := exists_decryptEntries_of_isPrefix ha (prefix_refl (committed.drop offset))
  rw [← hl, decryptEntries_append, ht] at hs
  obtain ⟨rest, -, hr⟩ := map_eq_some_iff.mp hs
  rw [← hl, decryptEntries_append, ht]
  exact ⟨rest, hr ▸ hs⟩

theorem eq_of_complete (h : Flow committed offset read [] bundles)
    (hr : committed.length ≤ read) : decryptEntries (committed.drop offset) = some bundles := by
  obtain ⟨taken, ht, hp, rfl⟩ := h
  rw [append_nil] at hp hr
  have hl : (committed.drop offset).length ≤ taken.length := by
    rw [length_drop]
    omega
  rw [← hp.eq_of_length_le hl, ht]

end Flow

theorem RaftView.length_committed (view : RaftView config) :
    view.committed.length = view.commitIndex := by
  rw [RaftView.committed, length_take, Nat.min_eq_left view.commitIndex_le]

/-- A read below the commit index gives some of the entries that follow. -/
theorem RaftView.exists_getEntries (view : RaftView config) {loadedIndex commitIndex : Nat}
    (hfst : view.firstIndex ≤ loadedIndex + 1) (hlt : loadedIndex < commitIndex)
    (hle : commitIndex ≤ view.commitIndex) :
    ∃ entries, view.getEntries (loadedIndex + 1) (commitIndex - loadedIndex) = some entries ∧
      entries ≠ [] ∧ entries <+: view.committed.drop loadedIndex := by
  have hl := view.commitIndex_le
  have hin : loadedIndex < view.history.length := by omega
  have hh : view.log.HoldsFrom view.firstIndex view.history :=
    ⟨rfl, rfl, view.firstIndex_pos, view.firstIndex_le⟩
  -- the size that is asked for stands in the place of the configured batch size
  let asked : Config RaftPayload := { config with maxBatchSize := commitIndex - loadedIndex }
  have hg : view.getEntries (loadedIndex + 1) (commitIndex - loadedIndex) =
      some (asked.batch view.history (view.room (loadedIndex + 1)) (loadedIndex + 1)) := by
    rw [getEntries, if_pos (by omega)]
    exact hh.getEntries_eq asked hfst (by omega)
  refine ⟨_, hg, ?_, ?_⟩
  · have hc : view.history[loadedIndex] ∈ view.history.take view.commitIndex :=
      mem_take_iff_getElem.mpr ⟨loadedIndex, by omega, rfl⟩
    have hf : asked.Fits view.history[loadedIndex] := ⟨Nat.sub_pos_of_lt hlt, view.fits _ hc⟩
    exact length_pos_iff.mp (Config.length_batch_pos hin (view.room_pos _) hf)
  · rw [committed, drop_take]
    have hs := (Nat.min_le_left (commitIndex - loadedIndex) (view.room (loadedIndex + 1))).trans
      (Nat.sub_le_sub_right hle loadedIndex)
    exact Collections.within_isPrefix.trans (take_prefix_take_left hs)

/-- The task a decrypt thread has taken. -/
def DecryptPc.holds : DecryptPc → Option Nat
  | .decrypt number | .finish number => some number
  | _ => none

section

variable {workers : Nat}

/-- A task is free, in the hands of one thread, or finished. -/
def TaskState (pcs : Fin workers → DecryptPc) (number : Nat) (task : Task) : Prop :=
  match task.flag with
  | .initial => task.bundles = [] ∧ ∀ worker, (pcs worker).holds ≠ some number
  | .doing =>
    ∃ worker, (∀ other, (pcs other).holds = some number → other = worker) ∧
      (pcs worker = .decrypt number ∧ task.bundles = [] ∨
        pcs worker = .finish number ∧ decryptEntries task.entries = some task.bundles)
  | .done =>
    decryptEntries task.entries = some task.bundles ∧ ∀ worker, (pcs worker).holds ≠ some number

variable {number : Nat} {task : Task}

theorem TaskState.update {pcs : Fin workers → DecryptPc} (h : TaskState pcs number task)
    {worker : Fin workers} {pc : DecryptPc} (hp : (pcs worker).holds ≠ some number)
    (ha : pc.holds ≠ some number) : TaskState (Function.update pcs worker pc) number task := by
  have hh : ∀ other, (Function.update pcs worker pc other).holds = some number ↔
      (pcs other).holds = some number := by
    intro other
    by_cases ho : other = worker
    · subst ho
      rw [update_self]
      exact iff_of_false ha hp
    · rw [update_of_ne ho]
  unfold TaskState at h ⊢
  split at h
  · exact ⟨h.1, fun other ho => h.2 other ((hh other).mp ho)⟩
  · obtain ⟨owner, hu, hown⟩ := h
    have hne : owner ≠ worker := by
      rintro rfl
      rcases hown with ⟨hown, -⟩ | ⟨hown, -⟩ <;> simp [hown, DecryptPc.holds] at hp
    refine ⟨owner, fun other ho => hu other ((hh other).mp ho), ?_⟩
    rwa [update_of_ne hne]
  · exact ⟨h.1, fun other ho => h.2 other ((hh other).mp ho)⟩

theorem update_eq_some {tasks : Nat → Option Task} {other : Nat} {changed : Option Task}
    (h : update tasks number changed other = some task) :
    other = number ∧ changed = some task ∨ other ≠ number ∧ tasks other = some task := by
  by_cases hne : other = number
  · subst hne
    exact .inl ⟨rfl, by rwa [update_self] at h⟩
  · exact .inr ⟨hne, by rwa [update_of_ne hne] at h⟩

/-- The tasks of the queue by their numbers, and the threads that hold them. -/
structure Owned (pcs : Fin workers → DecryptPc) (tasks : Nat → Option Task) : Prop where
  entries_ne_nil : ∀ number task, tasks number = some task → task.entries ≠ []
  state : ∀ number task, tasks number = some task → TaskState pcs number task
  held : ∀ worker number, (pcs worker).holds = some number → ∃ task, tasks number = some task

namespace Owned

variable {pcs : Fin workers → DecryptPc} {tasks : Nat → Option Task} {worker : Fin workers}
  {number : Nat} {task : Task}

theorem of_holds (h : Owned pcs tasks) (hh : (pcs worker).holds = some number)
    (ht : tasks number = some task) :
    task.flag = .doing ∧ (∀ other, (pcs other).holds = some number → other = worker) ∧
      (pcs worker = .decrypt number ∧ task.bundles = [] ∨
        pcs worker = .finish number ∧ decryptEntries task.entries = some task.bundles) := by
  have hst := h.state number task ht
  unfold TaskState at hst
  split at hst
  · exact absurd hh (hst.2 worker)
  · rename_i hf
    obtain ⟨owner, hu, ho⟩ := hst
    cases hu worker hh
    exact ⟨hf, hu, ho⟩
  · exact absurd hh (hst.2 worker)

variable {pc : DecryptPc}

section

variable (h : Owned pcs tasks)
include h

theorem move (hp : (pcs worker).holds = none) (ha : pc.holds = none) :
    Owned (update pcs worker pc) tasks where
  entries_ne_nil := h.entries_ne_nil
  state number task ht :=
    (h.state number task ht).update (by simp [hp]) (by simp [ha])
  held other number ho := by
    by_cases hne : other = worker
    · subst hne
      rw [update_self, ha] at ho
      cases ho
    · rw [update_of_ne hne] at ho
      exact h.held other number ho

theorem set {before after : Task} (htask : tasks number = some before)
    (hents : after.entries = before.entries)
    (hhold : ∀ other, (pcs worker).holds = some other → other = number)
    (hpc : ∀ other, pc.holds = some other → other = number)
    (hst : TaskState (update pcs worker pc) number after) :
    Owned (update pcs worker pc) (update tasks number (some after)) where
  entries_ne_nil other task hoth := by
    rcases update_eq_some hoth with ⟨rfl, hsome⟩ | ⟨-, hsome⟩
    · cases hsome
      rw [hents]
      exact h.entries_ne_nil other before htask
    · exact h.entries_ne_nil other task hsome
  state other task hoth := by
    rcases update_eq_some hoth with ⟨rfl, hsome⟩ | ⟨hne, hsome⟩
    · cases hsome
      exact hst
    · exact (h.state other task hsome).update (fun hmine => hne (hhold other hmine))
        fun hmine => hne (hpc other hmine)
  held owner other hoth := by
    by_cases hne : other = number
    · exact ⟨after, by rw [hne, update_self]⟩
    · rw [update_of_ne hne]
      by_cases hown : owner = worker
      · subst hown
        rw [update_self] at hoth
        exact absurd (hpc other hoth) hne
      · rw [update_of_ne hown] at hoth
        exact h.held owner other hoth

theorem restart {restarted : Fin workers → DecryptPc} (hp : ∀ worker, (pcs worker).holds = none)
    (ha : ∀ worker, (restarted worker).holds = none) : Owned restarted tasks where
  entries_ne_nil := h.entries_ne_nil
  state number task ht := by
    have hst := h.state number task ht
    unfold TaskState at hst ⊢
    split at hst
    · exact ⟨hst.1, by simp [ha]⟩
    · obtain ⟨worker, -, ⟨hpc, -⟩ | ⟨hpc, -⟩⟩ := hst
      · simpa [hpc, DecryptPc.holds] using hp worker
      · simpa [hpc, DecryptPc.holds] using hp worker
    · exact ⟨hst.1, by simp [ha]⟩
  held worker number hh := by simp [ha] at hh

theorem take (hf : (pcs worker).holds = none)
    (ht : tasks number = some task) (hflag : task.flag = .initial) :
    Owned (update pcs worker (.decrypt number))
      (update tasks number (some { task with flag := .doing })) := by
  have hs := h.state number task ht
  simp only [TaskState, hflag] at hs
  refine h.set ht rfl (by simp [hf]) (by simp [DecryptPc.holds, eq_comm]) ?_
  refine ⟨worker, fun other ho => ?_, .inl ⟨update_self .., hs.1⟩⟩
  by_contra hne
  rw [update_of_ne hne] at ho
  exact hs.2 other ho

theorem decrypt {bundles : List Bundle} (hpc : pcs worker = .decrypt number)
    (ht : tasks number = some task) (hb : decryptEntries task.entries = some bundles) :
    Owned (update pcs worker (.finish number))
      (update tasks number (some { task with bundles := task.bundles ++ bundles })) := by
  have hh : (pcs worker).holds = some number := by rw [hpc]; rfl
  obtain ⟨hflag, hu, hd | ⟨hf, -⟩⟩ := h.of_holds hh ht
  · refine h.set ht rfl (by simp [hh, eq_comm]) (by simp [DecryptPc.holds, eq_comm]) ?_
    simp only [TaskState, hflag]
    refine ⟨worker, fun other ho => ?_, .inr ⟨update_self .., ?_⟩⟩
    · by_contra hne
      rw [update_of_ne hne] at ho
      exact hne (hu other ho)
    · rw [hb, hd.2, nil_append]
  · rw [hpc] at hf
    cases hf

theorem finish (hpc : pcs worker = .finish number) (ht : tasks number = some task) :
    Owned (update pcs worker .testRunning)
      (update tasks number (some { task with flag := .done })) := by
  have hh : (pcs worker).holds = some number := by rw [hpc]; rfl
  obtain ⟨-, hu, ⟨hd, -⟩ | ⟨-, hb⟩⟩ := h.of_holds hh ht
  · rw [hpc] at hd
    cases hd
  · refine h.set ht rfl (by simp [hh, eq_comm]) (by simp [DecryptPc.holds]) ?_
    refine ⟨hb, fun other ho => ?_⟩
    by_cases hne : other = worker
    · subst hne
      rw [update_self] at ho
      cases ho
    · rw [update_of_ne hne] at ho
      exact hne (hu other ho)

theorem push {entries : List Entry} (hn : tasks number = none) (he : entries ≠ []) :
    Owned pcs (update tasks number (some { entries := entries })) where
  entries_ne_nil other task ho := by
    rcases update_eq_some ho with ⟨-, hs⟩ | ⟨-, hs⟩
    · cases hs
      exact he
    · exact h.entries_ne_nil other task hs
  state other task ho := by
    rcases update_eq_some ho with ⟨rfl, hs⟩ | ⟨-, hs⟩
    · cases hs
      refine ⟨rfl, fun worker hh => ?_⟩
      obtain ⟨task, ht⟩ := h.held worker other hh
      rw [hn] at ht
      cases ht
    · exact h.state other task hs
  held worker other hh := by
    obtain ⟨task, ht⟩ := h.held worker other hh
    have hne : other ≠ number := by
      rintro rfl
      rw [hn] at ht
      cases ht
    exact ⟨task, by rw [update_of_ne hne, ht]⟩

theorem done (ht : tasks number = some task) (hf : task.flag = .done) :
    decryptEntries task.entries = some task.bundles ∧
      ∀ worker, (pcs worker).holds ≠ some number := by
  have hs := h.state number task ht
  simpa only [TaskState, hf] using hs

theorem pop (ht : tasks number = some task) (hf : task.flag = .done) :
    Owned pcs (update tasks number none) where
  entries_ne_nil other task ho := by
    rcases update_eq_some ho with ⟨-, hs⟩ | ⟨-, hs⟩
    · cases hs
    · exact h.entries_ne_nil other task hs
  state other task ho := by
    rcases update_eq_some ho with ⟨-, hs⟩ | ⟨-, hs⟩
    · cases hs
    · exact h.state other task hs
  held worker other hh := by
    have hne : other ≠ number := by
      rintro rfl
      exact (h.done ht hf).2 worker hh
    rw [update_of_ne hne]
    exact h.held worker other hh

end

end Owned

end

section

variable {popped number : Nat} {taskQueue : List Task} {before task : Task}

theorem taskAt_front : taskAt popped taskQueue popped = taskQueue.head? := by
  rw [taskAt, if_pos le_rfl, Nat.sub_self, head?_eq_getElem?]

theorem taskAt_next : taskAt popped taskQueue (popped + taskQueue.length) = none := by
  rw [taskAt, if_pos (Nat.le_add_right _ _), Nat.add_sub_cancel_left, getElem?_length]

theorem taskAt_set (h : taskAt popped taskQueue number = some before) (task : Task) :
    taskAt popped (taskQueue.set (number - popped) task) =
      update (taskAt popped taskQueue) number (some task) := by
  obtain ⟨hle, hat⟩ := ite_none_right_eq_some.mp h
  funext other
  by_cases hne : other = number
  · subst hne
    have hl := (List.getElem?_eq_some_iff.mp hat).1
    simp [taskAt, hle, hl]
  · rw [update_of_ne hne]
    unfold taskAt
    by_cases ho : popped ≤ other
    · rw [if_pos ho, if_pos ho, getElem?_set_ne (by omega)]
    · rw [if_neg ho, if_neg ho]

theorem taskAt_push (task : Task) : taskAt popped (taskQueue ++ [task]) =
      update (taskAt popped taskQueue) (popped + taskQueue.length) (some task) := by
  funext other
  by_cases hne : other = popped + taskQueue.length
  · subst hne
    simp [taskAt]
  · rw [update_of_ne hne]
    unfold taskAt
    by_cases ho : popped ≤ other
    · rw [if_pos ho, if_pos ho]
      by_cases hlt : other - popped < taskQueue.length
      · rw [getElem?_append_left hlt]
      · rw [getElem?_eq_none (by simp; omega), getElem?_eq_none (by omega)]
    · rw [if_neg ho, if_neg ho]

theorem taskAt_pop :
    taskAt (popped + 1) taskQueue.tail = update (taskAt popped taskQueue) popped none := by
  funext other
  by_cases hne : other = popped
  · subst hne
    simp [taskAt]
  · rw [update_of_ne hne]
    unfold taskAt
    by_cases ho : popped ≤ other
    · rw [if_pos ho, if_pos (by omega), getElem?_tail]
      congr 1
      omega
    · rw [if_neg ho, if_neg (by omega)]

theorem flatMap_entries_set (h : taskAt popped taskQueue number = some before)
    (he : task.entries = before.entries) :
    (taskQueue.set (number - popped) task).flatMap Task.entries =
      taskQueue.flatMap Task.entries := by
  obtain ⟨-, hat⟩ := ite_none_right_eq_some.mp h
  have hs : (taskQueue.map Task.entries)[number - popped]? = some task.entries := by
    rw [List.getElem?_map, hat, map_some, he]
  obtain ⟨hl, hg⟩ := List.getElem?_eq_some_iff.mp hs
  rw [List.flatMap_def, List.flatMap_def, List.map_set, ← hg, List.set_getElem_self]

end

end MySuperLedger.Reader
