import MySuperLedger.Raft.Abstraction
import MySuperLedger.Raft.Progress

/-! # A leader and a follower of one history

What the handlers do when the leader's log ends a history and the log of the
follower matches it: where the two hold entries of one term, they are equal up to
there. No check fails, and the answer depends on the entry before the request alone.
The leader's log may have lost its front to a truncation; it then has a placeholder
for the term just before its first entry.
-/

namespace MySuperLedger.Raft

open Effects List Option Log

variable {size : Nat} {Payload Handle : Type}

namespace Log

/-- The log holds the entries of `history` from index `first` on, which may be just behind its
last one. -/
structure HoldsFrom (first : Nat) (history : List (LogEntry Payload)) (log : Log size Payload) :
    Prop where
  firstIndex_eq : log.firstIndex = first
  entries_eq : log.entries = history.drop (first - 1)
  first_pos : 1 ≤ first
  first_le : first ≤ history.length + 1

variable {log : Log size Payload}

theorem IsWhole.holdsFrom (h : log.IsWhole) : log.HoldsFrom 1 log.entries :=
  ⟨h.firstIndex_eq, rfl, le_rfl, Nat.le_add_left _ _⟩

namespace HoldsFrom

variable {first : Nat} {history : List (LogEntry Payload)} {log : Log size Payload}

theorem lastLogIndex_eq (h : log.HoldsFrom first history) : log.lastLogIndex = history.length := by
  have hp := h.first_pos
  have hle := h.first_le
  rw [lastLogIndex, h.firstIndex_eq, h.entries_eq, length_drop]
  omega

theorem getTerm_first (h : log.HoldsFrom first history) : log.getTerm (first - 1) = some 0 := by
  rw [getTerm, h.firstIndex_eq, if_pos rfl]

variable {index : Nat}

theorem getTerm_eq (h : log.HoldsFrom first history) (hle : first ≤ index) :
    log.getTerm index = history[index - 1]?.map LogEntry.term := by
  have hp := h.first_pos
  have hs : first - 1 + (index - first) = index - 1 := by omega
  rw [getTerm, h.firstIndex_eq, if_neg (by omega), getEntry, h.firstIndex_eq, if_neg (by omega),
    h.entries_eq, getElem?_drop, hs]

theorem getTerm_dropped (h : log.HoldsFrom first history) (hlt : index + 1 < first) :
    log.getTerm index = none := by
  rw [getTerm, h.firstIndex_eq, if_neg (by omega), getEntry, h.firstIndex_eq, if_pos (by omega),
    map_none]

end HoldsFrom

end Log

/-- The entries a request that starts at `index` carries, when it may carry any. -/
def Config.batch (config : Config Payload) (history : List (LogEntry Payload)) (room index : Nat) :
    List (LogEntry Payload) :=
  Collections.within config.byteSize config.maxLenInBytes 0
    ((history.drop (index - 1)).take (min config.maxBatchSize room))

/-- A request may carry this entry at all. -/
def Config.Fits (config : Config Payload) (entry : LogEntry Payload) : Prop :=
  0 < config.maxBatchSize ∧ config.byteSize entry ≤ config.maxLenInBytes

namespace Log

variable {history : List (LogEntry Payload)} {index : Nat} {entries : List (LogEntry Payload)}
  {entry : LogEntry Payload}

theorem HoldsFrom.getEntries_eq {first : Nat} {log : Log size Payload}
    (h : log.HoldsFrom first history) (config : Config Payload) {room : Nat} (hle : first ≤ index)
    (hl : index ≤ history.length + 1) :
    log.getEntries config.byteSize index config.maxLenInBytes config.maxBatchSize room =
      some (config.batch history room index) := by
  have hp := h.first_pos
  rw [getEntries, h.lastLogIndex_eq]
  by_cases he : history.length < index
  · have hn : history.drop (index - 1) = [] := drop_eq_nil_of_le (by omega)
    rw [if_pos he, if_pos (by omega), Config.batch, hn, take_nil]
    rfl
  · have hs : first - 1 + (index - first) = index - 1 := by omega
    rw [if_neg he, h.firstIndex_eq, if_neg (by omega), h.entries_eq, drop_drop, hs]
    rfl

theorem cons_isPrefix_drop (h : entry :: entries <+: history.drop index) :
    history[index]? = some entry ∧ entries <+: history.drop (index + 1) := by
  rcases h with ⟨rest, hr⟩
  have hh := congrArg (·[0]?) hr
  have ht := congrArg (drop 1) hr
  refine ⟨by simpa using hh.symm, rest, ?_⟩
  simpa [drop_drop] using ht

end Log

namespace Config

variable (config : Config Payload) (history : List (LogEntry Payload)) (room : Nat)

theorem batch_isPrefix (index : Nat) :
    config.batch history room index <+: history.drop (index - 1) :=
  Collections.within_isPrefix.trans (List.take_prefix ..)

variable {prev : Nat}

theorem prev_add_length_batch_le (hle : prev ≤ history.length) :
    prev + (config.batch history room (prev + 1)).length ≤ history.length := by
  have hl := (config.batch_isPrefix history room (prev + 1)).length_le
  rw [length_drop, Nat.add_sub_cancel] at hl
  omega

variable {config history room} {entry : LogEntry Payload}

theorem fits_of_mem_batch {index : Nat} (h : entry ∈ config.batch history room index) :
    config.Fits entry := by
  refine ⟨?_, Collections.cost_le_of_mem_within h⟩
  by_contra hz
  have hn : config.batch history room index = [] := by
    rw [batch, show config.maxBatchSize = 0 by omega, Nat.zero_min, take_zero]
    rfl
  simp [hn] at h

theorem prev_add_length_batch_lt {blocked : Nat} (he : history[blocked]? = some entry)
    (hb : ¬ config.Fits entry) (hle : prev ≤ blocked) :
    prev + (config.batch history room (prev + 1)).length ≤ blocked := by
  by_contra hlt
  have hp : blocked - prev < (config.batch history room (prev + 1)).length := by omega
  have hg := (config.batch_isPrefix history room (prev + 1)).getElem hp
  have hm : (config.batch history room (prev + 1))[blocked - prev] ∈ _ := getElem_mem hp
  rw [hg] at hm
  have hat : (history.drop (prev + 1 - 1))[blocked - prev]? = some entry := by
    rw [List.getElem?_drop, show prev + 1 - 1 + (blocked - prev) = blocked by omega, he]
  rw [(List.getElem?_eq_some_iff.mp hat).2] at hm
  exact hb (fits_of_mem_batch hm)

/-- Some entry is sent as long as the next one fits and its segment is not used up. -/
theorem length_batch_pos (hlt : prev < history.length) (hr : 1 ≤ room)
    (hf : config.Fits history[prev]) : 0 < (config.batch history room (prev + 1)).length := by
  have hc : history.drop prev = history[prev] :: history.drop (prev + 1) :=
    drop_eq_getElem_cons hlt
  rcases hm : min config.maxBatchSize room with _ | count
  · have := hf.1
    omega
  · have hle : ¬ config.maxLenInBytes < 0 + config.byteSize history[prev] := by
      have := hf.2
      omega
    rw [batch, Nat.add_sub_cancel, hc, hm, take_succ_cons, Collections.within, if_neg hle]
    exact Nat.succ_pos _

end Config

/-- Where the two hold entries of one term, they are equal up to there. -/
def LogMatching (entries history : List (LogEntry Payload)) : Prop :=
  ∀ (k : Nat) (entry other : LogEntry Payload), entries[k]? = some entry →
    history[k]? = some other → entry.term = other.term →
    entries.take (k + 1) = history.take (k + 1)

/-- No entry among the first `count` has another term than that of the history. -/
def NoConflict (count : Nat) (entries history : List (LogEntry Payload)) : Prop :=
  ∀ (k : Nat) (entry other : LogEntry Payload), k < count → entries[k]? = some entry →
    history[k]? = some other → entry.term = other.term

/-- The log of the follower matches the history, and nothing it has committed is in conflict
with it. -/
structure Agrees (leader : Fin size) (term : Nat) (history : List (LogEntry Payload))
    (node : Node size Payload Handle) : Prop where
  whole : node.log.IsWhole
  matching : LogMatching node.log.entries history
  committed : NoConflict node.commitIndex node.log.entries history
  term_le : node.log.currentTerm ≤ term
  leaderId : node.log.currentTerm = term → node.leaderId = none ∨ node.leaderId = some leader
  role : node.role ≠ .Syncer

/-- The follower holds the first `held` entries of the history and follows `leader`. -/
structure Follows (leader : Fin size) (term : Nat) (history : List (LogEntry Payload)) (held : Nat)
    (node : Node size Payload Handle) : Prop where
  whole : node.log.IsWhole
  entries_eq : node.log.entries = history.take held
  held_le : held ≤ history.length
  term_le : node.log.currentTerm ≤ term
  leaderId : node.log.currentTerm = term → node.leaderId = none ∨ node.leaderId = some leader
  role : node.role ≠ .Syncer

/-- What a log holds once it has taken over the history up to `last`: whatever is behind it stays,
unless something before it had to go. -/
def TakenOver (history : List (LogEntry Payload)) (last : Nat)
    (before after : List (LogEntry Payload)) : Prop :=
  history.take last <+: before ∧ after = before ∨
    ¬ history.take last <+: before ∧ after = history.take last

section Matching

variable {entries history : List (LogEntry Payload)}

theorem logMatching_take (count : Nat) (history : List (LogEntry Payload)) :
    LogMatching (history.take count) history := by
  intro k entry other he _ _
  have hlt := (List.getElem?_eq_some_iff.mp he).1
  rw [List.length_take] at hlt
  rw [List.take_take, Nat.min_eq_left (by omega)]

theorem noConflict_of_isPrefix {count last : Nat} (h : history.take last <+: entries)
    (hle : count ≤ last) : NoConflict count entries history := by
  intro k entry other hk he ho
  have hlt := (List.getElem?_eq_some_iff.mp ho).1
  rcases h with ⟨rest, rfl⟩
  rw [List.getElem?_append_left (by rw [List.length_take]; omega),
    List.getElem?_take_of_lt (by omega), ho] at he
  cases he
  rfl

theorem noConflict_take (count last : Nat) (history : List (LogEntry Payload)) :
    NoConflict count (history.take last) history := by
  intro k entry other _ he ho
  rw [getElem?_take] at he
  split at he
  · rw [he] at ho
    cases ho
    rfl
  · cases he

end Matching

namespace Agrees

variable {leader : Fin size} {term : Nat} {history : List (LogEntry Payload)}
  {node node' : Node size Payload Handle}

theorem getTerm_eq (h : Agrees leader term history node) {index : Nat} (hp : 1 ≤ index) :
    node.log.getTerm index = node.log.entries[index - 1]?.map LogEntry.term := by
  rw [getTerm, h.whole.firstIndex_eq, if_neg (by omega), h.whole.getEntry_eq hp]

theorem of_log_eq (h : Agrees leader term history node)
    (hf : node'.log.firstIndex = node.log.firstIndex) (he : node'.log.entries = node.log.entries)
    (hc : node'.commitIndex = node.commitIndex) (ht : node'.log.currentTerm = term)
    (hl : node'.leaderId = none ∨ node'.leaderId = some leader)
    (hr : node'.role ≠ .Syncer) : Agrees leader term history node' where
  whole := ⟨hf.trans h.whole.firstIndex_eq, he ▸ h.whole.numbered⟩
  matching := he ▸ h.matching
  committed := by
    rw [hc, he]
    exact h.committed
  term_le := ht.le
  leaderId _ := hl
  role := hr

end Agrees

namespace Follows

variable {leader : Fin size} {term held : Nat} {history : List (LogEntry Payload)}
  {node : Node size Payload Handle}

theorem agrees (h : Follows leader term history held node) : Agrees leader term history node :=
  { h with
    matching := h.entries_eq ▸ logMatching_take held history
    committed := h.entries_eq ▸ noConflict_take _ held history }

theorem of_agrees (h : Agrees leader term history node)
    (he : node.log.entries = history.take held) (hle : held ≤ history.length) :
    Follows leader term history held node :=
  ⟨h.whole, he, hle, h.term_le, h.leaderId, h.role⟩

end Follows

namespace TakenOver

variable {history before after : List (LogEntry Payload)} {last : Nat}

section

variable (h : TakenOver history last before after)
include h

theorem isPrefix : history.take last <+: after := by
  rcases h with ⟨hp, rfl⟩ | ⟨-, rfl⟩
  · exact hp
  · exact prefix_refl _

theorem isNumbered (hn : IsNumbered history) (hb : IsNumbered before) : IsNumbered after := by
  rcases h with ⟨-, rfl⟩ | ⟨-, rfl⟩
  · exact hb
  · exact hn.of_isPrefix (List.take_prefix _ _)

theorem logMatching (hb : LogMatching before history) : LogMatching after history := by
  rcases h with ⟨-, rfl⟩ | ⟨-, rfl⟩
  · exact hb
  · exact logMatching_take last history

theorem noConflict {count : Nat}
    (hb : NoConflict count before history) : NoConflict count after history := by
  rcases h with ⟨-, rfl⟩ | ⟨-, rfl⟩
  · exact hb
  · exact noConflict_take count last history

end

theorem eq_take {held : Nat} (hh : held ≤ history.length) (hl : last ≤ history.length)
    (h : TakenOver history last (history.take held) after) :
    after = history.take (max held last) := by
  rcases h with ⟨hp, rfl⟩ | ⟨hn, rfl⟩
  · have hle := hp.length_le
    rw [length_take_of_le hh, length_take_of_le hl] at hle
    rw [Nat.max_eq_left hle]
  · have hlt : held ≤ last := by
      by_contra hgt
      exact hn (take_isPrefix_take.mpr (.inl (by omega)))
    rw [Nat.max_eq_right hlt]

end TakenOver

namespace Handler

open Program Logic

variable {leader : Fin size} {term held : Nat} {history : List (LogEntry Payload)}
  {node : Node size Payload Handle} {es : List (Effect size Payload Handle)}
  {post : Unit → Node size Payload Handle → List (Effect size Payload Handle) → Unit → Prop}

theorem wp_replyAll_total {code : Nat} {message : String} {leaderId : Option (Fin size)}
    {handles : List (Option Handle)} (h : ∀ es', post () node es' ()) :
    total.Wp (replyAll code message leaderId handles) post node es () := by
  refine (Wp.forEach (fun node' _ _ => node' = node) ?_ rfl).mono ?_
  · intro _ _ node' es' _ heq
    exact Wp.emit_total heq
  · intro _ node' es' _ heq
    rw [heq]
    exact h es'

theorem wp_writeLog_total {log : Log size Payload}
    (h : ∀ es', post () { node with log := log } es' ()) :
    total.Wp (writeLog log) post node es () :=
  Wp.bind (Wp.modify (Wp.emit_total (h _)))

theorem wp_stepDown_total (h : Agrees leader term history node)
    (hwhen : node.log.currentTerm < term ∨ (term = node.log.currentTerm ∧ node.role = .Candidate)) :
    total.Wp (stepDown term)
      (fun _ node' _ _ => Agrees leader term history node' ∧
        node'.log.entries = node.log.entries ∧ node'.log.currentTerm = term)
      node es () := by
  have hdrop : ∀ (node' : Node size Payload Handle) es',
      (Agrees leader term history node' ∧ node'.log.entries = node.log.entries ∧
        node'.log.currentTerm = term) →
      total.Wp (when (node.role = .Leader) (dropPending 301 "LeaderStepDown"))
      (fun _ node' _ _ => Agrees leader term history node' ∧
        node'.log.entries = node.log.entries ∧ node'.log.currentTerm = term)
      node' es' () := by
    intro node' es' hnode
    refine Wp.when (fun _ => Wp.bind (Wp.get (Wp.bind (wp_replyAll_total fun _ => Wp.modify ?_))))
      fun _ => hnode
    exact ⟨{ hnode.1 with }, hnode.2⟩
  refine Wp.bind (Wp.get (Wp.bind (Wp.assert (fun hlt => hlt h.term_le) fun _ => Wp.bind
    (Wp.modify (Wp.bind (Wp.ite (fun hlt => ?_) fun hlt => ?_))))))
  · refine Wp.bind (Wp.bind (Wp.get (wp_writeLog_total fun _ => Wp.bind (Wp.bind (Wp.get
      (wp_writeLog_total fun _ => Wp.modify (hdrop _ _ ⟨?_, rfl, rfl⟩)))))))
    exact h.of_log_eq rfl rfl rfl rfl (.inl rfl) (by simp)
  · have heq : node.log.currentTerm = term := by
      have := h.term_le
      omega
    refine Wp.assert (fun hrole => hrole (hwhen.resolve_left hlt).2)
      fun _ => hdrop _ _ ⟨?_, rfl, heq⟩
    exact { h with role := by simp }

theorem wp_updateLeaderId_total (h : Agrees leader term history node)
    (ht : node.log.currentTerm = term) :
    total.Wp (updateLeaderId leader)
      (fun _ node' _ _ => Agrees leader term history node' ∧
        node'.log.entries = node.log.entries) node es () := by
  refine Wp.bind (Wp.get ?_)
  rcases h.leaderId ht with hn | hs
  · rw [hn]
    exact Wp.modify ⟨{ h with leaderId := fun _ => Or.inr rfl }, rfl⟩
  · rw [hs]
    exact Wp.assert (fun hne => hne rfl) fun _ => ⟨h, rfl⟩

/-- The follower has nothing against what the request says of the entry before its own. -/
def Accepts (history : List (LogEntry Payload)) (held : Nat)
    (request : AppendEntriesRequest size Payload) : Prop :=
  request.prevLogIndex = 0 ∨ (request.prevLogIndex ≤ held ∧
    history[request.prevLogIndex - 1]?.map LogEntry.term = some request.prevLogTerm)

theorem runsTo_logIsOk (h : node.log.IsWhole) (request : AppendEntriesRequest size Payload) :
    ∃ ok, RunsTo (logIsOk request) node [] ok node ∧
      (ok = true ↔ Accepts node.log.entries node.log.entries.length request) := by
  have hfst := h.firstIndex_eq
  have hlast := h.lastLogIndex_eq
  rcases Nat.eq_zero_or_pos request.prevLogIndex with hzero | hpos
  · refine ⟨true, RunsTo.bind_nil (RunsTo.get node) ?_, by simp [Accepts, hzero]⟩
    rw [if_pos (by omega)]
    exact RunsTo.pure true node
  · by_cases hlt : node.log.entries.length < request.prevLogIndex
    · refine ⟨false, RunsTo.bind_nil (RunsTo.get node) ?_, ?_⟩
      · rw [if_neg (by omega), if_pos (by omega)]
        exact RunsTo.pure false node
      · simp only [Bool.false_eq_true, Accepts, false_iff]
        omega
    · have hin : request.prevLogIndex - 1 < node.log.entries.length := by omega
      have hget : node.log.getTerm request.prevLogIndex =
          some node.log.entries[request.prevLogIndex - 1].term := by
        rw [getTerm, hfst, if_neg (by omega), h.getEntry_eq hpos,
          getElem?_eq_getElem hin, map_some]
      refine ⟨node.log.entries[request.prevLogIndex - 1].term == request.prevLogTerm,
        RunsTo.bind_nil (RunsTo.get node) ?_, ?_⟩
      · rw [if_neg (by omega), if_neg (by omega)]
        exact RunsTo.bind_nil (RunsTo.bind_nil (RunsTo.get node) (RunsTo.require hget node))
          (RunsTo.pure _ node)
      · rw [beq_iff_eq, Accepts, getElem?_eq_getElem hin, map_some, some.injEq]
        omega

variable {index : Nat} {entries : List (LogEntry Payload)}
  {request : AppendEntriesRequest size Payload} {response : AppendEntriesResponse size}
  {self : Fin size}

theorem runsTo_mergeEntries_past (hn : IsNumbered history) (h : node.log.IsWhole)
    (hle : node.log.entries.length ≤ index) (hb : entries <+: history.drop index) :
    RunsTo (mergeEntries index entries) node [] entries node := by
  have hf := h.firstIndex_eq
  have hl := h.lastLogIndex_eq
  induction entries generalizing index with
  | nil => exact RunsTo.pure [] node
  | cons entry entries ih =>
    rcases cons_isPrefix_drop hb with ⟨hat, ht⟩
    have hi : entry.index = index + 1 := hn index entry hat
    refine RunsTo.bind_nil (RunsTo.assert hi node) (RunsTo.bind_nil (RunsTo.get node) ?_)
    rw [if_neg (by omega), if_neg (by omega)]
    exact RunsTo.bind_nil (ih (by omega) ht) (RunsTo.pure _ node)

theorem take_append_batch (hb : entries <+: history.drop index) :
    history.take index ++ entries = history.take (index + entries.length) := by
  rw [take_add, ← prefix_iff_eq_take.mp hb]

/-- What the log shares with the history up to the batch is kept; the first entry in conflict
goes, with all behind it. -/
theorem wp_mergeEntries_total (hnum : IsNumbered history) (h : Agrees leader term history node)
    (hidx : index ≤ node.log.entries.length)
    (hshar : node.log.entries.take index = history.take index)
    (hbat : entries <+: history.drop index) :
    total.Wp (mergeEntries index entries)
      (fun rest node' _ _ => Agrees leader term history node' ∧
        node'.commitIndex = node.commitIndex ∧
        TakenOver history (index + entries.length) node.log.entries (node'.log.entries ++ rest))
      node es () := by
  have hfst := h.whole.firstIndex_eq
  have hlast := h.whole.lastLogIndex_eq
  induction entries generalizing index es with
  | nil =>
    refine Wp.pure ⟨h, rfl, .inl ⟨?_, append_nil _⟩⟩
    exact ⟨_, by rw [length_nil, Nat.add_zero, ← hshar, take_append_drop]⟩
  | cons entry entries ih =>
    rcases cons_isPrefix_drop hbat with ⟨hat, htail⟩
    have hnext : entry.index = index + 1 := hnum index entry hat
    have hlen := (List.getElem?_eq_some_iff.mp hat).1
    have hall := hbat.length_le
    rw [length_drop, length_cons] at hall
    refine Wp.bind (Wp.assert (fun hne => hne hnext) fun _ => Wp.bind (Wp.get ?_))
    rw [if_neg (by omega)]
    by_cases hle : index + 1 ≤ node.log.entries.length
    · have hin : index < node.log.entries.length := hle
      have hheld : node.log.entries[index]? = some node.log.entries[index] :=
        getElem?_eq_getElem hin
      have hget : node.log.getTerm entry.index = some node.log.entries[index].term := by
        rw [hnext, h.getTerm_eq (by omega), Nat.add_sub_cancel, hheld, map_some]
      rw [if_pos (by omega)]
      refine Wp.bind (Wp.of_runsTo_total
        (RunsTo.bind_nil (RunsTo.get node) (RunsTo.require hget node)) ?_)
      by_cases hterm : entry.term = node.log.entries[index].term
      · rw [if_pos hterm]
        have hlen' : index + (entry :: entries).length = index + 1 + entries.length := by
          rw [length_cons]
          omega
        rw [hlen']
        exact ih hle (h.matching _ _ _ hheld hat hterm.symm) htail
      · -- the conflict: nothing committed is lost
        rw [if_neg hterm]
        have hcom : node.commitIndex < entry.index := by
          by_contra hge
          exact hterm (h.committed index _ _ (by omega) hheld hat).symm
        refine Wp.bind (Wp.assert (fun hnot => hnot hcom) fun _ => Wp.bind (Wp.bind (Wp.get
          (wp_writeLog_total fun es' => ?_))))
        have hcut : node.log.truncateSuffix (entry.index - 1) =
            { node.log with entries := history.take index } := by
          rw [hnext, Nat.add_sub_cancel, h.whole.truncateSuffix_eq hin, hshar]
        rw [hcut]
        have hagr : Agrees leader term history
            { node with log := { node.log with entries := history.take index } } :=
          ⟨⟨hfst, hnum.of_isPrefix (List.take_prefix _ _)⟩, logMatching_take _ _,
            noConflict_take _ _ _, h.term_le, h.leaderId, h.role⟩
        refine Wp.bind (Wp.of_runsTo_total (runsTo_mergeEntries_past hnum hagr.whole
          ((length_take_le _ _).trans (Nat.le_succ _)) htail) (Wp.pure
            ⟨hagr, rfl, .inr ⟨?_, take_append_batch hbat⟩⟩))
        intro hpre
        have hsame := noConflict_of_isPrefix hpre le_rfl index _ _
          (by rw [length_cons]; omega) hheld hat
        exact hterm hsame.symm
    · have hend : node.log.entries = history.take index := by
        rw [← hshar, take_of_length_le (by omega)]
      rw [if_neg (by omega)]
      refine Wp.bind (Wp.of_runsTo_total (runsTo_mergeEntries_past hnum h.whole (by omega) htail)
        (Wp.pure ⟨h, rfl, .inr ⟨?_, by rw [hend]; exact take_append_batch hbat⟩⟩))
      intro hpre
      have hsh := hpre.length_le
      rw [length_take, length_cons] at hsh
      omega

theorem wp_appendAll_total {post : Bool → Node size Payload Handle →
      List (Effect size Payload Handle) → Unit → Prop} (hwh : node.log.IsWhole)
    (hn : IsNumbered (node.log.entries ++ entries)) (h : ∀ es', post true
      { node with log := { node.log with entries := node.log.entries ++ entries } } es' ()) :
    total.Wp (appendAll entries) post node es () := by
  induction entries generalizing node es with
  | nil =>
    refine Wp.pure ?_
    simpa using h es
  | cons entry entries ih =>
    have hi : entry.index = node.log.entries.length + 1 :=
      hn node.log.entries.length entry (by simp)
    refine Wp.bind (Wp.get ?_)
    rw [hwh.appendEntry_eq hi]
    refine Wp.bind (wp_writeLog_total fun _ => ih ?_ ?_ ?_)
    · exact ⟨hwh.firstIndex_eq, hwh.numbered.concat hi⟩
    · simpa using hn
    · simpa using h

theorem wp_followCommitIndex_total {commitIndex : Nat}
    (h : Agrees leader term history node) (hp : history.take commitIndex <+: node.log.entries)
    (hle : commitIndex ≤ node.log.entries.length) :
    total.Wp (followCommitIndex commitIndex)
      (fun _ node' _ _ => Agrees leader term history node' ∧
        node'.log.entries = node.log.entries) node es () := by
  refine Wp.bind (Wp.get (Wp.when (fun _ => Wp.bind (Wp.modify (Wp.assert ?_ fun _ => ?_)))
    fun _ => ⟨h, rfl⟩))
  · intro hlt
    rw [h.whole.lastLogIndex_eq] at hlt
    exact hlt hle
  · exact ⟨{ h with committed := noConflict_of_isPrefix hp le_rfl }, rfl⟩

theorem prevLogIndex_le (h : Accepts entries entries.length request) :
    request.prevLogIndex ≤ entries.length := by
  rcases h with hz | hle
  · omega
  · exact hle.1

/-- A batch of the history behind what the log shares with it is taken over. -/
theorem wp_acceptEntries_of_accepts (hnum : IsNumbered history)
    (h : Agrees leader term history node) (hterm : node.log.currentTerm = term)
    (hlead : request.leaderId = leader)
    (hacc : Accepts node.log.entries node.log.entries.length request)
    (hshar : node.log.entries.take request.prevLogIndex = history.take request.prevLogIndex)
    (hbat : request.entries <+: history.drop request.prevLogIndex)
    (hcommit : request.commitIndex ≤ request.prevLogIndex + request.entries.length) :
    total.Wp (acceptEntries request response)
      (fun answer node' _ _ =>
        answer = { response with
          success := true
          lastLogIndex := node'.log.entries.length
          matchIndex := request.prevLogIndex + request.entries.length } ∧
        Agrees leader term history node' ∧
        TakenOver history (request.prevLogIndex + request.entries.length) node.log.entries
          node'.log.entries)
      node es () := by
  subst hlead
  refine Wp.bind ((wp_updateLeaderId_total h hterm).mono fun _ known _ _ hkn => ?_)
  rcases hkn with ⟨h', hents⟩
  rw [← hents] at hacc hshar ⊢
  rcases runsTo_logIsOk h'.whole request with ⟨ok, hok, hiff⟩
  refine Wp.bind (Wp.of_runsTo_total hok ?_)
  rw [if_pos (hiff.mpr hacc)]
  refine Wp.bind ((wp_mergeEntries_total hnum h' (prevLogIndex_le hacc) hshar hbat).mono ?_)
  rintro rest merged _ _ ⟨hagr, hcom, hmer⟩
  have hwr := hmer.isNumbered hnum h'.whole.numbered
  refine Wp.bind (wp_appendAll_total hagr.whole hwr fun _ => ?_)
  have hpre := hmer.isPrefix
  have hlast : request.prevLogIndex + request.entries.length ≤
      (merged.log.entries ++ rest).length := by
    have hlen := hpre.length_le
    have hall := hbat.length_le
    have hprev := prevLogIndex_le hacc
    have htake := congrArg length hshar
    rw [length_take_of_le hprev, length_take] at htake
    rw [length_drop] at hall
    rw [length_take] at hlen
    omega
  have happ : Agrees request.leaderId term history { merged with
      log := { merged.log with entries := merged.log.entries ++ rest } } :=
    { whole := ⟨hagr.whole.firstIndex_eq, hwr⟩
      matching := hmer.logMatching h'.matching
      committed := hmer.noConflict (hcom ▸ h'.committed)
      term_le := hagr.term_le
      leaderId := hagr.leaderId
      role := hagr.role }
  refine Wp.bind (Wp.assert (fun hfls => hfls rfl) fun _ => Wp.bind (Wp.get (Wp.bind
    ((wp_followCommitIndex_total happ ?_ (hcommit.trans hlast)).mono ?_))))
  · exact (take_isPrefix_take.mpr (.inl hcommit)).trans hpre
  · rintro _ done _ _ ⟨hdone, heq⟩
    refine Wp.pure ⟨?_, hdone, heq ▸ hmer⟩
    rw [heq, happ.whole.lastLogIndex_eq]

theorem wp_acceptEntries_of_not_accepts (h : Agrees leader term history node)
    (ht : node.log.currentTerm = term) (hl : request.leaderId = leader)
    (hr : ¬ Accepts node.log.entries node.log.entries.length request) :
    total.Wp (acceptEntries request response)
      (fun answer node' _ _ => answer = response ∧ Agrees leader term history node' ∧
        node'.log.entries = node.log.entries)
      node es () := by
  subst hl
  refine Wp.bind ((wp_updateLeaderId_total h ht).mono fun _ known _ _ hkn => ?_)
  rcases hkn with ⟨h', he⟩
  rw [← he] at hr ⊢
  rcases runsTo_logIsOk h'.whole request with ⟨ok, hok, hi⟩
  refine Wp.bind (Wp.of_runsTo_total hok ?_)
  rw [if_neg fun htrue => hr (hi.mp htrue)]
  exact Wp.pure ⟨rfl, h', rfl⟩

/-- The answer before the log was looked at. -/
def refusal (self : Fin size) (held : Nat) (request : AppendEntriesRequest size Payload) :
    AppendEntriesResponse size where
  term := request.term
  success := false
  id := self
  savedTerm := request.term
  savedPrevLogIndex := request.prevLogIndex
  lastLogIndex := held
  matchIndex := 0

def acceptance (self : Fin size) (held : Nat) (request : AppendEntriesRequest size Payload) :
    AppendEntriesResponse size :=
  { refusal self held request with
    success := true
    lastLogIndex := max held (request.prevLogIndex + request.entries.length)
    matchIndex := request.prevLogIndex + request.entries.length }

theorem wp_handleAppendEntriesRequest_total
    {post : Option (AppendEntriesResponse size) → Node size Payload Handle →
      List (Effect size Payload Handle) → Unit → Prop} (h : Agrees leader request.term history node)
    (hn : ∀ node' es', Agrees leader request.term history node' →
      node'.log.entries = node.log.entries → node'.log.currentTerm = request.term →
      total.Wp (acceptEntries request (refusal self node.log.entries.length request))
        (fun answer => post (some answer)) node' es' ()) :
    total.Wp (handleAppendEntriesRequest self request) post node es () := by
  have ha : ∀ node' es', Agrees leader request.term history node' →
      node'.log.entries = node.log.entries → node'.log.currentTerm = request.term →
      total.Wp (do
        let response ← acceptEntries request (refusal self node.log.entries.length request)
        pure (some response)) post node' es' () := by
    intro node' es' h' he ht'
    exact Wp.bind ((hn node' es' h' he ht').mono fun _ _ _ _ hp => Wp.pure hp)
  have hle := h.term_le
  refine Wp.bind (Wp.get ?_)
  rw [if_neg (by omega), if_neg h.role, h.whole.lastLogIndex_eq]
  refine Wp.bind (Wp.when (fun hw => ?_) fun hk => ?_)
  · exact (wp_stepDown_total h hw).mono fun _ node' es' _ h' =>
      ha node' es' h'.1 h'.2.1 h'.2.2
  · exact ha node _ h rfl (by omega)

theorem result_of_accepts (hn : IsNumbered history)
    (h : Agrees request.leaderId request.term history node)
    (ha : Accepts node.log.entries node.log.entries.length request)
    (hs : node.log.entries.take request.prevLogIndex = history.take request.prevLogIndex)
    (hb : request.entries <+: history.drop request.prevLogIndex)
    (hc : request.commitIndex ≤ request.prevLogIndex + request.entries.length) :
    ∃ node', (handleAppendEntriesRequest self request node).result =
        .ok (some { acceptance self node.log.entries.length request with
          lastLogIndex := node'.log.entries.length }, node') ∧
      Agrees request.leaderId request.term history node' ∧
      TakenOver history (request.prevLogIndex + request.entries.length) node.log.entries
        node'.log.entries := by
  have hwp : total.Wp (handleAppendEntriesRequest self request) (fun answer node' _ _ =>
        answer = some { acceptance self node.log.entries.length request with
          lastLogIndex := node'.log.entries.length } ∧
        Agrees request.leaderId request.term history node' ∧
        TakenOver history (request.prevLogIndex + request.entries.length) node.log.entries
          node'.log.entries) node [] () := by
    refine wp_handleAppendEntriesRequest_total h fun node' es' h' he ht' => ?_
    rw [← he] at ha hs
    refine (wp_acceptEntries_of_accepts hn h' ht' rfl ha hs hb hc).mono ?_
    rintro answer done _ _ ⟨hans, hagr, hm⟩
    exact ⟨congrArg some hans, hagr, he ▸ hm⟩
  rcases hwp.exists_result with ⟨answer, node', hr, rfl, h'⟩
  exact ⟨node', hr, h'⟩

theorem result_of_not_accepts (h : Agrees request.leaderId request.term history node)
    (hr : ¬ Accepts node.log.entries node.log.entries.length request) :
    ∃ node', (handleAppendEntriesRequest self request node).result =
        .ok (some (refusal self node.log.entries.length request), node') ∧
      Agrees request.leaderId request.term history node' ∧
      node'.log.entries = node.log.entries := by
  have hwp : total.Wp (handleAppendEntriesRequest self request)
      (fun answer node' _ _ => answer = some (refusal self node.log.entries.length request) ∧
        Agrees request.leaderId request.term history node' ∧
        node'.log.entries = node.log.entries) node [] () := by
    refine wp_handleAppendEntriesRequest_total h fun node' es' h' he ht' => ?_
    rw [← he] at hr
    refine (wp_acceptEntries_of_not_accepts h' ht' rfl hr).mono ?_
    rintro answer done _ _ ⟨ha, hagr, hs⟩
    exact ⟨congrArg some ha, hagr, hs.trans he⟩
  rcases hwp.exists_result with ⟨answer, node', hres, rfl, h'⟩
  exact ⟨node', hres, h'⟩

theorem runsTo_sendAppendEntries (self : Fin size) {id : Fin size} {config : Config Payload}
    {room : Nat} {prevLogTerm : Nat}
    (ht : node.log.getTerm ((node.peers id).nextIndex - 1) = some prevLogTerm)
    (he : (if (node.peers id).suppressBulkData then some [] else
      node.log.getEntries config.byteSize (node.peers id).nextIndex config.maxLenInBytes
        config.maxBatchSize room) = some entries) :
    RunsTo (sendAppendEntries self config room id) node
      [.sent ⟨self, id, node.incarnation, .appendEntriesRequest
        (node.appendEntriesRequest self ((node.peers id).nextIndex - 1) prevLogTerm entries)⟩]
      () (node.withPeer id { node.peers id with switch := false }) := by
  refine RunsTo.bind_nil (RunsTo.get node) (RunsTo.bind_nil (RunsTo.bind_nil (RunsTo.get node)
    (RunsTo.require ht node)) ?_)
  refine RunsTo.bind_nil (x := entries) ?_ rfl
  by_cases hs : (node.peers id).suppressBulkData = true
  · rw [if_pos hs, some.injEq] at he
    rw [if_pos hs, ← he]
    exact RunsTo.pure [] node
  · rw [if_neg hs] at he
    rw [if_neg hs]
    exact RunsTo.require he node

theorem runsTo_success (config : Config Payload) (hr : node.role = .Leader)
    (hcnt : Counts node response) (hsuc : response.success = true)
    (hm : (node.peers response.id).matchIndex ≤ response.matchIndex) :
    RunsTo (handleAppendEntriesResponse config response) node [] ()
      (node.withPeer response.id
        { node.peers response.id with
          matchIndex := response.matchIndex
          nextIndex := response.matchIndex + 1
          suppressBulkData := false }) := by
  refine RunsTo.bind_nil (RunsTo.get node) ?_
  rw [when, if_pos hcnt.1]
  refine RunsTo.bind_nil (RunsTo.assert hr node) ?_
  rw [if_neg hcnt.2.1.not_gt, when, if_pos hcnt.2.2, if_pos hsuc]
  exact RunsTo.bind_nil (RunsTo.assert hm node) rfl

theorem runsTo_refused (config : Config Payload) (hr : node.role = .Leader)
    (hcnt : Counts node response) (hsuc : response.success = false)
    (hc : (node.peers response.id).matchIndex ≤ response.lastLogIndex)
    (hg : (node.peers response.id).matchIndex + 1 < (node.peers response.id).nextIndex) :
    RunsTo (handleAppendEntriesResponse config response) node [] ()
      (node.withPeer response.id
        { node.peers response.id with
          nextIndex := lowerNextIndex config (node.peers response.id) response.lastLogIndex }) := by
  refine RunsTo.bind_nil (RunsTo.get node) ?_
  rw [when, if_pos hcnt.1]
  refine RunsTo.bind_nil (RunsTo.assert hr node) ?_
  rw [if_neg hcnt.2.1.not_gt, when, if_pos hcnt.2.2, if_neg (by simp [hsuc])]
  exact RunsTo.bind_nil (RunsTo.assert hc node) (RunsTo.bind_nil (RunsTo.assert hg node) rfl)

end Handler

end MySuperLedger.Raft
