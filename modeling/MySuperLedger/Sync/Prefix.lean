import MySuperLedger.Sync.LogSync

/-! # The copy ends at the split entry

What was fetched is a prefix of the source log: the node's own log, followed by
the entries of the requests still in the queue. It stops at the first split entry
of the plan, and the request to finish is queued only when the log has it.
-/

namespace MySuperLedger.Sync

open Raft Raft.Log Transition List Option State LogSyncService

section Invariant

variable {size : Nat} {Body : Type} {source : List (Entry Body)} {planId : String}

/-- The index of the first split entry of the plan, or past the end of `source`. -/
def splitIndex (planId : String) (source : List (Entry Body)) : Nat :=
  source.findIdx (endLog planId) + 1

structure Fetched (planId : String) (source : List (Entry Body)) (service : LogSyncService) :
    Prop where
  planId_eq : service.planId = planId
  le_length : service.lastIndex ≤ source.length
  lt_split : service.endLogFlag = false → service.lastIndex < splitIndex planId source
  eq_split : service.endLogFlag = true → service.lastIndex = splitIndex planId source

variable {service : LogSyncService}

theorem Fetched.le_split (h : Fetched planId source service) :
    service.lastIndex ≤ splitIndex planId source := by
  cases hf : service.endLogFlag with
  | false => exact (h.lt_split hf).le
  | true => exact (h.eq_split hf).le

/-- Nothing fetched so far is the split entry, so it is searched for in what follows. -/
theorem Fetched.findIdx_eq (h : Fetched planId source service) (ho : service.endLogFlag = false) :
    source.findIdx (endLog planId) =
      (source.drop service.lastIndex).findIdx (endLog planId) + service.lastIndex := by
  have hlt := h.lt_split ho
  unfold splitIndex at hlt
  have ht : (source.take service.lastIndex).findIdx (endLog planId) = service.lastIndex := by
    rw [findIdx_take]
    omega
  have hl : (source.take service.lastIndex).length = service.lastIndex :=
    length_take_of_le h.le_length
  calc source.findIdx (endLog planId)
      = (source.take service.lastIndex ++ source.drop service.lastIndex).findIdx
          (endLog planId) := by rw [take_append_drop]
    _ = _ := by rw [findIdx_append, ht, hl, if_neg (Nat.lt_irrefl _)]

variable {logs : List (Entry Body)} {last : Nat} {reply : Reply Body}

/-- The kept part of an answer ends at the split entry, if the answer has it, and with the
answer otherwise. -/
theorem Fetched.truncate {service : LogSyncService} (h : Fetched planId source service)
    (hopen : service.endLogFlag = false) {logs : List (Entry Body)}
    (hlogs : logs <+: source.drop service.lastIndex) (clientIdx : Nat) :
    Fetched planId source { service with
      clientIdx := clientIdx
      endLogFlag := logs.any (endLog planId)
      lastIndex :=
        service.lastIndex + (logs.take (logs.findIdx (endLog planId) + 1)).length } := by
  have hfind := h.findIdx_eq hopen
  have hle := h.le_length
  have hlen := hlogs.length_le
  rw [length_drop] at hlen
  rcases hlogs with ⟨rest, hrest⟩
  rw [← hrest, findIdx_append] at hfind
  have hkept := length_take (l := logs) (i := logs.findIdx (endLog planId) + 1)
  constructor
  · exact h.planId_eq
  · show service.lastIndex + _ ≤ _
    omega
  · intro hnone
    have hall : logs.findIdx (endLog planId) = logs.length := by
      simpa [findIdx_eq_length] using hnone
    show service.lastIndex + _ < _
    rw [if_neg (by omega)] at hfind
    unfold splitIndex
    omega
  · intro hsome
    have hany : logs.findIdx (endLog planId) < logs.length := by
      simpa [findIdx_lt_length] using hsome
    show service.lastIndex + _ = _
    rw [if_pos hany] at hfind
    unfold splitIndex
    omega

theorem take_isPrefix_drop (count : Nat) (hl : logs <+: source.drop last) :
    source.take (last + (logs.take count).length) = source.take last ++ logs.take count := by
  have hk : logs.take count <+: source.drop last := (List.take_prefix _ _).trans hl
  rw [take_add, ← prefix_iff_eq_take.mp hk]

theorem fetch_isPrefix {startIndex : Nat} {status : FetchStatus}
    (hr : reply.IsFrom source startIndex) (hf : fetch startIndex reply = some (status, logs)) :
    logs <+: source.drop (startIndex - 1) := by
  cases reply with
  | failed =>
    cases hf
    exact nil_prefix
  | response firstIndex entries =>
    simp only [fetch] at hf
    split_ifs at hf
    · cases hf
      exact nil_prefix
    · cases hf
      exact nil_prefix
    · cases hf
      exact hr

theorem Fetched.runOnce {after : LogSyncService} {request : Option (SyncRequest Body)}
    (h : Fetched planId source service) (hrep : reply.IsFrom source (service.lastIndex + 1))
    (hrun : service.runOnce reply = some (after, request)) :
    service.endLogFlag = false ∧ Fetched planId source after ∧ source.take after.lastIndex =
        source.take service.lastIndex ++ entriesOf request.toList ∧
      Contiguous service.lastIndex request.toList := by
  have hplan := h.planId_eq
  subst hplan
  unfold runOnce at hrun
  split at hrun
  · cases hrun
  rename_i hcan
  have hopen : service.endLogFlag = false := by
    cases hflag : service.endLogFlag with
    | false => rfl
    | true => exact (hcan (.inl hflag)).elim
  dsimp only at hrun
  split at hrun
  · cases hrun
  · rename_i logs hfetch
    have hlogs := fetch_isPrefix hrep hfetch
    rw [Nat.add_sub_cancel] at hlogs
    have hfet := h.truncate hopen hlogs (service.clientIdx % service.readers.length)
    have htake := take_isPrefix_drop (logs.findIdx (endLog service.planId) + 1) hlogs
    rw [truncateLogs, truncateLoop_false] at hrun
    dsimp only at hrun
    split at hrun
    · rename_i hnone
      cases hrun
      rw [hnone] at hfet
      exact ⟨hopen, hfet, by simp [entriesOf], trivial⟩
    · rename_i hsome
      cases hrun
      refine ⟨hopen, hfet, ?_, rfl, hsome, rfl, rfl, trivial⟩
      simpa [entriesOf] using htake
  · cases hrun
    exact ⟨hopen, { h with }, by simp [entriesOf],
      trivial⟩

theorem Contiguous.eq_nil {requests : List (SyncRequest Body)} (h : Contiguous last requests)
    (he : entriesOf requests = []) : requests = [] := by
  cases requests with
  | nil => rfl
  | cons request requests =>
    rcases h with ⟨-, hne, -⟩
    simp [entriesOf, hne] at he

/-- The requests the raft thread has taken, those it has not, and the requests to finish
behind them. -/
structure SyncInv (planId : String) (source initial : List (Entry Body))
    (handled pending finishes : List (SyncRequest Body)) (s : State size Body) : Prop where
  fetched : Fetched planId source s.service
  enqueued_eq : s.enqueued = handled ++ pending
  queue_eq : s.queue = pending ++ finishes
  finishing : ∀ request ∈ finishes, request.finishMeta ≠ none
  contiguous : Contiguous initial.length s.enqueued
  copied : source.take s.service.lastIndex = initial ++ entriesOf s.enqueued
  firstIndex_eq : s.core.log.firstIndex = 1
  log_eq : s.core.log.entries = initial ++ entriesOf handled
  ended : s.core.role ≠ .Syncer ∨ finishes ≠ [] → s.service.endLogFlag = true ∧ pending = []

namespace SyncInv

variable {initial : List (Entry Body)} {handled pending finishes : List (SyncRequest Body)}
  {s : State size Body}

section

variable (h : SyncInv planId source initial handled pending finishes s)
include h

theorem log_append : s.core.log.entries ++ entriesOf pending = source.take s.service.lastIndex := by
  rw [h.log_eq, h.copied, h.enqueued_eq]
  simp [entriesOf]

theorem log_isPrefix : s.core.log.entries <+: source.take s.service.lastIndex :=
  ⟨_, h.log_append⟩

theorem isWhole (hs : IsNumbered source) : s.core.log.IsWhole where
  firstIndex_eq := h.firstIndex_eq
  numbered := hs.of_isPrefix (h.log_isPrefix.trans (List.take_prefix _ _))

theorem lastIndex_eq : initial.length + (entriesOf s.enqueued).length = s.service.lastIndex := by
  have hl := congrArg length h.copied
  rw [length_take_of_le h.fetched.le_length, length_append] at hl
  exact hl.symm

theorem contiguous_pending : Contiguous s.core.log.entries.length pending := by
  have ha := h.contiguous
  rw [h.enqueued_eq, contiguous_append] at ha
  rw [h.log_eq, length_append]
  exact ha.2

theorem finishes_eq_nil (ho : s.service.endLogFlag = false) : finishes = [] := by
  by_contra hne
  have he := (h.ended (.inr hne)).1
  rw [ho] at he
  cases he

theorem fetch {reply : Reply Body}
    (hrep : reply.IsFrom source (s.service.lastIndex + 1)) {request : Option (SyncRequest Body)}
    (hrun : s.service.runOnce reply = some (service, request)) :
    SyncInv planId source initial handled (pending ++ request.toList) []
      { s with
        service := service
        queue := s.queue ++ request.toList
        enqueued := s.enqueued ++ request.toList } := by
  rcases h.fetched.runOnce hrep hrun with ⟨hopen, hfet, htake, hnext⟩
  have hfin := h.finishes_eq_nil hopen
  subst hfin
  constructor
  · exact hfet
  · simp [h.enqueued_eq]
  · simp [h.queue_eq]
  · simp
  · rw [contiguous_append, h.lastIndex_eq]
    exact ⟨h.contiguous, hnext⟩
  · simp [htake, h.copied, entriesOf]
  · exact h.firstIndex_eq
  · exact h.log_eq
  · rintro (hrole | hne)
    · have hended := (h.ended (.inl hrole)).1
      rw [hopen] at hended
      cases hended
    · exact (hne rfl).elim

end

variable {request : SyncRequest Body} {queue : List (SyncRequest Body)}
  {rest : List (SyncRequest Body)} {wanted : String} {tagCommitIndex beginIndex : Nat}

theorem handleSyncRequest_eq
    (h : SyncInv planId source initial handled (request :: rest) finishes s)
    (hs : IsNumbered source) :
    ∃ term commitIndex, s.core.handleSyncRequest request = some { s.core with
      log := { s.core.log with
        entries := s.core.log.entries ++ request.entries, currentTerm := term }
      commitIndex := commitIndex } := by
  have hwh := h.isWhole hs
  have hr : s.core.role = .Syncer := by
    by_contra hne
    cases (h.ended (.inl hne)).2
  have hn : IsNumbered (s.core.log.entries ++ request.entries) := by
    have ha := h.log_append
    rw [entriesOf, flatMap_cons, ← append_assoc] at ha
    exact hs.of_isPrefix (.trans ⟨_, ha⟩ (List.take_prefix _ _))
  rcases h.contiguous_pending with ⟨hsync, hne, hst, he, -⟩
  have hl : request.entries.getLast? = some (request.entries.getLast hne) :=
    getLast?_eq_some_getLast hne
  have hi : ({ s.core.log with entries := s.core.log.entries ++ request.entries } :
      Log size (Tagged Body)).lastLogIndex = request.endIndex := by
    simp [lastLogIndex, hwh.firstIndex_eq, he]
  refine ⟨(request.entries.getLast hne).term, request.endIndex, ?_⟩
  simp [SyncCore.handleSyncRequest, hr, hsync, hst, hwh.lastLogIndex_eq, hl,
    appendEntries_eq hwh hn, hi, setCurrentTerm]

theorem handle_pending (h : SyncInv planId source initial handled (request :: rest) finishes s)
    (hq : s.queue = request :: queue) (term commitIndex : Nat) :
    SyncInv planId source initial (handled ++ [request]) rest finishes { s with
      core := { s.core with
        log := { s.core.log with
          entries := s.core.log.entries ++ request.entries, currentTerm := term }
        commitIndex := commitIndex }
      queue := queue } := by
  have hr : queue = rest ++ finishes := by
    simpa [hq] using h.queue_eq
  constructor
  · exact h.fetched
  · simp [h.enqueued_eq]
  · exact hr
  · exact h.finishing
  · exact h.contiguous
  · exact h.copied
  · exact h.firstIndex_eq
  · simp [h.log_eq, entriesOf]
  · intro he
    cases (h.ended he).2

/-- Behind the last entries only requests to finish are left, and they leave the log alone. -/
theorem handle_finish (h : SyncInv planId source initial handled [] finishes s)
    (hq : s.queue = request :: queue) :
    ∃ role beginIndex, s.core.handleSyncRequest request =
        some { s.core with role := role, beginIndex := beginIndex } ∧
      SyncInv planId source initial handled [] queue { s with
        core := { s.core with role := role, beginIndex := beginIndex }
        queue := queue } := by
  have hf : finishes = request :: queue := by
    simpa [hq] using h.queue_eq.symm
  subst hf
  have he := h.ended (.inr (cons_ne_nil _ _))
  have hi : ∀ role beginIndex, SyncInv planId source initial handled [] queue { s with
      core := { s.core with role := role, beginIndex := beginIndex }
      queue := queue } := fun role beginIndex =>
    ⟨h.fetched, h.enqueued_eq, rfl, fun r hr => h.finishing r (mem_cons_of_mem _ hr),
      h.contiguous, h.copied, h.firstIndex_eq, h.log_eq, fun _ => he⟩
  by_cases hrole : s.core.role = .Syncer
  · cases hm : request.finishMeta with
    | none => exact (h.finishing request mem_cons_self hm).elim
    | some beginIndex =>
      exact ⟨.Follower, beginIndex, by simp [SyncCore.handleSyncRequest, hrole, hm],
        hi _ _⟩
  · exact ⟨s.core.role, s.core.beginIndex, by simp [SyncCore.handleSyncRequest, hrole],
      hi _ _⟩

section

variable (h : SyncInv planId source initial handled pending finishes s)
include h

theorem pending_eq_nil (hle : s.service.lastIndex ≤ s.core.log.entries.length) : pending = [] := by
  have hl := congrArg length h.log_append
  rw [length_append, length_take_of_le h.fetched.le_length] at hl
  exact h.contiguous_pending.eq_nil (eq_nil_of_length_eq_zero (by omega))

/-- `terminateSyncMode` goes through only when the log has the split entry. -/
theorem of_terminateSyncMode (hs : IsNumbered source)
    (hok : s.service.terminateSyncMode s.core.log wanted tagCommitIndex = .ok beginIndex) :
    s.service.endLogFlag = true ∧ pending = [] := by
  have hwh := h.isWhole hs
  unfold terminateSyncMode at hok
  split_ifs at hok with ho hi
  · have he : s.service.endLogFlag = true := by simpa using ho
    refine ⟨he, h.pending_eq_nil ?_⟩
    cases hent : s.core.log.getEntry s.service.lastIndex with
    | none => simp [hent] at hok
    | some entry =>
      rcases hwh.exists_concat_of_getEntry hent with ⟨before, hl, hp⟩
      have hle := hp.length_le
      rw [length_append, length_singleton] at hle
      omega

theorem terminate (hs : IsNumbered source)
    (hok : s.service.terminateSyncMode s.core.log wanted tagCommitIndex = .ok beginIndex) :
    SyncInv planId source initial handled pending (finishes ++ [⟨[], 0, 0, some beginIndex⟩])
      { s with queue := s.queue ++ [⟨[], 0, 0, some beginIndex⟩] } := by
  have he := h.of_terminateSyncMode hs hok
  constructor
  · exact h.fetched
  · exact h.enqueued_eq
  · simp [h.queue_eq]
  · intro request hr
    rcases mem_append.mp hr with ho | hn
    · exact h.finishing request ho
    · simp [mem_singleton.mp hn]
  · exact h.contiguous
  · exact h.copied
  · exact h.firstIndex_eq
  · exact h.log_eq
  · exact fun _ => he

theorem step (hsrc : IsNumbered source) {action : Action Body} (hfrom : action.IsFrom source s)
    {after : State size Body} (hstep : s.step action = some after) :
    ∃ handled pending finishes, SyncInv planId source initial handled pending finishes after := by
  cases action with
  | fetch reply =>
    rcases map_eq_some_iff.mp hstep with ⟨⟨service, request⟩, hrun, rfl⟩
    exact ⟨_, _, _, h.fetch hfrom hrun⟩
  | handle =>
    cases hque : s.queue with
    | nil => simp [State.step, hque] at hstep
    | cons request queue =>
      simp only [State.step, hque] at hstep
      cases pending with
      | nil =>
        rcases h.handle_finish hque with ⟨role, beginIndex, hcore, hinv⟩
        simp only [hcore, map_some, Option.some.injEq] at hstep
        exact ⟨_, _, _, hstep ▸ hinv⟩
      | cons first rest =>
        have hfst : request = first := by
          have heq := h.queue_eq
          rw [hque, cons_append, cons.injEq] at heq
          exact heq.1
        subst hfst
        rcases h.handleSyncRequest_eq hsrc with ⟨term, commitIndex, hcore⟩
        simp only [hcore, map_some, Option.some.injEq] at hstep
        exact ⟨_, _, _, hstep ▸ h.handle_pending hque term commitIndex⟩
  | terminate wanted tagCommitIndex =>
    simp only [State.step] at hstep
    split at hstep
    · cases hstep
      exact ⟨_, _, _, h⟩
    · rename_i beginIndex hok
      cases hstep
      exact ⟨_, _, _, h.terminate hsrc hok⟩

theorem handleSyncRequest_isSome (hs : IsNumbered source) (hq : s.queue = request :: queue) :
    (s.core.handleSyncRequest request).isSome := by
  cases pending with
  | nil =>
    rcases h.handle_finish hq with ⟨role, beginIndex, hc, -⟩
    simp [hc]
  | cons first rest =>
    have heq := h.queue_eq
    rw [hq, cons_append, cons.injEq] at heq
    rcases h.handleSyncRequest_eq hs with ⟨term, commitIndex, hc⟩
    simp [heq.1, hc]

end

end SyncInv

def EndsAtSplit (planId : String) (entries : List (Entry Body)) : Prop :=
  ∃ before split, entries = before ++ [split] ∧ endLog planId split = true ∧
    ∀ entry ∈ before, endLog planId entry = false

theorem endsAtSplit_take (hle : splitIndex planId source ≤ source.length) :
    EndsAtSplit planId (source.take (splitIndex planId source)) := by
  have hlt : source.findIdx (endLog planId) < source.length := hle
  refine ⟨source.take (source.findIdx (endLog planId)), source[source.findIdx (endLog planId)],
    (take_concat_get' source _ hlt).symm, findIdx_getElem, ?_⟩
  intro entry hm
  rcases getElem_of_mem hm with ⟨k, hk, rfl⟩
  rw [length_take] at hk
  rw [getElem_take]
  exact not_of_lt_findIdx (by omega)

theorem SyncInv.endsAtSplit {initial : List (Entry Body)}
    {handled finishes : List (SyncRequest Body)} {s : State size Body}
    (h : SyncInv planId source initial handled [] finishes s)
    (he : s.service.endLogFlag = true) : EndsAtSplit planId s.core.log.entries := by
  have hle := h.fetched.le_length
  have hl := h.log_append
  rw [h.fetched.eq_split he] at hle hl
  rw [entriesOf, flatMap_nil, append_nil] at hl
  rw [hl]
  exact endsAtSplit_take hle

theorem syncInv_start (log : Log size (Tagged Body)) (hfst : log.firstIndex = 1)
    (hcopy : log.entries <+: source) (hopen : ∀ entry ∈ log.entries, endLog planId entry = false)
    (commitIndex : Nat) (endPoints : List String) :
    SyncInv planId source log.entries [] [] [] (start log commitIndex endPoints planId) := by
  have hlast : log.lastLogIndex = log.entries.length := by
    rw [lastLogIndex, hfst, Nat.sub_self, Nat.zero_add]
  have htag : endLogAt planId log log.lastLogIndex = false := by
    unfold endLogAt
    cases hent : log.getEntry log.lastLogIndex with
    | none => rfl
    | some entry =>
      unfold getEntry at hent
      split at hent
      · cases hent
      · exact hopen entry (mem_of_getElem? hent)
  have hser : (start log commitIndex endPoints planId).service =
      { readers := endPoints, planId := planId, lastIndex := log.entries.length } := by
    rw [hlast] at htag
    simp [start, setTargets, ofLog, htag, hlast]
  have hspl : log.entries.length ≤ source.findIdx (endLog planId) := by
    rw [← findIdx_eq_length.mpr hopen]
    exact hcopy.findIdx_le
  constructor
  · rw [hser]
    exact ⟨rfl, hcopy.length_le, fun _ => Nat.lt_succ_of_le hspl, nofun⟩
  · rfl
  · rfl
  · simp
  · trivial
  · rw [hser]
    simp [start, entriesOf, ← prefix_iff_eq_take.mp hcopy]
  · exact hfst
  · simp [start, entriesOf]
  · rintro (hrole | hne)
    · exact (hrole rfl).elim
    · exact (hne rfl).elim

end Invariant

section Main

variable {size : Nat} {Body : Type} {source : List (Entry Body)} {planId : String}
  {log : Log size (Tagged Body)}

theorem syncing_inv (hsrc : IsNumbered source) (hf : log.firstIndex = 1)
    (hc : log.entries <+: source) (ho : ∀ entry ∈ log.entries, endLog planId entry = false)
    (commitIndex : Nat) (endPoints : List String) {s : State size Body}
    (hs : (syncing source (.start log commitIndex endPoints planId)).Reachable s) :
    ∃ handled pending finishes,
      SyncInv planId source log.entries handled pending finishes s := by
  refine hs.invariant (fun s => ∃ handled pending finishes,
    SyncInv planId source log.entries handled pending finishes s) ?_ ?_
  · rintro s rfl
    exact ⟨_, _, _, syncInv_start log hf hc ho commitIndex endPoints⟩
  · rintro s after ⟨handled, pending, finishes, hi⟩ ⟨action, hfrom, hstep⟩
    exact hi.step hsrc hfrom hstep

/-- Four entries: the second is the split entry of another plan, the third that of `"move"`. -/
def oldLog : List (Entry Nat) :=
  [⟨1, 1, false, ⟨none, 10⟩⟩, ⟨1, 2, false, ⟨some ⟨spiltCommand, "other"⟩, 20⟩⟩,
    ⟨2, 3, false, ⟨some ⟨spiltCommand, "move"⟩, 30⟩⟩, ⟨2, 4, false, ⟨none, 40⟩⟩]

def newLog : Log 1 (Tagged Nat) := ⟨1, oldLog.take 1, 1, none, []⟩

def moveActions : List (Action Nat) :=
  [.fetch .failed, .fetch (.response 1 (oldLog.drop 1)), .handle, .terminate "move" 3, .handle]

end Main

end MySuperLedger.Sync
