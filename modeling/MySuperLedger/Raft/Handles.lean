import Mathlib.Data.List.TakeWhile
import MySuperLedger.Raft.Requests
import MySuperLedger.Raft.Safety

/-! # The handles of client requests

Beside the cluster stands what each process was asked since it was started, and
what it has answered. A handle is accounted for while it is queued, pending or
answered, each time it was handed over. Every step keeps the account but one: a
leader forgets the requests of a batch that are not next in line.
-/

namespace MySuperLedger.Raft

open Consensus Effects Transition List Option Function Handler Node

variable {size : Nat} {Payload Handle : Type}

/-- What a process was asked since it was started, and its answers. -/
structure Books (size : Nat) (Payload Handle : Type) where
  requests : List (ClientRequest Payload Handle) := []
  answers : List (Reply size Handle) := []

namespace Books

/-- Every handle is in one place for each time it was handed over. -/
def Balanced (books : Books size Payload Handle) (node : Node size Payload Handle) : Prop :=
  (handlesOf books.requests).Perm
    (node.queuedHandles ++ node.pendingHandles ++ books.answers.map Reply.handle)

def ask (books : Books size Payload Handle) (requests : List (ClientRequest Payload Handle)) :
    Books size Payload Handle :=
  { books with requests := books.requests ++ requests }

def answer (books : Books size Payload Handle) (effects : List (Effect size Payload Handle)) :
    Books size Payload Handle :=
  { books with answers := books.answers ++ repliesIn effects }

end Books

/-- What a step takes from the queue or the pending requests goes to the pending requests or to
the answers. -/
def Settled (node : Node size Payload Handle) (es : List (Effect size Payload Handle))
    (node' : Node size Payload Handle) : Prop :=
  (node.queuedHandles ++ node.pendingHandles).Perm
    (node'.queuedHandles ++ node'.pendingHandles ++ (repliesIn es).map Reply.handle)

section

variable {books : Books size Payload Handle} {node node' : Node size Payload Handle}
  {es : List (Effect size Payload Handle)}

theorem Books.Balanced.answer_iff (h : books.Balanced node) :
    (books.answer es).Balanced node' ↔ Settled node es node' := by
  classical
  unfold Balanced at h ⊢
  unfold Settled
  simp only [answer, map_append, perm_iff_count, count_append] at h ⊢
  constructor
  · intro h' handle
    have ho := h handle
    have hn := h' handle
    omega
  · intro h' handle
    have ho := h handle
    have hm := h' handle
    omega

theorem handlesOf_append (requests requests' : List (ClientRequest Payload Handle)) :
    handlesOf (requests ++ requests') = handlesOf requests ++ handlesOf requests' := by
  simp [handlesOf, reduceOption_append]

theorem Books.Balanced.ask (h : books.Balanced node)
    (requests : List (ClientRequest Payload Handle)) :
    (books.ask requests).Balanced
      { node with clientRequestsQueue := node.clientRequestsQueue ++ [requests] } := by
  classical
  unfold Balanced at h ⊢
  simp only [Books.ask, queuedHandles, pendingHandles, flatten_append,
    flatten_cons, flatten_nil, append_nil, handlesOf_append, perm_iff_count,
    count_append] at h ⊢
  intro handle
  have ho := h handle
  omega

theorem map_handle_replies (handles : List Handle) (code : Nat) (message : String)
    (leaderId : Option (Fin size)) :
    (handles.map fun handle => (⟨handle, code, message, leaderId⟩ : Reply size Handle)).map
      Reply.handle = handles := by
  simp [comp_def]

theorem settled_iff_of_queue (hq : node'.clientRequestsQueue = node.clientRequestsQueue) :
    Settled node es node' ↔
      node.pendingHandles.Perm (node'.pendingHandles ++ (repliesIn es).map Reply.handle) := by
  unfold Settled queuedHandles
  rw [hq, append_assoc, perm_append_left_iff]

theorem Retains.settled (h : Retains node es node') : Settled node es node' := by
  cases h with
  | kept hq hp hr _ _ =>
    rw [settled_iff_of_queue hq, hr]
    simp [pendingHandles, hp]
  | dropped hq _ _ hp leaderId hr =>
    rw [settled_iff_of_queue hq, hr, map_handle_replies]
    simp [pendingHandles, hp]

theorem Turn.settled (h : Turn node es node') : Settled node es node' := by
  cases h with
  | retains h => exact h.settled
  | elected _ hq hp hr =>
    rw [settled_iff_of_queue hq, hr]
    simp [pendingHandles, hp]
  | commits index _ hn' hr =>
    have hq : node'.clientRequestsQueue = node.clientRequestsQueue := by rw [hn']
    rw [settled_iff_of_queue hq, hr, map_handle_replies, hn']
    unfold pendingHandles
    -- the pending requests up to the new commit index are answered, the others stay
    conv_lhs => rw [← takeWhile_append_dropWhile (p := fun request => request.1 ≤ index)
      (l := node.pendingClientRequests)]
    rw [map_append, reduceOption_append]
    exact perm_append_comm

/-- Every request of the batch that has a handle is next in line. -/
def AllInLine (currentTerm : Nat) : Nat → List (ClientRequest Payload Handle) → Prop
  | _, [] => True
  | lastLogIndex, request :: requests =>
    if request.entry.term = currentTerm ∧ request.entry.index = lastLogIndex + 1 then
      AllInLine currentTerm (lastLogIndex + 1) requests
    else request.handle = none ∧ AllInLine currentTerm lastLogIndex requests

def decidableAllInLine (currentTerm : Nat) : ∀ (lastLogIndex : Nat)
    (requests : List (ClientRequest Payload Handle)),
    Decidable (AllInLine currentTerm lastLogIndex requests)
  | _, [] => isTrue trivial
  | lastLogIndex, request :: requests =>
    have := decidableAllInLine currentTerm (lastLogIndex + 1) requests
    have := decidableAllInLine currentTerm lastLogIndex requests
    inferInstanceAs (Decidable (if request.entry.term = currentTerm ∧
        request.entry.index = lastLogIndex + 1 then
      AllInLine currentTerm (lastLogIndex + 1) requests
    else request.handle = none ∧ AllInLine currentTerm lastLogIndex requests))

instance (currentTerm lastLogIndex : Nat) (requests : List (ClientRequest Payload Handle)) :
    Decidable (AllInLine currentTerm lastLogIndex requests) :=
  decidableAllInLine currentTerm lastLogIndex requests

theorem length_handlesOf_acceptable_le (currentTerm lastLogIndex : Nat)
    (requests : List (ClientRequest Payload Handle)) :
    (handlesOf (acceptable currentTerm lastLogIndex requests)).length ≤
      (handlesOf requests).length :=
  (((acceptable_sublist currentTerm lastLogIndex requests).map _).filterMap id).length_le

variable {currentTerm lastLogIndex : Nat} {requests : List (ClientRequest Payload Handle)}

theorem allInLine_iff_length :
    AllInLine currentTerm lastLogIndex requests ↔ (handlesOf requests).length =
      (handlesOf (acceptable currentTerm lastLogIndex requests)).length := by
  induction requests generalizing lastLogIndex with
  | nil => simp [AllInLine, acceptable]
  | cons request requests ih =>
    unfold AllInLine acceptable
    have hle := length_handlesOf_acceptable_le currentTerm lastLogIndex requests
    split
    · rw [ih]
      cases hhd : request.handle with
      | none => simp [handlesOf, hhd, reduceOption_cons_of_none]
      | some handle => simp [handlesOf, hhd, reduceOption_cons_of_some]
    · rw [ih]
      cases hhd : request.handle with
      | none => simp [handlesOf, hhd, reduceOption_cons_of_none]
      | some handle =>
        simp [handlesOf, hhd, reduceOption_cons_of_some] at hle ⊢
        omega

theorem allInLine_iff : AllInLine currentTerm lastLogIndex requests ↔ (handlesOf requests).Perm
      (handlesOf (acceptable currentTerm lastLogIndex requests)) := by
  rw [allInLine_iff_length]
  constructor
  · intro hl
    have hs := ((acceptable_sublist currentTerm lastLogIndex requests).map
      ClientRequest.handle).filterMap id
    rw [show handlesOf (acceptable currentTerm lastLogIndex requests) =
      handlesOf requests from hs.eq_of_length hl.symm]
  · exact List.Perm.length_eq

/-- The one step that may lose a handle. -/
theorem Takes.settled_iff (h : Takes node es node') :
    Settled node es node' ↔ (node.role = .Leader → AllInLine node.log.currentTerm
      node.log.lastLogIndex (node.clientRequestsQueue.headD [])) := by
  cases h with
  | nothing hque hnode' hreps =>
    subst hnode'
    rw [settled_iff_of_queue rfl, hreps, hque]
    simp [AllInLine]
  | refuses batch rest hque hrole hnode' hreps =>
    subst hnode'
    unfold Settled queuedHandles pendingHandles
    simp only [hreps, map_handle_replies, hque, flatten_cons, handlesOf_append]
    simp only [hrole, false_implies, iff_true]
    classical
    simp only [perm_iff_count, count_append]
    intro handle
    omega
  | accepts batch rest accepted hacc hque hrole hnode' hreps =>
    have hpend : node'.pendingHandles = node.pendingHandles ++ handlesOf accepted := by
      rw [hnode']
      simp [pendingHandles, handlesOf, reduceOption_append, comp_def]
    have hqueued : node.queuedHandles = handlesOf batch ++ node'.queuedHandles := by
      rw [hnode']
      simp [queuedHandles, hque, handlesOf_append]
    unfold Settled
    rw [hreps, hpend, hqueued, hque, headD_cons, allInLine_iff, ← hacc]
    simp only [hrole, true_implies]
    classical
    simp only [perm_iff_count, count_append, map_nil, count_nil]
    constructor
    · intro hsett handle
      have hcnt := hsett handle
      omega
    · intro hall handle
      have hcnt := hall handle
      omega

def Node.HasCommitted (node : Node size Payload Handle) (entry : LogEntry Payload) : Prop :=
  entry.index ≤ node.commitIndex ∧ node.log.getEntry entry.index = some entry

/-- Success was reported for a request whose own entry is committed. -/
def Books.Truthful (books : Books size Payload Handle) (node : Node size Payload Handle) : Prop :=
  ∀ reply ∈ books.answers, reply.code = 200 → ∃ request ∈ books.requests,
    request.handle = some reply.handle ∧ node.HasCommitted request.entry

structure Books.Sound (books : Books size Payload Handle) (node : Node size Payload Handle) :
    Prop where
  queued : ∀ batch ∈ node.clientRequestsQueue, ∀ request ∈ batch, request ∈ books.requests
  idle : node.role ≠ .Leader → node.pendingClientRequests = []
  /-- A pending request has its entry in the log. -/
  pending : ∀ index handle, (index, some handle) ∈ node.pendingClientRequests →
    ∃ request ∈ books.requests, request.handle = some handle ∧ request.entry.index = index ∧
      node.log.getEntry index = some request.entry
  truthful : books.Truthful node

/-- What the protocol grants a step: what is committed stays so, and while a term lasts the log
of its leader only grows. -/
structure Carries (node node' : Node size Payload Handle) : Prop where
  whole : node.log.IsWhole
  whole' : node'.log.IsWhole
  committed : ∀ entry, node.HasCommitted entry → node'.HasCommitted entry
  leading : node.role = .Leader → node'.role = .Leader →
    node'.log.currentTerm = node.log.currentTerm → node.log.entries <+: node'.log.entries

theorem Books.Sound.start (log : Log size Payload) (incarnation : Nat) :
    ({} : Books size Payload Handle).Sound (Node.start log incarnation) where
  queued := by simp [Node.start]
  idle _ := rfl
  pending := by simp [Node.start]
  truthful := by simp [Truthful]

section

variable (h : books.Sound node)
include h

theorem Books.Sound.ask (requests : List (ClientRequest Payload Handle)) :
    (books.ask requests).Sound
      { node with clientRequestsQueue := node.clientRequestsQueue ++ [requests] } where
  queued batch hb request hm := by
    rcases mem_append.mp hb with ho | hn
    · exact mem_append_left _ (h.queued batch ho request hm)
    · rw [mem_singleton.mp hn] at hm
      exact mem_append_right _ hm
  idle := h.idle
  pending index handle hm := by
    obtain ⟨request, hr, hf⟩ := h.pending index handle hm
    exact ⟨request, mem_append_left _ hr, hf⟩
  truthful reply hrep hc := by
    obtain ⟨request, hr, hf⟩ := h.truthful reply hrep hc
    exact ⟨request, mem_append_left _ hr, hf⟩

section

variable (hcar : Carries node node')
include hcar

theorem Books.Sound.truthful_answer
    (hn : ∀ reply ∈ repliesIn es, reply.code = 200 → ∃ request ∈ books.requests,
      request.handle = some reply.handle ∧ node'.HasCommitted request.entry) :
    (books.answer es).Truthful node' := by
  intro reply hr hcode
  rcases mem_append.mp hr with ho | hr
  · obtain ⟨request, hreq, hh, hc⟩ := h.truthful reply ho hcode
    exact ⟨request, hreq, hh, hcar.committed _ hc⟩
  · exact hn reply hr hcode

/-- The pending requests of a node that stays leader keep their entries. -/
theorem Books.Sound.pending_carried (hl : node.role = .Leader → node'.role = .Leader ∧
      node'.log.currentTerm = node.log.currentTerm) {index : Nat} {handle : Handle}
    (hm : (index, some handle) ∈ node.pendingClientRequests) :
    ∃ request ∈ books.requests, request.handle = some handle ∧ request.entry.index = index ∧
      node'.log.getEntry index = some request.entry := by
  have hr : node.role = .Leader := by
    by_contra hr
    rw [h.idle hr] at hm
    cases hm
  obtain ⟨request, hreq, hhd, hi, he⟩ := h.pending index handle hm
  have hg := hcar.leading hr (hl hr).1 (hl hr).2
  exact ⟨request, hreq, hhd, hi, hcar.whole.getEntry_of_isPrefix hcar.whole' hg he⟩

theorem Books.Sound.turn (hturn : Turn node es node') : (books.answer es).Sound node' := by
  cases hturn with
  | retains hret =>
    cases hret with
    | kept hque hpend hreps hrole hterm =>
      refine ⟨?_, ?_, ?_, h.truthful_answer hcar (by simp [hreps])⟩
      · rw [hque]
        exact h.queued
      · rw [hpend, ne_eq, hrole]
        exact h.idle
      · rw [hpend]
        intro index handle hmem
        exact h.pending_carried hcar (fun hlead => ⟨hrole.mpr hlead, hterm hlead⟩) hmem
    | dropped hque _ _ hpend leaderId hreps =>
      refine ⟨?_, fun _ => hpend, by simp [hpend],
        h.truthful_answer hcar (by simp [hreps])⟩
      rw [hque]
      exact h.queued
  | elected hrole hque hpend hreps =>
    rw [h.idle hrole] at hpend
    refine ⟨?_, fun _ => hpend, by simp [hpend],
      h.truthful_answer hcar (by simp [hreps])⟩
    rw [hque]
    exact h.queued
  | commits index hrole hnode' hreps =>
    subst hnode'
    refine ⟨h.queued, fun hnot => absurd hrole hnot, ?_, h.truthful_answer hcar ?_⟩
    · intro index' handle hmem
      exact h.pending_carried hcar (fun _ => ⟨hrole, rfl⟩) ((dropWhile_sublist _).subset hmem)
    · rw [hreps]
      intro reply hrep _
      obtain ⟨handle, hhd, rfl⟩ := mem_map.mp hrep
      obtain ⟨⟨index', _⟩, hmem, rfl⟩ := mem_map.mp (reduceOption_mem_iff.mp hhd)
      have hle : index' ≤ index := by simpa using mem_takeWhile_imp hmem
      obtain ⟨request, hreq, hhd, rfl, hent⟩ :=
        h.pending index' handle ((takeWhile_sublist _).subset hmem)
      exact ⟨request, hreq, hhd, hle, hent⟩

theorem Books.Sound.takes (ht : Takes node es node') : (books.answer es).Sound node' := by
  cases ht with
  | nothing hq hn' hr =>
    subst hn'
    exact ⟨h.queued, h.idle, h.pending, h.truthful_answer hcar (by simp [hr])⟩
  | refuses batch rest hq hrole hn' hr =>
    subst hn'
    refine ⟨?_, h.idle, h.pending, h.truthful_answer hcar (by simp [hr])⟩
    intro batch' hb'
    exact h.queued batch' (by rw [hq]; exact mem_cons_of_mem _ hb')
  | accepts batch rest accepted ha hq hrole hn' hr =>
    subst hn'
    refine ⟨?_, fun hn => absurd hrole hn, ?_, h.truthful_answer hcar (by simp [hr])⟩
    · intro batch' hb'
      exact h.queued batch' (by rw [hq]; exact mem_cons_of_mem _ hb')
    · intro index handle hm
      rcases mem_append.mp hm with ho | hnew
      · exact h.pending_carried hcar (fun _ => ⟨hrole, rfl⟩) ho
      · obtain ⟨request, hreq, heq⟩ := mem_map.mp hnew
        simp only [Prod.mk.injEq] at heq
        obtain ⟨rfl, hhd⟩ := heq
        have hb : request ∈ batch :=
          (acceptable_sublist _ _ batch).subset (ha ▸ hreq)
        refine ⟨request, h.queued batch (by simp [hq]) request hb, hhd, rfl, ?_⟩
        exact hcar.whole'.getEntry_of_mem (mem_append_right _ (mem_map_of_mem hreq))

end

end

end

def Op.takesBatch : Op size Payload → Bool
  | .receiveClientRequests => true
  | .appendEntries _ _ => false
  | .requestVote _ => false
  | .receive _ => false
  | .callFailed _ _ => false
  | .advanceCommitIndex => false
  | .becomeLeader _ => false
  | .electionTimeout => false
  | .leadershipTimeout => false

/-- A cluster with the books of the processes that run in it. -/
structure Tracked (size : Nat) (Payload Handle : Type) where
  cluster : Cluster size Payload Handle
  books : Fin size → Books size Payload Handle

namespace Tracked

def initial : Tracked size Payload Handle where
  cluster := Cluster.initial
  books _ := {}

variable [DecidableEq Payload] (config : Config Payload)

/-- A process that starts again begins new books. -/
def record (s : Tracked size Payload Handle) :
    Label size Payload Handle → Fin size → Books size Payload Handle
  | .run id op => update s.books id
      ((s.books id).answer (op.run config id (s.cluster.nodes id)).effects)
  | .crash id _ _ => update s.books id {}
  | .enqueueClientRequests id requests => update s.books id
      ((s.books id).ask requests)

def step (s : Tracked size Payload Handle) (label : Label size Payload Handle) :
    Option (Tracked size Payload Handle) :=
  (s.cluster.step config label).map fun cluster => ⟨cluster, s.record config label⟩

def system : System (Tracked size Payload Handle) := .ofStep initial (step config)

/-- A leader that takes a batch finds every request with a handle next in line. -/
def InLine (s : Tracked size Payload Handle) : Label size Payload Handle → Prop
  | .run id op => op.takesBatch = true → (s.cluster.nodes id).role = .Leader →
      AllInLine (s.cluster.nodes id).log.currentTerm (s.cluster.nodes id).log.lastLogIndex
        ((s.cluster.nodes id).clientRequestsQueue.headD [])
  | .crash _ _ _ => True
  | .enqueueClientRequests _ _ => True

instance (s : Tracked size Payload Handle) (label : Label size Payload Handle) :
    Decidable (s.InLine label) :=
  match label with
  | .run id op => inferInstanceAs (Decidable (op.takesBatch = true →
      (s.cluster.nodes id).role = .Leader →
      AllInLine (s.cluster.nodes id).log.currentTerm (s.cluster.nodes id).log.lastLogIndex
        ((s.cluster.nodes id).clientRequestsQueue.headD [])))
  | .crash _ _ _ => isTrue trivial
  | .enqueueClientRequests _ _ => isTrue trivial

/-- The runs in which all steps do so. -/
def orderly : System (Tracked size Payload Handle) := .ofGuardedStep initial InLine (step config)

variable {config} {s s' : Tracked size Payload Handle} {label : Label size Payload Handle}

/-- What a step does to the one process it concerns. -/
inductive Change (config : Config Payload) (s : Tracked size Payload Handle)
    (label : Label size Payload Handle) (id : Fin size) (books' : Books size Payload Handle)
    (node' : Node size Payload Handle) : Prop
  | run (op : Op size Payload) (es : List (Effect size Payload Handle))
      (hlabel : label = .run id op)
      (hrun : (op.run config id).RunsTo (s.cluster.nodes id) es () node')
      (hcarries : Carries (s.cluster.nodes id) node') (hbooks' : books' = (s.books id).answer es)
  | crash (op : Op size Payload) (count : Nat) (hlabel : label = .crash id op count)
      (log : Log size Payload) (incarnation : Nat) (hnode' : node' = start log incarnation)
      (hbooks' : books' = {})
  | ask (requests : List (ClientRequest Payload Handle))
      (hlabel : label = .enqueueClientRequests id requests)
      (hnode' : node' = { s.cluster.nodes id with
        clientRequestsQueue := (s.cluster.nodes id).clientRequestsQueue ++ [requests] })
      (hbooks' : books' = (s.books id).ask requests)

variable {id : Fin size} {node' : Node size Payload Handle} {books' : Books size Payload Handle}

theorem carries_run {cluster : Cluster size Payload Handle}
    (hreac : (Cluster.system config).Reachable cluster) {op : Op size Payload}
    (hmay : cluster.MayRun id op)
    (hres : (op.run config id (cluster.nodes id)).result = .ok ((), node')) :
    Carries (cluster.nodes id) node' := by
  obtain ⟨a, _, hrel⟩ := (cluster_simulation config).reachable hreac
  obtain ⟨a', hmov, hkept, hrel'⟩ := hrel.run config hmay hres
  have hgrow : Grows a a' := (NodeRun.frame hmov hrel.inv).toGrows
  generalize haft : (cluster.absorbAll id _).setNode id node' = after at hrel'
  have hnode : after.nodes id = node' := by
    rw [← haft, Cluster.nodes_absorbAll_setNode, update_self]
  refine ⟨(hrel.log id).whole, hnode ▸ (hrel'.log id).whole, ?_, ?_⟩
  · intro entry hcomm
    have hle : entry.index ≤ node'.commitIndex := hcomm.1.trans hkept.commit_le
    have hpos := (hrel.log id).whole.one_le_of_getEntry hcomm.2
    obtain ⟨entry', hold, hnew⟩ := hrel.sameEntry_of_committed hrel' hgrow hpos hcomm.1
      (hnode ▸ hle)
    rw [hcomm.2] at hold
    cases hold
    exact ⟨hle, hnode ▸ hnew⟩
  · intro hrole hrole' hterm
    obtain ⟨_, _, _, hlog⟩ := hrel.elected_of_isLeader ⟨hrole, rfl⟩
    have hlead' : after.IsLeader id node'.log.currentTerm := ⟨hnode ▸ hrole', by rw [hnode]⟩
    obtain ⟨_, _, _, hlog'⟩ := hrel'.elected_of_isLeader hlead'
    rw [hnode, hterm] at hlog'
    rw [← hlog, ← hlog']
    exact hgrow.leaderLog _

theorem change_of_step (hreac : (Cluster.system config).Reachable s.cluster)
    (hs : s.step config label = some s') :
    ∃ id books' node', s'.books = update s.books id books' ∧
      s'.cluster.nodes = update s.cluster.nodes id node' ∧
      Change config s label id books' node' := by
  obtain ⟨cluster', hc, rfl⟩ := map_eq_some_iff.mp hs
  rcases Cluster.step_inv config hc with ⟨id, op, node', rfl, hm, hr, rfl⟩ |
    ⟨id, op, count, rfl, _, rfl⟩ | ⟨id, requests, rfl, rfl⟩
  · exact ⟨id, _, node', rfl, Cluster.nodes_absorbAll_setNode .., .run op _ rfl
      (.of_result hr) (carries_run hreac hm hr) rfl⟩
  · exact ⟨id, _, _, rfl, Cluster.nodes_absorbAll_restart .., .crash op count rfl _ _ rfl rfl⟩
  · exact ⟨id, _, _, rfl, rfl, .ask requests rfl rfl rfl⟩

omit [DecidableEq Payload] in
theorem forall_update_iff {P : Books size Payload Handle → Node size Payload Handle → Prop}
    (hbk : s'.books = update s.books id books')
    (hn : s'.cluster.nodes = update s.cluster.nodes id node')
    (h : ∀ other, P (s.books other) (s.cluster.nodes other)) :
    (∀ other, P (s'.books other) (s'.cluster.nodes other)) ↔ P books' node' := by
  rw [hbk, hn]
  constructor
  · intro ha
    simpa using ha id
  · intro hm other
    by_cases ho : other = id
    · rw [ho, update_self, update_self]
      exact hm
    · rw [update_of_ne ho, update_of_ne ho]
      exact h other

omit [DecidableEq Payload] in
theorem sound_of_change (h : (s.books id).Sound (s.cluster.nodes id))
    (hc : Change config s label id books' node') : books'.Sound node' := by
  cases hc with
  | run op es _ hr hcar hbk' =>
    rw [hbk']
    by_cases hop : op = .receiveClientRequests
    · subst hop
      exact h.takes hcar (takes_receiveClientRequests hcar.whole hr)
    · exact h.turn hcar (turn_of_runsTo hop hr)
  | crash _ _ _ log incarnation hn' hbk' =>
    rw [hn', hbk']
    exact .start log incarnation
  | ask requests _ hn' hbk' =>
    rw [hn', hbk']
    exact h.ask requests

omit [DecidableEq Payload] in
theorem balanced_iff_of_change (h : (s.books id).Balanced (s.cluster.nodes id))
    (hc : Change config s label id books' node') : books'.Balanced node' ↔ s.InLine label := by
  cases hc with
  | run op es hl hr hcar hbk' =>
    rw [hbk', h.answer_iff, hl, InLine]
    cases ht : op.takesBatch with
    | true =>
      have hop : op = .receiveClientRequests := by cases op <;> simp_all [Op.takesBatch]
      subst hop
      simp [(takes_receiveClientRequests hcar.whole hr).settled_iff]
    | false =>
      have hop : op ≠ .receiveClientRequests := by
        intro hop
        rw [hop] at ht
        cases ht
      simp [(turn_of_runsTo hop hr).settled]
  | crash _ _ hl log incarnation hn' hbk' =>
    rw [hn', hbk', hl]
    simp [Books.Balanced, start, queuedHandles, pendingHandles, handlesOf, InLine]
  | ask requests hl hn' hbk' =>
    rw [hn', hbk', hl]
    simp [h.ask requests, InLine]

theorem sound_of_reachable (hr : (system config).Reachable s) :
    (Cluster.system config).Reachable s.cluster ∧
      ∀ id, (s.books id).Sound (s.cluster.nodes id) := by
  refine System.Reachable.invariant (fun s => (Cluster.system config).Reachable s.cluster ∧
    ∀ id, (s.books id).Sound (s.cluster.nodes id)) ?_ ?_ hr
  · intro s hi
    cases hi
    exact ⟨.init rfl, fun _ => .start _ _⟩
  · intro s s' h hs
    obtain ⟨label, hs⟩ := hs
    obtain ⟨cluster', hc, heq⟩ := map_eq_some_iff.mp hs
    obtain ⟨id, books', node', hbk, hn, hchg⟩ := change_of_step h.1 hs
    refine ⟨h.1.step ⟨label, ?_⟩, ?_⟩
    · rw [← heq]
      exact hc
    · exact (forall_update_iff hbk hn h.2).mpr (sound_of_change (h.2 id) hchg)

theorem balanced_step_iff (hr : (Cluster.system config).Reachable s.cluster)
    (h : ∀ id, (s.books id).Balanced (s.cluster.nodes id)) (hs : s.step config label = some s') :
    (∀ id, (s'.books id).Balanced (s'.cluster.nodes id)) ↔ s.InLine label := by
  obtain ⟨id, books', node', hb, hn, hc⟩ := change_of_step hr hs
  rw [forall_update_iff hb hn h]
  exact balanced_iff_of_change (h id) hc

theorem balanced_of_orderly (ho : (orderly config).Reachable s) :
    (system config).Reachable s ∧ ∀ id, (s.books id).Balanced (s.cluster.nodes id) := by
  refine System.Reachable.invariant (fun s => (system config).Reachable s ∧
    ∀ id, (s.books id).Balanced (s.cluster.nodes id)) ?_ ?_ ho
  · intro s hinit
    cases hinit
    exact ⟨.init rfl, fun _ => List.Perm.refl _⟩
  · intro s s' h hs
    obtain ⟨label, hi, hs⟩ := hs
    exact ⟨h.1.step ⟨label, hs⟩, (balanced_step_iff (sound_of_reachable h.1).1 h.2 hs).mpr hi⟩

/-- No success is reported without a commit, and only a leader has pending requests. As long as
leaders find the requests with a handle in line, every handle is queued, pending or answered,
and the first step at which one does not loses a handle. -/
theorem client_handles_conserved_iff (hreachable : (system config).Reachable s) :
    (∀ id, (s.books id).Truthful (s.cluster.nodes id) ∧ ((s.cluster.nodes id).role ≠ .Leader →
        (s.cluster.nodes id).pendingClientRequests = [])) ∧
    ((orderly config).Reachable s → (∀ id, (s.books id).Balanced (s.cluster.nodes id)) ∧
      ∀ label s', s.step config label = some s' →
        ((∀ id, (s'.books id).Balanced (s'.cluster.nodes id)) ↔ s.InLine label)) := by
  obtain ⟨hc, hs⟩ := sound_of_reachable hreachable
  refine ⟨fun id => ⟨(hs id).truthful, (hs id).idle⟩, fun ho => ?_⟩
  have hb := (balanced_of_orderly ho).2
  exact ⟨hb, fun label s' hstep => balanced_step_iff hc hb hstep⟩

end Tracked

/-- The node is elected, takes a request and commits its entry. -/
def soloCommits : List (Label 1 Unit Nat) :=
  [ .run 0 .electionTimeout, .run 0 (.becomeLeader ()),
    .enqueueClientRequests 0 [⟨⟨1, 2, false, ()⟩, some 7⟩],
    .run 0 .receiveClientRequests,
    .run 0 .advanceCommitIndex ]

/-- Node 0 leads term 1, hears no more of node 1, steps down and is elected again. Then comes a
batch that was made for term 1. -/
def lateBatch : List (Label 2 Unit Nat) :=
  [ .run 0 .electionTimeout, .run 0 (.requestVote fun _ => true),
    .run 1 (.receive ⟨0, 1, 0, .requestVoteRequest ⟨1, 0, 0, 0⟩⟩),
    .run 0 (.receive ⟨1, 0, 0, .requestVoteResponse ⟨1, true, 1, 1⟩⟩),
    .run 0 (.becomeLeader ()),
    .run 0 (.appendEntries (fun _ => true) fun _ => 10),
    .run 0 (.callFailed 1 true),
    .run 0 .leadershipTimeout,
    .run 0 .electionTimeout,
    .run 0 (.requestVote fun _ => true),
    .run 1 (.receive ⟨0, 1, 0, .requestVoteRequest ⟨3, 0, 1, 1⟩⟩),
    .run 0 (.receive ⟨1, 0, 0, .requestVoteResponse ⟨3, true, 1, 3⟩⟩),
    .run 0 (.becomeLeader ()),
    .enqueueClientRequests 0 [⟨⟨1, 2, false, ()⟩, some 7⟩],
    .run 0 .receiveClientRequests ]

theorem exec_soloCommits :
    (System.exec (System.guardStep Tracked.InLine (Tracked.step sampleConfig)) .initial
      soloCommits).map (fun s => (s.books 0).answers) = some [⟨7, 200, "Success", none⟩] := by
  decide +kernel

theorem exec_lateBatch :
    (System.exec (Tracked.step sampleConfig) .initial lateBatch).map (fun s =>
      (handlesOf (s.books 0).requests, (s.cluster.nodes 0).queuedHandles,
        (s.cluster.nodes 0).pendingHandles, (s.books 0).answers)) = some ([7], [], [], []) := by
  decide +kernel

theorem client_handles_conserved_solo :
    ∃ s : Tracked 1 Unit Nat, (s.books 0).answers = [⟨7, 200, "Success", none⟩] ∧
      (∃ request ∈ (s.books 0).requests, request.handle = some 7 ∧
        (s.cluster.nodes 0).HasCommitted request.entry) ∧
      ∀ id, (s.books id).Balanced (s.cluster.nodes id) := by
  obtain ⟨s, he, ha⟩ := map_eq_some_iff.mp exec_soloCommits
  have ho : (Tracked.orderly sampleConfig).Reachable s :=
    ⟨.initial, rfl, System.guarded_runs_of_exec he⟩
  have hall := Tracked.client_handles_conserved_iff ho.of_guarded
  refine ⟨s, ha, ?_, (hall.2 ho).1⟩
  exact (hall.1 0).1 ⟨7, 200, "Success", none⟩ (by simp [ha]) rfl

/-- The leader of the later term drops the request and its handle. -/
theorem stale_handle_lost : ∃ s : Tracked 2 Unit Nat, (Tracked.system sampleConfig).Reachable s ∧
      handlesOf (s.books 0).requests = [7] ∧ (s.cluster.nodes 0).queuedHandles = [] ∧
      (s.cluster.nodes 0).pendingHandles = [] ∧ (s.books 0).answers = [] ∧
      ¬ (s.books 0).Balanced (s.cluster.nodes 0) := by
  obtain ⟨s, he, hf⟩ := map_eq_some_iff.mp exec_lateBatch
  simp only [Prod.mk.injEq] at hf
  obtain ⟨hr, hq, hp, ha⟩ := hf
  refine ⟨s, ⟨.initial, rfl, System.runs_of_exec he⟩, hr, hq, hp, ha, ?_⟩
  intro hb
  have hl := hb.length_eq
  simp [hr, hq, hp, ha] at hl

end MySuperLedger.Raft
