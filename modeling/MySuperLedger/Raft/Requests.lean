import MySuperLedger.Raft.Answers
import MySuperLedger.Raft.Frame
import MySuperLedger.Raft.Replication

/-! # What a step does with client requests

A batch waits in the queue until the main loop takes it. A leader writes what is
next in line and remembers the handles until the entries are committed or it
steps down; any other node refuses the batch. All other handlers leave queue and
pending requests alone.
-/

namespace MySuperLedger.Raft

open Effects List

variable {size : Nat} {Payload Handle : Type}

/-- The handles of a batch, without those of requests that have none. -/
def handlesOf (requests : List (ClientRequest Payload Handle)) : List Handle :=
  (requests.map ClientRequest.handle).reduceOption

def Node.queuedHandles (node : Node size Payload Handle) : List Handle :=
  handlesOf node.clientRequestsQueue.flatten

/-- What decides on client requests. -/
def Node.clientSide (node : Node size Payload Handle) :
    RaftRole × Nat × List (Nat × Option Handle) × List (List (ClientRequest Payload Handle)) :=
  (node.role, node.log.currentTerm, node.pendingClientRequests, node.clientRequestsQueue)

/-- No client is answered, and nothing changes for the requests at hand. -/
def Silent (node : Node size Payload Handle) (es : List (Effect size Payload Handle))
    (node' : Node size Payload Handle) : Prop :=
  repliesIn es = [] ∧ node'.clientSide = node.clientSide

instance composes_silent : Program.Composes (@Silent size Payload Handle) where
  refl _ := ⟨rfl, rfl⟩
  trans h h' := ⟨by rw [repliesIn_append, h.1, h'.1, append_nil], h'.2.trans h.2⟩

/-- A leader that stays one keeps its pending requests, and one that steps down answers all of
them; what waits in the queue is left there. -/
inductive Retains (node : Node size Payload Handle) (es : List (Effect size Payload Handle))
    (node' : Node size Payload Handle) : Prop
  | kept (hqueue : node'.clientRequestsQueue = node.clientRequestsQueue)
      (hpending : node'.pendingClientRequests = node.pendingClientRequests)
      (hreplies : repliesIn es = [])
      (hrole : node'.role = .Leader ↔ node.role = .Leader)
      (hterm : node.role = .Leader → node'.log.currentTerm = node.log.currentTerm)
  | dropped (hqueue : node'.clientRequestsQueue = node.clientRequestsQueue)
      (hrole : node.role = .Leader) (hrole' : node'.role ≠ .Leader)
      (hpending : node'.pendingClientRequests = []) (leaderId : Option (Fin size))
      (hreplies : repliesIn es =
        node.pendingHandles.map (⟨·, 301, "LeaderStepDown", leaderId⟩))

instance composes_retains :
    Program.Composes (Retains : Node size Payload Handle → List (Effect size Payload Handle) →
      Node size Payload Handle → Prop) where
  refl node := .kept rfl rfl rfl Iff.rfl fun _ => rfl
  trans {node node' node'' es es'} h h' := by
    cases h with
    | kept hqueue hpending hreplies hrole hterm =>
      cases h' with
      | kept hqueue' hpending' hreplies' hrole' hterm' =>
        refine .kept (hqueue'.trans hqueue) (hpending'.trans hpending) ?_
          (hrole'.trans hrole) fun hleader => ?_
        · rw [repliesIn_append, hreplies, hreplies', append_nil]
        · rw [hterm' (hrole.mpr hleader), hterm hleader]
      | dropped hqueue' hleader hrole' hpending' leaderId hreplies' =>
        refine .dropped (hqueue'.trans hqueue) (hrole.mp hleader) hrole' hpending' leaderId ?_
        rw [repliesIn_append, hreplies, hreplies', nil_append]
        simp only [Node.pendingHandles, hpending]
    | dropped hqueue hleader hrole hpending leaderId hreplies =>
      cases h' with
      | kept hqueue' hpending' hreplies' hrole' _ =>
        refine .dropped (hqueue'.trans hqueue) hleader (fun hlead => hrole (hrole'.mp hlead))
          (hpending'.trans hpending) leaderId ?_
        rw [repliesIn_append, hreplies, hreplies', append_nil]
      | dropped _ hleader' _ _ _ _ => exact absurd hleader' hrole

theorem Silent.retains {node node' : Node size Payload Handle}
    {es : List (Effect size Payload Handle)} (h : Silent node es node') :
    Retains node es node' := by
  obtain ⟨hes, h⟩ := h
  simp only [Node.clientSide, Prod.mk.injEq] at h
  exact .kept h.2.2.2 h.2.2.1 hes (by rw [h.1]) fun _ => h.2.1

namespace Handler

open Program

abbrev RetainsRequests {α : Type} (m : Handler size Payload Handle α) : Prop :=
  Ensures Retains m

theorem retains_own {α : Type} {m : Handler size Payload Handle α} (h : KeepsOwn m) :
    RetainsRequests m :=
  .of_keeps h fun _ _ _ hes ho => Silent.retains ⟨repliesIn_eq_nil hes,
    congrArg (fun own => (own.2.1, own.1.currentTerm, own.2.2.2.1, own.2.2.2.2)) ho⟩

theorem silent_appendEntry {entry : LogEntry Payload} {node : Node size Payload Handle}
    {log : Log size Payload} (h : node.log.appendEntry entry = some log) :
    Silent node [.wrote log] { node with log := log } := by
  unfold Log.appendEntry at h
  split at h
  · cases h
    exact ⟨rfl, rfl⟩
  · cases h

theorem retains_truncateSuffix {node : Node size Payload Handle} (lastIndexKept : Nat) :
    Retains node [.wrote (node.log.truncateSuffix lastIndexKept)]
      { node with log := node.log.truncateSuffix lastIndexKept } := by
  refine Silent.retains ⟨rfl, ?_⟩
  unfold Node.clientSide Log.truncateSuffix
  dsimp only
  split
  · rfl
  · rfl

theorem retains_decideVote (request : RequestVoteRequest size) :
    RetainsRequests (decideVote request : Handler size Payload Handle Bool) := by
  have hv : RetainsRequests (setVoteFor (some request.candidateId) :
      Handler size Payload Handle Unit) :=
    ⟨fun hr => by
      cases hr
      exact Silent.retains ⟨rfl, rfl⟩⟩
  exact .bind .get fun _ => .bind (retains_own (keepsOwn_termOfLogEntryAt _)) fun _ =>
    .ite (.bind hv fun _ => .pure _) (.pure _)

theorem retains_stepDown (newTerm : Nat) :
    RetainsRequests (stepDown newTerm : Handler size Payload Handle Unit) where
  run hrun := by
    have hd := of_stepDown hrun
    rcases hd.pending with ⟨hl, hp, hr⟩ | ⟨hl, hp, hr⟩
    · exact .dropped hd.queue hl (by simp [hd.role]) hp _ hr
    · exact .kept hd.queue hp hr (by simp [hd.role, hl])
        fun h => absurd h hl

theorem basis_retains :
    Basis (Retains : Node size Payload Handle → List (Effect size Payload Handle) →
      Node size Payload Handle → Prop) where
  own := retains_own
  stepDown := retains_stepDown
  appendEntry h := (silent_appendEntry h).retains
  truncateSuffix _ _ := retains_truncateSuffix _
  followCommitIndex _ _ := Silent.retains ⟨rfl, rfl⟩
  decideVote := retains_decideVote

theorem retains_electionTimeout (self : Fin size) :
    RetainsRequests (electionTimeout self : Handler size Payload Handle Unit) where
  run {node es x node'} hr := by
    have hb := hr.of_get
    unfold Program.when at hb
    split at hb
    · rename_i hm
      cases hb
      exact .kept rfl rfl rfl (by simp [hm.1, Node.campaign]) fun h => absurd h hm.1
    · cases hb
      exact Composes.refl node

end Handler

/-- All that a step can do with client requests unless it takes a batch. -/
inductive Turn (node : Node size Payload Handle) (es : List (Effect size Payload Handle))
    (node' : Node size Payload Handle) : Prop
  | retains (h : Retains node es node')
  | elected (hrole : node.role ≠ .Leader)
      (hqueue : node'.clientRequestsQueue = node.clientRequestsQueue)
      (hpending : node'.pendingClientRequests = node.pendingClientRequests)
      (hreplies : repliesIn es = [])
  | commits (index : Nat) (hrole : node.role = .Leader)
      (hnode' : node' = { node with
        commitIndex := index
        pendingClientRequests := node.pendingClientRequests.dropWhile (·.1 ≤ index) })
      (hreplies : repliesIn es =
        ((node.pendingClientRequests.takeWhile (·.1 ≤ index)).map Prod.snd).reduceOption.map
          (⟨·, 200, "Success", node.leaderId⟩))

/-- All that a step can do when it looks for a batch. -/
inductive Takes (node : Node size Payload Handle) (es : List (Effect size Payload Handle))
    (node' : Node size Payload Handle) : Prop
  | nothing (hqueue : node.clientRequestsQueue = []) (hnode' : node' = node)
      (hreplies : repliesIn es = [])
  | refuses (batch : List (ClientRequest Payload Handle))
      (rest : List (List (ClientRequest Payload Handle)))
      (hqueue : node.clientRequestsQueue = batch :: rest) (hrole : node.role ≠ .Leader)
      (hnode' : node' = { node with clientRequestsQueue := rest })
      (hreplies : repliesIn es =
        (handlesOf batch).map (⟨·, 301, "NotLeaderAnyMore", node.leaderId⟩))
  | accepts (batch : List (ClientRequest Payload Handle))
      (rest : List (List (ClientRequest Payload Handle)))
      (accepted : List (ClientRequest Payload Handle))
      (haccepted : accepted =
        Handler.acceptable node.log.currentTerm node.log.lastLogIndex batch)
      (hqueue : node.clientRequestsQueue = batch :: rest) (hrole : node.role = .Leader)
      (hnode' : node' = { node.withEntries (accepted.map ClientRequest.entry) with
        clientRequestsQueue := rest
        pendingClientRequests := node.pendingClientRequests ++
          accepted.map fun request => (request.entry.index, request.handle) })
      (hreplies : repliesIn es = [])

namespace Handler

open Program

variable {node node' : Node size Payload Handle} {es : List (Effect size Payload Handle)} {x : Unit}
  {self : Fin size}

theorem turn_becomeLeader {noop : Payload} (hrun : (becomeLeader self noop).RunsTo node es x node')
    : Turn node es node' := by
  have hb := hrun.of_get
  simp only [Program.when] at hb
  split at hb
  · rename_i hm
    have happ := hb.of_modify
    obtain ⟨_, _, _, _, hwr, ha, rfl⟩ := happ.of_bind
    obtain ⟨_, rfl, rfl⟩ := ha.of_assert
    -- the first entry is written like any other
    obtain ⟨hr, hs⟩ := (ensures_appendAll silent_appendEntry _).run hwr
    simp only [Node.clientSide, Prod.mk.injEq] at hs
    exact .elected (by simp [hm.1]) hs.2.2.2 hs.2.2.1 (by simpa using hr)
  · cases hb
    exact .retains (Composes.refl node)

theorem turn_advanceCommitIndex (hrun : (advanceCommitIndex self).RunsTo node es x node') :
    Turn node es node' := by
  have hb := hrun.of_get
  simp only [Program.when] at hb
  split at hb
  · rename_i hm
    obtain ⟨_, term, node, _, ht, hc, rfl⟩ := hb.of_bind
    obtain ⟨rfl, rfl⟩ := of_termOfLogEntryAt ht
    split at hc
    · have ha := hc.of_modify
      obtain ⟨_, _, _, _, hle, hrep, rfl⟩ := ha.of_bind
      obtain ⟨_, rfl, rfl⟩ := hle.of_assert
      obtain ⟨_, _, _, _, hr, hf, rfl⟩ := hrep.of_bind
      obtain ⟨rfl, -, rfl⟩ := (runsTo_replyAll _ _ _ _ _).unique hr
      cases hf
      refine .commits (majorityIndex self node) hm.1 rfl ?_
      simp only [nil_append, append_nil, repliesIn_replied]
    · cases hc
      exact .retains (Composes.refl _)
  · cases hb
    exact .retains (Composes.refl node)

theorem of_appendAll {entries : List (LogEntry Payload)} {appended : Bool}
    (hrun : (appendAll entries).RunsTo node es appended node')
    (hw : node.log.IsWhole) (hn : Log.IsNumbered (node.log.entries ++ entries)) :
    node' = node.withEntries entries := by
  have hwp : Logic.total.Wp (appendAll entries)
      (fun _ after _ _ => after = node.withEntries entries) node es () :=
    wp_appendAll_total hw hn fun _ => rfl
  obtain ⟨_, after, hr, ha⟩ := hwp.exists_result
  rw [show appendAll entries node = _ from hrun] at hr
  cases hr
  exact ha

theorem takes_receiveClientRequests (hwh : node.log.IsWhole)
    (hrun : receiveClientRequests.RunsTo node es x node') : Takes node es node' := by
  have hb := hrun.of_get
  cases hq : node.clientRequestsQueue with
  | nil =>
    rw [hq] at hb
    cases hb
    exact .nothing hq rfl rfl
  | cons batch rest =>
    rw [hq] at hb
    have hhd := hb.of_modify
    have hr := hhd.of_get
    split at hr
    · rename_i hl
      have ha := hr.of_modify
      obtain ⟨_, _, _, _, hwr, hd, rfl⟩ := ha.of_bind
      cases hd
      have hn := numbered_acceptable node.log.currentTerm batch hwh.numbered
      rw [← hwh.lastLogIndex_eq] at hn
      refine .accepts batch rest _ rfl hq hl (of_appendAll hwr hwh hn) ?_
      simpa using ((ensures_appendAll silent_appendEntry _).run hwr).1
    · rename_i hl
      obtain ⟨rfl, -, rfl⟩ := (runsTo_replyAll _ _ _ _ _).unique hr
      refine .refuses batch rest hq hl rfl ?_
      simp only [repliesIn_replied, handlesOf]

theorem turn_of_runsTo {config : Config Payload} {op : Op size Payload}
    (hop : op ≠ .receiveClientRequests) (hr : (op.run config self).RunsTo node es x node') :
    Turn node es node' := by
  cases op with
  | appendEntries due room =>
    exact .retains ((basis_retains.own (keepsOwn_appendEntries self config due room)).run hr)
  | requestVote due => exact .retains ((basis_retains.own (keepsOwn_requestVote self due)).run hr)
  | receive message => exact .retains ((basis_retains.receive self config message).run hr)
  | callFailed id isAppendEntries =>
    exact .retains ((basis_retains.own (keepsOwn_callFailed id isAppendEntries)).run hr)
  | receiveClientRequests => exact absurd rfl hop
  | advanceCommitIndex => exact turn_advanceCommitIndex hr
  | becomeLeader noop => exact turn_becomeLeader hr
  | electionTimeout => exact .retains ((retains_electionTimeout self).run hr)
  | leadershipTimeout => exact .retains (basis_retains.leadershipTimeout.run hr)

end Handler

end MySuperLedger.Raft
