import MySuperLedger.Raft.Answers

/-! # How a follower catches up

A leader and one follower exchange calls without loss: the request for that
follower, its answer, what the leader makes of it. Where the follower ends just
before the leader's first entry, the leader offers its placeholder for a term, the
follower refuses it, and the leader has nothing further back to offer.
-/

namespace MySuperLedger.Raft

open Effects List Option

variable {size : Nat} {Payload Handle : Type}

structure Pair (size : Nat) (Payload Handle : Type) where
  leader : Node size Payload Handle
  follower : Node size Payload Handle

/-- What a step of a node sends, and the node behind it. -/
def Handler.outcome (m : Handler size Payload Handle Unit) (node : Node size Payload Handle) :
    Except Check (List (Message size Payload) × Node size Payload Handle) :=
  (m node).result.map fun done => (sentIn (m node).effects, done.2)

namespace Pair

open Handler Program

variable (config : Config Payload) (room : Nat → Nat) (me id : Fin size)

/-- One call of the leader `me` to the follower `id`, with no message lost. What is left of a
segment depends on where the batch starts. -/
def round (pair : Pair size Payload Handle) : Except Check (Pair size Payload Handle) := do
  let (calls, leader) ← outcome
    (sendAppendEntries me config (room (pair.leader.peers id).nextIndex) id) pair.leader
  let (answers, follower) ← outcome (forEach calls (receive id config)) pair.follower
  let (_, leader) ← outcome (forEach answers (receive me config)) leader
  pure ⟨leader, follower⟩

def answers (pair : Pair size Payload Handle) : Except Check (List (Message size Payload)) := do
  let (calls, _) ← outcome
    (sendAppendEntries me config (room (pair.leader.peers id).nextIndex) id) pair.leader
  let (answers, _) ← outcome (forEach calls (receive id config)) pair.follower
  pure answers

/-- The follower gives one answer, and it says whether the entries were taken over. -/
def Answered (success : Bool) (pair : Pair size Payload Handle) : Prop :=
  ∃ response : AppendEntriesResponse size, answers config room me id pair =
      .ok [⟨id, me, pair.leader.incarnation, .appendEntriesResponse response⟩] ∧
    response.success = success

def rounds : Nat → Pair size Payload Handle → Except Check (Pair size Payload Handle)
  | 0, pair => pure pair
  | n + 1, pair => do
      let pair ← round config room me id pair
      rounds n pair

end Pair

namespace Handler

open Program

variable {node node' : Node size Payload Handle} {es : List (Effect size Payload Handle)}

theorem outcome_of_runsTo {m : Handler size Payload Handle Unit} (h : RunsTo m node es () node') :
    outcome m node = .ok (sentIn es, node') := by
  rw [outcome, show m node = _ from h]
  rfl

theorem RunsTo.forEach_singleton {α : Type} {f : α → Handler size Payload Handle Unit} {x : α}
    (h : RunsTo (f x) node es () node') : RunsTo (forEach [x] f) node es () node' :=
  h.bind_right (RunsTo.pure () node')

variable {response : AppendEntriesResponse size}

theorem outcome_request (config : Config Payload) (source : Fin size) (incarnation : Nat)
    {self : Fin size} {request : AppendEntriesRequest size Payload}
    (h : (handleAppendEntriesRequest self request node).result = .ok (some response, node')) :
    outcome (forEach [⟨source, self, incarnation, .appendEntriesRequest request⟩]
        (receive self config)) node =
      .ok ([⟨self, source, incarnation, .appendEntriesResponse response⟩], node') := by
  have hqt := (quiet_handleAppendEntriesRequest self request).effects node
  have hr : RunsTo (handleAppendEntriesRequest self request) node
      (handleAppendEntriesRequest self request node).effects (some response) node' := by
    rw [RunsTo, ← h]
  have hrcv : RunsTo (receive self config
      ⟨source, self, incarnation, .appendEntriesRequest request⟩) node
      ((handleAppendEntriesRequest self request node).effects ++
        [.sent ⟨self, source, incarnation, .appendEntriesResponse response⟩]) () node' :=
    hr.bind rfl
  rw [outcome_of_runsTo (RunsTo.forEach_singleton hrcv), sentIn_append,
    sentIn_eq_nil fun _ hm => hqt _ hm]
  rfl

theorem outcome_response {config : Config Payload} {source : Fin size} (self : Fin size)
    (incarnation : Nat) (h : RunsTo (handleAppendEntriesResponse config response)
      (node.withPeer source { node.peers source with switch := true }) [] () node') :
    outcome (forEach [⟨source, self, incarnation, .appendEntriesResponse response⟩]
        (receive self config)) node = .ok ([], node') := by
  have hr : RunsTo (receive self config
      ⟨source, self, incarnation, .appendEntriesResponse response⟩) node [] () node' :=
    RunsTo.bind (m := switchOn source) rfl h
  rw [outcome_of_runsTo (RunsTo.forEach_singleton hr)]
  rfl

end Handler

namespace Pair

open Handler Program

variable {config : Config Payload} {room : Nat → Nat} {me id : Fin size}
  {pair : Pair size Payload Handle}

/-- The leader just before it looks at the answer. -/
def called (pair : Pair size Payload Handle) (id : Fin size) : Node size Payload Handle :=
  pair.leader.withPeer id { pair.leader.peers id with switch := true }

theorem called_peers (pair : Pair size Payload Handle) (id : Fin size) :
    (pair.called id).peers id = { pair.leader.peers id with switch := true } :=
  Node.withPeer_peers ..

variable {prevLogTerm : Nat} {entries : List (LogEntry Payload)}
  {response : AppendEntriesResponse size} {follower : Node size Payload Handle}

section

variable
  (hterm : pair.leader.log.getTerm ((pair.leader.peers id).nextIndex - 1) = some prevLogTerm)
  (hents : (if (pair.leader.peers id).suppressBulkData then some [] else
    pair.leader.log.getEntries config.byteSize (pair.leader.peers id).nextIndex
      config.maxLenInBytes config.maxBatchSize (room (pair.leader.peers id).nextIndex)) =
        some entries)
  (hreq : (handleAppendEntriesRequest id (pair.leader.appendEntriesRequest me
    ((pair.leader.peers id).nextIndex - 1) prevLogTerm entries) pair.follower).result =
      .ok (some response, follower))

include hterm hents hreq

theorem round_eq {leader : Node size Payload Handle}
    (hr : RunsTo (handleAppendEntriesResponse config response) (pair.called id) [] () leader) :
    round config room me id pair = .ok ⟨leader, follower⟩ := by
  have hc := outcome_of_runsTo (runsTo_sendAppendEntries me hterm hents)
  have ha := outcome_request config me pair.leader.incarnation hreq
  have hb : outcome (forEach
      [⟨id, me, pair.leader.incarnation, .appendEntriesResponse response⟩] (receive me config))
      (pair.leader.withPeer id { pair.leader.peers id with switch := false }) =
        .ok ([], leader) := by
    refine outcome_response me _ ?_
    simpa [called, Node.withPeer] using hr
  simp only [round, hc, sentIn, bind, Except.bind, ha, hb]
  rfl

theorem answered_of_result : Answered config room me id response.success pair := by
  have hc := outcome_of_runsTo (runsTo_sendAppendEntries me hterm hents)
  have ha := outcome_request config me pair.leader.incarnation hreq
  refine ⟨response, ?_, rfl⟩
  simp only [answers, hc, sentIn, bind, Except.bind, ha]
  rfl

end

theorem Answered.unique {success success' : Bool} (h : Answered config room me id success pair)
    (h' : Answered config room me id success' pair) : success = success' := by
  rcases h with ⟨response, ha, rfl⟩
  rcases h' with ⟨response', ha', rfl⟩
  rw [ha] at ha'
  simp only [Except.ok.injEq, cons.injEq, and_true, Message.mk.injEq, true_and,
    Body.appendEntriesResponse.injEq] at ha'
  rw [ha']

end Pair

/-- Where the exchange stands: what the follower holds, what the leader knows of it, and the
entry before the next request. -/
structure Exchange (me id : Fin size) (first term : Nat) (history : List (LogEntry Payload))
    (held matched prev : Nat) (pair : Pair size Payload Handle) : Prop where
  role : pair.leader.role = .Leader
  currentTerm_eq : pair.leader.log.currentTerm = term
  holds : pair.leader.log.HoldsFrom first history
  first_le : first ≤ history.length
  follows : Follows me term history held pair.follower
  matchIndex_eq : (pair.leader.peers id).matchIndex = matched
  nextIndex_eq : (pair.leader.peers id).nextIndex = prev + 1

namespace Exchange

open Handler Program

variable {config : Config Payload} {room : Nat → Nat} {me id : Fin size} {first term : Nat}
  {history : List (LogEntry Payload)} {held matched prev : Nat} {pair : Pair size Payload Handle}

def entries (config : Config Payload) (room : Nat → Nat) (id : Fin size)
    (history : List (LogEntry Payload)) (prev : Nat) (pair : Pair size Payload Handle) :
    List (LogEntry Payload) :=
  if (pair.leader.peers id).suppressBulkData then []
  else config.batch history (room (prev + 1)) (prev + 1)

variable (config room)

theorem entries_isPrefix (id : Fin size) (history : List (LogEntry Payload)) (prev : Nat)
    (pair : Pair size Payload Handle) :
    entries config room id history prev pair <+: history.drop prev := by
  unfold entries
  split
  · exact nil_prefix
  · exact config.batch_isPrefix history (room (prev + 1)) (prev + 1)

end Exchange

/-- The same for a follower whose log is not the beginning of the history but matches it:
the follower holds `held`. -/
structure Meeting (me id : Fin size) (first term : Nat) (history held : List (LogEntry Payload))
    (matched prev : Nat) (pair : Pair size Payload Handle) : Prop where
  role : pair.leader.role = .Leader
  currentTerm_eq : pair.leader.log.currentTerm = term
  holds : pair.leader.log.HoldsFrom first history
  agrees : Agrees me term history pair.follower
  held_eq : pair.follower.log.entries = held
  matchIndex_eq : (pair.leader.peers id).matchIndex = matched
  nextIndex_eq : (pair.leader.peers id).nextIndex = prev + 1

namespace Meeting

open Handler Program

variable {config : Config Payload} {room : Nat → Nat} {me id : Fin size} {first term : Nat}
  {history held : List (LogEntry Payload)} {matched prev : Nat} {pair : Pair size Payload Handle}
  (config room)

theorem getEntries_eq (h : Meeting me id first term history held matched prev pair)
    (hf : first ≤ prev + 1) (hl : prev ≤ history.length) :
    (if (pair.leader.peers id).suppressBulkData then some [] else
      pair.leader.log.getEntries config.byteSize (pair.leader.peers id).nextIndex
        config.maxLenInBytes config.maxBatchSize (room (pair.leader.peers id).nextIndex)) =
      some (Exchange.entries config room id history prev pair) := by
  rw [h.nextIndex_eq, h.holds.getEntries_eq config hf (by omega), Exchange.entries]
  split
  · rfl
  · rfl

theorem exists_prevLogTerm (h : Meeting me id first term history held matched prev pair)
    (hh : prev ≤ held.length) (hs : held.take prev = history.take prev)
    (hf : first = 1 ∧ prev = 0 ∨ first ≤ prev) :
    ∃ prevLogTerm, pair.leader.log.getTerm prev = some prevLogTerm ∧
      (prev = 0 ∨ prev ≤ held.length ∧ held[prev - 1]?.map LogEntry.term = some prevLogTerm) := by
  rcases hf with ⟨ho, hz⟩ | hf
  · have hg := h.holds.getTerm_first
    rw [ho] at hg
    rw [hz]
    exact ⟨0, hg, .inl rfl⟩
  · have hp := h.holds.first_pos
    have hin : prev - 1 < held.length := by omega
    have hsame : held[prev - 1]? = history[prev - 1]? := by
      rw [← getElem?_take_of_lt (show prev - 1 < prev by omega), hs,
        getElem?_take_of_lt (by omega)]
    have hg := h.holds.getTerm_eq hf
    rw [← hsame, getElem?_eq_getElem hin, map_some] at hg
    rw [getElem?_eq_getElem hin, map_some]
    exact ⟨_, hg, .inr ⟨hh, rfl⟩⟩

theorem accepted (hnum : Log.IsNumbered history)
    (h : Meeting me id first term history held matched prev pair) (hmat : matched ≤ prev)
    (hheld : prev ≤ held.length) (hshar : held.take prev = history.take prev)
    (hfst : first = 1 ∧ prev = 0 ∨ first ≤ prev) :
    ∃ held' pair', Pair.round config room me id pair = .ok pair' ∧
      Pair.Answered config room me id true pair ∧
      TakenOver history (prev + (Exchange.entries config room id history prev pair).length) held
        held' ∧
      Meeting me id first term history held'
        (prev + (Exchange.entries config room id history prev pair).length)
        (prev + (Exchange.entries config room id history prev pair).length) pair' ∧
      (pair'.leader.peers id).suppressBulkData = false := by
  have hle : prev ≤ history.length := by
    have hlen := congrArg length hshar
    rw [length_take_of_le hheld, length_take] at hlen
    omega
  have hents := h.getEntries_eq config room (by omega) hle
  have hbat := Exchange.entries_isPrefix config room id history prev pair
  generalize Exchange.entries config room id history prev pair = batch at hents hbat ⊢
  rcases h.exists_prevLogTerm hheld hshar hfst with ⟨prevLogTerm, hget, hacc⟩
  rcases h with ⟨hrole, rfl, hhold, hagr, rfl, rfl, hnext⟩
  have hprev : (pair.leader.peers id).nextIndex - 1 = prev := by
    rw [hnext, Nat.add_sub_cancel]
  have hreq : ∃ follower, (handleAppendEntriesRequest id
      (pair.leader.appendEntriesRequest me ((pair.leader.peers id).nextIndex - 1) prevLogTerm batch)
      pair.follower).result = .ok (some { acceptance id pair.follower.log.entries.length
          (pair.leader.appendEntriesRequest me prev prevLogTerm batch) with
        lastLogIndex := follower.log.entries.length }, follower) ∧
      Agrees me pair.leader.log.currentTerm history follower ∧
      TakenOver history (prev + batch.length) pair.follower.log.entries follower.log.entries := by
    rw [hprev]
    exact result_of_accepts hnum hagr hacc hshar hbat (Nat.min_le_right _ _)
  rcases hreq with ⟨follower, hreq, hagr', hmer⟩
  have hprev' : prev = ((pair.called id).peers id).nextIndex - 1 := by
    rw [pair.called_peers, hprev]
  have hmat' : ((pair.called id).peers id).matchIndex ≤ prev + batch.length := by
    rw [pair.called_peers]
    exact hmat.trans (Nat.le_add_right _ _)
  have hresp : RunsTo (handleAppendEntriesResponse config
      { acceptance id pair.follower.log.entries.length
          (pair.leader.appendEntriesRequest me prev prevLogTerm batch) with
        lastLogIndex := follower.log.entries.length }) (pair.called id) [] () _ :=
    runsTo_success config hrole ⟨rfl, le_rfl, hprev'⟩ rfl hmat'
  rw [← hprev] at hget
  refine ⟨_, _, Pair.round_eq hget hents hreq hresp, Pair.answered_of_result hget hents hreq, hmer,
    ⟨hrole, rfl, hhold, hagr', rfl, ?_, ?_⟩, ?_⟩
  · show (((pair.called id).withPeer id _).peers id).matchIndex = _
    rw [Node.withPeer_peers]
    rfl
  · show (((pair.called id).withPeer id _).peers id).nextIndex = _
    rw [Node.withPeer_peers]
    rfl
  · show (((pair.called id).withPeer id _).peers id).suppressBulkData = false
    rw [Node.withPeer_peers]

theorem refused {prevLogTerm : Nat}
    (h : Meeting me id first term history held matched prev pair) (hmat : matched ≤ held.length)
    (hgap : matched < prev) (hfst : first ≤ prev + 1) (hlast : prev ≤ history.length)
    (hget : pair.leader.log.getTerm prev = some prevLogTerm)
    (href : ¬ (prev ≤ held.length ∧ held[prev - 1]?.map LogEntry.term = some prevLogTerm)) :
    ∃ pair', Pair.round config room me id pair = .ok pair' ∧
      Pair.Answered config room me id false pair ∧
      Meeting me id first term history held matched
        (lowerNextIndex config (pair.leader.peers id) held.length - 1) pair' := by
  have hents := h.getEntries_eq config room hfst hlast
  generalize Exchange.entries config room id history prev pair = batch at hents
  rcases h with ⟨hrole, rfl, hhold, hagr, rfl, rfl, hnext⟩
  have hprev : (pair.leader.peers id).nextIndex - 1 = prev := by
    rw [hnext, Nat.add_sub_cancel]
  -- the follower refuses, and the leader lowers `nextIndex`; what matches stays
  have hnot : ¬ Accepts pair.follower.log.entries pair.follower.log.entries.length
      (pair.leader.appendEntriesRequest me prev prevLogTerm batch) := by
    rintro (hzero | hacc)
    · have hzero : prev = 0 := hzero
      omega
    · exact href hacc
  have hreq : ∃ follower, (handleAppendEntriesRequest id
      (pair.leader.appendEntriesRequest me ((pair.leader.peers id).nextIndex - 1) prevLogTerm batch)
      pair.follower).result = .ok (some (refusal id pair.follower.log.entries.length
        (pair.leader.appendEntriesRequest me prev prevLogTerm batch)), follower) ∧
      Agrees me pair.leader.log.currentTerm history follower ∧
      follower.log.entries = pair.follower.log.entries := by
    rw [hprev]
    exact result_of_not_accepts hagr hnot
  rcases hreq with ⟨follower, hreq, hagr', hsame⟩
  have hprev' : prev = ((pair.called id).peers id).nextIndex - 1 := by
    rw [pair.called_peers, hprev]
  have hmat' : ((pair.called id).peers id).matchIndex ≤ pair.follower.log.entries.length := by
    rw [pair.called_peers]
    exact hmat
  have hgap' : ((pair.called id).peers id).matchIndex + 1 <
      ((pair.called id).peers id).nextIndex := by
    rw [pair.called_peers]
    exact hnext ▸ Nat.succ_lt_succ hgap
  have hresp : RunsTo (handleAppendEntriesResponse config
      (refusal id pair.follower.log.entries.length
        (pair.leader.appendEntriesRequest me prev prevLogTerm batch))) (pair.called id) [] () _ :=
    runsTo_refused config hrole ⟨rfl, le_rfl, hprev'⟩ rfl hmat' hgap'
  have hpos : 1 ≤ lowerNextIndex config (pair.leader.peers id)
      pair.follower.log.entries.length := by
    unfold lowerNextIndex
    split
    · omega
    · omega
  rw [← hprev] at hget
  refine ⟨_, Pair.round_eq hget hents hreq hresp,
    Pair.answered_of_result hget hents hreq, ⟨hrole, rfl, hhold, hagr', hsame, ?_, ?_⟩⟩
  · show (((pair.called id).withPeer id _).peers id).matchIndex = _
    rw [Node.withPeer_peers]
    show ((pair.called id).peers id).matchIndex = _
    rw [pair.called_peers]
  · show (((pair.called id).withPeer id _).peers id).nextIndex = _
    rw [Node.withPeer_peers, Nat.sub_add_cancel hpos]
    show lowerNextIndex config ((pair.called id).peers id) pair.follower.log.entries.length = _
    rw [pair.called_peers]
    rfl

end Meeting

namespace Exchange

open Handler Program

variable {config : Config Payload} {room : Nat → Nat} {me id : Fin size} {first term : Nat}
  {history : List (LogEntry Payload)} {held matched prev : Nat} {pair : Pair size Payload Handle}

theorem meeting (h : Exchange me id first term history held matched prev pair) :
    Meeting me id first term history (history.take held) matched prev pair :=
  ⟨h.role, h.currentTerm_eq, h.holds, h.follows.agrees, h.follows.entries_eq,
    h.matchIndex_eq, h.nextIndex_eq⟩

theorem of_meeting (h : Meeting me id first term history (history.take held) matched prev pair)
    (hf : first ≤ history.length) (hh : held ≤ history.length) :
    Exchange me id first term history held matched prev pair :=
  ⟨h.role, h.currentTerm_eq, h.holds, hf, .of_agrees h.agrees h.held_eq hh, h.matchIndex_eq,
    h.nextIndex_eq⟩

theorem length_held (h : Exchange me id first term history held matched prev pair) :
    (history.take held).length = held :=
  length_take_of_le h.follows.held_le

variable (config room)

theorem accepted (hn : Log.IsNumbered history)
    (h : Exchange me id first term history held matched prev pair) (hmat : matched ≤ prev)
    (hh : prev ≤ held) (hf : first = 1 ∧ prev = 0 ∨ first ≤ prev) :
    ∃ pair', Pair.round config room me id pair = .ok pair' ∧ Exchange me id first term history
        (max held (prev + (entries config room id history prev pair).length))
        (prev + (entries config room id history prev pair).length)
        (prev + (entries config room id history prev pair).length) pair' ∧
      (pair'.leader.peers id).suppressBulkData = false := by
  have hle := h.follows.held_le
  have hs : (history.take held).take prev = history.take prev := by
    rw [take_take, Nat.min_eq_left hh]
  rcases h.meeting.accepted config room hn hmat (hh.trans h.length_held.ge) hs
    hf with
    ⟨held', pair', hok, -, hmer, hm, hsend⟩
  have hb := (entries_isPrefix config room id history prev pair).length_le
  rw [length_drop] at hb
  have hl : prev + (entries config room id history prev pair).length ≤ history.length := by
    omega
  have heq := hmer.eq_take hle hl
  subst heq
  exact ⟨pair', hok, of_meeting hm h.first_le (max_le hle hl), hsend⟩

theorem refused {prevLogTerm : Nat}
    (h : Exchange me id first term history held matched prev pair) (hmat : matched ≤ held)
    (hg : matched < prev) (hf : first ≤ prev + 1) (hl : prev ≤ history.length)
    (hget : pair.leader.log.getTerm prev = some prevLogTerm)
    (hr : ¬ (prev ≤ held ∧ history[prev - 1]?.map LogEntry.term = some prevLogTerm)) :
    ∃ pair', Pair.round config room me id pair = .ok pair' ∧
      Exchange me id first term history held matched
        (lowerNextIndex config (pair.leader.peers id) held - 1) pair' := by
  have hn : ¬ (prev ≤ (history.take held).length ∧
      (history.take held)[prev - 1]?.map LogEntry.term = some prevLogTerm) := by
    rw [h.length_held]
    rintro ⟨hle, hterm⟩
    rw [getElem?_take_of_lt (by omega)] at hterm
    exact hr ⟨hle, hterm⟩
  rcases h.meeting.refused config room (hmat.trans h.length_held.ge) hg hf hl hget
    hn with ⟨pair', hok, -, hm⟩
  rw [h.length_held] at hm
  exact ⟨pair', hok, of_meeting hm h.first_le h.follows.held_le⟩

theorem gap (h : Exchange me id first term history held matched prev pair)
    (hm : matched ≤ held) (hh : held < prev) (hf : first ≤ prev) (hl : prev ≤ history.length) :
    ∃ pair', Pair.round config room me id pair = .ok pair' ∧
      Exchange me id first term history held matched held pair' := by
  have hin : prev - 1 < history.length := by omega
  have hg := h.holds.getTerm_eq hf
  rw [getElem?_eq_getElem hin, map_some] at hg
  rcases h.refused config room hm (by omega) (by omega) hl hg (by omega) with
    ⟨pair', hok, h'⟩
  rw [lowerNextIndex, if_pos (by rw [h.nextIndex_eq]; omega), Nat.add_sub_cancel] at h'
  exact ⟨pair', hok, h'⟩

/-- The leader's placeholder is not the term of the entry the follower holds there. -/
theorem placeholder (hp : ∀ entry ∈ history, 0 < entry.term)
    (h : Exchange me id first term history held 0 prev pair) (hf : first = prev + 1)
    (hprev : 1 ≤ prev) (hh : prev ≤ held) :
    ∃ prev' pair', prev' ≤ prev ∧ Pair.round config room me id pair = .ok pair' ∧
      Exchange me id first term history held 0 prev' pair' := by
  have hl := h.follows.held_le
  have hg := h.holds.getTerm_first
  rw [hf, Nat.add_sub_cancel] at hg
  have hin : prev - 1 < history.length := by omega
  have hterm := hp history[prev - 1] (getElem_mem hin)
  have hr : ¬ (prev ≤ held ∧ history[prev - 1]?.map LogEntry.term = some 0) := by
    rw [getElem?_eq_getElem hin, map_some, Option.some.injEq]
    omega
  rcases h.refused config room (by omega) (by omega) (by omega) (by omega) hg hr with
    ⟨pair', hok, h'⟩
  refine ⟨_, pair', ?_, hok, h'⟩
  rw [lowerNextIndex, h.nextIndex_eq]
  split
  · omega
  · omega

/-- Before the entry that stands for the dropped ones the leader knows no term at all. -/
theorem round_dropped (h : Exchange me id first term history held matched prev pair)
    (hlt : prev + 1 < first) : Pair.round config room me id pair = .error .termOfLogEntryAt := by
  have hg : pair.leader.log.getTerm ((pair.leader.peers id).nextIndex - 1) = none := by
    rw [h.nextIndex_eq, Nat.add_sub_cancel]
    exact h.holds.getTerm_dropped hlt
  have hs : sendAppendEntries me config (room (pair.leader.peers id).nextIndex) id pair.leader =
      ⟨[], .error .termOfLogEntryAt⟩ := by
    have hterm : termOfLogEntryAt ((pair.leader.peers id).nextIndex - 1) pair.leader =
        (⟨[], .error .termOfLogEntryAt⟩ : Outcome (Effect size Payload Handle) _ _ _) := by
      rw [termOfLogEntryAt, RunsTo.bind_eq (RunsTo.get _), hg]
      rfl
    rw [sendAppendEntries, RunsTo.bind_eq (RunsTo.get _)]
    show Program.bind _ _ _ = _
    rw [Program.bind, hterm]
  have hc : outcome (sendAppendEntries me config (room (pair.leader.peers id).nextIndex) id)
      pair.leader = .error .termOfLogEntryAt := by
    rw [outcome, hs]
    rfl
  rw [Pair.round, hc]
  rfl

end Exchange

namespace Pair

variable {config : Config Payload} {room : Nat → Nat} {me id : Fin size}
  {pair pair' : Pair size Payload Handle}

theorem rounds_succ (n : Nat) (h : round config room me id pair = .ok pair') :
    rounds config room me id (n + 1) pair = rounds config room me id n pair' := by
  rw [rounds, h]
  rfl

theorem rounds_add {n : Nat} (m : Nat) (h : rounds config room me id n pair = .ok pair') :
    rounds config room me id (n + m) pair = rounds config room me id m pair' := by
  induction n generalizing pair with
  | zero =>
    cases h
    rw [Nat.zero_add]
  | succ n ih =>
    cases hf : round config room me id pair with
    | error check =>
      rw [rounds, hf] at h
      cases h
    | ok next =>
      rw [rounds_succ n hf] at h
      rw [Nat.succ_add, rounds_succ _ hf, ih h]

variable {inv : Pair size Payload Handle → Prop}

theorem exists_rounds
    (hr : ∀ pair, inv pair → ∃ pair', round config room me id pair = .ok pair' ∧ inv pair')
    (n : Nat) (h : inv pair) :
    ∃ pair', rounds config room me id n pair = .ok pair' ∧ inv pair' := by
  induction n generalizing pair with
  | zero => exact ⟨pair, rfl, h⟩
  | succ n ih =>
    rcases hr pair h with ⟨pair', hok, h'⟩
    rw [rounds_succ n hok]
    exact ih h'

theorem rounds_inv
    (hr : ∀ pair pair', inv pair → round config room me id pair = .ok pair' → inv pair')
    (n : Nat) (h : inv pair) (hok : rounds config room me id n pair = .ok pair') : inv pair' := by
  induction n generalizing pair with
  | zero =>
    cases hok
    exact h
  | succ n ih =>
    cases hf : round config room me id pair with
    | error check =>
      rw [rounds, hf] at hok
      cases hok
    | ok next =>
      rw [rounds_succ n hf] at hok
      exact ih (hr pair next h hf) hok

end Pair

/-- The leader knows that the follower holds its whole log, and the follower does. -/
structure CaughtUp (id : Fin size) (history : List (LogEntry Payload))
    (pair : Pair size Payload Handle) : Prop where
  matchIndex_eq : (pair.leader.peers id).matchIndex = history.length
  firstIndex_eq : pair.follower.log.firstIndex = 1
  entries_eq : pair.follower.log.entries = history

/-- A leader of `history` that dropped what is before `first` has just begun to look after a
follower with the first `held` entries. -/
structure Behind (me id : Fin size) (first : Nat) (history : List (LogEntry Payload)) (held : Nat)
    (pair : Pair size Payload Handle) : Prop where
  numbered : Log.IsNumbered history
  term_pos : ∀ entry ∈ history, 0 < entry.term
  first_le_commitIndex : first ≤ pair.leader.commitIndex
  commitIndex_le : pair.leader.commitIndex ≤ history.length
  first_le : first ≤ held + 1
  exchange : Exchange me id first pair.leader.log.currentTerm history held 0 history.length pair

section

variable {config : Config Payload} {room : Nat → Nat} {me id : Fin size} {first term : Nat}
  {history : List (LogEntry Payload)} {held matched prev start : Nat}
  {pair : Pair size Payload Handle}

theorem Exchange.caughtUp (h : Exchange me id first term history held history.length prev pair)
    (hh : history.length ≤ held) : CaughtUp id history pair where
  matchIndex_eq := h.matchIndex_eq
  firstIndex_eq := h.follows.whole.firstIndex_eq
  entries_eq := by rw [h.follows.entries_eq, take_of_length_le hh]

/-- A follower that started with `start` entries holds no more than `limit` of them; the next
request asks for the last entry of the leader, or for one the follower has. -/
def Steady (me id : Fin size) (first term : Nat) (history : List (LogEntry Payload))
    (start limit : Nat) (pair : Pair size Payload Handle) : Prop :=
  ∃ held matched prev, Exchange me id first term history held matched prev pair ∧
    start ≤ held ∧ held ≤ limit ∧ matched ≤ held ∧
    (prev = history.length ∧ matched = 0 ∨ matched ≤ prev ∧ prev ≤ held ∧ start ≤ prev)

variable {limit n : Nat} {pair' : Pair size Payload Handle}

theorem Steady.round (hn : Log.IsNumbered history) (hf : first = 1 ∨ first ≤ start)
    (hl : ∀ prev ≤ limit, prev + (config.batch history (room (prev + 1)) (prev + 1)).length ≤ limit)
    (h : Steady me id first term history start limit pair) :
    ∃ pair', Pair.round config room me id pair = .ok pair' ∧
      Steady me id first term history start limit pair' := by
  rcases h with ⟨held, matched, prev, h, hst, hh, hm, hp⟩
  have hpos := h.holds.first_pos
  have hlen := h.first_le
  have hle := h.follows.held_le
  by_cases hlt : held < prev
  · -- only the first request asks for more than the follower has
    rcases h.gap config room hm hlt (by omega) (by omega) with ⟨pair', hok, h'⟩
    exact ⟨pair', hok, held, matched, held, h', by omega⟩
  · rcases h.accepted config room hn (by omega) (by omega) (by omega) with ⟨pair', hok, h', _⟩
    refine ⟨pair', hok, _, _, _, h', ?_⟩
    have hb : prev + (Exchange.entries config room id history prev pair).length ≤ limit := by
      have := hl prev (by omega)
      unfold Exchange.entries
      split
      · simp
        omega
      · exact this
    omega

theorem Behind.steady (h : Behind me id first history held pair) (hle : held ≤ limit) :
    Steady me id first pair.leader.log.currentTerm history held limit pair :=
  ⟨held, 0, history.length, h.exchange, le_rfl, hle, Nat.zero_le _, .inl ⟨rfl, rfl⟩⟩

/-- Once a request was accepted, each further one brings the follower at least one entry. -/
theorem Exchange.eventually_caughtUp (hn : Log.IsNumbered history)
    (hfst : first = 1 ∨ first ≤ start) (hf : ∀ entry ∈ history.drop start, config.Fits entry)
    (hr : ∀ index, first ≤ index → index ≤ history.length → 1 ≤ room index)
    (h : Exchange me id first term history held prev prev pair)
    (hs : (pair.leader.peers id).suppressBulkData = false) (hp : prev ≤ held) (hst : start ≤ prev) :
    ∃ n pair', Pair.rounds config room me id n pair = .ok pair' ∧ CaughtUp id history pair' := by
  have hle := h.follows.held_le
  have hpos := h.holds.first_pos
  induction hm : history.length - prev using Nat.strong_induction_on
    generalizing held prev pair with
  | _ missing ih =>
    by_cases he : prev = history.length
    · subst he
      exact ⟨0, pair, rfl, h.caughtUp hp⟩
    · rcases h.accepted config room hn le_rfl hp (by omega) with ⟨pair', hok, h', hs'⟩
      have hsome : 0 < (config.batch history (room (prev + 1)) (prev + 1)).length := by
        have hlt : prev < history.length := by omega
        refine Config.length_batch_pos hlt (hr _ (by omega) (by omega)) (hf _ ?_)
        exact mem_drop_iff_getElem.mpr ⟨prev - start, by omega, by congr 1; omega⟩
      rw [Exchange.entries, hs, if_neg Bool.false_ne_true] at h'
      rcases ih _ (by omega) h' hs' (by omega) (by omega) h'.follows.held_le rfl with
        ⟨n, pair'', hrnd, hd⟩
      exact ⟨n + 1, pair'', by rw [Pair.rounds_succ n hok, hrnd], hd⟩

/-- The first request that is accepted is the first or the second one. -/
theorem Behind.eventually_caughtUp (h : Behind me id first history held pair)
    (hfst : first = 1 ∨ first ≤ held) (hf : ∀ entry ∈ history.drop held, config.Fits entry)
    (hroom : ∀ index, first ≤ index → index ≤ history.length → 1 ≤ room index) :
    ∃ n pair', Pair.rounds config room me id n pair = .ok pair' ∧ CaughtUp id history pair' := by
  have hle := h.exchange.follows.held_le
  have hpos := h.exchange.holds.first_pos
  have hl := h.exchange.first_le
  have ha : ∀ {prev : Nat} {pair' : Pair size Payload Handle},
      Exchange me id first pair.leader.log.currentTerm history held 0 prev pair' →
      held ≤ prev → prev ≤ held →
      ∃ n pair'', Pair.rounds config room me id n pair' = .ok pair'' ∧
        CaughtUp id history pair'' := by
    intro prev pair' h' hge hp
    rcases h'.accepted config room h.numbered (Nat.zero_le _) hp (by omega) with
      ⟨next, hok, hn, hs⟩
    rcases hn.eventually_caughtUp h.numbered hfst hf hroom hs (by omega) (by omega) with
      ⟨n, pair'', hr, hd⟩
    exact ⟨n + 1, pair'', by rw [Pair.rounds_succ n hok, hr], hd⟩
  by_cases hall : held = history.length
  · exact ha h.exchange hle hall.ge
  · rcases h.exchange.gap config room (Nat.zero_le _) (by omega) hl le_rfl with
      ⟨pair', hok, h'⟩
    rcases ha h' le_rfl le_rfl with ⟨n, pair'', hr, hd⟩
    exact ⟨n + 1, pair'', by rw [Pair.rounds_succ n hok, hr], hd⟩

/-- The entry that no request may carry keeps the follower where it is. -/
theorem Behind.not_caughtUp_of_blocked (h : Behind me id first history held pair)
    (hf : first = 1 ∨ first ≤ held) {entry : LogEntry Payload}
    (hm : entry ∈ history.drop held) (hb : ¬ config.Fits entry)
    (hr : Pair.rounds config room me id n pair = .ok pair') : ¬ CaughtUp id history pair' := by
  rcases List.mem_iff_getElem?.mp hm with ⟨k, hk⟩
  rw [List.getElem?_drop] at hk
  have hlt := (List.getElem?_eq_some_iff.mp hk).1
  have hs := h.steady (Nat.le_add_right held k)
  have hl : ∀ prev ≤ held + k,
      prev + (config.batch history (room (prev + 1)) (prev + 1)).length ≤ held + k :=
    fun prev hle => Config.prev_add_length_batch_lt hk hb hle
  rcases Pair.exists_rounds (fun _ => Steady.round h.numbered hf hl) n hs with
    ⟨pair'', hok, held', matched, prev, he, _, hh, hmatched, _⟩
  rw [hr] at hok
  cases hok
  intro hd
  have hmat := hd.matchIndex_eq
  rw [he.matchIndex_eq] at hmat
  omega

/-- Nothing was accepted, and the requests move back. -/
def Stuck (me id : Fin size) (first term : Nat) (history : List (LogEntry Payload)) (held : Nat)
    (pair : Pair size Payload Handle) : Prop :=
  ∃ prev, Exchange me id first term history held 0 prev pair ∧ (prev = history.length ∨ prev ≤ held)

/-- A follower that ends just before the leader's first entry is never believed to hold any. -/
theorem Behind.not_caughtUp_of_first (h : Behind me id first history held pair) (hfst : first ≠ 1)
    (hheld : held < first) (hrounds : Pair.rounds config room me id n pair = .ok pair') :
    ¬ CaughtUp id history pair' := by
  have hpos := h.exchange.holds.first_pos
  have hlen := h.exchange.first_le
  have hle := h.first_le
  have hstep : ∀ next next' : Pair size Payload Handle,
      Stuck me id first pair.leader.log.currentTerm history held next →
      Pair.round config room me id next = .ok next' →
      Stuck me id first pair.leader.log.currentTerm history held next' := by
    rintro next next' ⟨prev, hexch, hprev⟩ hrnd
    by_cases hlt : held < prev
    · rcases hexch.gap config room (Nat.zero_le _) hlt (by omega) (by omega) with
        ⟨next'', hok, h'⟩
      rw [hrnd] at hok
      cases hok
      exact ⟨held, h', .inr le_rfl⟩
    · by_cases hdrop : prev + 1 < first
      · rw [hexch.round_dropped config room hdrop] at hrnd
        cases hrnd
      · rcases hexch.placeholder config room h.term_pos (by omega) (by omega) (by omega) with
          ⟨prev', next'', hle', hok, h'⟩
        rw [hrnd] at hok
        cases hok
        exact ⟨prev', h', .inr (by omega)⟩
  rcases Pair.rounds_inv hstep n ⟨history.length, h.exchange, .inl rfl⟩ hrounds with
    ⟨prev, hexch, _⟩
  intro hdone
  have hmat := hdone.matchIndex_eq
  rw [hexch.matchIndex_eq] at hmat
  omega

/-- The exchange comes to its end exactly if the follower holds an entry the leader still has,
or the leader still has all of them, and each entry that is missing can be sent at all. -/
theorem catchUp_iff (h : Behind me id first history held pair)
    (hroom : ∀ index, first ≤ index → index ≤ history.length → 1 ≤ room index) :
    ((∀ n, ∃ pair', Pair.rounds config room me id n pair = .ok pair') ∧
      ∃ n pair', Pair.rounds config room me id n pair = .ok pair' ∧ CaughtUp id history pair') ↔
    (first = 1 ∨ first ≤ held) ∧ ∀ entry ∈ history.drop held, config.Fits entry := by
  constructor
  · rintro ⟨_, n, pair', hr, hd⟩
    have hf : first = 1 ∨ first ≤ held := by
      by_contra hn
      exact h.not_caughtUp_of_first (by omega) (by omega) hr hd
    refine ⟨hf, fun entry hm => ?_⟩
    by_contra hb
    exact h.not_caughtUp_of_blocked hf hm hb hr hd
  · rintro ⟨hf, hfits⟩
    refine ⟨fun n => ?_, h.eventually_caughtUp hf hfits hroom⟩
    have hl : ∀ prev ≤ history.length,
        prev + (config.batch history (room (prev + 1)) (prev + 1)).length ≤ history.length :=
      fun prev hle => config.prev_add_length_batch_le history _ hle
    rcases Pair.exists_rounds (fun _ => Steady.round h.numbered hf hl) n
      (h.steady h.exchange.follows.held_le) with ⟨pair', hok, _⟩
    exact ⟨pair', hok⟩

end

/-- The limits of the source, for entries of a hundred bytes. -/
def defaults : Config Unit where
  maxBatchSize := 2000
  maxLenInBytes := 4000000
  maxDecrStep := 2000
  byteSize _ := 100

/-- The first `length` entries of a history of one term. -/
def oneTerm (length : Nat) : List (LogEntry Unit) :=
  (range length).map fun k => ⟨1, k + 1, false, ()⟩

/-- Node 0 leads a history of three entries and dropped the first; node 1 holds `held` of them. -/
def threeEntries (held : Nat) : Pair 2 Unit Unit where
  leader := Node.lead
    { Node.start ⟨2, (oneTerm 3).drop 1, 1, some 0, []⟩ 0 with
      commitIndex := 3
      leaderId := some 0 }
  follower := Node.start ⟨1, (oneTerm 3).take held, 1, some 0, []⟩ 0

theorem isNumbered_oneTerm (length : Nat) : Log.IsNumbered (oneTerm length) := by
  intro k entry hk
  simp only [oneTerm, getElem?_map, Option.map_eq_some_iff] at hk
  rcases hk with ⟨j, hj, rfl⟩
  rw [(List.getElem?_eq_some_iff.mp hj).2.symm, List.getElem_range]

theorem behind_threeEntries {held : Nat} (hp : 1 ≤ held) (hle : held ≤ 3) :
    Behind 0 1 2 (oneTerm 3) held (threeEntries held) where
  numbered := isNumbered_oneTerm 3
  term_pos := by decide
  first_le_commitIndex := show 2 ≤ 3 by decide
  commitIndex_le := show 3 ≤ 3 by decide
  first_le := by omega
  exchange :=
    { role := rfl
      currentTerm_eq := rfl
      holds := ⟨rfl, rfl, by decide, by decide⟩
      first_le := by decide
      follows :=
        { whole := ⟨rfl, (isNumbered_oneTerm 3).of_isPrefix (List.take_prefix _ _)⟩
          entries_eq := rfl
          held_le := hle
          term_le := le_rfl
          leaderId := fun _ => .inl rfl
          role := show RaftRole.Follower ≠ .Syncer by decide }
      matchIndex_eq := rfl
      nextIndex_eq := rfl }

/-- With the entry that is the leader's first one, the follower catches up. -/
theorem catchUp_from_second :
    (∀ n, ∃ pair', Pair.rounds defaults (fun _ => 1) 0 1 n (threeEntries 2) = .ok pair') ∧
      ∃ n pair', Pair.rounds defaults (fun _ => 1) 0 1 n (threeEntries 2) = .ok pair' ∧
        CaughtUp 1 (oneTerm 3) pair' :=
  (catchUp_iff (behind_threeEntries (by decide) (by decide)) fun _ _ _ => le_rfl).mpr
    ⟨.inr le_rfl, fun _ _ => ⟨by decide, show 100 ≤ 4000000 by decide⟩⟩

/-- One entry less, and the leader stops in the third round. -/
theorem catchUp_fails_from_first : Behind 0 1 2 (oneTerm 3) 1 (threeEntries 1) ∧
      (Pair.rounds defaults (fun _ => 1) 0 1 3 (threeEntries 1)).map (fun _ => ()) =
        .error .termOfLogEntryAt :=
  ⟨behind_threeEntries le_rfl (by decide), by decide +kernel⟩

end MySuperLedger.Raft
