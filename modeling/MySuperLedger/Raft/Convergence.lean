import MySuperLedger.Raft.CatchUp

/-! # Replication converges

A new leader first looks for an entry it shares with the follower: its probes
carry nothing, and each refusal moves the next one back, to the end of the
follower's log or by a step that is at least one and never reaches what is known to
match. Once a probe is accepted, each further request brings entries, and the
follower gives up what is in conflict with them.
-/

namespace MySuperLedger.Raft

open Effects List Handler Option

variable {size : Nat} {Payload Handle : Type}

/-- A leader that knows nothing yet of a follower whose log matches its own. -/
structure Unexplored (me id : Fin size) (pair : Pair size Payload Handle) : Prop where
  role : pair.leader.role = .Leader
  leader_whole : pair.leader.log.IsWhole
  follower_whole : pair.follower.log.IsWhole
  matching : LogMatching pair.follower.log.entries pair.leader.log.entries
  committed : pair.follower.log.entries.take pair.follower.commitIndex <+: pair.leader.log.entries
  term_le : pair.follower.log.currentTerm ≤ pair.leader.log.currentTerm
  leaderId : pair.follower.log.currentTerm = pair.leader.log.currentTerm →
    pair.follower.leaderId = none ∨ pair.follower.leaderId = some me
  follower_role : pair.follower.role ≠ .Syncer
  matchIndex_eq : (pair.leader.peers id).matchIndex = 0
  nextIndex_eq : (pair.leader.peers id).nextIndex = pair.leader.log.lastLogIndex + 1

/-- The leader knows that the follower holds `history`, and the follower does; it may hold
more. -/
structure Replicated (id : Fin size) (history : List (LogEntry Payload))
    (pair : Pair size Payload Handle) : Prop where
  matchIndex_eq : (pair.leader.peers id).matchIndex = history.length
  firstIndex_eq : pair.follower.log.firstIndex = 1
  isPrefix : history <+: pair.follower.log.entries

/-- Nothing is known to match, and the next request asks for the entry at `prev`. -/
def Probing (me id : Fin size) (term : Nat) (history : List (LogEntry Payload)) (prev : Nat)
    (pair : Pair size Payload Handle) : Prop :=
  prev ≤ history.length ∧ ∃ held, Meeting me id 1 term history held 0 prev pair

/-- The first `prev` entries are known to match, and requests carry entries. -/
def Copying (me id : Fin size) (term : Nat) (history : List (LogEntry Payload)) (prev : Nat)
    (pair : Pair size Payload Handle) : Prop :=
  prev ≤ history.length ∧ (pair.leader.peers id).suppressBulkData = false ∧
    ∃ held, history.take prev <+: held ∧ Meeting me id 1 term history held prev prev pair

variable {config : Config Payload} {peer : Peer} {lastLogIndex : Nat}

theorem lowerNextIndex_lt (hd : 1 ≤ config.maxDecrStep)
    (hg : peer.matchIndex + 1 < peer.nextIndex) :
    lowerNextIndex config peer lastLogIndex < peer.nextIndex := by
  unfold lowerNextIndex
  split
  · assumption
  · have hs : 1 ≤ (peer.nextIndex - peer.matchIndex) / 2 := by omega
    omega

section

variable {config : Config Payload} {room : Nat → Nat} {me id : Fin size} {term : Nat}
  {history : List (LogEntry Payload)} {prev : Nat} {pair : Pair size Payload Handle}

theorem Unexplored.probing (h : Unexplored me id pair) :
    Probing me id pair.leader.log.currentTerm pair.leader.log.entries
      pair.leader.log.entries.length pair := by
  have hc : NoConflict pair.follower.commitIndex pair.follower.log.entries
      pair.leader.log.entries := by
    intro k entry other hk he ho
    have hin : (pair.follower.log.entries.take pair.follower.commitIndex)[k]? = some entry := by
      rw [List.getElem?_take_of_lt hk, he]
    have hlt := (List.getElem?_eq_some_iff.mp hin).1
    rcases h.committed with ⟨rest, hr⟩
    rw [← hr, List.getElem?_append_left hlt, hin] at ho
    cases ho
    rfl
  have ha : Agrees me pair.leader.log.currentTerm pair.leader.log.entries pair.follower :=
    ⟨h.follower_whole, h.matching, hc, h.term_le, h.leaderId, h.follower_role⟩
  have hn := h.nextIndex_eq
  rw [h.leader_whole.lastLogIndex_eq] at hn
  exact ⟨le_rfl, _, h.role, rfl, h.leader_whole.holdsFrom, ha, rfl, h.matchIndex_eq, hn⟩

variable (config room)

theorem Meeting.copying {held : List (LogEntry Payload)} {matched : Nat}
    (hn : Log.IsNumbered history) (h : Meeting me id 1 term history held matched prev pair)
    (hmat : matched ≤ prev) (hle : prev ≤ history.length) (hs : history.take prev <+: held) :
    ∃ pair', Pair.round config room me id pair = .ok pair' ∧
      Pair.Answered config room me id true pair ∧
      Copying me id term history
        (prev + (Exchange.entries config room id history prev pair).length) pair' := by
  have hl := hs.length_le
  rw [length_take_of_le hle] at hl
  have ht : held.take prev = history.take prev := by
    have heq := prefix_iff_eq_take.mp hs
    rw [length_take_of_le hle] at heq
    exact heq.symm
  rcases h.accepted config room hn hmat hl ht (by omega) with
    ⟨held', pair', hok, ha, htak, hm, hsend⟩
  have hb := (Exchange.entries_isPrefix config room id history prev pair).length_le
  rw [length_drop] at hb
  exact ⟨pair', hok, ha, by omega, hsend, held', htak.isPrefix, hm⟩

theorem Copying.round (hn : Log.IsNumbered history) (h : Copying me id term history prev pair) :
    ∃ pair', Pair.round config room me id pair = .ok pair' ∧
      Pair.Answered config room me id true pair ∧
      Copying me id term history
        (prev + (config.batch history (room (prev + 1)) (prev + 1)).length) pair' := by
  rcases h with ⟨hle, hsend, held, hs, hm⟩
  have hr := hm.copying config room hn le_rfl hle hs
  rwa [Exchange.entries, hsend, if_neg Bool.false_ne_true] at hr

/-- A probe is accepted, or the next one goes further back. -/
theorem Probing.round (hnum : Log.IsNumbered history) (hdecr : 1 ≤ config.maxDecrStep)
    (h : Probing me id term history prev pair) :
    ∃ pair', Pair.round config room me id pair = .ok pair' ∧
      (Pair.Answered config room me id true pair ∧
          (∃ prev', Copying me id term history prev' pair') ∨
        Pair.Answered config room me id false pair ∧
          ∃ prev' < prev, Probing me id term history prev' pair') := by
  rcases h with ⟨hle, held, hmeet⟩
  by_cases hshar : history.take prev <+: held
  · rcases hmeet.copying config room hnum (Nat.zero_le _) hle hshar with
      ⟨pair', hok, hans, hcopy⟩
    exact ⟨pair', hok, .inl ⟨hans, _, hcopy⟩⟩
  · have hpos : 1 ≤ prev := by
      by_contra hzero
      exact hshar (by simp [show prev = 0 by omega])
    have hin : prev - 1 < history.length := by omega
    have hget := hmeet.holds.getTerm_eq hpos
    rw [getElem?_eq_getElem hin, map_some] at hget
    -- an entry of the same term would be shared, with all before it
    have href : ¬ (prev ≤ held.length ∧
        held[prev - 1]?.map LogEntry.term = some history[prev - 1].term) := by
      rintro ⟨hheld, hterm⟩
      have hent : held[prev - 1]? = some held[prev - 1] := getElem?_eq_getElem (by omega)
      rw [hent, map_some, some.injEq] at hterm
      have hmat := hmeet.agrees.matching
      rw [hmeet.held_eq] at hmat
      have htake := hmat _ _ _ hent (getElem?_eq_getElem hin) hterm
      rw [Nat.sub_add_cancel hpos] at htake
      exact hshar (htake ▸ take_prefix _ _)
    rcases hmeet.refused config room (Nat.zero_le _) hpos (by omega) hle hget href with
      ⟨pair', hok, hans, hnext⟩
    have hgap : (pair.leader.peers id).matchIndex + 1 < (pair.leader.peers id).nextIndex := by
      rw [hmeet.matchIndex_eq, hmeet.nextIndex_eq]
      omega
    have hlow : lowerNextIndex config (pair.leader.peers id) held.length <
        (pair.leader.peers id).nextIndex := lowerNextIndex_lt hdecr hgap
    have habv : (pair.leader.peers id).matchIndex <
        lowerNextIndex config (pair.leader.peers id) held.length :=
      lt_lowerNextIndex config (hmeet.matchIndex_eq ▸ Nat.zero_le _) hgap
    rw [hmeet.nextIndex_eq] at hlow
    exact ⟨pair', hok, .inr ⟨hans, _, by omega, by omega, held, hnext⟩⟩

theorem Copying.replicated (h : Copying me id term history history.length pair) :
    Replicated id history pair := by
  rcases h with ⟨-, -, held, hs, hm⟩
  rw [take_length] at hs
  exact ⟨hm.matchIndex_eq, hm.agrees.whole.firstIndex_eq, hm.held_eq ▸ hs⟩

/-- What the rounds keep. -/
def Converging (me id : Fin size) (term : Nat) (history : List (LogEntry Payload))
    (pair : Pair size Payload Handle) : Prop :=
  ∃ prev, Probing me id term history prev pair ∨ Copying me id term history prev pair

theorem Converging.round (hn : Log.IsNumbered history) (hd : 1 ≤ config.maxDecrStep)
    (h : Converging me id term history pair) :
    ∃ pair', Pair.round config room me id pair = .ok pair' ∧
      Converging me id term history pair' := by
  rcases h with ⟨prev, hp | hc⟩
  · rcases hp.round config room hn hd with
      ⟨pair', hok, ⟨-, prev', hc⟩ | ⟨-, prev', -, hp'⟩⟩
    · exact ⟨pair', hok, prev', .inr hc⟩
    · exact ⟨pair', hok, prev', .inl hp'⟩
  · rcases hc.round config room hn with ⟨pair', hok, -, hc'⟩
    exact ⟨pair', hok, _, .inr hc'⟩

variable {config room}

/-- A refusal moves the next request back, and not down to what matches. -/
theorem Converging.refused {pair' : Pair size Payload Handle} (hn : Log.IsNumbered history)
    (hd : 1 ≤ config.maxDecrStep) (h : Converging me id term history pair)
    (hrnd : Pair.round config room me id pair = .ok pair')
    (hr : Pair.Answered config room me id false pair) :
    (pair'.leader.peers id).nextIndex < (pair.leader.peers id).nextIndex ∧
      (pair'.leader.peers id).matchIndex < (pair'.leader.peers id).nextIndex := by
  rcases h with ⟨prev, hp | hc⟩
  · rcases hp.round config room hn hd with
      ⟨next, hok, ⟨ha, -⟩ | ⟨-, prev', hlt, -, held', hm'⟩⟩
    · cases ha.unique hr
    · rw [hrnd] at hok
      cases hok
      rcases hp with ⟨-, held, hm⟩
      rw [hm.nextIndex_eq, hm'.nextIndex_eq, hm'.matchIndex_eq]
      omega
  · rcases hc.round config room hn with ⟨next, -, ha, -⟩
    cases ha.unique hr

theorem Copying.eventually_replicated (hnum : Log.IsNumbered history)
    (hf : ∀ entry ∈ history, config.Fits entry)
    (hr : ∀ index, 1 ≤ index → index ≤ history.length → 1 ≤ room index)
    (h : Copying me id term history prev pair) :
    ∃ n, ∃ pair', Pair.rounds config room me id n pair = .ok pair' ∧
      Copying me id term history history.length pair' := by
  induction hm : history.length - prev using Nat.strong_induction_on
    generalizing prev pair with
  | _ missing ih =>
    by_cases he : prev = history.length
    · exact ⟨0, pair, rfl, he ▸ h⟩
    · have hle := h.1
      have hs : 0 < (config.batch history (room (prev + 1)) (prev + 1)).length := by
        have hlt : prev < history.length := by omega
        exact Config.length_batch_pos hlt (hr _ (by omega) (by omega))
          (hf _ (getElem_mem hlt))
      rcases h.round config room hnum with ⟨next, hok, -, hn⟩
      rcases ih _ (by omega) hn rfl with ⟨n, pair', hrnd, hd⟩
      exact ⟨n + 1, pair', by rw [Pair.rounds_succ n hok, hrnd], hd⟩

theorem Probing.eventually_copying (hn : Log.IsNumbered history)
    (hd : 1 ≤ config.maxDecrStep) (h : Probing me id term history prev pair) :
    ∃ n prev', ∃ pair', Pair.rounds config room me id n pair = .ok pair' ∧
      Copying me id term history prev' pair' := by
  induction prev using Nat.strong_induction_on generalizing pair with
  | _ prev ih =>
    rcases h.round config room hn hd with
      ⟨next, hok, ⟨-, prev', hc⟩ | ⟨-, prev', hlt, hp⟩⟩
    · exact ⟨1, prev', next, by rw [Pair.rounds_succ 0 hok]; rfl, hc⟩
    · rcases ih prev' hlt hp with ⟨n, prev'', pair', hr, hc⟩
      exact ⟨n + 1, prev'', pair', by rw [Pair.rounds_succ n hok, hr], hc⟩

variable (config room) in
theorem Copying.rounds_replicated (hnum : Log.IsNumbered history) (n : Nat)
    (h : Copying me id term history history.length pair) :
    ∃ pair', Pair.rounds config room me id n pair = .ok pair' ∧ Replicated id history pair' := by
  have hr : ∀ pair : Pair size Payload Handle, Copying me id term history history.length pair →
      ∃ pair', Pair.round config room me id pair = .ok pair' ∧
        Copying me id term history history.length pair' := by
    intro pair hc
    rcases hc.round config room hnum with ⟨pair', hok, -, hn⟩
    have hle := hn.1
    rw [show history.length + (config.batch history (room (history.length + 1))
      (history.length + 1)).length = history.length by omega] at hn
    exact ⟨pair', hok, hn⟩
  rcases Pair.exists_rounds hr n h with ⟨pair', hrnd, hc⟩
  exact ⟨pair', hrnd, hc.replicated⟩

/-- Without loss, no number of rounds fails a check, from some round on the follower holds the
leader's log and the leader knows it, and each refusal on the way lowers `nextIndex` and keeps
it above `matchIndex`. -/
theorem replication_converges (h : Unexplored me id pair) (hdecr : 1 ≤ config.maxDecrStep)
    (hbatch : 1 ≤ config.maxBatchSize)
    (hbytes : ∀ entry ∈ pair.leader.log.entries, config.byteSize entry ≤ config.maxLenInBytes)
    (hroom : ∀ index, 1 ≤ index → index ≤ pair.leader.log.lastLogIndex → 1 ≤ room index) :
    (∀ n, ∃ pair', Pair.rounds config room me id n pair = .ok pair') ∧
      (∃ n, ∀ m ≥ n, ∃ pair', Pair.rounds config room me id m pair = .ok pair' ∧
        Replicated id pair.leader.log.entries pair') ∧
      ∀ n before after, Pair.rounds config room me id n pair = .ok before →
        Pair.round config room me id before = .ok after →
        Pair.Answered config room me id false before →
        (after.leader.peers id).nextIndex < (before.leader.peers id).nextIndex ∧
          (after.leader.peers id).matchIndex < (after.leader.peers id).nextIndex := by
  have hnum := h.leader_whole.numbered
  have hprob := h.probing
  have hcon : Converging me id pair.leader.log.currentTerm pair.leader.log.entries pair :=
    ⟨_, .inl hprob⟩
  have hrnd : ∀ n, ∃ pair', Pair.rounds config room me id n pair = .ok pair' ∧
      Converging me id pair.leader.log.currentTerm pair.leader.log.entries pair' :=
    fun n => Pair.exists_rounds (fun _ hpair => hpair.round config room hnum hdecr) n hcon
  refine ⟨fun n => ?_, ?_, ?_⟩
  · rcases hrnd n with ⟨pair', hok, -⟩
    exact ⟨pair', hok⟩
  · rcases hprob.eventually_copying hnum hdecr with ⟨n, prev, next, hnext, hcopy⟩
    rw [h.leader_whole.lastLogIndex_eq] at hroom
    rcases hcopy.eventually_replicated hnum (fun entry hmem => ⟨hbatch, hbytes entry hmem⟩)
      hroom with ⟨k, last, hlast, hdone⟩
    refine ⟨n + k, fun m hm => ?_⟩
    rcases hdone.rounds_replicated config room hnum (m - (n + k)) with
      ⟨pair', hok, hrep⟩
    refine ⟨pair', ?_, hrep⟩
    rw [show m = n + (k + (m - (n + k))) by omega, Pair.rounds_add _ hnext,
      Pair.rounds_add _ hlast, hok]
  · intro n before after hpre hround href
    rcases hrnd n with ⟨pair', hok, hpair'⟩
    rw [hpre] at hok
    cases hok
    exact hpair'.refused hnum hdecr hround href

end

/-- Node 0 leads three entries, two of them of its term. Node 1 shares the first, has committed it,
and holds three more of an older term. -/
def conflicting : Pair 2 Unit Unit where
  leader := Node.lead
    { Node.start ⟨1, [⟨1, 1, false, ()⟩, ⟨2, 2, true, ()⟩, ⟨2, 3, false, ()⟩], 2, some 0, []⟩ 0 with
      leaderId := some 0 }
  follower :=
    { Node.start ⟨1, oneTerm 4, 1, none, []⟩ 0 with commitIndex := 1 }

theorem unexplored_conflicting : Unexplored 0 1 conflicting where
  role := rfl
  leader_whole := by
    refine ⟨rfl, fun k entry hk => ?_⟩
    rcases k with _ | _ | _ | k <;> cases hk <;> rfl
  follower_whole := ⟨rfl, isNumbered_oneTerm 4⟩
  matching := by
    intro k entry other he ho ht
    rcases k with _ | _ | _ | k
    · rfl
    · cases he
      cases ho
      cases ht
    · cases he
      cases ho
      cases ht
    · cases ho
  committed := by decide
  term_le := by decide
  leaderId := by decide
  follower_role := by decide
  matchIndex_eq := rfl
  nextIndex_eq := rfl

theorem replication_converges_conflicting : Unexplored 0 1 conflicting ∧
      ∃ n, ∀ m ≥ n, ∃ pair', Pair.rounds defaults (fun _ => 1) 0 1 m conflicting = .ok pair' ∧
        Replicated 1 conflicting.leader.log.entries pair' :=
  ⟨unexplored_conflicting, (replication_converges unexplored_conflicting (by decide) (by decide)
    (by decide) fun _ _ _ => le_rfl).2.1⟩

end MySuperLedger.Raft
