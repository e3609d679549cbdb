import MySuperLedger.Raft.Simulation
import MySuperLedger.Replica.Replay

/-! # What leaders execute ahead

A leader's command process loop is ahead of the log its raft node has written.
The plan of a term is the log the term will have if every request that is on its
way gets through. Plans are genuine; what leaders write is part of the plan, and
so is all that is ever committed. A request is dropped only with its process, and
then the plan falls back to what was written.
-/

namespace MySuperLedger.Replica

open Consensus Ledger Raft List NodeRun

variable {size : Nat} {a a' : Ghost size RaftPayload} {planned planned' : Nat → List Entry}
  {id : Fin size} {supply : Supply RaftPayload}

/-- Genuine, and every entry knows its position. -/
structure Sound (log : List Entry) : Prop where
  genuine : Genuine log
  numbered : Log.IsNumbered log

theorem Sound.nil : Sound [] := ⟨Genuine.nil, fun _ _ h => nomatch h⟩

variable {log base : List Entry} {term : Nat}

theorem Sound.of_isPrefix {log' : List Entry} (h : Sound log) (hp : log' <+: log) : Sound log' :=
  ⟨h.genuine.of_isPrefix hp, h.numbered.of_isPrefix hp⟩

theorem Sound.concat {entry : Entry} (h : Sound log) (hi : entry.index = log.length + 1)
    (he : entry.noop = false → IsOutcome log entry) : Sound (log ++ [entry]) :=
  ⟨h.genuine.concat he, h.numbered.concat hi⟩

theorem sound_of_forall_concat
    (h : ∀ before entry, before ++ [entry] <+: log → Sound (before ++ [entry])) : Sound log where
  genuine before entry hp := (h before entry hp).genuine before entry prefix_rfl
  numbered := Log.isNumbered_of_index_eq fun before entry hp =>
    (h before entry hp).numbered.index_eq prefix_rfl

structure Plan (a : Ghost size RaftPayload) (planned : Nat → List Entry) : Prop where
  sound : ∀ term, Sound (planned term)
  leader : ∀ term, a.leaderLog term <+: planned term
  unelected : ∀ term, a.elected term = none → planned term = []
  /-- Nothing is executed ahead before the first entry of the term is written. -/
  started : ∀ term c base, a.elected term = some (c, base) →
    planned term ≠ a.leaderLog term → ∃ first, base ++ [first] <+: a.leaderLog term

theorem Plan.initial : Plan (State.initial : Ghost size RaftPayload) fun _ => [] where
  sound _ := Sound.nil
  leader _ := prefix_rfl
  unelected _ _ := rfl
  started _ _ _ hel := nomatch hel

/-- What the raft node of `id` may write: its first entry, or what was planned. -/
def Supplies (a : Ghost size RaftPayload) (planned : Nat → List Entry) (id : Fin size)
    (supply : Supply RaftPayload) : Prop :=
  ∀ base own entry, supply base own entry → entry.index = (base ++ own).length + 1 ∧
    (own = [] ∧ entry.noop = true ∨ entry.term < a.term id ∨ entry ∈ planned entry.term)

/-- The log of a leader that was elected with `base` and wrote its first entry at most. -/
def IsStart (base log : List Entry) : Prop :=
  log = base ∨ ∃ first : Entry, first.noop = true ∧ first.index = base.length + 1 ∧
    log = base ++ [first]

theorem IsStart.length_le (h : IsStart base log) : log.length ≤ base.length + 1 := by
  rcases h with rfl | ⟨first, _, _, rfl⟩ <;> simp

theorem IsStart.sound (h : IsStart base log) (hb : Sound base) : Sound log := by
  rcases h with rfl | ⟨first, hn, hi, rfl⟩
  · exact hb
  · refine hb.concat hi fun hnot => ?_
    rw [hn] at hnot
    cases hnot

/-- The requests that are written behind the first entry continue the plan. -/
theorem Plan.written_isPrefix (hplan : Plan a planned) (hsupply : Supplies a planned id supply)
    {own new : List Entry} (hne : own ≠ []) (hpre : base ++ own <+: planned term)
    (ht : a.term id ≤ term) (hwr : Written LogEntry.term supply term base own new) :
    base ++ own ++ new <+: planned term := by
  induction new using List.reverseRecOn with
  | nil => simpa using hpre
  | append_singleton new entry ih =>
    have hn := ih fun p e hp => hwr p e (hp.trans (prefix_append _ _))
    rcases hwr new entry prefix_rfl with ⟨rfl, hs⟩
    rcases hsupply _ _ _ hs with ⟨hi, ⟨hnil, _⟩ | hlt | hm⟩
    · exact absurd (append_eq_nil_iff.mp hnil).1 hne
    · omega
    · rw [← append_assoc]
      exact (hplan.sound _).numbered.concat_isPrefix hn hm (by rw [hi]; simp)

/-- A leader that has written nothing yet can write its first entry only. -/
theorem Plan.written_first (hplan : Plan a planned) (hsupply : Supplies a planned id supply)
    {new : List Entry} (hsh : (planned term).length ≤ base.length)
    (ht : new ≠ [] → a.term id ≤ term) (hwr : Written LogEntry.term supply term base [] new) :
    new = [] ∨ ∃ first : Entry, first.noop = true ∧ first.index = base.length + 1 ∧
      new = [first] := by
  -- an entry behind the plan was not requested
  have hf : ∀ p e, p ++ [e] <+: new →
      e.index = (base ++ p).length + 1 ∧ p = [] ∧ e.noop = true := by
    intro p e hp
    have hle := ht (by rintro rfl; simp at hp)
    rcases hwr p e hp with ⟨rfl, hs⟩
    rcases hsupply _ _ _ hs with ⟨hi, hn | hlt | hm⟩
    · exact ⟨hi, hn⟩
    · omega
    · have hbd := (hplan.sound _).numbered.index_le hm
      simp at hi
      omega
  rcases new with _ | ⟨first, _ | ⟨second, rest⟩⟩
  · exact .inl rfl
  · rcases hf [] first prefix_rfl with ⟨hi, _, hn⟩
    exact .inr ⟨first, hn, by simpa using hi, rfl⟩
  · have hsnd := hf [first] second ⟨rest, rfl⟩
    exact absurd hsnd.2.1 (cons_ne_nil _ _)

/-- What node `id` has written at the end of a run: a part of the plan, or its start. -/
theorem Plan.wrote (hplan : Plan a planned) (hinv : GhostInv a) (hmoves : Moves id supply a a')
    (hsupply : Supplies a planned id supply) (hel : a'.elected term = some (id, base)) :
    (a.elected term = some (id, base) ∧ a'.leaderLog term <+: planned term) ∨
      (planned term = a.leaderLog term ∧ IsStart base (a'.leaderLog term)) := by
  rcases written hmoves hinv hel with ⟨own, new, hlog, hwr, hbefore⟩
  have hterm : new ≠ [] → (a.leaderLog term).length ≤ (base ++ own).length → a.term id ≤ term := by
    intro hnew hlen
    refine term_le hmoves hinv ?_
    intro heq
    have hlen' := congrArg List.length (heq.symm.trans hlog)
    have hpos := length_pos_iff.mpr hnew
    simp at hlen hlen'
    omega
  by_cases hown : own = []
  · subst hown
    rw [append_nil] at hlog hbefore
    have hplanned : planned term = a.leaderLog term ∧ (a.leaderLog term).length ≤ base.length := by
      rcases hbefore with ⟨hel', hbase⟩ | ⟨hnone, _⟩
      · refine ⟨?_, by rw [hbase]⟩
        by_contra hne
        rcases hplan.started _ _ _ hel' hne with ⟨first, hpre⟩
        have hlen := hpre.length_le
        rw [hbase] at hlen
        simp at hlen
      · rw [hplan.unelected _ hnone, hinv.leader_none _ hnone]
        simp
    refine .inr ⟨hplanned.1, ?_⟩
    rcases hplan.written_first hsupply (hplanned.1 ▸ hplanned.2)
      (fun hnew => hterm hnew (by simpa using hplanned.2)) hwr with rfl |
      ⟨first, hnoop, hidx, rfl⟩
    · exact .inl (by simpa using hlog)
    · exact .inr ⟨first, hnoop, hidx, hlog⟩
  · rcases hbefore with ⟨hel', hbase⟩ | ⟨_, hnil⟩
    · refine .inl ⟨hel', ?_⟩
      have hpre : base ++ own <+: planned term := hbase ▸ hplan.leader term
      rw [hlog]
      by_cases hnew : new = []
      · rw [hnew, append_nil]
        exact hpre
      · exact hplan.written_isPrefix hsupply hown hpre (hterm hnew (by rw [hbase])) hwr
    · exact absurd hnil hown

theorem leaderLog_of_other (hinv : GhostInv a) (hmoves : Moves id supply a a') {c : Fin size}
    (hel : a'.elected term = some (c, base)) (hne : c ≠ id) :
    a.elected term = some (c, base) ∧ a'.leaderLog term = a.leaderLog term := by
  have hf := frame hmoves hinv
  have hel' := hf.other_elected term c base hne hel
  exact ⟨hel', hf.other_leaderLog term c base hne hel'⟩

/-- What the leader of a term starts with was written by leaders before it. -/
theorem sound_base (hinv : GhostInv a) {c : Fin size} (hel : a.elected term = some (c, base))
    (he : ∀ term' < term, Sound (a.leaderLog term')) : Sound base := by
  refine sound_of_forall_concat fun before entry hp => ?_
  have hl := hp.trans (hinv.leader_base term c base hel)
  have hm := (hinv.leader_matches term before entry hl).2
  rcases hinv.leader_entry term c base before entry hel hl with ⟨hlt, _⟩ | ⟨_, hb⟩
  · exact (he _ hlt).of_isPrefix hm
  · have hlen := hp.length_le
    have hl' := hb.length_le
    simp at hlen
    omega

section Moving

variable (hplan : Plan a planned) (hinv : GhostInv a) (hmoves : Moves id supply a a')
  (hsupply : Supplies a planned id supply)
include hplan hinv hmoves hsupply

theorem Plan.sound_leaderLog (term : Nat) : Sound (a'.leaderLog term) := by
  have hi' := inv hmoves hinv
  -- strong induction on the term: a new leader starts with entries of earlier terms
  induction term using Nat.strong_induction_on with
  | _ term ih =>
    rcases hel : a'.elected term with _ | ⟨c, base⟩
    · rw [hi'.leader_none term hel]
      exact Sound.nil
    · by_cases hc : c = id
      · subst hc
        rcases hplan.wrote hinv hmoves hsupply hel with ⟨_, hp⟩ | ⟨_, hst⟩
        · exact (hplan.sound term).of_isPrefix hp
        · exact hst.sound (sound_base hi' hel ih)
      · rw [(leaderLog_of_other hinv hmoves hel hc).2]
        exact (hplan.sound term).of_isPrefix (hplan.leader term)

/-- A plan stays, or falls back to what is written. It has to if it was no more than that. -/
theorem Plan.moves (hplanned : ∀ term, planned' term = a'.leaderLog term ∨
      (planned' term = planned term ∧ planned term ≠ a.leaderLog term)) : Plan a' planned' := by
  have hinv' := inv hmoves hinv
  have hgrow := (frame hmoves hinv).toGrows
  have helec : ∀ term, planned term ≠ a.leaderLog term →
      ∃ c base, a.elected term = some (c, base) := by
    intro term hne
    rcases hel : a.elected term with _ | ⟨c, base⟩
    · exact absurd ((hplan.unelected term hel).trans (hinv.leader_none term hel).symm) hne
    · exact ⟨c, base, rfl⟩
  constructor
  · intro term
    rcases hplanned term with heq | ⟨heq, _⟩
    · rw [heq]
      exact hplan.sound_leaderLog hinv hmoves hsupply term
    · rw [heq]
      exact hplan.sound term
  · intro term
    rcases hplanned term with heq | ⟨heq, hne⟩
    · rw [heq]
    · rw [heq]
      rcases helec term hne with ⟨c, base, hel⟩
      have hel' := hgrow.elected _ _ hel
      by_cases hc : c = id
      · subst hc
        rcases hplan.wrote hinv hmoves hsupply hel' with ⟨_, hpre⟩ | ⟨hsame, _⟩
        · exact hpre
        · exact absurd hsame hne
      · rw [(leaderLog_of_other hinv hmoves hel' hc).2]
        exact hplan.leader term
  · intro term hel
    rcases hplanned term with heq | ⟨_, hne⟩
    · rw [heq]
      exact hinv'.leader_none term hel
    · rcases helec term hne with ⟨c, base, hel'⟩
      rw [hgrow.elected _ _ hel'] at hel
      cases hel
  · intro term c base hel hne
    rcases hplanned term with heq | ⟨_, hne'⟩
    · exact absurd heq hne
    · rcases helec term hne' with ⟨c', base', hel'⟩
      have heq := (hgrow.elected _ _ hel').symm.trans hel
      cases heq
      rcases hplan.started term c base hel' hne' with ⟨first, hpre⟩
      exact ⟨first, hpre.trans (hgrow.leaderLog term)⟩

end Moving

theorem Plan.sound_of_committed (hplan : Plan a planned) (hinv : GhostInv a) {bound : Nat}
    (h : IsCommitted a bound log) : Sound log := by
  rcases h with rfl | ⟨term, p, _, hc, hp⟩
  · exact Sound.nil
  · have he := hinv.elected_of_chosen majorities_meet hc
    have hl := hinv.chosen_prefix_leaderLog majorities_meet hc le_rfl he
    exact (hplan.sound term).of_isPrefix (hp.trans (hl.trans (hplan.leader term)))

end MySuperLedger.Replica
