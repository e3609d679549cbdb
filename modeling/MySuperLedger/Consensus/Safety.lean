import MySuperLedger.Consensus.Invariant

/-! # Safety of the replicated log

One leader a term, leader completeness and agreement on what is committed, from
the inductive invariant and quorums that meet. The last section is for systems
that refine the protocol: what a run of steps of one node leaves alone.
-/

namespace Consensus

open Transition List Function

variable {ι α : Type} {term : α → Nat} {quorum : Finset ι → Prop} {a a' : State ι α}
  {supply : List α → List α → α → Prop}

/-- A quorum acknowledged `p` to the leader of `t`, which wrote the last entry of `p` itself. -/
def Chosen (term : α → Nat) (quorum : Finset ι → Prop) (a : State ι α) (t : Nat) (p : List α) :
    Prop :=
  ∃ voters, quorum voters ∧ ∀ n ∈ voters, AckedTo term a t n p

/-- `q` lies within a prefix chosen in term `bound` or before. -/
def Committed (term : α → Nat) (quorum : Finset ι → Prop) (a : State ι α) (bound : Nat)
    (q : List α) : Prop :=
  q = [] ∨ ∃ t p, t ≤ bound ∧ Chosen term quorum a t p ∧ q <+: p

variable {t : Nat} {n : ι}

theorem Chosen.mono {p : List α} (h : Chosen term quorum a t p) (hg : Grows a a') :
    Chosen term quorum a' t p := by
  rcases h with ⟨voters, hq, hv⟩
  exact ⟨voters, hq, fun n hn => ⟨(hv n hn).1.trans (hg.acked t n), (hv n hn).2⟩⟩

theorem Committed.mono {bound bound' : Nat} {q : List α}
    (h : Committed term quorum a bound q) (hg : Grows a a') (hle : bound ≤ bound') :
    Committed term quorum a' bound' q := by
  rcases h with h | ⟨t, p, ht, hp, hq⟩
  · exact .inl h
  · exact .inr ⟨t, p, ht.trans hle, hp.mono hg, hq⟩

theorem Committed.of_isPrefix {bound : Nat} {q q' : List α}
    (h : Committed term quorum a bound q) (hpre : q' <+: q) : Committed term quorum a bound q' := by
  rcases h with rfl | ⟨t, p, ht, hp, hq⟩
  · exact .inl (prefix_nil.mp hpre)
  · exact .inr ⟨t, p, ht, hp, hpre.trans hq⟩

/-- For as long as its term lasts, a node holds all that it has acknowledged. -/
def AckedHeld (a : State ι α) : Prop := ∀ n, a.acked (a.term n) n <+: a.log n

theorem AckedHeld.isPrefix (h : AckedHeld a) (hinv : Inv term quorum a) (ht : a.term n ≤ t) :
    a.acked t n <+: a.log n := by
  by_cases hn : a.acked t n = []
  · rw [hn]
    exact nil_prefix
  · rw [Nat.le_antisymm (hinv.acked_term t n hn) ht]
    exact h n

section Meet

variable (hmeet : ∀ v w, quorum v → quorum w → ∃ n : ι, n ∈ v ∧ n ∈ w)
include hmeet

variable {t : Nat} {p : List α}

section

variable (hinv : Inv term quorum a)
include hinv

/-- A second candidate finds no quorum in a term that has a leader. -/
theorem Inv.elected_eq_of_votes {c c' : ι} {base : List α}
    {voters : Finset ι} (hq : quorum voters) (hv : ∀ n ∈ voters, a.granted t n = some c')
    (hel : a.elected t = some (c, base)) : c = c' := by
  rcases hinv.elected_covers t c base hel with ⟨voters', hq', hv'⟩
  rcases hmeet voters voters' hq hq' with ⟨n, hn, hn'⟩
  have heq := (hv' n hn').1.symm.trans (hv n hn)
  exact Option.some.inj heq

/-- Every leader elected after a prefix was chosen starts with it. -/
theorem Inv.chosen_prefix_base (hc : Chosen term quorum a t p) :
    ∀ t' c base, t < t' → a.elected t' = some (c, base) → p <+: base := by
  intro t'
  -- strong induction on the later term: a leader elected without `p` would need another before it
  induction t' using Nat.strong_induction_on with
  | _ t' ih =>
    intro c base hlt hel
    rcases hc with ⟨ackers, hackers, ha⟩
    rcases hinv.elected_covers t' c base hel with ⟨voters, hvot, hv⟩
    rcases hmeet ackers voters hackers hvot with ⟨n, hn, hn'⟩
    rcases (hv n hn').2 t p hlt (ha n hn) with hp | ⟨t'', c'', base'', h1, h2, h3, h4⟩
    · exact hp
    · exact absurd (ih t'' h2 c'' base'' h1 h3) h4

theorem Inv.chosen_prefix_leaderLog {t' : Nat}
    (hc : Chosen term quorum a t p) (hle : t ≤ t') (hel : a.elected t' ≠ none) :
    p <+: a.leaderLog t' := by
  rcases Nat.eq_or_lt_of_le hle with rfl | hlt
  · rcases hc with ⟨ackers, hackers, ha⟩
    rcases hmeet ackers ackers hackers hackers with ⟨n, hn, _⟩
    exact (ha n hn).1.trans (hinv.acked_leader t n)
  · rcases hel' : a.elected t' with _ | ⟨c, base⟩
    · exact absurd hel' hel
    · exact (hinv.chosen_prefix_base hmeet hc t' c base hlt hel').trans
        (hinv.leader_base t' c base hel')

/-- A quorum still has what was chosen, whatever terms have come since. -/
theorem Inv.chosen_prefix_log (hc : Chosen term quorum a t p) :
    ∃ voters, quorum voters ∧ ∀ n ∈ voters, p <+: a.log n := by
  obtain ⟨voters, hq, ha⟩ := id hc
  refine ⟨voters, hq, fun n hn => ?_⟩
  rcases hinv.acked_log t n p (ha n hn) with hp | ⟨t', c, base, hlt, _, hel, hnot⟩
  · exact hp
  · exact absurd (hinv.chosen_prefix_base hmeet hc t' c base hlt hel) hnot

theorem Inv.elected_of_chosen (hc : Chosen term quorum a t p) : a.elected t ≠ none := by
  intro hnone
  rcases hc with ⟨ackers, hackers, ha⟩
  rcases hmeet ackers ackers hackers hackers with ⟨n, hn, _⟩
  rcases ha n hn with ⟨hp, q, e, rfl, _⟩
  have hpre := hp.trans (hinv.acked_leader t n)
  rw [hinv.leader_none t hnone] at hpre
  simp at hpre

theorem Inv.committed_prefix_leaderLog {bound : Nat} {q : List α}
    (h : Committed term quorum a bound q) (hle : bound ≤ t) (hel : a.elected t ≠ none) :
    q <+: a.leaderLog t := by
  rcases h with rfl | ⟨t₀, p, ht, hp, hq⟩
  · exact nil_prefix
  · exact hq.trans (hinv.chosen_prefix_leaderLog hmeet hp (ht.trans hle) hel)

/-- Committed prefixes never disagree. -/
theorem Inv.committed_total {bound bound' : Nat} {q q' : List α}
    (h : Committed term quorum a bound q) (h' : Committed term quorum a bound' q') :
    q <+: q' ∨ q' <+: q := by
  rcases h with rfl | ⟨t, p, _, hp, hq⟩
  · exact .inl nil_prefix
  rcases h' with rfl | ⟨t', p', _, hp', hq'⟩
  · exact .inr nil_prefix
  -- both lie in the log of the later of the two leaders
  rcases Nat.le_total t t' with hle | hle
  · have hpre := hinv.chosen_prefix_leaderLog hmeet hp hle (hinv.elected_of_chosen hmeet hp')
    have hpre' := hinv.chosen_prefix_leaderLog hmeet hp' le_rfl (hinv.elected_of_chosen hmeet hp')
    exact prefix_or_prefix_of_prefix (hq.trans hpre) (hq'.trans hpre')
  · have hpre := hinv.chosen_prefix_leaderLog hmeet hp le_rfl (hinv.elected_of_chosen hmeet hp)
    have hpre' := hinv.chosen_prefix_leaderLog hmeet hp' hle (hinv.elected_of_chosen hmeet hp)
    exact prefix_or_prefix_of_prefix (hq.trans hpre) (hq'.trans hpre')

end

end Meet

/-- What steps of node `n` leave alone. -/
structure Frame (n : ι) (a a' : State ι α) : Prop extends Grows a a' where
  other_term : ∀ m, m ≠ n → a'.term m = a.term m
  other_log : ∀ m, m ≠ n → a'.log m = a.log m
  other_granted : ∀ t m, m ≠ n → a'.granted t m = a.granted t m
  other_elected : ∀ t m base, m ≠ n → a'.elected t = some (m, base) →
    a.elected t = some (m, base)
  other_leaderLog : ∀ t m base, m ≠ n → a.elected t = some (m, base) →
    a'.leaderLog t = a.leaderLog t

theorem Frame.refl (n : ι) (a : State ι α) : Frame n a a :=
  ⟨Grows.refl a, fun _ _ => rfl, fun _ _ => rfl, fun _ _ _ => rfl, fun _ _ _ _ h => h,
    fun _ _ _ _ _ => rfl⟩

theorem Frame.trans {b c : State ι α} (h : Frame n a b) (h' : Frame n b c) : Frame n a c where
  toGrows := h.toGrows.trans h'.toGrows
  other_term m hm := (h'.other_term m hm).trans (h.other_term m hm)
  other_log m hm := (h'.other_log m hm).trans (h.other_log m hm)
  other_granted t m hm := (h'.other_granted t m hm).trans (h.other_granted t m hm)
  other_elected t m base hm hel := h.other_elected t m base hm (h'.other_elected t m base hm hel)
  other_leaderLog t m base hm hel :=
    (h'.other_leaderLog t m base hm (h.elected _ _ hel)).trans (h.other_leaderLog t m base hm hel)

variable [DecidableEq ι]

theorem Step.frame (hinv : Inv term quorum a) (h : Step term quorum supply n a a') :
    Frame n a a' := by
  have hgrow := Step.grows hinv h
  have hset : ∀ {β : Type} (f : Nat → ι → β) (t : Nat) (v : β) t' m, m ≠ n →
      set₂ f t n v t' m = f t' m :=
    fun f t v t' m hm => set₂_of_ne f v fun hh => hm hh.2
  cases h with
  | advance _ =>
    exact { Frame.refl n a with
      toGrows := hgrow, other_term := fun m hm => update_of_ne hm _ _ }
  | stand _ _ _ | grant _ _ _ =>
    exact { Frame.refl n a with
      toGrows := hgrow, other_granted := fun t m hm => hset _ _ _ t m hm }
  | elect _ _ _ hnone =>
    refine { Frame.refl n a with toGrows := hgrow, other_elected := ?_, other_leaderLog := ?_ }
    · intro t m base hm hel
      by_cases ht : t = a.term n
      · rw [ht, show (a.elect n).elected (a.term n) = some (n, a.log n) from
          update_self ..] at hel
        cases hel
        exact absurd rfl hm
      · rwa [show (a.elect n).elected t = a.elected t from update_of_ne ht _ _] at hel
    · intro t m base hm hel
      refine update_of_ne ?_ _ _
      intro ht
      rw [ht, hnone] at hel
      cases hel
  | append helec _ _ _ _ =>
    refine { Frame.refl n a with
      toGrows := hgrow
      other_log := fun m hm => update_of_ne hm _ _
      other_leaderLog := ?_ }
    intro t m base hm hel
    refine update_of_ne ?_ _ _
    intro ht
    rw [ht, helec] at hel
    cases hel
    exact hm rfl
  | truncate _ _ _ | extend _ _ =>
    exact { Frame.refl n a with
      toGrows := hgrow, other_log := fun m hm => update_of_ne hm _ _ }
  | ack _ _ _ => exact { Frame.refl n a with toGrows := hgrow }

def NodeRun (term : α → Nat) (quorum : Finset ι → Prop) (supply : List α → List α → α → Prop)
    (n : ι) : State ι α → State ι α → Prop :=
  Relation.ReflTransGen (Step term quorum supply n)

section

variable (h : NodeRun term quorum supply n a a')
include h

theorem NodeRun.inv (hinv : Inv term quorum a) : Inv term quorum a' := by
  induction h with
  | refl => exact hinv
  | tail _ hs ih => exact hs.inv ih

theorem NodeRun.frame (hinv : Inv term quorum a) : Frame n a a' := by
  induction h with
  | refl => exact Frame.refl n a
  | tail hr hs ih => exact ih.trans (hs.frame (NodeRun.inv hr hinv))

theorem NodeRun.runs : (system term quorum).Runs a a' := by
  induction h with
  | refl => exact Relation.ReflTransGen.refl
  | tail _ hs ih => exact ih.tail ⟨n, supply, hs⟩

end

/-- `new` was written in term `t`, after `own` and one by one from what `supply` allows. -/
def Written (term : α → Nat) (supply : List α → List α → α → Prop) (t : Nat)
    (base own new : List α) : Prop :=
  ∀ p e, p ++ [e] <+: new → term e = t ∧ supply base (own ++ p) e

theorem Step.leaderLog_cases (h : Step term quorum supply n a a') :
    (a'.elected = a.elected ∧ a'.leaderLog = a.leaderLog) ∨
    (a.elected (a.term n) = none ∧ a' = a.elect n) ∨
    ∃ base own e, a.elected (a.term n) = some (n, base) ∧
      a.leaderLog (a.term n) = base ++ own ∧ a.log n = base ++ own ∧ term e = a.term n ∧
      supply base own e ∧ a' = a.append n e := by
  cases h with
  | elect _ _ _ hn => exact .inr (.inl ⟨hn, rfl⟩)
  | append he hl ht ho hs =>
    exact .inr (.inr ⟨_, _, _, he, ho, hl.trans ho, ht, hs, rfl⟩)
  | _ => exact .inl ⟨rfl, rfl⟩

/-- What node `n` leads at the end is what it led before and what was written since. -/
theorem NodeRun.written (h : NodeRun term quorum supply n a a') (hinv : Inv term quorum a)
    {base : List α} (hel : a'.elected t = some (n, base)) :
    ∃ own new, a'.leaderLog t = base ++ own ++ new ∧ Written term supply t base own new ∧
      (a.elected t = some (n, base) ∧ a.leaderLog t = base ++ own ∨
        a.elected t = none ∧ own = []) := by
  induction h with
  | refl =>
    rcases hinv.leader_base t n base hel with ⟨own, hown⟩
    exact ⟨own, [], by simp [hown], by simp [Written], .inl ⟨hel, hown.symm⟩⟩
  | @tail b c hrun hstep ih =>
    have hgrow := (NodeRun.frame hrun hinv).toGrows
    rcases hstep.leaderLog_cases with ⟨helec, hlog⟩ | ⟨hnone, rfl⟩ |
      ⟨base', own', e, helec, hown', hlog, hterm, hsup, rfl⟩
    · rw [helec] at hel
      rw [hlog]
      exact ih hel
    · by_cases ht : t = b.term n
      · subst ht
        have hself : (b.elect n).elected (b.term n) = some (n, b.log n) :=
          update_self ..
        have hlead : (b.elect n).leaderLog (b.term n) = b.log n := update_self ..
        rw [hself] at hel
        cases hel
        have hnone' : a.elected (b.term n) = none := by
          rcases hb : a.elected (b.term n) with _ | x
          · rfl
          · rw [hgrow.elected _ x hb] at hnone
            cases hnone
        exact ⟨[], [], by simp [hlead], by simp [Written], .inr ⟨hnone', rfl⟩⟩
      · have hoth : (b.elect n).elected t = b.elected t := update_of_ne ht _ _
        have hlead : (b.elect n).leaderLog t = b.leaderLog t := update_of_ne ht _ _
        rw [hoth] at hel
        rw [hlead]
        exact ih hel
    · have hel' : b.elected t = some (n, base) := hel
      rcases ih hel' with ⟨own, new, hlead, hwr, hpre⟩
      by_cases ht : t = b.term n
      · subst ht
        rw [hel'] at helec
        cases helec
        rw [hown', append_assoc] at hlead
        have hown'' : own' = own ++ new := append_cancel_left hlead
        have hlead' : (b.append n e).leaderLog (b.term n) = b.log n ++ [e] :=
          update_self ..
        refine ⟨own, new ++ [e], ?_, ?_, hpre⟩
        · rw [hlead', hlog, hown'']
          simp
        · intro p x hp
          rcases concat_prefix_concat hp with hold | ⟨rfl, rfl⟩
          · exact hwr p x hold
          · rw [← hown'']
            exact ⟨hterm, hsup⟩
      · have hlead' : (b.append n e).leaderLog t = b.leaderLog t :=
          update_of_ne ht _ _
        rw [hlead']
        exact ⟨own, new, hlead, hwr, hpre⟩

theorem NodeRun.term_le (h : NodeRun term quorum supply n a a') (hinv : Inv term quorum a)
    (hne : a'.leaderLog t ≠ a.leaderLog t) : a.term n ≤ t := by
  induction h with
  | refl => exact absurd rfl hne
  | @tail b c hr hs ih =>
    by_cases hlt : t = b.term n
    · rw [hlt]
      exact (NodeRun.frame hr hinv).term n
    · have hsame : c.leaderLog t = b.leaderLog t := by
        rcases hs.leaderLog_cases with ⟨_, hl⟩ | ⟨_, rfl⟩ | ⟨_, _, _, _, _, _, _, _, rfl⟩
        · rw [hl]
        · exact update_of_ne hlt _ _
        · exact update_of_ne hlt _ _
      exact ih (by rwa [hsame] at hne)

theorem grows_of_runs (h : (system term quorum).Runs a a') (hinv : Inv term quorum a) :
    Grows a a' := by
  have hb : Inv term quorum a' ∧ Grows a a' := by
    induction h with
    | refl => exact ⟨hinv, Grows.refl a⟩
    | tail _ hs ih =>
      rcases hs with ⟨n, supply, hs⟩
      exact ⟨hs.inv ih.1, ih.2.trans (Step.grows ih.1 hs)⟩
  exact hb.2

theorem AckedHeld.setLog {log : List α} (h : AckedHeld a) (hl : a.acked (a.term n) n <+: log) :
    AckedHeld (a.setLog n log) := by
  intro m
  show a.acked (a.term m) m <+: update a.log n log m
  by_cases hm : m = n
  · subst hm
    rwa [update_self]
  · rw [update_of_ne hm]
    exact h m

theorem Step.ackedHeld (hstep : Step term quorum supply n a a') (hinv : Inv term quorum a)
    (h : AckedHeld a) : AckedHeld a' := by
  cases hstep with
  | @advance t hterm =>
    intro m
    show a.acked (update a.term n t m) m <+: a.log m
    by_cases hm : m = n
    · subst hm
      rw [update_self]
      -- nothing is acknowledged in a term that was not reached
      by_contra hnot
      have hne : a.acked t m ≠ [] := by
        rintro hnil
        exact hnot (hnil ▸ nil_prefix)
      have := hinv.acked_term t m hne
      omega
    · rw [update_of_ne hm]
      exact h m
  | stand | grant | elect => exact h
  | append => exact AckedHeld.setLog h ((h n).trans (prefix_append _ _))
  | @truncate p x y hx hy hconf =>
    refine AckedHeld.setLog h ?_
    have hp : p <+: a.log n := (prefix_append _ _).trans hx
    rcases Nat.lt_or_ge p.length (a.acked (a.term n) n).length with hlt | hle
    · have hx' : p ++ [x] <+: a.acked (a.term n) n :=
        prefix_of_prefix_length_le hx (h n) (by simp; omega)
      have hy' : p ++ [y] <+: a.acked (a.term n) n :=
        prefix_of_prefix_length_le hy (hinv.acked_leader _ n) (by simp; omega)
      have heq := (prefix_of_prefix_length_le hx' hy' (by simp)).eq_of_length (by simp)
      exact absurd (congrArg term (by simpa using heq)) hconf
    · exact prefix_of_prefix_length_le (h n) hp hle
  | extend hlog _ => exact AckedHeld.setLog h ((h n).trans hlog)
  | @ack p hlog _ _ =>
    intro m
    show set₂ a.acked (a.term n) n p (a.term m) m <+: a.log m
    by_cases hm : a.term m = a.term n ∧ m = n
    · rw [hm.1, hm.2, set₂_self]
      exact hlog
    · rw [set₂_of_ne _ _ hm]
      exact h m

theorem NodeRun.ackedHeld (hr : NodeRun term quorum supply n a a') (hinv : Inv term quorum a)
    (h : AckedHeld a) : AckedHeld a' := by
  induction hr with
  | refl => exact h
  | tail hr hs ih => exact hs.ackedHeld (NodeRun.inv hr hinv) ih

theorem ackedHeld_of_reachable (h : (system term quorum).Reachable a) : AckedHeld a := by
  have hb : Inv term quorum a ∧ AckedHeld a := by
    refine Transition.System.Reachable.invariant (fun a => Inv term quorum a ∧ AckedHeld a) ?_ ?_ h
    · intro a₀ h₀
      rw [show a₀ = State.initial from h₀]
      exact ⟨Inv.initial, fun _ => prefix_rfl⟩
    · rintro a₀ a₁ ⟨hinv, hh⟩ ⟨n, supply, hs⟩
      exact ⟨hs.inv hinv, hs.ackedHeld hinv hh⟩
  exact hb.2

end Consensus
