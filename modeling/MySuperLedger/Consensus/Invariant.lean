import MySuperLedger.Consensus.Protocol

/-! # The inductive invariant

`Inv` collects what every reachable state of the protocol satisfies. Most fields
say where an entry comes from: an entry of term `t` sits in every log at the
place, and behind the same prefix, where the leader of `t` wrote it. The last
three fields carry leader completeness: what happens to an acknowledged prefix
at a node that moves on, in a vote, and in an election.
-/

namespace Consensus

open Transition List Option Function

variable {ι α : Type} {term : α → Nat} {quorum : Finset ι → Prop}

/-- Every entry of the log stands where the leader of its term wrote it. -/
def Matches (term : α → Nat) (a : State ι α) (log : List α) : Prop :=
  ∀ p e, p ++ [e] <+: log → a.elected (term e) ≠ none ∧ p ++ [e] <+: a.leaderLog (term e)

/-- The log holds `p`, or a leader of a term strictly between was elected without it. -/
def Covers (a : State ι α) (t bound : Nat) (p log : List α) : Prop :=
  p <+: log ∨ ∃ t' c base, t < t' ∧ t' < bound ∧ a.elected t' = some (c, base) ∧ ¬ p <+: base

/-- The node has acknowledged `p`, and `p` ends with an entry of the leader's own term. -/
def AckedTo (term : α → Nat) (a : State ι α) (t : Nat) (n : ι) (p : List α) : Prop :=
  p <+: a.acked t n ∧ ∃ q e, p = q ++ [e] ∧ term e = t

structure Inv (term : α → Nat) (quorum : Finset ι → Prop) (a : State ι α) : Prop where
  log_matches : ∀ n, Matches term a (a.log n)
  leader_matches : ∀ t, Matches term a (a.leaderLog t)
  cand_matches : ∀ t c log, a.cand t c = some log → Matches term a log
  leader_none : ∀ t, a.elected t = none → a.leaderLog t = []
  leader_base : ∀ t c base, a.elected t = some (c, base) → base <+: a.leaderLog t
  leader_entry : ∀ t c base p e, a.elected t = some (c, base) → p ++ [e] <+: a.leaderLog t →
    (term e < t ∧ p ++ [e] <+: base) ∨ (term e = t ∧ base <+: p)
  log_term : ∀ n, ∀ e ∈ a.log n, term e ≤ a.term n
  cand_term : ∀ t c log, a.cand t c = some log → t ≤ a.term c ∧ ∀ e ∈ log, term e < t
  granted_term : ∀ t n c, a.granted t n = some c → t ≤ a.term n ∧ a.cand t c ≠ none
  elected_cand : ∀ t c base, a.elected t = some (c, base) → a.cand t c = some base
  acked_term : ∀ t n, a.acked t n ≠ [] → t ≤ a.term n
  acked_leader : ∀ t n, a.acked t n <+: a.leaderLog t
  acked_log : ∀ t n p, AckedTo term a t n p → Covers a t (a.term n + 1) p (a.log n)
  vote_covers : ∀ t' n c log, a.elected t' = none → a.granted t' n = some c →
    a.cand t' c = some log → ∀ t p, t < t' → AckedTo term a t n p → Covers a t t' p log
  elected_covers : ∀ t' c base, a.elected t' = some (c, base) → ∃ voters, quorum voters ∧
    ∀ n ∈ voters, a.granted t' n = some c ∧
      ∀ t p, t < t' → AckedTo term a t n p → Covers a t t' p base

theorem Inv.initial : Inv term quorum (State.initial : State ι α) := by
  constructor <;> simp [State.initial, Matches, AckedTo]

section Facts

variable {a : State ι α} {log log' : List α} {t : Nat} {p : List α} {e : α}

theorem Matches.of_isPrefix (h : Matches term a log) (hpre : log' <+: log) : Matches term a log' :=
  fun p e hp => h p e (hp.trans hpre)

theorem Covers.mono_bound {bound bound' : Nat} (h : Covers a t bound p log) (hle : bound ≤ bound') :
    Covers a t bound' p log := by
  rcases h with h | ⟨t', c, base, hlt, hb, he, hp⟩
  · exact .inl h
  · exact .inr ⟨t', c, base, hlt, by omega, he, hp⟩

/-- Two entries of one term at one place are the same, and so is all before them. -/
theorem Matches.eq_of_term_eq {p' : List α} {e' : α} (h : Matches term a log)
    (h' : Matches term a log') (hp : p ++ [e] <+: log) (hp' : p' ++ [e'] <+: log')
    (ht : term e = term e') (hl : p.length = p'.length) : p ++ [e] = p' ++ [e'] := by
  have hle := (h p e hp).2
  have hle' := (h' p' e' hp').2
  rw [← ht] at hle'
  have hpre := prefix_of_prefix_length_le hle hle' (by simp [hl])
  exact hpre.eq_of_length (by simp [hl])

theorem Inv.elected_term_le (hinv : Inv term quorum a) {c : ι} {base : List α}
    (hel : a.elected t = some (c, base)) : t ≤ a.term c :=
  (hinv.cand_term _ _ _ (hinv.elected_cand _ _ _ hel)).1

theorem Inv.leader_term (hinv : Inv term quorum a) (hp : p ++ [e] <+: a.leaderLog t) :
    term e ≤ t := by
  rcases hel : a.elected t with _ | ⟨c, base⟩
  · rw [hinv.leader_none t hel] at hp
    simp at hp
  · rcases hinv.leader_entry t c base p e hel hp with h | h
    · omega
    · omega

variable {x : α}

section

variable (hinv : Inv term quorum a)
include hinv

theorem Inv.term_le_of_isPrefix (hl : Matches term a log)
    (hp : p ++ [e] <+: log) (hx : x ∈ p) : term x ≤ term e := by
  rcases exists_concat_isPrefix hx with ⟨q, hq⟩
  have hpre : q ++ [x] <+: p ++ [e] := hq.trans (prefix_append p [e])
  exact hinv.leader_term (hpre.trans (hl p e hp).2)

theorem Inv.term_le_lastTerm (hl : Matches term a log) (hx : x ∈ log) :
    term x ≤ lastTerm term log := by
  rcases eq_nil_or_concat' log with rfl | ⟨p, e, rfl⟩
  · simp at hx
  · rw [lastTerm_concat]
    rcases mem_append.mp hx with h | h
    · exact hinv.term_le_of_isPrefix hl (prefix_refl _) h
    · rw [mem_singleton.mp h]

/-- A vote passes an acknowledged prefix on to the candidate's log. -/
theorem Inv.covers_of_upToDate {t' : Nat} {q : List α}
    (hlog : Matches term a log) (hlog' : Matches term a log') (hbel : ∀ x ∈ log', term x < t')
    (hup : UpToDate term log' log) (hp : q ++ [e] <+: log) (hterm : term e = t) :
    Covers a t t' (q ++ [e]) log' := by
  have hmem : e ∈ log := hp.subset (by simp)
  have hle : t ≤ lastTerm term log := hterm ▸ hinv.term_le_lastTerm hlog hmem
  rcases eq_nil_or_concat' log' with rfl | ⟨q', e', rfl⟩
  · -- an empty log is up to date only with an empty one
    have hlen := hp.length_le
    unfold UpToDate at hup
    rw [lastTerm_nil, length_nil] at hup
    rw [length_append, length_singleton] at hlen
    omega
  have hle' : t ≤ term e' := by
    unfold UpToDate at hup
    rw [lastTerm_concat] at hup
    omega
  have hmat' := hlog' q' e' (prefix_refl _)
  rcases Nat.eq_or_lt_of_le hle' with heq | hlt
  · -- both logs end in term `t`: they are prefixes of one leader's log
    have hlast : log.length ≤ (q' ++ [e']).length := by
      unfold UpToDate at hup
      rw [lastTerm_concat] at hup
      rcases hup with h | h
      · omega
      · exact h.2
    have hpre := (hlog q e hp).2
    have hpre' := hmat'.2
    rw [hterm] at hpre
    rw [← heq] at hpre'
    exact .inl (prefix_of_prefix_length_le hpre hpre' (hp.length_le.trans hlast))
  · rcases hel : a.elected (term e') with _ | ⟨c, base⟩
    · exact absurd hel hmat'.1
    by_cases hbase : q ++ [e] <+: base
    · have hbase' : base <+: q' := by
        rcases hinv.leader_entry _ c base q' e' hel hmat'.2 with h | h
        · omega
        · exact h.2
      exact .inl (hbase.trans (hbase'.trans (prefix_append _ _)))
    · exact .inr ⟨term e', c, base, hlt, hbel e' (by simp), hel, hbase⟩

/-- What a node acknowledged in earlier terms is in its log when it votes, or a leader
elected since then lacks it. -/
theorem Inv.covers_at_vote {n : ι} (hn : a.elected (a.term n) = none)
    (hp : AckedTo term a t n p) : Covers a t (a.term n) p (a.log n) := by
  rcases hinv.acked_log t n p hp with hin | ⟨t', c, base, hlt, hbd, hel, hb⟩
  · exact .inl hin
  · -- the term of the vote itself has no leader yet
    have hne : t' ≠ a.term n := by
      intro hh
      rw [hh] at hel
      exact some_ne_none _ (hel.symm.trans hn)
    exact .inr ⟨t', c, base, hlt, by omega, hel, hb⟩

end

end Facts

/-- Votes, candidacies, elections and acknowledgements are kept, and leaders only append. -/
structure Grows (a a' : State ι α) : Prop where
  term : ∀ n, a.term n ≤ a'.term n
  granted : ∀ t n c, a.granted t n = some c → a'.granted t n = some c
  cand : ∀ t c log, a.cand t c = some log → a'.cand t c = some log
  elected : ∀ t x, a.elected t = some x → a'.elected t = some x
  leaderLog : ∀ t, a.leaderLog t <+: a'.leaderLog t
  acked : ∀ t n, a.acked t n <+: a'.acked t n

theorem Grows.refl (a : State ι α) : Grows a a :=
  ⟨fun _ => le_rfl, fun _ _ _ h => h, fun _ _ _ h => h, fun _ _ h => h,
    fun _ => prefix_refl _, fun _ _ => prefix_refl _⟩

variable {a a' : State ι α} {log : List α}

theorem Grows.trans {b c : State ι α} (h : Grows a b) (h' : Grows b c) : Grows a c where
  term n := (h.term n).trans (h'.term n)
  granted t n x hx := h'.granted t n x (h.granted t n x hx)
  cand t x log hx := h'.cand t x log (h.cand t x log hx)
  elected t x hx := h'.elected t x (h.elected t x hx)
  leaderLog t := (h.leaderLog t).trans (h'.leaderLog t)
  acked t n := (h.acked t n).trans (h'.acked t n)

theorem Matches.mono (h : Matches term a log) (hg : Grows a a') : Matches term a' log := by
  intro p e hp
  have hm := h p e hp
  refine ⟨?_, hm.2.trans (hg.leaderLog _)⟩
  rcases hel : a.elected (term e) with _ | x
  · exact absurd hel hm.1
  · rw [hg.elected _ x hel]
    exact some_ne_none x

variable {t bound : Nat} {p : List α}

theorem Covers.mono (h : Covers a t bound p log) (hg : Grows a a') : Covers a' t bound p log := by
  rcases h with h | ⟨t', c, base, hlt, hb, he, hp⟩
  · exact .inl h
  · exact .inr ⟨t', c, base, hlt, hb, hg.elected _ _ he, hp⟩

theorem Covers.mono_log {log' : List α} (h : Covers a t bound p log) (hl : log <+: log') :
    Covers a t bound p log' :=
  h.imp_left fun hp => hp.trans hl

variable [DecidableEq ι]

theorem Step.grows {supply : List α → List α → α → Prop} {n : ι} (hinv : Inv term quorum a)
    (h : Step term quorum supply n a a') : Grows a a' := by
  -- a step that votes, stands or elects finds its place free, so nothing is overwritten
  cases h with
  | @advance t ht =>
    refine { Grows.refl a with term := ?_ }
    intro m
    show a.term m ≤ update a.term n t m
    by_cases hm : m = n
    · rw [hm, update_self]
      omega
    · rw [update_of_ne hm]
  | stand hfree hnew hbel =>
    refine { Grows.refl a with granted := ?_, cand := ?_ }
    · intro t m c hg
      refine (set₂_of_ne _ _ ?_).trans hg
      intro hh
      rw [hh.1, hh.2, hfree] at hg
      cases hg
    · intro t c log hc
      refine (set₂_of_ne _ _ ?_).trans hc
      intro hh
      rw [hh.1, hh.2, hnew] at hc
      cases hc
  | @grant c log hcand hfree hlog =>
    refine { Grows.refl a with granted := ?_ }
    intro t' m c' hg
    show set₂ a.granted (a.term n) n (some c) t' m = some c'
    by_cases hh : t' = a.term n ∧ m = n
    · rw [hh.1, hh.2] at hg ⊢
      rw [set₂_self]
      rcases hfree with hf | hf
      · rw [hf] at hg
        cases hg
      · rw [← hf, hg]
    · rw [set₂_of_ne _ _ hh, hg]
  | @elect voters hquo hvot hcand hnone =>
    refine { Grows.refl a with elected := ?_, leaderLog := ?_ }
    · intro t x hx
      refine (update_of_ne ?_ _ _).trans hx
      intro hh
      rw [hh, hnone] at hx
      cases hx
    · intro t
      show a.leaderLog t <+: update a.leaderLog (a.term n) (a.log n) t
      by_cases hh : t = a.term n
      · rw [hh, update_self, hinv.leader_none _ hnone]
        exact nil_prefix
      · rw [update_of_ne hh]
  | @append base own e helec hlog _ _ _ =>
    refine { Grows.refl a with leaderLog := ?_ }
    intro t
    show a.leaderLog t <+: update a.leaderLog (a.term n) (a.log n ++ [e]) t
    by_cases hh : t = a.term n
    · rw [hh, update_self, hlog]
      exact prefix_append _ _
    · rw [update_of_ne hh]
  | truncate hx hy hconf | extend hlog hlead => exact { Grows.refl a with }
  | @ack p hlog hlead hlon =>
    refine { Grows.refl a with acked := ?_ }
    intro t m
    show a.acked t m <+: set₂ a.acked (a.term n) n p t m
    by_cases hh : t = a.term n ∧ m = n
    · rw [hh.1, hh.2, set₂_self]
      exact hlon
    · rw [set₂_of_ne _ _ hh]

section Steps

variable {a : State ι α} {n : ι}

section

variable (hinv : Inv term quorum a)
include hinv

theorem Inv.advance {t : Nat} (ht : a.term n < t) : Inv term quorum (a.advance n t) := by
  have hs : Step term quorum (fun _ _ _ => True) n a (a.advance n t) := .advance ht
  have hgrow := Step.grows hinv hs
  have hle := hgrow.term
  exact { hinv with
    log_term := fun m e he => (hinv.log_term m e he).trans (hle m)
    cand_term := fun t' c log hc =>
      ⟨(hinv.cand_term t' c log hc).1.trans (hle c), (hinv.cand_term t' c log hc).2⟩
    granted_term := fun t' m c hg =>
      ⟨(hinv.granted_term t' m c hg).1.trans (hle m), (hinv.granted_term t' m c hg).2⟩
    acked_term := fun t' m hne => (hinv.acked_term t' m hne).trans (hle m)
    acked_log := fun t' m p hp =>
      (hinv.acked_log t' m p hp).mono_bound (Nat.succ_le_succ (hle m)) }

theorem Inv.stand (hfree : a.granted (a.term n) n = none)
    (hnew : a.cand (a.term n) n = none) (hbel : ∀ e ∈ a.log n, term e < a.term n) :
    Inv term quorum (a.stand n) := by
  have hstep : Step term quorum (fun _ _ _ => True) n a (a.stand n) := .stand hfree hnew hbel
  have hgrow := Step.grows hinv hstep
  have hgr : ∀ t m c, (a.stand n).granted t m = some c →
      (t = a.term n ∧ m = n ∧ c = n) ∨ a.granted t m = some c :=
    fun _ _ _ => set₂_eq_some
  have hcand : ∀ t c log, (a.stand n).cand t c = some log →
      (t = a.term n ∧ c = n ∧ log = a.log n) ∨ a.cand t c = some log :=
    fun _ _ _ => set₂_eq_some
  have hcand_self := a.stand_cand n
  refine { hinv with
    cand_matches := ?_, cand_term := ?_, granted_term := ?_, elected_cand := ?_
    vote_covers := ?_, elected_covers := ?_ }
  · intro t c log hc
    rcases hcand t c log hc with ⟨_, _, rfl⟩ | hc
    · exact hinv.log_matches n
    · exact hinv.cand_matches t c log hc
  · intro t c log hc
    rcases hcand t c log hc with ⟨rfl, rfl, rfl⟩ | hc
    · exact ⟨le_rfl, hbel⟩
    · exact hinv.cand_term t c log hc
  · intro t m c hg
    rcases hgr t m c hg with ⟨rfl, rfl, rfl⟩ | hg
    · exact ⟨le_rfl, by rw [hcand_self]; exact some_ne_none _⟩
    · refine ⟨(hinv.granted_term t m c hg).1, ?_⟩
      rcases hc : a.cand t c with _ | log
      · exact absurd hc (hinv.granted_term t m c hg).2
      · rw [hgrow.cand t c log hc]
        exact some_ne_none _
  · exact fun t c base hel => hgrow.cand _ _ _ (hinv.elected_cand t c base hel)
  · intro t m c log hnone hg hc t₀ p hlt hp
    rcases hgr t m c hg with ⟨rfl, rfl, rfl⟩ | hg₀
    · rw [hcand_self] at hc
      cases hc
      exact hinv.covers_at_vote hnone hp
    · rcases hcand t c log hc with ⟨rfl, rfl, rfl⟩ | hc
      · exact absurd hnew (hinv.granted_term _ m c hg₀).2
      · exact hinv.vote_covers t m c log hnone hg₀ hc t₀ p hlt hp
  · intro t c base hel
    rcases hinv.elected_covers t c base hel with ⟨voters, hq, hv⟩
    exact ⟨voters, hq, fun m hm => ⟨hgrow.granted _ _ _ (hv m hm).1, (hv m hm).2⟩⟩

theorem Inv.grant {c : ι} {log : List α} (hcand : a.cand (a.term n) c = some log)
    (hfree : a.granted (a.term n) n = none ∨ a.granted (a.term n) n = some c)
    (hlog : UpToDate term log (a.log n)) : Inv term quorum (a.grant n c) := by
  have hstep : Step term quorum (fun _ _ _ => True) n a (a.grant n c) := .grant hcand hfree hlog
  have hgrow := Step.grows hinv hstep
  have hgr : ∀ t' m c', (a.grant n c).granted t' m = some c' →
      (t' = a.term n ∧ m = n ∧ c' = c) ∨ a.granted t' m = some c' :=
    fun _ _ _ => set₂_eq_some
  refine { hinv with granted_term := ?_, vote_covers := ?_, elected_covers := ?_ }
  · intro t' m c' hg
    rcases hgr t' m c' hg with ⟨rfl, rfl, rfl⟩ | hg
    · exact ⟨le_rfl, by rw [show (a.grant m c').cand = a.cand from rfl, hcand]; simp⟩
    · exact hinv.granted_term t' m c' hg
  · intro t' m c' log' hnone hg hc t₀ p hlt hp
    rcases hgr t' m c' hg with ⟨rfl, rfl, rfl⟩ | hg
    · have hlog' : log' = log := by
        have hc' : a.cand (a.term m) c' = some log' := hc
        rw [hcand] at hc'
        exact (some.inj hc').symm
      subst hlog'
      rcases hp.2 with ⟨q, e, rfl, hterm⟩
      rcases hinv.covers_at_vote hnone hp with hin | hout
      · exact hinv.covers_of_upToDate (hinv.log_matches m) (hinv.cand_matches _ _ _ hcand)
          (hinv.cand_term _ _ _ hcand).2 hlog hin hterm
      · exact .inr hout
    · exact hinv.vote_covers t' m c' log' hnone hg hc t₀ p hlt hp
  · intro t' c' base hel
    rcases hinv.elected_covers t' c' base hel with ⟨voters, hq, hv⟩
    exact ⟨voters, hq, fun m hm => ⟨hgrow.granted _ _ _ (hv m hm).1, (hv m hm).2⟩⟩

theorem Inv.elect {voters : Finset ι} (hquo : quorum voters)
    (hvot : ∀ m ∈ voters, a.granted (a.term n) m = some n)
    (hcand : a.cand (a.term n) n = some (a.log n)) (hnone : a.elected (a.term n) = none) :
    Inv term quorum (a.elect n) := by
  have hstep : Step term quorum (fun _ _ _ => True) n a (a.elect n) := .elect hquo hvot hcand hnone
  have hgrow := Step.grows hinv hstep
  have hoth : ∀ t, t ≠ a.term n →
      (a.elect n).elected t = a.elected t ∧ (a.elect n).leaderLog t = a.leaderLog t :=
    fun t ht => ⟨update_of_ne ht _ _, update_of_ne ht _ _⟩
  have hself : (a.elect n).elected (a.term n) = some (n, a.log n) := update_self ..
  have hselfLog : (a.elect n).leaderLog (a.term n) = a.log n := update_self ..
  -- a leader of the new state is the one elected here or one there was before
  have hcases : ∀ t c base, (a.elect n).elected t = some (c, base) →
      (t = a.term n ∧ n = c ∧ a.log n = base) ∨
        (a.elected t = some (c, base) ∧ (a.elect n).leaderLog t = a.leaderLog t) := by
    intro t c base hel
    by_cases ht : t = a.term n
    · rw [ht, hself] at hel
      cases hel
      exact .inl ⟨ht, rfl, rfl⟩
    · rw [(hoth t ht).1] at hel
      exact .inr ⟨hel, (hoth t ht).2⟩
  refine
    { log_matches := fun m => (hinv.log_matches m).mono hgrow
      leader_matches := ?_
      cand_matches := fun t c log hc => (hinv.cand_matches t c log hc).mono hgrow
      leader_none := ?_, leader_base := ?_, leader_entry := ?_
      log_term := hinv.log_term, cand_term := hinv.cand_term
      granted_term := hinv.granted_term
      elected_cand := ?_
      acked_term := hinv.acked_term
      acked_leader := fun t m => (hinv.acked_leader t m).trans (hgrow.leaderLog t)
      acked_log := fun t m p hp => (hinv.acked_log t m p hp).mono hgrow
      vote_covers := ?_, elected_covers := ?_ }
  · intro t
    by_cases ht : t = a.term n
    · rw [ht, hselfLog]
      exact (hinv.log_matches n).mono hgrow
    · rw [(hoth t ht).2]
      exact (hinv.leader_matches t).mono hgrow
  · intro t hel
    by_cases ht : t = a.term n
    · rw [ht, hself] at hel
      cases hel
    · rw [(hoth t ht).1] at hel
      rw [(hoth t ht).2]
      exact hinv.leader_none t hel
  · intro t c base hel
    rcases hcases t c base hel with ⟨rfl, rfl, rfl⟩ | ⟨hel, hl⟩
    · rw [hselfLog]
    · rw [hl]
      exact hinv.leader_base t c base hel
  · intro t c base p e hel hp
    rcases hcases t c base hel with ⟨rfl, rfl, rfl⟩ | ⟨hel, hl⟩
    · rw [hselfLog] at hp
      exact .inl ⟨(hinv.cand_term _ _ _ hcand).2 e (hp.subset (by simp)), hp⟩
    · rw [hl] at hp
      exact hinv.leader_entry t c base p e hel hp
  · intro t c base hel
    rcases hcases t c base hel with ⟨rfl, rfl, rfl⟩ | ⟨hel, -⟩
    · exact hcand
    · exact hinv.elected_cand t c base hel
  · intro t' m c log hel hg hc t p hlt hp
    have ht : t' ≠ a.term n := by
      intro ht
      rw [ht, hself] at hel
      cases hel
    rw [(hoth t' ht).1] at hel
    exact (hinv.vote_covers t' m c log hel hg hc t p hlt hp).mono hgrow
  · intro t' c base hel
    rcases hcases t' c base hel with ⟨rfl, rfl, rfl⟩ | ⟨hel, -⟩
    · -- each vote was given to a log with all that its voter had acknowledged
      refine ⟨voters, hquo, fun m hm => ⟨hvot m hm, ?_⟩⟩
      intro t p hlt hp
      exact (hinv.vote_covers _ m n _ hnone (hvot m hm) hcand t p hlt hp).mono hgrow
    · rcases hinv.elected_covers t' c base hel with ⟨voters', hq, hv⟩
      exact ⟨voters', hq, fun m hm => ⟨(hv m hm).1,
        fun t p hlt hp => ((hv m hm).2 t p hlt hp).mono hgrow⟩⟩

/-- A new log for one node that comes from leaders and keeps what was acknowledged. -/
theorem Inv.setLog (hmat : Matches term a log) (hterm : ∀ e ∈ log, term e ≤ a.term n)
    (hack : ∀ t p, AckedTo term a t n p → Covers a t (a.term n + 1) p log) :
    Inv term quorum (a.setLog n log) := by
  have hself : (a.setLog n log).log n = log := update_self ..
  have hoth : ∀ m, m ≠ n → (a.setLog n log).log m = a.log m :=
    fun m hm => update_of_ne hm _ _
  refine { hinv with log_matches := ?_, log_term := ?_, acked_log := ?_ }
  · intro m
    by_cases hm : m = n
    · rw [hm, hself]
      exact hmat
    · rw [hoth m hm]
      exact hinv.log_matches m
  · intro m e he
    by_cases hm : m = n
    · rw [hm, hself] at he
      rw [hm]
      exact hterm e he
    · rw [hoth m hm] at he
      exact hinv.log_term m e he
  · intro t m p hp
    by_cases hm : m = n
    · rw [hm] at hp ⊢
      rw [hself]
      exact hack t p hp
    · rw [hoth m hm]
      exact hinv.acked_log t m p hp

theorem Inv.extend (hlog : a.log n <+: log)
    (hl : log <+: a.leaderLog (a.term n)) : Inv term quorum (a.setLog n log) := by
  refine hinv.setLog ((hinv.leader_matches _).of_isPrefix hl) ?_ ?_
  · intro e he
    rcases exists_concat_isPrefix he with ⟨p, hp⟩
    exact hinv.leader_term (hp.trans hl)
  · exact fun t p hp => (hinv.acked_log t n p hp).mono_log hlog

theorem Inv.truncate {p : List α} {x y : α}
    (hx : p ++ [x] <+: a.log n) (hy : p ++ [y] <+: a.leaderLog (a.term n))
    (hconf : term x ≠ term y) : Inv term quorum (a.setLog n p) := by
  have hpre : p <+: a.log n := (prefix_append p [x]).trans hx
  have hnot : ¬ p ++ [x] <+: a.leaderLog (a.term n) := by
    intro hx'
    have heq := (prefix_of_prefix_length_le hx' hy (by simp)).eq_of_length (by simp)
    rw [append_cancel_left_eq, singleton_inj] at heq
    exact hconf (by rw [heq])
  refine hinv.setLog ((hinv.log_matches n).of_isPrefix hpre)
    (fun e he => hinv.log_term n e (hpre.subset he)) ?_
  intro t q hq
  rcases hinv.acked_log t n q hq with hin | hout
  · by_cases hle : q.length ≤ p.length
    · exact .inl (prefix_of_prefix_length_le hin hpre hle)
    -- the acknowledged prefix reaches past the conflict, so this leader lacks it
    have hxq : p ++ [x] <+: q :=
      prefix_of_prefix_length_le hx hin (by simp; omega)
    have hne : a.acked t n ≠ [] := by
      intro hnil
      have := (hxq.trans hq.1).length_le
      rw [hnil] at this
      simp at this
    have hlt : t < a.term n := by
      refine lt_of_le_of_ne (hinv.acked_term t n hne) ?_
      intro ht
      exact hnot (ht ▸ hxq.trans (hq.1.trans (hinv.acked_leader t n)))
    rcases hel : a.elected (a.term n) with _ | ⟨c, base⟩
    · rw [hinv.leader_none _ hel] at hy
      simp at hy
    · refine .inr ⟨a.term n, c, base, hlt, Nat.lt_succ_self _, hel, ?_⟩
      exact fun hbase => hnot (hxq.trans (hbase.trans (hinv.leader_base _ c base hel)))
  · exact .inr hout

omit [DecidableEq ι] in
/-- The leader of a term has one more entry to hand out. -/
theorem Inv.lead {c : ι} {t : Nat} {base : List α} {e : α} (helec : a.elected t = some (c, base))
    (hterm : term e = t) :
    Inv term quorum { a with leaderLog := update a.leaderLog t (a.leaderLog t ++ [e]) } := by
  have hself : update a.leaderLog t (a.leaderLog t ++ [e]) t = a.leaderLog t ++ [e] :=
    update_self ..
  have hother : ∀ t', t' ≠ t →
      update a.leaderLog t (a.leaderLog t ++ [e]) t' = a.leaderLog t' :=
    fun t' ht => update_of_ne ht _ _
  have hgrow : Grows a { a with leaderLog := update a.leaderLog t (a.leaderLog t ++ [e]) } := by
    refine { Grows.refl a with leaderLog := fun t' => ?_ }
    by_cases ht : t' = t
    · simp only [ht, hself]
      exact prefix_append _ _
    · simp only [hother t' ht, prefix_refl]
  refine { hinv with
    log_matches := fun m => (hinv.log_matches m).mono hgrow
    leader_matches := ?_
    cand_matches := fun t' c log hc => (hinv.cand_matches t' c log hc).mono hgrow
    leader_none := ?_
    leader_base := fun t' c b hel => (hinv.leader_base t' c b hel).trans (hgrow.leaderLog t')
    leader_entry := ?_
    acked_leader := fun t' m => (hinv.acked_leader t' m).trans (hgrow.leaderLog t') }
  · intro t' p x hp
    by_cases ht : t' = t
    · simp only [ht, hself] at hp
      rcases concat_prefix_concat hp with hp | ⟨rfl, rfl⟩
      · exact (hinv.leader_matches t).mono hgrow p x hp
      · simp only [hterm, hself, helec]
        exact ⟨some_ne_none _, prefix_refl _⟩
    · simp only [hother t' ht] at hp
      exact (hinv.leader_matches t').mono hgrow p x hp
  · intro t' hel
    have ht : t' ≠ t := by
      intro ht
      rw [ht] at hel
      exact some_ne_none _ (helec.symm.trans hel)
    exact (hother t' ht).trans (hinv.leader_none t' hel)
  · intro t' c b p x hel hp
    by_cases ht : t' = t
    · subst ht
      simp only [hself] at hp
      rcases concat_prefix_concat hp with hp | ⟨rfl, rfl⟩
      · exact hinv.leader_entry _ c b p x hel hp
      · exact .inr ⟨hterm, hinv.leader_base _ c b hel⟩
    · simp only [hother t' ht] at hp
      exact hinv.leader_entry t' c b p x hel hp

theorem Inv.append {base : List α} {e : α}
    (helec : a.elected (a.term n) = some (n, base)) (hlog : a.log n = a.leaderLog (a.term n))
    (hterm : term e = a.term n) : Inv term quorum (a.append n e) := by
  have hled := hinv.lead helec hterm
  rw [← hlog] at hled
  refine hled.extend (prefix_append _ [e]) ?_
  simp only [update_self, prefix_refl]

theorem Inv.ack {p : List α} (hlog : p <+: a.log n)
    (hlead : p <+: a.leaderLog (a.term n)) : Inv term quorum (a.ack n p) := by
  have hack : ∀ t m q, AckedTo term (a.ack n p) t m q →
      (t = a.term n ∧ m = n ∧ q <+: p) ∨ AckedTo term a t m q := by
    intro t m q hq
    by_cases hh : t = a.term n ∧ m = n
    · refine .inl ⟨hh.1, hh.2, ?_⟩
      have hq' : q <+: set₂ a.acked (a.term n) n p t m := hq.1
      rwa [hh.1, hh.2, set₂_self] at hq'
    · refine .inr ⟨?_, hq.2⟩
      have hq' : q <+: set₂ a.acked (a.term n) n p t m := hq.1
      rwa [set₂_of_ne _ _ hh] at hq'
  -- a vote in a later term means the node is past the term of this acknowledgement
  have hlate : ∀ t' m c t q, a.granted t' m = some c → t < t' →
      AckedTo term (a.ack n p) t m q → AckedTo term a t m q := by
    intro t' m c t q hg hlt hq
    rcases hack t m q hq with ⟨rfl, rfl, _⟩ | hq
    · have := (hinv.granted_term t' m c hg).1
      omega
    · exact hq
  refine { hinv with
    acked_term := ?_, acked_leader := ?_, acked_log := ?_, vote_covers := ?_
    elected_covers := ?_ }
  · intro t m hne
    by_cases hh : t = a.term n ∧ m = n
    · exact (hh.2 ▸ hh.1).le
    · rw [show (a.ack n p).acked t m = a.acked t m from set₂_of_ne _ _ hh] at hne
      exact hinv.acked_term t m hne
  · intro t m
    by_cases hh : t = a.term n ∧ m = n
    · rw [hh.1, hh.2, a.ack_acked n p]
      exact hlead
    · rw [show (a.ack n p).acked t m = a.acked t m from set₂_of_ne _ _ hh]
      exact hinv.acked_leader t m
  · intro t m q hq
    rcases hack t m q hq with ⟨rfl, rfl, hqp⟩ | hq
    · exact .inl (hqp.trans hlog)
    · exact hinv.acked_log t m q hq
  · intro t' m c log hel hg hc t q hlt hq
    exact hinv.vote_covers t' m c log hel hg hc t q hlt (hlate t' m c t q hg hlt hq)
  · intro t' c base hel
    rcases hinv.elected_covers t' c base hel with ⟨voters, hq, hv⟩
    refine ⟨voters, hq, fun m hm => ⟨(hv m hm).1, ?_⟩⟩
    intro t q hlt hq'
    exact (hv m hm).2 t q hlt (hlate t' m c t q (hv m hm).1 hlt hq')

end

theorem Step.inv {supply : List α → List α → α → Prop} (h : Step term quorum supply n a a')
    (hinv : Inv term quorum a) : Inv term quorum a' := by
  cases h with
  | advance ht => exact hinv.advance ht
  | stand hf hnew hb => exact hinv.stand hf hnew hb
  | grant hc hf hlog => exact hinv.grant hc hf hlog
  | elect hq hv hc hn => exact hinv.elect hq hv hc hn
  | append he hlog ht _ _ => exact hinv.append he hlog ht
  | truncate hx hy hconf => exact hinv.truncate hx hy hconf
  | extend hlog hl => exact hinv.extend hlog hl
  | ack hlog hl _ => exact hinv.ack hlog hl

end Steps

end Consensus
