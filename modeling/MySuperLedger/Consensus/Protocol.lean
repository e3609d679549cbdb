import Mathlib.Data.Finset.Basic
import Mathlib.Data.List.Infix
import MySuperLedger.Transition.System

/-! # A replicated log under one leader a term

The protocol of leader-based replication with the network taken away. What the
messages would carry is kept as history instead: who was granted a vote in a
term, with which log a candidate stood, who was elected and the log that leader
has written, and the prefix each node has acknowledged. A step is one durable
change of one node; an implementation refines it write by write.

Logs are lists and all facts about positions are stated with the prefix order.
Quorums are any family of finite sets that meet pairwise.
-/

namespace Consensus

open Transition List Function

variable {ι α : Type}

/-- The term of the last entry, 0 for the empty log. -/
def lastTerm (term : α → Nat) (log : List α) : Nat := (log.getLast?.map term).getD 0

/-- `log'` is at least as up to date as `log`. -/
def UpToDate (term : α → Nat) (log' log : List α) : Prop :=
  lastTerm term log < lastTerm term log' ∨
    (lastTerm term log = lastTerm term log' ∧ log.length ≤ log'.length)

@[simp] theorem lastTerm_nil (term : α → Nat) : lastTerm term [] = 0 := rfl

@[simp] theorem lastTerm_concat (term : α → Nat) (log : List α) (e : α) :
    lastTerm term (log ++ [e]) = term e := by
  simp [lastTerm]

variable {p log : List α} {e : α} {β : Type} {t t' : Nat} {n n' : ι}

theorem concat_prefix_concat {x : α} (h : p ++ [e] <+: log ++ [x]) :
    p ++ [e] <+: log ∨ (p = log ∧ e = x) := by
  rcases prefix_concat_iff.mp h with heq | hp
  · have hi := append_inj heq (by simpa using congrArg List.length heq)
    exact .inr ⟨hi.1, by simpa using hi.2⟩
  · exact .inl hp

theorem exists_concat_isPrefix (h : e ∈ log) : ∃ p, p ++ [e] <+: log := by
  rcases append_of_mem h with ⟨l, r, rfl⟩
  exact ⟨l, r, by simp⟩

theorem exists_concat_isPrefix_of_length_lt (hp : p <+: log) (hlt : p.length < log.length) :
    ∃ x, p ++ [x] <+: log := by
  rcases hp with ⟨_ | ⟨x, rest⟩, rfl⟩
  · simp at hlt
  · exact ⟨x, rest, by simp⟩

structure State (ι α : Type) where
  /-- The current term of a node. -/
  term : ι → Nat
  /-- The log of a node. -/
  log : ι → List α
  /-- The candidate a node granted its vote in a term. -/
  granted : Nat → ι → Option ι
  /-- The log a node stood with in a term. -/
  cand : Nat → ι → Option (List α)
  /-- The leader of a term and the log it was elected with. -/
  elected : Nat → Option (ι × List α)
  /-- The log the leader of a term has written so far. -/
  leaderLog : Nat → List α
  /-- The longest prefix of the leader's log a node has acknowledged in a term. -/
  acked : Nat → ι → List α

def State.initial : State ι α where
  term _ := 0
  log _ := []
  granted _ _ := none
  cand _ _ := none
  elected _ := none
  leaderLog _ := []
  acked _ _ := []

variable [DecidableEq ι]

def set₂ {β : Type} (f : Nat → ι → β) (t : Nat) (n : ι) (v : β) : Nat → ι → β :=
  fun t' n' => if t' = t ∧ n' = n then v else f t' n'

theorem set₂_self (f : Nat → ι → β) (t : Nat) (n : ι) (v : β) : set₂ f t n v t n = v :=
  if_pos ⟨rfl, rfl⟩

theorem set₂_of_ne (f : Nat → ι → β) (v : β) (h : ¬ (t' = t ∧ n' = n)) :
    set₂ f t n v t' n' = f t' n' :=
  if_neg h

theorem set₂_eq_some {f : Nat → ι → Option β} {v w : β} (h : set₂ f t n (some v) t' n' = some w) :
    (t' = t ∧ n' = n ∧ w = v) ∨ f t' n' = some w := by
  by_cases hh : t' = t ∧ n' = n
  · rw [hh.1, hh.2, set₂_self] at h
    exact .inl ⟨hh.1, hh.2, (Option.some.inj h).symm⟩
  · rw [set₂_of_ne _ _ hh] at h
    exact .inr h

namespace State

variable (a : State ι α)

def advance (n : ι) (t : Nat) : State ι α :=
  { a with term := update a.term n t }

def stand (n : ι) : State ι α :=
  { a with
    granted := set₂ a.granted (a.term n) n (some n)
    cand := set₂ a.cand (a.term n) n (some (a.log n)) }

def grant (n c : ι) : State ι α :=
  { a with granted := set₂ a.granted (a.term n) n (some c) }

def elect (c : ι) : State ι α :=
  { a with
    elected := update a.elected (a.term c) (some (c, a.log c))
    leaderLog := update a.leaderLog (a.term c) (a.log c) }

def append (c : ι) (e : α) : State ι α :=
  { a with
    log := update a.log c (a.log c ++ [e])
    leaderLog := update a.leaderLog (a.term c) (a.log c ++ [e]) }

def setLog (n : ι) (log : List α) : State ι α :=
  { a with log := update a.log n log }

def ack (n : ι) (p : List α) : State ι α :=
  { a with acked := set₂ a.acked (a.term n) n p }

theorem stand_granted (n : ι) : (a.stand n).granted (a.term n) n = some n :=
  set₂_self ..

theorem stand_cand (n : ι) : (a.stand n).cand (a.term n) n = some (a.log n) :=
  set₂_self ..

theorem grant_granted (n c : ι) : (a.grant n c).granted (a.term n) n = some c :=
  set₂_self ..

theorem ack_acked (n : ι) (p : List α) : (a.ack n p).acked (a.term n) n = p :=
  set₂_self ..

end State

/-- The steps of node `n`. `supply base own e` says that a leader elected with `base` may
write `e` after it has written `own`. -/
inductive Step (term : α → Nat) (quorum : Finset ι → Prop)
    (supply : List α → List α → α → Prop) (n : ι) : State ι α → State ι α → Prop where
  | advance {a : State ι α} {t : Nat} (hterm : a.term n < t) :
      Step term quorum supply n a (a.advance n t)
  | stand {a : State ι α} (hfree : a.granted (a.term n) n = none)
      (hnew : a.cand (a.term n) n = none) (hbelow : ∀ e ∈ a.log n, term e < a.term n) :
      Step term quorum supply n a (a.stand n)
  | grant {a : State ι α} {c : ι} {log : List α} (hcand : a.cand (a.term n) c = some log)
      (hfree : a.granted (a.term n) n = none ∨ a.granted (a.term n) n = some c)
      (hlog : UpToDate term log (a.log n)) : Step term quorum supply n a (a.grant n c)
  | elect {a : State ι α} {voters : Finset ι} (hquorum : quorum voters)
      (hvotes : ∀ m ∈ voters, a.granted (a.term n) m = some n)
      (hcand : a.cand (a.term n) n = some (a.log n)) (hnone : a.elected (a.term n) = none) :
      Step term quorum supply n a (a.elect n)
  | append {a : State ι α} {base own : List α} {e : α}
      (helected : a.elected (a.term n) = some (n, base))
      (hlog : a.log n = a.leaderLog (a.term n)) (hterm : term e = a.term n)
      (hown : a.leaderLog (a.term n) = base ++ own) (hsupply : supply base own e) :
      Step term quorum supply n a (a.append n e)
  | truncate {a : State ι α} {p : List α} {x y : α} (hx : p ++ [x] <+: a.log n)
      (hy : p ++ [y] <+: a.leaderLog (a.term n)) (hconflict : term x ≠ term y) :
      Step term quorum supply n a (a.setLog n p)
  | extend {a : State ι α} {log : List α} (hlog : a.log n <+: log)
      (hleader : log <+: a.leaderLog (a.term n)) : Step term quorum supply n a (a.setLog n log)
  | ack {a : State ι α} {p : List α} (hlog : p <+: a.log n)
      (hleader : p <+: a.leaderLog (a.term n)) (hlonger : a.acked (a.term n) n <+: p) :
      Step term quorum supply n a (a.ack n p)

def system (term : α → Nat) (quorum : Finset ι → Prop) : System (State ι α) where
  init a := a = State.initial
  step a a' := ∃ n supply, Step term quorum supply n a a'

end Consensus
