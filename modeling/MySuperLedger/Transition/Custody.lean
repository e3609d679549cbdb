import Mathlib.Logic.Basic

/-! # Tokens in one place each

Tokens are numbered as they are issued. A step drops tokens, moves one from a
place to another, or issues the next one; so no token is ever in two places.
-/

namespace Transition

variable {Place : Type} {holds holds' : Nat → Place → Prop} {issued : Nat}

/-- All tokens were issued, and each is in one place at most. -/
structure Custody (holds : Nat → Place → Prop) (issued : Nat) : Prop where
  lt : ∀ token place, holds token place → token < issued
  unique : ∀ token place place', holds token place → holds token place' → place = place'

theorem Custody.drop (h : Custody holds issued)
    (hh : ∀ token place, holds' token place → holds token place) : Custody holds' issued where
  lt token place hp := h.lt token place (hh token place hp)
  unique token place place' hp hp' :=
    h.unique token place place' (hh token place hp) (hh token place' hp')

theorem Custody.move (h : Custody holds issued) (source target : Place)
    (hh : ∀ token place, holds' token place →
      (holds token place ∧ place ≠ source) ∨ (place = target ∧ holds token source)) :
    Custody holds' issued where
  lt token place hp := by
    rcases hh token place hp with ⟨ho, _⟩ | ⟨_, hs⟩
    · exact h.lt token place ho
    · exact h.lt token source hs
  unique token place place' hp hp' := by
    rcases hh token place hp with ⟨ho, hne⟩ | ⟨rfl, hs⟩
    · rcases hh token place' hp' with ⟨ho', _⟩ | ⟨_, hs⟩
      · exact h.unique token place place' ho ho'
      · exact absurd (h.unique token place source ho hs) hne
    · rcases hh token place' hp' with ⟨ho', hne⟩ | ⟨rfl, _⟩
      · exact absurd (h.unique token place' source ho' hs) hne
      · rfl

theorem Custody.issue (h : Custody holds issued) (target : Place)
    (hh : ∀ token place, holds' token place →
      holds token place ∨ (place = target ∧ token = issued)) :
    Custody holds' (issued + 1) where
  lt token place hp := by
    rcases hh token place hp with ho | ⟨_, rfl⟩
    · exact Nat.lt_succ_of_lt (h.lt token place ho)
    · exact Nat.lt_succ_self token
  unique token place place' hp hp' := by
    rcases hh token place hp with ho | ⟨rfl, rfl⟩
    · rcases hh token place' hp' with ho' | ⟨_, rfl⟩
      · exact h.unique token place place' ho ho'
      · exact absurd (h.lt token place ho) (Nat.lt_irrefl token)
    · rcases hh token place' hp' with ho' | ⟨rfl, _⟩
      · exact absurd (h.lt token place' ho') (Nat.lt_irrefl token)
      · rfl

end Transition
