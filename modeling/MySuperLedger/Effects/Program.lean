import Mathlib.Data.List.Infix

/-! # Programs whose effects outlive them

A program runs on a state of its own and leaves effects in the world as it goes:
a durable write, a message sent. It may fail a check, and the process may stop
between any two effects; what it has done by then stays done. `Wp` is the weakest
precondition for that setting. Its postcondition covers normal returns only, and
`safe` has to hold of the effects so far after each one of them.

Both speak about a ghost state beside the program's own, which the proof moves
along as effects happen.
-/

namespace Effects

open List

/-- What a run did, and how it ended: a value with the new state, or a failed check. -/
structure Outcome (ε χ σ α : Type) where
  effects : List ε
  result : Except χ (α × σ)

/-- A program with effects `ε` and checks `χ` over the state `σ`. -/
def Program (ε χ σ α : Type) : Type := σ → Outcome ε χ σ α

namespace Program

variable {ε χ σ α β : Type}

protected def pure (x : α) : Program ε χ σ α := fun s => ⟨[], .ok (x, s)⟩

protected def bind (m : Program ε χ σ α) (f : α → Program ε χ σ β) : Program ε χ σ β := fun s =>
  match m s with
  | ⟨es, .error check⟩ => ⟨es, .error check⟩
  | ⟨es, .ok (x, s')⟩ => ⟨es ++ (f x s').effects, (f x s').result⟩

instance : Monad (Program ε χ σ) where
  pure := Program.pure
  bind := Program.bind

def get : Program ε χ σ σ := fun s => ⟨[], .ok (s, s)⟩

def modify (f : σ → σ) : Program ε χ σ Unit := fun s => ⟨[], .ok ((), f s)⟩

def emit (e : ε) : Program ε χ σ Unit := fun s => ⟨[e], .ok ((), s)⟩

/-- Stop with `check` unless the condition holds. -/
def assert (check : χ) (c : Prop) [Decidable c] : Program ε χ σ Unit := fun s =>
  ⟨[], if c then .ok ((), s) else .error check⟩

def require (check : χ) (x? : Option α) : Program ε χ σ α := fun s =>
  ⟨[], match x? with
    | some x => .ok (x, s)
    | none => .error check⟩

def lift (x : Except χ α) : Program ε χ σ α := fun s => ⟨[], x.map (·, s)⟩

def when (c : Prop) [Decidable c] (m : Program ε χ σ Unit) : Program ε χ σ Unit :=
  if c then m else Pure.pure ()

def forEach : List α → (α → Program ε χ σ Unit) → Program ε χ σ Unit
  | [], _ => Pure.pure ()
  | x :: xs, f => do
      f x
      forEach xs f

/-- From `s` the program returns `x` in `s'` and has left the effects `es`. -/
def RunsTo (m : Program ε χ σ α) (s : σ) (es : List ε) (x : α) (s' : σ) : Prop :=
  m s = ⟨es, .ok (x, s')⟩

section

variable {m : Program ε χ σ α} {f : α → Program ε χ σ β} {s s' s'' : σ} {es es' : List ε}
  {x : α} {y : β}

theorem RunsTo.pure (x : α) (s : σ) : RunsTo (Pure.pure x : Program ε χ σ α) s [] x s := rfl

theorem RunsTo.of_result (h : (m s).result = .ok (x, s')) : m.RunsTo s (m s).effects x s' := by
  show m s = ⟨(m s).effects, .ok (x, s')⟩
  rw [← h]

theorem RunsTo.get (s : σ) : RunsTo (Program.get : Program ε χ σ σ) s [] s s := rfl

theorem RunsTo.modify (g : σ → σ) (s : σ) :
    RunsTo (Program.modify g : Program ε χ σ Unit) s [] () (g s) := rfl

theorem RunsTo.emit (e : ε) (s : σ) :
    RunsTo (Program.emit e : Program ε χ σ Unit) s [e] () s := rfl

theorem RunsTo.bind (hm : RunsTo m s es x s') (hf : RunsTo (f x) s' es' y s'') :
    RunsTo (m >>= f) s (es ++ es') y s'' := by
  show Program.bind m f s = _
  have hf : f x s' = ⟨es', .ok (y, s'')⟩ := hf
  rw [Program.bind, show m s = _ from hm]
  simp [hf]

theorem RunsTo.bind_nil (hm : RunsTo m s [] x s) (hf : RunsTo (f x) s es' y s'') :
    RunsTo (m >>= f) s es' y s'' := by
  simpa using hm.bind hf

theorem RunsTo.unique {x' : α} (h : RunsTo m s es x s') (h' : RunsTo m s es' x' s'') :
    es = es' ∧ x = x' ∧ s' = s'' := by
  have heq : (⟨es, .ok (x, s')⟩ : Outcome ε χ σ α) = ⟨es', .ok (x', s'')⟩ :=
    (show m s = _ from h).symm.trans h'
  simpa using heq

theorem RunsTo.bind_eq (hm : RunsTo m s [] x s) : (m >>= f) s = f x s := by
  show Program.bind m f s = _
  rw [Program.bind, show m s = _ from hm]
  rfl

theorem RunsTo.bind_right (hm : RunsTo m s es x s') (hf : RunsTo (f x) s' [] y s') :
    RunsTo (m >>= f) s es y s' := by
  simpa using hm.bind hf

theorem RunsTo.result_bind (hm : RunsTo m s es x s') : ((m >>= f) s).result = (f x s').result := by
  show (Program.bind m f s).result = _
  rw [Program.bind, show m s = _ from hm]

variable {check : χ}

theorem result_bind_error (hm : (m s).result = .error check) :
    ((m >>= f) s).result = .error check := by
  show (Program.bind m f s).result = _
  rcases hr : m s with ⟨first, check' | x⟩
  · rw [hr] at hm
    cases hm
    rw [Program.bind, hr]
  · rw [hr] at hm
    cases hm

variable {c : Prop} {x? : Option α} {result : Except χ α}

theorem RunsTo.assert [Decidable c] (hc : c) (s : σ) :
    RunsTo (Program.assert check c : Program ε χ σ Unit) s [] () s := by
  simp [RunsTo, Program.assert, hc]

theorem RunsTo.require (hx : x? = some x) (s : σ) :
    RunsTo (Program.require check x? : Program ε χ σ α) s [] x s := by
  simp [RunsTo, Program.require, hx]

theorem RunsTo.lift (h : result = .ok x) (s : σ) :
    RunsTo (Program.lift result : Program ε χ σ α) s [] x s := by
  simp [RunsTo, Program.lift, h, Except.map]

theorem RunsTo.of_bind (h : RunsTo (m >>= f) s es y s'') :
    ∃ first x s' later, RunsTo m s first x s' ∧ RunsTo (f x) s' later y s'' ∧
      es = first ++ later := by
  have h : Program.bind m f s = ⟨es, .ok (y, s'')⟩ := h
  rcases hm : m s with ⟨first, check | ⟨x, s'⟩⟩
  · rw [Program.bind, hm] at h
    cases h
  · rw [Program.bind, hm] at h
    have he : first ++ (f x s').effects = es := congrArg Outcome.effects h
    have hr : (f x s').result = .ok (y, s'') := congrArg Outcome.result h
    exact ⟨first, x, s', (f x s').effects, hm, .of_result hr, he.symm⟩

theorem RunsTo.of_get {f : σ → Program ε χ σ β} (h : RunsTo (Program.get >>= f) s es y s') :
    RunsTo (f s) s es y s' := by
  obtain ⟨_, _, _, _, hg, hr, rfl⟩ := h.of_bind
  cases hg
  exact hr

theorem RunsTo.of_modify {g : σ → σ} {f : Unit → Program ε χ σ β}
    (h : RunsTo (Program.modify g >>= f) s es y s') : RunsTo (f ()) (g s) es y s' := by
  obtain ⟨_, _, _, _, hm, hr, rfl⟩ := h.of_bind
  cases hm
  exact hr

theorem RunsTo.of_assert [Decidable c] {u : Unit}
    (h : RunsTo (Program.assert check c : Program ε χ σ Unit) s es u s') :
    c ∧ es = [] ∧ s' = s := by
  have h : (⟨[], if c then .ok ((), s) else .error check⟩ : Outcome ε χ σ Unit) =
      ⟨es, .ok (u, s')⟩ := h
  by_cases hc : c
  · rw [if_pos hc] at h
    cases h
    exact ⟨hc, rfl, rfl⟩
  · rw [if_neg hc] at h
    cases h

theorem RunsTo.of_require (h : RunsTo (Program.require check x? : Program ε χ σ α) s es x s') :
    x? = some x ∧ es = [] ∧ s' = s := by
  cases x? with
  | none => cases h
  | some x =>
    cases h
    exact ⟨rfl, rfl, rfl⟩

theorem RunsTo.of_lift (h : RunsTo (Program.lift result : Program ε χ σ α) s es x s') :
    result = .ok x ∧ s' = s := by
  cases result with
  | error check => cases h
  | ok x =>
    cases h
    exact ⟨rfl, rfl⟩

end

/-- A run from one of two related states can be done from the other one as well, with the
same effects and the same value, and ends in related states. -/
structure Respects (rel : σ → σ → Prop) (m : Program ε χ σ α) : Prop where
  run : ∀ {s t es x s'}, rel s t → m.RunsTo s es x s' → ∃ t', m.RunsTo t es x t' ∧ rel s' t'

namespace Respects

variable {rel : σ → σ → Prop}

theorem pure (x : α) : Respects rel (Pure.pure x : Program ε χ σ α) where
  run {s t es y s'} hr hrun := by
    cases hrun
    exact ⟨t, rfl, hr⟩

variable {m : Program ε χ σ α} {f : α → Program ε χ σ β} {c : Prop}

theorem bind_of (hm : Respects rel m) (hf : ∀ {s es x s'}, m.RunsTo s es x s' → Respects rel (f x))
    : Respects rel (m >>= f) where
  run {s t es y s''} hr hrun := by
    rcases hrun.of_bind with ⟨first, x, s', later, hfst, hl, rfl⟩
    rcases hm.run hr hfst with ⟨t', hf', hr'⟩
    rcases (hf hfst).run hr' hl with ⟨t'', hl', hr''⟩
    exact ⟨t'', hf'.bind hl', hr''⟩

theorem bind (hm : Respects rel m) (hf : ∀ x, Respects rel (f x)) : Respects rel (m >>= f) :=
  hm.bind_of fun {_ _ x _} _ => hf x

/-- What is made of the state that was read is the same for related states. -/
theorem get_bind {f : σ → Program ε χ σ β} (heq : ∀ {s t}, rel s t → f t = f s)
    (hf : ∀ s, Respects rel (f s)) : Respects rel (Program.get >>= f) where
  run {s t es y s''} hr hrun := by
    rcases hrun.of_bind with ⟨first, x, s', later, hfst, hl, rfl⟩
    cases hfst
    rcases (hf s).run hr hl with ⟨t'', hl', hr''⟩
    have hl' : (f t).RunsTo t later y t'' := (heq hr).symm ▸ hl'
    exact ⟨t'', (RunsTo.get t).bind hl', hr''⟩

theorem assert (check : χ) (c : Prop) [Decidable c] :
    Respects rel (Program.assert check c : Program ε χ σ Unit) where
  run {s t es u s'} hr hrun := by
    rcases hrun.of_assert with ⟨hc, rfl, rfl⟩
    exact ⟨t, RunsTo.assert hc t, hr⟩

theorem require (check : χ) (x? : Option α) :
    Respects rel (Program.require check x? : Program ε χ σ α) where
  run {s t es x s'} hr hrun := by
    rcases hrun.of_require with ⟨hx, rfl, rfl⟩
    exact ⟨t, RunsTo.require hx t, hr⟩

theorem lift (result : Except χ α) : Respects rel (Program.lift result : Program ε χ σ α) where
  run {s t es x s'} hrel hr := by
    have hx := hr.of_lift.1
    rcases (RunsTo.lift hx s).unique hr with ⟨rfl, -, rfl⟩
    exact ⟨t, RunsTo.lift hx t, hrel⟩

theorem ite [Decidable c] {m' : Program ε χ σ α} (h : c → Respects rel m)
    (h' : ¬ c → Respects rel m') : Respects rel (if c then m else m') := by
  by_cases hc : c
  · rw [if_pos hc]
    exact h hc
  · rw [if_neg hc]
    exact h' hc

theorem when [Decidable c] {m : Program ε χ σ Unit} (h : Respects rel m) :
    Respects rel (Program.when c m) :=
  ite (fun _ => h) fun _ => pure ()

theorem forEach {f : α → Program ε χ σ Unit} {xs : List α} (h : ∀ x ∈ xs, Respects rel (f x)) :
    Respects rel (Program.forEach xs f) := by
  induction xs with
  | nil => exact pure ()
  | cons x xs ih =>
    rcases forall_mem_cons.mp h with ⟨hx, hxs⟩
    exact hx.bind fun _ => ih hxs

end Respects

theorem result_bind {m : Program ε χ σ α} {f : α → Program ε χ σ β} {s s'' : σ} {y : β}
    (h : ((m >>= f) s).result = .ok (y, s'')) :
    ∃ x s', (m s).result = .ok (x, s') ∧ (f x s').result = .ok (y, s'') := by
  have h : (Program.bind m f s).result = .ok (y, s'') := h
  rcases hm : m s with ⟨es, check | ⟨x, s'⟩⟩
  · rw [Program.bind, hm] at h
    cases h
  · rw [Program.bind, hm] at h
    exact ⟨x, s', rfl, h⟩

theorem result_get {f : σ → Program ε χ σ β} {s s' : σ} {y : β}
    (h : ((get >>= f) s).result = .ok (y, s')) : (f s s).result = .ok (y, s') := by
  obtain ⟨_, _, hg, h⟩ := result_bind h
  cases hg
  exact h

/-- Wherever it starts, the program has effects in `P` only, fails no check but those in
`Q`, and leaves `view` as it was. -/
structure Keeps {γ : Type} (P : ε → Prop) (Q : χ → Prop) (view : σ → γ)
    (m : Program ε χ σ α) : Prop where
  effects : ∀ s, ∀ e ∈ (m s).effects, P e
  checks : ∀ s check, (m s).result = .error check → Q check
  result : ∀ s x s', (m s).result = .ok (x, s') → view s' = view s

namespace Keeps

variable {γ : Type} {P : ε → Prop} {Q : χ → Prop} {view : σ → γ}

theorem pure (x : α) : Keeps P Q view (Pure.pure x : Program ε χ σ α) where
  effects _ _ hm := nomatch hm
  checks _ _ h := nomatch h
  result s x s' h := by
    cases h
    rfl

variable {m : Program ε χ σ α}

theorem bind {f : α → Program ε χ σ β} (hm : Keeps P Q view m) (hf : ∀ x, Keeps P Q view (f x)) :
    Keeps P Q view (m >>= f) where
  effects s e hmem := by
    have hmem : e ∈ (Program.bind m f s).effects := hmem
    have hfst := hm.effects s e
    rcases hrun : m s with ⟨es, check | ⟨x, s'⟩⟩
    · rw [Program.bind, hrun] at hmem
      rw [hrun] at hfst
      exact hfst hmem
    · rw [Program.bind, hrun] at hmem
      rw [hrun] at hfst
      rcases mem_append.mp hmem with hmem | hmem
      · exact hfst hmem
      · exact (hf x).effects s' e hmem
  checks s check h := by
    have h : (Program.bind m f s).result = .error check := h
    have hfst := hm.checks s
    rcases hrun : m s with ⟨es, check' | ⟨x, s'⟩⟩
    · rw [Program.bind, hrun] at h
      rw [hrun] at hfst
      cases h
      exact hfst check rfl
    · rw [Program.bind, hrun] at h
      exact (hf x).checks s' check h
  result s y s'' h := by
    rcases result_bind h with ⟨x, s', hx, hy⟩
    rw [(hf x).result s' y s'' hy, hm.result s x s' hx]

theorem get : Keeps P Q view (Program.get : Program ε χ σ σ) where
  effects _ _ hm := nomatch hm
  checks _ _ h := nomatch h
  result s x s' h := by
    cases h
    rfl

theorem modify {f : σ → σ} (h : ∀ s, view (f s) = view s) :
    Keeps P Q view (Program.modify f : Program ε χ σ Unit) where
  effects _ _ hm := nomatch hm
  checks _ _ h := nomatch h
  result s x s' hr := by
    cases hr
    exact h s

theorem emit {e : ε} (h : P e) : Keeps P Q view (Program.emit e : Program ε χ σ Unit) where
  effects s e' hm := by
    rw [mem_singleton.mp hm]
    exact h
  checks _ _ h := nomatch h
  result s x s' hr := by
    cases hr
    rfl

variable {check : χ} {c : Prop}

theorem assert (h : Q check) (c : Prop) [Decidable c] :
    Keeps P Q view (Program.assert check c : Program ε χ σ Unit) where
  effects _ _ hm := nomatch hm
  checks s check' hr := by
    unfold Program.assert at hr
    split at hr
    · cases hr
    · cases hr
      exact h
  result s x s' hr := by
    unfold Program.assert at hr
    split at hr
    · cases hr
      rfl
    · cases hr

theorem require (h : Q check) (x? : Option α) :
    Keeps P Q view (Program.require check x? : Program ε χ σ α) where
  effects _ _ hm := nomatch hm
  checks s check' hr := by
    cases x? with
    | none =>
      cases hr
      exact h
    | some x => cases hr
  result s x s' hr := by
    cases x? with
    | none => cases hr
    | some x =>
      cases hr
      rfl

theorem ite [Decidable c] {m' : Program ε χ σ α} (h : Keeps P Q view m) (h' : Keeps P Q view m') :
    Keeps P Q view (if c then m else m') := by
  split
  · exact h
  · exact h'

theorem when [Decidable c] {m : Program ε χ σ Unit} (h : Keeps P Q view m) :
    Keeps P Q view (Program.when c m) :=
  ite h (pure ())

theorem forEach {f : α → Program ε χ σ Unit} (h : ∀ x, Keeps P Q view (f x)) (xs : List α) :
    Keeps P Q view (Program.forEach xs f) := by
  induction xs with
  | nil => exact pure ()
  | cons x xs ih => exact (h x).bind fun _ => ih

theorem map {δ : Type} (h : Keeps P Q view m) (f : γ → δ) : Keeps P Q (fun s => f (view s)) m :=
  { h with result := fun s x s' hr => congrArg f (h.result s x s' hr) }

theorem mono {P' : ε → Prop} {Q' : χ → Prop} (h : Keeps P Q view m) (he : ∀ e, P e → P' e)
    (hc : ∀ check, Q check → Q' check) : Keeps P' Q' view m where
  effects s e hm := he e (h.effects s e hm)
  checks s check hr := hc check (h.checks s check hr)
  result := h.result

end Keeps

/-- A relation between the state before a run, its effects and the state after it that runs
in a row keep. -/
class Composes (rel : σ → List ε → σ → Prop) : Prop where
  refl : ∀ s, rel s [] s
  trans : ∀ {s s' s'' es es'}, rel s es s' → rel s' es' s'' → rel s (es ++ es') s''

structure Ensures (rel : σ → List ε → σ → Prop) (m : Program ε χ σ α) : Prop where
  run : ∀ {s es x s'}, m.RunsTo s es x s' → rel s es s'

namespace Ensures

variable {rel : σ → List ε → σ → Prop} [Composes rel]

theorem pure (x : α) : Ensures rel (Pure.pure x : Program ε χ σ α) where
  run {s _ _ _} hr := by
    cases hr
    exact Composes.refl s

theorem get : Ensures rel (Program.get : Program ε χ σ σ) where
  run {s _ _ _} hr := by
    cases hr
    exact Composes.refl s

theorem assert (check : χ) (c : Prop) [Decidable c] :
    Ensures rel (Program.assert check c : Program ε χ σ Unit) where
  run {s _ _ _} hr := by
    rcases hr.of_assert with ⟨_, rfl, rfl⟩
    exact Composes.refl _

variable {m : Program ε χ σ α}

theorem bind {f : α → Program ε χ σ β} (hm : Ensures rel m) (hf : ∀ x, Ensures rel (f x)) :
    Ensures rel (m >>= f) where
  run hr := by
    rcases hr.of_bind with ⟨first, x, s', later, hfst, hl, rfl⟩
    exact Composes.trans (hm.run hfst) ((hf x).run hl)

variable {c : Prop}

omit [Composes rel] in
theorem ite [Decidable c] {m' : Program ε χ σ α} (h : Ensures rel m) (h' : Ensures rel m') :
    Ensures rel (if c then m else m') := by
  split
  · exact h
  · exact h'

theorem when [Decidable c] {m : Program ε χ σ Unit} (h : Ensures rel m) :
    Ensures rel (Program.when c m) :=
  ite h (pure ())

omit [Composes rel] in
/-- What leaves the view alone ensures whatever depends on the view and the effects only. -/
theorem of_keeps {γ : Type} {P : ε → Prop} {Q : χ → Prop} {view : σ → γ} (h : Keeps P Q view m)
    (hr : ∀ s es s', (∀ e ∈ es, P e) → view s' = view s → rel s es s') : Ensures rel m where
  run {s es x s'} hrun := by
    have hm : m s = ⟨es, .ok (x, s')⟩ := hrun
    refine hr s es s' ?_ (h.result s x s' (by rw [hm]))
    have he := h.effects s
    rwa [hm] at he

end Ensures

end Program

/-- What a proof about programs is relative to: how the ghost state may move, what
has to hold whenever the process may stop, and which checks are not excluded. -/
structure Logic (ε χ G : Type) where
  evolves : G → G → Prop
  evolves_refl : ∀ g, evolves g g
  evolves_trans : ∀ {g g' g''}, evolves g g' → evolves g' g'' → evolves g g''
  safe : List ε → G → Prop
  allowed : χ → Prop

namespace Logic

variable {ε χ G σ α β : Type} (L : Logic ε χ G)

/-- From state `s` and ghost state `g`, with the effects `es` already done. -/
structure Wp (prog : Program ε χ σ α) (post : α → σ → List ε → G → Prop) (s : σ) (es : List ε)
    (g : G) : Prop where
  stop : ∀ pre, pre <+: (prog s).effects → pre ≠ [] →
    ∃ g', L.evolves g g' ∧ L.safe (es ++ pre) g'
  fail : ∀ check, (prog s).result = .error check → L.allowed check
  done : ∀ x s', (prog s).result = .ok (x, s') →
    ∃ g', L.evolves g g' ∧ post x s' (es ++ (prog s).effects) g'

variable {L} {s : σ} {es : List ε} {g : G} {post : α → σ → List ε → G → Prop} {m : Program ε χ σ α}
  {c : Prop} {x : α} {e : ε} {check : χ}

theorem Wp.pure (h : post x s es g) : L.Wp (Pure.pure x : Program ε χ σ α) post s es g where
  stop _ hp hne := absurd (prefix_nil.mp hp) hne
  fail _ hr := nomatch hr
  done _ _ hr := by
    cases hr
    exact ⟨g, L.evolves_refl g, by simpa [Pure.pure, Program.pure] using h⟩

theorem Wp.bind {post : β → σ → List ε → G → Prop} {f : α → Program ε χ σ β}
    (h : L.Wp m (fun x s' es' g' => L.Wp (f x) post s' es' g') s es g) :
    L.Wp (m >>= f) post s es g := by
  rcases hm : m s with ⟨ws, check | ⟨x, s'⟩⟩
  · have heq : (m >>= f) s = ⟨ws, .error check⟩ := by
      show Program.bind m f s = _
      rw [Program.bind, hm]
    refine ⟨?_, ?_, ?_⟩
    · rw [heq]
      have := h.stop
      rwa [hm] at this
    · rw [heq]
      intro check' hres
      cases hres
      exact h.fail check (by rw [hm])
    · rw [heq]
      intro x s' hres
      cases hres
  · have heq : (m >>= f) s = ⟨ws ++ (f x s').effects, (f x s').result⟩ := by
      show Program.bind m f s = _
      rw [Program.bind, hm]
    rcases h.done x s' (by rw [hm]) with ⟨g', hg', hcont⟩
    rw [hm] at hcont
    refine ⟨?_, ?_, ?_⟩
    · rw [heq]
      intro pre hpre hne
      -- the process stops either within `m` or after it
      by_cases hlen : pre.length ≤ ws.length
      · have hpre' : pre <+: ws :=
          prefix_of_prefix_length_le hpre (prefix_append _ _) hlen
        exact h.stop pre (by rwa [hm]) hne
      · have hws : ws <+: pre :=
          prefix_of_prefix_length_le (prefix_append _ _) hpre (by omega)
        rcases hws with ⟨rest, rfl⟩
        have hrest : rest <+: (f x s').effects := (prefix_append_right_inj ws).mp hpre
        have hne' : rest ≠ [] := by
          intro hnil
          rw [hnil, append_nil] at hlen
          exact hlen le_rfl
        rcases hcont.stop rest hrest hne' with ⟨g'', hg'', hsafe⟩
        rw [append_assoc] at hsafe
        exact ⟨g'', L.evolves_trans hg' hg'', hsafe⟩
    · rw [heq]
      exact hcont.fail
    · rw [heq]
      intro y s'' hres
      rcases hcont.done y s'' hres with ⟨g'', hg'', hpost⟩
      rw [append_assoc] at hpost
      exact ⟨g'', L.evolves_trans hg' hg'', hpost⟩

theorem Wp.mono {post' : α → σ → List ε → G → Prop} (h : L.Wp m post s es g)
    (hi : ∀ x s' es' g', post x s' es' g' → post' x s' es' g') : L.Wp m post' s es g where
  stop := h.stop
  fail := h.fail
  done x s' hr := by
    rcases h.done x s' hr with ⟨g', hg', hp⟩
    exact ⟨g', hg', hi x s' _ g' hp⟩

theorem Wp.ghost (g' : G) (hg : L.evolves g g') (h : L.Wp m post s es g') : L.Wp m post s es g where
  stop pre hpre hne := by
    rcases h.stop pre hpre hne with ⟨g'', hg'', hs⟩
    exact ⟨g'', L.evolves_trans hg hg'', hs⟩
  fail := h.fail
  done x s' hr := by
    rcases h.done x s' hr with ⟨g'', hg'', hp⟩
    exact ⟨g'', L.evolves_trans hg hg'', hp⟩

theorem Wp.get {post : σ → σ → List ε → G → Prop} (h : post s s es g) :
    L.Wp (Program.get : Program ε χ σ σ) post s es g where
  stop _ hp hne := absurd (prefix_nil.mp hp) hne
  fail _ hr := nomatch hr
  done _ _ hr := by
    cases hr
    exact ⟨g, L.evolves_refl g, by simpa [Program.get] using h⟩

theorem Wp.get_bind {post : α → σ → List ε → G → Prop} {f : σ → Program ε χ σ α}
    (h : L.Wp (f s) post s es g) : L.Wp (Program.get >>= f) post s es g :=
  .bind (.get h)

theorem Wp.modify {post : Unit → σ → List ε → G → Prop} {f : σ → σ} (h : post () (f s) es g) :
    L.Wp (Program.modify f : Program ε χ σ Unit) post s es g where
  stop _ hp hne := absurd (prefix_nil.mp hp) hne
  fail _ hr := nomatch hr
  done _ _ hr := by
    cases hr
    exact ⟨g, L.evolves_refl g, by simpa [Program.modify] using h⟩

theorem Wp.emit {post : Unit → σ → List ε → G → Prop} (g' : G) (hg : L.evolves g g')
    (hs : L.safe (es ++ [e]) g') (h : post () s (es ++ [e]) g') :
    L.Wp (Program.emit e : Program ε χ σ Unit) post s es g where
  stop pre hp hne := by
    have hp' : pre = [e] := by
      rcases prefix_cons_iff.mp hp with hn | ⟨rest, heq, hrest⟩
      · exact absurd hn hne
      · rw [heq, prefix_nil.mp hrest]
    rw [hp']
    exact ⟨g', hg, hs⟩
  fail _ hr := nomatch hr
  done _ _ hr := by
    cases hr
    exact ⟨g', hg, h⟩

theorem Wp.assert {post : Unit → σ → List ε → G → Prop} [Decidable c]
    (hf : ¬ c → L.allowed check) (h : c → post () s es g) :
    L.Wp (Program.assert check c : Program ε χ σ Unit) post s es g where
  stop _ hp hne := absurd (prefix_nil.mp hp) hne
  fail check' hr := by
    unfold Program.assert at hr
    by_cases hc : c
    · rw [if_pos hc] at hr
      cases hr
    · rw [if_neg hc] at hr
      cases hr
      exact hf hc
  done x s' hr := by
    unfold Program.assert at hr
    by_cases hc : c
    · rw [if_pos hc] at hr
      cases hr
      exact ⟨g, L.evolves_refl g, by simpa [Program.assert] using h hc⟩
    · rw [if_neg hc] at hr
      cases hr

theorem Wp.require {x? : Option α} (hf : x? = none → L.allowed check)
    (h : ∀ x, x? = some x → post x s es g) :
    L.Wp (Program.require check x? : Program ε χ σ α) post s es g where
  stop _ hp hne := absurd (prefix_nil.mp hp) hne
  fail check' hr := by
    cases x? with
    | none =>
      cases hr
      exact hf rfl
    | some x => cases hr
  done x s' hr := by
    cases x? with
    | none => cases hr
    | some x =>
      cases hr
      exact ⟨g, L.evolves_refl g, by simpa [Program.require] using h x rfl⟩

theorem Wp.ite [Decidable c] {m' : Program ε χ σ α} (h : c → L.Wp m post s es g)
    (h' : ¬ c → L.Wp m' post s es g) : L.Wp (if c then m else m') post s es g := by
  by_cases hc : c
  · rw [if_pos hc]
    exact h hc
  · rw [if_neg hc]
    exact h' hc

theorem Wp.when {post : Unit → σ → List ε → G → Prop} [Decidable c] {m : Program ε χ σ Unit}
    (h : c → L.Wp m post s es g) (h' : ¬ c → post () s es g) :
    L.Wp (Program.when c m) post s es g :=
  Wp.ite h fun hc => Wp.pure (h' hc)

theorem Wp.forEach {f : α → Program ε χ σ Unit} {xs : List α} (inv : σ → List ε → G → Prop)
    (hb : ∀ x ∈ xs, ∀ s es g, inv s es g → L.Wp (f x) (fun _ => inv) s es g)
    (h : inv s es g) : L.Wp (Program.forEach xs f) (fun _ => inv) s es g := by
  induction xs generalizing s es g with
  | nil => exact Wp.pure h
  | cons x xs ih =>
    have hx := hb x mem_cons_self s es g h
    apply Wp.bind
    apply hx.mono
    intro _ s' es' g' h'
    exact ih (fun y hy => hb y (mem_cons_of_mem x hy)) h'

/-- No check fails; nothing else is asked. -/
def total : Logic ε χ Unit where
  evolves _ _ := True
  evolves_refl _ := trivial
  evolves_trans _ _ := trivial
  safe _ _ := True
  allowed _ := False

theorem Wp.emit_total {post : Unit → σ → List ε → Unit → Prop} (h : post () s (es ++ [e]) ()) :
    (total : Logic ε χ Unit).Wp (Program.emit e : Program ε χ σ Unit) post s es () :=
  Wp.emit () trivial trivial h

theorem Wp.of_runsTo_total {post : α → σ → List ε → Unit → Prop} {s' : σ} {es' : List ε}
    (hrun : m.RunsTo s es' x s') (h : post x s' (es ++ es') ()) :
    (total : Logic ε χ Unit).Wp m post s es () where
  stop _ _ _ := ⟨(), trivial, trivial⟩
  fail check hr := by
    rw [show m s = _ from hrun] at hr
    cases hr
  done y s'' hr := by
    rw [show m s = _ from hrun] at hr ⊢
    cases hr
    exact ⟨(), trivial, h⟩

theorem Wp.exists_result {post : α → σ → List ε → Unit → Prop}
    (h : (total : Logic ε χ Unit).Wp m post s es ()) :
    ∃ x s', (m s).result = .ok (x, s') ∧ post x s' (es ++ (m s).effects) () := by
  have hf := h.fail
  have hd := h.done
  cases hr : (m s).result with
  | error check => exact (hf check hr).elim
  | ok done =>
    rcases hd done.1 done.2 hr with ⟨_, _, hp⟩
    exact ⟨done.1, done.2, rfl, hp⟩

end Logic

end Effects
