/-
Imperative programs as functions on an explicit state: a computation
either returns a value or stops, and in both cases leaves a state
behind. Stopping early keeps the effects made so far, as a C function
that returns an error code after half its writes does.

# Reasoning

Three notions carry the developments that use this file.

- `Prog.bind_ok` takes a successful sequence apart into its two
  successful halves, so a proof about one run peels the run step by
  step.
- `Prog.Keeps R` says that every outcome of a computation relates the
  state before to the state after by `R`. For a reflexive and transitive
  `R` it is closed under sequencing, branching and the loops written by
  recursion, so a footprint ("only these bytes change") is proved once
  per primitive and composed.
- `Prog.Triple P x Q F` is the triple with two postconditions: `Q` for
  the value returned, `F` for the way `x` stopped. An operation whose
  error exits all come before its first write is a triple whose `F`
  says that nothing changed.

An error code is an answer, not an accident: `Prog.ErrKeeps R` says what
the state looks like when one is returned, and `Prog.NoErr` that none
is.
-/
import Mathlib.Logic.Function.Iterate

/-- Why a computation did not return a value: an early return with a
negative code, a failed assertion, a loop that never ends, or an access
outside every modelled object. -/
inductive Stop where
  | err (code : Int)
  | panic
  | hang
  | wild
  deriving DecidableEq, Repr

/-- A computation over the state `σ`. -/
def Prog (σ α : Type) := σ → Except Stop α × σ

namespace Prog

variable {σ α β : Type}
variable {e : Stop} {b : Prop} {u : Unit}
variable {a : α} {x y : Prog σ α} {f : α → Prog σ β} {s s' : σ} {r : Except Stop α}

-- ==== the monad

def ret (a : α) : Prog σ α := fun s => (.ok a, s)

def andThen (x : Prog σ α) (f : α → Prog σ β) : Prog σ β := fun s =>
  match x s with
  | (.ok a, s') => f a s'
  | (.error e, s') => (.error e, s')

instance : Monad (Prog σ) where
  pure := ret
  bind := andThen

/-- Stop without a value. -/
def stop (e : Stop) : Prog σ α := fun s => (.error e, s)

/-- `assert(b)`. -/
def assert (b : Prop) [Decidable b] : Prog σ Unit :=
  if b then pure () else stop .panic

/-- `if (b) return e;` -/
def failIf (b : Prop) [Decidable b] (e : Stop) : Prog σ Unit :=
  if b then stop e else pure ()

/-- `if (b) x;` -/
def when (b : Prop) [Decidable b] (x : Prog σ Unit) : Prog σ Unit :=
  if b then x else pure ()

/-- Run for effect only: an early return inside does not stop the
caller, the other ways of stopping do. -/
def ignoreErr (x : Prog σ α) : Prog σ Unit := fun s =>
  match x s with
  | (.ok _, s') => (.ok (), s')
  | (.error (.err _), s') => (.ok (), s')
  | (.error e, s') => (.error e, s')

/-- Read the state. -/
def get : Prog σ σ := fun s => (.ok s, s)

/-- Change the state. -/
def modify (f : σ → σ) : Prog σ Unit := fun s => (.ok (), f s)

@[simp] theorem pure_apply (a : α) (s : σ) : (pure a : Prog σ α) s = (.ok a, s) := rfl

@[simp] theorem get_apply (s : σ) : (get : Prog σ σ) s = (.ok s, s) := rfl

@[simp] theorem modify_apply (f : σ → σ) (s : σ) : modify f s = (.ok (), f s) := rfl

theorem bind_apply (x : Prog σ α) (f : α → Prog σ β) (s : σ) :
    (x >>= f) s = match x s with
      | (.ok a, s') => f a s'
      | (.error e, s') => (.error e, s') := rfl

theorem pure_inj {b : α} (s : σ) (h : (pure a : Prog σ α) = pure b) : a = b := by
  have hs := congrFun h s
  injection hs with h1 _
  injection h1

theorem pure_bind (a : α) (f : α → Prog σ β) : (pure a >>= f) = f a := rfl

theorem bind_assoc {γ : Type} (x : Prog σ α) (f : α → Prog σ β) (g : β → Prog σ γ) :
    (x >>= f >>= g) = (x >>= fun a => f a >>= g) := by
  funext s
  rw [bind_apply, bind_apply, bind_apply]
  rcases x s with ⟨_ | a, s'⟩ <;> rfl

/-- Computing on the result leaves the state. -/
theorem bind_pure_state (x : Prog σ α) (f : α → β) (s : σ) :
    ((x >>= fun a => pure (f a)) s).2 = (x s).2 := by
  rw [bind_apply]
  rcases x s with ⟨_ | a, s'⟩ <;> rfl

/-- The first half returned: the sequence is the second half. -/
theorem bind_of_ok (h : x s = (.ok a, s')) : (x >>= f) s = f a s' := by
  rw [bind_apply, h]

/-- A sequence whose first half is known to return. -/
theorem bind_step {r : Except Stop β × σ} (h : (x >>= f) s = r) (hx : x s = (.ok a, s')) :
    f a s' = r :=
  (bind_of_ok hx).symm.trans h

/-- The first half stopped: so does the sequence. -/
theorem bind_of_error (h : x s = (.error e, s')) : (x >>= f) s = (.error e, s') := by
  rw [bind_apply, h]

/-- A sequence returns exactly when both halves do. -/
theorem bind_ok {b : β} :
    (x >>= f) s = (.ok b, s')
      ↔ ∃ a s1, x s = (.ok a, s1) ∧ f a s1 = (.ok b, s') := by
  constructor
  · intro h
    rw [bind_apply] at h
    rcases hx : x s with ⟨r, s1⟩
    rw [hx] at h
    cases r with
    | ok a => exact ⟨a, s1, rfl, h⟩
    | error e => cases h
  · rintro ⟨a, s1, hx, hf⟩
    rw [bind_of_ok hx]
    exact hf

theorem get_bind (f : σ → Prog σ β) (s : σ) : (get >>= f) s = f s s := rfl

/-- A run from the value it returns, which can be evaluated. -/
theorem eq_of_toOption (h : (x s).1.toOption = some a) : x s = (.ok a, (x s).2) := by
  rcases hx : x s with ⟨r, s'⟩
  rw [hx] at h
  cases r with
  | ok b =>
    injection h with h
    rw [h]
  | error e => cases h

theorem assert_ok [Decidable b] : assert b s = (.ok u, s') ↔ b ∧ s' = s := by
  unfold assert
  by_cases hb : b
  · rw [if_pos hb]
    constructor
    · intro h
      injection h with _ h2
      exact ⟨hb, h2.symm⟩
    · rintro ⟨_, rfl⟩
      rfl
  · rw [if_neg hb]
    constructor
    · intro h
      injection h with h1 _
      cases h1
    · rintro ⟨h, _⟩
      exact absurd h hb

theorem assert_of [Decidable b] (hb : b) : (assert b : Prog σ Unit) s = (.ok (), s) :=
  assert_ok.mpr ⟨hb, rfl⟩

theorem assert_of_not [Decidable b] (hb : ¬ b) :
    (assert b : Prog σ Unit) s = (.error .panic, s) := by
  unfold assert
  rw [if_neg hb]
  rfl

theorem assert_bind [Decidable b] (hb : b) {f : Unit → Prog σ β} :
    (assert b >>= f) s = f () s :=
  bind_of_ok (assert_of hb)

theorem assert_bind_ok [Decidable b] {f : Unit → Prog σ β} {a : β}
    (h : (assert b >>= f) s = (.ok a, s')) : b ∧ f () s = (.ok a, s') := by
  obtain ⟨_, s1, h1, h2⟩ := bind_ok.mp h
  obtain ⟨hb, rfl⟩ := assert_ok.mp h1
  exact ⟨hb, h2⟩

theorem failIf_of [Decidable b] (hb : b) :
    (failIf b e : Prog σ Unit) s = (.error e, s) := by
  unfold failIf
  rw [if_pos hb]
  rfl

theorem failIf_of_not [Decidable b] (hb : ¬ b) :
    (failIf b e : Prog σ Unit) s = (.ok (), s) := by
  unfold failIf
  rw [if_neg hb]
  rfl

theorem failIf_ok [Decidable b] (h : failIf b e s = (.ok u, s')) : ¬ b ∧ s' = s := by
  by_cases hb : b
  · rw [failIf_of hb] at h
    cases h
  · rw [failIf_of_not hb] at h
    cases h
    exact ⟨hb, rfl⟩

theorem failIf_bind [Decidable b] (hb : ¬ b) {f : Unit → Prog σ β}
    : (failIf b e >>= f) s = f () s :=
  bind_of_ok (failIf_of_not hb)

theorem failIf_bind_ok [Decidable b] {f : Unit → Prog σ β}
    {a : β} (h : (failIf b e >>= f) s = (.ok a, s')) : ¬ b ∧ f () s = (.ok a, s') := by
  obtain ⟨_, s1, h1, h2⟩ := bind_ok.mp h
  obtain ⟨hb, rfl⟩ := failIf_ok h1
  exact ⟨hb, h2⟩

theorem when_of [Decidable b] (hb : b) (x : Prog σ Unit) : when b x = x := if_pos hb

theorem when_of_not [Decidable b] (hb : ¬ b) (x : Prog σ Unit) :
    when b x = pure () := if_neg hb

/-- An early return inside does not stop the caller. -/
theorem ignoreErr_of_ok (h : x s = (.ok a, s')) : ignoreErr x s = (.ok (), s') := by
  unfold ignoreErr
  rw [h]

-- ==== footprints

/-- Every outcome of `x` relates the state before to the state after. -/
def Keeps (R : σ → σ → Prop) (x : Prog σ α) : Prop :=
  ∀ s, R s (x s).2

variable {R : σ → σ → Prop}

theorem Keeps.of_run (h : Keeps R x) (hrun : x s = (r, s')) : R s s' := by
  have hs := h s
  rw [hrun] at hs
  exact hs

theorem Keeps.pure (hr : ∀ s, R s s) (a : α) : Keeps R (pure a : Prog σ α) :=
  fun s => hr s

theorem Keeps.stop (hr : ∀ s, R s s) (e : Stop) : Keeps R (stop e : Prog σ α) :=
  fun s => hr s

theorem Keeps.bind (ht : ∀ {a b c}, R a b → R b c → R a c) (hx : Keeps R x)
    (hf : ∀ a, Keeps R (f a)) : Keeps R (x >>= f) := by
  intro s
  have h := hx s
  rw [bind_apply]
  rcases hxs : x s with ⟨r, s1⟩
  rw [hxs] at h
  cases r with
  | ok a => exact ht h (hf a s1)
  | error e => exact h

theorem Keeps.assert (hr : ∀ s, R s s) (b : Prop) [Decidable b] :
    Keeps R (assert b : Prog σ Unit) := by
  intro s
  unfold Prog.assert
  split
  · exact hr s
  · exact hr s

theorem Keeps.failIf (hr : ∀ s, R s s) (b : Prop) [Decidable b] (e : Stop) :
    Keeps R (failIf b e : Prog σ Unit) := by
  intro s
  unfold Prog.failIf
  split
  · exact hr s
  · exact hr s

theorem Keeps.ignoreErr (hx : Keeps R x) : Keeps R (ignoreErr x) := by
  intro s
  have h := hx s
  unfold Prog.ignoreErr
  rcases hxs : x s with ⟨r, s1⟩
  rw [hxs] at h
  rcases r with e | a
  · cases e <;> exact h
  · exact h

theorem Keeps.ite [Decidable b]
    (hx : Keeps R x) (hy : Keeps R y) : Keeps R (if b then x else y) := by
  split
  · exact hx
  · exact hy

/-- Sequencing when the second half needs to know what the first one
returned. -/
theorem Keeps.bind_of (ht : ∀ {a b c}, R a b → R b c → R a c)
    {Q : α → Prop} (hx : Keeps R x) (hq : ∀ s a s', x s = (.ok a, s') → Q a)
    (hf : ∀ a, Q a → Keeps R (f a)) : Keeps R (x >>= f) := by
  intro s
  have h := hx s
  rw [bind_apply]
  rcases hxs : x s with ⟨r, s1⟩
  rw [hxs] at h
  cases r with
  | ok a => exact ht h (hf a (hq s a s1 hxs) s1)
  | error e => exact h

theorem Keeps.when (hr : ∀ s, R s s) [Decidable b]
    {x : Prog σ Unit} (hx : Keeps R x) : Keeps R (when b x) :=
  Keeps.ite hx (Keeps.pure hr ())

-- ==== error codes

/-- `x` returns no error code. It may stop in another way. -/
def NoErr (x : Prog σ α) : Prop := ∀ s c s', x s ≠ (.error (.err c), s')

theorem NoErr.pure (a : α) : NoErr (pure a : Prog σ α) :=
  fun s c s' h => by cases h

theorem NoErr.bind (hx : NoErr x) (hf : ∀ a, NoErr (f a)) : NoErr (x >>= f) := by
  intro s c s' h
  rw [bind_apply] at h
  rcases hxs : x s with ⟨r, s1⟩
  rw [hxs] at h
  cases r with
  | ok a => exact hf a s1 c s' h
  | error e =>
    cases h
    exact hx s c _ hxs

theorem NoErr.ite [Decidable b] (hx : NoErr x)
    (hy : NoErr y) : NoErr (if b then x else y) := by
  split
  · exact hx
  · exact hy

theorem NoErr.ignoreErr (x : Prog σ α) : NoErr (ignoreErr x) := by
  intro s c s' h
  unfold Prog.ignoreErr at h
  rcases hxs : x s with ⟨e | a, s1⟩
  · rw [hxs] at h
    cases e <;> cases h
  · rw [hxs] at h
    cases h

/-- Whenever `x` returns an error code, the state it leaves is related
to the one it found. -/
def ErrKeeps (R : σ → σ → Prop) (x : Prog σ α) : Prop :=
  ∀ s c s', x s = (.error (.err c), s') → R s s'

theorem Keeps.errKeeps (hx : Keeps R x) : ErrKeeps R x := by
  intro s c s' h
  have hs := hx s
  rw [h] at hs
  exact hs

theorem NoErr.errKeeps (hx : NoErr x) : ErrKeeps R x :=
  fun s c s' h => absurd h (hx s c s')

/-- A first half without effect. -/
theorem ErrKeeps.bind_keeps (ht : ∀ {a b c}, R a b → R b c → R a c) (hx : Keeps R x)
    (hf : ∀ a, ErrKeeps R (f a)) : ErrKeeps R (x >>= f) := by
  intro s c s' h
  have hs := hx s
  rw [bind_apply] at h
  rcases hxs : x s with ⟨r, s1⟩
  rw [hxs] at h hs
  cases r with
  | ok a => exact ht hs (hf a s1 c s' h)
  | error e =>
    cases h
    exact hs

/-- A second half that returns no error code. -/
theorem ErrKeeps.bind_noErr (hx : ErrKeeps R x)
    (hf : ∀ a, NoErr (f a)) : ErrKeeps R (x >>= f) := by
  intro s c s' h
  rw [bind_apply] at h
  rcases hxs : x s with ⟨r, s1⟩
  rw [hxs] at h
  cases r with
  | ok a => exact absurd h (hf a s1 c s')
  | error e =>
    cases h
    exact hx s c _ hxs

theorem ErrKeeps.ite [Decidable b] (hx : ErrKeeps R x)
    (hy : ErrKeeps R y) : ErrKeeps R (if b then x else y) := by
  split
  · exact hx
  · exact hy

-- ==== triples

/-- From a state in `P`, a value is returned in `Q` and a stop happens
in `F`. -/
def Triple (P : σ → Prop) (x : Prog σ α) (Q : α → σ → Prop)
    (F : Stop → σ → Prop) : Prop :=
  ∀ s, P s →
    (∀ a s', x s = (.ok a, s') → Q a s')
      ∧ (∀ e s', x s = (.error e, s') → F e s')

section Triple

variable {P : σ → Prop} {Q : α → σ → Prop} {F : Stop → σ → Prop}

theorem Triple.pure (h : ∀ s, P s → Q a s) : Triple P (pure a : Prog σ α) Q F := by
  intro s hs
  refine ⟨fun b s' hb => ?_, fun e s' he => (by cases he)⟩
  cases hb
  exact h s hs

theorem Triple.stop (h : ∀ s, P s → F e s) : Triple P (stop e : Prog σ α) Q F := by
  intro s hs
  refine ⟨fun b s' hb => (by cases hb), fun e' s' he => ?_⟩
  cases he
  exact h s hs

theorem Triple.bind {Q' : β → σ → Prop} (hx : Triple P x Q F)
    (hf : ∀ a, Triple (Q a) (f a) Q' F) : Triple P (x >>= f) Q' F := by
  intro s hs
  obtain ⟨hok, herr⟩ := hx s hs
  rcases hxs : x s with ⟨r, s1⟩
  cases r with
  | ok a =>
    rw [bind_of_ok hxs]
    exact hf a s1 (hok a s1 hxs)
  | error e =>
    rw [bind_of_error hxs]
    refine ⟨fun b s' hb => (by cases hb), fun e' s' he => ?_⟩
    cases he
    exact herr e s1 hxs

end Triple

-- ==== totality

/-- `x` always returns a value. -/
def Total (x : Prog σ α) : Prop := ∀ s, ∃ a s', x s = (.ok a, s')

theorem Total.noErr (hx : Total x) : NoErr x := by
  intro s c s' h
  obtain ⟨a, s1, hok⟩ := hx s
  rw [hok] at h
  cases h

theorem Total.pure (a : α) : Total (pure a : Prog σ α) :=
  fun s => ⟨a, s, rfl⟩

theorem Total.bind (hx : Total x) (hf : ∀ a, Total (f a)) : Total (x >>= f) := by
  intro s
  obtain ⟨a, s1, hxs⟩ := hx s
  obtain ⟨b, s2, hfs⟩ := hf a s1
  exact ⟨b, s2, bind_ok.mpr ⟨a, s1, hxs, hfs⟩⟩

theorem Total.ite [Decidable b]
    (hx : Total x) (hy : Total y) : Total (if b then x else y) := by
  split
  · exact hx
  · exact hy

theorem Total.ignoreErr (hx : Total x) : Total (ignoreErr x) := by
  intro s
  obtain ⟨a, s', h⟩ := hx s
  refine ⟨(), s', ?_⟩
  unfold Prog.ignoreErr
  rw [h]

-- ==== indistinguishability

/-- `x` cannot tell `R`-related states apart: it returns the same and
leaves related states behind. -/
def Blind (R : σ → σ → Prop) (x : Prog σ α) : Prop :=
  ∀ s t, R s t → (x s).1 = (x t).1 ∧ R (x s).2 (x t).2

theorem Blind.pure (a : α) : Blind R (pure a : Prog σ α) :=
  fun _ _ h => ⟨rfl, h⟩

theorem Blind.stop (e : Stop) : Blind R (stop e : Prog σ α) :=
  fun _ _ h => ⟨rfl, h⟩

theorem Blind.bind (hx : Blind R x) (hf : ∀ a, Blind R (f a)) : Blind R (x >>= f) := by
  intro s t h
  obtain ⟨hval, hst⟩ := hx s t h
  rw [bind_apply, bind_apply]
  rcases hxs : x s with ⟨r, s1⟩
  rcases hxt : x t with ⟨r', t1⟩
  rw [hxs, hxt] at hval hst
  dsimp only at hval hst
  subst hval
  cases r with
  | ok a => exact hf a s1 t1 hst
  | error e => exact ⟨rfl, hst⟩

theorem Blind.ite [Decidable b] (hx : Blind R x) (hy : Blind R y) :
    Blind R (if b then x else y) := by
  split
  · exact hx
  · exact hy

theorem Blind.run (h : Blind R x) {t : σ} (hR : R s t)
    (hrun : x s = (r, s')) : ∃ t', x t = (r, t') ∧ R s' t' := by
  obtain ⟨h1, h2⟩ := h s t hR
  rw [hrun] at h1 h2
  exact ⟨(x t).2, Prod.ext h1.symm rfl, h2⟩

theorem Blind.modify {f : σ → σ} (hf : ∀ s t, R s t → R (f s) (f t)) : Blind R (modify f) :=
  fun s t h => ⟨rfl, hf s t h⟩

end Prog
