import AnnotatedWasm.Event
import Mathlib

/-!
Successful runs of computations that have a state and may fail.

`Returns x s a s'` says that `x`, started in `s`, ends in `s'` with the value `a`. One lemma for
each way to build a computation takes such a run apart into the runs of its pieces. `Fails` says
that a computation ends with an error.
-/

namespace AnnotatedWasm

variable {ε σ α β : Type}

/-- The computation succeeds with this value and leaves this state. -/
def Returns (x : ExceptT ε (StateM σ) α) (s : σ) (a : α) (s' : σ) : Prop :=
  x.run.run s = (.ok a, s')

namespace Returns

variable {x : ExceptT ε (StateM σ) α} {s s' : σ}

@[simp] lemma bind_iff {f : α → ExceptT ε (StateM σ) β} {b : β} :
    Returns (x >>= f) s b s' ↔ ∃ a t, Returns x s a t ∧ Returns (f a) t b s' := by
  unfold Returns
  rw [ExceptT.run_bind, StateT.run_bind]
  rcases x.run.run s with ⟨e | a, t⟩
  · constructor
    · intro h; cases h
    · rintro ⟨_, _, h, -⟩; cases h
  · constructor
    · exact fun h => ⟨a, t, rfl, h⟩
    · rintro ⟨_, _, h, h'⟩; cases h; exact h'

@[simp] lemma pure_iff {a b : α} :
    Returns (pure a : ExceptT ε (StateM σ) α) s b s' ↔ b = a ∧ s' = s := by
  constructor
  · intro h; cases h; exact ⟨rfl, rfl⟩
  · rintro ⟨rfl, rfl⟩; rfl

@[simp] lemma map_iff {f : α → β} {b : β} :
    Returns (f <$> x) s b s' ↔ ∃ a, Returns x s a s' ∧ b = f a := by
  rw [map_eq_pure_bind, bind_iff]
  simp only [pure_iff]
  constructor
  · rintro ⟨a, t, h, rfl, rfl⟩; exact ⟨a, h, rfl⟩
  · rintro ⟨a, h, rfl⟩; exact ⟨a, s', h, rfl, rfl⟩

@[simp] lemma throw_iff {e : ε} {a : α} :
    Returns (throw e : ExceptT ε (StateM σ) α) s a s' ↔ False := by
  constructor
  · intro h; cases h
  · exact False.elim

@[simp] lemma get_iff {t : σ} :
    Returns (get : ExceptT ε (StateM σ) σ) s t s' ↔ t = s ∧ s' = s := by
  constructor
  · intro h; cases h; exact ⟨rfl, rfl⟩
  · rintro ⟨rfl, rfl⟩; rfl

@[simp] lemma set_iff {t : σ} {u : PUnit} :
    Returns (set t : ExceptT ε (StateM σ) PUnit) s u s' ↔ s' = t := by
  constructor
  · intro h; cases h; rfl
  · rintro rfl; rfl

@[simp] lemma modify_iff {f : σ → σ} {u : PUnit} :
    Returns (modify f : ExceptT ε (StateM σ) PUnit) s u s' ↔ s' = f s := by
  constructor
  · intro h; cases h; rfl
  · rintro rfl; rfl

@[simp] lemma ite_iff {c : Prop} [Decidable c] {y : ExceptT ε (StateM σ) α} {a : α} :
    Returns (if c then x else y) s a s' ↔
      (c ∧ Returns x s a s') ∨ (¬ c ∧ Returns y s a s') := by
  by_cases h : c <;> simp [h]

lemma adapt_iff {ε' : Type} {f : ε → ε'} {a : α} :
    Returns (ExceptT.adapt f x) s a s' ↔ Returns x s a s' := by
  have hrun : (ExceptT.adapt f x).run.run s =
      ((x.run.run s).1.mapError f, (x.run.run s).2) := rfl
  unfold Returns
  rw [hrun]
  rcases x.run.run s with ⟨e | b, t⟩
  · constructor <;> (intro h; cases h)
  · constructor <;> (intro h; cases h; rfl)

lemma of_toOption {a : α} (h : (x.run.run s).1.toOption = some a) :
    Returns x s a (x.run.run s).2 := by
  unfold Returns
  rcases hx : x.run.run s with ⟨e | b, t⟩
  · simp [hx, Except.toOption] at h
  · rw [hx] at h
    cases h
    rfl

end Returns

/-- The computation ends with this error, in whatever state. -/
def Fails (x : ExceptT ε (StateM σ) α) (s : σ) (e : ε) : Prop :=
  ∃ s', x.run.run s = (.error e, s')

namespace Fails

variable {x : ExceptT ε (StateM σ) α} {f : α → ExceptT ε (StateM σ) β} {s t : σ} {e : ε}

lemma throw (e : ε) (s : σ) : Fails (throw e : ExceptT ε (StateM σ) α) s e := ⟨s, rfl⟩

lemma bind_left (h : Fails x s e) : Fails (x >>= f) s e := by
  obtain ⟨t, ht⟩ := h
  refine ⟨t, ?_⟩
  rw [ExceptT.run_bind, StateT.run_bind, ht]
  rfl

lemma bind_right {a : α} (h : Returns x s a t) (h' : Fails (f a) t e) : Fails (x >>= f) s e := by
  obtain ⟨u, hu⟩ := h'
  refine ⟨u, ?_⟩
  rw [ExceptT.run_bind, StateT.run_bind, h]
  exact hu

end Fails

end AnnotatedWasm
