import AnnotatedWasm.Ir.Node
import Mathlib

/-!
Runs of intermediate code whose leaves are opaque.

A leaf (a condition, a store, a value) is any step on a state that may trap; the control nodes
around the leaves decide which of them run. A run keeps the state and the leaves it has executed,
in order, also when it ends early. Loops get a number of rounds, and a run that needs more of
them ends as `outOfFuel`.
-/

namespace AnnotatedWasm

/-- Why a run ends before its last step. `J` is the type of the places it may jump to. -/
inductive Stop (J V : Type) where
  | jump (target : J)
  | returned (value : Option V)
  | trapped
  | outOfFuel

/-- A computation on states that may end early; it keeps its state when it does. -/
abbrev Run (J V σ : Type) := ExceptT (Stop J V) (StateM σ)

namespace Stop

variable {J K V : Type}

/-- The same ending with the target of a jump renamed. -/
def map (f : J → K) : Stop J V → Stop K V
  | jump j => jump (f j)
  | returned v => returned v
  | trapped => trapped
  | outOfFuel => outOfFuel

end Stop

namespace Run

variable {J K V σ α β : Type}

/-- Repeats a round as long as it says so, within a number of rounds. -/
def rounds (round : Run J V σ Bool) : Nat → Run J V σ Unit
  | 0 => throw .outOfFuel
  | fuel + 1 => do if ← round then rounds round fuel

/-- Whether the run jumps to a place. Any other jump goes on. -/
def jumpsTo [DecidableEq J] (target : J) (x : Run J V σ Unit) : Run J V σ Bool :=
  tryCatch (do x; return false) fun
    | .jump j => if j = target then return true else throw (.jump j)
    | stop => throw stop

/-- The run with the targets of its jumps renamed. -/
def relabel (f : J → K) (x : Run J V σ α) : Run K V σ α := ExceptT.adapt (Stop.map f) x

/-! ### Runs on a state -/

variable {x y : Run J V σ α}

lemma ext (h : ∀ s, x.run.run s = y.run.run s) : x = y := funext h

lemma run_pure (a : α) (s : σ) : (pure a : Run J V σ α).run.run s = (.ok a, s) := rfl

lemma run_throw (e : Stop J V) (s : σ) : (throw e : Run J V σ α).run.run s = (.error e, s) := rfl

lemma run_bind (f : α → Run J V σ β) (s : σ) :
    (x >>= f).run.run s =
      match x.run.run s with
      | (.ok a, t) => (f a).run.run t
      | (.error e, t) => (.error e, t) := by
  rw [ExceptT.run_bind, StateT.run_bind]
  rcases x.run.run s with ⟨e | a, t⟩ <;> rfl

lemma run_jumpsTo [DecidableEq J] (target : J) (x : Run J V σ Unit) (s : σ) :
    (x.jumpsTo target).run.run s =
      match x.run.run s with
      | (.ok _, t) => (.ok false, t)
      | (.error (.jump j), t) => if j = target then (.ok true, t) else (.error (.jump j), t)
      | (.error e, t) => (.error e, t) := by
  rw [jumpsTo, ExceptT.run_tryCatch, StateT.run_bind, run_bind]
  rcases x.run.run s with ⟨(j | _ | _ | _) | _, t⟩
  · change (if j = target then pure true else throw (.jump j) : Run J V σ Bool).run.run t =
      if j = target then (.ok true, t) else (.error (.jump j), t)
    split <;> rfl
  all_goals rfl

lemma run_relabel (f : J → K) (s : σ) :
    (x.relabel f).run.run s =
      match x.run.run s with
      | (.ok a, t) => (.ok a, t)
      | (.error e, t) => (.error (e.map f), t) := by
  have h : (x.relabel f).run.run s =
      ((x.run.run s).1.mapError (Stop.map f), (x.run.run s).2) := rfl
  rw [h]
  rcases x.run.run s with ⟨e | a, t⟩ <;> rfl

/-! ### Renaming the targets of jumps -/

variable {f : J → K}

@[simp] lemma relabel_pure (a : α) : (pure a : Run J V σ α).relabel f = pure a := rfl

@[simp] lemma relabel_throw (e : Stop J V) :
    (throw e : Run J V σ α).relabel f = throw (e.map f) := rfl

@[simp] lemma relabel_bind (g : α → Run J V σ β) :
    (x >>= g).relabel f = x.relabel f >>= fun a => (g a).relabel f := by
  refine Run.ext fun s => ?_
  rw [run_relabel, run_bind, run_bind, run_relabel]
  rcases x.run.run s with ⟨e | a, t⟩
  · rfl
  · simp only [run_relabel]

lemma relabel_rounds (round : Run J V σ Bool) (fuel : Nat) :
    (rounds round fuel).relabel f = rounds (round.relabel f) fuel := by
  induction fuel with
  | zero => rfl
  | succ fuel ih =>
    rw [rounds, relabel_bind, rounds]
    congr 1
    funext again
    cases again
    · rfl
    · exact ih

end Run

/-! ### Leaves and control nodes -/

/-- What the leaves of a function do. -/
structure Leaves (S V : Type) where
  /-- A leaf changes the state and gives a value, or traps. -/
  step : Ir.Node → S → Option (V × S)
  isZero : V → Bool

namespace Leaves

variable {S V J K : Type} (I : Leaves S V)

/-- Executes a leaf. -/
def exec (n : Ir.Node) : Run J V (S × List Ir.Node) V := do
  let (s, done) ← get
  match I.step n s with
  | some (v, s') =>
    set (s', done ++ [n])
    return v
  | none =>
    set (s, done ++ [n])
    throw .trapped

/-- Executes a condition, which holds unless it is zero. -/
def test (n : Ir.Node) : Run J V (S × List Ir.Node) Bool := return !I.isZero (← I.exec n)

lemma run_exec (n : Ir.Node) (s : S) (done : List Ir.Node) :
    (I.exec n : Run J V _ V).run.run (s, done) =
      match I.step n s with
      | some (v, s') => (.ok v, (s', done ++ [n]))
      | none => (.error .trapped, (s, done ++ [n])) := by
  rw [exec, Run.run_bind]
  change (match I.step n s with | some (v, s') => _ | none => _ : Run J V _ V).run.run _ = _
  rcases I.step n s with _ | ⟨v, s'⟩ <;> rfl

@[simp] lemma relabel_exec (f : J → K) (n : Ir.Node) : (I.exec n).relabel f = I.exec n := by
  refine Run.ext fun ⟨s, done⟩ => ?_
  rw [Run.run_relabel, run_exec, run_exec]
  rcases I.step n s with _ | ⟨v, s'⟩ <;> rfl

@[simp] lemma relabel_test (f : J → K) (n : Ir.Node) : (I.test n).relabel f = I.test n := by
  rw [test, Run.relabel_bind, relabel_exec]
  rfl

end Leaves

namespace Ir.Node

variable {S V : Type} (I : Leaves S V) (fuel : Nat)

mutual

/-- Runs a node for its effect. A branch goes to the innermost construct around it that has its
label: it leaves a block and starts a loop again. -/
def run : Node → Run Label V (S × List Node) Unit
  | nop => return ()
  | unreachable => throw .trapped
  | block none ns _ => runAll ns
  | block (some l) ns _ => do let _ ← (runAll ns).jumpsTo l
  | loop l body => Run.rounds ((run body).jumpsTo l) fuel
  | ifElse c t e => do if ← I.test c then run t else runElse e
  | br l => throw (.jump l)
  | brIf l c => do if ← I.test c then throw (.jump l)
  | ret none => throw (.returned none)
  | ret (some v) => do throw (.returned (some (← I.exec v)))
  | leaf => do let _ ← I.exec leaf

def runAll : List Node → Run Label V (S × List Node) Unit
  | [] => return ()
  | n :: ns => do
    run n
    runAll ns

def runElse : Option Node → Run Label V (S × List Node) Unit
  | none => return ()
  | some n => run n

end

end Ir.Node

end AnnotatedWasm
