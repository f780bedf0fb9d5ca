import AnnotatedWasm.Lowering.Stmt
import AnnotatedWasm.Proofs.Control.Run

/-!
The control structure of source statements, with every leaf in its lowered form, and what the
source language says about running it.

`Flow.ofStmts` reads the structure off the statements. It lowers conditions and other leaves as
they come, with the bookkeeping of slots and labels that lowering does, and leaves the structure
as it is written: there are no labels in a `Flow`.
-/

namespace AnnotatedWasm

open Ir (Node)
open Syntax (Stmt Branch)

mutual

/-- A statement with lowered leaves. -/
inductive Flow where
  /-- Runs from top to bottom. -/
  | simple (leaves : List Node)
  | ret (value : Option Node)
  | breakLoop
  | continueLoop
  | assert (test : Node)
  /-- `if`, then any number of `elif`, then `else`. -/
  | cond (arms : List Arm) (orelse : List Flow)
  | whileLoop (test : Node) (body orelse : List Flow)

/-- A clause with a condition. -/
inductive Arm where
  | mk (test : Node) (body : List Flow)

end

namespace Ir.Node

/-- The steps of a statement without control structure; `a = b = c` is several. -/
def parts : Node → List Node
  | nop => []
  | block none ns _ => ns
  | n => [n]

/-- The value that a `return` gives back. -/
def returned? : Node → Option Node
  | ret v => v
  | _ => none

end Ir.Node

/-! ### Reading the structure off the source -/

namespace Flow

open Lowering

mutual

def ofStmt (env : Env) : Stmt → Lower Flow
  | .ret span value => do
    let node ← lowerReturn env value span
    return .ret node.returned?
  | .breakLoop span => do
    let _ ← lowerBreak span
    return .breakLoop
  | .continueLoop span => do
    let _ ← lowerContinue span
    return .continueLoop
  | .assert _ test none => do
    let c ← lowerCondition env test
    return .assert c
  | .ifElse _ test body elifs orelse => do
    let c ← lowerCondition env test
    let body ← ofStmts env body
    let arms ← ofBranches env elifs
    let orelse ← ofStmts env orelse
    return .cond (.mk c body :: arms) orelse
  | .whileLoop _ test body orelse => do
    let id ← freshLabel
    let c ← lowerCondition env test
    setFrame ((← frame).enterLoop id)
    let body ← ofStmts env body
    setFrame (← frame).leaveLoop
    let orelse ← ofStmts env orelse
    return .whileLoop c body orelse
  | stmt => do
    let node ← lowerStmt env stmt
    return .simple node.parts

def ofStmts (env : Env) : List Stmt → Lower (List Flow)
  | [] => return []
  | s :: rest => do
    let flow ← ofStmt env s
    return flow :: (← ofStmts env rest)

def ofBranches (env : Env) : List Branch → Lower (List Arm)
  | [] => return []
  | .mk test body :: rest => do
    let c ← lowerCondition env test
    let body ← ofStmts env body
    return .mk c body :: (← ofBranches env rest)

end

end Flow

/-! ### Running it -/

/-- Where a statement may jump to: behind the innermost loop around it, or to its next test. -/
inductive LoopJump where
  | leave
  | again
deriving DecidableEq

/-- Whether a loop goes on after its body has run: after the last statement and after
`continue`, but not after `break`. -/
def Run.goesOn {V σ : Type} (body : Run LoopJump V σ Unit) : Run LoopJump V σ Bool :=
  tryCatch (do body; return true) fun
    | .jump .again => return true
    | .jump .leave => return false
    | stop => throw stop

lemma Run.run_goesOn {V σ : Type} (body : Run LoopJump V σ Unit) (s : σ) :
    body.goesOn.run.run s =
      match body.run.run s with
      | (.ok _, t) => (.ok true, t)
      | (.error (.jump .again), t) => (.ok true, t)
      | (.error (.jump .leave), t) => (.ok false, t)
      | (.error e, t) => (.error e, t) := by
  rw [goesOn, ExceptT.run_tryCatch, StateT.run_bind, run_bind]
  rcases body.run.run s with ⟨((_ | _) | _ | _ | _) | _, t⟩ <;> rfl

/-- Executes leaves in order. -/
def Leaves.execAll {S V J : Type} (I : Leaves S V) : List Node → Run J V (S × List Node) Unit
  | [] => return ()
  | n :: ns => do
    let _ ← I.exec n
    I.execAll ns

@[simp] lemma Leaves.relabel_execAll {S V J K : Type} (I : Leaves S V) (f : J → K)
    (ns : List Node) : (I.execAll ns).relabel f = I.execAll ns := by
  induction ns with
  | nil => rfl
  | cons n ns ih => simp only [execAll, Run.relabel_bind, relabel_exec, ih]

namespace Flow

variable {S V : Type} (I : Leaves S V) (fuel : Nat)

mutual

/-- Runs a statement by the rules of the source language. -/
def run : Flow → Run LoopJump V (S × List Node) Unit
  | simple leaves => I.execAll leaves
  | ret none => throw (.returned none)
  | ret (some v) => do throw (.returned (some (← I.exec v)))
  | breakLoop => throw (.jump .leave)
  | continueLoop => throw (.jump .again)
  | assert c => do if ← I.test c then return () else throw .trapped
  | cond arms orelse => runArms (runAll orelse) arms
  | whileLoop c body orelse =>
    Run.rounds (do
      if ← I.test c then
        (runAll body).goesOn
      else
        runAll orelse
        return false) fuel

def runAll : List Flow → Run LoopJump V (S × List Node) Unit
  | [] => return ()
  | f :: fs => do
    run f
    runAll fs

/-- Runs the first clause whose condition holds, or the `else` part. -/
def runArms (orelse : Run LoopJump V (S × List Node) Unit) :
    List Arm → Run LoopJump V (S × List Node) Unit
  | [] => orelse
  | .mk c body :: rest => do if ← I.test c then runAll body else runArms orelse rest

end

end Flow

end AnnotatedWasm
