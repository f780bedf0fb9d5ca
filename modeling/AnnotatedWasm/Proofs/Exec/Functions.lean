import AnnotatedWasm.Proofs.Exec.Emission
import AnnotatedWasm.Proofs.Wasm.WellTypedModule

/-!
The code of a function does what the function does, and so does every function that it calls.

Calls are nested to a bounded depth, and the proof goes along this bound: functions that do the same
make the functions that call them do the same.
-/

namespace AnnotatedWasm.Exec

open Ir (Node Scope)
open Wasm (Code Symbols Pool valuesOf)

/-! ### Outcomes -/

lemma length_valuesOf (T : List Wasm.TypeDef) (t : Ty) : (valuesOf T t).length = arity t := by
  cases t <;> rfl

/-- The function and the code end in the same way, with as many values as the result has. -/
def SameOutcome (names : List String) (result : Ty) (p : Outcome × Memory String)
    (q : Outcome × Memory Nat) : Prop :=
  p.1 = q.1 ∧ p.2.Agrees names q.2 ∧ ∀ values, p.1 = .returned values → values.length = arity result

/-- Outside of all constructs a run ends early by a return, a trap or for want of fuel. -/
lemma SameStop.outcome {f : Ir.Function} {e : Stop Ir.Label Datum} {e' : Stop Wasm.Jump Wasm.Stack}
    (h : SameStop [] f.result e e') :
    f.outcome (.error e) = Wasm.outcome (arity f.result) (.error e') ∧
      ∀ values, f.outcome (.error e) = .returned values → values.length = arity f.result := by
  cases h with
  | jump hd => cases hd
  | @returned v st htake hlen =>
    have hrev : v.toList.reverse = v.toList := by cases v <;> rfl
    refine ⟨?_, ?_⟩
    · rw [Wasm.outcome, htake, hrev]
      rfl
    · rintro values ⟨⟩
      exact hlen
  | trapped => exact ⟨rfl, nofun⟩
  | outOfFuel => exact ⟨rfl, nofun⟩

variable {names : List String} {f : Ir.Function}

/-- A function without a result may end at the end of its body. -/
lemma Alike.outcome_void (hres : f.result = .void) {p : Except _ (Option Datum) × Memory String}
    {q : Except _ Wasm.Stack × Memory Nat} (h : Alike names [] f.result (Adds .void []) p q) :
    SameOutcome names f.result (f.outcome p.1, p.2) (Wasm.outcome (arity f.result) q.1, q.2) := by
  cases h with
  | @ok v _ _ _ _ hst =>
    have hout : f.outcome (.ok v) = .returned [] := by rw [Ir.Function.outcome, hres]; rfl
    refine ⟨?_, hst, ?_⟩
    · rw [hout, hres]
      rfl
    · rw [hout, hres]
      rintro values ⟨⟩
      rfl
  | stop hstop hst => exact ⟨hstop.outcome.1, hst, hstop.outcome.2⟩

/-- A function that has a result does not get past the end of its body. -/
lemma Alike.outcome_unreachable (hres : f.result.isVoid = false) {R : Option Datum → Wasm.Stack → Prop}
    {K : Twins} {p : Except _ (Option Datum) × Memory String} {y : Wasm.StackCode Wasm.Stack}
    {t : Memory Nat} (h : Alike names [] f.result R p (y.run.run t)) :
    let q := (y >>= K.instr .unreachable).run.run t
    SameOutcome names f.result (f.outcome p.1, p.2) (Wasm.outcome (arity f.result) q.1, q.2) := by
  have htrap : K.instr .unreachable = fun _ => throw .trapped := by
    funext st
    rw [Twins.instr, Wasm.Instr.exec]
  rw [htrap, Run.run_bind]
  revert h
  generalize y.run.run t = q
  rintro (@⟨v, _, _, _, -, hst⟩ | ⟨hstop, hst⟩)
  · have hout : f.outcome (.ok v) = .trapped := by rw [Ir.Function.outcome, hres]; rfl
    exact ⟨hout, hst, by rw [hout]; exact nofun⟩
  · exact ⟨hstop.outcome.1, hst, hstop.outcome.2⟩

/-! ### Functions -/

/-- The code of a function starts with the same locals, and its body does what the function
does. -/
structure FunctionRuns (Γ : Scope) (S : Symbols) (f : Ir.Function) (r : Pool) (code : Code) :
    Prop where
  locals : (Wasm.expand code.locals).map Wasm.initial = f.locals.map Ir.initial
  body : ∀ K : Twins, K.Suits Γ S r → ∀ s t, s.Agrees S.globals t →
    let q := (K.code code.body []).run.run t
    SameOutcome S.globals f.result (f.run K.arithmetic K.byName K.fuel s)
      (Wasm.outcome (arity f.result) q.1, q.2)

lemma map_initial_valuesOf (T : List Wasm.TypeDef) {ts : List Ty} (h : ∀ t ∈ ts, t ≠ .void) :
    (ts.flatMap (valuesOf T)).map Wasm.initial = ts.map Ir.initial := by
  induction ts with
  | nil => rfl
  | cons t ts ih =>
    obtain ⟨ht, hts⟩ := List.forall_mem_cons.mp h
    rw [List.flatMap_cons, List.map_append, ih hts, List.map_cons]
    cases t with
    | void => exact absurd rfl ht
    | num k => rfl
    | array k => rfl
    | str => rfl

variable {S : Symbols} {globals : List Ir.Global} {signature? : String → Option FuncSig}

lemma functionRuns_of_emits {k : Nat} {r : Pool} {code : Code}
    (hcode : Wasm.FunctionEmits S r k f code) (h : f.Encodable globals signature?) :
    FunctionRuns (f.scope globals signature?) S f r code := by
  obtain ⟨⟨hlocals, -⟩, is, his, hbody⟩ := hcode
  have hslots : ∀ t ∈ (f.scope globals signature?).slots, t ≠ .void :=
    List.forall_mem_append.mpr ⟨h.params, h.locals⟩
  have hchecks := Wasm.checksAll_body h fun hs => absurd hs Bool.false_ne_true
  obtain ⟨parts, rfl, hparts⟩ := emitsAll_performs hslots his rfl hchecks
  refine ⟨by rw [hlocals]; exact map_initial_valuesOf _ h.locals, fun K hK s t hst => ?_⟩
  rw [hbody]
  rcases hres : f.result.isVoid with _ | _
  · simp only [Bool.false_eq_true, if_false, Twins.code_snoc]
    exact (performs_body hK hparts [] s t hst).outcome_unreachable hres
  · have hvoid : f.result = .void := by cases hf : f.result <;> simp_all [Ty.isVoid]
    simp only [if_true]
    exact (performs_block hK hparts (Node.ends_void.mpr (h.ends hvoid)) [] s t hst).outcome_void
      hvoid

/-! ### Modules -/

variable {m : Ir.Module} {w : Wasm.Module} {r : Pool}

/-- The parts of a module whose code does what the functions do. -/
structure Compiled (m : Ir.Module) (w : Wasm.Module) (r : Pool) : Prop where
  types : w.types = r.types.entries
  data : w.data = r.data
  functions : List.Forall₂ (Wasm.FunctionType r.types.entries) m.functions w.functions
  codes : List.Forall₂ (fun f code => FunctionRuns (f.scope m.globals m.signature?)
    (Symbols.ofModule m) f r code) m.functions w.codes

lemma ofIr_compiled (h : m.Encodable) :
    ∃ w r, Wasm.Module.ofIr m = .ok w ∧ Compiled m w r := by
  obtain ⟨w, hw, hrep⟩ := Wasm.exists_represents h
  exact ⟨w, w.pool, hw, rfl, rfl, hrep.functions, hrep.emits.forall₂.imp fun f code ⟨hf, k, hcode⟩ =>
    functionRuns_of_emits hcode (h.functions f hf)⟩

namespace Compiled

variable {A : Arithmetic} {fuel : Nat} {calls : Calls String} {calls' : Calls Nat} {i : Nat}

lemma funcType (hw : Compiled m w r) (hi : m.functions[i]? = some f) :
    w.funcType? i = some (f.params.flatMap (valuesOf w.types), valuesOf w.types f.result) := by
  obtain ⟨j, hj, hty⟩ := Wasm.getElem?_of_forall₂ hw.functions hi
  rw [← hw.types] at hty
  rw [Wasm.Module.funcType?, hj, Option.bind_eq_bind, Option.bind_some, hty.1]

/-- A function does what its code does wherever callees do the same. -/
lemma run (hw : Compiled m w r) (hi : m.functions[i]? = some f)
    (hK : Twins.Suits ⟨w, A, fuel, calls, calls'⟩ (f.scope m.globals m.signature?)
      (Symbols.ofModule m) r)
    {s : Memory String} {t : Memory Nat} (hst : s.Agrees (m.globals.map (·.name)) t) :
    SameOutcome (m.globals.map (·.name)) f.result (f.run A calls fuel s)
      (w.run A calls' fuel i t) := by
  obtain ⟨code, hcode, hruns⟩ := Wasm.getElem?_of_forall₂ hw.codes hi
  have hbody := hruns.body _ hK s t hst
  rw [← length_valuesOf w.types f.result] at hbody
  rw [Wasm.Module.run, hw.funcType hi, hcode]
  exact hbody

/-- Machines suit a function when their callees do the same. -/
lemma suits (hw : Compiled m w r) (h : m.Encodable) (f : Ir.Function)
    (hcalls : ∀ name (i : Nat) g, m.function? name = some g → m.functions[i]? = some g →
      SameCall (m.globals.map (·.name)) g.params.length g.result (calls name) (calls' i)) :
    Twins.Suits ⟨w, A, fuel, calls, calls'⟩ (f.scope m.globals m.signature?) (Symbols.ofModule m)
      r where
  types := hw.types
  data := hw.data
  names := h.globalNames
  functions name sig i hsig hi := by
    obtain ⟨g, hg, rfl⟩ := Option.map_eq_some_iff.mp hsig
    obtain ⟨k, hk, hget⟩ := Wasm.lastIndexOf?_of_find? h.functionNames hg
    obtain rfl : k = i := Option.some.inj (hk.symm.trans hi)
    have hparams : ∀ t ∈ g.params, t ≠ .void := (h.functions g (List.mem_of_getElem? hget)).params
    have hlen : (g.params.flatMap (valuesOf w.types)).length = g.params.length := by
      simpa using congrArg List.length (map_initial_valuesOf w.types hparams)
    exact ⟨hparams, ⟨_, _, hw.funcType hget, hlen⟩, hcalls name k g hg hget⟩

/-- Calls do the same on both sides, however deep they are nested. -/
lemma sameCall (hw : Compiled m w r) (h : m.Encodable) (A : Arithmetic) :
    ∀ depth name (i : Nat) g, m.function? name = some g → m.functions[i]? = some g →
      SameCall (m.globals.map (·.name)) g.params.length g.result (m.calls A depth name)
        (w.calls A depth i)
  | 0, _, _, _, _, _ => fun _ s t _ hst => ⟨.outOfFuel, s, t, rfl, rfl, hst, nofun⟩
  | depth + 1, name, i, g, hg, hi => by
    intro args s t _ hst
    obtain ⟨code, hcode, hruns⟩ := Wasm.getElem?_of_forall₂ hw.codes hi
    have hagrees : Memory.Agrees (m.globals.map (·.name)) ⟨s, args ++ g.locals.map Ir.initial⟩
        ⟨t, args ++ (Wasm.expand code.locals).map Wasm.initial⟩ := by
      rw [hruns.locals]
      exact ⟨hst, rfl⟩
    have hsuits : Twins.Suits ⟨w, A, depth, m.calls A depth, w.calls A depth⟩
        (g.scope m.globals m.signature?) (Symbols.ofModule m) r :=
      hw.suits h g (sameCall hw h A depth)
    obtain ⟨hout, hst', hvalues⟩ := hw.run hi hsuits hagrees
    refine ⟨_, _, _, ?_, ?_, hst'.toAgrees, hvalues⟩
    · simp only [Ir.Module.calls, hg]
    · simp only [Wasm.Module.calls, hcode, hout]

end Compiled

/-- **Branches by name and by depth**: from memories that agree, each function of a well-typed
module and its code end in the same way and in memories that agree. -/
theorem ofIr_same_runs (m : Ir.Module) (h : m.Encodable) :
    ∃ w, Wasm.Module.ofIr m = .ok w ∧
      ∀ (A : Arithmetic) (fuel depth i : Nat) f, m.functions[i]? = some f →
        ∀ s t, s.Agrees (m.globals.map (·.name)) t →
          let p := f.run A (m.calls A depth) fuel s
          let q := w.run A (w.calls A depth) fuel i t
          p.1 = q.1 ∧ p.2.Agrees (m.globals.map (·.name)) q.2 := by
  obtain ⟨w, r, hw, hcompiled⟩ := ofIr_compiled h
  refine ⟨w, hw, fun A fuel depth i f hi s t hst => ?_⟩
  have hsuits : Twins.Suits ⟨w, A, fuel, m.calls A depth, w.calls A depth⟩
      (f.scope m.globals m.signature?) (Symbols.ofModule m) r :=
    hcompiled.suits h f (hcompiled.sameCall h A depth)
  have hrun := hcompiled.run hi hsuits hst
  exact ⟨hrun.1, hrun.2.1⟩

open Ir.Node in
/-- Two blocks and a loop that have one label, with arms of conditionals between them. -/
def nestedModule : Ir.Module where
  globals := [⟨"rounds", .i32, true, .i32 0⟩]
  functions := [
    { name := "pick", params := [.i32], result := .i32, locals := [], localNames := []
      body := [
        block (some "exit") [
          block (some "exit") [
            ifElse (localGet 0 .i32) (br "exit") none,
            ret (some (i32 1))] .void,
          loop "exit" (block none [
            globalSet "rounds" (localGet 0 .i32),
            ifElse (localGet 0 .i32)
              (block none [localSet 0 (i32 0), br "exit"] .void) none] .void),
          ret (some (localGet 0 .i32))] .void] }]

lemma nestedModule_encodable : nestedModule.Encodable where
  functions f hf := by
    simp only [nestedModule, List.mem_cons, List.not_mem_nil, or_false] at hf
    have hrounds : nestedModule.globals.find? (·.name = "rounds") =
      some ⟨"rounds", .i32, true, .i32 0⟩ := by decide
    subst hf
    refine ⟨?_, by simp, by simp, by simp, ?_⟩
    · simp [Ir.Function.subnodes, Ir.Node.subnodes, Ir.Node.subnodesAll, Ir.Node.subnodesOpt,
        Ir.Node.Fits, Ir.Node.Ends, Ir.Function.scope, Ir.Scope.globalTy?, hrounds, Ir.Node.ty,
        Ir.Node.i32, Literal.i32, Literal.kind]
    · simp [Ir.Node.BranchAllIn, Ir.Node.BranchesIn, Ir.Node.BranchOptIn, Ir.Enclosing.Reaches,
        Ir.Node.i32]
  functionNames := by decide
  globalNames := by decide

/-- The first branch leaves the inner block, and the second starts the loop again: the code sets the
local to zero and returns it, within two rounds. -/
theorem ofIr_same_runs_nested : ∃ w, Wasm.Module.ofIr nestedModule = .ok w ∧
    ∀ (A : Arithmetic) (t : Memory Nat), t.locals = [.num (.i32 7)] →
      (w.run A (w.calls A 0) 2 0 t).1 = .returned [.num (.i32 0)] := by
  obtain ⟨w, hw, hrun⟩ := ofIr_same_runs nestedModule nestedModule_encodable
  refine ⟨w, hw, fun A t ht => ?_⟩
  let s : Memory String := ⟨⟨fun _ => t.globals 0, t.heap⟩, [.num (.i32 7)]⟩
  have hagrees : s.Agrees ["rounds"] t := by
    refine ⟨⟨rfl, fun i name hi => ?_⟩, ht.symm⟩
    obtain ⟨rfl, -⟩ : i = 0 ∧ _ := by simpa using List.getElem?_eq_some_iff.mp hi
    rfl
  obtain ⟨hout, -⟩ := hrun A 2 0 0 _ rfl s t hagrees
  rw [← hout]
  rfl

end AnnotatedWasm.Exec
