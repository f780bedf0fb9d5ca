import AnnotatedWasm.Proofs.Lowering.ModuleForms
import AnnotatedWasm.Proofs.Lowering.Typing

/-!
Lowering a source gives a well-typed module.

The session is sound when its functions are well typed against the globals that the module has
so far and each of these globals has its declared kind. Every top-level statement keeps this,
since it only ever adds globals.
-/

namespace AnnotatedWasm

namespace Lowering

open Syntax (Stmt)

/-- The functions of the module are well typed, and its globals have their declared kinds. -/
structure Session.Sound (env : Env) (s : Session) : Prop where
  functions : ∀ f ∈ s.module.functions, f.Typed s.module.globals env.signatures.get?
  declared : ∀ name g, s.module.global? name = some g →
    ∃ d, s.declared.lookup name = some d ∧ g.kind = d.kind

variable {env : Env} {s s' : Session}

/-- The slots of parameters stand in the order of the parameters. -/
lemma slot_paramSlots {name : String} {slot : Slot} : ∀ {params : List (String × Ty)} {first : Nat},
    lookupLast? name (Frame.paramSlots first params) = some slot →
      ∃ i, slot.index = first + i ∧ (params.map (·.2))[i]? = some slot.ty
  | [], _, h => by simp [Frame.paramSlots, lookupLast?] at h
  | (id, ty) :: params, first, h => by
    rw [Frame.paramSlots, lookupLast?] at h
    split at h
    · next hs =>
      cases h
      obtain ⟨i, hi, hty⟩ := slot_paramSlots hs
      exact ⟨i + 1, by omega, by simpa using hty⟩
    · split at h
      · cases h
        exact ⟨0, rfl, rfl⟩
      · cases h

/-- A function starts in a sound state. -/
lemma sound_start (hs : s.Sound env) (name : String) (params : List (String × Ty)) (returns : Ty) :
    Body.Sound env ⟨s, .start name params returns⟩ where
  slots id slot h := by
    obtain ⟨i, hi, hty⟩ := slot_paramSlots h
    rw [hi, Nat.zero_add]
    simpa [Body.scope, Frame.slotTypes, Frame.start] using hty
  globals id t h := by cases h
  declared id t h := by
    obtain ⟨g, hg, rfl⟩ := Option.map_eq_some_iff.mp h
    obtain ⟨d, hd, hk⟩ := hs.declared id g hg
    exact ⟨d, hd, by rw [hk]⟩

/-- A function whose statements are well typed is well typed. -/
lemma typed_finish {b : Body} {ns : List Ir.Node} (h : SettlesAll env ns b) :
    (b.frame.finish ns).Typed b.session.module.globals env.signatures.get? := by
  refine ⟨fun n hn => ?_, fun n hn => (h.1 n hn).2⟩
  rw [Ir.Function.subnodes, Ir.Node.subnodesAll_eq] at hn
  obtain ⟨m, hm, hn⟩ := List.mem_flatMap.mp hn
  exact (h.1 m hm).1 n hn

lemma LowersTop.sound {stmt : Stmt} (h : LowersTop env stmt s s') (hs : s.Sound env) :
    s'.Sound env := by
  cases h with
  | @function _ header _ sig _ ns b _ _ _ hns =>
    have hsettles := hns.settles (sound_start hs _ _ _)
    have hext := hns.extends
    constructor
    · intro f hf
      have hf' : f ∈ b.session.module.functions ++ [b.frame.finish ns] := hf
      rw [hext.functions] at hf'
      rcases List.mem_append.mp hf' with hf' | hf'
      · exact (hs.functions f hf').mono hext.globals
      · rw [List.mem_singleton.mp hf']
        exact typed_finish hsettles
    · intro name g hg
      have hty : (b.scope env).globalTy? name = some (.num g.kind) :=
        Option.map_eq_some_iff.mpr ⟨g, hg, rfl⟩
      obtain ⟨d, hd, hk⟩ := hsettles.2.declared name _ hty
      exact ⟨d, hd, by simpa using hk⟩
  | declare _ _ hnew _ =>
    refine ⟨hs.functions, fun id g hg => ?_⟩
    obtain ⟨d, hd, hk⟩ := hs.declared id g hg
    exact ⟨d, by simp [Session.declare, List.lookup_append, hd], hk⟩
  | unmarked _ | foreign _ | assign _ | augAssign _ | other _ => exact hs

lemma LowersAll.sound {body : List Stmt} (h : LowersAll env body s s') (hs : s.Sound env) :
    s'.Sound env := by
  induction h with
  | nil => exact hs
  | cons h _ ih => exact ih (h.sound hs)

end Lowering

/-- **Type soundness**: every function that lowering gives is well typed, with the globals of
the module and the signatures that were collected before. -/
theorem lower_typed (options : Options) (m : Syntax.Module) (log : List Event) (ir : Ir.Module)
    (log' : List Event) (h : Returns (lower options m) log ir log') :
    ∃ sigs log₁, Returns (Signature.collect m) log sigs log₁ ∧
      ∀ f ∈ ir.functions, f.Typed ir.globals sigs.get? := by
  obtain ⟨sigs, log₁, s, hsigs, hall, rfl, -⟩ := returns_lower h
  refine ⟨sigs, log₁, hsigs, (hall.sound ⟨?_, ?_⟩).functions⟩
  · simp
  · simp [Ir.Module.global?]

/-- A source with a global, a parameter that is assigned, a loop with `break`, and operands of
two kinds. -/
def drainSource : Syntax.Module :=
  let p : Span := ⟨0, 0⟩
  { body := [
      .importNames p ["wasmfunc"] [("wasmfunc", none), ("i32", none), ("i64", none)],
      .annAssign p (.name p "total") (.name p "i64") (some (.number p "5")),
      .funcDef p ⟨"drain", [.mk "n" p (some (.name p "i32")) none], some (.name p "i64"),
          [.name p "wasmfunc"]⟩ [
        .global p ["total"],
        .whileLoop p (.compare p (.name p "n") [(.gt, .number p "0")]) [
          .augAssign p (.name p "n") .sub (.number p "1"),
          .ifElse p (.name p "total") [.breakLoop p] [] [],
          .assign p [.name p "total"] (.binary p .add (.name p "total") (.name p "n"))] [],
        .ret p (some (.name p "total"))]] }

theorem lower_typed_drain : ∃ ir log' sigs log₁, Returns (lower {} drainSource) [] ir log' ∧
    ir.functions.map (·.name) = ["drain"] ∧
    Returns (Signature.collect drainSource) [] sigs log₁ ∧
    ∀ f ∈ ir.functions, f.Typed ir.globals sigs.get? := by
  have hrun : ((lower {} drainSource).run.run []).1.toOption.map (·.functions.map (·.name)) =
      some ["drain"] := by decide +kernel
  obtain ⟨ir, hir, hnames⟩ := Option.map_eq_some_iff.mp hrun
  have h := Returns.of_toOption hir
  obtain ⟨sigs, log₁, hsigs, htyped⟩ := lower_typed _ _ _ _ _ h
  exact ⟨ir, _, sigs, log₁, h, hnames, hsigs, htyped⟩

end AnnotatedWasm
