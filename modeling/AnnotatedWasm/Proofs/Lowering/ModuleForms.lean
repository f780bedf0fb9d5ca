import AnnotatedWasm.Lowering.Module
import AnnotatedWasm.Proofs.Lowering.StmtForms

/-!
How the lowering of a whole source succeeds: what each top-level statement may do to the
session, and the session as it is at the end (`returns_lower`).
-/

namespace AnnotatedWasm

namespace Lowering

open Syntax (Expr Stmt Param FuncHeader)

/-- The session with one function more, and the report of it. -/
def Session.addFunction (s : Session) (f : Ir.Function) : Session :=
  { s with
    log := s.log ++ [.functionLowered f.name f.params.length f.locals.length]
    module := { s.module with functions := s.module.functions ++ [f] } }

/-- The session with one declaration more, and the report of it. -/
def Session.declare (s : Session) (name : String) (d : Declared) : Session :=
  { s with
    log := s.log ++ [.globalDeclared name d.kind]
    declared := s.declared ++ [(name, d)] }

/-- The frame in which the body of a function is lowered. -/
def startFrame (header : FuncHeader) (sig : FuncSig) : Frame :=
  .start header.name ((header.params.map Param.name).zip sig.params) sig.returns

/-- No name that stands among the targets is a global of the module. -/
def Unwritten (targets : List Expr) (s : Session) : Prop :=
  ∀ t ∈ targets, ∀ name, t.name? = some name → s.module.global? name = none

/-- The four forms of statement that matter at the top level. -/
def IsTopForm : Stmt → Prop
  | .funcDef .. | .annAssign .. | .assign .. | .augAssign .. => True
  | _ => False

/-- What a statement at the top level does to the session. -/
inductive LowersTop (env : Env) : Stmt → Session → Session → Prop
  | function {span header body sig s ns b} :
      env.signatures.aliases.isMarked header.decorators = true →
      env.signatures.get? header.name = some sig →
      (∀ ty ∈ sig.params ++ [sig.returns], env.options.missing? ty = none) →
      LowersStmts env body ⟨s, startFrame header sig⟩ ns b →
      LowersTop env (.funcDef span header body) s (b.session.addFunction (b.frame.finish ns))
  | unmarked {span header body s} : env.signatures.aliases.isMarked header.decorators = false →
      LowersTop env (.funcDef span header body) s s
  | declare {span target annot e name k init s} :
      Signature.resolve env.signatures.aliases annot = .ok (.num k) → target.name? = some name →
      s.declared.lookup name = none → constantOf? k e = some init →
      LowersTop env (.annAssign span target annot (some e)) s (s.declare name ⟨k, init⟩)
  | foreign {span target annot value error s} :
      Signature.resolve env.signatures.aliases annot = .error error →
      LowersTop env (.annAssign span target annot value) s s
  | assign {span targets value s} : Unwritten targets s →
      LowersTop env (.assign span targets value) s s
  | augAssign {span target op value s} : Unwritten [target] s →
      LowersTop env (.augAssign span target op value) s s
  | other {stmt s} : ¬ IsTopForm stmt → LowersTop env stmt s s

inductive LowersAll (env : Env) : List Stmt → Session → Session → Prop
  | nil {s} : LowersAll env [] s s
  | cons {stmt rest s s₁ s'} : LowersTop env stmt s s₁ → LowersAll env rest s₁ s' →
      LowersAll env (stmt :: rest) s s'

/-! ### Every successful run has a derivation -/

variable {env : Env} {s s' : Session} {span : Span} {u : Unit}

lemma returns_noteModule {e : Event} :
    Returns (noteModule e) s u s' ↔ s' = { s with log := s.log ++ [e] } := by
  simp [noteModule]

lemma returns_requireTypes : ∀ {tys : List Ty}, Returns (requireTypes env span tys) s u s' ↔
    (∀ ty ∈ tys, env.options.missing? ty = none) ∧ s' = s
  | [] => by simp [requireTypes]
  | ty :: tys => by
    simp only [requireTypes, requireType, Returns.bind_iff, List.forall_mem_cons]
    rcases hm : env.options.missing? ty with _ | feature
    · simp [returns_requireTypes]
    · simp

lemma returns_lowerBody_iff {start : Frame} {body : List Stmt} {f : Ir.Function} :
    Returns (lowerBody env start body) s f s' ↔
      ∃ ns b, Returns (lowerStmts env body) ⟨s, start⟩ ns b ∧ f = b.frame.finish ns ∧
        s' = b.session := by
  simp only [lowerBody, Returns.bind_iff, Returns.get_iff]
  constructor
  · rintro ⟨_, s, ⟨rfl, rfl⟩, h⟩
    split at h
    · next ns b hrun =>
      simp at h
      obtain ⟨rfl, rfl⟩ := h
      exact ⟨ns, b, hrun, rfl, rfl⟩
    · simp at h
  · rintro ⟨ns, b, hrun, rfl, rfl⟩
    refine ⟨s, s, ⟨rfl, rfl⟩, ?_⟩
    have hrun : (lowerStmts env body).run ⟨s, start⟩ = (.ok ns, b) := hrun
    simp [hrun]

lemma returns_lowerBody {start : Frame} {body : List Stmt} {f : Ir.Function}
    (h : Returns (lowerBody env start body) s f s') :
    ∃ ns b, Returns (lowerStmts env body) ⟨s, start⟩ ns b ∧ f = b.frame.finish ns ∧
      s' = b.session :=
  returns_lowerBody_iff.mp h

lemma returns_checkWrite {target : Expr} :
    Returns (checkWrite target) s u s' ↔ Unwritten [target] s ∧ s' = s := by
  unfold checkWrite
  rcases hn : target.name? with _ | name
  · simp [Unwritten, hn]
  · simp [Unwritten, hn, and_comm]

lemma returns_checkWrites {targets : List Expr} :
    Returns (checkWrites targets) s u s' ↔ Unwritten targets s ∧ s' = s := by
  induction targets with
  | nil => simp [checkWrites, Unwritten]
  | cons target targets ih =>
    have hcons : Unwritten (target :: targets) s ↔ Unwritten [target] s ∧ Unwritten targets s := by
      simp [Unwritten]
    simp only [checkWrites, Returns.bind_iff, returns_checkWrite, hcons]
    constructor
    · rintro ⟨_, _, ⟨htarget, rfl⟩, h⟩
      obtain ⟨htargets, hs⟩ := ih.mp h
      exact ⟨⟨htarget, htargets⟩, hs⟩
    · rintro ⟨⟨htarget, htargets⟩, hs⟩
      exact ⟨(), s, ⟨htarget, rfl⟩, ih.mpr ⟨htargets, hs⟩⟩

lemma returns_declareGlobal {target annot : Expr} {value : Option Expr}
    (h : Returns (declareGlobal env target annot value span) s u s') :
    LowersTop env (.annAssign span target annot value) s s' := by
  unfold declareGlobal at h
  split at h
  · next he =>
    simp at h
    subst h
    exact .foreign he
  · next ty hty =>
    rcases ht : target.name? with _ | name
    · simp [ht] at h
    rcases hk : ty.kind? with _ | k
    · simp [ht, hk] at h
    rcases value with _ | e
    · simp [ht, hk] at h
    rcases hc : constantOf? k e with _ | init
    · simp [ht, hk, hc] at h
    simp [ht, hk, hc, returns_noteModule] at h
    obtain ⟨hn, rfl⟩ := h
    have hnew : s.declared.lookup name = none := by
      simp only [List.lookup_eq_none_iff, Prod.forall, bne_iff_ne]
      rintro id d hd rfl
      exact hn d hd
    have hnum : ty = .num k := by cases ty <;> simp_all [Ty.kind?]
    exact .declare (hnum ▸ hty) ht hnew hc

lemma returns_lowerFunction_iff {header : FuncHeader} {body : List Stmt} :
    Returns (lowerFunction env header body span) s u s' ↔
      ∃ sig ns b, env.signatures.get? header.name = some sig ∧
        (∀ ty ∈ sig.params ++ [sig.returns], env.options.missing? ty = none) ∧
        Returns (lowerStmts env body) ⟨s, startFrame header sig⟩ ns b ∧
        s' = b.session.addFunction (b.frame.finish ns) := by
  unfold lowerFunction
  rcases hsig : env.signatures.get? header.name with _ | sig
  · simp
  · simp only [Returns.bind_iff, Returns.modify_iff, returns_noteModule, returns_requireTypes,
      returns_lowerBody_iff, Option.some.injEq]
    constructor
    · rintro ⟨_, _, ⟨htypes, rfl⟩, _, _, ⟨ns, b, hns, rfl, rfl⟩, _, _, rfl, rfl⟩
      exact ⟨sig, ns, b, rfl, htypes, hns, rfl⟩
    · rintro ⟨_, ns, b, rfl, htypes, hns, rfl⟩
      exact ⟨(), s, ⟨htypes, rfl⟩, _, _, ⟨ns, b, hns, rfl, rfl⟩, (), _, rfl, rfl⟩

lemma returns_lowerFunction {header : FuncHeader} {body : List Stmt}
    (hm : env.signatures.aliases.isMarked header.decorators = true)
    (h : Returns (lowerFunction env header body span) s u s') :
    LowersTop env (.funcDef span header body) s s' := by
  obtain ⟨sig, ns, b, hsig, htypes, hns, rfl⟩ := returns_lowerFunction_iff.mp h
  exact .function hm hsig htypes (lowersStmts_of_returns body hns)

lemma returns_lowerTopLevel {stmt : Stmt} (h : Returns (lowerTopLevel env stmt) s u s') :
    LowersTop env stmt s s' := by
  unfold lowerTopLevel at h
  split at h
  · simp only [Returns.ite_iff, Returns.pure_iff] at h
    rcases h with ⟨hm, h⟩ | ⟨hm, -, rfl⟩
    · exact returns_lowerFunction hm h
    · exact .unmarked (by simpa using hm)
  · exact returns_declareGlobal h
  · obtain ⟨hw, rfl⟩ := returns_checkWrites.mp h
    exact .assign hw
  · obtain ⟨hw, rfl⟩ := returns_checkWrite.mp h
    exact .augAssign hw
  · next h1 h2 h3 h4 =>
    simp at h
    subst h
    refine .other fun hform => ?_
    cases stmt
    case funcDef => exact h1 _ _ _ rfl
    case annAssign => exact h2 _ _ _ _ rfl
    case assign => exact h3 _ _ _ rfl
    case augAssign => exact h4 _ _ _ _ rfl
    all_goals exact hform

lemma returns_lowerAll : ∀ {body : List Stmt} {s : Session},
    Returns (lowerAll env body) s u s' → LowersAll env body s s'
  | [], s, h => by
    simp [lowerAll] at h
    subst h
    exact .nil
  | stmt :: rest, s, h => by
    simp only [lowerAll, Returns.bind_iff] at h
    obtain ⟨_, s₁, h1, h2⟩ := h
    exact .cons (returns_lowerTopLevel h1) (returns_lowerAll h2)

end Lowering

open Lowering in
/-- The signatures of a source are collected first, and then its statements are lowered in
order, from an empty session. -/
lemma returns_lower_iff {options : Options} {m : Syntax.Module} {log log' : List Event}
    {ir : Ir.Module} : Returns (lower options m) log ir log' ↔
      ∃ sigs log₁ s, Returns (Signature.collect m) log sigs log₁ ∧
        Returns (lowerAll ⟨options, sigs⟩ m.body) ⟨{}, [], 0, log₁⟩ () s ∧
        ir = s.module ∧ log' = s.log := by
  simp only [lower, Returns.bind_iff, Returns.get_iff]
  constructor
  · rintro ⟨sigs, log₁, hsigs, _, log₂, ⟨rfl, rfl⟩, h⟩
    split at h
    · next s hrun =>
      simp at h
      obtain ⟨rfl, rfl⟩ := h
      exact ⟨sigs, _, s, hsigs, hrun, rfl, rfl⟩
    · simp at h
  · rintro ⟨sigs, log₁, s, hsigs, hrun, rfl, rfl⟩
    refine ⟨sigs, log₁, hsigs, log₁, log₁, ⟨rfl, rfl⟩, ?_⟩
    have hrun : (lowerAll ⟨options, sigs⟩ m.body).run ⟨{}, [], 0, log₁⟩ = (.ok (), s) := hrun
    simp [hrun]

open Lowering in
lemma returns_lower {options : Options} {m : Syntax.Module} {log log' : List Event}
    {ir : Ir.Module} (h : Returns (lower options m) log ir log') :
    ∃ sigs log₁ s, Returns (Signature.collect m) log sigs log₁ ∧
      LowersAll ⟨options, sigs⟩ m.body ⟨{}, [], 0, log₁⟩ s ∧ ir = s.module ∧ log' = s.log := by
  obtain ⟨sigs, log₁, s, hsigs, hrun, hir, hlog⟩ := returns_lower_iff.mp h
  exact ⟨sigs, log₁, s, hsigs, returns_lowerAll hrun, hir, hlog⟩

end AnnotatedWasm
