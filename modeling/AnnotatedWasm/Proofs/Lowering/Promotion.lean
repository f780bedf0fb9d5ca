import AnnotatedWasm.Proofs.Lowering.Definitions
import AnnotatedWasm.Proofs.Lowering.Globals

/-!
Globals of a module.

An annotated declaration at the top level becomes a global of the module when a compiled function
lists it in a `global` statement. `Session.Follows` says how the session stands after some of the
statements of a source, in terms of these statements alone; each statement keeps it.

After that, assignments at the top level must leave the global alone. What is checked are the names
that stand as targets themselves: a name inside a tuple can still be assigned.
-/

namespace AnnotatedWasm

namespace Lowering

open Signature (Aliases resolve)
open Syntax (Expr Stmt FuncHeader globalNamesAll)

/-- The marked definitions among statements, in order. -/
def markedDefs (known : Aliases) (body : List Stmt) : List (FuncHeader × List Stmt) :=
  body.filterMap fun
    | .funcDef _ header inner =>
      if known.isMarked header.decorators then some (header, inner) else none
    | _ => none

/-- The name that a statement declares under an annotation which names a type. -/
def declaredName? (known : Aliases) : Stmt → Option String
  | .annAssign _ target annot _ =>
    match resolve known annot with
    | .ok _ => target.name?
    | .error _ => none
  | _ => none

/-- The statement declares a name with a numeric kind and a constant of this kind. -/
def Declares (known : Aliases) (name : String) (d : Declared) : Stmt → Prop
  | .annAssign _ target annot (some e) =>
    target.name? = some name ∧ resolve known annot = .ok (.num d.kind) ∧
      constantOf? d.kind e = some d.init
  | _ => False

/-- One of the marked definitions lists the global. -/
def Lists (known : Aliases) (body : List Stmt) (g : String) : Prop :=
  ∃ d ∈ markedDefs known body, g ∈ globalNamesAll d.2

/-- The global is as it is declared in the body, before any function that lists it. -/
def DeclaredFirst (known : Aliases) (body : List Stmt) (x : Ir.Global) : Prop :=
  ∃ before stmt after, body = before ++ stmt :: after ∧
    Declares known x.name ⟨x.kind, x.init⟩ stmt ∧ ¬ Lists known before x.name

/-- The function comes from the definition, and its code refers to globals that the definition lists
before. -/
def SeesListed (d : FuncHeader × List Stmt) (f : Ir.Function) : Prop :=
  f.name = d.1.name ∧ SeesAll [] d.2 f.body

/-- The declarations of the session are those of the statements, and no name is declared twice. -/
structure Session.HasDeclared (known : Aliases) (done : List Stmt) (s : Session) : Prop where
  names : s.declared.map (·.1) = done.filterMap (declaredName? known)
  distinct : (s.declared.map (·.1)).Nodup
  declares : ∀ name d, s.declared.lookup name = some d → ∃ stmt ∈ done, Declares known name d stmt

/-- The module of the session is what the marked definitions among the statements make it. -/
structure Session.HasDefined (known : Aliases) (done : List Stmt) (s : Session) : Prop where
  promoted : ∀ g, g ∈ s.promoted ↔ Lists known done g
  distinct : s.promoted.Nodup
  globals : ∀ x ∈ s.module.globals, x.isMutable = true ∧ DeclaredFirst known done x
  functions : List.Forall₂ SeesListed (markedDefs known done) s.module.functions

/-- How the session stands after these statements. -/
structure Session.Follows (known : Aliases) (done : List Stmt) (s : Session) : Prop where
  declared : s.HasDeclared known done
  defined : s.HasDefined known done

variable {known : Aliases} {done : List Stmt} {s s' : Session} {stmt : Stmt} {env : Env}

lemma markedDefs_append (body rest : List Stmt) :
    markedDefs known (body ++ rest) = markedDefs known body ++ markedDefs known rest :=
  List.filterMap_append

lemma lists_append (body rest : List Stmt) (g : String) :
    Lists known (body ++ rest) g ↔ Lists known body g ∨ Lists known rest g := by
  simp only [Lists, markedDefs_append, List.mem_append, or_and_right, exists_or]

lemma Declares.declaredName?_eq {name : String} {d : Declared} (h : Declares known name d stmt) :
    declaredName? known stmt = some name := by
  unfold Declares at h
  split at h
  · simp [declaredName?, h.1, h.2.1]
  · cases h

lemma DeclaredFirst.snoc {x : Ir.Global} (h : DeclaredFirst known done x) (stmt : Stmt) :
    DeclaredFirst known (done ++ [stmt]) x := by
  obtain ⟨before, decl, after, rfl, hdecl, hfirst⟩ := h
  exact ⟨before, decl, after ++ [stmt], by simp, hdecl, hfirst⟩

/-! ### What a statement at the top level does -/

/-- A statement that declares nothing. -/
lemma Session.HasDeclared.skip (hs : s.HasDeclared known done) (hs' : s'.declared = s.declared)
    (hdecl : declaredName? known stmt = none) : s'.HasDeclared known (done ++ [stmt]) where
  names := by simp [hs', hs.names, hdecl]
  distinct := hs' ▸ hs.distinct
  declares name d hd := by
    rw [hs'] at hd
    obtain ⟨decl, hmem, h⟩ := hs.declares name d hd
    exact ⟨decl, List.mem_append_left _ hmem, h⟩

lemma Session.HasDeclared.declare {name : String} {d : Declared} (hs : s.HasDeclared known done)
    (hdecl : Declares known name d stmt)
    (hnew : s.declared.lookup name = none) :
    (s.declare name d).HasDeclared known (done ++ [stmt]) where
  names := by simp [Session.declare, hs.names, hdecl.declaredName?_eq]
  distinct := by
    have hnot : name ∉ s.declared.map (·.1) := by
      intro hmem
      obtain ⟨entry, hentry, rfl⟩ := List.mem_map.mp hmem
      simpa using List.lookup_eq_none_iff.mp hnew entry hentry
    rw [Session.declare, List.map_append]
    exact hs.distinct.append (List.nodup_singleton _) (List.disjoint_singleton.mpr hnot)
  declares id d' hd := by
    rw [Session.declare, List.lookup_append, Option.or_eq_some_iff] at hd
    rcases hd with hd | ⟨-, hd⟩
    · obtain ⟨decl, hmem, h⟩ := hs.declares id d' hd
      exact ⟨decl, List.mem_append_left _ hmem, h⟩
    · have heq : id = name ∧ d' = d := by
        rw [List.lookup_cons] at hd
        split at hd
        · next heq => exact ⟨eq_of_beq heq, (Option.some.inj hd).symm⟩
        · cases hd
      obtain ⟨rfl, rfl⟩ := heq
      exact ⟨stmt, by simp, hdecl⟩

/-- A statement that is no marked definition. -/
lemma Session.HasDefined.skip (hs : s.HasDefined known done) (hs' : s'.module = s.module)
    (hdef : markedDefs known [stmt] = []) : s'.HasDefined known (done ++ [stmt]) where
  promoted g := by
    rw [lists_append, Session.promoted, hs', ← Session.promoted, hs.promoted]
    simp [Lists, hdef]
  distinct := by rw [Session.promoted, hs']; exact hs.distinct
  globals x hx := by
    rw [hs'] at hx
    exact ⟨(hs.globals x hx).1, (hs.globals x hx).2.snoc stmt⟩
  functions := by
    rw [markedDefs_append, hdef, List.append_nil, hs']
    exact hs.functions

/-- A declaration that the session knows stands before the function that is lowered now, and before
all that list the global. -/
lemma Session.Follows.declaredFirst (hs : s.Follows known done) {x : Ir.Global} {d : Declared}
    (hd : s.declared.lookup x.name = some d) (hx : x = ⟨x.name, d.kind, true, d.init⟩)
    (hnew : x.name ∉ s.promoted) : DeclaredFirst known done x := by
  obtain ⟨decl, hmem, hdecl⟩ := hs.declared.declares x.name d hd
  obtain ⟨before, after, rfl⟩ := List.append_of_mem hmem
  refine ⟨before, decl, after, rfl, ?_, fun hlists => hnew ?_⟩
  · rw [hx]
    exact hdecl
  · rw [hs.defined.promoted, lists_append]
    exact .inl hlists

/-- A function that is compiled brings the globals that it lists. -/
lemma Session.Follows.function {span : Span} {header : FuncHeader} {inner : List Stmt}
    {sig : FuncSig} {ns : List Ir.Node} {b : Body} (hs : s.Follows known done)
    (hmarked : known.isMarked header.decorators = true)
    (hns : LowersStmts env inner ⟨s, startFrame header sig⟩ ns b) :
    (b.session.addFunction (b.frame.finish ns)).Follows known
      (done ++ [.funcDef span header inner]) := by
  have hopens := hns.opens
  have hdef : markedDefs known [.funcDef span header inner] = [(header, inner)] := by
    simp [markedDefs, hmarked]
  refine ⟨hs.declared.skip hopens.declared rfl, fun g => ?_, ?_, fun x hx => ?_, ?_⟩
  · have hlists : Lists known [.funcDef span header inner] g ↔ g ∈ globalNamesAll inner := by
      simp [Lists, hdef]
    rw [lists_append, ← hs.defined.promoted, hlists]
    exact hopens.promoted g
  · exact hopens.nodup hs.defined.distinct
  · rcases hopens.added x hx with hx | ⟨hnew, d, hd, heq⟩
    · exact ⟨(hs.defined.globals x hx).1, (hs.defined.globals x hx).2.snoc _⟩
    · exact ⟨by rw [heq], (hs.declaredFirst hd heq hnew).snoc _⟩
  · rw [markedDefs_append, hdef]
    have hfunctions : b.session.module.functions = s.module.functions := hns.extends.functions
    show List.Forall₂ _ _ (b.session.module.functions ++ [b.frame.finish ns])
    rw [hfunctions]
    refine List.rel_append hs.defined.functions (.cons ⟨hns.extends.name, hns.sees ?_⟩ .nil)
    -- a function starts without globals
    intro g hg
    cases hg

lemma LowersTop.follows (h : LowersTop env stmt s s')
    (hs : s.Follows env.signatures.aliases done) :
    s'.Follows env.signatures.aliases (done ++ [stmt]) := by
  cases h with
  | function hm _ _ hns => exact hs.function hm hns
  | unmarked hm =>
    exact ⟨hs.declared.skip rfl rfl, hs.defined.skip rfl (by simp [markedDefs, hm])⟩
  | declare hty hname hnew hinit =>
    exact ⟨hs.declared.declare ⟨hname, hty, hinit⟩ hnew, hs.defined.skip rfl rfl⟩
  | foreign herror =>
    exact ⟨hs.declared.skip rfl (by simp [declaredName?, herror]), hs.defined.skip rfl rfl⟩
  | assign | augAssign => exact ⟨hs.declared.skip rfl rfl, hs.defined.skip rfl rfl⟩
  | other hform =>
    cases stmt
    case funcDef | annAssign => exact absurd trivial hform
    all_goals exact ⟨hs.declared.skip rfl rfl, hs.defined.skip rfl rfl⟩

lemma LowersAll.follows {body : List Stmt} (h : LowersAll env body s s')
    (hs : s.Follows env.signatures.aliases done) :
    s'.Follows env.signatures.aliases (done ++ body) := by
  induction h generalizing done with
  | nil => rwa [List.append_nil]
  | cons hstmt _ ih =>
    rw [List.append_cons]
    exact ih (hstmt.follows hs)

lemma Session.Follows.start (known : Aliases) (log : List Event) :
    Session.Follows known [] ⟨{}, [], 0, log⟩ where
  declared := ⟨rfl, List.nodup_nil, nofun⟩
  defined := ⟨by simp [Session.promoted, Lists, markedDefs], List.nodup_nil, nofun, .nil⟩

/-- A constant has the kind that it is read as. -/
lemma kind_constantOf? {k : NumKind} {e : Expr} {init : Literal}
    (h : constantOf? k e = some init) : init.kind = k := by
  unfold constantOf? at h
  split at h
  · obtain ⟨v, -, rfl⟩ := Option.map_eq_some_iff.mp h
    exact Numeral.kind_toLiteral k v
  · cases h
    exact Literal.kind_ofInt k _
  · obtain ⟨v, -, rfl⟩ := Option.map_eq_some_iff.mp h
    exact Numeral.kind_toLiteral k _
  · cases h

/-- Of the statements of a body, no other declares a global that one of them declares. -/
lemma Session.HasDeclared.once {before after : List Stmt} {name : String} {d : Declared}
    (hs : s.HasDeclared known (before ++ stmt :: after)) (hdecl : Declares known name d stmt) :
    ∀ other ∈ before ++ after, declaredName? known other ≠ some name := by
  have hnodup := hs.distinct
  rw [hs.names, List.filterMap_append, List.filterMap_cons_some hdecl.declaredName?_eq,
    List.nodup_middle, List.nodup_cons, ← List.filterMap_append] at hnodup
  exact fun other hother heq => hnodup.1 (List.mem_filterMap.mpr ⟨other, hother, heq⟩)

/-- What a global of the module comes from: a constant of its kind, in the only declaration of its
name in the source, before any function that lists it. -/
def DeclaredOnce (known : Aliases) (body : List Stmt) (x : Ir.Global) : Prop :=
  x.isMutable = true ∧ x.init.kind = x.kind ∧
    ∃ before stmt after, body = before ++ stmt :: after ∧
      Declares known x.name ⟨x.kind, x.init⟩ stmt ∧ ¬ Lists known before x.name ∧
      ∀ other ∈ before ++ after, declaredName? known other ≠ some x.name

lemma Session.Follows.declaredOnce {x : Ir.Global} (hs : s.Follows known done)
    (hx : x ∈ s.module.globals) : DeclaredOnce known done x := by
  obtain ⟨hmutable, before, stmt, after, rfl, hdecl, hfirst⟩ := hs.defined.globals x hx
  refine ⟨hmutable, ?_, before, stmt, after, rfl, hdecl, hfirst, hs.declared.once hdecl⟩
  unfold Declares at hdecl
  split at hdecl
  · exact kind_constantOf? hdecl.2.2
  · cases hdecl

end Lowering

open Lowering Signature

lemma follows_of_lower {options : Options} {m : Syntax.Module} {log log' : List Event}
    {ir : Ir.Module} (h : Returns (lower options m) log ir log') :
    ∃ s : Session, s.Follows (knownAfter {} m.body) m.body ∧ s.module = ir := by
  obtain ⟨sigs, log₁, s, hsigs, hall, rfl, -⟩ := returns_lower h
  obtain ⟨haliases, -⟩ := returns_collectFrom hsigs List.nodup_nil
  have hfollows := hall.follows (.start _ log₁)
  rw [List.nil_append] at hfollows
  exact ⟨s, haliases ▸ hfollows, rfl⟩

/-- **Globals of a module**: they have different names; a module has a global if and only if a
function that is compiled lists it, at any depth; each is mutable and comes from the one declaration
of its name, which stands before the functions that list it. Where the code of a function refers to
a global, the function lists it earlier. -/
theorem lower_globals_listed (options : Options) (m : Syntax.Module) (log : List Event)
    (ir : Ir.Module) (log' : List Event) (h : Returns (lower options m) log ir log') :
    (ir.globals.map (·.name)).Nodup ∧
    (∀ g, g ∈ ir.globals.map (·.name) ↔
      ∃ d ∈ markedDefs (knownAfter {} m.body) m.body, g ∈ Syntax.globalNamesAll d.2) ∧
    (∀ x ∈ ir.globals, DeclaredOnce (knownAfter {} m.body) m.body x) ∧
    List.Forall₂ SeesListed (markedDefs (knownAfter {} m.body) m.body) ir.functions := by
  obtain ⟨s, hs, rfl⟩ := follows_of_lower h
  exact ⟨hs.defined.distinct, hs.defined.promoted, fun x hx => hs.declaredOnce hx,
    hs.defined.functions⟩

/-- Two declarations, of which one becomes a global: it is listed inside a loop, and again in a
second function. What an unmarked function lists does not count. -/
def tallySource : Syntax.Module :=
  let p : Span := ⟨0, 0⟩
  let i32 : Syntax.Expr := .name p "i32"
  let marker : Syntax.Expr := .name p "wasmfunc"
  { body := [
      .importNames p ["wasmfunc"] [("wasmfunc", none), ("i32", none), ("f32", none)],
      .annAssign p (.name p "ratio") (.name p "f32") (some (.number p "2")),
      .annAssign p (.name p "tally") i32 (some (.unary p .neg (.number p "6"))),
      .funcDef p ⟨"skipped", [], none, []⟩ [.global p ["ratio"]],
      .funcDef p ⟨"count", [.mk "n" p (some i32) none], none, [marker]⟩ [
        .whileLoop p (.name p "n") [
          .global p ["tally"],
          .augAssign p (.name p "tally") .add (.name p "n"),
          .breakLoop p] []],
      .funcDef p ⟨"read", [], some i32, [marker]⟩ [
        .global p ["tally"],
        .ret p (some (.name p "tally"))]] }

theorem lower_globals_listed_tally : ∃ ir log', Returns (lower {} tallySource) [] ir log' ∧
    ir.globals = [⟨"tally", .i32, true, .i32 (-6)⟩] ∧
    (∀ x ∈ ir.globals, DeclaredOnce (knownAfter {} tallySource.body) tallySource.body x) ∧
    List.Forall₂ SeesListed (markedDefs (knownAfter {} tallySource.body) tallySource.body)
      ir.functions := by
  have hrun : ((lower {} tallySource).run.run []).1.toOption.map (·.globals) =
      some [⟨"tally", .i32, true, .i32 (-6)⟩] := by decide +kernel
  obtain ⟨ir, hir, hglobals⟩ := Option.map_eq_some_iff.mp hrun
  have h := Returns.of_toOption hir
  obtain ⟨-, -, honce, hsees⟩ := lower_globals_listed _ _ _ _ _ h
  exact ⟨ir, _, h, hglobals, honce, hsees⟩

/-! ### Assignments at the top level -/

namespace Syntax

/-- What a statement assigns to. -/
def Stmt.targets : Stmt → List Expr
  | .assign _ targets _ => targets
  | .augAssign _ target _ _ => [target]
  | .annAssign _ target _ (some _) => [target]
  | _ => []

mutual

/-- The names that get a value when a target does. -/
def Expr.targetNames : Expr → List String
  | .name _ id => [id]
  | .tuple _ elems | .list _ elems => targetNamesAll elems
  | .starred _ e => e.targetNames
  | _ => []

def targetNamesAll : List Expr → List String
  | [] => []
  | e :: es => e.targetNames ++ targetNamesAll es

end

end Syntax

namespace Lowering

open Syntax (Expr Stmt FuncHeader globalNamesAll)

variable {env : Env} {s s' : Session}

/-- A target that is a name has no other names. -/
lemma eq_of_mem_targetNames {target : Expr} {id g : String} (h : target.name? = some id)
    (hg : g ∈ target.targetNames) : g = id := by
  obtain ⟨p, rfl⟩ := eq_name_of_name? h
  exact List.mem_singleton.mp hg

/-- The run over a body, around one of its statements. -/
lemma LowersAll.around {before after : List Stmt} {stmt : Stmt}
    (h : LowersAll env (before ++ stmt :: after) s s') :
    ∃ s₁ s₂, LowersAll env before s s₁ ∧ LowersTop env stmt s₁ s₂ := by
  induction before generalizing s with
  | nil =>
    cases h with
    | cons hstmt _ => exact ⟨_, _, .nil, hstmt⟩
  | cons first before ih =>
    cases h with
    | cons hfirst hrest =>
      obtain ⟨s₁, s₂, hbefore, hstmt⟩ := ih hrest
      exact ⟨s₁, s₂, .cons hfirst hbefore, hstmt⟩

/-- Globals of the module are declared. -/
lemma Session.Follows.mem_declared {known : Aliases} {done : List Stmt}
    (hs : s.Follows known done) {g : String} (hg : g ∈ s.promoted) :
    g ∈ s.declared.map (·.1) := by
  obtain ⟨x, hx, rfl⟩ := List.mem_map.mp hg
  obtain ⟨-, before, decl, after, rfl, hdecl, -⟩ := hs.defined.globals x hx
  rw [hs.declared.names]
  exact List.mem_filterMap.mpr ⟨decl, by simp, hdecl.declaredName?_eq⟩

/-- A statement that is accepted has no global of the module as a target, unless its annotation is
not looked at. -/
lemma LowersTop.unwritten {stmt : Stmt} {done : List Stmt} (h : LowersTop env stmt s s')
    (hs : s.Follows env.signatures.aliases done) {target : Expr}
    (ht : target ∈ stmt.targets) {g : String} (hname : target.name? = some g)
    (hg : g ∈ s.promoted) :
    ∃ span annot value error, stmt = .annAssign span target annot value ∧
      resolve env.signatures.aliases annot = .error error := by
  have hsome : s.module.global? g ≠ none := by
    simpa [Session.promoted, Ir.Module.global?] using hg
  cases h with
  | function | unmarked => cases ht
  | @declare span _ annot e _ k _ _ _ hname' hnew _ =>
    obtain rfl := List.mem_singleton.mp ht
    rw [hname] at hname'
    cases hname'
    obtain ⟨entry, hentry, rfl⟩ := List.mem_map.mp (hs.mem_declared hg)
    simpa using List.lookup_eq_none_iff.mp hnew entry hentry
  | @foreign span _ annot value error _ herror =>
    rcases value with _ | e
    · cases ht
    · obtain rfl := List.mem_singleton.mp ht
      exact ⟨span, annot, some e, error, rfl, herror⟩
  | assign hw => exact absurd (hw target ht g hname) hsome
  | augAssign hw => exact absurd (hw target ht g hname) hsome
  | other hform =>
    cases stmt
    case assign | augAssign | annAssign => exact absurd trivial hform
    all_goals cases ht

end Lowering

open Syntax (Expr Stmt FuncHeader)

/-- **Promoted globals are left alone**: once a compiled function lists a global, a later statement
at the top level that is accepted and has this name among its targets has it inside a tuple or a
list, or is an annotated assignment whose annotation names no type. -/
theorem lower_keeps_promoted (options : Options) (m : Syntax.Module) (log : List Event)
    (ir : Ir.Module) (log' : List Event) (h : Returns (lower options m) log ir log')
    (before after : List Stmt) (span : Span) (header : FuncHeader) (inner : List Stmt)
    (hbody : m.body = before ++ .funcDef span header inner :: after)
    (hmarked : (knownAfter {} m.body).isMarked header.decorators = true) (g : String)
    (hg : g ∈ Syntax.globalNamesAll inner) (stmt : Stmt) (hstmt : stmt ∈ after) (target : Expr)
    (htarget : target ∈ stmt.targets) (hname : g ∈ target.targetNames) :
    target.name? = none ∨ ∃ span annot value error, stmt = .annAssign span target annot value ∧
      resolve (knownAfter {} m.body) annot = .error error := by
  rcases hwhole : target.name? with _ | id
  · exact .inl rfl
  obtain rfl := eq_of_mem_targetNames hwhole hname
  obtain ⟨sigs, log₁, s, hsigs, hall, -, -⟩ := returns_lower h
  obtain ⟨haliases, -⟩ := returns_collectFrom hsigs List.nodup_nil
  rw [← haliases] at hmarked ⊢
  obtain ⟨mid, rest, rfl⟩ := List.append_of_mem hstmt
  have hsplit : m.body = (before ++ .funcDef span header inner :: mid) ++ stmt :: rest := by
    rw [hbody, List.append_assoc, List.cons_append]
  rw [hsplit] at hall
  obtain ⟨s₁, s₂, hmid, hstmt⟩ := hall.around
  have hfollows := hmid.follows (.start _ log₁)
  refine .inr (hstmt.unwritten hfollows htarget hwhole ?_)
  -- the function is among the statements before
  rw [hfollows.defined.promoted]
  have hlists : Lists sigs.aliases [.funcDef span header inner] g :=
    ⟨(header, inner), by simp [markedDefs, hmarked], hg⟩
  rw [List.nil_append, List.append_cons, lists_append, lists_append]
  exact .inl (.inr hlists)

/-- A global, and after the function that lists it an assignment to another name and one under an
annotation that names no type. -/
def relabelledSource : Syntax.Module :=
  let p : Span := ⟨0, 0⟩
  { body := [
      .importNames p ["wasmfunc"] [("wasmfunc", none), ("i32", none)],
      .annAssign p (.name p "num") (.name p "i32") (some (.number p "1")),
      .funcDef p ⟨"f", [], none, [.name p "wasmfunc"]⟩ [.global p ["num"]],
      .assign p [.name p "x"] (.number p "2"),
      .annAssign p (.name p "num") (.name p "int") (some (.number p "3"))] }

theorem lower_keeps_promoted_relabelled : ∃ ir log',
    Returns (lower {} relabelledSource) [] ir log' ∧
    ir.globals.map (·.name) = ["num"] ∧
    ∀ stmt ∈ relabelledSource.body.drop 3, ∀ target ∈ stmt.targets, "num" ∈ target.targetNames →
      target.name? = none ∨ ∃ span annot value error, stmt = .annAssign span target annot value ∧
        resolve (knownAfter {} relabelledSource.body) annot = .error error := by
  have hrun : ((lower {} relabelledSource).run.run []).1.toOption.map (·.globals.map (·.name)) =
      some ["num"] := by decide +kernel
  obtain ⟨ir, hir, hglobals⟩ := Option.map_eq_some_iff.mp hrun
  have h := Returns.of_toOption hir
  refine ⟨ir, _, h, hglobals, fun stmt hstmt target htarget hname => ?_⟩
  exact lower_keeps_promoted _ _ _ _ _ h (relabelledSource.body.take 2)
    (relabelledSource.body.drop 3) _ _ _ rfl (by decide +kernel) "num" (by decide +kernel) stmt
    hstmt target htarget hname

/-- A global, and after the function that lists it `num, x = 2, 3`. -/
def unpackedSource : Syntax.Module :=
  let p : Span := ⟨0, 0⟩
  { body := [
      .importNames p ["wasmfunc"] [("wasmfunc", none), ("i32", none)],
      .annAssign p (.name p "num") (.name p "i32") (some (.number p "1")),
      .funcDef p ⟨"f", [], none, [.name p "wasmfunc"]⟩ [.global p ["num"]],
      .assign p [.tuple p [.name p "num", .name p "x"]]
        (.tuple p [.number p "2", .number p "3"])] }

/-- A name inside a tuple is assigned although it is a global of the module. -/
theorem lower_accepts_unpacked : ∃ ir log' before after span header inner stmt target,
    Returns (lower {} unpackedSource) [] ir log' ∧ ir.globals.map (·.name) = ["num"] ∧
    unpackedSource.body = before ++ .funcDef span header inner :: after ∧
    (knownAfter {} unpackedSource.body).isMarked header.decorators = true ∧
    "num" ∈ Syntax.globalNamesAll inner ∧ stmt ∈ after ∧ target ∈ stmt.targets ∧
    "num" ∈ target.targetNames := by
  have hrun : ((lower {} unpackedSource).run.run []).1.toOption.map (·.globals.map (·.name)) =
      some ["num"] := by decide +kernel
  obtain ⟨ir, hir, hglobals⟩ := Option.map_eq_some_iff.mp hrun
  exact ⟨ir, _, unpackedSource.body.take 2, unpackedSource.body.drop 3, _, _, _, _, _,
    .of_toOption hir, hglobals, rfl, by decide +kernel, by decide +kernel, List.mem_cons_self,
    List.mem_cons_self, by decide +kernel⟩

end AnnotatedWasm
