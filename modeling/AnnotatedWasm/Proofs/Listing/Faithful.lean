import AnnotatedWasm.Proofs.Listing.Modules
import AnnotatedWasm.Proofs.Lowering.Branches
import AnnotatedWasm.Proofs.Lowering.Definitions
import AnnotatedWasm.Proofs.Spans.Sound

/-!
A listing tells the module that it lists.

The names in lowered code are names of the source, which are words, and numbered labels
(`legible_of_lower`). So the listing can be taken apart, and says all there is to say of the module
but the types of nodes.
-/

namespace AnnotatedWasm

open Listing
open Syntax (Stmt isWord stmtNodes)

variable {D : String → Prop}

lemma bare_of_isWord {s : String} (h : isWord s = true) : Bare s := by
  have hpart : ∀ c ∈ s.toList, Scan.isWordPart c = true := by
    unfold isWord at h
    split at h
    · cases h
    · simp_all [Scan.isWordPart]
  rw [Bare, List.any_eq_false]
  intro c hc
  have hword := hpart c hc
  simp only [delim, Bool.or_eq_true, decide_eq_true_eq]
  rintro (((rfl | rfl) | rfl) | rfl) <;> cases hword

lemma Signature.names_collectFrom {s' : Signatures} {log' : List Event} :
    ∀ {body : List Stmt} {s : Signatures} {log : List Event},
      Returns (collectFrom s body) log s' log' → (∀ c ∈ stmtNodes body, c.Names D) →
      (∀ e ∈ s.functions, D e.1) → ∀ e ∈ s'.functions, D e.1
  | [], s, log, h, _, hs => by
    simp [collectFrom] at h
    rwa [h.1]
  | stmt :: rest, s, log, h, hD, hs => by
    simp only [collectFrom, Returns.bind_iff] at h
    obtain ⟨s₁, log₁, hstmt, hrest⟩ := h
    obtain ⟨hname, hD⟩ := List.forall_mem_cons.mp hD
    refine names_collectFrom hrest hD ?_
    cases returns_collectStmt hstmt with
    | unmarked | other => exact hs
    | signed =>
      exact List.forall_mem_append.mpr ⟨hs, List.forall_mem_singleton.mpr
        ((Syntax.Node.names_iff.mp hname).1 _ (List.mem_singleton_self _))⟩

namespace Lowering

variable {env : Env} {b b' : Body} {s s' : Session}

/-- The names of slots and of globals, and that of the function, are among those. -/
structure Body.Named (D : String → Prop) (b : Body) : Prop where
  name : D b.frame.name
  locals : ∀ p ∈ b.frame.localNames, D p.2
  globals : ∀ g ∈ b.session.module.globals, D g.name

lemma Body.Moves.named {names : List String} (h : b.Moves D names b') (hb : b.Named D) :
    b'.Named D := by
  induction h with
  | grows h =>
    obtain ⟨_, _, _, rfl⟩ := h
    exact ⟨hb.name, hb.locals, hb.globals⟩
  | declare hD _ _ =>
    refine ⟨hb.name, fun p hp => ?_, hb.globals⟩
    simp only [Body.declare, Frame.declare, Frame.localNames, List.map_append, List.mem_append,
      List.map_singleton, List.mem_singleton] at hp
    obtain hp | rfl := hp
    · exact hb.locals p hp
    · exact hD
  | @openGlobal b name d hD _ _ =>
    have hframe : D (b.promote name d).frame.name ∧
        ∀ p ∈ (b.promote name d).frame.localNames, D p.2 := by
      rw [frame_promote]
      exact ⟨hb.name, hb.locals⟩
    refine ⟨hframe.1, hframe.2, ?_⟩
    rw [Body.openGlobal, globals_promote]
    split
    · exact hb.globals
    · exact List.forall_mem_append.mpr ⟨hb.globals, List.forall_mem_singleton.mpr hD⟩
  | loop _ ih =>
    obtain ⟨hname, hlocals, hglobals⟩ := ih ⟨hb.name, hb.locals, hb.globals⟩
    exact ⟨hname, hlocals, hglobals⟩
  | trans _ _ ih ih' => exact ih' (ih hb)

/-- The lines of globals and the first lines of functions are made of such names. -/
structure Session.Named (D : String → Prop) (s : Session) : Prop where
  globals : ∀ g ∈ s.module.globals, D g.name
  functions : ∀ f ∈ s.module.functions, D f.name ∧ (∀ p ∈ f.localNames, D p.2) ∧
    (f.localNames.map (·.1)).Pairwise (· < ·) ∧
    ∀ i ∈ f.localNames.map (·.1), i < f.params.length + f.locals.length

lemma named_start {header : Syntax.FuncHeader} {body : List Stmt} {span : Span} {sig : FuncSig}
    (h : (Syntax.Node.stmt (.funcDef span header body)).Names D) (hs : s.Named D) :
    Body.Named D ⟨s, startFrame header sig⟩ := by
  obtain ⟨hname, hparts⟩ := Syntax.Node.names_iff.mp h
  simp only [Syntax.Node.children, Stmt.children, List.forall_mem_append] at hparts
  refine ⟨hname _ (List.mem_singleton_self _), fun p hp => ?_, hs.globals⟩
  have hfst (first : Nat) (ps : List (String × Ty)) :
      (Frame.paramSlots first ps).map (·.1) = ps.map (·.1) := by
    induction ps generalizing first with
    | nil => rfl
    | cons q ps ih => simp [Frame.paramSlots, ih]
  have hmem : p.2 ∈ ((header.params.map Syntax.Param.name).zip sig.params).map (·.1) := by
    rw [← hfst 0]
    obtain ⟨q, hq, rfl⟩ := List.mem_map.mp hp
    exact List.mem_map_of_mem hq
  obtain ⟨q, hq, heq⟩ := List.mem_map.mp hmem
  obtain ⟨param, hparam, hparam'⟩ := List.mem_map.mp (List.of_mem_zip hq).1
  rw [← heq, ← hparam']
  exact (Syntax.Node.names_iff.mp (hparts.2.1 _ (List.mem_map_of_mem hparam))).1 _
    (List.mem_singleton_self _)

lemma LowersTop.named {stmt : Stmt} (h : LowersTop env stmt s s')
    (hD : (Syntax.Node.stmt stmt).Names D) (hs : s.Named D) : s'.Named D := by
  cases h with
  | @function _ header body sig _ ns b _ _ _ hbody =>
    have hparts := (Syntax.Node.names_iff.mp hD).2
    simp only [Syntax.Node.children, Stmt.children, List.forall_mem_append] at hparts
    have hmoves := hbody.moves hparts.2.2.2
    obtain ⟨hname, hlocals, hglobals⟩ := hmoves.named (named_start hD hs)
    obtain ⟨temps, -, htidy⟩ := hmoves.walks.tidy ⟨Frame.tidy_start _ _ _, by rintro _ _ ⟨⟩⟩
    refine ⟨hglobals, fun f hf => ?_⟩
    simp only [Session.addFunction, hbody.extends.functions, List.mem_append,
      List.mem_singleton] at hf
    obtain hf | rfl := hf
    · exact hs.functions f hf
    · exact ⟨hname, hlocals, htidy.slots.increasing, htidy.slots.listed⟩
  | unmarked | foreign | assign | augAssign | other => exact hs
  | declare => exact ⟨hs.globals, hs.functions⟩

lemma LowersAll.named {ss : List Stmt} (h : LowersAll env ss s s')
    (hD : ∀ c ∈ stmtNodes ss, c.Names D) (hs : s.Named D) : s'.Named D := by
  induction h with
  | nil => exact hs
  | cons hstmt _ ih =>
    obtain ⟨hstmtD, hD⟩ := List.forall_mem_cons.mp hD
    exact ih hD (hstmt.named hstmtD hs)

end Lowering

/-! ### Legible modules -/

namespace Ir

lemma Node.Within.labels {E E' : Enclosing} {n m : Node} (h : Within E n E' m) :
    ∀ l ∈ E'.labels, l ∈ E.labels ∨ l ∈ n.labels := by
  induction h with
  | self => exact fun l => .inl
  | @inner E n D c _ _ hc _ ih =>
    intro l hl
    have hsub := (labels_inner hc).subset
    rcases ih l hl with hl | hl
    · rw [Enclosing.labels, List.filterMap_append, List.mem_append] at hl
      exact hl.symm.imp_right fun hl => hsub (List.mem_append_left _ hl)
    · exact .inr (hsub (List.mem_append_right _ hl))

/-- The module has no float constants, neither in its functions nor as the values that its globals
start with. -/
def Module.NoFloats (m : Module) : Prop :=
  (∀ f ∈ m.functions, ∀ n ∈ f.subnodes, ∀ v ∈ n.constant?, v.kind.isFloat = false) ∧
    ∀ g ∈ m.globals, g.init.kind.isFloat = false

instance (m : Module) : Decidable m.NoFloats := inferInstanceAs (Decidable (_ ∧ _))

end Ir

open Lowering

lemma bare_of_numbered {lo hi : Nat} {l : Ir.Label} (h : Numbered lo hi l) : Bare l := by
  obtain ⟨k, i, -, -, rfl⟩ := h
  have hstem : Bare k.stem := by cases k <;> decide
  rw [Bare, LabelKind.toList_label, List.any_append, hstem, bare_repr i]
  rfl

lemma legible_of_lower {source : String} {tree : Syntax.Module} {options : Options}
    {log log' : List Event} {m : Ir.Module} (hparse : Grammar.parse source = .ok tree)
    (h : Returns (lower options tree) log m log') (hm : m.NoFloats) : m.Legible := by
  have hwords : ∀ c ∈ stmtNodes tree.body, c.Names (isWord · = true) := by
    obtain ⟨stop, hlaid⟩ := Grammar.laid_of_parse hparse
    exact fun c hc n hn => (hlaid.wellPlaced c hc n hn).named
  obtain ⟨sigs, log₁, s, hsigs, hall, rfl, -⟩ := returns_lower h
  obtain ⟨hglobals, hfunctions⟩ := hall.named hwords ⟨List.forall_mem_nil _, List.forall_mem_nil _⟩
  obtain ⟨hfresh, hbranches⟩ := hall.labelled ⟨.nil le_rfl, List.forall_mem_nil _⟩
  have htyped := (hall.sound ⟨List.forall_mem_nil _, by simp [Ir.Module.global?]⟩).functions
  have hcallee := Signature.names_collectFrom hsigs hwords (List.forall_mem_nil _)
  refine ⟨fun g hg => ⟨bare_of_isWord (hglobals g hg), hm.2 g hg⟩, fun f hf => ?_⟩
  obtain ⟨hname, hlocals, hincreasing, hlisted⟩ := hfunctions f hf
  refine ⟨bare_of_isWord hname, fun p hp => bare_of_isWord (hlocals p hp), hincreasing, hlisted,
    fun top htop n hn => ?_⟩
  have hlabels (l : Ir.Label) (hl : l ∈ top.labels) : Bare l := by
    refine bare_of_numbered (hfresh.numbered l (List.mem_flatMap_of_mem hf ?_))
    rw [Ir.Function.labels_eq]
    exact List.mem_flatMap_of_mem htop hl
  have hn' : n ∈ f.subnodes := by
    rw [Ir.Function.subnodes, Ir.Node.subnodesAll_eq]
    exact List.mem_flatMap_of_mem htop hn
  have hfits := (htyped f hf).1 n hn'
  refine ⟨fun g hg => ?_, fun g hg => ?_,
    fun l hl => hlabels l (List.mem_filterMap.mpr ⟨n, hn, hl⟩), fun l hl => ?_, hm.1 f hf n hn'⟩
  · obtain ⟨t, ht⟩ : ∃ t, (f.scope s.module.globals sigs.get?).globalTy? g = some t := by
      cases n <;> cases hg <;> exact ⟨_, hfits⟩
    obtain ⟨x, hx, -⟩ := Option.map_eq_some_iff.mp ht
    obtain rfl : x.name = g := by simpa using List.find?_some hx
    exact bare_of_isWord (hglobals x (List.mem_of_find?_eq_some hx))
  · cases n <;> cases hg
    have hmem := not_not.mp fun hmem => Option.some_ne_none _
      (hfits.symm.trans (Signature.get?_eq_none_iff.mpr hmem))
    obtain ⟨e, he, heq⟩ := List.mem_map.mp hmem
    exact heq ▸ bare_of_isWord (hcallee e he)
  · obtain ⟨E, hwithin⟩ := top.exists_within [] hn
    have hin := hwithin.branchesIn (hbranches f hf top htop)
    obtain ⟨c, hc, -⟩ := (Ir.Node.branchesIn_iff.mp hin).1 l hl
    have hmem : l ∈ E.labels := List.mem_filterMap.mpr
      ⟨c, List.mem_of_find?_eq_some hc, by simpa using List.find?_some hc⟩
    exact hlabels l ((hwithin.labels l hmem).resolve_left List.not_mem_nil)

/-- **The listing is faithful**: two modules without float constants that are lowered from sources,
whatever the options, and that have one listing differ at most in the types that nodes carry. They
have the same globals, each with its kind, mutability and first value, and functions with the same
names, parameters, results, locals, local names and bodies, texts of any content included. -/
theorem listing_faithful {source source' : String} {tree tree' : Syntax.Module}
    {options options' : Options} {log log' log₁ log₁' : List Event} {m m' : Ir.Module}
    (hparse : Grammar.parse source = .ok tree) (hparse' : Grammar.parse source' = .ok tree')
    (h : Returns (lower options tree) log m log₁)
    (h' : Returns (lower options' tree') log' m' log₁') (hm : m.NoFloats) (hm' : m'.NoFloats) (hlisting : m.listing = m'.listing) :
    m.untyped = m'.untyped :=
  Ir.Module.listing_inj (legible_of_lower hparse h hm) (legible_of_lower hparse' h' hm') hlisting

/-- A loop, and a text with a bracket, a quote and a newline in it. -/
def countdownText : String :=
  "from wasmfunc import wasmfunc, i32\n@wasmfunc\ndef f(n: i32) -> string:\n" ++
    "    while n:\n        n -= 1\n    return \"(\\\"\\n\"\n"

/-- The same in another layout and with another literal. -/
def countdownLayout : String :=
  "from wasmfunc import (wasmfunc, i32)\n\n@wasmfunc\ndef f(n:i32)->string: # down\n" ++
    "  while(n): n-=1\n  return '(' '\"\\n'\n"

theorem listing_faithful_countdown : ∃ tree tree' m m' log log',
    Grammar.parse countdownText = .ok tree ∧ Grammar.parse countdownLayout = .ok tree' ∧
    Returns (lower { strings := true } tree) [] m log ∧
    Returns (lower { strings := true } tree') [] m' log' ∧ m.NoFloats ∧ m'.NoFloats ∧
    m.listing = m'.listing ∧ m.untyped = m'.untyped := by
  let shown (source : String) : Option String := do
    let tree ← (Grammar.parse source).toOption
    let m ← ((lower { strings := true } tree).run.run []).1.toOption
    if m.NoFloats then some m.listing else none
  have hshown {source text : String} (h : shown source = some text) : ∃ tree m log,
      Grammar.parse source = .ok tree ∧ Returns (lower { strings := true } tree) [] m log ∧
        m.NoFloats ∧ m.listing = text := by
    simp only [shown, Option.bind_eq_bind, Option.bind_eq_some_iff] at h
    obtain ⟨tree, hparse, m, hm, h⟩ := h
    split at h <;> cases h
    refine ⟨tree, m, _, ?_, .of_toOption hm, ‹_›, rfl⟩
    cases hp : Grammar.parse source <;> simp_all [Except.toOption]
  have hrun : (shown countdownText).isSome ∧ shown countdownLayout = shown countdownText := by
    decide +kernel
  obtain ⟨text, htext⟩ := Option.isSome_iff_exists.mp hrun.1
  obtain ⟨tree, m, log, hparse, h, hm, hlisting⟩ := hshown htext
  obtain ⟨tree', m', log', hparse', h', hm', hlisting'⟩ := hshown (hrun.2.trans htext)
  have heq := hlisting.trans hlisting'.symm
  exact ⟨tree, tree', m, m', log, log', hparse, hparse', h, h', hm, hm', heq,
    listing_faithful hparse hparse' h h' hm hm' heq⟩

end AnnotatedWasm
