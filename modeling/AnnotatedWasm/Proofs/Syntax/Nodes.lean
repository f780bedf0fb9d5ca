import AnnotatedWasm.Syntax.Stmt
import Mathlib

/-!
The syntax tree as a tree of nodes: the parts of a source that have a span of their own.

Statements, expressions and parameters are nodes. A clause, a handler, a keyword argument and the
like are none: what stands in them is right below the node around them. The nodes below a node are
listed in the order in which they are written (`Node.children`), with their own nodes below them in
`Node.subtree`.
-/

namespace AnnotatedWasm.Syntax

inductive Node where
  | expr (e : Expr)
  | param (p : Param)
  | stmt (s : Stmt)

def Node.span : Node → Span
  | expr e => e.span
  | param p => p.span
  | stmt s => s.span

def exprNodes (es : List Expr) : List Node := es.map .expr

def optNodes (e : Option Expr) : List Node := exprNodes e.toList

def paramNodes (ps : List Param) : List Node := ps.map .param

def stmtNodes (ss : List Stmt) : List Node := ss.map .stmt

/-- The annotation comes before the default. -/
def Param.children (p : Param) : List Node := optNodes p.annot ++ optNodes p.default

/-- The nodes right below an expression. The value of a conditional is written before its test. -/
def Expr.children : Expr → List Node
  | name .. | number .. | string .. | bool .. | noneLit _ => []
  | unary _ _ e | attr _ e _ | starred _ e | await _ e | yieldFrom _ e => [.expr e]
  | binary _ _ l r | subscript _ l r | named _ l r => [.expr l, .expr r]
  | compare _ l rest => .expr l :: exprNodes (rest.map (·.2))
  | ifElse _ test body orelse => [.expr body, .expr test, .expr orelse]
  | lambda _ params body => paramNodes params ++ [.expr body]
  | call _ f args keywords => .expr f :: (exprNodes args ++ exprNodes (keywords.map (·.2)))
  | tuple _ es | list _ es | set _ es => exprNodes es
  | dict _ entries => entries.flatMap fun kv => [.expr kv.1, .expr kv.2]
  | yield _ value => optNodes value

def Branch.children : Branch → List Node
  | mk test body => .expr test :: stmtNodes body

def Handler.children : Handler → List Node
  | mk exception _ body => optNodes exception ++ stmtNodes body

/-- The nodes right below a statement. -/
def Stmt.children : Stmt → List Node
  | pass _ | breakLoop _ | continueLoop _ | global .. | nonlocal .. | importModule ..
  | importNames .. => []
  | expr _ e | del _ e => [.expr e]
  | augAssign _ target _ value => [.expr target, .expr value]
  | assign _ targets value => exprNodes targets ++ [.expr value]
  | annAssign _ target annot value => .expr target :: .expr annot :: optNodes value
  | ret _ value => optNodes value
  | assert _ test message => .expr test :: optNodes message
  | raise _ exception cause => optNodes exception ++ optNodes cause
  | ifElse _ test body elifs orelse =>
    .expr test :: (stmtNodes body ++ (elifs.flatMap Branch.children ++ stmtNodes orelse))
  | whileLoop _ test body orelse => .expr test :: (stmtNodes body ++ stmtNodes orelse)
  | forLoop _ target iter body orelse =>
    .expr target :: .expr iter :: (stmtNodes body ++ stmtNodes orelse)
  | funcDef _ h body =>
    exprNodes h.decorators ++ (paramNodes h.params ++ (optNodes h.returns ++ stmtNodes body))
  | classDef _ h body => exprNodes h.decorators ++ (exprNodes h.bases ++ stmtNodes body)
  | tryExcept _ body handlers orelse finale =>
    stmtNodes body ++ (handlers.flatMap Handler.children ++ (stmtNodes orelse ++ stmtNodes finale))
  | withItems _ items body =>
    (items.flatMap fun i => .expr i.1 :: optNodes i.2) ++ stmtNodes body

namespace Node

/-- The nodes right below a node, in the order in which they are written. -/
def children : Node → List Node
  | expr e => e.children
  | param p => p.children
  | stmt s => s.children

/-! ### Nodes below are smaller -/

variable {k : Nat}

lemma exprNodes_lt {es : List Expr} (h : sizeOf es ≤ k) :
    ∀ c ∈ exprNodes es, sizeOf c < 1 + k := by
  intro c hc
  obtain ⟨x, hx, rfl⟩ := List.mem_map.mp hc
  have hlt := List.sizeOf_lt_of_mem hx
  simp only [expr.sizeOf_spec]
  omega

lemma optNodes_lt {e : Option Expr} (h : sizeOf e ≤ k) : ∀ c ∈ optNodes e, sizeOf c < 1 + k := by
  cases e with
  | none => exact nofun
  | some x =>
    simp [optNodes, exprNodes] at h ⊢
    omega

lemma paramNodes_lt {ps : List Param} (h : sizeOf ps ≤ k) :
    ∀ c ∈ paramNodes ps, sizeOf c < 1 + k := by
  intro c hc
  obtain ⟨p, hp, rfl⟩ := List.mem_map.mp hc
  have hlt := List.sizeOf_lt_of_mem hp
  simp only [param.sizeOf_spec]
  omega

lemma stmtNodes_lt {ss : List Stmt} (h : sizeOf ss ≤ k) :
    ∀ c ∈ stmtNodes ss, sizeOf c < 1 + k := by
  intro c hc
  obtain ⟨s, hs, rfl⟩ := List.mem_map.mp hc
  have hlt := List.sizeOf_lt_of_mem hs
  simp only [stmt.sizeOf_spec]
  omega

/-- What stands in the parts of a list is smaller than the list. -/
lemma flatMap_lt {α : Type} [SizeOf α] {f : α → List Node} {as : List α} (h : sizeOf as ≤ k)
    (hf : ∀ a, ∀ c ∈ f a, sizeOf c < 1 + sizeOf a) : ∀ c ∈ as.flatMap f, sizeOf c < 1 + k := by
  intro c hc
  obtain ⟨a, ha, hc⟩ := List.mem_flatMap.mp hc
  have hlt := List.sizeOf_lt_of_mem ha
  have hle := hf a c hc
  omega

lemma sizeOf_map_snd_le {α : Type} [SizeOf α] (ps : List (α × Expr)) :
    sizeOf (ps.map (·.2)) ≤ sizeOf ps := by
  induction ps with
  | nil => simp
  | cons p ps ih =>
    obtain ⟨a, e⟩ := p
    simp at ih ⊢
    omega

lemma param_children_lt (p : Param) : ∀ c ∈ p.children, sizeOf c < 1 + sizeOf p := by
  obtain ⟨name, span, annot, default⟩ := p
  exact List.forall_mem_append.mpr
    ⟨optNodes_lt (by simp [Param.annot]; omega), optNodes_lt (by simp [Param.default])⟩

lemma expr_children_lt (e : Expr) : ∀ c ∈ e.children, sizeOf c < 1 + sizeOf e := by
  cases e with
  | name | number | string | bool | noneLit => exact nofun
  | unary | starred | await | yieldFrom => simp [Expr.children]
  | attr | binary | subscript | named | ifElse =>
    simp [Expr.children]
    omega
  | tuple | list | set => exact exprNodes_lt (by simp)
  | yield => exact optNodes_lt (by simp)
  | compare span l rest =>
    have hrest := sizeOf_map_snd_le rest
    exact List.forall_mem_cons.mpr ⟨by simp; omega, exprNodes_lt (by simp; omega)⟩
  | lambda =>
    exact List.forall_mem_append.mpr ⟨paramNodes_lt (by simp; omega), by simp⟩
  | call span f args keywords =>
    have hkeywords := sizeOf_map_snd_le keywords
    exact List.forall_mem_cons.mpr ⟨by simp; omega, List.forall_mem_append.mpr
      ⟨exprNodes_lt (by simp; omega), exprNodes_lt (by simp; omega)⟩⟩
  | dict span entries =>
    refine flatMap_lt (by simp) fun entry => ?_
    obtain ⟨key, value⟩ := entry
    simp
    omega

lemma branch_children_lt (b : Branch) : ∀ c ∈ b.children, sizeOf c < 1 + sizeOf b := by
  obtain ⟨test, body⟩ := b
  exact List.forall_mem_cons.mpr ⟨by simp; omega, stmtNodes_lt (by simp)⟩

lemma handler_children_lt (h : Handler) : ∀ c ∈ h.children, sizeOf c < 1 + sizeOf h := by
  obtain ⟨exception, name, body⟩ := h
  exact List.forall_mem_append.mpr ⟨optNodes_lt (by simp; omega), stmtNodes_lt (by simp)⟩

lemma stmt_children_lt (s : Stmt) : ∀ c ∈ s.children, sizeOf c < 1 + sizeOf s := by
  cases s with
  | pass | breakLoop | continueLoop | global | nonlocal | importModule | importNames =>
    exact nofun
  | expr | del => simp [Stmt.children]
  | augAssign =>
    simp [Stmt.children]
    omega
  | ret => exact optNodes_lt (by simp)
  | assign =>
    exact List.forall_mem_append.mpr ⟨exprNodes_lt (by simp; omega), by simp⟩
  | annAssign =>
    exact List.forall_mem_cons.mpr ⟨by simp; omega, List.forall_mem_cons.mpr
      ⟨by simp; omega, optNodes_lt (by simp)⟩⟩
  | assert => exact List.forall_mem_cons.mpr ⟨by simp; omega, optNodes_lt (by simp)⟩
  | raise =>
    exact List.forall_mem_append.mpr ⟨optNodes_lt (by simp; omega), optNodes_lt (by simp)⟩
  | ifElse =>
    simp only [Stmt.children, List.forall_mem_cons, List.forall_mem_append]
    exact ⟨by simp; omega, stmtNodes_lt (by simp; omega),
      flatMap_lt (by simp; omega) branch_children_lt, stmtNodes_lt (by simp)⟩
  | whileLoop =>
    simp only [Stmt.children, List.forall_mem_cons, List.forall_mem_append]
    exact ⟨by simp; omega, stmtNodes_lt (by simp; omega), stmtNodes_lt (by simp)⟩
  | forLoop =>
    simp only [Stmt.children, List.forall_mem_cons, List.forall_mem_append]
    exact ⟨by simp; omega, by simp; omega, stmtNodes_lt (by simp; omega), stmtNodes_lt (by simp)⟩
  | funcDef span header body =>
    obtain ⟨name, params, returns, decorators⟩ := header
    simp only [Stmt.children, List.forall_mem_append]
    exact ⟨exprNodes_lt (by simp; omega), paramNodes_lt (by simp; omega),
      optNodes_lt (by simp; omega), stmtNodes_lt (by simp)⟩
  | classDef span header body =>
    obtain ⟨name, bases, decorators⟩ := header
    simp only [Stmt.children, List.forall_mem_append]
    exact ⟨exprNodes_lt (by simp; omega), exprNodes_lt (by simp; omega), stmtNodes_lt (by simp)⟩
  | tryExcept =>
    simp only [Stmt.children, List.forall_mem_append]
    exact ⟨stmtNodes_lt (by simp; omega), flatMap_lt (by simp; omega) handler_children_lt,
      stmtNodes_lt (by simp; omega), stmtNodes_lt (by simp)⟩
  | withItems =>
    refine List.forall_mem_append.mpr ⟨flatMap_lt (by simp; omega) fun item => ?_,
      stmtNodes_lt (by simp)⟩
    obtain ⟨context, target⟩ := item
    exact List.forall_mem_cons.mpr ⟨by simp; omega, optNodes_lt (by simp)⟩

lemma sizeOf_lt_of_mem_children {c n : Node} (h : c ∈ n.children) : sizeOf c < sizeOf n := by
  cases n with
  | expr e => simpa using expr_children_lt e c h
  | param p => simpa using param_children_lt p c h
  | stmt s => simpa using stmt_children_lt s c h

/-- A node and all nodes below it, parents first. -/
def subtree (n : Node) : List Node := n :: n.children.attach.flatMap fun c => c.1.subtree
termination_by sizeOf n
decreasing_by exact sizeOf_lt_of_mem_children c.2

lemma subtree_eq (n : Node) : n.subtree = n :: n.children.flatMap subtree := by
  rw [subtree, List.flatMap_subtype fun _ _ => rfl, List.unattach_attach]

/-! ### Names -/

/-- The names that stand in a node itself. -/
def names : Node → List String
  | expr (.name _ id) => [id]
  | param p => [p.name]
  | stmt (.funcDef _ header _) => [header.name]
  | stmt (.global _ ids) => ids
  | _ => []

/-- All names in a node are among those. -/
def Names (D : String → Prop) (n : Node) : Prop := ∀ m ∈ n.subtree, ∀ id ∈ m.names, D id

lemma names_iff {D : String → Prop} {n : Node} :
    n.Names D ↔ (∀ id ∈ n.names, D id) ∧ ∀ c ∈ n.children, c.Names D := by
  unfold Names
  rw [subtree_eq, List.forall_mem_cons]
  simp only [List.forall_mem_flatMap]

lemma Names.name {D : String → Prop} {span : Span} {id : String}
    (h : (expr (.name span id)).Names D) : D id :=
  (names_iff.mp h).1 id (List.mem_singleton_self id)

end Node

/-! ### Blocks -/

def Branch.body : Branch → List Stmt
  | mk _ body => body

def Handler.body : Handler → List Stmt
  | mk _ _ body => body

/-- The blocks of a statement; one that is left out is empty. -/
def Stmt.blocks : Stmt → List (List Stmt)
  | ifElse _ _ body elifs orelse => body :: orelse :: elifs.map Branch.body
  | whileLoop _ _ body orelse | forLoop _ _ _ body orelse => [body, orelse]
  | funcDef _ _ body | classDef _ _ body | withItems _ _ body => [body]
  | tryExcept _ body handlers orelse finale => body :: orelse :: finale :: handlers.map Handler.body
  | _ => []

/-- The blocks of a statement that cannot be left out. -/
def Stmt.bodies : Stmt → List (List Stmt)
  | ifElse _ _ body elifs _ => body :: elifs.map Branch.body
  | whileLoop _ _ body _ | forLoop _ _ _ body _ => [body]
  | funcDef _ _ body | classDef _ _ body | withItems _ _ body => [body]
  | tryExcept _ body handlers _ _ => body :: handlers.map Handler.body
  | _ => []

def Node.bodies : Node → List (List Stmt)
  | stmt s => s.bodies
  | _ => []

/-- All nodes of a source. -/
def Module.nodes (m : Module) : List Node := (stmtNodes m.body).flatMap Node.subtree

end AnnotatedWasm.Syntax
