import AnnotatedWasm.Grammar.Stmt

/-!
Writing a syntax tree as source text.

`Expr.items` and `Stmt.clauses` say of each form, without recursion, what it is written with: an
expression with tokens and the expressions inside it, a statement with lines and the blocks
under them. From that come the tokens of an expression, which always stand in parentheses, the
lines of a statement, and what it takes for a tree to be writable at all.

`erase` forgets the spans of a tree, which a text written from it cannot give back.
-/

namespace AnnotatedWasm.Syntax

open Scan (isWordStart isWordPart)

/-! ### Trees without their spans -/

section Erase

theorem sizeOf_fst_lt {α β : Type} [SizeOf α] [SizeOf β] {p : α × β} {l : List (α × β)}
    (h : p ∈ l) : sizeOf p.1 < sizeOf l := by
  have hp := List.sizeOf_lt_of_mem h
  rw [Prod.mk.sizeOf_spec] at hp
  omega

theorem sizeOf_snd_lt {α β : Type} [SizeOf α] [SizeOf β] {p : α × β} {l : List (α × β)}
    (h : p ∈ l) : sizeOf p.2 < sizeOf l := by
  have hp := List.sizeOf_lt_of_mem h
  rw [Prod.mk.sizeOf_spec] at hp
  omega

def nowhere : Span := ⟨0, 0⟩

mutual

def Expr.erase : Expr → Expr
  | .name _ id => .name nowhere id
  | .number _ text => .number nowhere text
  | .string _ value => .string nowhere value
  | .bool _ value => .bool nowhere value
  | .noneLit _ => .noneLit nowhere
  | .unary _ op x => .unary nowhere op x.erase
  | .binary _ op l r => .binary nowhere op l.erase r.erase
  | .compare _ l rest => .compare nowhere l.erase (rest.map fun c => (c.1, c.2.erase))
  | .ifElse _ t b o => .ifElse nowhere t.erase b.erase o.erase
  | .lambda _ ps b => .lambda nowhere (ps.map Param.erase) b.erase
  | .call _ f args kws =>
    .call nowhere f.erase (args.map Expr.erase) (kws.map fun k => (k.1, k.2.erase))
  | .attr _ v f => .attr nowhere v.erase f
  | .subscript _ v i => .subscript nowhere v.erase i.erase
  | .tuple _ es => .tuple nowhere (es.map Expr.erase)
  | .list _ es => .list nowhere (es.map Expr.erase)
  | .dict _ kvs => .dict nowhere (kvs.map fun kv => (kv.1.erase, kv.2.erase))
  | .set _ es => .set nowhere (es.map Expr.erase)
  | .starred _ v => .starred nowhere v.erase
  | .await _ v => .await nowhere v.erase
  | .yield _ none => .yield nowhere none
  | .yield _ (some v) => .yield nowhere (some v.erase)
  | .yieldFrom _ v => .yieldFrom nowhere v.erase
  | .named _ t v => .named nowhere t.erase v.erase
termination_by e => sizeOf e
decreasing_by
  all_goals
    simp only [Expr.unary.sizeOf_spec, Expr.binary.sizeOf_spec, Expr.compare.sizeOf_spec,
      Expr.ifElse.sizeOf_spec, Expr.lambda.sizeOf_spec, Expr.call.sizeOf_spec,
      Expr.attr.sizeOf_spec, Expr.subscript.sizeOf_spec, Expr.tuple.sizeOf_spec,
      Expr.list.sizeOf_spec, Expr.dict.sizeOf_spec, Expr.set.sizeOf_spec, Expr.starred.sizeOf_spec,
      Expr.await.sizeOf_spec, Expr.yield.sizeOf_spec, Expr.yieldFrom.sizeOf_spec,
      Expr.named.sizeOf_spec, Option.some.sizeOf_spec]
    first
      | omega
      | have := List.sizeOf_lt_of_mem ‹_›
        omega
      | have := sizeOf_fst_lt ‹_›
        have := sizeOf_snd_lt ‹_›
        omega

def Param.erase : Param → Param
  | .mk n _ a d =>
    .mk n nowhere
      (match a with | none => none | some a => some a.erase)
      (match d with | none => none | some d => some d.erase)
termination_by p => sizeOf p

end

theorem Param.erase_mk (n : String) (s : Span) (a d : Option Expr) :
    (Param.mk n s a d).erase = .mk n nowhere (a.map Expr.erase) (d.map Expr.erase) := by
  cases a <;> cases d <;> rw [Param.erase] <;> rfl

def FuncHeader.erase (h : FuncHeader) : FuncHeader :=
  ⟨h.name, h.params.map Param.erase, h.returns.map Expr.erase, h.decorators.map Expr.erase⟩

def ClassHeader.erase (h : ClassHeader) : ClassHeader :=
  ⟨h.name, h.bases.map Expr.erase, h.decorators.map Expr.erase⟩

mutual

def Stmt.erase : Stmt → Stmt
  | .expr _ e => .expr nowhere e.erase
  | .assign _ ts v => .assign nowhere (ts.map Expr.erase) v.erase
  | .annAssign _ t a v => .annAssign nowhere t.erase a.erase (v.map Expr.erase)
  | .augAssign _ t op v => .augAssign nowhere t.erase op v.erase
  | .ret _ v => .ret nowhere (v.map Expr.erase)
  | .pass _ => .pass nowhere
  | .breakLoop _ => .breakLoop nowhere
  | .continueLoop _ => .continueLoop nowhere
  | .del _ t => .del nowhere t.erase
  | .assert _ t m => .assert nowhere t.erase (m.map Expr.erase)
  | .raise _ e c => .raise nowhere (e.map Expr.erase) (c.map Expr.erase)
  | .global _ ns => .global nowhere ns
  | .nonlocal _ ns => .nonlocal nowhere ns
  | .importModule _ path a => .importModule nowhere path a
  | .importNames _ path ns => .importNames nowhere path ns
  | .ifElse _ t b elifs o =>
    .ifElse nowhere t.erase (b.map Stmt.erase) (elifs.map Branch.erase) (o.map Stmt.erase)
  | .whileLoop _ t b o => .whileLoop nowhere t.erase (b.map Stmt.erase) (o.map Stmt.erase)
  | .forLoop _ t i b o =>
    .forLoop nowhere t.erase i.erase (b.map Stmt.erase) (o.map Stmt.erase)
  | .funcDef _ h b => .funcDef nowhere h.erase (b.map Stmt.erase)
  | .classDef _ h b => .classDef nowhere h.erase (b.map Stmt.erase)
  | .tryExcept _ b hs o f =>
    .tryExcept nowhere (b.map Stmt.erase) (hs.map Handler.erase) (o.map Stmt.erase)
      (f.map Stmt.erase)
  | .withItems _ items b =>
    .withItems nowhere (items.map fun i => (i.1.erase, i.2.map Expr.erase)) (b.map Stmt.erase)
termination_by s => sizeOf s
decreasing_by
  all_goals
    have := List.sizeOf_lt_of_mem ‹_›
    simp only [Stmt.ifElse.sizeOf_spec, Stmt.whileLoop.sizeOf_spec, Stmt.forLoop.sizeOf_spec,
      Stmt.funcDef.sizeOf_spec, Stmt.classDef.sizeOf_spec, Stmt.tryExcept.sizeOf_spec,
      Stmt.withItems.sizeOf_spec]
    omega

def Branch.erase : Branch → Branch
  | .mk t b => .mk t.erase (b.map Stmt.erase)
termination_by e => sizeOf e
decreasing_by
  have := List.sizeOf_lt_of_mem ‹_›
  rw [Branch.mk.sizeOf_spec]
  omega

def Handler.erase : Handler → Handler
  | .mk e n b => .mk (e.map Expr.erase) n (b.map Stmt.erase)
termination_by h => sizeOf h
decreasing_by
  have := List.sizeOf_lt_of_mem ‹_›
  rw [Handler.mk.sizeOf_spec]
  omega

end

def Module.erase (m : Module) : Module := ⟨m.body.map Stmt.erase⟩

end Erase

/-! ### What the forms are written with -/

/-- The token of a binary operator. -/
def BinOp.token : BinOp → Token
  | .add => .punct .plus
  | .sub => .punct .minus
  | .mul => .punct .star
  | .div => .punct .slash
  | .floorDiv => .punct .floorDiv
  | .mod => .punct .percent
  | .pow => .punct .pow
  | .shiftLeft => .punct .shiftLeft
  | .shiftRight => .punct .shiftRight
  | .bitAnd => .punct .amp
  | .bitOr => .punct .pipe
  | .bitXor => .punct .caret
  | .and => .name "and"
  | .or => .name "or"
  | .matMul => .punct .«at»

/-- The token that assigns with an operator; the two boolean ones have none. -/
def BinOp.assignment? : BinOp → Option Token
  | .add => some (.punct .plusAssign)
  | .sub => some (.punct .minusAssign)
  | .mul => some (.punct .starAssign)
  | .div => some (.punct .slashAssign)
  | .floorDiv => some (.punct .floorDivAssign)
  | .mod => some (.punct .percentAssign)
  | .pow => some (.punct .powAssign)
  | .shiftLeft => some (.punct .shiftLeftAssign)
  | .shiftRight => some (.punct .shiftRightAssign)
  | .bitAnd => some (.punct .ampAssign)
  | .bitOr => some (.punct .pipeAssign)
  | .bitXor => some (.punct .caretAssign)
  | .matMul => some (.punct .atAssign)
  | .and | .or => none

def UnaryOp.token : UnaryOp → Token
  | .neg => .punct .minus
  | .pos => .punct .plus
  | .not => .name "not"
  | .invert => .punct .tilde

def CmpOp.tokens : CmpOp → List Token
  | .eq => [.punct .eq]
  | .notEq => [.punct .notEq]
  | .lt => [.punct .lt]
  | .le => [.punct .le]
  | .gt => [.punct .gt]
  | .ge => [.punct .ge]
  | .is => [.name "is"]
  | .isNot => [.name "is", .name "not"]
  | .isIn => [.name "in"]
  | .notIn => [.name "not", .name "in"]

/-- One character of a string literal in double quotes. -/
def escaped (c : Char) : List Char :=
  if c = '\\' then ['\\', '\\']
  else if c = '\x22' then ['\\', '\x22']
  else if c = '\n' then ['\\', 'n']
  else [c]

/-- A string literal in double quotes. -/
def literal (value : String) : String :=
  String.ofList ('\x22' :: value.toList.flatMap escaped ++ ['\x22'])

/-- What an expression or the head of a statement is written with. -/
inductive Item where
  | token (t : Token)
  | expr (e : Expr)

namespace Item

abbrev mark (p : Punct) : Item := .token (.punct p)

abbrev word (k : Keyword) : Item := .token (.keyword k)

abbrev ident (s : String) : Item := .token (.name s)

/-- A mark with an expression behind it, or nothing. -/
def behind (i : Item) : Option Expr → List Item
  | none => []
  | some e => [i, .expr e]

noncomputable def size : Item → Nat
  | token _ => 0
  | expr e => sizeOf e

end Item

/-- Groups of items with commas between them. -/
def commas (groups : List (List Item)) : List Item := [.mark .comma].intercalate groups

/-- A comma tells a tuple of one from an expression in parentheses. -/
def tupleItems : List Expr → List Item
  | [x] => [.expr x, .mark .comma]
  | es => commas (es.map fun x => [.expr x])

def Param.items : Param → List Item
  | .mk n _ a d => .ident n :: Item.behind (.mark .colon) a ++ Item.behind (.mark .assign) d

/-- What stands between the parentheses of an expression. -/
def Expr.items : Expr → List Item
  | .name _ id => [.ident id]
  | .number _ text => [.token (.number text)]
  | .string _ value => [.token (.string (literal value))]
  | .bool _ value => [.word (if value then .kTrue else .kFalse)]
  | .noneLit _ => [.word .kNone]
  | .unary _ op x => [.token op.token, .expr x]
  | .binary _ op l r => [.expr l, .token op.token, .expr r]
  | .compare _ l rest => .expr l :: rest.flatMap fun c => c.1.tokens.map .token ++ [.expr c.2]
  | .ifElse _ t b o => [.expr b, .word .kIf, .expr t, .word .kElse, .expr o]
  | .lambda _ ps b => .word .kLambda :: commas (ps.map Param.items) ++ [.mark .colon, .expr b]
  | .call _ f args kws =>
    .expr f :: .mark .lParen ::
      commas (args.map (fun x => [.expr x])
        ++ kws.map fun k => [.ident k.1, .mark .assign, .expr k.2])
      ++ [.mark .rParen]
  | .attr _ v f => [.expr v, .mark .dot, .ident f]
  | .subscript _ v i => [.expr v, .mark .lBracket, .expr i, .mark .rBracket]
  | .tuple _ es => tupleItems es
  | .list _ es => .mark .lBracket :: commas (es.map fun x => [.expr x]) ++ [.mark .rBracket]
  | .dict _ kvs =>
    .mark .lBrace :: commas (kvs.map fun kv => [.expr kv.1, .mark .colon, .expr kv.2])
      ++ [.mark .rBrace]
  | .set _ es => .mark .lBrace :: commas (es.map fun x => [.expr x]) ++ [.mark .rBrace]
  | .starred _ v => [.mark .star, .expr v]
  | .await _ v => [.word .kAwait, .expr v]
  | .yield _ v => .word .kYield :: (v.map .expr).toList
  | .yieldFrom _ v => [.word .kYield, .word .kFrom, .expr v]
  | .named _ t v => [.expr t, .mark .walrus, .expr v]

/-- One line of a statement, with the block under it. -/
structure Clause where
  head : List Item
  block : List Stmt

namespace Clause

/-- A line with nothing under it. -/
def line (head : List Item) : Clause := ⟨head, []⟩

/-- A clause that is left out when its block is empty. -/
def optional (k : Keyword) : List Stmt → List Clause
  | [] => []
  | s :: block => [⟨[.word k, .mark .colon], s :: block⟩]

end Clause

/-- Names with a mark between them. -/
def names (p : Punct) (ns : List String) : List Item :=
  [.mark p].intercalate (ns.map fun n => [.ident n])

/-- A new name for what is imported or caught. -/
def renamed : Option String → List Item
  | none => []
  | some n => [.word .kAs, .ident n]

def Branch.clause : Branch → Clause
  | .mk t b => ⟨[.word .kElif, .expr t, .mark .colon], b⟩

def Handler.clause : Handler → Clause
  | .mk e n b => ⟨.word .kExcept :: (e.map .expr).toList ++ renamed n ++ [.mark .colon], b⟩

def FuncHeader.items (h : FuncHeader) : List Item :=
  [Item.word .kDef, .ident h.name, .mark .lParen] ++ commas (h.params.map Param.items)
    ++ [Item.mark .rParen] ++ Item.behind (.mark .arrow) h.returns ++ [Item.mark .colon]

def ClassHeader.items (h : ClassHeader) : List Item :=
  [Item.word .kClass, .ident h.name, .mark .lParen] ++ commas (h.bases.map fun x => [.expr x])
    ++ [Item.mark .rParen, .mark .colon]

/-- One line for each decorator. -/
def decoration (ds : List Expr) : List Clause :=
  ds.map fun d => .line [.mark .«at», .expr d]

def Stmt.clauses : Stmt → List Clause
  | .expr _ e => [.line [.expr e]]
  | .assign _ ts v => [.line (ts.flatMap (fun t => [.expr t, .mark .assign]) ++ [.expr v])]
  | .annAssign _ t a v =>
    [.line ([.expr t, .mark .colon, .expr a] ++ Item.behind (.mark .assign) v)]
  | .augAssign _ t op v => [.line (.expr t :: (op.assignment?.map .token).toList ++ [.expr v])]
  | .ret _ v => [.line (.word .kReturn :: (v.map .expr).toList)]
  | .pass _ => [.line [.word .kPass]]
  | .breakLoop _ => [.line [.word .kBreak]]
  | .continueLoop _ => [.line [.word .kContinue]]
  | .del _ t => [.line [.word .kDel, .expr t]]
  | .assert _ t m => [.line ([.word .kAssert, .expr t] ++ Item.behind (.mark .comma) m)]
  | .raise _ e c =>
    [.line (.word .kRaise :: (e.map .expr).toList ++ Item.behind (.word .kFrom) c)]
  | .global _ ns => [.line (.word .kGlobal :: names .comma ns)]
  | .nonlocal _ ns => [.line (.word .kNonlocal :: names .comma ns)]
  | .importModule _ path a => [.line (.word .kImport :: names .dot path ++ renamed a)]
  | .importNames _ path ns =>
    [.line (.word .kFrom :: names .dot path ++ .word .kImport ::
      commas (ns.map fun n => .ident n.1 :: renamed n.2))]
  | .ifElse _ t b elifs o =>
    ⟨[.word .kIf, .expr t, .mark .colon], b⟩ :: elifs.map Branch.clause
      ++ Clause.optional .kElse o
  | .whileLoop _ t b o =>
    ⟨[.word .kWhile, .expr t, .mark .colon], b⟩ :: Clause.optional .kElse o
  | .forLoop _ t i b o =>
    ⟨[.word .kFor, .expr t, .ident "in", .expr i, .mark .colon], b⟩ :: Clause.optional .kElse o
  | .funcDef _ h b => decoration h.decorators ++ [⟨h.items, b⟩]
  | .classDef _ h b => decoration h.decorators ++ [⟨h.items, b⟩]
  | .tryExcept _ b hs o f =>
    ⟨[.word .kTry, .mark .colon], b⟩ :: hs.map Handler.clause ++ Clause.optional .kElse o
      ++ Clause.optional .kFinally f
  | .withItems _ items b =>
    [⟨.word .kWith :: commas (items.map fun i => .expr i.1 :: Item.behind (.word .kAs) i.2)
      ++ [.mark .colon], b⟩]

/-! ### Recursion over items and clauses -/

theorem mem_intercalate {α : Type} {x s : α} {groups : List (List α)}
    (h : x ∈ [s].intercalate groups) : x = s ∨ ∃ g ∈ groups, x ∈ g := by
  induction groups with
  | nil => simp at h
  | cons g groups ih =>
    cases groups with
    | nil => exact .inr ⟨g, by simp, by simpa using h⟩
    | cons g' groups =>
      rw [List.intercalate_cons_cons, List.mem_append, List.mem_append,
        List.mem_singleton] at h
      rcases h with (h | h) | h
      · exact .inr ⟨g, by simp, h⟩
      · exact .inl h
      · obtain h | ⟨k, hk, hx⟩ := ih h
        · exact .inl h
        · exact .inr ⟨k, List.mem_cons_of_mem _ hk, hx⟩

theorem mem_intercalate_of_mem {α : Type} {x s : α} {g : List α} {groups : List (List α)}
    (hg : g ∈ groups) (hx : x ∈ g) : x ∈ [s].intercalate groups := by
  induction groups with
  | nil => cases hg
  | cons g' groups ih =>
    cases groups with
    | nil =>
      obtain rfl := List.mem_singleton.1 hg
      rwa [List.intercalate_singleton]
    | cons g'' groups =>
      rw [List.intercalate_cons_cons, List.mem_append]
      rcases List.mem_cons.1 hg with rfl | hg
      · exact .inl (List.mem_append_left _ hx)
      · exact .inr (ih hg)

section Items

variable {P : Item → Prop}

theorem forall_mem_commas {groups : List (List Item)} (hcomma : P (.mark .comma))
    (h : ∀ g ∈ groups, ∀ i ∈ g, P i) : ∀ i ∈ commas groups, P i := by
  intro i hi
  obtain rfl | ⟨g, hg, hi⟩ := mem_intercalate hi
  · exact hcomma
  · exact h g hg i hi

theorem forall_mem_behind {m : Item} {e : Option Expr} (hm : P m)
    (he : ∀ x, e = some x → P (.expr x)) : ∀ i ∈ Item.behind m e, P i := by
  cases e with
  | none => simp [Item.behind]
  | some e => simpa [Item.behind] using ⟨hm, he e rfl⟩

theorem forall_mem_tupleItems {es : List Expr} (hcomma : P (.mark .comma))
    (he : ∀ x ∈ es, P (.expr x)) : ∀ i ∈ tupleItems es, P i := by
  match es with
  | [x] => simpa [tupleItems] using ⟨he x (by simp), hcomma⟩
  | [] => simp [tupleItems, commas]
  | x :: y :: es => exact forall_mem_commas hcomma (by simpa using he)

end Items

theorem Param.size_lt (p : Param) : ∀ i ∈ p.items, i.size < sizeOf p := by
  obtain ⟨n, s, a, d⟩ := p
  have hpos : 0 < sizeOf (Param.mk n s a d) := by
    rw [Param.mk.sizeOf_spec]
    omega
  simp only [Param.items, List.cons_append, List.forall_mem_cons, List.forall_mem_append]
  refine ⟨hpos, forall_mem_behind hpos ?_, forall_mem_behind hpos ?_⟩
  all_goals
    rintro x rfl
    rw [Item.size, Param.mk.sizeOf_spec, Option.some.sizeOf_spec]
    omega

/-- The expressions inside an expression are smaller than it. -/
theorem Expr.size_lt (e : Expr) : ∀ i ∈ e.items, i.size < sizeOf e := by
  have hpos : 0 < sizeOf e := by cases e <;> (repeat apply Nat.add_pos_left) <;> exact Nat.one_pos
  have hcommas {groups : List (List Item)} (h : ∀ g ∈ groups, ∀ i ∈ g, i.size < sizeOf e) :
      ∀ i ∈ commas groups, i.size < sizeOf e := forall_mem_commas hpos h
  cases e with
  | compare s l rest =>
    rw [compare.sizeOf_spec] at hpos ⊢
    simp only [Expr.items, List.forall_mem_cons, List.forall_mem_flatMap, List.forall_mem_append,
      List.forall_mem_map, List.not_mem_nil, false_imp_iff, implies_true, Item.size, and_true]
    refine ⟨by omega, fun c hc => ⟨fun t _ => hpos, ?_⟩⟩
    have := sizeOf_snd_lt hc
    omega
  | lambda s ps b =>
    rw [lambda.sizeOf_spec] at hpos hcommas ⊢
    simp only [Expr.items, List.forall_mem_cons, List.cons_append, List.forall_mem_append,
      List.not_mem_nil, false_imp_iff, implies_true, Item.size, and_true]
    refine ⟨hpos, hcommas (List.forall_mem_map.2 fun p hp i hi => ?_), hpos, by omega⟩
    have := p.size_lt i hi
    have := List.sizeOf_lt_of_mem hp
    omega
  | call s f args kws =>
    rw [call.sizeOf_spec] at hpos hcommas ⊢
    simp only [Expr.items, List.forall_mem_cons, List.cons_append, List.forall_mem_append,
      List.not_mem_nil, false_imp_iff, implies_true, Item.size, and_true]
    refine ⟨by omega, hpos, hcommas ?_, hpos⟩
    simp only [List.forall_mem_append, List.forall_mem_map, List.forall_mem_cons,
      List.not_mem_nil, false_imp_iff, implies_true, Item.size, and_true]
    refine ⟨fun x hx => ?_, fun k hk => ⟨hpos, hpos, ?_⟩⟩
    · have := List.sizeOf_lt_of_mem hx
      omega
    · have := sizeOf_snd_lt hk
      omega
  | tuple s es =>
    rw [tuple.sizeOf_spec] at hpos ⊢
    refine forall_mem_tupleItems hpos fun x hx => ?_
    have := List.sizeOf_lt_of_mem hx
    rw [Item.size]
    omega
  | list s es | set s es =>
    simp only [list.sizeOf_spec, set.sizeOf_spec] at hpos hcommas ⊢
    simp only [Expr.items, List.forall_mem_cons, List.cons_append, List.forall_mem_append,
      List.not_mem_nil, false_imp_iff, implies_true, and_true]
    refine ⟨hpos, hcommas ?_, hpos⟩
    simp only [List.forall_mem_map, List.forall_mem_singleton, Item.size]
    intro x hx
    have := List.sizeOf_lt_of_mem hx
    omega
  | dict s kvs =>
    rw [dict.sizeOf_spec] at hpos hcommas ⊢
    simp only [Expr.items, List.forall_mem_cons, List.cons_append, List.forall_mem_append,
      List.not_mem_nil, false_imp_iff, implies_true, and_true]
    refine ⟨hpos, hcommas ?_, hpos⟩
    simp only [List.forall_mem_map, List.forall_mem_cons, List.not_mem_nil, false_imp_iff, implies_true, Item.size, and_true]
    intro kv hkv
    have := sizeOf_fst_lt hkv
    have := sizeOf_snd_lt hkv
    omega
  | yield s v =>
    cases v
    all_goals
      simp only [Expr.items, Option.map_none, Option.map_some, Option.toList_none,
        Option.toList_some, List.forall_mem_cons, List.not_mem_nil, false_imp_iff, implies_true, Item.size, yield.sizeOf_spec,
        Option.some.sizeOf_spec, and_true]
      omega
  | _ =>
    simp only [Expr.items, List.forall_mem_cons, List.not_mem_nil, false_imp_iff, implies_true, Item.size, name.sizeOf_spec,
      number.sizeOf_spec, string.sizeOf_spec, bool.sizeOf_spec, noneLit.sizeOf_spec,
      unary.sizeOf_spec, binary.sizeOf_spec, ifElse.sizeOf_spec, attr.sizeOf_spec,
      subscript.sizeOf_spec, starred.sizeOf_spec, await.sizeOf_spec, yieldFrom.sizeOf_spec,
      named.sizeOf_spec, and_true]
    omega

theorem Clause.optional_lt {k : Keyword} {block : List Stmt} {n : Nat} (h : sizeOf block < n) :
    ∀ c ∈ optional k block, sizeOf c.block < n := by
  cases block with
  | nil => simp [optional]
  | cons x xs => simpa [optional] using h

theorem decoration_lt {ds : List Expr} {n : Nat} (hn : 1 < n) :
    ∀ c ∈ decoration ds, sizeOf c.block < n := by
  simpa [decoration, Clause.line] using fun _ _ => hn

/-- The blocks of a statement are smaller than it. -/
theorem Stmt.block_lt (s : Stmt) : ∀ c ∈ s.clauses, sizeOf c.block < sizeOf s := by
  have hspan (s : Span) : 1 < 1 + sizeOf s := by
    rw [Span.mk.sizeOf_spec]
    omega
  have hpos : 1 < sizeOf s := by
    cases s <;> repeat first | exact hspan _ | apply Nat.lt_add_right
  cases s with
  | ifElse s t b elifs o =>
    simp only [Stmt.clauses, List.forall_mem_cons, List.cons_append, List.forall_mem_append,
      List.forall_mem_map, ifElse.sizeOf_spec]
    refine ⟨by omega, ?_, Clause.optional_lt (by omega)⟩
    rintro ⟨t', b'⟩ hb
    have := List.sizeOf_lt_of_mem hb
    rw [Branch.mk.sizeOf_spec] at this
    simp only [Branch.clause]
    omega
  | whileLoop s t b o =>
    simp only [Stmt.clauses, List.forall_mem_cons, whileLoop.sizeOf_spec]
    exact ⟨by omega, Clause.optional_lt (by omega)⟩
  | forLoop s t i b o =>
    simp only [Stmt.clauses, List.forall_mem_cons, forLoop.sizeOf_spec]
    exact ⟨by omega, Clause.optional_lt (by omega)⟩
  | funcDef s h b | classDef s h b =>
    simp only [funcDef.sizeOf_spec, classDef.sizeOf_spec] at hpos ⊢
    simp only [Stmt.clauses, List.forall_mem_append, List.forall_mem_singleton]
    exact ⟨decoration_lt hpos, by omega⟩
  | tryExcept s b hs o f =>
    simp only [Stmt.clauses, List.forall_mem_cons, List.cons_append, List.forall_mem_append,
      List.forall_mem_map, tryExcept.sizeOf_spec]
    refine ⟨by omega, ⟨?_, Clause.optional_lt (by omega)⟩, Clause.optional_lt (by omega)⟩
    rintro ⟨e, n, b'⟩ hb
    have := List.sizeOf_lt_of_mem hb
    rw [Handler.mk.sizeOf_spec] at this
    simp only [Handler.clause]
    omega
  | withItems s items b =>
    simp only [Stmt.clauses, List.forall_mem_singleton, withItems.sizeOf_spec]
    omega
  | _ => exact List.forall_mem_singleton.2 hpos

mutual

/-- The tokens of an expression in parentheses. -/
def Expr.tokens (e : Expr) : List Token :=
  Token.punct .lParen :: e.items.attach.flatMap (fun i => i.1.tokens) ++ [Token.punct .rParen]
termination_by (sizeOf e, 0)
decreasing_by exact .left _ _ (Expr.size_lt e _ i.2)

def Item.tokens : Item → List Token
  | .token t => [t]
  | .expr e => e.tokens
termination_by i => (i.size, 1)
decreasing_by exact .right _ (by decide)

end

theorem Expr.tokens_eq (e : Expr) :
    e.tokens = .punct .lParen :: e.items.flatMap Item.tokens ++ [.punct .rParen] := by
  rw [Expr.tokens]
  simp

/-- A line of source text, without its end. -/
structure Line where
  level : Nat
  tokens : List Token

mutual

/-- The lines of a statement in a block of the given depth. -/
def Stmt.lines (level : Nat) (s : Stmt) : List Line :=
  s.clauses.attach.flatMap fun c => c.1.lines level
termination_by sizeOf s
decreasing_by exact Stmt.block_lt s _ c.2

def Clause.lines (level : Nat) (c : Clause) : List Line :=
  ⟨level, c.head.flatMap Item.tokens⟩ :: c.block.attach.flatMap fun s => s.1.lines (level + 1)
termination_by sizeOf c.block
decreasing_by exact List.sizeOf_lt_of_mem s.2

end

theorem Stmt.lines_eq (level : Nat) (s : Stmt) :
    s.lines level = s.clauses.flatMap (Clause.lines level) := by
  rw [Stmt.lines]
  simp

theorem Clause.lines_eq (level : Nat) (c : Clause) :
    c.lines level
      = ⟨level, c.head.flatMap Item.tokens⟩ :: c.block.flatMap (Stmt.lines (level + 1)) := by
  rw [Clause.lines]
  simp

/-! ### Text -/

/-- The words that are read as operators, although they are names. -/
def operatorWords : List String := ["and", "or", "not", "in", "is"]

/-- A mark that stands right behind any token. -/
def clings (p : Punct) : Bool := p.isClosing || p = .comma || p = .colon

/-- Whether two tokens stand next to each other without a blank between them. -/
def adjoins : Token → Token → Bool
  | .punct .dot, .name _ => true
  | .punct p, .punct q =>
    p.isOpening || clings q || p.isClosing && (q = .lParen || q = .lBracket || q = .dot)
  | .punct p, _ => p.isOpening
  | .name s, .punct q =>
    clings q || s ∉ operatorWords && (q = .lParen || q = .lBracket || q = .dot)
  | _, .punct q => clings q
  | _, _ => false

def spelling : Token → List Char
  | .keyword k => k.spelling.toList
  | .punct p => p.spelling.toList
  | .name s | .number s | .string s => s.toList
  | _ => []

/-- Tokens as written on a line. -/
def written : List Token → List Char
  | [] => []
  | [t] => spelling t
  | t :: u :: ts => spelling t ++ (if adjoins t u then [] else [' ']) ++ written (u :: ts)

/-- A line with four blanks of indentation for each level. -/
def Line.chars (l : Line) : List Char :=
  List.replicate (4 * l.level) ' ' ++ written l.tokens ++ ['\n']

def Module.lines (m : Module) : List Line := m.body.flatMap (Stmt.lines 0)

/-- The source text of a module, one statement per line. -/
def Module.print (m : Module) : String := String.ofList (m.lines.flatMap Line.chars)

/-! ### Trees that can be written -/

/-- A text that is scanned as a word and is no keyword. -/
def isWord (s : String) : Bool :=
  match s.toList with
  | [] => false
  | c :: cs => isWordStart c && cs.all isWordPart && (Keyword.ofSpelling? s).isNone

def isIdentifier (s : String) : Bool := isWord s && s ∉ operatorWords

/-- A text that is scanned as one number. -/
def isNumber (s : String) : Bool :=
  match s.toList with
  | [] => false
  | c :: cs => Scan.measure c cs = (.number, cs.length)

/-- What an expression needs beside what the expressions inside it need. -/
def Expr.Fits : Expr → Prop
  | .name _ id => isIdentifier id
  | .number _ text => isNumber text
  | .compare _ _ rest => rest ≠ []
  | .lambda _ ps _ => ∀ p ∈ ps, isIdentifier p.name ∧ p.annot = none
  | .call _ _ _ kws => ∀ k ∈ kws, isIdentifier k.1
  | .attr _ _ f => isIdentifier f
  | .set _ es => es ≠ []
  | _ => True

mutual

def Expr.WellFormed (e : Expr) : Prop := e.Fits ∧ ∀ i ∈ e.items, i.WellFormed
termination_by (sizeOf e, 0)
decreasing_by exact .left _ _ (Expr.size_lt e _ ‹_›)

def Item.WellFormed : Item → Prop
  | .token _ => True
  | .expr e => e.WellFormed
termination_by i => (i.size, 1)
decreasing_by exact .right _ (by decide)

end

def Handler.Fits : Handler → Prop
  | .mk e n b => b ≠ [] ∧ (n.isSome → e.isSome) ∧ ∀ s ∈ n, isIdentifier s

def Stmt.Fits : Stmt → Prop
  | .assign _ ts _ => ts ≠ []
  | .augAssign _ _ op _ => op.assignment?.isSome
  | .raise _ e c => c.isSome → e.isSome
  | .global _ ns | .nonlocal _ ns => ns ≠ [] ∧ ∀ n ∈ ns, isIdentifier n
  | .importModule _ path a =>
    path ≠ [] ∧ (∀ n ∈ path, isIdentifier n) ∧ ∀ n ∈ a, isIdentifier n
  | .importNames _ path ns =>
    path ≠ [] ∧ (∀ n ∈ path, isIdentifier n) ∧
      ns ≠ [] ∧ ∀ n ∈ ns, isIdentifier n.1 ∧ ∀ a ∈ n.2, isIdentifier a
  | .ifElse _ _ b elifs _ => b ≠ [] ∧ ∀ x ∈ elifs, x.clause.block ≠ []
  | .whileLoop _ _ b _ | .forLoop _ _ _ b _ => b ≠ []
  | .funcDef _ h b => b ≠ [] ∧ isIdentifier h.name ∧ ∀ p ∈ h.params, isIdentifier p.name
  | .classDef _ h b => b ≠ [] ∧ isIdentifier h.name
  | .tryExcept _ b hs _ f => b ≠ [] ∧ (hs ≠ [] ∨ f ≠ []) ∧ ∀ h ∈ hs, h.Fits
  | .withItems _ items b => b ≠ [] ∧ items ≠ []
  | _ => True

mutual

def Stmt.WellFormed (s : Stmt) : Prop := s.Fits ∧ ∀ c ∈ s.clauses, c.WellFormed
termination_by sizeOf s
decreasing_by exact Stmt.block_lt s _ ‹_›

def Clause.WellFormed (c : Clause) : Prop :=
  (∀ i ∈ c.head, i.WellFormed) ∧ ∀ s ∈ c.block, s.WellFormed
termination_by sizeOf c.block
decreasing_by exact List.sizeOf_lt_of_mem ‹_›

end

/-- A module that the grammar can produce. -/
def Module.WellFormed (m : Module) : Prop := ∀ s ∈ m.body, s.WellFormed

end AnnotatedWasm.Syntax
