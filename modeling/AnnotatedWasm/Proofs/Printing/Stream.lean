import AnnotatedWasm.Proofs.Printing.Lines

/-!
The tokens of a written module.

`Stmt.stream` gives the tokens of a statement with the marks of its blocks. The lines of a
well-formed module can all be written, their brackets match, and their layout gives the streams
of its statements one after the other.
-/

namespace AnnotatedWasm.Syntax

open Layout (bracket Balanced Good Flows marks)

/-! ### Heads that can be written -/

namespace Item

def Writable : Item → Prop
  | token t => Scan.Writable t
  | expr _ => True

/-- The number of open brackets after an item; an expression closes what it opens. -/
def bracket (depth : Nat) : Item → Nat
  | token t => Layout.bracket depth t
  | expr _ => depth

end Item

/-- Items that can be written and whose own brackets match. -/
structure Tidy (items : List Item) : Prop where
  writable : ∀ i ∈ items, i.Writable
  balanced : ∀ depth, items.foldl Item.bracket depth = depth

section Tidy

variable {items : List Item}

@[simp] theorem tidy_nil : Tidy [] := ⟨by simp, fun _ => rfl⟩

theorem tidy_cons {i : Item} (hi : ∀ depth, i.bracket depth = depth) :
    Tidy (i :: items) ↔ i.Writable ∧ Tidy items := by
  refine ⟨fun ⟨hw, hb⟩ => ⟨hw i (by simp), fun j hj => hw j (by simp [hj]), fun depth => ?_⟩,
    fun ⟨hi', hw, hb⟩ => ⟨List.forall_mem_cons.2 ⟨hi', hw⟩, fun depth => ?_⟩⟩
  · simpa [hi depth] using hb depth
  · simpa [hi depth] using hb depth

@[simp] theorem tidy_expr {e : Expr} : Tidy (.expr e :: items) ↔ Tidy items := by
  rw [tidy_cons fun _ => rfl]
  exact and_iff_right trivial

@[simp] theorem tidy_word {k : Keyword} : Tidy (.token (.keyword k) :: items) ↔ Tidy items := by
  rw [tidy_cons fun _ => rfl]
  exact and_iff_right trivial

@[simp] theorem tidy_ident {s : String} :
    Tidy (.token (.name s) :: items) ↔ isWord s = true ∧ Tidy items :=
  tidy_cons fun _ => rfl

@[simp] theorem tidy_number {s : String} :
    Tidy (.token (.number s) :: items) ↔ isNumber s = true ∧ Tidy items :=
  tidy_cons fun _ => rfl

@[simp] theorem tidy_literal {s : String} :
    Tidy (.token (.string (literal s)) :: items) ↔ Tidy items := by
  rw [tidy_cons fun _ => rfl]
  exact and_iff_right ⟨s, rfl⟩

theorem tidy_mark {p : Punct} (ho : p.isOpening = false) (hc : p.isClosing = false) :
    Tidy (.token (.punct p) :: items) ↔ Tidy items := by
  rw [tidy_cons fun depth => by simp [Item.bracket, bracket, ho, hc]]
  exact and_iff_right trivial

theorem Tidy.append {more : List Item} (h : Tidy items) (hmore : Tidy more) :
    Tidy (items ++ more) where
  writable := List.forall_mem_append.2 ⟨h.writable, hmore.writable⟩
  balanced depth := by rw [List.foldl_append, h.balanced, hmore.balanced]

theorem Tidy.brackets {p q : Punct} (hp : p.isOpening = true) (hq : q.isClosing = true)
    (h : Tidy items) {more : List Item} (hmore : Tidy more) :
    Tidy (.mark p :: (items ++ .mark q :: more)) where
  writable := by
    simpa [or_imp, forall_and, Item.Writable, Scan.Writable] using ⟨h.writable, hmore.writable⟩
  balanced depth := by
    have hno : q.isOpening = false := by cases q <;> first | rfl | cases hq
    simp [h.balanced, hmore.balanced, Item.bracket, bracket, hp, hq, hno]

theorem tidy_flatMap {α : Type} {xs : List α} {f : α → List Item} (h : ∀ x ∈ xs, Tidy (f x)) :
    Tidy (xs.flatMap f) := by
  induction xs with
  | nil => exact tidy_nil
  | cons x xs ih =>
    rw [List.flatMap_cons]
    exact (h x (by simp)).append (ih fun y hy => h y (by simp [hy]))

theorem tidy_intercalate {p : Punct} (ho : p.isOpening = false) (hc : p.isClosing = false)
    {groups : List (List Item)} (h : ∀ g ∈ groups, Tidy g) :
    Tidy ([.mark p].intercalate groups) := by
  induction groups with
  | nil => exact tidy_nil
  | cons g groups ih =>
    cases groups with
    | nil => simpa using h g (by simp)
    | cons g' groups =>
      rw [List.intercalate_cons_cons, List.append_assoc]
      refine (h g (by simp)).append ((tidy_mark ho hc).2 (ih fun k hk => ?_))
      exact h k (List.mem_cons_of_mem _ hk)

theorem tidy_commas {groups : List (List Item)} (h : ∀ g ∈ groups, Tidy g) :
    Tidy (commas groups) :=
  tidy_intercalate rfl rfl h

theorem tidy_exprs (es : List Expr) : Tidy (commas (es.map fun x => [.expr x])) :=
  tidy_commas (by simp)

theorem tidy_behind {i : Item} (hi : Tidy [i]) (e : Option Expr) : Tidy (Item.behind i e) := by
  cases e with
  | none => exact tidy_nil
  | some e => exact hi.append (tidy_expr.2 tidy_nil)

theorem tidy_toList (e : Option Expr) : Tidy (e.map Item.expr).toList := by
  cases e <;> simp

theorem isWord_of_isIdentifier {s : String} (h : isIdentifier s = true) : isWord s = true := by
  rw [isIdentifier, Bool.and_eq_true] at h
  exact h.1

theorem tidy_param {p : Param} (h : isIdentifier p.name = true) : Tidy p.items := by
  obtain ⟨n, s, a, d⟩ := p
  rw [Param.items, List.cons_append, tidy_ident]
  refine ⟨isWord_of_isIdentifier h, ?_⟩
  exact (tidy_behind ((tidy_mark rfl rfl).2 tidy_nil) a).append
    (tidy_behind ((tidy_mark rfl rfl).2 tidy_nil) d)

theorem tidy_names {p : Punct} (ho : p.isOpening = false) (hc : p.isClosing = false)
    {ns : List String} (h : ∀ n ∈ ns, isIdentifier n = true) : Tidy (names p ns) :=
  tidy_intercalate ho hc (by simpa using fun n hn => isWord_of_isIdentifier (h n hn))

theorem tidy_renamed {n : Option String} (h : ∀ s ∈ n, isIdentifier s = true) :
    Tidy (renamed n) := by
  cases n with
  | none => exact tidy_nil
  | some s => simpa [renamed] using isWord_of_isIdentifier (h s rfl)

theorem isWord_operatorWords : ∀ s ∈ operatorWords, isWord s = true := by decide

theorem tidy_unary (op : UnaryOp) : Tidy (.token op.token :: items) ↔ Tidy items := by
  cases op
  case not => exact tidy_ident.trans (and_iff_right (isWord_operatorWords _ (by decide)))
  all_goals exact tidy_mark rfl rfl

theorem tidy_binary (op : BinOp) : Tidy (.token op.token :: items) ↔ Tidy items := by
  cases op
  case and | or => exact tidy_ident.trans (and_iff_right (isWord_operatorWords _ (by decide)))
  all_goals exact tidy_mark rfl rfl

theorem tidy_cmp (op : CmpOp) : Tidy (op.tokens.map .token) := by
  have hword (s : String) (hs : s ∈ operatorWords) : Tidy [.ident s] :=
    tidy_ident.2 ⟨isWord_operatorWords s hs, tidy_nil⟩
  have hmark (p : Punct) (ho : p.isOpening = false) (hc : p.isClosing = false) : Tidy [.mark p] :=
    (tidy_mark ho hc).2 tidy_nil
  cases op
  case is | isIn => exact hword _ (by decide)
  case isNot | notIn => exact (hword _ (by decide)).append (hword _ (by decide))
  all_goals exact hmark _ rfl rfl

end Tidy

theorem tidy_tupleItems (es : List Expr) : Tidy (tupleItems es) := by
  match es with
  | [x] => exact tidy_expr.2 ((tidy_mark rfl rfl).2 tidy_nil)
  | [] => exact tidy_nil
  | x :: y :: es => exact tidy_exprs _

theorem Expr.tidy {e : Expr} (h : e.Fits) : Tidy e.items := by
  cases e with
  | name s id => exact tidy_ident.2 ⟨isWord_of_isIdentifier h, tidy_nil⟩
  | number s text => exact tidy_number.2 ⟨h, tidy_nil⟩
  | unary s op x => exact (tidy_unary op).2 (tidy_expr.2 tidy_nil)
  | binary s op l r => exact tidy_expr.2 ((tidy_binary op).2 (tidy_expr.2 tidy_nil))
  | compare s l rest =>
    exact tidy_expr.2 (tidy_flatMap fun c _ => (tidy_cmp c.1).append (tidy_expr.2 tidy_nil))
  | lambda s ps b =>
    refine tidy_word.2 ((tidy_commas ?_).append ((tidy_mark rfl rfl).2 (tidy_expr.2 tidy_nil)))
    simpa using fun p hp => tidy_param (h p hp).1
  | call s f args kws =>
    refine tidy_expr.2 ((tidy_commas ?_).brackets rfl rfl tidy_nil)
    simp only [List.forall_mem_append, List.forall_mem_map, tidy_expr, tidy_nil, implies_true,
      true_and]
    intro k hk
    exact tidy_ident.2 ⟨isWord_of_isIdentifier (h k hk),
      (tidy_mark rfl rfl).2 (tidy_expr.2 tidy_nil)⟩
  | attr s v f =>
    exact tidy_expr.2 ((tidy_mark rfl rfl).2
      (tidy_ident.2 ⟨isWord_of_isIdentifier h, tidy_nil⟩))
  | subscript s v i =>
    exact tidy_expr.2 ((tidy_expr.2 tidy_nil).brackets rfl rfl tidy_nil)
  | tuple s es => exact tidy_tupleItems es
  | list s es => exact (tidy_exprs es).brackets rfl rfl tidy_nil
  | dict s kvs =>
    refine (tidy_commas ?_).brackets rfl rfl tidy_nil
    simp only [List.forall_mem_map]
    exact fun kv _ => tidy_expr.2 ((tidy_mark rfl rfl).2 (tidy_expr.2 tidy_nil))
  | set s es => exact (tidy_exprs es).brackets rfl rfl tidy_nil
  | starred s v => exact (tidy_mark rfl rfl).2 (tidy_expr.2 tidy_nil)
  | named s t v => exact tidy_expr.2 ((tidy_mark rfl rfl).2 (tidy_expr.2 tidy_nil))
  | yield s v => exact tidy_word.2 (tidy_toList v)
  | _ => simp [Expr.items]

theorem tidy_block {k : Keyword} {items : List Item} (h : Tidy items) :
    Tidy (.word k :: items ++ [.mark .colon]) :=
  tidy_word.2 (h.append ((tidy_mark rfl rfl).2 tidy_nil))

theorem Clause.tidy_optional (k : Keyword) (block : List Stmt) :
    ∀ c ∈ optional k block, Tidy c.head := by
  cases block with
  | nil => simp [optional]
  | cons s block =>
    rw [optional, List.forall_mem_singleton]
    exact tidy_block tidy_nil

theorem tidy_decoration (ds : List Expr) : ∀ c ∈ decoration ds, Tidy c.head := by
  simp only [decoration, List.forall_mem_map]
  exact fun d _ => (tidy_mark rfl rfl).2 (tidy_expr.2 tidy_nil)

/-- The operators that can be assigned with, by their marks. -/
theorem BinOp.exists_assignment {op : BinOp} (h : op.assignment?.isSome = true) :
    ∃ p : Punct, op.assignment? = some (.punct p) ∧ p.isOpening = false ∧ p.isClosing = false ∧
      Grammar.augmented? (.punct p) = some op := by
  cases op <;> first | exact absurd h (by decide) | exact ⟨_, rfl, rfl, rfl, rfl⟩

theorem Stmt.tidy {s : Stmt} (h : s.Fits) : ∀ c ∈ s.clauses, Tidy c.head := by
  have hone {items : List Item} {block : List Stmt} (hi : Tidy items) :
      ∀ c ∈ [Clause.mk items block], Tidy c.head := by simpa using hi
  have hexpr {e : Expr} : Tidy [.expr e] := tidy_expr.2 tidy_nil
  have hmark {p : Punct} (ho : p.isOpening = false) (hc : p.isClosing = false) : Tidy [.mark p] :=
    (tidy_mark ho hc).2 tidy_nil
  cases s with
  | assign s ts v =>
    exact hone ((tidy_flatMap fun t _ => tidy_expr.2 (hmark rfl rfl)).append hexpr)
  | annAssign s t a v =>
    exact hone ((tidy_expr.2 ((tidy_mark rfl rfl).2 hexpr)).append (tidy_behind (hmark rfl rfl) v))
  | augAssign s t op v =>
    obtain ⟨p, hp, ho, hc, -⟩ := BinOp.exists_assignment h
    simp only [Stmt.clauses, hp]
    exact hone (tidy_expr.2 ((tidy_mark ho hc).2 hexpr))
  | ret s v => exact hone (tidy_word.2 (tidy_toList v))
  | assert s t m => exact hone ((tidy_word.2 hexpr).append (tidy_behind (hmark rfl rfl) m))
  | raise s e c =>
    exact hone (tidy_word.2 ((tidy_toList e).append (tidy_behind (tidy_word.2 tidy_nil) c)))
  | global s ns => exact hone (tidy_word.2 (tidy_names rfl rfl h.2))
  | «nonlocal» s ns => exact hone (tidy_word.2 (tidy_names rfl rfl h.2))
  | importModule s path a =>
    exact hone (tidy_word.2 ((tidy_names rfl rfl h.2.1).append (tidy_renamed h.2.2)))
  | importNames s path ns =>
    refine hone (tidy_word.2 ((tidy_names rfl rfl h.2.1).append
      (tidy_word.2 (tidy_commas ?_))))
    simp only [List.forall_mem_map]
    intro n hn
    obtain ⟨hname, ha⟩ := h.2.2.2 n hn
    exact tidy_ident.2 ⟨isWord_of_isIdentifier hname, tidy_renamed ha⟩
  | ifElse s t b elifs o =>
    simp only [Stmt.clauses, List.cons_append, List.forall_mem_cons, List.forall_mem_append,
      List.forall_mem_map]
    refine ⟨tidy_block hexpr, ?_, Clause.tidy_optional _ _⟩
    rintro ⟨_, _⟩ -
    exact tidy_block hexpr
  | whileLoop s t b o =>
    exact List.forall_mem_cons.2 ⟨tidy_block hexpr, Clause.tidy_optional _ _⟩
  | forLoop s t i b o =>
    refine List.forall_mem_cons.2 ⟨tidy_block (tidy_expr.2 (tidy_ident.2 ⟨?_, hexpr⟩)),
      Clause.tidy_optional _ _⟩
    exact isWord_operatorWords _ (by decide)
  | funcDef s hd b =>
    refine List.forall_mem_append.2 ⟨tidy_decoration _, hone ?_⟩
    simp only [FuncHeader.items, List.cons_append, List.nil_append, List.append_assoc]
    refine tidy_word.2 (tidy_ident.2 ⟨isWord_of_isIdentifier h.2.1,
      (tidy_commas ?_).brackets rfl rfl
        ((tidy_behind (hmark rfl rfl) _).append (hmark rfl rfl))⟩)
    simp only [List.forall_mem_map]
    exact fun p hp => tidy_param (h.2.2 p hp)
  | classDef s hd b =>
    refine List.forall_mem_append.2 ⟨tidy_decoration _, hone ?_⟩
    simp only [ClassHeader.items, List.cons_append, List.nil_append]
    exact tidy_word.2 (tidy_ident.2 ⟨isWord_of_isIdentifier h.2,
      (tidy_exprs _).brackets rfl rfl (hmark rfl rfl)⟩)
  | tryExcept s b hs o f =>
    simp only [Stmt.clauses, List.cons_append, List.forall_mem_cons, List.forall_mem_append,
      List.forall_mem_map]
    refine ⟨tidy_block tidy_nil, ⟨?_, Clause.tidy_optional _ _⟩, Clause.tidy_optional _ _⟩
    rintro ⟨e, n, b'⟩ hb
    exact tidy_block ((tidy_toList e).append (tidy_renamed (h.2.2 _ hb).2.2))
  | withItems s items b =>
    refine hone (tidy_block (tidy_commas ?_))
    simp only [List.forall_mem_map]
    exact fun i _ => tidy_expr.2 (tidy_behind (tidy_word.2 tidy_nil) i.2)
  | _ => simp [Stmt.clauses, Clause.line]

/-! ### Tokens of expressions -/

/-- Tokens that can be written and whose brackets match. -/
structure Neat (ts : List Token) : Prop where
  writable : ∀ t ∈ ts, Scan.Writable t
  balanced : Balanced ts

/-- Tidy items give neat tokens if the expressions among them do. -/
theorem Tidy.neat {items : List Item} (h : Tidy items)
    (hexpr : ∀ x, .expr x ∈ items → Neat x.tokens) : Neat (items.flatMap Item.tokens) where
  writable t ht := by
    obtain ⟨i, hi, ht⟩ := List.mem_flatMap.1 ht
    cases i with
    | token u =>
      rw [Item.tokens, List.mem_singleton] at ht
      exact ht ▸ h.writable _ hi
    | expr x =>
      rw [Item.tokens] at ht
      exact (hexpr x hi).writable t ht
  balanced depth := by
    have hfold : ∀ (is : List Item) (depth : Nat), (∀ x, .expr x ∈ is → Neat x.tokens) →
        (is.flatMap Item.tokens).foldl bracket depth = is.foldl Item.bracket depth := by
      intro is
      induction is with
      | nil => intros; rfl
      | cons i is ih =>
        intro depth hx
        rw [List.flatMap_cons, List.foldl_append, List.foldl_cons,
          ih _ fun x h => hx x (List.mem_cons_of_mem _ h)]
        congr 1
        cases i with
        | token t => rw [Item.tokens]; rfl
        | expr x => rw [Item.tokens, (hx x (by simp)).balanced]; rfl
    rw [hfold items depth hexpr, h.balanced]

theorem Neat.parens {ts : List Token} (h : Neat ts) :
    Neat (.punct .lParen :: ts ++ [.punct .rParen]) where
  writable := by
    simpa [or_imp, forall_and, Scan.Writable] using h.writable
  balanced depth := by
    simp [h.balanced (depth + 1), bracket, Punct.isOpening, Punct.isClosing]

theorem Item.wellFormed_expr {e : Expr} : (Item.expr e).WellFormed ↔ e.WellFormed := by
  rw [Item.WellFormed]

theorem Expr.neat (e : Expr) (h : e.WellFormed) : Neat e.tokens := by
  rw [Expr.WellFormed] at h
  rw [Expr.tokens_eq]
  exact ((Expr.tidy h.1).neat fun x hx => x.neat (Item.wellFormed_expr.1 (h.2 _ hx))).parens
termination_by sizeOf e
decreasing_by exact Expr.size_lt e _ hx

theorem neat_head {items : List Item} (h : Tidy items) (hwf : ∀ i ∈ items, i.WellFormed) :
    Neat (items.flatMap Item.tokens) :=
  h.neat fun x hx => x.neat (Item.wellFormed_expr.1 (hwf _ hx))

theorem Item.tokens_ne_nil (i : Item) : i.tokens ≠ [] := by
  cases i with
  | token t => simp [Item.tokens]
  | expr e => simp [Item.tokens, Expr.tokens_eq]

/-! ### Streams -/

mutual

/-- The tokens of a statement, with the newlines and the marks of its blocks. -/
def Stmt.stream (s : Stmt) : List Token := s.clauses.attach.flatMap fun c => c.1.stream
termination_by sizeOf s
decreasing_by exact Stmt.block_lt s _ c.2

def Clause.stream (c : Clause) : List Token :=
  c.head.flatMap Item.tokens ++ .newline ::
    (if c.block = [] then []
      else .indent :: c.block.attach.flatMap (fun s => s.1.stream) ++ [.dedent])
termination_by sizeOf c.block
decreasing_by exact List.sizeOf_lt_of_mem s.2

end

theorem Stmt.stream_eq (s : Stmt) : s.stream = s.clauses.flatMap Clause.stream := by
  rw [Stmt.stream]
  simp

theorem Clause.stream_line (head : List Item) :
    (Clause.line head).stream = head.flatMap Item.tokens ++ [.newline] := by
  rw [Clause.stream]
  rfl

theorem Clause.stream_block {head : List Item} {block : List Stmt} (h : block ≠ []) :
    (Clause.mk head block).stream = head.flatMap Item.tokens ++
      .newline :: .indent :: block.flatMap Stmt.stream ++ [.dedent] := by
  rw [Clause.stream, if_neg h]
  simp

/-! ### Layout of a module -/

/-- `ls` gives `ts` after a block of depth `level` and any number of deeper ones. -/
def Continues (level : Nat) (ls : List Line) (ts : List Token) : Prop :=
  ∀ k, Flows (level + k) ls (List.replicate k .dedent ++ ts)

theorem Continues.deeper {level : Nat} {ls : List Line} {ts : List Token}
    (h : Continues level ls ts) : Continues (level + 1) ls (.dedent :: ts) := by
  intro k
  have := h (k + 1)
  rw [List.replicate_succ', List.append_assoc, List.singleton_append] at this
  rwa [Nat.add_right_comm]

/-- A line at the level of its block. -/
theorem Continues.cons {level : Nat} {head : List Token} {ls : List Line} {ts : List Token}
    (hgood : Good ⟨level, head⟩) (h : Flows level ls ts) :
    Continues level (⟨level, head⟩ :: ls) (head ++ .newline :: ts) := by
  intro k
  have := Flows.cons hgood (Nat.le_succ_of_le (Nat.le_add_right level k)) h
  rwa [marks, if_neg (by simp), Nat.add_sub_cancel_left] at this

/-- The same lines, read from the block around theirs. -/
theorem flows_indent {level : Nat} {l : Line} {ls : List Line} {ts : List Token}
    (hl : l.level = level + 1) (h : Flows (level + 1) (l :: ls) ts) :
    Flows level (l :: ls) (.indent :: ts) := by
  cases h with
  | cons good _ rest =>
    have := Flows.cons good (Nat.le_of_eq hl) rest
    rw [hl] at this ⊢
    rw [marks, if_pos (Nat.lt_succ_self level)] at this
    simpa [marks] using this

theorem continues_flatMap {α : Type} {xs : List α} {f : α → List Line} {g : α → List Token}
    {level : Nat}
    (h : ∀ x ∈ xs, ∀ ls ts, Continues level ls ts → Continues level (f x ++ ls) (g x ++ ts))
    {ls : List Line} {ts : List Token} (hls : Continues level ls ts) :
    Continues level (xs.flatMap f ++ ls) (xs.flatMap g ++ ts) := by
  induction xs with
  | nil => exact hls
  | cons x xs ih =>
    rw [List.flatMap_cons, List.flatMap_cons, List.append_assoc, List.append_assoc]
    exact h x (by simp) _ _ (ih fun y hy => h y (by simp [hy]))

theorem Stmt.clauses_ne_nil (s : Stmt) : s.clauses ≠ [] := by
  cases s <;> simp [Stmt.clauses]

theorem Clause.head_optional (k : Keyword) (block : List Stmt) :
    ∀ c ∈ optional k block, c.head ≠ [] := by
  cases block <;> simp [optional]

theorem Stmt.head_ne_nil (s : Stmt) : ∀ c ∈ s.clauses, c.head ≠ [] := by
  cases s with
  | ifElse s t b elifs o =>
    simp only [Stmt.clauses, List.cons_append, List.forall_mem_cons, List.forall_mem_append,
      List.forall_mem_map]
    refine ⟨by simp, ?_, Clause.head_optional _ _⟩
    rintro ⟨_, _⟩ -
    simp [Branch.clause]
  | whileLoop s t b o => exact List.forall_mem_cons.2 ⟨by simp, Clause.head_optional _ _⟩
  | forLoop s t i b o => exact List.forall_mem_cons.2 ⟨by simp, Clause.head_optional _ _⟩
  | tryExcept s b hs o f =>
    simp only [Stmt.clauses, List.cons_append, List.forall_mem_cons, List.forall_mem_append,
      List.forall_mem_map]
    refine ⟨by simp, ⟨?_, Clause.head_optional _ _⟩, Clause.head_optional _ _⟩
    rintro ⟨_, _, _⟩ -
    simp [Handler.clause]
  | funcDef s h b =>
    simp [Stmt.clauses, decoration, Clause.line, FuncHeader.items, or_imp, forall_and]
  | classDef s h b =>
    simp [Stmt.clauses, decoration, Clause.line, ClassHeader.items, or_imp, forall_and]
  | _ => simp [Stmt.clauses, Clause.line]

theorem Stmt.exists_lines (s : Stmt) (level : Nat) :
    ∃ head rest, s.lines level = ⟨level, head⟩ :: rest := by
  obtain ⟨c, cs, hc⟩ := List.exists_cons_of_ne_nil s.clauses_ne_nil
  exact ⟨_, _, by rw [Stmt.lines_eq, hc, List.flatMap_cons, Clause.lines_eq]; rfl⟩

mutual

theorem Stmt.continues (s : Stmt) (h : s.WellFormed) {level : Nat} {ls : List Line}
    {ts : List Token} (hls : Continues level ls ts) :
    Continues level (s.lines level ++ ls) (s.stream ++ ts) := by
  rw [Stmt.WellFormed] at h
  rw [Stmt.lines_eq, Stmt.stream_eq]
  refine continues_flatMap (fun c hc ls ts hls => ?_) hls
  exact Clause.continues c.head c.block (s.head_ne_nil c hc) (Stmt.tidy h.1 c hc) (h.2 c hc) hls
termination_by sizeOf s
decreasing_by exact Stmt.block_lt s _ hc

theorem Clause.continues (head : List Item) (block : List Stmt) (hhead : head ≠ [])
    (htidy : Tidy head) (h : (Clause.mk head block).WellFormed) {level : Nat} {ls : List Line}
    {ts : List Token} (hls : Continues level ls ts) :
    Continues level ((Clause.mk head block).lines level ++ ls)
      ((Clause.mk head block).stream ++ ts) := by
  rw [Clause.WellFormed] at h
  have hneat := neat_head htidy h.1
  have hgood : Good ⟨level, head.flatMap Item.tokens⟩ := by
    refine ⟨?_, hneat.writable, hneat.balanced⟩
    obtain ⟨i, is, rfl⟩ := List.exists_cons_of_ne_nil hhead
    simp [i.tokens_ne_nil]
  rw [Clause.lines_eq, List.cons_append]
  by_cases hne : block = []
  · subst hne
    rw [← Clause.line, Clause.stream_line, List.append_assoc]
    exact Continues.cons hgood (hls 0)
  · -- the block is read one level deeper, and closed by one mark
    have hblock := continues_flatMap (fun s hs ls ts hls => Stmt.continues s (h.2 s hs) hls)
      hls.deeper 0
    obtain ⟨s, block, rfl⟩ := List.exists_cons_of_ne_nil hne
    obtain ⟨first, rest, hfirst⟩ := s.exists_lines (level + 1)
    rw [Clause.stream_block hne]
    simp only [List.flatMap_cons, List.cons_append, List.append_assoc, List.nil_append, hfirst,
      List.replicate_zero] at hblock ⊢
    exact Continues.cons hgood (flows_indent rfl hblock)
termination_by sizeOf block
decreasing_by exact List.sizeOf_lt_of_mem hs

end

/-- The tokens of a written module are the streams of its statements. -/
theorem Module.map_token_lexemes (m : Module) (h : m.WellFormed) :
    (Layout.lexemes m.print).map Lexeme.token = m.body.flatMap Stmt.stream ++ [.eof] := by
  have hend : Continues 0 [] [.eof] := fun k => by
    rw [Nat.zero_add]
    exact Flows.nil k
  have hflows := continues_flatMap (fun s hs ls ts hls => Stmt.continues s (h s hs) hls) hend 0
  rw [List.append_nil] at hflows
  refine Layout.map_token_lexemes hflows fun l hl => ?_
  cases hbody : m.body with
  | nil => simp [Module.lines, hbody] at hl
  | cons s body =>
    obtain ⟨first, rest, hfirst⟩ := s.exists_lines 0
    rw [Module.lines, hbody, List.flatMap_cons, hfirst] at hl
    cases hl
    rfl

end AnnotatedWasm.Syntax
