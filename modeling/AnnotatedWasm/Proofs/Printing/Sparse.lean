import AnnotatedWasm.Proofs.Printing.Expressions

/-!
Writing operators with as few parentheses as their levels allow.

Every form has a level, which is the higher the looser it binds:

* 0: names and numbers; 1: `await`; 2: `**`; 3: the signs `+`, `-` and `~`;
* 4: `*`, `/`, `//`, `%` and `@`; 5: `+` and `-`; 6: `<<` and `>>`; 7: `&`; 8: `^`; 9: `|`;
* 10: comparisons; 11: `not`; 12: `and`; 13: `or`; 14: conditionals.

Each place for an operand has a limit, and an operand stands in parentheses if its level is above
the limit of its place, and only then.
-/

namespace AnnotatedWasm.Syntax

/-! ### Levels and limits -/

def BinOp.level : BinOp → Nat
  | .pow => 2
  | .mul | .div | .floorDiv | .mod | .matMul => 4
  | .add | .sub => 5
  | .shiftLeft | .shiftRight => 6
  | .bitAnd => 7
  | .bitXor => 8
  | .bitOr => 9
  | .and => 12
  | .or => 13

def UnaryOp.level : UnaryOp → Nat
  | .not => 11
  | .neg | .pos | .invert => 3

def Expr.level : Expr → Nat
  | .await .. => 1
  | .unary _ op _ => op.level
  | .binary _ op _ _ => op.level
  | .compare .. => 10
  | .ifElse .. => 14
  | _ => 0

/-- The limit of a left operand. An operator associates to the left, but a power does not. -/
def BinOp.leftLimit (op : BinOp) : Nat := if op = .pow then 1 else op.level

/-- The limit of a right operand. That of a power may be another power, or have a sign. -/
def BinOp.rightLimit (op : BinOp) : Nat := if op = .pow then 3 else op.level - 1

/-- The tokens of an operand of this level in a place with this limit. -/
def enclosed (limit level : Nat) (ts : List Token) : List Token :=
  if level ≤ limit then ts else .punct .lParen :: ts ++ [.punct .rParen]

/-- The tokens of an expression of operators, without parentheses around it. -/
def Expr.sparse : Expr → List Token
  | .name _ id => [.name id]
  | .number _ text => [.number text]
  | .await _ x => .keyword .kAwait :: enclosed 0 x.level x.sparse
  | .unary _ op x => op.token :: enclosed op.level x.level x.sparse
  | .binary _ op l r =>
    enclosed op.leftLimit l.level l.sparse ++ op.token :: enclosed op.rightLimit r.level r.sparse
  | .compare _ l rest =>
    enclosed 9 l.level l.sparse ++
      rest.flatMap fun c => c.1.tokens ++ enclosed 9 c.2.level c.2.sparse
  | .ifElse _ test body orelse =>
    enclosed 13 body.level body.sparse ++ .keyword .kIf ::
      (enclosed 13 test.level test.sparse ++ .keyword .kElse ::
        enclosed 14 orelse.level orelse.sparse)
  | _ => []
termination_by e => sizeOf e
decreasing_by
  all_goals
    simp only [Expr.await.sizeOf_spec, Expr.unary.sizeOf_spec, Expr.binary.sizeOf_spec,
      Expr.compare.sizeOf_spec, Expr.ifElse.sizeOf_spec]
    first
      | omega
      | have := sizeOf_snd_lt ‹_›
        omega

/-- An expression as a line of text. -/
def Expr.sparseText (e : Expr) : String := String.ofList (Line.mk 0 e.sparse).chars

/-- Expressions of names, numbers, operators, comparisons and conditionals. -/
inductive Operational : Expr → Prop
  | name {s id} : isIdentifier id = true → Operational (.name s id)
  | number {s text} : isNumber text = true → Operational (.number s text)
  | await {s x} : Operational x → Operational (.await s x)
  | unary {s op x} : Operational x → Operational (.unary s op x)
  | binary {s op l r} : Operational l → Operational r → Operational (.binary s op l r)
  | compare {s l rest} : Operational l → rest ≠ [] → (∀ c ∈ rest, Operational c.2) →
      Operational (.compare s l rest)
  | ifElse {s test body orelse} : Operational test → Operational body → Operational orelse →
      Operational (.ifElse s test body orelse)

/-! ### The tokens can be written -/

variable {ts us : List Token}

theorem Neat.append (h : Neat ts) (h' : Neat us) : Neat (ts ++ us) where
  writable := List.forall_mem_append.2 ⟨h.writable, h'.writable⟩
  balanced depth := by rw [List.foldl_append, h.balanced, h'.balanced]

theorem Neat.enclosed {limit level : Nat} (h : Neat ts) : Neat (enclosed limit level ts) := by
  unfold Syntax.enclosed
  split
  · exact h
  · exact h.parens

theorem neat_of_tidy (h : Tidy (ts.map .token)) : Neat ts := by
  have hneat := h.neat (by simp)
  rwa [Grammar.flatMap_token] at hneat

theorem neat_flatMap {α : Type} {xs : List α} {f : α → List Token} (h : ∀ x ∈ xs, Neat (f x)) :
    Neat (xs.flatMap f) := by
  induction xs with
  | nil => exact neat_of_tidy tidy_nil
  | cons x xs ih =>
    rw [List.flatMap_cons]
    exact (h x (by simp)).append (ih fun y hy => h y (by simp [hy]))

theorem Operational.neat {e : Expr} (h : Operational e) : Neat e.sparse := by
  have hword (k : Keyword) : Neat [.keyword k] := neat_of_tidy (by simp)
  induction h with
  | name hid =>
    rw [Expr.sparse]
    exact neat_of_tidy (tidy_ident.2 ⟨isWord_of_isIdentifier hid, tidy_nil⟩)
  | number htext =>
    rw [Expr.sparse]
    exact neat_of_tidy (tidy_number.2 ⟨htext, tidy_nil⟩)
  | await _ ih =>
    rw [Expr.sparse]
    exact (hword _).append ih.enclosed
  | @unary _ op _ _ ih =>
    have hop : Neat [op.token] := neat_of_tidy ((tidy_unary op).2 tidy_nil)
    rw [Expr.sparse]
    exact hop.append ih.enclosed
  | @binary _ op _ _ _ _ ihl ihr =>
    have hop : Neat [op.token] := neat_of_tidy ((tidy_binary op).2 tidy_nil)
    rw [Expr.sparse]
    exact ihl.enclosed.append (hop.append ihr.enclosed)
  | compare _ _ _ ihl ihrest =>
    rw [Expr.sparse]
    refine ihl.enclosed.append (neat_flatMap fun c hc => ?_)
    exact (neat_of_tidy (tidy_cmp c.1)).append (ihrest c hc).enclosed
  | ifElse _ _ _ iht ihb iho =>
    rw [Expr.sparse]
    exact ihb.enclosed.append ((hword _).append (iht.enclosed.append
      ((hword _).append iho.enclosed)))

end AnnotatedWasm.Syntax
