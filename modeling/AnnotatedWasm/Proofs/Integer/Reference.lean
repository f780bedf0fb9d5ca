import AnnotatedWasm.Lowering.Stmt
import AnnotatedWasm.Proofs.Ir.Machine

/-!
What integer expressions and assignments mean, said in terms of signed numbers and of the names
of the source.

The two operands of an operator meet in the wider of their widths, in which the result is taken
modulo the number of words. A name stands for its slot or its global, and a call passes words of
the declared widths. There is no meaning (`none`) where the program traps.
-/

namespace AnnotatedWasm

open Syntax (Expr Stmt BinOp CmpOp UnaryOp)

/-! ### Operators -/

namespace Word

/-- An arithmetic operator on two words. Division rounds toward zero, and the remainder has the
sign of the dividend. -/
def arith? (op : BinOp) (x y : Word) : Option Word :=
  let w := x.width.max y.width
  match op with
  | .add => some (ofInt w (x.value + y.value))
  | .sub => some (ofInt w (x.value - y.value))
  | .mul => some (ofInt w (x.value * y.value))
  | .floorDiv =>
    if y.value = 0 ∨ (x.value = least w ∧ y.value = -1) then none
    else some (ofInt w (x.value.tdiv y.value))
  | .mod => if y.value = 0 then none else some (ofInt w (x.value.tmod y.value))
  | _ => none

/-- A sign, or `not`, which is the difference from zero. -/
def sign? (op : UnaryOp) (x : Word) : Option Word :=
  match op with
  | .pos => some x
  | .neg => some (ofInt x.width (-x.value))
  | .not => some (ofInt x.width (0 - x.value))
  | .invert => none

/-- A comparison gives one or zero. -/
def compare? (op : CmpOp) (x y : Word) : Option Word :=
  match op with
  | .eq => some (truth (x.value = y.value))
  | .notEq => some (truth (x.value ≠ y.value))
  | .lt => some (truth (x.value < y.value))
  | .le => some (truth (x.value ≤ y.value))
  | .gt => some (truth (x.value > y.value))
  | .ge => some (truth (x.value ≥ y.value))
  | .is | .isNot | .isIn | .notIn => none
where
  truth (holds : Bool) : Word := ofInt .w32 (if holds then 1 else 0)

/-- A written number has the narrower width that holds it. -/
def ofNumeral (v : Int) : Word := if v < 2 ^ 31 then ofInt .w32 v else ofInt .w64 v

end Word

/-! ### Expressions -/

def Value.word? : Value Literal → Option Word
  | .num (.int w v) => some ⟨w, v⟩
  | _ => none

/-- The integer expressions: names and calls of integer type, literals, signs and `not`,
arithmetic without true division, and single comparisons. -/
inductive IntExpr (f : Frame) (sigs : Signatures) : Expr → Prop
  | name {span id w} : Lowering.recordedType? f id = some (.num (.int w)) →
      IntExpr f sigs (.name span id)
  | number {span text v} : Numeral.ofText? text = some (.int v) → IntExpr f sigs (.number span text)
  | bool {span value} : IntExpr f sigs (.bool span value)
  | unary {span op e} : op ∈ [UnaryOp.pos, .neg, .not] → IntExpr f sigs e →
      IntExpr f sigs (.unary span op e)
  | binary {span op l r} : op ∈ [BinOp.add, .sub, .mul, .floorDiv, .mod] → IntExpr f sigs l →
      IntExpr f sigs r → IntExpr f sigs (.binary span op l r)
  | compare {span l op r} : IntExpr f sigs l → IntExpr f sigs r →
      IntExpr f sigs (.compare span l [(op, r)])
  | call {span s name args sig w} : sigs.get? name = some sig →
      (∀ t ∈ sig.params, ∃ v, t = .num (.int v)) → sig.returns = .num (.int w) →
      (∀ a ∈ args, IntExpr f sigs a) → IntExpr f sigs (.call span (.name s name) args [])

/-- Where the type is that of a number, the value is a number of this kind. -/
def Value.Fits (v : Value Literal) (t : Ty) : Prop :=
  ∀ k, t = .num k → ∃ x : Literal, v = .num x ∧ x.kind = k

/-- The globals that a function sees hold values of their types. -/
def Shared.Fits {W : Type} (f : Frame) (sh : Shared Literal W) : Prop :=
  ∀ name t, f.global? name = some t → (sh.globals name).Fits t

/-- The names of a function stand for values of their types. -/
structure Store.Fits {W : Type} (f : Frame) (st : Store Literal W) : Prop where
  shared : st.toShared.Fits f
  locals : ∀ name s, f.slot? name = some s → (st.locals s.index).Fits s.ty

/-- Callees keep to their signatures. -/
def Callees.Fit {W : Type} (f : Frame) (sigs : Signatures) (call : Callees W) : Prop :=
  ∀ name sig vs sh r sh', sigs.get? name = some sig → List.Forall₂ Value.Fits vs sig.params →
    sh.Fits f → call name vs sh = some (r, sh') →
      sh'.Fits f ∧ (sig.returns ≠ .void → ∃ v, r = some v ∧ v.Fits sig.returns)

namespace Syntax.Expr

variable {W : Type} (f : Frame) (sigs : Signatures) (call : Callees W)
  (locals : Nat → Value Literal)

mutual

/-- The meaning of an integer expression, and what its calls leave of what is shared. -/
def meaning : Expr → Shared Literal W → Option (Word × Shared Literal W)
  | .name _ id, sh =>
    match f.slot? id with
    | some s => do return (← (locals s.index).word?, sh)
    | none => do return (← (sh.globals id).word?, sh)
  | .number _ text, sh =>
    match Numeral.ofText? text with
    | some (.int v) => some (.ofNumeral v, sh)
    | _ => none
  | .bool _ value, sh => some (.ofInt .w32 (if value then 1 else 0), sh)
  | .unary _ op e, sh => do
    let (x, sh) ← meaning e sh
    return (← x.sign? op, sh)
  | .binary _ op l r, sh => do
    let (x, sh) ← meaning l sh
    let (y, sh) ← meaning r sh
    return (← x.arith? op y, sh)
  | .compare _ l [(op, r)], sh => do
    let (x, sh) ← meaning l sh
    let (y, sh) ← meaning r sh
    return (← x.compare? op y, sh)
  | .call _ (.name _ callee) args _, sh => do
    let sig ← sigs.get? callee
    let (xs, sh) ← meanings sig.params args sh
    let (r, sh) ← call callee (xs.map fun x => .num x.literal) sh
    return (← r >>= Value.word?, sh)
  | _, _ => none

/-- Arguments, each as a word of the declared width. -/
def meanings : List Ty → List Expr → Shared Literal W → Option (List Word × Shared Literal W)
  | .num (.int w) :: tys, arg :: args, sh => do
    let (x, sh) ← meaning arg sh
    let (xs, sh) ← meanings tys args sh
    return (.ofInt w x.value :: xs, sh)
  | _, _, sh => some ([], sh)

end

end Syntax.Expr

/-! ### Assignments -/

/-- The names that an assignment stores to, and the expression that it stores. -/
def Syntax.Stmt.assigns? : Stmt → Option (List String × Expr)
  | .assign _ targets e => do return (← targets.mapM Expr.name?, e)
  | .annAssign _ target _ (some e) => do return ([← target.name?], e)
  | .augAssign span target op e => do return ([← target.name?], .binary span op target e)
  | _ => none

end AnnotatedWasm
