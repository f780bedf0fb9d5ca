import AnnotatedWasm.Lowering.Module
import AnnotatedWasm.Proofs.Integer.Expression
import AnnotatedWasm.Proofs.Lowering.Conversions
import AnnotatedWasm.Proofs.Number.Scanned

/-!
Written integers in code.

A number token has the value that is written, and its constant is an `i32` if this width has room
for it (`number_token_value`). A global starts with a constant that is computed when it is compiled;
a local with the same declaration is set when the code runs, by a constant, a product with minus one
and a conversion. Both get the same number (`initial_value_agrees`).
-/

namespace AnnotatedWasm

open Ir (Node)
open Numeral (WrittenInteger WrittenFloat)

/-! ### The width of a written number -/

namespace Word

/-- The width of a written number has room for all that is not greater, with either sign. -/
lemma value_ofInt_ofNumeral {v : Nat} (hv : v < 2 ^ 63) {z : Int} (hz : -v ≤ z ∧ z ≤ v) :
    (ofInt (ofNumeral v).width z).value = z := by
  have h32 : least .w32 = -2 ^ 31 := rfl
  have h64 : least .w64 = -2 ^ 63 := rfl
  rw [ofNumeral]
  split
  · exact value_ofInt (by rw [width_ofInt]; omega) (by rw [width_ofInt]; omega)
  · exact value_ofInt (by rw [width_ofInt]; omega) (by rw [width_ofInt]; omega)

lemma value_ofNumeral {v : Nat} (hv : v < 2 ^ 63) : (ofNumeral v).value = v := by
  have h : ofNumeral v = ofInt (ofNumeral v).width v := by
    rw [ofNumeral]
    split <;> rfl
  rw [h]
  exact value_ofInt_ofNumeral hv (by omega)

lemma width_ofNumeral (v : Nat) : (ofNumeral v).width = .w32 ↔ v < 2 ^ 31 := by
  rw [ofNumeral]
  split <;> simp <;> omega

end Word

namespace Lowering

open Syntax (Expr Stmt)

/-! ### Number tokens -/

lemma returns_lowerNumber {text : String} {v : Nat} (h : Numeral.ofText? text = some (.int v))
    (span : Span) (b : Body) :
    Returns (lowerNumber text span) b (.const (Word.ofNumeral v).literal) b := by
  rw [lowerNumber, h, ← literal_ofNumeral]
  rfl

lemma fails_lowerNumber {text : String} (h : Numeral.ofText? text = none) (span : Span) (b : Body) :
    Fails (lowerNumber text span) b (.type (.literalRange text) span) := by
  rw [lowerNumber, h]
  exact .throw _ _

/-- **Written numbers**: a number token is a written integer or a written float. An integer with a
digit and a value of at most `2 ^ 63 - 1` is read as this value, and its constant is an `i32` of it
if it is at most `2 ^ 31 - 1`, else an `i64`; every other integer is refused. What is written with
a fraction or an exponent is read as a float. -/
theorem number_token_value (source text : String) (l : Lexeme) (hl : l ∈ Layout.lexemes source)
    (htext : l.token = .number text) :
    ((∃ w : WrittenInteger, w.text = text) ∨ ∃ w : WrittenFloat, w.text = text) ∧
    (∀ w : WrittenInteger, w.text = text →
      (w.significant ≠ [] ∧ w.value ≤ 2 ^ 63 - 1 →
        Numeral.ofText? text = some (.int w.value) ∧
        ∀ span b, ∃ x : Word, Returns (lowerNumber text span) b (.const x.literal) b ∧
          x.value = w.value ∧ (x.width = .w32 ↔ w.value ≤ 2 ^ 31 - 1)) ∧
      (¬ (w.significant ≠ [] ∧ w.value ≤ 2 ^ 63 - 1) →
        Numeral.ofText? text = none ∧
        ∀ span b, Fails (lowerNumber text span) b (.type (.literalRange text) span))) ∧
    (∀ w : WrittenFloat, w.text = text → ∃ bits, Numeral.ofText? text = some (.float bits) ∧
      ∀ span b, Returns (lowerNumber text span) b (.const (.float .w64 bits)) b) := by
  refine ⟨Layout.lexemes_written hl htext, ?_, ?_⟩
  · rintro w rfl
    constructor
    · rintro ⟨hdigit, hrange⟩
      have hread : Numeral.ofText? w.text = some (.int w.value) := by
        rw [Numeral.ofText?_integer, if_neg]
        rintro (h | h)
        · exact hdigit h
        · omega
      refine ⟨hread, fun span b => ⟨_, returns_lowerNumber hread span b, ?_, ?_⟩⟩
      · exact Word.value_ofNumeral (by omega)
      · rw [Word.width_ofNumeral]
        omega
    · intro h
      have hread : Numeral.ofText? w.text = none := by
        rw [Numeral.ofText?_integer, if_pos]
        by_contra hor
        push Not at hor
        exact h ⟨hor.1, by omega⟩
      exact ⟨hread, fails_lowerNumber hread⟩
  · rintro w rfl
    obtain ⟨bits, hread⟩ := Numeral.ofText?_float w
    refine ⟨bits, hread, fun span b => ?_⟩
    rw [lowerNumber, hread]
    rfl

/-- `0X_8000_0000_`, the least number that is no `i32`. -/
def wideNumber : WrittenInteger where
  mark := some (.hexadecimal, true)
  digits := ['_', '8', '0', '0', '0', '_', '0', '0', '0', '0', '_']
  run := by simp [Numeral.IsRun]; decide
  start := by simp

theorem number_token_value_wide : ∃ l ∈ Layout.lexemes "x = 0X_8000_0000_\n",
    l.token = .number "0X_8000_0000_" ∧
    Numeral.ofText? "0X_8000_0000_" = some (.int 2147483648) ∧
    ∃ x : Word, x.value = 2147483648 ∧ x.width = .w64 ∧
      Returns (lowerNumber "0X_8000_0000_" ⟨4, 17⟩) ⟨{}, .start "f" [] .void⟩ (.const x.literal)
        ⟨{}, .start "f" [] .void⟩ := by
  have hlexed : (Layout.lexemes "x = 0X_8000_0000_\n").any
      (·.token = .number "0X_8000_0000_") = true := by decide +kernel
  obtain ⟨l, hl, htoken⟩ := List.any_eq_true.1 hlexed
  have htext : l.token = .number "0X_8000_0000_" := of_decide_eq_true htoken
  have hvalue : wideNumber.value = 2147483648 := by decide +kernel
  obtain ⟨-, hinteger, -⟩ := number_token_value _ _ l hl htext
  obtain ⟨hread, hlower⟩ := (hinteger wideNumber rfl).1
    ⟨by decide, by rw [hvalue]; decide⟩
  rw [hvalue] at hread hlower
  obtain ⟨x, hx, hxv, hxw⟩ := hlower ⟨4, 17⟩ ⟨{}, .start "f" [] .void⟩
  refine ⟨l, hl, htext, hread, x, hxv, ?_, hx⟩
  rcases hw : x.width
  · exact absurd (hxw.1 hw) (by decide)
  · rfl

/-! ### Constants of globals -/

/-- What an integer global may start with: an integer, a negated one, or a truth value. -/
inductive IntConstant : Expr → Prop
  | number {span} (w : WrittenInteger) : IntConstant (.number span w.text)
  | neg {span span'} (w : WrittenInteger) : IntConstant (.unary span .neg (.number span' w.text))
  | bool {span value} : IntConstant (.bool span value)

/-- The code gives the word and leaves the store as it is. -/
def Computes (n : Node) (x : Word) : Prop :=
  n.ty = .num (.int x.width) ∧
    ∀ (W : Type) (floats : Floats) (call : Callees W) (fuel : Nat) (st : Store Literal W),
      Returns (n.eval (machine floats call) fuel) st (some (.num x.literal)) st

lemma computes_const (x : Word) : Computes (.const x.literal) x := ⟨rfl, fun _ _ _ _ _ => rfl⟩

/-- A product with minus one is the negated number. -/
lemma Computes.neg {n : Node} {x : Word} (h : Computes n x) :
    Computes (.binary (.arith .mul (.int x.width)) (.const (.ofInt (.int x.width) (-1))) n)
      (.ofInt x.width (-x.value)) := by
  refine ⟨rfl, fun W floats call fuel st => ?_⟩
  have hmul : (machine floats call).binary (.arith .mul (.int x.width))
      (Word.ofInt x.width (-1)).literal x.literal = (x.sign? .neg).map Word.literal := by
    rw [sign?_eq.1]
    exact binary_operation rfl _ _ rfl rfl
  exact returns_evalBinary rfl (h.2 W floats call fuel st) hmul

lemma Computes.convert {n : Node} {x : Word} (h : Computes n x) (w : Width) :
    Computes (Lowering.convert n (.int w)) (.ofInt w x.value) :=
  ⟨ty_convert h.1, fun W floats call fuel st =>
    returns_convert_word (h.2 W floats call fuel st) h.1 w⟩

variable {env : Env} {e : Expr}

/-- The constant is refused by both, or the code of the expression computes a word whose value the
constant has in every width. -/
lemma IntConstant.cases (he : IntConstant e) (env : Env) (b : Body) :
    ((∀ w, constantOf? (.int w) e = none) ∧ ∀ hint, ∃ err, Fails (lowerExpr env hint e) b err) ∨
    ∃ n x, (∀ w, constantOf? (.int w) e = some (Word.ofInt w x.value).literal) ∧
      (∀ hint, Returns (lowerExpr env hint e) b n b) ∧ Computes n x := by
  -- a written integer is refused, or read as a number that has a word
  have hread (w : WrittenInteger) : Numeral.ofText? w.text = none ∨
      ∃ v : Nat, v < 2 ^ 63 ∧ Numeral.ofText? w.text = some (.int v) := by
    rw [Numeral.ofText?_integer]
    split
    · exact .inl rfl
    · next h => exact .inr ⟨_, by push Not at h; exact h.2, rfl⟩
  cases he with
  | number w =>
    rcases hread w with h | ⟨v, hv, h⟩
    · refine .inl ⟨fun _ => by rw [constantOf?, h]; rfl, fun hint => ?_⟩
      rw [lowerExpr]
      exact ⟨_, fails_lowerNumber h _ b⟩
    · refine .inr ⟨_, Word.ofNumeral v, fun k => ?_, fun hint => ?_, computes_const _⟩
      · rw [constantOf?, h, Word.value_ofNumeral hv]
        rfl
      · rw [lowerExpr]
        exact returns_lowerNumber h _ b
  | neg w =>
    rcases hread w with h | ⟨v, hv, h⟩
    · refine .inl ⟨fun _ => by rw [constantOf?, h]; rfl, fun hint => ?_⟩
      rw [lowerExpr, lowerExpr]
      exact ⟨_, (fails_lowerNumber h _ b).bind_left⟩
    · refine .inr ⟨_, _, fun k => ?_, fun hint => ?_, (computes_const (Word.ofNumeral v)).neg⟩
      · rw [constantOf?, h, Word.value_ofNumeral hv, Word.value_ofInt_ofNumeral hv (by omega)]
        rfl
      · rw [lowerExpr, lowerExpr]
        exact (returns_lowerNumber h _ b).bind rfl
  | @bool _ value =>
    refine .inr ⟨_, Word.ofInt .w32 (if value then 1 else 0), fun k => ?_, fun hint => ?_,
      computes_const _⟩
    · rw [constantOf?]
      cases value <;> rfl
    · rw [lowerExpr]
      rfl

/-- The name is a local variable of this type, or free for one. -/
def LocalOf (f : Frame) (name : String) (ty : Ty) : Prop :=
  f.global? name = none ∧ ∀ slot, f.slot? name = some slot → slot.ty = ty

lemma LocalOf.recordedType? {f : Frame} {name : String} {ty : Ty} (h : LocalOf f name ty) :
    ∀ old ∈ Lowering.recordedType? f name, old = ty := by
  rintro old hold
  rw [Lowering.recordedType?, h.1] at hold
  rcases hs : f.slot? name with _ | slot
  · simp [hs] at hold
  · simp [hs] at hold
    rw [← hold, h.2 slot hs]

/-- A local variable is stored to where it has its slot, or in a new slot. -/
lemma exists_storeTyped {name : String} {b : Body} {ty : Ty} (h : LocalOf b.frame name ty)
    (value : Node) : ∃ i b', Returns (storeTyped name ty value) b (.localSet i value) b' ∧
      b'.frame.slot? name = some ⟨i, ty⟩ := by
  obtain ⟨hglobal, hslot⟩ := h
  rcases hs : b.frame.slot? name with _ | slot
  · refine ⟨b.frame.nextIndex, { b with frame := (b.frame.declare name ty).2 }, ?_, ?_⟩
    · simp [storeTyped, hs, hglobal]
    · simp [Frame.declare, Frame.slot?, lookupLast?_snoc]
  · refine ⟨slot.index, b, ?_, ?_⟩
    · simp [storeTyped, hs]
    · rw [hs, ← hslot slot hs]

/-- The steps of a declaration with a value. -/
lemma returns_annAssign {span s : Span} {name : String} {annot : Expr} {k : NumKind}
    {n m r : Node} {b b₁ b₂ b₃ : Body}
    (hannot : Signature.resolve env.signatures.aliases annot = .ok (.num k))
    (hold : ∀ old ∈ recordedType? b.frame name, old = .num k)
    (hvalue : Returns (lowerExpr env (some (.num k)) e) b n b₁)
    (hcoerce : Returns (coerce n (.num k) e.span) b₁ m b₂)
    (hstore : Returns (storeTyped name (.num k) m) b₂ r b₃) :
    Returns (lowerStmt env (.annAssign span (.name s name) annot (some e))) b r b₃ := by
  rw [lowerStmt, lowerAnnAssign]
  simp only [Expr.name?, hannot]
  refine .bind rfl (.bind (a := ()) (returns_requireType.2 ⟨rfl, rfl⟩) (.bind rfl ?_))
  split
  · next old hr =>
    rw [if_neg (not_not.2 (hold old hr))]
    exact hvalue.bind (hcoerce.bind hstore)
  · exact hvalue.bind (hcoerce.bind hstore)

/-- **Initial values**: a global whose type is an integer kind is given a constant just where the
expression is compiled in a function. This constant has the kind, and it is the number that the code
of a local declaration with the same type and value computes and stores. -/
theorem initial_value_agrees (env : Env) (w : Width) (e : Expr) (he : IntConstant e) (b : Body) :
    (∀ hint, (constantOf? (.int w) e).isSome ↔ ∃ n b', Returns (lowerExpr env hint e) b n b') ∧
    ∀ c, constantOf? (.int w) e = some c → c.kind = .int w ∧
      ∀ span s name annot, Signature.resolve env.signatures.aliases annot = .ok (.num (.int w)) →
        LocalOf b.frame name (.num (.int w)) →
        ∃ i v b', Returns (lowerStmt env (.annAssign span (.name s name) annot (some e))) b
            (.localSet i v) b' ∧
          b'.frame.slot? name = some ⟨i, .num (.int w)⟩ ∧
          ∀ (W : Type) (floats : Floats) (call : Callees W) (fuel : Nat) (st : Store Literal W),
            Returns (v.eval (machine floats call) fuel) st (some (.num c)) st ∧
            Returns ((Node.localSet i v).eval (machine floats call) fuel) st none
              (st.setLocal i (.num c)) := by
  rcases he.cases env b with ⟨hnone, hfails⟩ | ⟨n, x, hsome, hreturns, hcomputes⟩
  · refine ⟨fun hint => iff_of_false (by simp [hnone]) ?_, fun c hc => ?_⟩
    · rintro ⟨n, b', hn⟩
      obtain ⟨err, b₁, herr⟩ := hfails hint
      cases hn.symm.trans herr
    · rw [hnone] at hc
      cases hc
  · refine ⟨fun hint => iff_of_true (by rw [hsome]; rfl) ⟨n, b, hreturns hint⟩, fun c hc => ?_⟩
    rw [hsome] at hc
    cases hc
    refine ⟨rfl, fun span s name annot hannot hlocal => ?_⟩
    have hcoerce := returns_coerce_num hcomputes.1 (.int w) e.span b
    have hframe : (b.grow [] 0 (conversionEvents (.int x.width) (.int w) e.span)).frame = b.frame :=
      Body.Notes.frame ⟨_, rfl⟩
    obtain ⟨i, b', hstore, hname⟩ := exists_storeTyped (hframe.symm ▸ hlocal) (convert n (.int w))
    have hv := (hcomputes.convert w).2
    refine ⟨i, convert n (.int w), b', ?_, hname, fun W floats call fuel st =>
      ⟨hv W floats call fuel st, returns_localSet (hv W floats call fuel st)⟩⟩
    exact returns_annAssign hannot hlocal.recordedType? (hreturns _) hcoerce hstore

/-- The least `i32`, for which an `i64` is negated and then wrapped. -/
def leastValue : Expr := .unary ⟨0, 0⟩ .neg (.number ⟨0, 0⟩ "0X_8000_0000_")

def leastEnv : Env := ⟨{}, { aliases := { objects := [("i32", "i32")] } }⟩

theorem initial_value_agrees_least : constantOf? .i32 leastValue = some (.i32 (-2147483648)) ∧
    ∃ i v b', Returns (lowerStmt leastEnv (.annAssign ⟨0, 0⟩ (.name ⟨0, 0⟩ "x")
        (.name ⟨0, 0⟩ "i32") (some leastValue))) ⟨{}, .start "f" [] .void⟩ (.localSet i v) b' ∧
      b'.frame.slot? "x" = some ⟨i, .i32⟩ ∧
      ∀ (W : Type) (floats : Floats) (call : Callees W) (fuel : Nat) (st : Store Literal W),
        Returns ((Node.localSet i v).eval (machine floats call) fuel) st none
          (st.setLocal i (.num (.i32 (-2147483648)))) := by
  have hconstant : constantOf? .i32 leastValue = some (.i32 (-2147483648)) := by decide +kernel
  obtain ⟨-, hvalue⟩ := initial_value_agrees leastEnv .w32 leastValue (.neg wideNumber)
    ⟨{}, .start "f" [] .void⟩
  obtain ⟨-, hlocal⟩ := hvalue _ hconstant
  obtain ⟨i, v, b', hlower, hslot, hruns⟩ := hlocal ⟨0, 0⟩ ⟨0, 0⟩ "x" (.name ⟨0, 0⟩ "i32")
    (by decide +kernel) ⟨rfl, fun slot hslot => by cases hslot⟩
  exact ⟨hconstant, i, v, b', hlower, hslot, fun W floats call fuel st =>
    (hruns W floats call fuel st).2⟩

end Lowering

end AnnotatedWasm
