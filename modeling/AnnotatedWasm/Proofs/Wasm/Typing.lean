import AnnotatedWasm.Wasm.OfIr
import Mathlib

/-!
Stack typing of WebAssembly instructions.

An instruction takes values off the stack and leaves others; both are listed with the top of the
stack last. A sequence leaves alone what lies below the operands of each of its instructions. After
an instruction that does not go on, the stack is whatever the rest asks for.
-/

namespace AnnotatedWasm.Wasm

/-- The value that an element is read or written as. -/
def Storage.unpacked : Storage → ValType
  | .num k => .num k
  | .byte => .num .i32

/-- What the instructions at a place may refer to. -/
structure Context where
  types : List TypeDef
  /-- The types of the functions, by their indices. -/
  functions : List Nat
  globals : List Global
  /-- The number of data segments. -/
  segments : Nat
  locals : List ValType
  /-- What a branch to each construct around the place has to leave, the innermost first. -/
  labels : List (List ValType)
  result : List ValType
  /-- Whether only mutable globals may be set. -/
  strict : Bool

def Context.enter (C : Context) (label : List ValType) : Context :=
  { C with labels := label :: C.labels }

/-- A reference is to an array type that there is. -/
def ValType.Valid (T : List TypeDef) : ValType → Prop
  | .num _ => True
  | .ref i => ∃ s, T[i]? = some (.array s)

mutual

/-- The instruction takes the first values and leaves the second. -/
inductive HasType : Context → Instr → List ValType → List ValType → Prop
  | nop {C} : HasType C .nop [] []
  | unreachable {C ts us} : HasType C .unreachable ts us
  | const {C v} : HasType C (.const v) [] [.num v.kind]
  | localGet {C i t} : C.locals[i]? = some t → HasType C (.localGet i) [] [t]
  | localSet {C i t} : C.locals[i]? = some t → HasType C (.localSet i) [t] []
  | globalGet {C i g} : C.globals[i]? = some g → HasType C (.globalGet i) [] [.num g.kind]
  | globalSet {C i g} : C.globals[i]? = some g → (C.strict → g.isMutable) →
      HasType C (.globalSet i) [.num g.kind] []
  | unary {C op} : HasType C (.unary op) [.num op.operandKind] [.num op.resultKind]
  | binary {C op} :
      HasType C (.binary op) [.num op.operandKind, .num op.operandKind] [.num op.resultKind]
  | select {C k} : HasType C .select [.num k, .num k, .num .i32] [.num k]
  | selectTyped {C t} : t.Valid C.types → HasType C (.selectTyped t) [t, t, .num .i32] [t]
  | block {C r body} : (∀ t ∈ r, t.Valid C.types) → SeqHasType (C.enter r.toList) body [] r.toList →
      HasType C (.block r body) [] r.toList
  | loop {C body} : SeqHasType (C.enter []) body [] [] → HasType C (.loop body) [] []
  | ifThen {C body} : SeqHasType (C.enter []) body [] [] → HasType C (.ifThen body) [.num .i32] []
  | ifElse {C a b} : SeqHasType (C.enter []) a [] [] → SeqHasType (C.enter []) b [] [] →
      HasType C (.ifElse a b) [.num .i32] []
  | br {C d rs ts us} : C.labels[d]? = some rs → HasType C (.br d) (ts ++ rs) us
  | brIf {C d rs} : C.labels[d]? = some rs → HasType C (.brIf d) (rs ++ [.num .i32]) rs
  | call {C i j ps rs} : C.functions[i]? = some j → C.types[j]? = some (.func ps rs) →
      HasType C (.call i) ps rs
  | ret {C ts us} : HasType C .ret (ts ++ C.result) us
  | drop {C t} : HasType C .drop [t] []
  | arrayNew {C i s} : C.types[i]? = some (.array s) →
      HasType C (.arrayNew i) [s.unpacked, .num .i32] [.ref i]
  | arrayNewFixed {C i n s} : C.types[i]? = some (.array s) →
      HasType C (.arrayNewFixed i n) (List.replicate n s.unpacked) [.ref i]
  | arrayNewData {C i j s} : C.types[i]? = some (.array s) → j < C.segments →
      HasType C (.arrayNewData i j) [.num .i32, .num .i32] [.ref i]
  | arrayGet {C i k} : C.types[i]? = some (.array (.num k)) →
      HasType C (.arrayGet i) [.ref i, .num .i32] [.num k]
  | arraySet {C i s} : C.types[i]? = some (.array s) →
      HasType C (.arraySet i) [.ref i, .num .i32, s.unpacked] []
  | arrayLen {C i s} : C.types[i]? = some (.array s) → HasType C .arrayLen [.ref i] [.num .i32]

/-- The instructions, one after the other, turn the first stack into the second. -/
inductive SeqHasType : Context → List Instr → List ValType → List ValType → Prop
  | nil {C ts} : SeqHasType C [] ts ts
  | cons {C i is below ts us vs} : HasType C i ts us → SeqHasType C is (below ++ us) vs →
      SeqHasType C (i :: is) (below ++ ts) vs

end

variable {C : Context} {i : Instr} {is js : List Instr} {ts us vs : List ValType}

lemma HasType.seq (h : HasType C i ts us) : SeqHasType C [i] ts us := by
  show SeqHasType C [i] ([] ++ ts) ([] ++ us)
  exact .cons h .nil

namespace SeqHasType

lemma append (h : SeqHasType C is ts us) (h' : SeqHasType C js us vs) :
    SeqHasType C (is ++ js) ts vs := by
  induction is generalizing ts with
  | nil => cases h; exact h'
  | cons i is ih =>
    cases h with
    | cons hi his => exact .cons hi (ih his)

/-- What lies below on the stack stays there. -/
lemma frame (below : List ValType) (h : SeqHasType C is ts us) :
    SeqHasType C is (below ++ ts) (below ++ us) := by
  induction is generalizing ts with
  | nil => cases h; exact .nil
  | cons i is ih =>
    cases h with
    | cons hi his =>
      rw [← List.append_assoc]
      exact .cons hi (by rw [List.append_assoc]; exact ih his)

/-- Operands, and then an instruction that takes them. -/
lemma snoc (h : SeqHasType C is [] ts) (hi : HasType C i ts us) :
    SeqHasType C (is ++ [i]) [] us :=
  h.append hi.seq

/-- Two pieces that each only add to the stack. -/
lemma both (h : SeqHasType C is [] ts) (h' : SeqHasType C js [] us) :
    SeqHasType C (is ++ js) [] (ts ++ us) := by
  refine h.append ?_
  have := h'.frame ts
  rwa [List.append_nil] at this

end SeqHasType

/-! ### Functions -/

/-- The locals that runs of one type stand for. -/
def expand (runs : List (Nat × ValType)) : List ValType :=
  runs.flatMap fun (n, t) => List.replicate n t

lemma expand_runs (ts : List ValType) : expand (runs ts) = ts := by
  induction ts with
  | nil => rfl
  | cons t ts ih =>
    rw [runs]
    rcases hr : runs ts with _ | ⟨⟨n, u⟩, rest⟩
    · rw [hr] at ih
      simp [expand, ← ih]
    · rw [hr] at ih
      simp only
      split
      · next hu =>
        subst hu
        rw [← ih]
        simp [expand, List.replicate_succ]
      · rw [← ih]
        simp [expand]

/-- What the body of a function may refer to. -/
def Module.context (w : Module) (strict : Bool) (params results : List ValType) (code : Code) :
    Context where
  types := w.types
  functions := w.functions
  globals := w.globals
  segments := w.data.length
  locals := params ++ expand code.locals
  labels := [results]
  result := results
  strict

end AnnotatedWasm.Wasm
