import AnnotatedWasm.Proofs.Wasm.Emission

/-!
The table of types is consistent however it is used.

An emission asks for array types, value types and function types in any order. A call that has been
answered is answered alike in every later table, which it leaves as it is (`Settles`), and an entry
mentions only array types before it. So an index stands for one type for good, and two calls share
an index exactly when they ask for the same type.
-/

namespace AnnotatedWasm.Wasm

/-- The value types that an entry mentions. -/
def TypeDef.values : TypeDef → List ValType
  | array _ => []
  | func params results => params ++ results

def ValType.index? : ValType → Option Nat
  | num _ => none
  | ref i => some i

namespace TypeTable

/-- In every table after the call, the call gives the same and adds nothing. -/
def Settles {α : Type} (call : TypeTable → α × TypeTable) : Prop :=
  ∀ t t', (call t).2.entries <+: t'.entries → call t' = ((call t).1, t')

lemma settles_intern (d : TypeDef) : Settles fun t => t.intern d := by
  intro t t' h
  obtain ⟨hidx, hget⟩ := (t.intern_enters d).2 _ h
  rcases hi : t'.entries.idxOf? d with _ | i
  · exact absurd (List.mem_of_getElem? hget) (List.idxOf?_eq_none_iff.mp hi)
  · rw [List.idxOf_eq_getD_idxOf?, hi] at hidx
    show t'.intern d = ((t.intern d).1, t')
    rw [← hidx, intern, hi]
    rfl

lemma settles_valType (ty : Ty) : Settles fun t => t.valType ty := by
  intro t t' h
  cases ty with
  | num k | void => rfl
  | array k => simp only [valType, array, settles_intern _ t t' h]
  | str => simp only [valType, array, settles_intern _ t t' h]

lemma settles_valTypes (tys : List Ty) : Settles fun t => t.valTypes tys := by
  induction tys with
  | nil => exact fun _ _ _ => rfl
  | cons ty tys ih =>
    intro t t' h
    have hfirst := settles_valType ty t t' (((t.valType ty).2.valTypes_enters tys).1.trans h)
    simp only [valTypes, hfirst, ih (t.valType ty).2 t' h]

lemma settles_func (params : List Ty) (result : Ty) : Settles fun t => t.func params result := by
  intro t t' h
  have h₃ := (((t.valTypes params).2.valType result).2.intern_enters
    (.func (t.valTypes params).1 ((t.valTypes params).2.valType result).1.toList)).1.trans h
  have h₂ := ((t.valTypes params).2.valType_enters result).1.trans h₃
  simp only [func, settles_valTypes params t t' h₂,
    settles_valType result (t.valTypes params).2 t' h₃]
  exact settles_intern _ _ t' h

/-- Types without values make no difference to a function type. -/
lemma valTypes_filter (t : TypeTable) (tys : List Ty) :
    t.valTypes (tys.filter (!·.isVoid)) = t.valTypes tys := by
  induction tys generalizing t with
  | nil => rfl
  | cons ty tys ih =>
    cases ty with
    | void => exact ih t
    | num _ | array _ | str =>
      show t.valTypes (_ :: tys.filter _) = _
      simp only [valTypes, ih]

end TypeTable

/-! ### What calls ask for -/

/-- A type with an entry of its own. -/
inductive Shape where
  | array (storage : Storage)
  | func (params : List Ty) (result : Ty)

namespace Shape

/-- The index of the type, and the table with it. -/
def answer (t : TypeTable) : Shape → Nat × TypeTable
  | array s => t.array s
  | func params result => t.func params result

/-- The entry of the type in a table. -/
def entry (T : List TypeDef) : Shape → TypeDef
  | array s => .array s
  | func params result => .func (params.flatMap (valuesOf T)) (valuesOf T result)

/-- The array types that the type mentions are in the table. -/
def Mentioned (T : List TypeDef) : Shape → Prop
  | array _ => True
  | func params result => (∀ p ∈ params, Entered T p) ∧ Entered T result

lemma answer_enters (t : TypeTable) (w : Shape) :
    t.Enters (w.answer t) fun T i => T[i]? = some (w.entry T) ∧ w.Mentioned T := by
  cases w with
  | array s => exact ⟨(t.array_enters s).1, fun T hT => ⟨((t.array_enters s).2 T hT).2, trivial⟩⟩
  | func params result => exact t.func_enters params result

lemma settles_answer (w : Shape) : TypeTable.Settles w.answer := by
  cases w with
  | array s => exact TypeTable.settles_intern (.array s)
  | func params result => exact TypeTable.settles_func params result

end Shape

/-- The array type behind a reference. -/
def TypeDef.array? : TypeDef → Option Ty
  | array (.num k) => some (.array k)
  | array .byte => some .str
  | func .. => none

def ValType.read (T : List TypeDef) : ValType → Option Ty
  | num k => some (.num k)
  | ref i => T[i]?.bind TypeDef.array?

/-- The type that an entry stands for. -/
def TypeDef.read (T : List TypeDef) : TypeDef → Shape
  | array s => .array s
  | func params results => .func (params.filterMap (ValType.read T))
      ((results.filterMap (ValType.read T)).headD .void)

/-- A call on the table. -/
inductive Request where
  | array (storage : Storage)
  | valType (ty : Ty)
  | func (params : List Ty) (result : Ty)

namespace Request

/-- The index that a call gives, if any, and the table after it. -/
def answer (t : TypeTable) : Request → Option Nat × TypeTable
  | array s => (some (t.array s).1, (t.array s).2)
  | valType ty => ((t.valType ty).1.bind ValType.index?, (t.valType ty).2)
  | func params result => (some (t.func params result).1, (t.func params result).2)

/-- The type that a call asks for: numbers have no entry, and parameters without values no part
in a function type. -/
def shape? : Request → Option Shape
  | array s => some (.array s)
  | valType (.array k) => some (.array (.num k))
  | valType .str => some (.array .byte)
  | valType _ => none
  | func params result => some (.func (params.filter (!·.isVoid)) result)

lemma answer_of_shape {r : Request} {w : Shape} (h : r.shape? = some w) (t : TypeTable) :
    r.answer t = (some (w.answer t).1, (w.answer t).2) := by
  cases r with
  | array s => cases h; rfl
  | valType ty => cases ty <;> cases h <;> rfl
  | func params result =>
    cases h
    simp only [answer, Shape.answer, TypeTable.func, TypeTable.valTypes_filter]

lemma answer_of_none {r : Request} (h : r.shape? = none) (t : TypeTable) :
    r.answer t = (none, t) := by
  cases r with
  | array | func => cases h
  | valType ty => cases ty <;> first | rfl | cases h

end Request

/-! ### Runs of calls -/

/-- The table after some calls, the first of them on the empty table. -/
def tableAfter (asked : List Request) : TypeTable := asked.foldl (fun t r => (r.answer t).2) {}

lemma tableAfter_concat (asked : List Request) (r : Request) :
    tableAfter (asked ++ [r]) = (r.answer (tableAfter asked)).2 := List.foldl_concat ..

/-- What one call keeps, a run of calls keeps. -/
lemma tableAfter_induction {P : TypeTable → Prop} {asked : List Request} (h : P (tableAfter asked))
    (hstep : ∀ t w, P t → P (Shape.answer t w).2) (more : List Request) :
    P (tableAfter (asked ++ more)) := by
  induction more using List.reverseRecOn with
  | nil => rwa [List.append_nil]
  | append_singleton more r ih =>
    rw [← List.append_assoc, tableAfter_concat]
    rcases hr : r.shape? with _ | w
    · rwa [Request.answer_of_none hr]
    · rw [Request.answer_of_shape hr]
      exact hstep _ w ih

lemma tableAfter_prefix (asked more : List Request) :
    (tableAfter asked).entries <+: (tableAfter (asked ++ more)).entries :=
  tableAfter_induction (P := fun t => (tableAfter asked).entries <+: t.entries) List.prefix_rfl
    (fun t w h => h.trans (w.answer_enters t).1) more

/-- One of the calls asked for the type, and this is the index it got. -/
def Gave (asked : List Request) (w : Shape) (i : Nat) : Prop :=
  ∃ before r after, asked = before ++ r :: after ∧ Request.shape? r = some w ∧
    (r.answer (tableAfter before)).1 = some i

/-- A call for the type would now be answered in the same way. -/
lemma Gave.answer {asked : List Request} {w : Shape} {i : Nat} (h : Gave asked w i) :
    w.answer (tableAfter asked) = (i, tableAfter asked) := by
  obtain ⟨before, r, after, rfl, hr, hi⟩ := h
  have hle := tableAfter_prefix (before ++ [r]) after
  rw [tableAfter_concat, List.append_assoc, List.singleton_append, Request.answer_of_shape hr] at hle
  rw [Request.answer_of_shape hr] at hi
  exact (w.settles_answer _ _ hle).trans (by rw [Option.some_inj.mp hi])

lemma Gave.entered {asked : List Request} {w : Shape} {i : Nat} (h : Gave asked w i) :
    (tableAfter asked).entries[i]? = some (w.entry (tableAfter asked).entries) ∧
      w.Mentioned (tableAfter asked).entries := by
  have hw := (w.answer_enters (tableAfter asked)).2
  rw [h.answer] at hw
  exact hw _ List.prefix_rfl

end AnnotatedWasm.Wasm
