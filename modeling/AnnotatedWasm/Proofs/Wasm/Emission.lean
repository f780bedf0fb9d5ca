import AnnotatedWasm.Proofs.Wasm.Typing

/-!
What emission gives when it succeeds.

A step only ever adds types, and a segment for each string constant, so an index that it gives means
the same in the finished module. `Writes` says what a step adds and what is true of its result in
every later pool. The instructions of a node are related to it by `Emits`, which says all there is to
know of them; what follows from this for typing, execution, calls and strings is proved from the
relation, and emission is not opened again.
-/

namespace AnnotatedWasm

namespace Ir

namespace Node

mutual

/-- The string constants of a node, in the order in which instructions are emitted for them. -/
def texts : Node → List String
  | string s => [s]
  | nop | unreachable | const _ | localGet _ _ | globalGet _ _ | br _ => []
  | localSet _ v | globalSet _ v | unary _ v | drop v | arrayLen v | loop _ v | brIf _ v => v.texts
  | binary _ a b | arrayNew _ a b | arrayGet _ a b => a.texts ++ b.texts
  | arraySet _ a b c | select c a b => a.texts ++ b.texts ++ c.texts
  | block _ ns _ | call _ ns _ | arrayNewFixed _ ns => textsAll ns
  | ifElse c a e => c.texts ++ a.texts ++ textsOpt e
  | ret v => textsOpt v

def textsAll : List Node → List String
  | [] => []
  | n :: ns => n.texts ++ textsAll ns

def textsOpt : Option Node → List String
  | none => []
  | some n => n.texts

end

end Node

def Module.texts (m : Module) : List String := m.functions.flatMap fun f => Node.textsAll f.body

end Ir

namespace Wasm

open Ir (Node)

/-! ### The table of types -/

/-- The values that a type has on the stack, with array types at their places in a table. -/
def valuesOf (T : List TypeDef) : Ty → List ValType
  | .num k => [.num k]
  | .array k => [.ref (T.idxOf (.array (.num k)))]
  | .str => [.ref (T.idxOf (.array .byte))]
  | .void => []

/-- The array type that a value of this type refers to, if any, is in the table. -/
def Entered (T : List TypeDef) (t : Ty) : Prop := ∀ v ∈ valuesOf T t, v.Valid T

/-- The table has only got more entries, and in every later one the result has the property. -/
def TypeTable.Enters {α : Type} (t : TypeTable) (x : α × TypeTable) (Q : List TypeDef → α → Prop) :
    Prop :=
  t.entries <+: x.2.entries ∧ ∀ T, x.2.entries <+: T → Q T x.1

lemma entered_of_not_reference {T : List TypeDef} {t : Ty} (h : t.isReference = false) :
    Entered T t := by
  cases t with
  | num k => exact List.forall_mem_singleton.mpr trivial
  | void => exact nofun
  | array _ | str => cases h

namespace TypeTable

lemma intern_enters (t : TypeTable) (d : TypeDef) :
    t.Enters (t.intern d) fun T i => T.idxOf d = i ∧ T[i]? = some d := by
  -- the entry is there, and at the index that is given
  have hmem : d ∈ (t.intern d).2.entries ∧ (t.intern d).2.entries.idxOf d = (t.intern d).1 := by
    rw [intern]
    rcases hi : t.entries.idxOf? d with _ | i
    · have hd : d ∉ t.entries := List.idxOf?_eq_none_iff.mp hi
      simp [List.idxOf_append_of_notMem hd, size]
    · have hd : d ∈ t.entries := by
        by_contra hd
        rw [List.idxOf?_eq_none_iff.mpr hd] at hi
        cases hi
      exact ⟨hd, by rw [List.idxOf_eq_getD_idxOf?, hi]; rfl⟩
  refine ⟨?_, fun T hT => ?_⟩
  · rw [intern]
    split
    · exact List.prefix_rfl
    · exact List.prefix_append _ _
  · obtain ⟨more, rfl⟩ := hT
    have hidx : ((t.intern d).2.entries ++ more).idxOf d = (t.intern d).1 := by
      rw [List.idxOf_append_of_mem hmem.1, hmem.2]
    exact ⟨hidx, hidx ▸ List.getElem?_idxOf (List.mem_append_left _ hmem.1)⟩

lemma array_enters (t : TypeTable) (s : Storage) :
    t.Enters (t.array s) fun T i => T.idxOf (.array s) = i ∧ T[i]? = some (.array s) :=
  t.intern_enters (.array s)

/-- A value type stands for the type in every later table. -/
lemma valType_enters (t : TypeTable) (ty : Ty) :
    t.Enters (t.valType ty) fun T v => v.toList = valuesOf T ty ∧ Entered T ty := by
  have entry (s : Storage) : t.Enters (some (ValType.ref (t.array s).1), (t.array s).2) fun T v =>
      v.toList = [ValType.ref (T.idxOf (TypeDef.array s))] ∧
        ∀ u ∈ [ValType.ref (T.idxOf (TypeDef.array s))], u.Valid T := by
    refine ⟨(t.array_enters s).1, fun T hT => ?_⟩
    obtain ⟨hidx, hget⟩ := (t.array_enters s).2 T hT
    rw [hidx]
    exact ⟨rfl, List.forall_mem_singleton.mpr ⟨s, hget⟩⟩
  cases ty with
  | num k => exact ⟨List.prefix_rfl, fun T _ => ⟨rfl, entered_of_not_reference rfl⟩⟩
  | void => exact ⟨List.prefix_rfl, fun T _ => ⟨rfl, entered_of_not_reference rfl⟩⟩
  | array k => exact entry (.num k)
  | str => exact entry .byte

lemma valTypes_enters (t : TypeTable) (tys : List Ty) :
    t.Enters (t.valTypes tys) fun T vs =>
      vs = tys.flatMap (valuesOf T) ∧ ∀ ty ∈ tys, Entered T ty := by
  induction tys generalizing t with
  | nil => exact ⟨List.prefix_rfl, fun _ _ => ⟨rfl, nofun⟩⟩
  | cons ty tys ih =>
    obtain ⟨h₁, hv⟩ := t.valType_enters ty
    obtain ⟨h₂, hvs⟩ := ih (t.valType ty).2
    refine ⟨h₁.trans h₂, fun T hT => ?_⟩
    obtain ⟨hv, hty⟩ := hv T (h₂.trans hT)
    obtain ⟨hvs, htys⟩ := hvs T hT
    refine ⟨?_, List.forall_mem_cons.mpr ⟨hty, htys⟩⟩
    show (t.valType ty).1.toList ++ ((t.valType ty).2.valTypes tys).1 = _
    rw [hv, hvs, List.flatMap_cons]

lemma func_enters (t : TypeTable) (params : List Ty) (result : Ty) :
    t.Enters (t.func params result) fun T i =>
      T[i]? = some (.func (params.flatMap (valuesOf T)) (valuesOf T result)) ∧
        (∀ ty ∈ params, Entered T ty) ∧ Entered T result := by
  obtain ⟨h₁, hps⟩ := t.valTypes_enters params
  obtain ⟨h₂, hr⟩ := (t.valTypes params).2.valType_enters result
  obtain ⟨h₃, hi⟩ := ((t.valTypes params).2.valType result).2.intern_enters
    (.func (t.valTypes params).1 ((t.valTypes params).2.valType result).1.toList)
  refine ⟨h₁.trans (h₂.trans h₃), fun T hT => ?_⟩
  obtain ⟨hps, hparams⟩ := hps T (h₂.trans (h₃.trans hT))
  obtain ⟨hr, hresult⟩ := hr T (h₃.trans hT)
  refine ⟨?_, hparams, hresult⟩
  show T[(t.func params result).1]? = _
  rw [← hps, ← hr]
  exact (hi T hT).2

end TypeTable

/-! ### Steps of emission -/

/-- The pool has at least the types and segments of another, at the same places. -/
structure Pool.Le (p q : Pool) : Prop where
  types : p.types.entries <+: q.types.entries
  data : p.data <+: q.data

lemma Pool.Le.refl (p : Pool) : p.Le p := ⟨List.prefix_rfl, List.prefix_rfl⟩

/-- If the step succeeds after `k` segments, it has only added types and just these segments, and its
result has the property in every later pool. -/
def Writes {α : Type} (k : Nat) (x : Emit α) (texts : List String) (Q : Pool → α → Prop) : Prop :=
  ∀ p a q, p.data.length = k → x.run p = .ok (a, q) → p.types.entries <+: q.types.entries ∧
    q.data = p.data ++ texts.map (·.toUTF8.toList) ∧ ∀ r, q.Le r → Q r a

variable {k : Nat} {S : Symbols}

namespace Writes

variable {α β : Type} {x : Emit α} {texts more : List String} {Q : Pool → α → Prop}
  {R : Pool → β → Prop}

lemma pure {a : α} (h : ∀ r, Q r a) : Writes k (pure a) [] Q := by
  rintro p _ _ - ⟨⟩
  exact ⟨List.prefix_rfl, by simp, fun r _ => h r⟩

lemma throw {e : EmitError} : Writes k (throw e) texts Q := nofun

lemma bind {f : α → Emit β} (h : Writes k x texts Q)
    (h' : ∀ a, Writes (k + texts.length) (f a) more fun r b => Q r a → R r b) :
    Writes k (x >>= f) (texts ++ more) R := by
  intro p b r hk hrun
  rw [StateT.run_bind] at hrun
  rcases hx : x.run p with e | ⟨a, q⟩
  · rw [hx] at hrun
    cases hrun
  · rw [hx] at hrun
    obtain ⟨htypes, hdata, hQ⟩ := h p a q hk hx
    obtain ⟨htypes', hdata', hR⟩ := h' a q b r (by simp [hdata, hk]) hrun
    have hdata'' : q.data <+: r.data := hdata' ▸ List.prefix_append _ _
    refine ⟨htypes.trans htypes', ?_, fun s hs =>
      hR s hs (hQ s ⟨htypes'.trans hs.types, hdata''.trans hs.data⟩)⟩
    rw [hdata', hdata, List.map_append, List.append_assoc]

/-- A step after which nothing is written. -/
lemma followed {f : α → Emit β} (h : Writes k x texts Q)
    (h' : ∀ a, Writes (k + texts.length) (f a) [] fun r b => Q r a → R r b) :
    Writes k (x >>= f) texts R := by
  have hbind := h.bind h'
  rwa [List.append_nil] at hbind

/-- A last step that only puts the result together. -/
lemma map {g : α → β} (h : Writes k x texts Q) (hg : ∀ r a, Q r a → R r (g a)) :
    Writes k (do return g (← x)) texts R :=
  h.followed fun a => .pure fun r => hg r a

end Writes

/-- A step that only looks up or adds types. -/
lemma writes_types {α : Type} {f : TypeTable → α × TypeTable} {Q : List TypeDef → α → Prop}
    (h : ∀ t : TypeTable, t.Enters (f t) Q) :
    Writes k (do
      let (a, types) := f (← get).types
      modify ({ · with types })
      return a) [] fun r a => Q r.types.entries a := by
  rintro p _ _ - ⟨⟩
  exact ⟨(h p.types).1, by simp, fun r hr => (h p.types).2 _ hr.types⟩

/-- The array type has this index. -/
def ArrayAt (T : List TypeDef) (s : Storage) (i : Nat) : Prop :=
  T.idxOf (.array s) = i ∧ T[i]? = some (.array s)

lemma writes_arrayType (s : Storage) :
    Writes k (arrayType s) [] fun r i => ArrayAt r.types.entries s i :=
  writes_types fun t => t.array_enters s

lemma writes_valType (ty : Ty) : Writes k (valType ty) [] fun r v =>
    v.toList = valuesOf r.types.entries ty ∧ Entered r.types.entries ty :=
  writes_types fun t => t.valType_enters ty

lemma writes_addSegment (s : String) : Writes k (addSegment s.toUTF8.toList) [s] fun r i =>
    i = k ∧ r.data[k]? = some s.toUTF8.toList := by
  rintro p _ _ rfl ⟨⟩
  refine ⟨List.prefix_rfl, rfl, fun r hr => ⟨rfl, ?_⟩⟩
  obtain ⟨more, hmore⟩ := hr.data
  rw [← hmore]
  simp

/-- A look-up that succeeds has found something. -/
lemma writes_found {o : Option Nat} {e : EmitError} :
    Writes k (match o with | some i => return i | none => throw e) [] fun _ i => o = some i := by
  cases o with
  | none => exact .throw
  | some i => exact .pure fun _ => rfl

lemma writes_function (S : Symbols) (name : String) :
    Writes k (S.function name) [] fun _ i => lastIndexOf? name S.functions = some i := writes_found

lemma writes_global (S : Symbols) (name : String) :
    Writes k (S.global name) [] fun _ i => lastIndexOf? name S.globals = some i := writes_found

lemma writes_depthOf (L : Labels) (l : Ir.Label) :
    Writes k (depthOf L l) [] fun _ d => L.idxOf? (some l) = some d := writes_found

lemma getElem?_of_lastIndexOf? {name : String} {names : List String} {i : Nat}
    (h : lastIndexOf? name names = some i) : names[i]? = some name := by
  induction names generalizing i with
  | nil => cases h
  | cons n names ih =>
    rw [lastIndexOf?] at h
    split at h
    · next j hj =>
      cases h
      exact ih hj
    · split at h
      · next hn => cases h; rw [hn]; rfl
      · cases h

/-! ### The instructions of a node -/

/-- The instruction that selects between two values of a type. -/
inductive Selects (T : List TypeDef) (t : Ty) : Instr → Prop
  | plain : t.isReference = false → Selects T t .select
  | typed {v} : valuesOf T t = [v] → Entered T t → Selects T t (.selectTyped v)

/-- The code of the node is that of the operands, in this order, and then the instruction. -/
inductive Applies (S : Symbols) (T : List TypeDef) (L : Labels) : Node → List Node → Instr → Prop
  | nop : Applies S T L .nop [] .nop
  | unreachable : Applies S T L .unreachable [] .unreachable
  | const {v} : Applies S T L (.const v) [] (.const v)
  | localGet {i t} : Applies S T L (.localGet i t) [] (.localGet i)
  | localSet {i v} : Applies S T L (.localSet i v) [v] (.localSet i)
  | globalGet {g t i} : lastIndexOf? g S.globals = some i →
      Applies S T L (.globalGet g t) [] (.globalGet i)
  | globalSet {g v i} : lastIndexOf? g S.globals = some i →
      Applies S T L (.globalSet g v) [v] (.globalSet i)
  | unary {op v} : Applies S T L (.unary op v) [v] (.unary op)
  | binary {op a b} : Applies S T L (.binary op a b) [a, b] (.binary op)
  | select {c a b i} : Selects T a.ty i → Applies S T L (.select c a b) [a, b, c] i
  | br {l d} : L.idxOf? (some l) = some d → Applies S T L (.br l) [] (.br d)
  | brIf {l c d} : L.idxOf? (some l) = some d → Applies S T L (.brIf l c) [c] (.brIf d)
  | call {f args t i} : lastIndexOf? f S.functions = some i →
      Applies S T L (.call f args t) args (.call i)
  | retNone : Applies S T L (.ret none) [] .ret
  | ret {v} : Applies S T L (.ret (some v)) [v] .ret
  | drop {v} : Applies S T L (.drop v) [v] .drop
  | arrayNew {k a b t} : ArrayAt T (.num k) t → Applies S T L (.arrayNew k a b) [a, b] (.arrayNew t)
  | arrayNewFixed {k vs t} : ArrayAt T (.num k) t →
      Applies S T L (.arrayNewFixed k vs) vs (.arrayNewFixed t vs.length)
  | arrayGet {k a i t} : ArrayAt T (.num k) t → Applies S T L (.arrayGet k a i) [a, i] (.arrayGet t)
  | arraySet {k a i v t} : ArrayAt T (.num k) t →
      Applies S T L (.arraySet k a i v) [a, i, v] (.arraySet t)
  | arrayLen {a} : Applies S T L (.arrayLen a) [a] .arrayLen

lemma Applies.texts {T : List TypeDef} {L : Labels} {n : Node} {ops : List Node} {i : Instr}
    (h : Applies S T L n ops i) : n.texts = Node.textsAll ops := by
  cases h <;> simp [Node.texts, Node.textsAll, Node.textsOpt]

mutual

/-- Inside constructs with these labels, and with `k` segments before its own, the node has this
code in a module with the pool. -/
inductive Emits (S : Symbols) (r : Pool) : Nat → Labels → Node → List Instr → Prop
  | applies {k L n ops is i} : Applies S r.types.entries L n ops i → EmitsAll S r k L ops is →
      Emits S r k L n (is ++ [i])
  | string {k L s t} : ArrayAt r.types.entries .byte t → r.data[k]? = some s.toUTF8.toList →
      Emits S r k L (.string s)
        [.const (.i32 0), .const (.i32 s.toUTF8.toList.length), .arrayNewData t k]
  | block {k L l body t v is} : v.toList = valuesOf r.types.entries t →
      Entered r.types.entries t → EmitsAll S r k (l :: L) body is →
      Emits S r k L (.block l body t) [.block v is]
  | loop {k L l body is} : Emits S r k (some l :: L) body is →
      Emits S r k L (.loop l body) [.loop is]
  | ifThen {k L c a is js} : Emits S r k L c is → Emits S r (k + c.texts.length) (none :: L) a js →
      Emits S r k L (.ifElse c a none) (is ++ [.ifThen js])
  | ifElse {k L c a b is js ks} : Emits S r k L c is →
      Emits S r (k + c.texts.length) (none :: L) a js →
      Emits S r (k + c.texts.length + a.texts.length) (none :: L) b ks →
      Emits S r k L (.ifElse c a (some b)) (is ++ [.ifElse js ks])

inductive EmitsAll (S : Symbols) (r : Pool) : Nat → Labels → List Node → List Instr → Prop
  | nil {k L} : EmitsAll S r k L [] []
  | cons {k L n ns is js} : Emits S r k L n is → EmitsAll S r (k + n.texts.length) L ns js →
      EmitsAll S r k L (n :: ns) (is ++ js)

end

lemma EmitsAll.single {r : Pool} {L : Labels} {n : Node} {is : List Instr}
    (h : Emits S r k L n is) : EmitsAll S r k L [n] is := by
  rw [← List.append_nil is]
  exact .cons h .nil

/-- Whatever is emitted with the instruction of a selection. -/
lemma writes_selection {α : Type} (ty : Ty) {f : Instr → Emit α} {Q : Pool → α → Prop}
    (hf : ∀ i, Writes k (f i) [] fun r a => Selects r.types.entries ty i → Q r a) :
    Writes k (if ty.isReference then do
        match ← valType ty with
        | some t => f (.selectTyped t)
        | none => f .select
      else f .select) [] Q := by
  rcases hty : ty.isReference with _ | _
  · intro p a q hk hrun
    obtain ⟨htypes, hdata, hQ⟩ := hf .select p a q hk hrun
    exact ⟨htypes, hdata, fun r hr => hQ r hr (.plain hty)⟩
  · refine (writes_valType ty).bind fun v p a q hk hrun => ?_
    rcases v with _ | t
    · -- a reference has a value
      obtain ⟨htypes, hdata, -⟩ := hf .select p a q hk hrun
      refine ⟨htypes, hdata, fun r _ hv => ?_⟩
      cases ty with
      | num _ | void => cases hty
      | array _ | str => cases hv.1
    · obtain ⟨htypes, hdata, hQ⟩ := hf (.selectTyped t) p a q hk hrun
      exact ⟨htypes, hdata, fun r hr hv => hQ r hr (.typed hv.1.symm hv.2)⟩

mutual

/-- **Nodes**: emission gives the code of the node. -/
lemma emit_writes (S : Symbols) : (n : Node) → ∀ L k,
    Writes k (emit S L n) n.texts fun r is => Emits S r k L n is
  | .nop, _, _ => by
    rw [emit]
    exact .pure fun _ => .applies .nop .nil
  | .unreachable, _, _ => by
    rw [emit]
    exact .pure fun _ => .applies .unreachable .nil
  | .const _, _, _ => by
    rw [emit]
    exact .pure fun _ => .applies .const .nil
  | .localGet _ _, _, _ => by
    rw [emit]
    exact .pure fun _ => .applies .localGet .nil
  | .ret none, _, _ => by
    rw [emit]
    exact .pure fun _ => .applies .retNone .nil
  | .string s, L, k => by
    rw [emit, emitString]
    refine (writes_arrayType .byte).bind fun t => (writes_addSegment s).map ?_
    rintro r _ ⟨rfl, hdata⟩ ht
    exact .string ht hdata
  | .globalGet g _, _, _ => by
    rw [emit]
    exact (writes_global S g).map fun _ _ hi => .applies (.globalGet hi) .nil
  | .br l, L, _ => by
    rw [emit]
    exact (writes_depthOf L l).map fun _ _ hd => .applies (.br hd) .nil
  | .localSet _ v, L, k => by
    rw [emit]
    exact (emit_writes S v L k).map fun _ _ hv => .applies .localSet (.single hv)
  | .unary _ v, L, k => by
    rw [emit]
    exact (emit_writes S v L k).map fun _ _ hv => .applies .unary (.single hv)
  | .drop v, L, k => by
    rw [emit]
    exact (emit_writes S v L k).map fun _ _ hv => .applies .drop (.single hv)
  | .arrayLen v, L, k => by
    rw [emit]
    exact (emit_writes S v L k).map fun _ _ hv => .applies .arrayLen (.single hv)
  | .ret (some v), L, k => by
    rw [emit]
    exact (emit_writes S v L k).map fun _ _ hv => .applies .ret (.single hv)
  | .globalSet g v, L, k => by
    rw [emit]
    exact (emit_writes S v L k).followed fun _ => (writes_global S g).map fun _ _ hi hv =>
      .applies (.globalSet hi) (.single hv)
  | .brIf l c, L, k => by
    rw [emit]
    exact (writes_depthOf L l).bind fun _ => (emit_writes S c L k).map fun _ _ hc hd =>
      .applies (.brIf hd) (.single hc)
  | .binary _ a b, L, k => by
    rw [emit]
    exact (emit_writes S a L k).bind fun _ => (emit_writes S b L _).map fun _ _ hb ha =>
      .applies .binary (.cons ha (.single hb))
  | .arrayNew s a b, L, k => by
    rw [emit]
    exact (emit_writes S a L k).bind fun _ => (emit_writes S b L _).followed fun _ =>
      (writes_arrayType (.num s)).map fun _ _ ht hb ha =>
        .applies (.arrayNew ht) (.cons ha (.single hb))
  | .arrayGet s a b, L, k => by
    rw [emit]
    exact (emit_writes S a L k).bind fun _ => (emit_writes S b L _).followed fun _ =>
      (writes_arrayType (.num s)).map fun _ _ ht hb ha =>
        .applies (.arrayGet ht) (.cons ha (.single hb))
  | .arraySet s a b c, L, k => by
    rw [emit, Node.texts, List.append_assoc]
    refine (emit_writes S a L k).bind fun as => (emit_writes S b L _).bind fun bs =>
      (emit_writes S c L _).followed fun cs => (writes_arrayType (.num s)).map
        fun _ _ ht hc hb ha => ?_
    rw [List.append_assoc as]
    exact .applies (.arraySet ht) (.cons ha (.cons hb (.single hc)))
  | .select c a b, L, k => by
    rw [emit, Node.texts, List.append_assoc]
    refine (emit_writes S a L k).bind fun as => (emit_writes S b L _).bind fun bs =>
      (emit_writes S c L _).followed fun cs => ?_
    simp only [pure_bind]
    refine writes_selection a.ty (f := fun i => pure (as ++ bs ++ cs ++ [i])) fun i =>
      .pure fun _ hi hc hb ha => ?_
    rw [List.append_assoc as]
    exact .applies (.select hi) (.cons ha (.cons hb (.single hc)))
  | .call f args _, L, k => by
    rw [emit]
    exact (emitAll_writes S args L k).followed fun _ => (writes_function S f).map
      fun _ _ hi hargs => .applies (.call hi) hargs
  | .arrayNewFixed s values, L, k => by
    rw [emit]
    exact (emitAll_writes S values L k).followed fun _ => (writes_arrayType (.num s)).map
      fun _ _ ht hvalues => .applies (.arrayNewFixed ht) hvalues
  | .block l body ty, L, k => by
    rw [emit]
    exact (writes_valType ty).bind fun _ => (emitAll_writes S body (l :: L) k).map
      fun _ _ hbody hv => .block hv.1 hv.2 hbody
  | .loop l v, L, k => by
    rw [emit]
    exact (emit_writes S v (some l :: L) k).map fun _ _ hv => .loop hv
  | .ifElse c a none, L, k => by
    rw [emit, Node.texts, Node.textsOpt, List.append_nil]
    exact (emit_writes S c L k).bind fun _ => (emit_writes S a (none :: L) _).map
      fun _ _ ha hc => .ifThen hc ha
  | .ifElse c a (some b), L, k => by
    rw [emit, Node.texts, Node.textsOpt, List.append_assoc]
    exact (emit_writes S c L k).bind fun _ => (emit_writes S a (none :: L) _).bind fun _ =>
      (emit_writes S b (none :: L) _).map fun _ _ hb ha hc => .ifElse hc ha hb

lemma emitAll_writes (S : Symbols) : (ns : List Node) → ∀ L k,
    Writes k (emitAll S L ns) (Node.textsAll ns) fun r is => EmitsAll S r k L ns is
  | [], _, _ => by
    rw [emitAll]
    exact .pure fun _ => .nil
  | n :: ns, L, k => by
    rw [emitAll]
    exact (emit_writes S n L k).bind fun _ => (emitAll_writes S ns L _).map
      fun _ _ hns hn => .cons hn hns

end

/-! ### Functions -/

/-- Every local has values of its type, in the order of the locals. -/
def LocalTypes (T : List TypeDef) (tys : List Ty) (vs : List ValType) : Prop :=
  vs = tys.flatMap (valuesOf T) ∧ ∀ t ∈ tys, t ≠ .void ∧ Entered T t

lemma writes_localTypes (name : String) : ∀ tys : List Ty,
    Writes k (localTypes name tys) [] fun r vs => LocalTypes r.types.entries tys vs
  | [] => by
    rw [localTypes]
    exact .pure fun _ => ⟨rfl, List.forall_mem_nil _⟩
  | t :: ts => by
    rw [localTypes]
    refine (writes_valType t).bind fun v => ?_
    rcases v with _ | v
    · exact .throw
    · refine (writes_localTypes name ts).map fun r vs hvs hv => ?_
      have hne : t ≠ .void := by
        rintro rfl
        cases hv.1
      refine ⟨?_, List.forall_mem_cons.mpr ⟨⟨hne, hv.2⟩, hvs.2⟩⟩
      rw [List.flatMap_cons, ← hv.1, ← hvs.1]
      rfl

/-- The function has this code, whose end is not reached if there is a result. -/
structure FunctionEmits (S : Symbols) (r : Pool) (k : Nat) (f : Ir.Function) (code : Code) :
    Prop where
  locals : LocalTypes r.types.entries f.locals (expand code.locals)
  body : ∃ is, EmitsAll S r k [] f.body is ∧
    code.body = if f.result.isVoid then is else is ++ [.unreachable]

inductive FunctionsEmit (S : Symbols) (r : Pool) : Nat → List Ir.Function → List Code → Prop
  | nil {j} : FunctionsEmit S r j [] []
  | cons {k f code fs codes} : FunctionEmits S r k f code →
      FunctionsEmit S r (k + (Node.textsAll f.body).length) fs codes →
      FunctionsEmit S r k (f :: fs) (code :: codes)

lemma FunctionsEmit.forall₂ {r : Pool} {fs : List Ir.Function} {codes : List Code}
    (h : FunctionsEmit S r k fs codes) :
    List.Forall₂ (fun f code => f ∈ fs ∧ ∃ k, FunctionEmits S r k f code) fs codes := by
  have hall : List.Forall₂ (fun f code => ∃ k, FunctionEmits S r k f code) fs codes := by
    induction h with
    | nil => exact .nil
    | cons hf _ ih => exact .cons ⟨_, hf⟩ ih
  exact (List.forall₂_and_left fs codes).mpr ⟨fun _ hf => hf, hall⟩

lemma writes_emitFunction (S : Symbols) (f : Ir.Function) :
    Writes k (emitFunction S f) (Node.textsAll f.body) fun r code => FunctionEmits S r k f code := by
  rw [emitFunction]
  refine (writes_localTypes f.name f.locals).bind fun vs => ?_
  exact (emitAll_writes S f.body [] k).map fun r is his hvs =>
    ⟨by rwa [expand_runs], is, his, rfl⟩

lemma writes_emitFunctions (S : Symbols) : ∀ (fs : List Ir.Function) (k : Nat),
    Writes k (emitFunctions S fs) (fs.flatMap fun f => Node.textsAll f.body) fun r codes =>
      FunctionsEmit S r k fs codes
  | [], k => by
    rw [emitFunctions]
    exact .pure fun _ => .nil
  | f :: fs, k => by
    rw [emitFunctions, List.flatMap_cons]
    exact (writes_emitFunction S f).bind fun _ => (writes_emitFunctions S fs _).map
      fun _ _ hcodes hcode => .cons hcode hcodes

/-- The index denotes the type of the function. -/
def FunctionType (T : List TypeDef) (f : Ir.Function) (i : Nat) : Prop :=
  T[i]? = some (.func (f.params.flatMap (valuesOf T)) (valuesOf T f.result)) ∧
    (∀ t ∈ f.params, Entered T t) ∧ Entered T f.result

lemma writes_functionTypes : ∀ fs : List Ir.Function,
    Writes k (functionTypes fs) [] fun r is => List.Forall₂ (FunctionType r.types.entries) fs is
  | [] => by
    rw [functionTypes]
    exact .pure fun _ => .nil
  | f :: fs => by
    rw [functionTypes]
    exact (writes_types fun t => t.func_enters f.params f.result).bind fun _ =>
      (writes_functionTypes fs).map fun _ _ his hi => .cons hi his

/-! ### Modules -/

/-- What a file tells about a module: the types of its functions, its globals, what is exported,
the locals and instructions of its functions, its string constants and all names. -/
structure Represents (m : Ir.Module) (w : Module) : Prop where
  functions : List.Forall₂ (FunctionType w.types) m.functions w.functions
  globals : w.globals = m.globals.map fun g => ⟨g.kind, g.isMutable, g.init⟩
  exports : w.exports = m.functions.zipIdx.map (fun (f, i) => ⟨f.name, .func, i⟩) ++
    m.globals.zipIdx.map fun (g, i) => ⟨g.name, .global, i⟩
  locals : List.Forall₂ (fun f code => LocalTypes w.types f.locals (expand code.locals))
    m.functions w.codes
  emission : ∃ p, (functionTypes m.functions).run {} = .ok (w.functions, p) ∧
    (emitFunctions (Symbols.ofModule m) m.functions).run p = .ok (w.codes, ⟨⟨w.types⟩, w.data⟩)
  data : w.data = m.texts.map (·.toUTF8.toList)
  names : w.names = {
    functions := m.functions.zipIdx.map fun (f, i) => (i, f.name)
    locals := m.functions.zipIdx.map fun (f, i) => (i, f.localNames)
    globals := m.globals.zipIdx.map fun (g, i) => (i, g.name) }

lemma represents_of_ofIr {m : Ir.Module} {w : Module} (h : Module.ofIr m = .ok w) :
    Represents m w := by
  simp only [Module.ofIr, StateT.run_bind] at h
  rcases hfun : (functionTypes m.functions).run {} with e | ⟨is, p⟩
  · rw [hfun] at h
    cases h
  rw [hfun] at h
  simp only [bind, Except.bind] at h
  rcases hcode : (emitFunctions (Symbols.ofModule m) m.functions).run p with e | ⟨codes, r⟩
  · rw [hcode] at h
    cases h
  rw [hcode] at h
  cases h
  obtain ⟨-, hdata, hfunctions⟩ := writes_functionTypes m.functions {} is p rfl hfun
  obtain ⟨htypes, hdata', hcodes⟩ :=
    writes_emitFunctions (Symbols.ofModule m) m.functions _ p codes r rfl hcode
  have hle : p.Le r := ⟨htypes, hdata' ▸ List.prefix_append _ _⟩
  refine ⟨hfunctions r hle, rfl, ?_, ?_, ⟨p, hfun, hcode⟩, ?_, ?_⟩
  · simp [exportsOf, indexed, Function.comp_def]
  · exact (hcodes r (.refl r)).forall₂.imp fun f code ⟨_, _, h⟩ => h.locals
  · rw [hdata', hdata]
    rfl
  · simp [namesOf, indexed, Function.comp_def]

/-- The tables of a finished module. -/
def Module.pool (w : Module) : Pool := ⟨⟨w.types⟩, w.data⟩

lemma Represents.emits {m : Ir.Module} {w : Module} (h : Represents m w) :
    FunctionsEmit (Symbols.ofModule m) w.pool 0 m.functions w.codes := by
  obtain ⟨p, hfun, hcode⟩ := h.emission
  obtain ⟨-, hdata, -⟩ := writes_functionTypes m.functions {} _ p rfl hfun
  have hempty : p.data.length = 0 := by
    rw [hdata]
    rfl
  exact (writes_emitFunctions _ m.functions 0 p _ _ hempty hcode).2.2 w.pool (.refl _)

end Wasm

end AnnotatedWasm
