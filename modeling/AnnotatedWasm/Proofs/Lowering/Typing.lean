import AnnotatedWasm.Proofs.Ir.Typing
import AnnotatedWasm.Proofs.Lowering.StmtForms

/-!
Lowering gives well-typed code.

The slots and globals that a function knows by name agree with the tables they stand for
(`Body.Sound`). Every step keeps this and only ever adds to the tables, so a node that is well
typed when it is made stays well typed in the finished function.
-/

namespace AnnotatedWasm.Lowering

open Ir (Node Scope)
open Syntax (Expr Stmt Branch)

/-- What the nodes of the function at hand may refer to so far. -/
def Body.scope (env : Env) (b : Body) : Scope where
  slots := b.frame.slotTypes
  globals := b.session.module.globals
  signature? := env.signatures.get?
  result := b.frame.returns

/-- Names stand for slots and globals of the types on record. -/
structure Body.Sound (env : Env) (b : Body) : Prop where
  slots : ∀ name s, b.frame.slot? name = some s → (b.scope env).slots[s.index]? = some s.ty
  globals : ∀ name t, b.frame.global? name = some t → (b.scope env).globalTy? name = some t
  declared : ∀ name t, (b.scope env).globalTy? name = some t →
    ∃ d, b.session.declared.lookup name = some d ∧ t = .num d.kind

variable {env : Env} {b b' : Body} {Γ : Scope} {n v : Node} {ns : List Node}

lemma Body.Extends.scope_le (h : b.Extends b') : (b.scope env).Le (b'.scope env) where
  slots := h.slotTypes
  globals := h.globals
  signature? := rfl
  result := h.returns

lemma Body.Grows.scope_le (h : b.Grows b') : (b.scope env).Le (b'.scope env) :=
  (Body.Extends.of_grows h).scope_le

lemma Body.Grows.sound (h : b.Grows b') (hb : b.Sound env) : b'.Sound env where
  slots name s hs := h.scope_le.slot (hb.slots name s (by rwa [← h.slot?]))
  globals name t ht := h.scope_le.globalTy (hb.globals name t (by rwa [← h.global?]))
  declared name t ht := by
    rw [h.declared]
    refine hb.declared name t ?_
    simpa only [Scope.globalTy?, Body.scope, h.module] using ht

/-! ### Conversions and operators -/

lemma typed_convert {s k : NumKind} (hv : v.Typed Γ) (hs : v.ty = .num s) :
    (convert v k).Typed Γ := by
  rcases hc : Ir.UnaryOp.conversion? s k with _ | op
  · rw [(Ir.UnaryOp.conversion?_eq_none_iff s k).mp hc] at hs
    rwa [convert_self hs]
  · rw [convert_unary hs hc, Node.typed_unary]
    exact ⟨by rw [hs, (Ir.UnaryOp.conversion?_kinds hc).1], hv⟩

lemma Adapts.typed {t : Ty} (h : Adapts v t n) (hv : v.Typed Γ) : n.Typed Γ := by
  cases h with
  | same _ => exact hv
  | number hs => exact typed_convert hv hs

lemma ty_zero (k : NumKind) : (zero k).ty = .num k := by simp [zero, Node.ty]

lemma typed_zero (k : NumKind) : (zero k).Typed Γ := Node.typed_const

/-- A truth value is an `i32`. -/
lemma typed_truth {span : Span} (h : Returns (truth v span) b n b')
    (hv : v.Typed Γ) : n.Typed Γ ∧ n.ty = .i32 := by
  obtain ⟨-, k, hk, ⟨rfl, rfl⟩ | ⟨-, rfl⟩⟩ := returns_truth h
  · exact ⟨hv, hk⟩
  · simp [hk, ty_zero, hv, typed_zero, Ir.BinaryOp.operandKind, Ir.BinaryOp.resultKind, Node.ty]

lemma typed_signs {op : Syntax.UnaryOp} {k : NumKind} (h : Signs op k v n)
    (hv : v.Typed Γ) (hk : v.ty = .num k) : n.Typed Γ := by
  cases h
  case pos => exact hv
  case negFloat => simpa [hk, Ir.UnaryOp.operandKind] using hv
  case negInt => simpa [hk, Ir.BinaryOp.operandKind, Node.ty] using hv
  case not => simpa [hk, Ir.BinaryOp.operandKind, ty_zero, typed_zero] using hv

/-- New slots stand right after the old ones. -/
lemma slot_grow (temps : List Ty) (labels : Nat) (events : List Event) (i : Nat) :
    ((b.grow temps labels events).scope env).slots[b.frame.nextIndex + i]? = temps[i]? := by
  have hlen : (b.frame.params ++ b.frame.extra).length = b.frame.nextIndex := by
    simp [Frame.nextIndex]
  simp only [Body.scope, Body.grow, Frame.slotTypes, ← List.append_assoc]
  rw [← hlen, List.getElem?_append_right (Nat.le_add_right _ _), Nat.add_sub_cancel_left]

lemma typed_slotGet {s : Slot} : (slotGet s).Typed Γ ↔ Γ.slots[s.index]? = some s.ty :=
  Node.typed_localGet

@[simp] lemma ty_slotGet (s : Slot) : (slotGet s).ty = s.ty := rfl

lemma typed_floorQuotient {w : Width} {x y r : Nat} {l m : Node}
    (hx : Γ.slots[x]? = some (.num (.int w))) (hy : Γ.slots[y]? = some (.num (.int w)))
    (hr : Γ.slots[r]? = some (.num (.int w))) (hl : l.Typed Γ) (hm : m.Typed Γ)
    (hlt : l.ty = .num (.int w)) (hmt : m.ty = .num (.int w)) :
    (floorQuotient w ⟨x, .num (.int w)⟩ ⟨y, .num (.int w)⟩ ⟨r, .num (.int w)⟩ l m).Typed Γ := by
  unfold floorQuotient
  set k : NumKind := .int w
  set differ : Node := .binary (.arith .mul .i32)
    (.binary (.compare .ne k) (slotGet ⟨r, .num k⟩) (zero k))
    (.binary (.compare .ne .i32) (.binary (.compare .lt k) (slotGet ⟨r, .num k⟩) (zero k))
      (.binary (.compare .lt k) (slotGet ⟨y, .num k⟩) (zero k))) with hd
  have hdt : differ.ty = .num .i32 := rfl
  have hdiffer : differ.Typed Γ := by
    simp [hd, typed_slotGet, hr, hy, ty_zero, typed_zero, Ir.BinaryOp.operandKind,
      Ir.BinaryOp.resultKind, Node.ty]
  have hc := typed_convert (k := k) hdiffer hdt
  have hct := ty_convert (k := k) hdt
  simp [typed_slotGet, Node.Ends, hx, hy, hr, hl, hm, hlt, hmt,
    Ir.BinaryOp.operandKind, Ir.BinaryOp.resultKind, Node.ty]
  exact ⟨rfl, hct, hc⟩

lemma typed_combines {op : Syntax.BinOp} {k : NumKind} {l r : Node}
    (h : Combines env op k l r b n b') (hl : l.Typed (b.scope env)) (hr : r.Typed (b.scope env))
    (hlt : l.ty = .num k) (hrt : r.ty = .num k) : n.Typed (b'.scope env) := by
  cases h
  case div =>
    simp [typed_convert hl hlt, typed_convert hr hrt, ty_convert hlt, ty_convert hrt,
      Ir.BinaryOp.operandKind]
  case floored w _ =>
    have hle : (b.scope env).Le ((b.grow [.num (.int w), .num (.int w), .num (.int w)] 0 []).scope
      env) := Body.Grows.scope_le ⟨_, _, _, rfl⟩
    exact typed_floorQuotient (slot_grow _ _ _ 0) (slot_grow _ _ _ 1) (slot_grow _ _ _ 2)
      (hl.mono hle) (hr.mono hle) hlt hrt
  all_goals
    simp [hl, hr, hlt, hrt, Ir.BinaryOp.operandKind, Ir.BinaryOp.resultKind,
      Ir.UnaryOp.operandKind, Node.ty]

/-! ### Ranges -/

/-- The scratch slots of a range are slots of the scope. -/
structure RangeSlots.Typed (s : RangeSlots) (k : NumKind) (Γ : Scope) : Prop where
  first : Γ.slots[s.first.index]? = some .i32 ∧ s.first.ty = .i32
  stride : Γ.slots[s.stride.index]? = some .i32 ∧ s.stride.ty = .i32
  length : Γ.slots[s.length.index]? = some .i32 ∧ s.length.ty = .i32
  array : Γ.slots[s.array.index]? = some (.array k) ∧ s.array.ty = .array k
  count : Γ.slots[s.count.index]? = some .i32 ∧ s.count.ty = .i32
  next : Γ.slots[s.next.index]? = some .i32 ∧ s.next.ty = .i32

lemma rangeSlots_typed (k : NumKind) (labels : Nat) (events : List Event) :
    (RangeSlots.from b.frame.nextIndex k).Typed k
      ((b.grow [.i32, .i32, .i32, .array k, .i32, .i32] labels events).scope env) where
  first := ⟨slot_grow _ _ _ 0, rfl⟩
  stride := ⟨slot_grow _ _ _ 1, rfl⟩
  length := ⟨slot_grow _ _ _ 2, rfl⟩
  array := ⟨slot_grow _ _ _ 3, rfl⟩
  count := ⟨slot_grow _ _ _ 4, rfl⟩
  next := ⟨slot_grow _ _ _ 5, rfl⟩

@[simp] lemma ty_i32 (v : Int) : (Node.i32 v).ty = .i32 := rfl

@[simp] lemma typed_i32 (v : Int) : (Node.i32 v).Typed Γ := Node.typed_const

/-- The bounds of a range are lowered bounds or constants. -/
lemma RangeBounds.mem {bounds : List Node} {start stop step : Node}
    (h : RangeBounds bounds start stop step) (hv : v ∈ [start, stop, step]) :
    v ∈ bounds ∨ ∃ i, v = .i32 i := by
  cases h <;> simp at hv <;> rcases hv with rfl | rfl | rfl <;> simp

variable {s : RangeSlots} {k : NumKind}

lemma typed_rangeLength (hs : s.Typed k Γ) {stop : Node} (h : stop.Typed Γ)
    (ht : stop.ty = .i32) : (rangeLength s stop).Typed Γ := by
  have hf : (slotGet s.first).Typed Γ := by rw [typed_slotGet, hs.first.2]; exact hs.first.1
  have hd : (slotGet s.stride).Typed Γ := by rw [typed_slotGet, hs.stride.2]; exact hs.stride.1
  have hft : (slotGet s.first).ty = .i32 := hs.first.2
  have hdt : (slotGet s.stride).ty = .i32 := hs.stride.2
  simp [rangeLength, typed_convert h ht, typed_convert hf hft, typed_convert hd hdt,
    ty_convert ht, ty_convert hft, ty_convert hdt, Ir.BinaryOp.operandKind,
    Ir.BinaryOp.resultKind, Ir.UnaryOp.operandKind, Ir.UnaryOp.resultKind, Node.ty]

lemma typed_rangeLoop (hs : s.Typed k Γ) (label : Ir.Label) : (rangeLoop s label k).Typed Γ := by
  have hn : (slotGet s.next).Typed Γ := by rw [typed_slotGet, hs.next.2]; exact hs.next.1
  have hnt : (slotGet s.next).ty = .i32 := hs.next.2
  simp [rangeLoop, typed_slotGet, hs.array, hs.count, hs.next, hs.stride, hs.length,
    typed_convert hn hnt, ty_convert hnt, Node.Ends,
    Ir.BinaryOp.operandKind, Ir.BinaryOp.resultKind, Node.ty]

lemma typed_rangeBlock (hs : s.Typed k Γ) (label : Ir.Label) {start stop step : Node}
    (h : ∀ v ∈ [start, stop, step], v.Typed Γ ∧ v.ty = .i32) :
    (rangeBlock s label k start stop step).Typed Γ := by
  simp only [Node.forall_mem_triple] at h
  obtain ⟨⟨h1, t1⟩, ⟨h2, t2⟩, ⟨h3, t3⟩⟩ := h
  have hlen := typed_rangeLength hs h2 t2
  have hlent : (rangeLength s stop).ty = .i32 := rfl
  have hloop := typed_rangeLoop hs label
  have hloopt : (rangeLoop s label k).ty = .void := rfl
  simp [rangeBlock, typed_slotGet, hs.first, hs.stride, hs.length, hs.array, hs.count, hs.next,
    h1, t1, h3, t3, hlen, hlent, hloop, hloopt, Node.Ends, ty_zero, typed_zero,
    Ir.BinaryOp.operandKind, Ir.BinaryOp.resultKind, Node.ty]

/-! ### Expressions -/

/-- Arguments have the types of their parameters. -/
lemma LowersArgs.types {tys : List Ty} {args : List Expr} {b b' : Body}
    (h : LowersArgs env tys args b ns b') : ns.map Node.ty = tys := by
  induction args generalizing tys b ns with
  | nil => cases h; rfl
  | cons _ _ ih =>
    cases h with
    | cons _ hc hs => rw [List.map_cons, ty_of_coerce hc, ih hs]

lemma LowersEach.types {ty : Ty} {es : List Expr} {b b' : Body}
    (h : LowersEach env ty es b ns b') : ∀ n ∈ ns, n.ty = ty := by
  induction es generalizing b ns with
  | nil => cases h; simp
  | cons _ _ ih =>
    cases h with
    | cons _ hc hs => exact List.forall_mem_cons.mpr ⟨ty_of_coerce hc, ih hs⟩

mutual

/-- A lowered expression is well typed. -/
lemma LowersExpr.typed {hint : Option Ty} {e : Expr} {b b' : Body} {n : Node} :
    LowersExpr env hint e b n b' → b.Sound env → n.Typed (b'.scope env)
  | .slot hs, hb => typed_slotGet.mpr (hb.slots _ _ hs)
  | .global _ hg, hb => Node.typed_globalGet.mpr (hb.globals _ _ hg)
  | .number _, _ => Node.typed_const
  | .bool, _ => Node.typed_const
  | .string _, _ => Node.typed_string
  | .unary he hn, hb => by
    obtain ⟨rfl, k, hk, hs⟩ := returns_unary hn
    exact typed_signs hs (he.typed hb) hk
  | .binary hl hr hn, hb => by
    obtain ⟨i, j, b₃, hi, hj, hg, hc⟩ := returns_binary hn
    have h1 := ((hl.typed hb).mono hr.grows.scope_le).mono hg.grows.scope_le
    have h2 := (hr.typed (hl.grows.sound hb)).mono hg.grows.scope_le
    exact typed_combines hc (typed_convert h1 hi) (typed_convert h2 hj) (ty_convert hi)
      (ty_convert hj)
  | .compare _ hl hr hu, hb => by
    obtain ⟨hg, i, j, hi, hj, rfl, rfl, rfl⟩ := returns_unifyOperands hu
    have h1 := ((hl.typed hb).mono hr.grows.scope_le).mono hg.grows.scope_le
    have h2 := (hr.typed (hl.grows.sound hb)).mono hg.grows.scope_le
    simp [typed_convert h1 hi, typed_convert h2 hj, ty_convert hi, ty_convert hj,
      Ir.BinaryOp.operandKind]
  | .ifElse ht hc hx hy hn, hb => by
    obtain ⟨rfl, -⟩ := returns_truth hc
    obtain ⟨hg, hn⟩ := returns_choose hn
    have hb₁ := ht.grows.sound hb
    obtain ⟨h0, ht0⟩ := typed_truth hc (ht.typed hb)
    have h1 := ((h0.mono hx.grows.scope_le).mono hy.grows.scope_le).mono hg.grows.scope_le
    have h2 := ((hx.typed hb₁).mono hy.grows.scope_le).mono hg.grows.scope_le
    have h3 := (hy.typed (hx.grows.sound hb₁)).mono hg.grows.scope_le
    rcases hn with ⟨hxy, hv, rfl⟩ | ⟨i, j, hi, hj, rfl⟩
    · exact Node.typed_select.mpr ⟨⟨ht0, hxy, hv⟩, h1, h2, h3⟩
    · refine Node.typed_select.mpr ⟨⟨ht0, ?_, ?_⟩, h1, typed_convert h2 hi, typed_convert h3 hj⟩
      · rw [ty_convert hi, ty_convert hj]
      · rw [ty_convert hi]; simp
  | .call hsig _ hs, hb => by
    rw [Node.typed_call, hs.types]
    exact ⟨hsig, hs.typed hb⟩
  | .range _ _ hs hn, hb => by
    obtain ⟨start, stop, step, hbd, rfl, rfl⟩ := returns_rangeOf hn
    refine typed_rangeBlock (rangeSlots_typed _ _ _) _ fun v hv => ?_
    rcases hbd.mem hv with hv | ⟨i, rfl⟩
    · exact ⟨(hs.typed hb v hv).mono (Body.Grows.scope_le ⟨_, _, _, rfl⟩), hs.types v hv⟩
    · exact ⟨typed_i32 i, ty_i32 i⟩
  | .len _ _ ha hk, hb => Node.typed_arrayLen.mpr ⟨⟨_, hk⟩, ha.typed hb⟩
  | .subscript _ ha hk hi hc, hb => by
    have hg := (returns_coerce hc).1.grows
    have h1 := ((ha.typed hb).mono hi.grows.scope_le).mono hg.scope_le
    have h2 := (hi.typed (ha.grows.sound hb)).mono hg.scope_le
    exact Node.typed_arrayGet.mpr ⟨⟨hk, ty_of_coerce hc⟩, h1, (returns_coerce hc).2.typed h2⟩
  | .list _ hs, hb => Node.typed_arrayNewFixed.mpr ⟨hs.types, hs.typed hb⟩

lemma LowersArgs.typed {tys : List Ty} {args : List Expr} {b b' : Body} {ns : List Node} :
    LowersArgs env tys args b ns b' → b.Sound env → ∀ n ∈ ns, n.Typed (b'.scope env)
  | .nil, _ => by simp
  | .cons hv hc hs, hb => by
    have hg := (returns_coerce hc).1.grows
    have h1 := ((returns_coerce hc).2.typed ((hv.typed hb).mono hg.scope_le)).mono hs.grows.scope_le
    exact List.forall_mem_cons.mpr ⟨h1, hs.typed (hg.sound (hv.grows.sound hb))⟩

lemma LowersEach.typed {ty : Ty} {es : List Expr} {b b' : Body} {ns : List Node} :
    LowersEach env ty es b ns b' → b.Sound env → ∀ n ∈ ns, n.Typed (b'.scope env)
  | .nil, _ => by simp
  | .cons hv hc hs, hb => by
    have hg := (returns_coerce hc).1.grows
    have h1 := ((returns_coerce hc).2.typed ((hv.typed hb).mono hg.scope_le)).mono hs.grows.scope_le
    exact List.forall_mem_cons.mpr ⟨h1, hs.typed (hg.sound (hv.grows.sound hb))⟩

end

lemma typed_condition {test : Expr} {c : Node} (h : Returns (lowerCondition env test) b c b')
    (hb : b.Sound env) : c.Typed (b'.scope env) ∧ c.ty = .i32 := by
  obtain ⟨v, hv, ht⟩ := returns_lowerCondition h
  exact typed_truth ht (hv.typed hb)

/-! ### Statements -/

lemma slot_declare (name : String) (ty : Ty) :
    ((b.declare name ty).scope env).slots[b.frame.nextIndex]? = some ty :=
  slot_grow [ty] 0 [] 0

/-- A new name stands for its slot. -/
lemma Body.Sound.declare (hb : b.Sound env) (name : String) (ty : Ty) :
    (b.declare name ty).Sound env where
  slots id s hs := by
    rw [Frame.slot?, Body.declare, Frame.declare, lookupLast?_snoc] at hs
    split at hs
    · cases hs
      exact slot_declare name ty
    · exact (Body.Extends.declare b name ty).scope_le.slot (hb.slots id s hs)
  globals := hb.globals
  declared := hb.declared

/-- After a promotion the module has the global, and no other is new. -/
lemma globalTy_promote (hb : b.Sound env) {name : String} {d : Declared}
    (hd : b.session.declared.lookup name = some d) (id : String) :
    ((b.promote name d).scope env).globalTy? id =
      if id = name then some (.num d.kind) else (b.scope env).globalTy? id := by
  rcases hg : b.session.module.global? name with _ | g
  · have hfind : b.session.module.globals.find? (·.name = name) = none := hg
    simp only [Body.promote, hg, Option.isNone_none, if_true, Body.grow, Scope.globalTy?,
      Body.scope, List.find?_append]
    by_cases hid : id = name
    · subst hid
      simp [hfind]
    · have hid' : ¬ name = id := fun h => hid h.symm
      simp [hid, hid']
  · simp only [Body.promote, hg, Option.isNone_some, Bool.false_eq_true, if_false]
    split
    · next hid =>
      subst hid
      have hty : (b.scope env).globalTy? id = some (.num g.kind) := by
        simpa [Scope.globalTy?, Body.scope] using ⟨g, hg, rfl⟩
      obtain ⟨d', hd', hk⟩ := hb.declared id _ hty
      rw [hd] at hd'
      cases hd'
      rw [hty, hk]
    · rfl

/-- A name opened as a global stands for the global of its declared kind. -/
lemma Body.Sound.openGlobal (hb : b.Sound env) {name : String} {d : Declared}
    (hd : b.session.declared.lookup name = some d) :
    ((b.promote name d).openGlobal name (.num d.kind)).Sound env where
  slots id s hs := by
    rw [Frame.slot?, Body.openGlobal, Frame.openGlobal, frame_promote] at hs
    exact (Body.Extends.promote b name d).scope_le.slot (hb.slots id s hs)
  globals id t ht := by
    rw [Frame.global?, Body.openGlobal, Frame.openGlobal, lookupLast?_snoc, frame_promote] at ht
    refine (globalTy_promote hb hd id).trans ?_
    by_cases hid : name = id
    · simpa [hid] using ht
    · rw [if_neg hid] at ht
      rw [if_neg (Ne.symm hid)]
      exact hb.globals id t ht
  declared id t ht := by
    have hdecl := (Body.Extends.promote b name d).declared
    have ht' := (globalTy_promote hb hd id).symm.trans ht
    rw [Body.openGlobal, hdecl]
    by_cases hid : id = name
    · rw [if_pos hid] at ht'
      cases ht'
      exact ⟨d, by rw [hid, hd], rfl⟩
    · rw [if_neg hid] at ht'
      exact hb.declared id t ht'

lemma OpensGlobals.sound {names : List String} (h : OpensGlobals names b b')
    (hb : b.Sound env) : b'.Sound env := by
  induction h with
  | nil => exact hb
  | cons _ hd _ ih => exact ih (hb.openGlobal hd)

/-- What a statement gives: a well-typed node without a value, in a sound state. -/
structure Settles (env : Env) (n : Node) (b : Body) : Prop where
  typed : n.Typed (b.scope env)
  void : n.ty = .void
  sound : b.Sound env

lemma StoresName.settles {name : String} {value : Node} (h : StoresName name value b n b')
    (hb : b.Sound env) (hv : value.Typed (b.scope env)) : Settles env n b' := by
  cases h with
  | slot hs ha hnotes =>
    have hg := hnotes.grows
    refine ⟨Node.typed_localSet.mpr ⟨?_, (ha.typed hv).mono hg.scope_le⟩, rfl, hg.sound hb⟩
    rw [ha.ty]
    exact hg.scope_le.slot (hb.slots _ _ hs)
  | global _ hs ha hnotes =>
    have hg := hnotes.grows
    refine ⟨Node.typed_globalSet.mpr ⟨?_, (ha.typed hv).mono hg.scope_le⟩, rfl, hg.sound hb⟩
    rw [ha.ty]
    exact hg.scope_le.globalTy (hb.globals _ _ hs)
  | fresh _ _ _ =>
    have hv' := hv.mono (Body.Extends.declare b name value.ty).scope_le
    exact ⟨Node.typed_localSet.mpr ⟨slot_declare _ _, hv'⟩, rfl, hb.declare _ _⟩

lemma Stores.settles {value : Node} {target : Expr} (h : Stores env value target b n b')
    (hb : b.Sound env) (hv : value.Typed (b.scope env)) : Settles env n b' := by
  cases h with
  | name hs => exact hs.settles hb hv
  | element _ ha hk hi hc hn =>
    have hgi := hi.grows.trans ((returns_coerce hc).1.grows.trans (returns_coerce hn).1.grows)
    have hgc := (returns_coerce hc).1.grows.trans (returns_coerce hn).1.grows
    have h1 := (ha.typed hb).mono hgi.scope_le
    have h2 := (hi.typed (ha.grows.sound hb)).mono hgc.scope_le
    have h3 := hv.mono (ha.grows.trans hgi).scope_le
    refine ⟨Node.typed_arraySet.mpr ⟨⟨hk, ty_of_coerce hc, ty_of_coerce hn⟩, h1, ?_, ?_⟩, rfl,
      (ha.grows.trans hgi).sound hb⟩
    · exact (returns_coerce hc).2.typed h2
    · exact (returns_coerce hn).2.typed h3

/-- Nodes that are well typed and leave no value. -/
def SettlesAll (env : Env) (ns : List Node) (b : Body) : Prop :=
  (∀ n ∈ ns, n.Typed (b.scope env) ∧ n.ty = .void) ∧ b.Sound env

lemma SettlesAll.cons (hn : Settles env n b)
    (hns : SettlesAll env ns b') (h : b.Extends b') : SettlesAll env (n :: ns) b' :=
  ⟨List.forall_mem_cons.mpr ⟨⟨hn.typed.mono h.scope_le, hn.void⟩, hns.1⟩, hns.2⟩

/-- A block of such nodes is one. -/
lemma SettlesAll.block (h : SettlesAll env ns b) (l : Option Ir.Label) :
    Settles env (.block l ns .void) b where
  typed := Node.typed_block.mpr ⟨Node.ends_void.mpr fun n hn => (h.1 n hn).2,
    fun n hn => (h.1 n hn).1⟩
  void := rfl
  sound := h.2

lemma StoresAll.settles {value : Node} {targets : List Expr}
    (h : StoresAll env value targets b ns b') (hb : b.Sound env)
    (hv : value.Typed (b.scope env)) : SettlesAll env ns b' := by
  induction h with
  | nil => exact ⟨by simp, hb⟩
  | cons hs hss ih =>
    have hn := hs.settles hb hv
    exact .cons hn (ih hn.sound (hv.mono hs.extends.scope_le)) hss.extends

lemma settles_nop (hb : b.Sound env) : Settles env .nop b := ⟨Node.typed_nop, rfl, hb⟩

lemma LowersSimple.settles {s : Stmt} (h : LowersSimple env s b n b')
    (hb : b.Sound env) : Settles env n b' := by
  cases h with
  | comment | pass | importModule | importNames => exact settles_nop hb
  | effect he hv => exact ⟨he.typed hb, hv, he.grows.sound hb⟩
  | drop he hv => exact ⟨Node.typed_drop.mpr ⟨hv, he.typed hb⟩, rfl, he.grows.sound hb⟩
  | assign he hs => exact hs.settles (he.grows.sound hb) (he.typed hb)
  | @assignAll _ _ _ _ v b₁ _ _ _ he _ hs =>
    have hg : b₁.Grows (b₁.grow [v.ty] 0 []) := ⟨_, _, _, rfl⟩
    have hscratch : ((b₁.grow [v.ty] 0 []).scope env).slots[b₁.frame.nextIndex]? = some v.ty :=
      slot_grow [v.ty] 0 [] 0
    have hns := hs.settles (hg.sound (he.grows.sound hb)) (typed_slotGet.mpr hscratch)
    refine (SettlesAll.cons ⟨?_, rfl, hg.sound (he.grows.sound hb)⟩ hns hs.extends).block none
    exact Node.typed_localSet.mpr ⟨hscratch, (he.typed hb).mono hg.scope_le⟩
  | declare _ _ _ _ => exact settles_nop (hb.declare _ _)
  | annAssign _ _ _ _ he hc hs =>
    have hg := (returns_coerce hc).1.grows
    exact hs.settles (hg.sound (he.grows.sound hb))
      (((returns_coerce hc).2.typed (he.typed hb)).mono hg.scope_le)
  | augAssign he hs => exact hs.settles (he.grows.sound hb) (he.typed hb)
  | global h => exact settles_nop (h.sound hb)

/-- The loops around a statement do not matter for its types. -/
lemma Body.Sound.enterLoop (hb : b.Sound env) (id : Nat) : (b.enterLoop id).Sound env :=
  ⟨hb.slots, hb.globals, hb.declared⟩

lemma Body.Sound.leaveLoop (hb : b.Sound env) : b.leaveLoop.Sound env :=
  ⟨hb.slots, hb.globals, hb.declared⟩

lemma SettlesAll.leaveLoop (h : SettlesAll env ns b) :
    SettlesAll env ns b.leaveLoop :=
  ⟨h.1, h.2.leaveLoop⟩

lemma SettlesAll.snoc_br (h : SettlesAll env ns b) (l : Ir.Label) :
    SettlesAll env (ns ++ [.br l]) b := by
  refine ⟨fun n hn => ?_, h.2⟩
  rcases List.mem_append.mp hn with hn | hn
  · exact h.1 n hn
  · rw [List.mem_singleton.mp hn]
    exact ⟨Node.typed_br, rfl⟩

lemma settles_whileNode {id : Nat} {c : Node} {ms : List Node}
    (hc : c.Typed (b'.scope env) ∧ c.ty = .i32) (hns : SettlesAll env ns b)
    (hms : SettlesAll env ms b') (h : b.Extends b') : Settles env (whileNode id c ns ms) b' := by
  have hbody := ((hns.snoc_br (loopLabel id)).block (some (loopBodyLabel id))).typed.mono h.scope_le
  have helse := (hms.block (some (loopElseLabel id))).typed
  refine ⟨?_, rfl, hms.2⟩
  unfold whileNode
  split
  · exact Node.typed_loop.mpr ⟨rfl, Node.typed_ifElse_none.mpr ⟨⟨hc.2, rfl⟩, hc.1, hbody⟩⟩
  · exact Node.typed_loop.mpr ⟨rfl,
      Node.typed_ifElse_some.mpr ⟨⟨hc.2, rfl, rfl⟩, hc.1, hbody, helse⟩⟩

lemma settles_ifElse {c e : Node} (hc : c.Typed (b'.scope env) ∧ c.ty = .i32)
    (hns : SettlesAll env ns b) (he : Settles env e b') (h : b.Extends b') :
    Settles env (.ifElse c (.block none ns .void) (some e)) b' := by
  have hbody := (hns.block none).typed.mono h.scope_le
  exact ⟨Node.typed_ifElse_some.mpr ⟨⟨hc.2, rfl, he.void⟩, hc.1, hbody, he.typed⟩, rfl, he.sound⟩

mutual

/-- **Statements**: from a sound state a statement gives a well-typed node. -/
lemma LowersStmt.settles {s : Stmt} {b b' : Body} {n : Node} :
    LowersStmt env s b n b' → b.Sound env → Settles env n b'
  | .simple h, hb => h.settles hb
  | .retNone hr _, hb => ⟨Node.typed_ret_none.mpr hr, rfl, hb⟩
  | .retSome hr he hc, hb => by
    have hg := (returns_coerce hc).1.grows
    have hret := (he.grows.trans hg).returns
    refine ⟨Node.typed_ret_some.mpr ⟨⟨?_, ?_⟩, ?_⟩, rfl, hg.sound (he.grows.sound hb)⟩
    · rwa [Body.scope, hret]
    · rw [ty_of_coerce hc, Body.scope, hret]
    · exact ((returns_coerce hc).2.typed (he.typed hb)).mono hg.scope_le
  | .breakLoop _, hb | .continueLoop _, hb => ⟨Node.typed_br, rfl, hb⟩
  | .assert hc, hb => by
    obtain ⟨h, hty⟩ := typed_condition hc hb
    refine ⟨Node.typed_ifElse_some.mpr ⟨⟨hty, rfl, rfl⟩, h, ?_, ?_⟩, rfl, ?_⟩
    · exact Node.typed_nop
    · exact Node.typed_unreachable
    · exact (grows_of_lowerCondition hc).sound hb
  | .ifElse hc hns he, hb => by
    obtain ⟨h, hty⟩ := typed_condition hc hb
    have hns' := hns.settles ((grows_of_lowerCondition hc).sound hb)
    have hle := hns.extends.trans he.extends
    exact settles_ifElse ⟨h.mono hle.scope_le, hty⟩ hns' (he.settles hns'.2) he.extends
  | .whileLoop hc hns hms, hb => by
    have hb₀ := Body.Grows.sound ⟨[], 1, [], rfl⟩ hb
    obtain ⟨h, hty⟩ := typed_condition hc hb₀
    have hns' := hns.settles (((grows_of_lowerCondition hc).sound hb₀).enterLoop _)
    have hms' := hms.settles hns'.2.leaveLoop
    have hle := hns.extends.leaveLoop.trans hms.extends
    exact settles_whileNode ⟨h.mono hle.scope_le, hty⟩ hns'.leaveLoop hms' hms.extends

lemma LowersStmts.settles {ss : List Stmt} {b b' : Body} {ns : List Node} :
    LowersStmts env ss b ns b' → b.Sound env → SettlesAll env ns b'
  | .nil, hb => ⟨by simp, hb⟩
  | .cons h hs, hb => by
    have hn := h.settles hb
    exact .cons hn (hs.settles hn.sound) hs.extends

lemma LowersElse.settles {orelse : List Stmt} {elifs : List Branch} {b b' : Body} {n : Node} :
    LowersElse env orelse elifs b n b' → b.Sound env → Settles env n b'
  | .nil h, hb => (h.settles hb).block none
  | .cons hc hns he, hb => by
    obtain ⟨h, hty⟩ := typed_condition hc hb
    have hns' := hns.settles ((grows_of_lowerCondition hc).sound hb)
    have hle := hns.extends.trans he.extends
    have hif := settles_ifElse ⟨h.mono hle.scope_le, hty⟩ hns' (he.settles hns'.2) he.extends
    exact (SettlesAll.cons hif ⟨by simp, hif.sound⟩ (.refl _)).block none

end

end AnnotatedWasm.Lowering
