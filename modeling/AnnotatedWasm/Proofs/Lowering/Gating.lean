import AnnotatedWasm.Proofs.Lowering.Slots
import AnnotatedWasm.Proofs.Wasm.Failures

/-!
The types of values in lowered code are those that the switches allow.

Some types are looked at where they are written, and others come from elsewhere: from a variable,
or from a call, whose result may be of a type that is only looked at when the called function is
lowered. So the types of an expression are allowed on the condition that those of the calls in it
are (`Node.Gated`), and a statement is followed under this condition.
-/

namespace AnnotatedWasm

/-- Values of this type need no feature that is off. -/
def Options.Allows (o : Options) (t : Ty) : Prop := o.missing? t = none

namespace Options

variable {o : Options}

@[simp] lemma allows_num (k : NumKind) : o.Allows (.num k) := rfl

@[simp] lemma allows_void : o.Allows .void := rfl

@[simp] lemma allows_array {k : NumKind} : o.Allows (.array k) ↔ o.gc = true := by
  simp [Allows, missing?]

@[simp] lemma allows_str : o.Allows .str ↔ o.strings = true := by
  simp [Allows, missing?]

end Options

namespace Ir.Node

/-- All values in the node are allowed. -/
def Allowed (o : Options) (n : Node) : Prop := ∀ m ∈ n.subnodes, o.Allows m.ty

/-- The results of all calls in the node are allowed. -/
def CallsAllowed (o : Options) (n : Node) : Prop :=
  ∀ m ∈ n.subnodes, m.callee?.isSome → o.Allows m.ty

/-- All values in the node are allowed, if only the results of calls are. -/
def Gated (o : Options) (n : Node) : Prop := n.CallsAllowed o → n.Allowed o

variable {o : Options} {n : Node}

lemma Allowed.ty (h : n.Allowed o) : o.Allows n.ty := h n (by rw [subnodes_eq]; simp)

lemma allowed_iff : n.Allowed o ↔ o.Allows n.ty ∧ ∀ c ∈ n.children, c.Allowed o := by
  unfold Allowed
  rw [subnodes_eq, List.forall_mem_cons]
  simp only [List.forall_mem_flatMap]

lemma callsAllowed_iff : n.CallsAllowed o ↔
    (n.callee?.isSome → o.Allows n.ty) ∧ ∀ c ∈ n.children, c.CallsAllowed o := by
  unfold CallsAllowed
  rw [subnodes_eq, List.forall_mem_cons]
  simp only [List.forall_mem_flatMap]

lemma CallsAllowed.child {c : Node} (h : n.CallsAllowed o) (hc : c ∈ n.children) :
    c.CallsAllowed o :=
  (callsAllowed_iff.mp h).2 c hc

/-- What is below a node is looked at first. Its own value is that of a call, or follows from
those below. -/
lemma gated_of_children (hc : ∀ c ∈ n.children, c.Gated o)
    (hn : n.callee? = none → (∀ c ∈ n.children, o.Allows c.ty) → o.Allows n.ty) : n.Gated o := by
  intro hcalls
  have hbelow : ∀ c ∈ n.children, c.Allowed o := fun c h => hc c h (hcalls.child h)
  refine allowed_iff.mpr ⟨?_, hbelow⟩
  rcases hcallee : n.callee? with _ | f
  · exact hn hcallee fun c h => (hbelow c h).ty
  · exact (callsAllowed_iff.mp hcalls).1 (by rw [hcallee]; rfl)

/-- A node whose own value is allowed in any case. -/
lemma gated_of_allows (hn : o.Allows n.ty) (hc : ∀ c ∈ n.children, c.Gated o) : n.Gated o :=
  gated_of_children hc fun _ _ => hn

end Ir.Node

namespace Frame

/-- The types of all slots, names and globals that a function knows of. -/
def types (f : Frame) : List Ty :=
  f.slotTypes ++ f.bindings.map (·.2.ty) ++ f.globals.map (·.2)

lemma mem_types_of_slot? {f : Frame} {name : String} {s : Slot} (h : f.slot? name = some s) :
    s.ty ∈ f.types := by
  have hmem : s.ty ∈ f.bindings.map (·.2.ty) :=
    List.mem_map.mpr ⟨(name, s), mem_of_lookupLast? h, rfl⟩
  simp only [types, List.mem_append]
  exact .inl (.inr hmem)

lemma mem_types_of_global? {f : Frame} {name : String} {t : Ty} (h : f.global? name = some t) :
    t ∈ f.types := by
  have hmem : t ∈ f.globals.map (·.2) := List.mem_map.mpr ⟨(name, t), mem_of_lookupLast? h, rfl⟩
  simp only [types, List.mem_append]
  exact .inr hmem

lemma mem_types_declare {f : Frame} {name : String} {ty t : Ty} :
    t ∈ (f.declare name ty).2.types ↔ t ∈ f.types ∨ t = ty := by
  simp only [types, slotTypes, declare, List.map_append, List.mem_append, List.map_cons,
    List.map_nil, List.mem_singleton]
  tauto

lemma mem_types_openGlobal {f : Frame} {name : String} {ty t : Ty} :
    t ∈ (f.openGlobal name ty).types ↔ t ∈ f.types ∨ t = ty := by
  simp only [types, slotTypes, openGlobal, List.map_append, List.mem_append, List.map_cons,
    List.map_nil, List.mem_singleton]
  tauto

lemma map_ty_paramSlots (params : List (String × Ty)) : ∀ first,
    (paramSlots first params).map (·.2.ty) = params.map (·.2) := by
  induction params with
  | nil => exact fun _ => rfl
  | cons p params ih => exact fun first => by rw [paramSlots, List.map_cons, ih, List.map_cons]

lemma mem_types_start {name : String} {params : List (String × Ty)} {returns t : Ty}
    (h : t ∈ (start name params returns).types) : t ∈ params.map (·.2) := by
  simpa only [types, slotTypes, start, map_ty_paramSlots, List.append_nil, List.map_nil,
    List.mem_append, or_self] using h

end Frame

namespace Lowering

open Ir (Node)
open Ir.Node (gated_of_allows gated_of_children forall_mem_pair forall_mem_triple)
open Syntax (Expr Stmt Branch)

variable {env : Env} {o : Options} {b b' : Body} {n v c l r : Node} {ns : List Node}
  {name : String} {t : Ty} {f : Frame}

/-! ### Small steps -/

lemma gated_slotGet {s : Slot} (h : o.Allows s.ty) : (slotGet s).Gated o := gated_of_allows h nofun

lemma gated_const (l : Literal) : (Node.const l).Gated o :=
  gated_of_allows (by simp [Node.ty]) nofun

lemma gated_unary {op : Ir.UnaryOp} (h : v.Gated o) : (Node.unary op v).Gated o :=
  gated_of_allows (by simp [Node.ty]) (List.forall_mem_singleton.mpr h)

lemma gated_binary {op : Ir.BinaryOp} (hl : l.Gated o) (hr : r.Gated o) :
    (Node.binary op l r).Gated o :=
  gated_of_allows (by simp [Node.ty]) (forall_mem_pair.mpr ⟨hl, hr⟩)

lemma gated_localSet {i : Nat} (h : v.Gated o) : (Node.localSet i v).Gated o :=
  gated_of_allows (by simp [Node.ty]) (List.forall_mem_singleton.mpr h)

lemma gated_select {x y : Node} (hc : c.Gated o) (hx : x.Gated o) (hy : y.Gated o) :
    (Node.select c x y).Gated o :=
  gated_of_children (forall_mem_triple.mpr ⟨hc, hx, hy⟩) fun _ h => h x (by simp [Node.children])

lemma gated_convert {k : NumKind} (h : v.Gated o) : (convert v k).Gated o := by
  unfold convert
  split
  · split
    · exact gated_unary h
    · exact h
  · exact h

lemma Adapts.gated (h : Adapts v t n) (hv : v.Gated o) : n.Gated o := by
  cases h with
  | same _ => exact hv
  | number _ => exact gated_convert hv

lemma gated_truth {span : Span} (h : Returns (truth v span) b n b') (hv : v.Gated o) :
    n.Gated o := by
  obtain ⟨-, k, -, ⟨-, rfl⟩ | ⟨-, rfl⟩⟩ := returns_truth h
  · exact hv
  · exact gated_binary hv (gated_const _)

lemma Signs.gated {op : Syntax.UnaryOp} {k : NumKind} (h : Signs op k v n) (hv : v.Gated o) :
    n.Gated o := by
  cases h with
  | pos => exact hv
  | negFloat => exact gated_unary hv
  | negInt => exact gated_binary (gated_const _) hv
  | not => exact gated_binary (gated_const _) hv

lemma gated_floorQuotient {w : Width} {x y z : Slot} (hx : o.Allows x.ty)
    (hy : o.Allows y.ty) (hz : o.Allows z.ty) (hl : l.Gated o) (hr : r.Gated o) :
    (floorQuotient w x y z l r).Gated o := by
  have hx := gated_slotGet hx
  have hy := gated_slotGet hy
  have hz := gated_slotGet hz
  refine gated_of_allows (Options.allows_num _) ?_
  simp only [floorQuotient, Node.children, List.forall_mem_cons]
  refine ⟨gated_localSet hl, gated_localSet hr, gated_localSet (gated_binary hx hy), ?_,
    List.forall_mem_nil _⟩
  refine gated_binary (gated_binary hx hy) (gated_convert (gated_binary ?_ ?_))
  · exact gated_binary hz (gated_const _)
  · exact gated_binary (gated_binary hz (gated_const _)) (gated_binary hy (gated_const _))

lemma Combines.gated {op : Syntax.BinOp} {k : NumKind}
    (h : Combines env op k l r b n b') (hl : l.Gated o) (hr : r.Gated o) : n.Gated o := by
  cases h with
  | add | sub | mul | truncated _ | mod => exact gated_binary hl hr
  | div => exact gated_binary (gated_convert hl) (gated_convert hr)
  | floorFloat => exact gated_unary (gated_binary hl hr)
  | floored _ => exact gated_floorQuotient (by simp) (by simp) (by simp) hl hr

section

variable {first : Nat} {label : Ir.Label} {k : NumKind}

lemma gated_rangeLength {s : RangeSlots} {stop : Node} (hfirst : o.Allows s.first.ty)
    (hstride : o.Allows s.stride.ty) (hstop : stop.Gated o) : (rangeLength s stop).Gated o := by
  refine gated_unary (gated_unary (gated_binary (gated_binary ?_ ?_) ?_))
  · exact gated_convert hstop
  · exact gated_convert (gated_slotGet hfirst)
  · exact gated_convert (gated_slotGet hstride)

lemma gated_rangeLoop (hgc : o.gc = true) : (rangeLoop (.from first k) label k).Gated o := by
  have hnum (i : Nat) : (slotGet ⟨i, .i32⟩).Gated o := gated_slotGet (by simp)
  have harray : (slotGet ⟨first + 3, .array k⟩).Gated o := gated_slotGet (by simp [hgc])
  refine gated_of_allows (by simp [rangeLoop, Node.ty]) (List.forall_mem_singleton.mpr ?_)
  refine gated_of_allows (by simp [Node.ty]) (forall_mem_pair.mpr ⟨?_, ?_⟩)
  · exact gated_binary (hnum _) (hnum _)
  · refine gated_of_allows (by simp [Node.ty]) ?_
    simp only [Node.children, List.forall_mem_cons]
    refine ⟨?_, gated_localSet (gated_binary (hnum _) (hnum _)),
      gated_localSet (gated_binary (hnum _) (gated_const _)),
      gated_of_allows (by simp [Node.ty]) (List.forall_mem_nil _), List.forall_mem_nil _⟩
    exact gated_of_allows (by simp [Node.ty])
      (forall_mem_triple.mpr ⟨harray, hnum _, gated_convert (hnum _)⟩)

/-- A range makes an array of its own. -/
lemma gated_rangeBlock {start stop step : Node} (hgc : o.gc = true) (hstart : start.Gated o)
    (hstop : stop.Gated o) (hstep : step.Gated o) :
    (rangeBlock (.from first k) label k start stop step).Gated o := by
  have hnum (i : Nat) : (slotGet ⟨i, .i32⟩).Gated o := gated_slotGet (by simp)
  have harray : (slotGet ⟨first + 3, .array k⟩).Gated o := gated_slotGet (by simp [hgc])
  refine gated_of_allows (by simp [rangeBlock, Node.ty, hgc]) ?_
  simp only [rangeBlock, Node.children, List.forall_mem_cons]
  refine ⟨gated_localSet hstart, gated_localSet hstep, ?_, gated_localSet ?_, gated_localSet ?_,
    gated_localSet ?_, gated_localSet (gated_const _), gated_localSet (hnum _),
    gated_rangeLoop hgc, harray, List.forall_mem_nil _⟩
  · refine gated_of_allows (by simp [Node.ty]) (forall_mem_pair.mpr ⟨?_, ?_⟩)
    · exact gated_binary (hnum _) (gated_const _)
    · exact gated_of_allows (by simp [Node.ty]) (List.forall_mem_nil _)
  · exact gated_rangeLength (by simp [RangeSlots.from]) (by simp [RangeSlots.from]) hstop
  · exact gated_select (gated_binary (hnum _) (gated_const _)) (hnum _) (gated_const _)
  · exact gated_of_allows (by simp [Node.ty, hgc]) (forall_mem_pair.mpr ⟨gated_const _, hnum _⟩)

end

/-! ### Expressions -/

/-- All types that the function at hand knows of are allowed. -/
def Body.Allowed (o : Options) (b : Body) : Prop := ∀ t ∈ b.frame.types, o.Allows t

namespace Body.Allowed

lemma slot (h : b.Allowed o) {s : Slot} (hs : b.frame.slot? name = some s) :
    o.Allows s.ty :=
  h _ (Frame.mem_types_of_slot? hs)

lemma global (h : b.Allowed o) (ht : b.frame.global? name = some t) :
    o.Allows t :=
  h _ (Frame.mem_types_of_global? ht)

lemma grow (h : b.Allowed o) {temps : List Ty} {k : Nat} {events : List Event}
    (htemps : ∀ t ∈ temps, o.Allows t) : (b.grow temps k events).Allowed o := by
  intro t ht
  have hcases : t ∈ b.frame.types ∨ t ∈ temps := by
    simp only [Frame.types, Frame.slotTypes, Body.grow, List.mem_append] at ht ⊢
    tauto
  exact hcases.elim (h t) (htemps t)

lemma notes (h : b.Allowed o) (hn : b.Notes b') : b'.Allowed o := by
  unfold Allowed
  rwa [hn.frame]

lemma declare (h : b.Allowed o) {ty : Ty} (hty : o.Allows ty) :
    (b.declare name ty).Allowed o := by
  intro t ht
  rcases Frame.mem_types_declare.mp ht with ht | rfl
  · exact h t ht
  · exact hty

end Body.Allowed

lemma Combines.allowed {op : Syntax.BinOp} {k : NumKind}
    (h : Combines env op k l r b n b') (hb : b.Allowed o) : b'.Allowed o := by
  cases h
  case floored => exact hb.grow (by simp)
  all_goals exact hb

mutual

/-- What an expression needs is on, and it makes slots of allowed types only. -/
lemma LowersExpr.gated {hint : Option Ty} {e : Expr} {b b' : Body} {n : Node} :
    LowersExpr env hint e b n b' → b.Allowed env.options →
      n.Gated env.options ∧ b'.Allowed env.options
  | .slot hs, hb => ⟨gated_slotGet (hb.slot hs), hb⟩
  | .global _ hg, hb => ⟨gated_of_allows (hb.global hg) nofun, hb⟩
  | .number _, hb | .bool, hb => ⟨gated_const _, hb⟩
  | .string hs, hb => ⟨gated_of_allows hs nofun, hb⟩
  | .unary he hn, hb => by
    obtain ⟨rfl, k, -, hs⟩ := returns_unary hn
    obtain ⟨hv, hb₁⟩ := he.gated hb
    exact ⟨hs.gated hv, hb₁⟩
  | .binary hl hr hn, hb => by
    obtain ⟨i, j, b₃, -, -, hnotes, hc⟩ := returns_binary hn
    obtain ⟨hl, hb₁⟩ := hl.gated hb
    obtain ⟨hr, hb₂⟩ := hr.gated hb₁
    exact ⟨hc.gated (gated_convert hl) (gated_convert hr), hc.allowed (hb₂.notes hnotes)⟩
  | .compare _ hl hr hu, hb => by
    obtain ⟨hnotes, i, j, -, -, rfl, rfl, rfl⟩ := returns_unifyOperands hu
    obtain ⟨hl, hb₁⟩ := hl.gated hb
    obtain ⟨hr, hb₂⟩ := hr.gated hb₁
    exact ⟨gated_binary (gated_convert hl) (gated_convert hr), hb₂.notes hnotes⟩
  | .ifElse ht hc hx hy hn, hb => by
    obtain ⟨hnotes, hn⟩ := returns_choose hn
    obtain ⟨ht, hb₁⟩ := ht.gated hb
    have hc' := gated_truth hc ht
    obtain ⟨rfl, -⟩ := returns_truth hc
    obtain ⟨hx, hb₂⟩ := hx.gated hb₁
    obtain ⟨hy, hb₃⟩ := hy.gated hb₂
    refine ⟨?_, hb₃.notes hnotes⟩
    rcases hn with ⟨-, -, rfl⟩ | ⟨i, j, -, -, rfl⟩
    · exact gated_select hc' hx hy
    · exact gated_select hc' (gated_convert hx) (gated_convert hy)
  | .call _ _ hs, hb => by
    obtain ⟨hs, hb'⟩ := hs.gated hb
    exact ⟨gated_of_children hs nofun, hb'⟩
  | .range _ hgc hs hn, hb => by
    obtain ⟨start, stop, step, hbounds, rfl, rfl⟩ := returns_rangeOf hn
    obtain ⟨hs, hb₁⟩ := hs.gated hb
    have hbound (v) (hv : v ∈ [start, stop, step]) : v.Gated env.options := by
      rcases hbounds.mem hv with hv | ⟨i, rfl⟩
      · exact hs v hv
      · exact gated_const _
    obtain ⟨hstart, hstop, hstep⟩ := forall_mem_triple.mp hbound
    exact ⟨gated_rangeBlock hgc hstart hstop hstep, hb₁.grow (by simp [hgc])⟩
  | .len _ _ ha _, hb => by
    obtain ⟨ha, hb'⟩ := ha.gated hb
    exact ⟨gated_of_allows (Options.allows_num _) (List.forall_mem_singleton.mpr ha), hb'⟩
  | .subscript _ ha _ hi hc, hb => by
    obtain ⟨ha, hb₁⟩ := ha.gated hb
    obtain ⟨hi, hb₂⟩ := hi.gated hb₁
    obtain ⟨hnotes, hadapts⟩ := returns_coerce hc
    exact ⟨gated_of_allows (Options.allows_num _) (forall_mem_pair.mpr ⟨ha, hadapts.gated hi⟩),
      hb₂.notes hnotes⟩
  | .list hgc hs, hb => by
    obtain ⟨hs, hb'⟩ := hs.gated hb
    exact ⟨gated_of_allows hgc hs, hb'⟩

lemma LowersArgs.gated {tys : List Ty} {args : List Expr} {b b' : Body} {ns : List Node} :
    LowersArgs env tys args b ns b' → b.Allowed env.options →
      (∀ n ∈ ns, n.Gated env.options) ∧ b'.Allowed env.options
  | .nil, hb => ⟨nofun, hb⟩
  | .cons hv hc hs, hb => by
    obtain ⟨hv, hb₁⟩ := hv.gated hb
    obtain ⟨hnotes, hadapts⟩ := returns_coerce hc
    obtain ⟨hs, hb'⟩ := hs.gated (hb₁.notes hnotes)
    exact ⟨List.forall_mem_cons.mpr ⟨hadapts.gated hv, hs⟩, hb'⟩

lemma LowersEach.gated {ty : Ty} {es : List Expr} {b b' : Body} {ns : List Node} :
    LowersEach env ty es b ns b' → b.Allowed env.options →
      (∀ n ∈ ns, n.Gated env.options) ∧ b'.Allowed env.options
  | .nil, hb => ⟨nofun, hb⟩
  | .cons hv hc hs, hb => by
    obtain ⟨hv, hb₁⟩ := hv.gated hb
    obtain ⟨hnotes, hadapts⟩ := returns_coerce hc
    obtain ⟨hs, hb'⟩ := hs.gated (hb₁.notes hnotes)
    exact ⟨List.forall_mem_cons.mpr ⟨hadapts.gated hv, hs⟩, hb'⟩

end

lemma gated_lowerCondition {test : Expr} (h : Returns (lowerCondition env test) b n b')
    (hb : b.Allowed env.options) : n.Gated env.options ∧ b'.Allowed env.options := by
  obtain ⟨v, hv, ht⟩ := returns_lowerCondition h
  obtain ⟨hv, hb'⟩ := hv.gated hb
  exact ⟨gated_truth ht hv, hb'⟩

/-! ### Statements -/

/-- The nodes are allowed, and so is all that is known after them. -/
def AllowedAll (o : Options) (ns : List Node) (b : Body) : Prop :=
  (∀ n ∈ ns, n.Allowed o) ∧ b.Allowed o

/-- A first value gives its type to a new variable, so here calls have to be looked at. -/
lemma StoresName.allowed (h : StoresName name v b n b') (hb : b.Allowed o)
    (hv : v.Gated o) (hcalls : n.CallsAllowed o) : n.Allowed o ∧ b'.Allowed o := by
  cases h with
  | slot _ ha hnotes => exact ⟨gated_localSet (ha.gated hv) hcalls, hb.notes hnotes⟩
  | global _ _ ha hnotes =>
    have hn : (Node.globalSet name _).Gated o :=
      gated_of_allows (by simp [Node.ty]) (List.forall_mem_singleton.mpr (ha.gated hv))
    exact ⟨hn hcalls, hb.notes hnotes⟩
  | fresh _ _ _ =>
    have hty := (hv (hcalls.child (by simp [Node.children]))).ty
    exact ⟨gated_localSet hv hcalls, hb.declare hty⟩

lemma Stores.allowed {target : Expr} (h : Stores env v target b n b')
    (hb : b.Allowed env.options) (hv : v.Gated env.options)
    (hcalls : n.CallsAllowed env.options) :
    n.Allowed env.options ∧ b'.Allowed env.options := by
  cases h with
  | name h => exact h.allowed hb hv hcalls
  | @element _ _ _ k _ a _ _ _ i' _ v' _ _ ha _ hi hc hn =>
    obtain ⟨ha, hb₁⟩ := ha.gated hb
    obtain ⟨hi, hb₂⟩ := hi.gated hb₁
    obtain ⟨hnotes, hadapts⟩ := returns_coerce hc
    obtain ⟨hnotes', hadapts'⟩ := returns_coerce hn
    have hset : (Node.arraySet k a i' v').Gated env.options :=
      gated_of_allows (by simp [Node.ty])
        (forall_mem_triple.mpr ⟨ha, hadapts.gated hi, hadapts'.gated hv⟩)
    exact ⟨hset hcalls, (hb₂.notes hnotes).notes hnotes'⟩

lemma StoresAll.allowed {targets : List Expr}
    (h : StoresAll env v targets b ns b') (hb : b.Allowed env.options)
    (hv : v.Gated env.options) (hcalls : ∀ n ∈ ns, n.CallsAllowed env.options) :
    AllowedAll env.options ns b' := by
  induction h with
  | nil => exact ⟨nofun, hb⟩
  | cons h _ ih =>
    obtain ⟨hn, hns⟩ := List.forall_mem_cons.mp hcalls
    obtain ⟨hn, hb₁⟩ := h.allowed hb hv hn
    obtain ⟨hns, hb'⟩ := ih hb₁ hns
    exact ⟨List.forall_mem_cons.mpr ⟨hn, hns⟩, hb'⟩

/-- Globals are numbers. -/
lemma OpensGlobals.allowed {names : List String} (h : OpensGlobals names b b')
    (hb : b.Allowed o) : b'.Allowed o := by
  induction h with
  | nil => exact hb
  | @cons name _ d b _ _ _ _ ih =>
    refine ih fun t ht => ?_
    rcases Frame.mem_types_openGlobal.mp ht with ht | rfl
    · rw [frame_promote] at ht
      exact hb t ht
    · exact Options.allows_num _

lemma allowed_nop : Node.nop.Allowed o := Node.allowed_iff.mpr ⟨Options.allows_void, nofun⟩

lemma LowersSimple.allowed {s : Stmt} (h : LowersSimple env s b n b')
    (hb : b.Allowed env.options) (hcalls : n.CallsAllowed env.options) :
    n.Allowed env.options ∧ b'.Allowed env.options := by
  cases h with
  | comment | pass | importModule | importNames => exact ⟨allowed_nop, hb⟩
  | effect he _ =>
    obtain ⟨he, hb'⟩ := he.gated hb
    exact ⟨he hcalls, hb'⟩
  | drop he _ =>
    obtain ⟨he, hb'⟩ := he.gated hb
    have hv := he (hcalls.child (by simp [Node.children]))
    exact ⟨Node.allowed_iff.mpr ⟨Options.allows_void, List.forall_mem_singleton.mpr hv⟩, hb'⟩
  | assign he hs =>
    obtain ⟨hv, hb₁⟩ := he.gated hb
    exact hs.allowed hb₁ hv hcalls
  | assignAll _ he _ hs =>
    obtain ⟨hv, hb₁⟩ := he.gated hb
    obtain ⟨hset, hcopies⟩ := List.forall_mem_cons.mp (Node.callsAllowed_iff.mp hcalls).2
    have hty := (hv (hset.child (by simp [Node.children]))).ty
    obtain ⟨hns, hb'⟩ := hs.allowed (hb₁.grow (by simpa using hty)) (gated_slotGet hty) hcopies
    exact ⟨Node.allowed_iff.mpr ⟨Options.allows_void,
      List.forall_mem_cons.mpr ⟨gated_localSet hv hset, hns⟩⟩, hb'⟩
  | declare _ _ hty _ => exact ⟨allowed_nop, hb.declare hty⟩
  | annAssign _ _ _ _ he hc hs =>
    obtain ⟨hv, hb₁⟩ := he.gated hb
    obtain ⟨hnotes, hadapts⟩ := returns_coerce hc
    exact hs.allowed (hb₁.notes hnotes) (hadapts.gated hv) hcalls
  | augAssign he hs =>
    obtain ⟨hv, hb₁⟩ := he.gated hb
    exact hs.allowed hb₁ hv hcalls
  | global h => exact ⟨allowed_nop, h.allowed hb⟩

/-- A property that goes from a node to those below it holds of the parts of a loop. -/
lemma parts_of_whileNode {p : Node → Prop} (hp : ∀ n, p n → ∀ c ∈ n.children, p c)
    {id : Nat} {ms : List Node} (h : p (whileNode id c ns ms)) :
    p c ∧ (∀ n ∈ ns, p n) ∧ ∀ m ∈ ms, p m := by
  have htest := hp _ h _ List.mem_cons_self
  have hbody := hp _ (hp _ htest _ (List.mem_cons_of_mem _ List.mem_cons_self))
  refine ⟨hp _ htest _ List.mem_cons_self, fun n hn => hbody n (List.mem_append_left _ hn), ?_⟩
  intro m hm
  have helse := hp _ htest (.block (some (loopElseLabel id)) ms .void)
    (by simp [Node.children, List.ne_nil_of_mem hm])
  exact hp _ helse m hm

lemma allowed_block {l : Option Ir.Label} (h : ∀ n ∈ ns, n.Allowed o) :
    (Node.block l ns .void).Allowed o :=
  Node.allowed_iff.mpr ⟨Options.allows_void, h⟩

lemma allowed_ifElse {x y : Node} (hc : c.Allowed o) (hx : x.Allowed o) (hy : y.Allowed o) :
    (Node.ifElse c x (some y)).Allowed o :=
  Node.allowed_iff.mpr ⟨Options.allows_void, forall_mem_triple.mpr ⟨hc, hx, hy⟩⟩

lemma allowed_whileNode {id : Nat} {ms : List Node} (hc : c.Allowed o)
    (hns : ∀ n ∈ ns, n.Allowed o) (hms : ∀ m ∈ ms, m.Allowed o) :
    (whileNode id c ns ms).Allowed o := by
  have hbr : (Node.br (loopLabel id)).Allowed o := Node.allowed_iff.mpr ⟨Options.allows_void, nofun⟩
  have hbody : ∀ n ∈ ns ++ [.br (loopLabel id)], n.Allowed o :=
    List.forall_mem_append.mpr ⟨hns, List.forall_mem_singleton.mpr hbr⟩
  refine Node.allowed_iff.mpr ⟨Options.allows_void, List.forall_mem_singleton.mpr ?_⟩
  refine Node.allowed_iff.mpr ⟨Options.allows_void, ?_⟩
  refine List.forall_mem_cons.mpr ⟨hc, List.forall_mem_cons.mpr ⟨allowed_block hbody, ?_⟩⟩
  intro e he
  split at he
  · cases he
  · rw [List.mem_singleton.mp he]
    exact allowed_block hms

mutual

lemma LowersStmt.allowed {s : Stmt} {b b' : Body} {n : Node} :
    LowersStmt env s b n b' → b.Allowed env.options → n.CallsAllowed env.options →
      n.Allowed env.options ∧ b'.Allowed env.options
  | .simple h, hb, hcalls => h.allowed hb hcalls
  | .retNone _ _, hb, _ | .breakLoop _, hb, _ | .continueLoop _, hb, _ =>
    ⟨Node.allowed_iff.mpr ⟨Options.allows_void, nofun⟩, hb⟩
  | .retSome _ he hc, hb, hcalls => by
    obtain ⟨hv, hb₁⟩ := he.gated hb
    obtain ⟨hnotes, hadapts⟩ := returns_coerce hc
    have hret := hadapts.gated hv (hcalls.child (by simp [Node.children]))
    exact ⟨Node.allowed_iff.mpr ⟨Options.allows_void, List.forall_mem_singleton.mpr hret⟩,
      hb₁.notes hnotes⟩
  | .assert hc, hb, hcalls => by
    obtain ⟨hc, hb'⟩ := gated_lowerCondition hc hb
    refine ⟨allowed_ifElse (hc (hcalls.child (by simp [Node.children]))) allowed_nop ?_, hb'⟩
    exact Node.allowed_iff.mpr ⟨Options.allows_void, nofun⟩
  | .ifElse hc hns he, hb, hcalls => by
    obtain ⟨hcallsC, hcallsB, hcallsE⟩ := forall_mem_triple.mp (Node.callsAllowed_iff.mp hcalls).2
    obtain ⟨hc, hb₁⟩ := gated_lowerCondition hc hb
    obtain ⟨hns, hb₂⟩ := hns.allowed hb₁ (Node.callsAllowed_iff.mp hcallsB).2
    obtain ⟨he, hb'⟩ := he.allowed hb₂ hcallsE
    exact ⟨allowed_ifElse (hc hcallsC) (allowed_block hns) he, hb'⟩
  | .whileLoop hc hns hms, hb, hcalls => by
    obtain ⟨hcallsC, hcallsB, hcallsE⟩ :=
      parts_of_whileNode (fun _ h _ => Node.CallsAllowed.child h) hcalls
    obtain ⟨hc, hb₁⟩ := gated_lowerCondition hc (hb.grow nofun)
    obtain ⟨hns, hb₂⟩ := hns.allowed hb₁ hcallsB
    obtain ⟨hms, hb'⟩ := hms.allowed hb₂ hcallsE
    exact ⟨allowed_whileNode (hc hcallsC) hns hms, hb'⟩

lemma LowersStmts.allowed {ss : List Stmt} {b b' : Body} {ns : List Node} :
    LowersStmts env ss b ns b' → b.Allowed env.options →
      (∀ n ∈ ns, n.CallsAllowed env.options) → AllowedAll env.options ns b'
  | .nil, hb, _ => ⟨nofun, hb⟩
  | .cons h hs, hb, hcalls => by
    obtain ⟨hn, hns⟩ := List.forall_mem_cons.mp hcalls
    obtain ⟨hn, hb₁⟩ := h.allowed hb hn
    obtain ⟨hns, hb'⟩ := hs.allowed hb₁ hns
    exact ⟨List.forall_mem_cons.mpr ⟨hn, hns⟩, hb'⟩

lemma LowersElse.allowed {orelse : List Stmt} {elifs : List Branch} {b b' : Body} {n : Node} :
    LowersElse env orelse elifs b n b' → b.Allowed env.options → n.CallsAllowed env.options →
      n.Allowed env.options ∧ b'.Allowed env.options
  | .nil h, hb, hcalls => by
    obtain ⟨hns, hb'⟩ := h.allowed hb (Node.callsAllowed_iff.mp hcalls).2
    exact ⟨allowed_block hns, hb'⟩
  | .cons hc hns he, hb, hcalls => by
    have hif := List.forall_mem_singleton.mp (Node.callsAllowed_iff.mp hcalls).2
    obtain ⟨hcallsC, hcallsB, hcallsE⟩ := forall_mem_triple.mp (Node.callsAllowed_iff.mp hif).2
    obtain ⟨hc, hb₁⟩ := gated_lowerCondition hc hb
    obtain ⟨hns, hb₂⟩ := hns.allowed hb₁ (Node.callsAllowed_iff.mp hcallsB).2
    obtain ⟨he, hb'⟩ := he.allowed hb₂ hcallsE
    refine ⟨allowed_block (List.forall_mem_singleton.mpr ?_), hb'⟩
    exact allowed_ifElse (hc hcallsC) (allowed_block hns) he

end

end Lowering

end AnnotatedWasm
