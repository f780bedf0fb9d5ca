import AnnotatedWasm.Proofs.Ir.Locality
import AnnotatedWasm.Proofs.Lowering.Typing

/-!
Which slots the code of an expression names and sets.

It names slots that the function has by then, and it sets only those that were made for it. So the
operands of an operator do not disturb each other, nor any variable.
-/

namespace AnnotatedWasm

namespace Ir.Node

/-- Well-typed code names slots of its scope. -/
lemma Typed.namesBelow {Γ : Scope} {n : Node} (h : n.Typed Γ) : n.NamesBelow Γ.slots.length := by
  intro m hm i hi
  have hfits := h m hm
  cases m <;> simp only [slot?, Option.mem_def, Option.some.injEq, reduceCtorEq] at hi
  case localGet | localSet =>
    subst hi
    exact (List.getElem?_eq_some_iff.mp hfits).1

/-- A node sets what it sets itself and what the nodes below it set. -/
lemma setsFrom_iff {k : Nat} {n : Node} :
    n.SetsFrom k ↔ n.StoresFrom k ∧ ∀ m ∈ n.children, m.SetsFrom k := by
  unfold SetsFrom
  rw [subnodes_eq]
  simp only [List.forall_mem_cons, List.forall_mem_flatMap]

section

variable {k : Nat} {v a b c : Node}

@[simp] lemma setsFrom_const {x : Literal} : (const x).SetsFrom k :=
  setsFrom_iff.mpr ⟨trivial, nofun⟩

@[simp] lemma setsFrom_string {s : String} : (string s).SetsFrom k :=
  setsFrom_iff.mpr ⟨trivial, nofun⟩

@[simp] lemma setsFrom_localGet {i : Nat} {t : Ty} : (localGet i t).SetsFrom k :=
  setsFrom_iff.mpr ⟨trivial, nofun⟩

@[simp] lemma setsFrom_globalGet {g : String} {t : Ty} : (globalGet g t).SetsFrom k :=
  setsFrom_iff.mpr ⟨trivial, nofun⟩

@[simp] lemma setsFrom_unreachable : unreachable.SetsFrom k := setsFrom_iff.mpr ⟨trivial, nofun⟩

@[simp] lemma setsFrom_br {l : Label} : (br l).SetsFrom k := setsFrom_iff.mpr ⟨trivial, nofun⟩

@[simp] lemma setsFrom_localSet {i : Nat} :
    (localSet i v).SetsFrom k ↔ k ≤ i ∧ v.SetsFrom k :=
  setsFrom_iff.trans (and_congr_right fun _ => List.forall_mem_singleton)

@[simp] lemma setsFrom_unary {op : UnaryOp} : (unary op v).SetsFrom k ↔ v.SetsFrom k :=
  setsFrom_iff.trans ((and_iff_right trivial).trans List.forall_mem_singleton)

@[simp] lemma setsFrom_loop {l : Label} : (loop l v).SetsFrom k ↔ v.SetsFrom k :=
  setsFrom_iff.trans ((and_iff_right trivial).trans List.forall_mem_singleton)

@[simp] lemma setsFrom_arrayLen : (arrayLen v).SetsFrom k ↔ v.SetsFrom k :=
  setsFrom_iff.trans ((and_iff_right trivial).trans List.forall_mem_singleton)

@[simp] lemma setsFrom_binary {op : BinaryOp} :
    (binary op a b).SetsFrom k ↔ a.SetsFrom k ∧ b.SetsFrom k :=
  setsFrom_iff.trans ((and_iff_right trivial).trans forall_mem_pair)

@[simp] lemma setsFrom_arrayNew {e : NumKind} :
    (arrayNew e a b).SetsFrom k ↔ a.SetsFrom k ∧ b.SetsFrom k :=
  setsFrom_iff.trans ((and_iff_right trivial).trans forall_mem_pair)

@[simp] lemma setsFrom_arrayGet {e : NumKind} :
    (arrayGet e a b).SetsFrom k ↔ a.SetsFrom k ∧ b.SetsFrom k :=
  setsFrom_iff.trans ((and_iff_right trivial).trans forall_mem_pair)

@[simp] lemma setsFrom_ifElse :
    (ifElse a b none).SetsFrom k ↔ a.SetsFrom k ∧ b.SetsFrom k :=
  setsFrom_iff.trans ((and_iff_right trivial).trans forall_mem_pair)

@[simp] lemma setsFrom_select :
    (select a b c).SetsFrom k ↔ a.SetsFrom k ∧ b.SetsFrom k ∧ c.SetsFrom k :=
  setsFrom_iff.trans ((and_iff_right trivial).trans forall_mem_triple)

@[simp] lemma setsFrom_arraySet {e : NumKind} :
    (arraySet e a b c).SetsFrom k ↔ a.SetsFrom k ∧ b.SetsFrom k ∧ c.SetsFrom k :=
  setsFrom_iff.trans ((and_iff_right trivial).trans forall_mem_triple)

@[simp] lemma setsFrom_block {l : Option Label} {ns : List Node} {t : Ty} :
    (block l ns t).SetsFrom k ↔ ∀ n ∈ ns, n.SetsFrom k :=
  setsFrom_iff.trans (and_iff_right trivial)

@[simp] lemma setsFrom_call {f : String} {ns : List Node} {t : Ty} :
    (call f ns t).SetsFrom k ↔ ∀ n ∈ ns, n.SetsFrom k :=
  setsFrom_iff.trans (and_iff_right trivial)

@[simp] lemma setsFrom_arrayNewFixed {e : NumKind} {ns : List Node} :
    (arrayNewFixed e ns).SetsFrom k ↔ ∀ n ∈ ns, n.SetsFrom k :=
  setsFrom_iff.trans (and_iff_right trivial)

end

lemma SetsFrom.mono {j k : Nat} {n : Node} (h : n.SetsFrom k) (hjk : j ≤ k) : n.SetsFrom j := by
  intro m hm
  have hk := h m hm
  cases m
  case localSet => exact hjk.trans hk
  all_goals exact hk

end Ir.Node

namespace Lowering

open Ir (Node)
open Syntax (Expr)

variable {env : Env} {b b' : Body} {n v : Node} {k : Nat}

lemma Body.Grows.nextIndex (h : b.Grows b') : b.frame.nextIndex ≤ b'.frame.nextIndex := by
  obtain ⟨_, _, _, rfl⟩ := h
  rw [nextIndex_grow]
  omega

/-- A conversion adds no store. -/
@[simp] lemma setsFrom_convert {kind : NumKind} :
    (convert v kind).SetsFrom k ↔ v.SetsFrom k := by
  unfold convert
  split
  · split
    · exact Node.setsFrom_unary
    · rfl
  · rfl

@[simp] lemma setsFrom_slotGet {s : Slot} : (slotGet s).SetsFrom k := Node.setsFrom_localGet

@[simp] lemma setsFrom_zero {kind : NumKind} : (zero kind).SetsFrom k := Node.setsFrom_const

@[simp] lemma setsFrom_i32 {i : Int} : (Node.i32 i).SetsFrom k := Node.setsFrom_const

lemma Adapts.setsFrom {t : Ty} (ha : Adapts v t n) (h : v.SetsFrom k) : n.SetsFrom k := by
  cases ha with
  | same _ => exact h
  | number _ => exact setsFrom_convert.mpr h

lemma setsFrom_truth {span : Span} (ht : Returns (truth v span) b n b') (h : v.SetsFrom k) :
    n.SetsFrom k := by
  obtain ⟨-, _, -, ⟨-, rfl⟩ | ⟨-, rfl⟩⟩ := returns_truth ht
  · exact h
  · simpa using h

lemma Signs.setsFrom {op : Syntax.UnaryOp} {kind : NumKind} (hs : Signs op kind v n)
    (h : v.SetsFrom k) : n.SetsFrom k := by
  cases hs <;> simpa using h

lemma setsFrom_floorQuotient {w : Width} {x y r : Slot} {left right : Node} (hx : k ≤ x.index)
    (hy : k ≤ y.index) (hr : k ≤ r.index) (hleft : left.SetsFrom k) (hright : right.SetsFrom k) :
    (floorQuotient w x y r left right).SetsFrom k := by
  simp [floorQuotient, hx, hy, hr, hleft, hright]

lemma Combines.setsFrom {op : Syntax.BinOp} {kind : NumKind} {left right : Node}
    (hc : Combines env op kind left right b n b') (hk : k ≤ b.frame.nextIndex)
    (hleft : left.SetsFrom k) (hright : right.SetsFrom k) : n.SetsFrom k := by
  cases hc
  case floored =>
    exact setsFrom_floorQuotient hk (Nat.le_add_right_of_le hk) (Nat.le_add_right_of_le hk)
      hleft hright
  all_goals simp [hleft, hright]

lemma setsFrom_rangeBlock {first : Nat} {label : Ir.Label} {element : NumKind}
    {start stop step : Node} (hk : k ≤ first)
    (h : ∀ v ∈ [start, stop, step], v.SetsFrom k) :
    (rangeBlock (.from first element) label element start stop step).SetsFrom k := by
  obtain ⟨hstart, hstop, hstep⟩ := Node.forall_mem_triple.mp h
  simp [rangeBlock, rangeLength, rangeLoop, RangeSlots.from, hstart, hstop, hstep]
  omega

mutual

/-- The code of an expression sets slots only that were made for it. -/
lemma LowersExpr.setsFrom {hint : Option Ty} {e : Expr} {b b' : Body} {n : Node} :
    LowersExpr env hint e b n b' → n.SetsFrom b.frame.nextIndex
  | .slot _ | .global _ _ | .number _ | .bool | .string _ => by
    simp
  | .unary he hn => by
    obtain ⟨-, _, -, hs⟩ := returns_unary hn
    exact hs.setsFrom he.setsFrom
  | .binary hl hr hn => by
    obtain ⟨_, _, b₃, -, -, hg, hc⟩ := returns_binary hn
    have h₁ := hl.grows.nextIndex
    have h₂ := hr.grows.nextIndex
    have h₃ := hg.grows.nextIndex
    exact hc.setsFrom (by omega) (setsFrom_convert.mpr hl.setsFrom)
      (setsFrom_convert.mpr (hr.setsFrom.mono h₁))
  | .compare _ hl hr hu => by
    obtain ⟨-, _, _, -, -, rfl, rfl, rfl⟩ := returns_unifyOperands hu
    simpa using ⟨hl.setsFrom, hr.setsFrom.mono hl.grows.nextIndex⟩
  | .ifElse ht hc hx hy hn => by
    obtain ⟨rfl, -⟩ := returns_truth hc
    have htest := setsFrom_truth hc ht.setsFrom
    have hbody := hx.setsFrom.mono ht.grows.nextIndex
    have horelse := hy.setsFrom.mono (ht.grows.trans hx.grows).nextIndex
    obtain ⟨-, ⟨-, -, rfl⟩ | ⟨_, _, -, -, rfl⟩⟩ := returns_choose hn
    all_goals simp [htest, hbody, horelse]
  | .call _ _ hs => Node.setsFrom_call.mpr hs.setsFrom
  | .range _ _ hs hn => by
    obtain ⟨start, stop, step, hbounds, rfl, -⟩ := returns_rangeOf hn
    refine setsFrom_rangeBlock hs.grows.nextIndex fun v hv => ?_
    rcases hbounds.mem hv with hv | ⟨i, rfl⟩
    · exact hs.setsFrom v hv
    · exact setsFrom_i32
  | .len _ _ ha _ => Node.setsFrom_arrayLen.mpr ha.setsFrom
  | .subscript _ ha _ hi hc => by
    have hindex := (returns_coerce hc).2.setsFrom (hi.setsFrom.mono ha.grows.nextIndex)
    exact Node.setsFrom_arrayGet.mpr ⟨ha.setsFrom, hindex⟩
  | .list _ hs => Node.setsFrom_arrayNewFixed.mpr hs.setsFrom

lemma LowersArgs.setsFrom {tys : List Ty} {args : List Expr} {b b' : Body} {ns : List Node} :
    LowersArgs env tys args b ns b' → ∀ n ∈ ns, n.SetsFrom b.frame.nextIndex
  | .nil => by simp
  | .cons hv hc hs =>
    List.forall_mem_cons.mpr ⟨(returns_coerce hc).2.setsFrom hv.setsFrom, fun n hn =>
      (hs.setsFrom n hn).mono (hv.grows.trans (returns_coerce hc).1.grows).nextIndex⟩

lemma LowersEach.setsFrom {ty : Ty} {es : List Expr} {b b' : Body} {ns : List Node} :
    LowersEach env ty es b ns b' → ∀ n ∈ ns, n.SetsFrom b.frame.nextIndex
  | .nil => by simp
  | .cons hv hc hs =>
    List.forall_mem_cons.mpr ⟨(returns_coerce hc).2.setsFrom hv.setsFrom, fun n hn =>
      (hs.setsFrom n hn).mono (hv.grows.trans (returns_coerce hc).1.grows).nextIndex⟩

end

/-- Code that is well typed so far names slots that the function has so far. -/
lemma namesBelow_of_typed (h : n.Typed (b.scope env)) : n.NamesBelow b.frame.nextIndex := by
  have hnames := h.namesBelow
  rwa [Body.scope, Frame.slotTypes, List.length_append] at hnames

end Lowering

end AnnotatedWasm
