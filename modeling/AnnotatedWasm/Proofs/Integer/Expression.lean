import AnnotatedWasm.Proofs.Integer.Reference
import AnnotatedWasm.Proofs.Ir.Running
import AnnotatedWasm.Proofs.Lowering.ExprForms

/-!
Lowered integer expressions compute their meaning.

`Meets` compares a run of lowered code with a meaning: both give the same word and leave the same
shared state, or there is no meaning and the code traps. It is proved for operands first, then for
operators on them, and for whole expressions by recursion on how they are lowered.
-/

namespace AnnotatedWasm.Lowering

open Ir (Node)
open Syntax (Expr)

variable {W : Type} {floats : Floats} {call : Callees W} {fuel : Nat} {f : Frame}
  {st st' : Store Literal W}

/-! ### Code that has a meaning -/

/-- The code gives this word and leaves this shared state, in which globals have values of their
types; or it traps where there is no word. -/
def Meets (M : Machine Literal W) (fuel : Nat) (f : Frame) (n : Node) (st : Store Literal W) :
    Option (Word × Shared Literal W) → Prop
  | some (x, sh) => Returns (n.eval M fuel) st (some (.num x.literal)) (st.withShared sh) ∧
      n.ty = .num (.int x.width) ∧ sh.Fits f
  | none => Fails (n.eval M fuel) st .trapped

section

variable {n a b : Node} {r : Option (Word × Shared Literal W)}

lemma Meets.fits {M : Machine Literal W} (h : Meets M fuel f n st r) (hst : st.Fits f) {x : Word}
    {sh : Shared Literal W} (hr : r = some (x, sh)) : (st.withShared sh).Fits f := by
  subst hr
  exact ⟨h.2.2, hst.locals⟩

/-- A word converted to another width keeps its value as far as there is room. -/
lemma returns_convert_word {x : Word}
    (h : Returns (n.eval (machine floats call) fuel) st (some (.num x.literal)) st')
    (hty : n.ty = .num (.int x.width)) (w : Width) :
    Returns ((convert n (.int w)).eval (machine floats call) fuel) st
      (some (.num (Word.ofInt w x.value).literal)) st' := by
  rcases hc : Ir.UnaryOp.conversion? (.int x.width) (.int w) with _ | op
  · obtain rfl : x.width = w := by simpa using (Ir.UnaryOp.conversion?_eq_none_iff _ _).mp hc
    rwa [convert_self hty, Word.ofInt_value]
  · rw [convert_unary hty hc]
    exact returns_evalUnary h (unary_conversion hc)

/-- The word in another width. -/
def resized (w : Width) (r : Option (Word × Shared Literal W)) :
    Option (Word × Shared Literal W) :=
  r.map fun (x, sh) => (.ofInt w x.value, sh)

lemma Meets.convert (h : Meets (machine floats call) fuel f n st r) {v : Width}
    (hty : n.ty = .num (.int v)) (w : Width) :
    Meets (machine floats call) fuel f (convert n (.int w)) st (resized w r) := by
  rcases r with _ | ⟨x, sh⟩
  · rcases hc : Ir.UnaryOp.conversion? (.int v) (.int w) with _ | op
    · rwa [convert_self (by rw [hty, (Ir.UnaryOp.conversion?_eq_none_iff _ _).mp hc])]
    · rw [convert_unary hty hc]
      exact fails_evalUnary h
  · obtain ⟨hret, hx, hsh⟩ := h
    exact ⟨returns_convert_word hret hx w, ty_convert hty, hsh⟩

lemma Meets.adapts (h : Meets (machine floats call) fuel f n st r) {v w : Width}
    (hty : n.ty = .num (.int v)) {m : Node} (ha : Adapts n (.num (.int w)) m) :
    Meets (machine floats call) fuel f m st (resized w r) := by
  cases ha with
  | number _ => exact h.convert hty w
  | same hs =>
    have hc := h.convert hty w
    rwa [convert_self hs] at hc

/-- An operation on two operands that have a meaning. -/
lemma Meets.operation {M : Machine Literal W} {o : Ir.BinaryOp} {g : Word → Word → Option Word}
    {s : Shared Literal W → Option (Word × Shared Literal W)}
    (ha : Meets M fuel f a st r)
    (hb : ∀ x sh, r = some (x, sh) → Meets M fuel f b (st.withShared sh) (s sh))
    (ho : ∀ x y, a.ty = .num (.int x.width) → b.ty = .num (.int y.width) →
      M.binary o x.literal y.literal = (g x y).map Word.literal ∧
        ∀ z ∈ g x y, o.resultKind = .int z.width) :
    Meets M fuel f (.binary o a b) st
      (do let (x, sh) ← r; let (y, sh) ← s sh; return (← g x y, sh)) := by
  rcases r with _ | ⟨x, sh₁⟩
  · exact fails_evalBinary (.inl ha)
  obtain ⟨hx, hxt, -⟩ := ha
  specialize hb x sh₁ rfl
  simp only [Option.bind_eq_bind, Option.bind_some]
  rcases hs : s sh₁ with _ | ⟨y, sh₂⟩
  · rw [hs] at hb
    exact fails_evalBinary (.inr ⟨_, _, hx, .inl hb⟩)
  rw [hs] at hb
  obtain ⟨hy, hyt, hsh⟩ := hb
  obtain ⟨hz, hk⟩ := ho x y hxt hyt
  simp only [Option.bind_some]
  rcases hg : g x y with _ | z
  · rw [hg] at hz
    exact fails_evalBinary (.inr ⟨_, _, hx, .inr ⟨_, _, hy, hz⟩⟩)
  · rw [hg] at hz
    refine ⟨returns_evalBinary hx hy hz, ?_, hsh⟩
    rw [Node.ty, hk z hg]

/-- An operation on two operands in the wider of their widths. -/
lemma Meets.unified {o : Ir.BinaryOp} {g : Word → Word → Option Word} {i j : Width}
    {s : Shared Literal W → Option (Word × Shared Literal W)}
    (ha : Meets (machine floats call) fuel f a st r)
    (hb : ∀ x sh, r = some (x, sh) → Meets (machine floats call) fuel f b (st.withShared sh) (s sh))
    (hi : a.ty = .num (.int i)) (hj : b.ty = .num (.int j))
    (ho : ∀ x y : Word, x.width = i.max j → y.width = i.max j →
      (machine floats call).binary o x.literal y.literal = (g x y).map Word.literal ∧
        ∀ z ∈ g x y, o.resultKind = .int z.width)
    (hg : ∀ x y : Word, g (.ofInt (x.width.max y.width) x.value)
      (.ofInt (x.width.max y.width) y.value) = g x y) :
    Meets (machine floats call) fuel f
      (.binary o (Lowering.convert a (.int (i.max j))) (Lowering.convert b (.int (i.max j)))) st
      (do let (x, sh) ← r; let (y, sh) ← s sh; return (← g x y, sh)) := by
  have h := (ha.convert hi (i.max j)).operation (o := o) (g := g)
    (s := fun sh => resized (i.max j) (s sh))
    (fun x sh hx => by
      obtain ⟨⟨y, sh'⟩, hy, he⟩ := Option.map_eq_some_iff.mp hx
      cases he
      exact (hb y sh hy).convert hj (i.max j))
    (fun x y hx hy => ho x y (by simpa [ty_convert hi] using hx.symm)
      (by simpa [ty_convert hj] using hy.symm))
  rcases r with _ | ⟨x, sh₁⟩
  · exact h
  specialize hb x sh₁ rfl
  rcases hs : s sh₁ with _ | ⟨y, sh₂⟩
  · simpa [resized, hs] using h
  rw [hs] at hb
  obtain rfl : i = x.width := by simpa [hi] using ha.2.1
  obtain rfl : j = y.width := by simpa [hj] using hb.2.1
  simpa [resized, hs, hg] using h

end

/-! ### Operators -/

lemma max_self (w : Width) : w.max w = w := by cases w <;> rfl

/-- Operands keep their values in the wider width, and with them an operator its result. -/
lemma arith?_unified (op : Syntax.BinOp) (x y : Word) :
    Word.arith? op (.ofInt (x.width.max y.width) x.value) (.ofInt (x.width.max y.width) y.value) =
      x.arith? op y := by
  simp only [Word.arith?, Word.width_ofInt, max_self,
    Word.value_ofInt_value (Word.bits_le_max_left _ _),
    Word.value_ofInt_value (Word.bits_le_max_right _ _)]

lemma compare?_unified (op : Syntax.CmpOp) (x y : Word) :
    Word.compare? op (.ofInt (x.width.max y.width) x.value) (.ofInt (x.width.max y.width) y.value) =
      x.compare? op y := by
  simp only [Word.compare?, Word.value_ofInt_value (Word.bits_le_max_left _ _),
    Word.value_ofInt_value (Word.bits_le_max_right _ _)]

/-- The operation for an operator on integers of one width. -/
def operation? (w : Width) : Syntax.BinOp → Option Ir.BinaryOp
  | .add => some (.arith .add (.int w))
  | .sub => some (.arith .sub (.int w))
  | .mul => some (.arith .mul (.int w))
  | .floorDiv => some (.arith .div (.int w))
  | .mod => some (.rem w)
  | _ => none

lemma resultKind_operation {w : Width} {op : Syntax.BinOp} {o : Ir.BinaryOp}
    (h : operation? w op = some o) : o.resultKind = .int w := by
  cases op <;> simp [operation?] at h <;> subst h <;> rfl

lemma width_arith? {op : Syntax.BinOp} {x y z : Word} (h : x.arith? op y = some z) :
    z.width = x.width.max y.width := by
  cases op <;> simp [Word.arith?] at h
  case floorDiv => rw [← h.2, Word.width_ofInt]
  case mod => rw [← h.2, Word.width_ofInt]
  all_goals rw [← h, Word.width_ofInt]

/-- The operation for an operator computes it. -/
lemma binary_operation {w : Width} {op : Syntax.BinOp} {o : Ir.BinaryOp}
    (h : operation? w op = some o) (x y : Word) (hx : x.width = w) (hy : y.width = w) :
    (machine floats call).binary o x.literal y.literal = (x.arith? op y).map Word.literal := by
  obtain ⟨_, a⟩ := x
  obtain ⟨_, b⟩ := y
  obtain rfl := hx
  obtain rfl := hy
  simp only [Word.literal, Word.arith?, max_self, Word.value]
  cases op <;> simp [operation?] at h <;> subst h
  case add => rw [binary_arith, arith_add]; rfl
  case sub => rw [binary_arith, arith_sub]; rfl
  case mul => rw [binary_arith, arith_mul]; rfl
  case floorDiv => rw [binary_arith, arith_div _ _ (Width.bits_pos _), Word.least]; split <;> rfl
  case mod => rw [binary_rem, rem_eq]; split <;> rfl

lemma Combines.operation {env : Env} (ht : env.options.floorDivision = .truncate)
    {op : Syntax.BinOp} (hop : op ∈ [Syntax.BinOp.add, .sub, .mul, .floorDiv, .mod]) {w : Width}
    {l r n : Node} {b b' : Body} (h : Combines env op (.int w) l r b n b') :
    ∃ o, operation? w op = some o ∧ n = .binary o l r := by
  cases h
  case div => simp at hop
  case floored hf => rw [ht] at hf; cases hf
  all_goals exact ⟨_, rfl, rfl⟩

lemma Combines.ty_int {env : Env} {op : Syntax.BinOp}
    (hop : op ∈ [Syntax.BinOp.add, .sub, .mul, .floorDiv, .mod]) {w : Width} {l r n : Node}
    {b b' : Body} (h : Combines env op (.int w) l r b n b') : n.ty = .num (.int w) := by
  cases h
  case div => simp at hop
  all_goals rfl

lemma compare?_eq {op : Syntax.CmpOp} {c : Ir.Comparison} (h : comparison? op = some c)
    (x y : Word) :
    x.compare? op y = some (.ofInt .w32 (if c.holds x.value y.value then 1 else 0)) := by
  cases op <;> simp [comparison?] at h <;> subst h <;> rfl

/-- A comparison of integers of one width. -/
lemma binary_compare_words {op : Syntax.CmpOp} {c : Ir.Comparison} (hc : comparison? op = some c)
    {w : Width} (x y : Word) (hx : x.width = w) (hy : y.width = w) :
    (machine floats call).binary (.compare c (.int w)) x.literal y.literal =
      (x.compare? op y).map Word.literal := by
  obtain ⟨_, a⟩ := x
  obtain ⟨_, b⟩ := y
  obtain rfl := hx
  obtain rfl := hy
  rw [compare?_eq hc]
  exact binary_compare _ a b c

/-- A negated integer is its product with minus one, and `not` its difference from zero. -/
lemma sign?_eq {x : Word} :
    x.sign? .neg = Word.arith? .mul (.ofInt x.width (-1)) x ∧
      x.sign? .not = Word.arith? .sub (.ofInt x.width 0) x := by
  have hone (w : Width) : (Word.ofInt w (-1)).value = -1 := by cases w <;> rfl
  have hzero (w : Width) : (Word.ofInt w 0).value = 0 := by cases w <;> rfl
  simp only [Word.sign?, Word.arith?, Word.width_ofInt, max_self, hone, hzero, neg_mul, one_mul,
    and_self]

/-- An operation with a constant as its first operand. -/
lemma Meets.constOperation {op : Syntax.BinOp} {o : Ir.BinaryOp} {w : Width} {v : Node} {i : Int}
    {r : Option (Word × Shared Literal W)} (hv : Meets (machine floats call) fuel f v st r)
    (hty : v.ty = .num (.int w)) (hst : st.toShared.Fits f) (ho : operation? w op = some o) :
    Meets (machine floats call) fuel f (.binary o (.const (.ofInt (.int w) i)) v) st
      (do let (x, sh) ← r; return (← Word.arith? op (.ofInt w i) x, sh)) := by
  have hconst : Meets (machine floats call) fuel f (.const (.ofInt (.int w) i)) st
      (some (.ofInt w i, st.toShared)) :=
    ⟨rfl, rfl, hst⟩
  refine hconst.operation (g := Word.arith? op) (s := fun _ => r)
    (fun _ sh he => by cases he; exact hv) fun x y hx hy => ?_
  obtain rfl : w = x.width := by simpa [Node.ty, Literal.kind_ofInt] using hx
  have hxy : x.width = y.width := by simpa [hty] using hy
  refine ⟨binary_operation ho x y rfl hxy.symm, fun z hz => ?_⟩
  rw [resultKind_operation ho, width_arith? hz, ← hxy, max_self]

lemma Signs.meets {op : Syntax.UnaryOp} {w : Width} {v n : Node} (h : Signs op (.int w) v n)
    (hty : v.ty = .num (.int w)) {r : Option (Word × Shared Literal W)} (hst : st.toShared.Fits f)
    (hv : Meets (machine floats call) fuel f v st r) :
    Meets (machine floats call) fuel f n st (do let (x, sh) ← r; return (← x.sign? op, sh)) := by
  have hwidth : ∀ x sh, r = some (x, sh) → x.width = w := by
    rintro x sh rfl
    simpa [hty] using hv.2.1.symm
  cases h with
  | pos => rcases r with _ | ⟨x, sh⟩ <;> exact hv
  | negInt =>
    have h := hv.constOperation hty hst (i := -1) (rfl : operation? w .mul = _)
    rcases r with _ | ⟨x, sh⟩
    · exact h
    · simpa [sign?_eq.1, hwidth x sh rfl] using h
  | not =>
    have h := hv.constOperation hty hst (i := 0) (rfl : operation? w .sub = _)
    rcases r with _ | ⟨x, sh⟩
    · exact h
    · simpa [sign?_eq.2, hwidth x sh rfl, zero, Literal.zero] using h

/-! ### Whole expressions -/

/-- In both frames a name stands for the same. -/
structure SameNames (f g : Frame) : Prop where
  slot? : ∀ id, g.slot? id = f.slot? id
  global? : ∀ id, g.global? id = f.global? id

lemma SameNames.refl (f : Frame) : SameNames f f := ⟨fun _ => rfl, fun _ => rfl⟩

lemma SameNames.grows {b b' : Body} (h : SameNames f b.frame) (hg : b.Grows b') :
    SameNames f b'.frame :=
  ⟨fun id => (hg.slot? id).trans (h.slot? id), fun id => (hg.global? id).trans (h.global? id)⟩

lemma word_of_fits {v : Value Literal} {w : Width} (h : v.Fits (.num (.int w))) :
    ∃ x : Word, x.width = w ∧ v = .num x.literal ∧ v.word? = some x := by
  obtain ⟨⟨_, a⟩ | _, rfl, hk⟩ := h _ rfl
  · cases hk
    exact ⟨⟨_, a⟩, rfl, rfl, rfl⟩
  · cases hk

variable {env : Env}

/-- An integer expression is lowered to code of an integer type. -/
lemma LowersExpr.ty_int {hint : Option Ty} {e : Expr} {b b' : Body} {n : Node} :
    LowersExpr env hint e b n b' → IntExpr f env.signatures e → SameNames f b.frame →
      ∃ w, n.ty = .num (.int w)
  | .slot hs, h, hn => by
    cases h with
    | name hr =>
      rw [hn.slot?] at hs
      rw [recordedType?, hs] at hr
      exact ⟨_, Option.some.inj hr⟩
  | .global hs hg, h, hn => by
    cases h with
    | name hr =>
      rw [hn.slot?] at hs
      rw [hn.global?] at hg
      rw [recordedType?, hs, hg] at hr
      exact ⟨_, Option.some.inj hr⟩
  | .number hv, h, _ => by
    cases h with
    | @number _ _ v hv' =>
      cases hv.symm.trans hv'
      by_cases hlt : v < Width.w32.signBit
      · exact ⟨.w32, by rw [Numeral.constant, if_pos hlt]; rfl⟩
      · exact ⟨.w64, by rw [Numeral.constant, if_neg hlt]; rfl⟩
  | .bool, _, _ => ⟨.w32, rfl⟩
  | .unary he hs, h, hn => by
    cases h with
    | unary hop hi =>
      obtain ⟨w, hw⟩ := he.ty_int hi hn
      obtain ⟨-, k, hk, hs⟩ := returns_unary hs
      obtain rfl : .int w = k := by simpa [hw] using hk
      cases hs with
      | pos => exact ⟨w, hw⟩
      | negInt => exact ⟨w, rfl⟩
      | not => exact ⟨w, rfl⟩
  | .binary hl hr hc, h, hn => by
    cases h with
    | binary hop hi hj =>
      obtain ⟨i, hti⟩ := hl.ty_int hi hn
      obtain ⟨j, htj⟩ := hr.ty_int hj (hn.grows hl.grows)
      obtain ⟨i', j', b₃, hi', hj', -, hc⟩ := returns_binary hc
      obtain rfl : .int i = i' := by simpa [hti] using hi'
      obtain rfl : .int j = j' := by simpa [htj] using hj'
      exact ⟨i.max j, Combines.ty_int hop hc⟩
  | .compare _ _ _ hu, _, _ => ⟨.w32, rfl⟩
  | .call hsig _ _, h, _ => by
    cases h with
    | call hsig' _ hret _ =>
      cases hsig.symm.trans hsig'
      exact ⟨_, hret⟩
  | .range hsig _ _ _, h, _ | .len hsig _ _ _, h, _ => by
    cases h with
    | call hsig' _ _ _ => rw [hsig] at hsig'; cases hsig'
  | .string _, h, _ | .ifElse _ _ _ _ _, h, _ | .subscript _ _ _ _ _, h, _ | .list _ _, h, _ =>
    nomatch h

/-- The arguments of a call are these words, of the types of the parameters. -/
def MeetsArgs (M : Machine Literal W) (fuel : Nat) (f : Frame) (tys : List Ty) (ns : List Node)
    (st : Store Literal W) : Option (List Word × Shared Literal W) → Prop
  | some (xs, sh) =>
    Returns (Node.evalArgs M fuel ns) st (xs.map fun x => .num x.literal) (st.withShared sh) ∧
      List.Forall₂ Value.Fits (xs.map fun x => .num x.literal) tys ∧ sh.Fits f
  | none => Fails (Node.evalArgs M fuel ns) st .trapped

lemma MeetsArgs.cons {M : Machine Literal W} {w : Width} {tys : List Ty} {n : Node} {ns : List Node}
    {r : Option (Word × Shared Literal W)}
    {s : Shared Literal W → Option (List Word × Shared Literal W)}
    (hn : Meets M fuel f n st r) (hty : n.ty = .num (.int w))
    (hs : ∀ x sh, r = some (x, sh) → MeetsArgs M fuel f tys ns (st.withShared sh) (s sh)) :
    MeetsArgs M fuel f (.num (.int w) :: tys) (n :: ns) st
      (do let (x, sh) ← r; let (xs, sh) ← s sh; return (x :: xs, sh)) := by
  rcases r with _ | ⟨x, sh₁⟩
  · exact Fails.bind_left hn
  obtain ⟨hx, hxt, -⟩ := hn
  specialize hs x sh₁ rfl
  simp only [Option.bind_eq_bind, Option.bind_some]
  rcases hr : s sh₁ with _ | ⟨xs, sh₂⟩
  · rw [hr] at hs
    exact Fails.bind_right hx (.bind_right (returns_orTrap _ _) hs.bind_left)
  · rw [hr] at hs
    obtain ⟨hret, hfit, hsh⟩ := hs
    refine ⟨hx.bind ((returns_orTrap _ _).bind (hret.bind rfl)), .cons ?_ hfit, hsh⟩
    rw [← hty, hxt]
    rintro _ ⟨⟩
    exact ⟨x.literal, rfl, rfl⟩

/-- A call of a function whose arguments have a meaning. -/
lemma MeetsArgs.calls {name : String} {sig : FuncSig} {w : Width} {ns : List Node}
    {r : Option (List Word × Shared Literal W)} {sigs : Signatures} (hcall : call.Fit f sigs)
    (hsig : sigs.get? name = some sig) (hret : sig.returns = .num (.int w))
    (hs : MeetsArgs (machine floats call) fuel f sig.params ns st r) :
    Meets (machine floats call) fuel f (.call name ns sig.returns) st
      (do
        let (xs, sh) ← r
        let (v, sh) ← call name (xs.map fun x => .num x.literal) sh
        return (← v >>= Value.word?, sh)) := by
  rcases r with _ | ⟨xs, sh₁⟩
  · exact Fails.bind_left hs
  obtain ⟨hxs, hfit, hsh⟩ := hs
  have hget : Returns (get : Eval Literal W _) (st.withShared sh₁) (st.withShared sh₁)
      (st.withShared sh₁) := Returns.get_iff.mpr ⟨rfl, rfl⟩
  simp only [Option.bind_eq_bind, Option.bind_some]
  rcases hc : call name (xs.map fun x => .num x.literal) sh₁ with _ | ⟨v, sh₂⟩
  · rw [hc]
    refine Fails.bind_right hxs (.bind_right hget (.bind_left ?_))
    have hm : (machine floats call).call name (xs.map fun x => .num x.literal) sh₁ = none := hc
    exact hm ▸ fails_orTrap _
  · obtain ⟨hsh₂, hv⟩ := hcall name sig _ _ _ _ hsig hfit hsh hc
    obtain ⟨v, rfl, hvt⟩ := hv (by rw [hret]; nofun)
    rw [hret] at hvt
    obtain ⟨x, rfl, rfl, hx⟩ := word_of_fits hvt
    simp only [hc, Option.bind_some, hx]
    have hm : (machine floats call).call name (xs.map fun x => .num x.literal) sh₁ =
        some (some (.num x.literal), sh₂) := hc
    exact ⟨hxs.bind (hget.bind ((hm ▸ returns_orTrap _ _).bind rfl)), hret, hsh₂⟩

lemma literal_ofNumeral (v : Int) : (Numeral.int v).constant = (Word.ofNumeral v).literal := by
  have h : ((Width.w32.signBit : Nat) : Int) = 2 ^ 31 := by decide
  simp only [Numeral.constant, Word.ofNumeral, h]
  split <;> rfl

mutual

/-- **Expressions**: the lowered code of an integer expression computes its meaning. -/
lemma LowersExpr.meets {hint : Option Ty} {e : Expr} {b b' : Body} {n : Node}
    {st : Store Literal W} (ht : env.options.floorDivision = .truncate)
    (hcall : call.Fit f env.signatures) :
    LowersExpr env hint e b n b' → IntExpr f env.signatures e → SameNames f b.frame → st.Fits f →
      Meets (machine floats call) fuel f n st
        (e.meaning f env.signatures call st.locals st.toShared)
  | .slot hs, h, hn, hst => by
    cases h with
    | name hr =>
      rw [hn.slot?] at hs
      rw [recordedType?, hs] at hr
      have hty := Option.some.inj hr
      have hfit := hst.locals _ _ hs
      simp only at hty
      rw [hty] at hfit
      obtain ⟨x, rfl, hv, hx⟩ := word_of_fits hfit
      simp only [Expr.meaning, hs, hx]
      refine ⟨?_, hty, hst.shared⟩
      exact returns_localGet hv
  | .global hs hg, h, hn, hst => by
    cases h with
    | name hr =>
      rw [hn.slot?] at hs
      rw [hn.global?] at hg
      rw [recordedType?, hs, hg] at hr
      have hty := Option.some.inj hr
      have hfit := hst.shared _ _ hg
      rw [hty] at hfit
      obtain ⟨x, rfl, hv, hx⟩ := word_of_fits hfit
      simp only [Expr.meaning, hs, hx]
      refine ⟨?_, hty, hst.shared⟩
      rw [← hv]
      rfl
  | .number hv, h, _, hst => by
    cases h with
    | number hv' =>
      cases hv.symm.trans hv'
      simp only [Expr.meaning, hv']
      rw [literal_ofNumeral]
      exact ⟨rfl, rfl, hst.shared⟩
  | .bool, _, _, hst => by
    rw [Expr.meaning]
    exact ⟨rfl, rfl, hst.shared⟩
  | .unary he hs, h, hn, hst => by
    cases h with
    | unary hop hi =>
      obtain ⟨w, hw⟩ := he.ty_int hi hn
      obtain ⟨-, k, hk, hs⟩ := returns_unary hs
      obtain rfl : .int w = k := by simpa [hw] using hk
      rw [Expr.meaning]
      exact hs.meets hw hst.shared (he.meets ht hcall hi hn hst)
  | .binary hl hr hc, h, hn, hst => by
    cases h with
    | binary hop hi hj =>
      have hn₁ := hn.grows hl.grows
      obtain ⟨i, hti⟩ := hl.ty_int hi hn
      obtain ⟨j, htj⟩ := hr.ty_int hj hn₁
      obtain ⟨i', j', b₃, hi', hj', -, hc⟩ := returns_binary hc
      obtain rfl : .int i = i' := by simpa [hti] using hi'
      obtain rfl : .int j = j' := by simpa [htj] using hj'
      obtain ⟨o, ho, rfl⟩ := Combines.operation ht hop hc
      have hl := hl.meets ht hcall hi hn hst
      rw [Expr.meaning]
      refine hl.unified ?_ hti htj (fun x y hx hy => ?_) (arith?_unified _)
      · exact fun x sh hx => hr.meets ht hcall hj hn₁ (hl.fits hst hx)
      · refine ⟨binary_operation ho x y hx hy, fun z hz => ?_⟩
        rw [resultKind_operation ho, width_arith? hz, hx, hy, max_self]
  | .compare hc hl hr hu, h, hn, hst => by
    cases h with
    | compare hi hj =>
      have hn₁ := hn.grows hl.grows
      obtain ⟨i, hti⟩ := hl.ty_int hi hn
      obtain ⟨j, htj⟩ := hr.ty_int hj hn₁
      obtain ⟨-, i', j', hi', hj', rfl, rfl, rfl⟩ := returns_unifyOperands hu
      obtain rfl : .int i = i' := by simpa [hti] using hi'
      obtain rfl : .int j = j' := by simpa [htj] using hj'
      have hl := hl.meets ht hcall hi hn hst
      rw [Expr.meaning]
      refine hl.unified ?_ hti htj (fun x y hx hy => ?_) (compare?_unified _)
      · exact fun x sh hx => hr.meets ht hcall hj hn₁ (hl.fits hst hx)
      · refine ⟨binary_compare_words hc x y hx hy, fun z hz => ?_⟩
        rw [compare?_eq hc] at hz
        cases hz
        rfl
  | .call hsig _ hargs, h, hn, hst => by
    cases h with
    | call hsig' hparams hret hi =>
      cases hsig.symm.trans hsig'
      rw [Expr.meaning]
      simp only [hsig, Option.bind_eq_bind, Option.bind_some]
      exact (hargs.meets ht hcall hparams hi hn hst).calls hcall hsig hret
  | .range hsig _ _ _, h, _, _ | .len hsig _ _ _, h, _, _ => by
    cases h with
    | call hsig' _ _ _ => rw [hsig] at hsig'; cases hsig'
  | .string _, h, _, _ | .ifElse _ _ _ _ _, h, _, _ | .subscript _ _ _ _ _, h, _, _
  | .list _ _, h, _, _ => nomatch h

lemma LowersArgs.meets {tys : List Ty} {args : List Expr} {b b' : Body} {ns : List Node}
    {st : Store Literal W} (ht : env.options.floorDivision = .truncate)
    (hcall : call.Fit f env.signatures) :
    LowersArgs env tys args b ns b' → (∀ t ∈ tys, ∃ w, t = .num (.int w)) →
      (∀ a ∈ args, IntExpr f env.signatures a) → SameNames f b.frame → st.Fits f →
      MeetsArgs (machine floats call) fuel f tys ns st
        (Expr.meanings f env.signatures call st.locals tys args st.toShared)
  | .nil, _, _, _, hst => ⟨rfl, .nil, hst.shared⟩
  | .cons hv hc hs, hparams, hi, hn, hst => by
    obtain ⟨⟨w, rfl⟩, htys⟩ := List.forall_mem_cons.mp hparams
    obtain ⟨ha, hi⟩ := List.forall_mem_cons.mp hi
    obtain ⟨v, hvt⟩ := hv.ty_int ha hn
    obtain ⟨hg, hadapt⟩ := returns_coerce hc
    have hm := hv.meets ht hcall ha hn hst
    have h := MeetsArgs.cons (hm.adapts hvt hadapt) hadapt.ty
      (s := fun sh => Expr.meanings f env.signatures call st.locals _ _ sh) fun x sh hx => by
        obtain ⟨⟨y, sh'⟩, hy, he⟩ := Option.map_eq_some_iff.mp hx
        cases he
        exact hs.meets ht hcall htys hi ((hn.grows hv.grows).grows hg.grows) (hm.fits hst hy)
    rw [Expr.meanings]
    rcases hr : Expr.meaning f env.signatures call st.locals _ st.toShared with _ | ⟨x, sh⟩
    · rwa [hr] at h
    · rwa [hr] at h

end

end AnnotatedWasm.Lowering
