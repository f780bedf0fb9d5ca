import AnnotatedWasm.Proofs.Lowering.Steps

/-!
How the lowering of an expression succeeds, as a derivation: one rule for each form of
expression that has a lowered form. Every successful run has such a derivation
(`lowersExpr_of_returns`), so what holds of all lowered expressions is proved by recursion on
derivations. A derivation is in turn that of a run (`LowersExpr.returns`).
-/

namespace AnnotatedWasm.Lowering

open Ir (Node)
open Syntax (Expr)

mutual

/-- With this hint the expression is lowered to this node, from one state to another. -/
inductive LowersExpr (env : Env) : Option Ty → Expr → Body → Node → Body → Prop
  | slot {hint span id slot b} : b.frame.slot? id = some slot →
      LowersExpr env hint (.name span id) b (slotGet slot) b
  | global {hint span id ty b} : b.frame.slot? id = none → b.frame.global? id = some ty →
      LowersExpr env hint (.name span id) b (.globalGet id ty) b
  | number {hint span text v b} : Numeral.ofText? text = some v →
      LowersExpr env hint (.number span text) b (.const v.constant) b
  | bool {hint span value b} :
      LowersExpr env hint (.bool span value) b (.i32 (if value then 1 else 0)) b
  | string {hint span value b} : env.options.missing? .str = none →
      LowersExpr env hint (.string span value) b (.string value) b
  | unary {hint span op e b v b₁ n b'} : LowersExpr env none e b v b₁ →
      Returns (unary op v span) b₁ n b' → LowersExpr env hint (.unary span op e) b n b'
  | binary {hint span op left right b l b₁ r b₂ n b'} : LowersExpr env none left b l b₁ →
      LowersExpr env none right b₁ r b₂ → Returns (binary env op l r span) b₂ n b' →
      LowersExpr env hint (.binary span op left right) b n b'
  | compare {hint span left op right c b l b₁ r b₂ l' r' k b'} : comparison? op = some c →
      LowersExpr env none left b l b₁ → LowersExpr env none right b₁ r b₂ →
      Returns (unifyOperands l r span) b₂ (l', r', k) b' →
      LowersExpr env hint (.compare span left [(op, right)]) b (.binary (.compare c k) l' r') b'
  | ifElse {hint span test body orelse b t b₁ c b₂ x b₃ y b₄ n b'} :
      LowersExpr env none test b t b₁ → Returns (truth t test.span) b₁ c b₂ →
      LowersExpr env none body b₂ x b₃ → LowersExpr env none orelse b₃ y b₄ →
      Returns (choose c x y span) b₄ n b' →
      LowersExpr env hint (.ifElse span test body orelse) b n b'
  | call {hint span s name args sig b ns b'} : env.signatures.get? name = some sig →
      sig.params.length = args.length → LowersArgs env sig.params args b ns b' →
      LowersExpr env hint (.call span (.name s name) args []) b (.call name ns sig.returns) b'
  | range {span s s₁ s₂ k bounds b ns b₁ n b'} : env.signatures.get? "list" = none →
      env.options.gc = true → LowersEach env .i32 bounds b ns b₁ →
      Returns (rangeOf k ns span) b₁ n b' →
      LowersExpr env (some (.array k))
        (.call span (.name s "list") [.call s₁ (.name s₂ "range") bounds []] []) b n b'
  | len {hint span s arg k b a b'} : env.signatures.get? "len" = none →
      env.options.gc = true → LowersExpr env none arg b a b' → a.ty = .array k →
      LowersExpr env hint (.call span (.name s "len") [arg] []) b (.arrayLen a) b'
  | subscript {hint span value index k b a b₁ i b₂ i' b'} : env.options.gc = true →
      LowersExpr env none value b a b₁ → a.ty = .array k → LowersExpr env none index b₁ i b₂ →
      Returns (coerce i .i32 index.span) b₂ i' b' →
      LowersExpr env hint (.subscript span value index) b (.arrayGet k a i') b'
  | list {span elems k b ns b'} : env.options.missing? (.array k) = none →
      LowersEach env (.num k) elems b ns b' →
      LowersExpr env (some (.array k)) (.list span elems) b (.arrayNewFixed k ns) b'

/-- Arguments for parameters of these types. -/
inductive LowersArgs (env : Env) : List Ty → List Expr → Body → List Node → Body → Prop
  | nil {b} : LowersArgs env [] [] b [] b
  | cons {ty tys arg args b v b₁ n b₂ ns b'} : LowersExpr env (some ty) arg b v b₁ →
      Returns (coerce v ty arg.span) b₁ n b₂ → LowersArgs env tys args b₂ ns b' →
      LowersArgs env (ty :: tys) (arg :: args) b (n :: ns) b'

/-- Expressions that all get one type. -/
inductive LowersEach (env : Env) : Ty → List Expr → Body → List Node → Body → Prop
  | nil {ty b} : LowersEach env ty [] b [] b
  | cons {ty e es b v b₁ n b₂ ns b'} : LowersExpr env none e b v b₁ →
      Returns (coerce v ty e.span) b₁ n b₂ → LowersEach env ty es b₂ ns b' →
      LowersEach env ty (e :: es) b (n :: ns) b'

end

variable {env : Env} {b b' : Body} {n : Node} {span : Span}

lemma returns_requireOperator {op : Syntax.BinOp} {u : Unit}
    (h : Returns (requireOperator op span) b u b') : b' = b := by
  unfold requireOperator at h
  split at h <;> simp at h <;> exact h

lemma returns_lowerName {hint : Option Ty} {id : String} (h : Returns (lowerName id span) b n b') :
    LowersExpr env hint (.name span id) b n b' := by
  simp only [lowerName, Returns.bind_iff, returns_frame] at h
  obtain ⟨f, b₁, ⟨rfl, rfl⟩, h⟩ := h
  split at h
  · next hs => simp at h; obtain ⟨rfl, rfl⟩ := h; exact .slot hs
  · next hs hg => simp at h; obtain ⟨rfl, rfl⟩ := h; exact .global hs hg
  · simp at h

/-- A call that is compiled names what it calls and has no keyword arguments. -/
lemma returns_calleeName {func : Expr} {args : List Expr} {keywords : List (String × Expr)}
    {name : String} (h : Returns (calleeName func args keywords) b name b') :
    keywords = [] ∧ (∃ s, func = .name s name) ∧ b' = b := by
  unfold calleeName at h
  rcases keywords with _ | ⟨⟨key, value⟩, rest⟩
  · refine ⟨rfl, ?_⟩
    simp only at h
    split at h
    · simp at h
    · split at h
      · next hf =>
        simp at h
        obtain ⟨rfl, rfl⟩ := h
        cases func <;> simp [Expr.name?] at hf
        exact ⟨⟨_, by rw [hf]⟩, rfl⟩
      · simp at h
  · simp at h

lemma returns_hintedElement {hint : Option Ty} {fault : TypeFault} {k : NumKind}
    (h : Returns (hintedElement hint fault span) b k b') : hint = some (.array k) ∧ b' = b := by
  unfold hintedElement at h
  split at h
  · simp at h; exact ⟨by rw [h.1], h.2⟩
  · simp at h

/-- Every successful run has a derivation. -/
lemma lowers_of_returns (env : Env) :
    (∀ hint e, ∀ b n b', Returns (lowerExpr env hint e) b n b' → LowersExpr env hint e b n b') ∧
    (∀ ty es, ∀ b ns b', Returns (lowerEach env ty es) b ns b' → LowersEach env ty es b ns b') ∧
    (∀ tys args, ∀ b ns b', tys.length = args.length → Returns (lowerArgs env tys args) b ns b' →
      LowersArgs env tys args b ns b') := by
  refine lowerExpr.mutual_induct _ _ _ ?name ?number ?bool ?string ?unary ?binary ?badCompare
    ?compare ?chain ?ifElse ?call ?subscript ?list ?other ?eachNil ?eachCons ?argsCons ?argsNil
  case name =>
    intro hint span id b n b' h
    rw [lowerExpr] at h
    exact returns_lowerName h
  case number =>
    intro hint span text b n b' h
    rw [lowerExpr, lowerNumber] at h
    split at h
    · next hv => simp at h; obtain ⟨rfl, rfl⟩ := h; exact .number hv
    · simp at h
  case bool =>
    intro hint span value b n b' h
    simp [lowerExpr] at h
    obtain ⟨rfl, rfl⟩ := h
    exact .bool
  case string =>
    intro hint span value b n b' h
    simp [lowerExpr] at h
    obtain ⟨⟨hs, rfl⟩, rfl⟩ := h
    exact .string hs
  case unary =>
    intro hint span op e ih b n b' h
    simp only [lowerExpr, Returns.bind_iff] at h
    obtain ⟨v, b₁, he, h⟩ := h
    exact .unary (ih _ _ _ he) h
  case binary =>
    intro hint span op left right ihl ihr b n b' h
    simp only [lowerExpr, Returns.bind_iff] at h
    obtain ⟨_, b₀, ho, l, b₁, hl, r, b₂, hr, h⟩ := h
    cases returns_requireOperator ho
    exact .binary (ihl _ _ _ hl) (ihr _ _ _ hr) h
  case badCompare =>
    intro hint span left op right hc b n b' h
    simp [lowerExpr, hc] at h
  case compare =>
    intro hint span left op right c hc ihl ihr b n b' h
    simp only [lowerExpr, hc, Returns.bind_iff, Returns.pure_iff] at h
    obtain ⟨l, b₁, hl, r, b₂, hr, ⟨l', r', k⟩, b₃, hu, rfl, rfl⟩ := h
    exact .compare hc (ihl _ _ _ hl) (ihr _ _ _ hr) hu
  case chain =>
    intro hint span left rest hrest b n b' h
    rw [lowerExpr] at h
    · simp at h
    · exact hrest
  case ifElse =>
    intro hint span test body orelse iht ihx ihy b n b' h
    simp only [lowerExpr, Returns.bind_iff] at h
    obtain ⟨t, b₁, ht, c, b₂, hc, x, b₃, hx, y, b₄, hy, h⟩ := h
    exact .ifElse (iht _ _ _ ht) hc (ihx _ _ _ hx) (ihy _ _ _ hy) h
  case call =>
    intro hint span func args keywords ihargs ihbounds iharg b n b' h
    rw [lowerExpr.eq_def] at h
    simp only [Returns.bind_iff] at h
    obtain ⟨name, b₁, hname, h⟩ := h
    obtain ⟨rfl, ⟨s, rfl⟩, rfl⟩ := returns_calleeName hname
    split at h
    · next sig hsig =>
      simp at h
      obtain ⟨hlen, ns, hns, rfl⟩ := h
      exact .call hsig hlen (ihargs sig _ _ _ hlen hns)
    · next hsig =>
      split at h
      · -- `list`
        simp only [Returns.bind_iff, returns_requireArrays] at h
        obtain ⟨_, _, ⟨hgc, rfl⟩, h⟩ := h
        split at h
        · next bounds =>
          simp only [Returns.bind_iff] at h
          obtain ⟨k, b₂, hk, ns, b₃, hns, h⟩ := h
          obtain ⟨rfl, rfl⟩ := returns_hintedElement hk
          exact .range hsig hgc (ihbounds _ _ _ hns) h
        · simp at h
      · -- `len`
        simp only [Returns.bind_iff, returns_requireArrays] at h
        obtain ⟨_, _, ⟨hgc, rfl⟩, h⟩ := h
        split at h
        · next arg =>
          simp only [Returns.bind_iff] at h
          obtain ⟨a, b₂, ha, h⟩ := h
          split at h
          · next k hk =>
            simp at h
            obtain ⟨rfl, rfl⟩ := h
            exact .len hsig hgc (iharg _ _ _ ha) hk
          · simp at h
        · simp at h
      · simp at h
  case subscript =>
    intro hint span value index ihv ihi b n b' h
    simp only [lowerExpr, Returns.bind_iff, returns_requireArrays] at h
    obtain ⟨_, _, ⟨hgc, rfl⟩, a, b₁, ha, h⟩ := h
    split at h
    · next k hk =>
      simp only [Returns.bind_iff, Returns.pure_iff] at h
      obtain ⟨i, b₂, hi, i', b₃, hc, rfl, rfl⟩ := h
      exact .subscript hgc (ihv _ _ _ ha) hk (ihi _ _ _ hi) hc
    · simp at h
  case list =>
    intro hint span elems ih b n b' h
    simp only [lowerExpr, Returns.bind_iff, Returns.pure_iff, returns_requireType] at h
    obtain ⟨k, b₁, hk, _, _, ⟨hgc, rfl⟩, ns, b₂, hns, rfl, rfl⟩ := h
    obtain ⟨rfl, rfl⟩ := returns_hintedElement hk
    exact .list hgc (ih k _ _ _ hns)
  case other =>
    intro hint e h1 h2 h3 h4 h5 h6 h7 h8 h9 h10 h11 h12 b n b' h
    rw [lowerExpr] at h
    · simp at h
    all_goals assumption
  case eachNil =>
    intro ty b ns b' h
    simp [lowerEach] at h
    obtain ⟨rfl, rfl⟩ := h
    exact .nil
  case eachCons =>
    intro ty e es ihe ihes b ns b' h
    simp only [lowerEach, Returns.bind_iff, Returns.pure_iff] at h
    obtain ⟨v, b₁, hv, n, b₂, hn, ns, b₃, hns, rfl, rfl⟩ := h
    exact .cons (ihe _ _ _ hv) hn (ihes _ _ _ hns)
  case argsCons =>
    intro ty tys arg args iha ihs b ns b' hlen h
    simp only [lowerArgs, Returns.bind_iff, Returns.pure_iff] at h
    obtain ⟨v, b₁, hv, n, b₂, hn, ns, b₃, hns, rfl, rfl⟩ := h
    exact .cons (iha _ _ _ hv) hn (ihs _ _ _ (by simpa using hlen) hns)
  case argsNil =>
    intro args tys hne b ns b' hlen h
    rcases tys with _ | ⟨ty, tys⟩
    · rcases args with _ | ⟨arg, args⟩
      · simp [lowerArgs] at h
        obtain ⟨rfl, rfl⟩ := h
        exact .nil
      · simp at hlen
    · rcases args with _ | ⟨arg, args⟩
      · simp at hlen
      · exact (hne ty tys arg args rfl rfl).elim

theorem lowersExpr_of_returns {hint : Option Ty} {e : Expr}
    (h : Returns (lowerExpr env hint e) b n b') : LowersExpr env hint e b n b' :=
  (lowers_of_returns env).1 hint e b n b' h

/-! ### Derivations are runs -/

/-- An operator that combines two nodes is one that is compiled. -/
lemma requireOperator_of_binary {op : Syntax.BinOp} {l r : Node} {c : Body}
    (h : Returns (binary env op l r span) c n b') : Returns (requireOperator op span) b () b := by
  obtain ⟨i, j, _, -, -, -, h⟩ := returns_binary h
  generalize i.unify j = k at h
  cases h <;> exact Returns.pure_iff.mpr ⟨rfl, rfl⟩

lemma LowersExpr.not_starred {hint : Option Ty} {e : Expr} (h : LowersExpr env hint e b n b') :
    isStarred e = false := by
  cases h <;> rfl

lemma LowersArgs.not_starred : ∀ {tys : List Ty} {args : List Expr} {b : Body} {ns : List Node},
    LowersArgs env tys args b ns b' → args.find? isStarred = none
  | _, _, _, _, .nil => rfl
  | _, _, _, _, .cons ha _ hs => by rw [List.find?_cons, ha.not_starred, hs.not_starred]

lemma returns_calleeName_of {s : Span} {name : String} {args : List Expr}
    (h : args.find? isStarred = none) :
    Returns (calleeName (.name s name) args []) b name b := by
  simp [calleeName, h, Expr.name?]

mutual

/-- Every derivation is that of a successful run. -/
lemma LowersExpr.returns {hint : Option Ty} {e : Expr} {b b' : Body} {n : Node} :
    LowersExpr env hint e b n b' → Returns (lowerExpr env hint e) b n b'
  | .slot hs => by
    rw [lowerExpr]
    simp [lowerName, hs]
  | .global hs hg => by
    rw [lowerExpr]
    simp [lowerName, hs, hg]
  | .number hv => by
    rw [lowerExpr]
    simp [lowerNumber, hv]
  | .bool => by simp [lowerExpr]
  | .string hs => by simp [lowerExpr, hs]
  | .unary he hn => by
    simp only [lowerExpr, Returns.bind_iff]
    exact ⟨_, _, he.returns, hn⟩
  | .binary hl hr hn => by
    simp only [lowerExpr, Returns.bind_iff]
    exact ⟨_, _, requireOperator_of_binary hn, _, _, hl.returns, _, _, hr.returns, hn⟩
  | .compare hc hl hr hu => by
    simp only [lowerExpr, hc, Returns.bind_iff, Returns.pure_iff]
    exact ⟨_, _, hl.returns, _, _, hr.returns, _, _, hu, rfl, rfl⟩
  | .ifElse ht hc hx hy hn => by
    simp only [lowerExpr, Returns.bind_iff]
    exact ⟨_, _, ht.returns, _, _, hc, _, _, hx.returns, _, _, hy.returns, hn⟩
  | .call hsig hlen hs => by
    rw [lowerExpr.eq_def]
    simp only [Returns.bind_iff]
    refine ⟨_, _, returns_calleeName_of hs.not_starred, ?_⟩
    simp [hsig, hlen, hs.returns]
  | .range hlist hgc hs hn => by
    rw [lowerExpr.eq_def]
    simp only [Returns.bind_iff]
    refine ⟨_, _, returns_calleeName_of rfl, ?_⟩
    simp only [hlist, Returns.bind_iff, returns_requireArrays, hintedElement, Returns.pure_iff]
    exact ⟨(), _, ⟨hgc, rfl⟩, _, _, ⟨rfl, rfl⟩, _, _, hs.returns, hn⟩
  | .len hlen hgc ha hk => by
    rw [lowerExpr.eq_def]
    simp only [Returns.bind_iff]
    refine ⟨_, _, returns_calleeName_of (by rw [List.find?_cons, ha.not_starred]; rfl), ?_⟩
    simp only [hlen, Returns.bind_iff, returns_requireArrays]
    refine ⟨(), _, ⟨hgc, rfl⟩, _, _, ha.returns, ?_⟩
    simp [hk]
  | .subscript hgc ha hk hi hc => by
    simp only [lowerExpr, Returns.bind_iff, returns_requireArrays]
    refine ⟨(), _, ⟨hgc, rfl⟩, _, _, ha.returns, ?_⟩
    simp only [hk, Returns.bind_iff, Returns.pure_iff]
    exact ⟨_, _, hi.returns, _, _, hc, rfl, rfl⟩
  | .list hgc hs => by
    simp only [lowerExpr, hintedElement, Returns.bind_iff, Returns.pure_iff, returns_requireType]
    exact ⟨_, _, ⟨rfl, rfl⟩, (), _, ⟨hgc, rfl⟩, _, _, hs.returns, rfl, rfl⟩

lemma LowersArgs.returns {tys : List Ty} {args : List Expr} {b b' : Body} {ns : List Node} :
    LowersArgs env tys args b ns b' → Returns (lowerArgs env tys args) b ns b'
  | .nil => by simp [lowerArgs]
  | .cons hv hc hs => by
    simp only [lowerArgs, Returns.bind_iff, Returns.pure_iff]
    exact ⟨_, _, hv.returns, _, _, hc, _, _, hs.returns, rfl, rfl⟩

lemma LowersEach.returns {ty : Ty} {es : List Expr} {b b' : Body} {ns : List Node} :
    LowersEach env ty es b ns b' → Returns (lowerEach env ty es) b ns b'
  | .nil => by simp [lowerEach]
  | .cons hv hc hs => by
    simp only [lowerEach, Returns.bind_iff, Returns.pure_iff]
    exact ⟨_, _, hv.returns, _, _, hc, _, _, hs.returns, rfl, rfl⟩

end

/-! ### What expressions do to the state -/

mutual

lemma LowersExpr.grows {hint : Option Ty} {e : Expr} {b b' : Body} {n : Node} :
    LowersExpr env hint e b n b' → b.Grows b'
  | .slot _ | .global _ _ | .number _ | .bool | .string _ => .refl _
  | .unary he hn => by
    obtain ⟨rfl, -⟩ := returns_unary hn
    exact he.grows
  | .binary hl hr hn => by
    obtain ⟨_, _, _, -, -, hg, hc⟩ := returns_binary hn
    exact hl.grows.trans (hr.grows.trans (hg.grows.trans hc.grows))
  | .compare _ hl hr hu => hl.grows.trans (hr.grows.trans (returns_unifyOperands hu).1.grows)
  | .ifElse ht hc hx hy hn => by
    obtain ⟨rfl, -⟩ := returns_truth hc
    exact ht.grows.trans (hx.grows.trans (hy.grows.trans (returns_choose hn).1.grows))
  | .call _ _ hs => hs.grows
  | .range _ _ hs hn => by
    obtain ⟨_, _, _, -, -, rfl⟩ := returns_rangeOf hn
    exact hs.grows.trans ⟨_, _, _, rfl⟩
  | .len _ _ ha _ => ha.grows
  | .subscript _ ha _ hi hc => ha.grows.trans (hi.grows.trans (returns_coerce hc).1.grows)
  | .list _ hs => hs.grows

lemma LowersArgs.grows {tys : List Ty} {args : List Expr} {b b' : Body} {ns : List Node} :
    LowersArgs env tys args b ns b' → b.Grows b'
  | .nil => .refl _
  | .cons hv hc hs => hv.grows.trans ((returns_coerce hc).1.grows.trans hs.grows)

lemma LowersEach.grows {ty : Ty} {es : List Expr} {b b' : Body} {ns : List Node} :
    LowersEach env ty es b ns b' → b.Grows b'
  | .nil => .refl _
  | .cons hv hc hs => hv.grows.trans ((returns_coerce hc).1.grows.trans hs.grows)

end

/-- A condition is a lowered expression made a truth value. -/
lemma returns_lowerCondition {test : Expr} (h : Returns (lowerCondition env test) b n b') :
    ∃ v, LowersExpr env none test b v b' ∧ Returns (truth v test.span) b' n b' := by
  simp only [lowerCondition, Returns.bind_iff] at h
  obtain ⟨v, b₁, hv, ht⟩ := h
  obtain ⟨rfl, -⟩ := returns_truth ht
  exact ⟨v, lowersExpr_of_returns hv, ht⟩

end AnnotatedWasm.Lowering
