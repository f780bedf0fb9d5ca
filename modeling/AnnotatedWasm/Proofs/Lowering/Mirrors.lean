import AnnotatedWasm.Proofs.Lowering.Renumbering

/-!
Lowering the same body twice, with other numbers for its labels.

Two states are shifted if the second one has all its label numbers higher by the same amount; what
is in the module and in the log so far may differ. A computation mirrors another one if both fail
or both succeed from shifted states, and the value of the second is the image of the value of the
first. All steps of lowering mirror themselves (`mirrors_lowerStmts`), so the numbers that other
functions have used up show in the labels and nowhere else.
-/

namespace AnnotatedWasm

/-- The numbers of the enclosing loops are higher. -/
def Frame.shift (d : Nat) (f : Frame) : Frame := { f with loops := f.loops.map (· + d) }

namespace Lowering

open Ir (Node Label)
open Syntax (Expr Stmt Branch BinOp)

/-- Two environments say the same of options, names and signatures. -/
structure Env.Alike (env env' : Env) : Prop where
  options : env'.options = env.options
  aliases : env'.signatures.aliases = env.signatures.aliases
  get? : ∀ name, env'.signatures.get? name = env.signatures.get? name

/-- The second state has the same slots, names and declarations, and higher label numbers. -/
structure Body.Shifted (d : Nat) (b c : Body) : Prop where
  frame : c.frame = b.frame.shift d
  declared : c.session.declared = b.session.declared
  nextLabel : c.session.nextLabel = b.session.nextLabel + d

/-- Both outcomes are failures, or both are successes and go together. -/
inductive Mirrored {α : Type} (d : Nat) (f : α → α) :
    Except CompileError α × Body → Except CompileError α × Body → Prop
  | ok {a b c} : b.Shifted d c → Mirrored d f (.ok a, b) (.ok (f a), c)
  | error {e e' b c} : Mirrored d f (.error e, b) (.error e', c)

/-- From shifted states the computations have outcomes that go together. -/
def Mirrors {α : Type} (d : Nat) (f : α → α) (x y : Lower α) : Prop :=
  ∀ b c, b.Shifted d c → Mirrored d f (x.run.run b) (y.run.run c)

namespace Mirrors

variable {α β : Type} {d : Nat} {f : α → α} {g : β → β} {x y : Lower α}

lemma pure {a a' : α} (h : a' = f a) : Mirrors d f (pure a) (pure a') := by
  subst h
  exact fun b c hbc => .ok hbc

lemma throw {e e' : CompileError} : Mirrors d f (throw e) (throw e') := fun _ _ _ => .error

lemma bind {k k' : α → Lower β} (h : Mirrors d f x y)
    (h' : ∀ a, Mirrors d g (k a) (k' (f a))) : Mirrors d g (x >>= k) (y >>= k') := by
  intro b c hbc
  have hxy := h b c hbc
  rw [ExceptT.run_bind, StateT.run_bind, ExceptT.run_bind, StateT.run_bind]
  rcases hx : x.run.run b with ⟨r, b'⟩
  rcases hy : y.run.run c with ⟨r', c'⟩
  rw [hx, hy] at hxy
  cases hxy with
  | ok hbc' => exact h' _ _ _ hbc'
  | error => exact .error

lemma throw_bind {e e' : CompileError} {k k' : α → Lower β} :
    Mirrors d g (MonadExcept.throw e >>= k) (MonadExcept.throw e' >>= k') :=
  fun _ _ _ => .error

lemma get_bind {k k' : Body → Lower β} (h : ∀ b c, b.Shifted d c → Mirrors d g (k b) (k' c)) :
    Mirrors d g (get >>= k) (get >>= k') :=
  fun b c hbc => h b c hbc b c hbc

lemma ite {p : Prop} [Decidable p] {x' y' : Lower α} (h : p → Mirrors d f x y)
    (h' : ¬ p → Mirrors d f x' y') :
    Mirrors d f (if p then x else x') (if p then y else y') := by
  split
  · next hp => exact h hp
  · next hp => exact h' hp

lemma returns {a : α} {b b' c : Body} (h : Mirrors d f x y) (hbc : b.Shifted d c)
    (hx : Returns x b a b') : ∃ c', Returns y c (f a) c' ∧ b'.Shifted d c' := by
  have hxy := h b c hbc
  rcases hy : y.run.run c with ⟨r, c'⟩
  rw [hx, hy] at hxy
  cases hxy with
  | ok hbc' => exact ⟨c', hy, hbc'⟩

lemma returns_back {a' : α} {b c c' : Body} (h : Mirrors d f x y) (hbc : b.Shifted d c)
    (hy : Returns y c a' c') : ∃ a b', Returns x b a b' ∧ a' = f a ∧ b'.Shifted d c' := by
  have hxy := h b c hbc
  rcases hx : x.run.run b with ⟨r, b'⟩
  rw [hx, hy] at hxy
  cases hxy with
  | ok hbc' => exact ⟨_, b', hx, rfl, hbc'⟩

end Mirrors

variable {d : Nat} {ρ : Label → Label} {env env' : Env} {v : Node} {span : Span}

/-! ### Slots, labels, events -/

lemma mirrors_frame : Mirrors d (Frame.shift d) frame frame :=
  Mirrors.get_bind fun _ _ hbc => .pure hbc.frame

lemma mirrors_setFrame {f f' : Frame} (h : f' = f.shift d) :
    Mirrors d id (setFrame f) (setFrame f') := by
  intro b c hbc
  exact .ok (a := ()) ⟨h, hbc.declared, hbc.nextLabel⟩

lemma mirrors_note (e e' : Event) : Mirrors d id (note e) (note e') :=
  fun _ _ hbc => .ok (a := ()) ⟨hbc.frame, hbc.declared, hbc.nextLabel⟩

lemma mirrors_temporary (ty : Ty) : Mirrors d id (temporary ty) (temporary ty) :=
  mirrors_frame.bind fun _ => (mirrors_setFrame rfl).bind fun _ => .pure rfl

lemma mirrors_declare (name : String) (ty : Ty) :
    Mirrors d id (declare name ty) (declare name ty) :=
  mirrors_frame.bind fun _ => (mirrors_setFrame rfl).bind fun _ => .pure rfl

lemma mirrors_freshLabel : Mirrors d (· + d) freshLabel freshLabel := by
  intro b c hbc
  have hlabel : c.session.nextLabel = b.session.nextLabel + d := hbc.nextLabel
  have hmirrored : Mirrored d (· + d) (freshLabel.run.run b)
      (.ok (b.session.nextLabel + d), (freshLabel.run.run c).2) :=
    .ok ⟨hbc.frame, hbc.declared, by
      show c.session.nextLabel + 1 = b.session.nextLabel + 1 + d
      omega⟩
  rw [← hlabel] at hmirrored
  exact hmirrored

lemma mirrors_requireType (h : env.Alike env') (ty : Ty) :
    Mirrors d id (requireType env ty span) (requireType env' ty span) := by
  unfold requireType
  rw [h.options]
  split
  · exact .throw
  · exact .pure rfl

lemma mirrors_requireArrays (h : env.Alike env') :
    Mirrors d id (requireArrays env span) (requireArrays env' span) := by
  unfold requireArrays
  rw [h.options]
  exact .ite (fun _ => .pure rfl) fun _ => .throw

/-! ### Conversions and operators -/

lemma relabel_convert (v : Node) (k : NumKind) :
    (convert v k).relabel ρ = convert (v.relabel ρ) k := by
  unfold convert
  rw [Node.ty_relabel]
  split
  · split
    · rfl
    · rfl
  · rfl

lemma mirrors_coerce (v : Node) (target : Ty) :
    Mirrors d (Node.relabel ρ) (coerce v target span) (coerce (v.relabel ρ) target span) := by
  unfold coerce
  rw [Node.ty_relabel]
  refine .ite (fun _ => .pure rfl) fun _ => ?_
  split
  · refine .ite (fun _ => ?_) fun _ => ?_
    · exact (mirrors_note _ _).bind fun _ => .pure (relabel_convert v _).symm
    · exact (mirrors_note _ _).bind fun _ => .pure (relabel_convert v _).symm
  · exact .throw

/-- The image of two operands and their kind. -/
def relabelOperands (ρ : Label → Label) (x : Node × Node × NumKind) : Node × Node × NumKind :=
  (x.1.relabel ρ, x.2.1.relabel ρ, x.2.2)

lemma mirrors_unifyOperands (l r : Node) :
    Mirrors d (relabelOperands ρ) (unifyOperands l r span)
      (unifyOperands (l.relabel ρ) (r.relabel ρ) span) := by
  unfold unifyOperands
  rw [Node.ty_relabel, Node.ty_relabel]
  split
  · have hpure {k : NumKind} : Mirrors d (relabelOperands ρ)
        (pure (convert l k, convert r k, k))
        (pure (convert (l.relabel ρ) k, convert (r.relabel ρ) k, k)) :=
      .pure (by simp only [relabelOperands, relabel_convert])
    refine .ite (fun _ => ?_) fun _ => ?_
    · exact (mirrors_note _ _).bind fun _ => hpure
    · exact hpure
  · exact .throw

lemma mirrors_truth (v : Node) :
    Mirrors d (Node.relabel ρ) (truth v span) (truth (v.relabel ρ) span) := by
  unfold truth
  rw [Node.ty_relabel]
  split
  · exact .pure rfl
  · exact .pure rfl
  · exact .throw

lemma mirrors_requireOperator (op : BinOp) :
    Mirrors d id (requireOperator op span) (requireOperator op span) := by
  cases op with
  | add | sub | mul | div | floorDiv | mod => exact .pure rfl
  | _ => exact .throw

lemma relabel_floorQuotient (w : Width) (x y z : Slot) (l r : Node) :
    (floorQuotient w x y z l r).relabel ρ = floorQuotient w x y z (l.relabel ρ) (r.relabel ρ) := by
  simp [floorQuotient, Node.relabel, Node.relabelAll, slotGet, zero, relabel_convert]

lemma mirrors_floorDivide (h : env.Alike env') (l r : Node) (k : NumKind) :
    Mirrors d (Node.relabel ρ) (floorDivide env l r k)
      (floorDivide env' (l.relabel ρ) (r.relabel ρ) k) := by
  cases k with
  | float w => exact .pure rfl
  | int w =>
    simp only [floorDivide]
    rw [h.options]
    split
    · exact .pure rfl
    · refine (mirrors_temporary _).bind fun x => (mirrors_temporary _).bind fun y =>
        (mirrors_temporary _).bind fun z => .pure ?_
      exact (relabel_floorQuotient w x y z l r).symm

lemma mirrors_binary (h : env.Alike env') (op : BinOp) (l r : Node) :
    Mirrors d (Node.relabel ρ) (binary env op l r span)
      (binary env' op (l.relabel ρ) (r.relabel ρ) span) := by
  refine (mirrors_unifyOperands l r).bind fun ⟨l, r, k⟩ => ?_
  cases op with
  | add | sub | mul => exact .pure rfl
  | div => exact .pure (by simp only [Node.relabel, relabel_convert])
  | floorDiv => exact mirrors_floorDivide h l r k
  | mod =>
    cases k with
    | int w => exact .pure rfl
    | float w => exact .throw
  | _ => exact .throw

lemma mirrors_unary (op : Syntax.UnaryOp) (v : Node) :
    Mirrors d (Node.relabel ρ) (unary op v span) (unary op (v.relabel ρ) span) := by
  unfold unary
  rw [Node.ty_relabel]
  split
  · next k _ =>
    cases op with
    | pos => exact .pure rfl
    | neg =>
      cases k with
      | int w => exact .pure rfl
      | float w => exact .pure rfl
    | not => exact .pure rfl
    | invert => exact .throw
  · exact .throw

lemma mirrors_choose (c x y : Node) :
    Mirrors d (Node.relabel ρ) (choose c x y span)
      (choose (c.relabel ρ) (x.relabel ρ) (y.relabel ρ) span) := by
  unfold choose
  rw [Node.ty_relabel, Node.ty_relabel]
  refine .ite (fun _ => .pure rfl) fun _ => ?_
  split
  · exact (mirrors_unifyOperands x y).bind fun _ => .pure rfl
  · exact .throw

/-! ### Ranges -/

/-- The renaming moves the numbers of labels up. -/
def Shifts (d : Nat) (ρ : Label → Label) : Prop :=
  ∀ (k : LabelKind) i, ρ (k.label i) = k.label (i + d)

lemma relabel_rangeBlock (s : RangeSlots) (l : Label) (k : NumKind) (start stop step : Node) :
    (rangeBlock s l k start stop step).relabel ρ =
      rangeBlock s (ρ l) k (start.relabel ρ) (stop.relabel ρ) (step.relabel ρ) := by
  simp [rangeBlock, rangeLoop, rangeLength, Node.relabel, Node.relabelAll, Node.relabelOpt, slotGet,
    zero, Node.i32, relabel_convert]

lemma mirrors_range (hρ : Shifts d ρ) (k : NumKind) (start stop step : Node) :
    Mirrors d (Node.relabel ρ) (range k start stop step)
      (range k (start.relabel ρ) (stop.relabel ρ) (step.relabel ρ)) := by
  refine mirrors_freshLabel.bind fun id => (mirrors_temporary _).bind fun first =>
    (mirrors_temporary _).bind fun stride => (mirrors_temporary _).bind fun length =>
    (mirrors_temporary _).bind fun array => (mirrors_temporary _).bind fun count =>
    (mirrors_temporary _).bind fun next => .pure ?_
  rw [relabel_rangeBlock]
  exact congrArg (rangeBlock _ · k _ _ _) (hρ .range id).symm

lemma mirrors_rangeOf (hρ : Shifts d ρ) (k : NumKind) (bounds : List Node) :
    Mirrors d (Node.relabel ρ) (rangeOf k bounds span)
      (rangeOf k (bounds.map (Node.relabel ρ)) span) :=
  match bounds with
  | [] => .throw
  | [stop] => mirrors_range hρ k (.i32 0) stop (.i32 1)
  | [start, stop] => mirrors_range hρ k start stop (.i32 1)
  | [start, stop, step] => mirrors_range hρ k start stop step
  | _ :: _ :: _ :: _ :: _ => .throw

/-! ### Expressions -/

lemma mirrors_lowerName (name : String) :
    Mirrors d (Node.relabel ρ) (lowerName name span) (lowerName name span) := by
  refine mirrors_frame.bind fun f => ?_
  have hslot : (f.shift d).slot? name = f.slot? name := rfl
  have hglobal : (f.shift d).global? name = f.global? name := rfl
  rw [hslot, hglobal]
  split
  · exact .pure rfl
  · exact .pure rfl
  · exact .throw

lemma mirrors_hintedElement (hint : Option Ty) (fault : TypeFault) :
    Mirrors d id (hintedElement hint fault span) (hintedElement hint fault span) := by
  unfold hintedElement
  split
  · exact .pure rfl
  · exact .throw

lemma mirrors_calleeName (func : Expr) (args : List Expr) (keywords : List (String × Expr)) :
    Mirrors d id (calleeName func args keywords) (calleeName func args keywords) := by
  rcases keywords with _ | ⟨⟨key, value⟩, rest⟩
  · unfold calleeName
    rcases args.find? isStarred with _ | arg
    · rcases func.name? with _ | name
      · exact .throw
      · exact .pure rfl
    · exact .throw_bind
  · exact .throw_bind

/-- **Expressions** are lowered to the same nodes with higher label numbers. -/
lemma mirrors_lowerExpr_all (h : env.Alike env') (hρ : Shifts d ρ) :
    (∀ hint e, Mirrors d (Node.relabel ρ) (lowerExpr env hint e) (lowerExpr env' hint e)) ∧
    (∀ ty es, Mirrors d (List.map (Node.relabel ρ)) (lowerEach env ty es) (lowerEach env' ty es)) ∧
    (∀ tys args, Mirrors d (List.map (Node.relabel ρ)) (lowerArgs env tys args)
      (lowerArgs env' tys args)) := by
  refine lowerExpr.mutual_induct _ _ _ ?name ?number ?bool ?string ?unary ?binary ?badCompare
    ?compare ?chain ?ifElse ?call ?subscript ?list ?other ?eachNil ?eachCons ?argsCons ?argsNil
  case name =>
    intro hint span id
    rw [lowerExpr, lowerExpr]
    exact mirrors_lowerName id
  case number =>
    intro hint span text
    rw [lowerExpr, lowerExpr, lowerNumber]
    split
    · exact .pure rfl
    · exact .throw
  case bool =>
    intro hint span value
    rw [lowerExpr, lowerExpr]
    exact .pure rfl
  case string =>
    intro hint span value
    rw [lowerExpr, lowerExpr]
    exact (mirrors_requireType h _).bind fun _ => .pure rfl
  case unary =>
    intro hint span op e ih
    rw [lowerExpr, lowerExpr]
    exact ih.bind fun v => mirrors_unary op v
  case binary =>
    intro hint span op left right ihl ihr
    rw [lowerExpr, lowerExpr]
    exact (mirrors_requireOperator op).bind fun _ => ihl.bind fun l => ihr.bind fun r =>
      mirrors_binary h op l r
  case badCompare =>
    intro hint span left op right hc
    rw [lowerExpr, lowerExpr, hc]
    exact .throw
  case compare =>
    intro hint span left op right c hc ihl ihr
    rw [lowerExpr, lowerExpr, hc]
    exact ihl.bind fun l => ihr.bind fun r => (mirrors_unifyOperands l r).bind fun _ => .pure rfl
  case chain =>
    intro hint span left rest hrest
    rw [lowerExpr, lowerExpr]
    · exact .throw
    · exact hrest
    · exact hrest
  case ifElse =>
    intro hint span test body orelse iht ihx ihy
    rw [lowerExpr, lowerExpr]
    exact iht.bind fun t => (mirrors_truth t).bind fun c => ihx.bind fun x => ihy.bind fun y =>
      mirrors_choose c x y
  case call =>
    intro hint span func args keywords ihargs ihbounds iharg
    rw [lowerExpr.eq_def, lowerExpr.eq_def]
    refine (mirrors_calleeName func args keywords).bind fun name => ?_
    rw [id_eq, h.get?]
    rcases env.signatures.get? name with _ | sig
    · simp only
      split
      · -- list
        refine (mirrors_requireArrays h).bind fun _ => ?_
        split
        · refine (mirrors_hintedElement hint _).bind fun k => ihbounds.bind fun ns => ?_
          exact mirrors_rangeOf hρ k ns
        · exact .throw
      · refine (mirrors_requireArrays h).bind fun _ => ?_
        split
        · refine iharg.bind fun a => ?_
          rw [Node.ty_relabel]
          split
          · exact .pure rfl
          · exact .throw
        · exact .throw
      · exact .throw
    · refine .ite (fun _ => .throw_bind) fun _ => (ihargs sig).bind fun ns => .pure ?_
      rw [Node.relabel, Node.relabelAll_eq]
  case subscript =>
    intro hint span value index ihv ihi
    rw [lowerExpr, lowerExpr]
    refine (mirrors_requireArrays h).bind fun _ => ihv.bind fun a => ?_
    rw [Node.ty_relabel]
    split
    · exact ihi.bind fun i => (mirrors_coerce i _).bind fun _ => .pure rfl
    · exact .throw
  case list =>
    intro hint span elems ih
    rw [lowerExpr, lowerExpr]
    refine (mirrors_hintedElement hint _).bind fun k => (mirrors_requireType h _).bind fun _ =>
      (ih k).bind fun ns => .pure ?_
    rw [Node.relabel, Node.relabelAll_eq, id_eq]
  case other =>
    intro hint e h1 h2 h3 h4 h5 h6 h7 h8 h9 h10 h11 h12
    rw [lowerExpr, lowerExpr]
    · exact .throw
    all_goals assumption
  case eachNil =>
    intro ty
    rw [lowerEach, lowerEach]
    exact .pure rfl
  case eachCons =>
    intro ty e es ihe ihes
    rw [lowerEach, lowerEach]
    exact ihe.bind fun v => (mirrors_coerce v ty).bind fun n => ihes.bind fun ns => .pure rfl
  case argsCons =>
    intro ty tys arg args iha ihs
    rw [lowerArgs, lowerArgs]
    exact iha.bind fun v => (mirrors_coerce v ty).bind fun n => ihs.bind fun ns => .pure rfl
  case argsNil =>
    intro args tys hne
    rw [lowerArgs, lowerArgs]
    · exact .pure rfl
    · exact hne
    · exact hne


lemma mirrors_lowerExpr (h : env.Alike env') (hρ : Shifts d ρ) (hint : Option Ty) (e : Expr) :
    Mirrors d (Node.relabel ρ) (lowerExpr env hint e) (lowerExpr env' hint e) :=
  (mirrors_lowerExpr_all h hρ).1 hint e

lemma mirrors_lowerCondition (h : env.Alike env') (hρ : Shifts d ρ) (test : Expr) :
    Mirrors d (Node.relabel ρ) (lowerCondition env test) (lowerCondition env' test) :=
  (mirrors_lowerExpr h hρ none test).bind fun v => mirrors_truth v

/-! ### Assignments -/

lemma mirrors_reassigned (name : String) (recorded : Ty) (v : Node) :
    Mirrors d (Node.relabel ρ) (reassigned name recorded v span)
      (reassigned name recorded (v.relabel ρ) span) := by
  unfold reassigned
  rw [Node.ty_relabel]
  split
  · exact mirrors_coerce v recorded
  · exact .ite (fun _ => .pure rfl) fun _ => .throw

lemma mirrors_assignName (name : String) (v : Node) :
    Mirrors d (Node.relabel ρ) (assignName name v span) (assignName name (v.relabel ρ) span) := by
  refine mirrors_frame.bind fun f => ?_
  have hslot : (f.shift d).slot? name = f.slot? name := rfl
  have hglobal : (f.shift d).global? name = f.global? name := rfl
  rw [hslot, hglobal, Node.ty_relabel]
  split
  · exact (mirrors_reassigned name _ v).bind fun _ => .pure rfl
  · exact (mirrors_reassigned name _ v).bind fun _ => .pure rfl
  · refine .ite (fun _ => .throw_bind) fun _ => ?_
    exact (mirrors_declare name v.ty).bind fun _ => .pure rfl

lemma mirrors_assignElement (h : env.Alike env') (hρ : Shifts d ρ) (array index : Expr)
    (v : Node) :
    Mirrors d (Node.relabel ρ) (assignElement env array index v span)
      (assignElement env' array index (v.relabel ρ) span) := by
  refine (mirrors_requireArrays h).bind fun _ => (mirrors_lowerExpr h hρ none array).bind
    fun a => ?_
  rw [Node.ty_relabel]
  split
  · exact (mirrors_lowerExpr h hρ none index).bind fun i => (mirrors_coerce i _).bind fun _ =>
      (mirrors_coerce v _).bind fun _ => .pure rfl
  · exact .throw

lemma mirrors_assignTo (h : env.Alike env') (hρ : Shifts d ρ) (v : Node) (target : Expr) :
    Mirrors d (Node.relabel ρ) (assignTo env v target) (assignTo env' (v.relabel ρ) target) := by
  cases target with
  | name span id => exact mirrors_assignName id v
  | subscript span array index => exact mirrors_assignElement h hρ array index v
  | _ => exact .throw

lemma mirrors_assignCopies (h : env.Alike env') (hρ : Shifts d ρ) (scratch : Slot) :
    ∀ targets, Mirrors d (List.map (Node.relabel ρ)) (assignCopies env scratch targets)
      (assignCopies env' scratch targets)
  | [] => .pure rfl
  | target :: targets => (mirrors_assignTo h hρ (slotGet scratch) target).bind fun _ =>
      (mirrors_assignCopies h hρ scratch targets).bind fun _ => .pure rfl

lemma mirrors_assignAll (h : env.Alike env') (hρ : Shifts d ρ) (targets : List Expr) (v : Node) :
    Mirrors d (Node.relabel ρ) (assignAll env targets v span)
      (assignAll env' targets (v.relabel ρ) span) := by
  unfold assignAll
  split
  · exact mirrors_assignTo h hρ v _
  · rw [Node.ty_relabel]
    refine .ite (fun _ => .throw_bind) fun _ => ?_
    refine (mirrors_temporary v.ty).bind fun s => (mirrors_assignCopies h hρ s targets).bind
      fun ns => .pure ?_
    rw [Node.relabel, Node.relabelAll_eq]
    rfl

lemma mirrors_lowerAssign (h : env.Alike env') (hρ : Shifts d ρ) (targets : List Expr)
    (value : Expr) :
    Mirrors d (Node.relabel ρ) (lowerAssign env targets value span)
      (lowerAssign env' targets value span) :=
  mirrors_frame.bind fun _ => (mirrors_lowerExpr h hρ _ value).bind fun v =>
    mirrors_assignAll h hρ targets v

lemma mirrors_lowerAugAssign (h : env.Alike env') (hρ : Shifts d ρ) (target : Expr) (op : BinOp)
    (value : Expr) :
    Mirrors d (Node.relabel ρ) (lowerAugAssign env target op value span)
      (lowerAugAssign env' target op value span) := by
  refine .ite (fun _ => .throw_bind) fun _ => ?_
  exact (mirrors_requireOperator op).bind fun _ => (mirrors_lowerExpr h hρ none target).bind
    fun l => (mirrors_lowerExpr h hρ none value).bind fun r => (mirrors_binary h op l r).bind
    fun v => mirrors_assignTo h hρ v target

lemma mirrors_storeTyped (name : String) (ty : Ty) (v : Node) :
    Mirrors d (Node.relabel ρ) (storeTyped name ty v) (storeTyped name ty (v.relabel ρ)) := by
  refine mirrors_frame.bind fun f => ?_
  have hslot : (f.shift d).slot? name = f.slot? name := rfl
  have hglobal : (f.shift d).global? name = f.global? name := rfl
  rw [hslot, hglobal]
  split
  · exact .pure rfl
  · exact .pure rfl
  · exact (mirrors_declare name ty).bind fun _ => .pure rfl

lemma mirrors_lowerAnnAssign (h : env.Alike env') (hρ : Shifts d ρ) (target annot : Expr)
    (value : Option Expr) :
    Mirrors d (Node.relabel ρ) (lowerAnnAssign env target annot value span)
      (lowerAnnAssign env' target annot value span) := by
  unfold lowerAnnAssign
  rw [h.aliases]
  rcases target.name? with _ | name
  · exact .throw
  rcases Signature.resolve env.signatures.aliases annot with e | ty
  · exact .throw_bind
  have hpure : Mirrors d id (Pure.pure ty : Lower Ty) (Pure.pure ty) := .pure rfl
  refine hpure.bind fun ty => .ite (fun _ => .throw_bind) fun _ => ?_
  refine (mirrors_requireType h ty).bind fun _ => mirrors_frame.bind fun f => ?_
  have hrecorded : recordedType? (f.shift d) name = recordedType? f name := rfl
  rw [hrecorded]
  have hdeclare : Mirrors d (Node.relabel ρ) (do let _ ← declare name ty; return .nop)
      (do let _ ← declare name ty; return .nop) :=
    (mirrors_declare name ty).bind fun _ => .pure rfl
  have hstore (e : Expr) : Mirrors d (Node.relabel ρ)
      (do storeTyped name ty (← coerce (← lowerExpr env (some ty) e) ty e.span))
      (do storeTyped name ty (← coerce (← lowerExpr env' (some ty) e) ty e.span)) :=
    (mirrors_lowerExpr h hρ (some ty) e).bind fun v => (mirrors_coerce v ty).bind fun v =>
      mirrors_storeTyped name ty v
  rcases recordedType? f name with _ | old
  · rcases value with _ | e
    · exact .ite (fun _ => .throw_bind) fun _ => hdeclare
    · exact hstore e
  · refine .ite (fun _ => .throw_bind) fun _ => ?_
    rcases value with _ | e
    · exact .ite (fun _ => .throw_bind) fun _ => hdeclare
    · exact hstore e

/-! ### Statements -/

lemma returns_promote_self (name : String) (x : Declared) (b : Body) :
    Returns (promote name x) b () (b.promote name x) := by
  simp only [promote, Returns.bind_iff, Returns.get_iff]
  refine ⟨b, b, ⟨rfl, rfl⟩, ?_⟩
  by_cases hnone : (b.session.module.global? name).isNone
  · simp [Body.promote, hnone, Body.grow]
  · simp [Body.promote, hnone]

/-- Whether a global is in the module already makes no difference to the function. -/
lemma mirrors_promote (name : String) (x : Declared) :
    Mirrors d id (promote name x) (promote name x) := by
  intro b c hbc
  have hlabel (b : Body) : (b.promote name x).session.nextLabel = b.session.nextLabel := by
    simp only [Body.promote]
    split <;> rfl
  rw [returns_promote_self, returns_promote_self]
  refine .ok ⟨?_, ?_, ?_⟩
  · rw [frame_promote, frame_promote, hbc.frame]
  · rw [(Body.Extends.promote c name x).declared, (Body.Extends.promote b name x).declared,
      hbc.declared]
  · rw [hlabel, hlabel, hbc.nextLabel]

lemma mirrors_lowerGlobal : ∀ names : List String,
    Mirrors d (Node.relabel ρ) (lowerGlobal span names) (lowerGlobal span names)
  | [] => .pure rfl
  | name :: names => by
    refine .get_bind fun b c hbc => ?_
    have hslot : c.frame.slot? name = b.frame.slot? name := by rw [hbc.frame]; rfl
    rw [hslot, hbc.declared]
    refine .ite (fun _ => .throw_bind) fun _ => ?_
    rcases b.session.declared.lookup name with _ | x
    · exact .throw
    · have hopen : c.frame.openGlobal name (.num x.kind) =
          (b.frame.openGlobal name (.num x.kind)).shift d := by rw [hbc.frame]; rfl
      exact (mirrors_promote name x).bind fun _ => (mirrors_setFrame hopen).bind fun _ =>
        mirrors_lowerGlobal names

lemma mirrors_lowerReturn (h : env.Alike env') (hρ : Shifts d ρ) (value : Option Expr) :
    Mirrors d (Node.relabel ρ) (lowerReturn env value span) (lowerReturn env' value span) := by
  refine mirrors_frame.bind fun f => ?_
  have hreturns : (f.shift d).returns = f.returns := rfl
  rw [hreturns]
  split
  · exact .pure rfl
  · exact .pure rfl
  · exact .throw
  · exact .throw
  · next e _ _ =>
    exact (mirrors_lowerExpr h hρ _ e).bind fun v => (mirrors_coerce v _).bind fun _ => .pure rfl

lemma mirrors_lowerAssert (h : env.Alike env') (hρ : Shifts d ρ) (test : Expr)
    (message : Option Expr) :
    Mirrors d (Node.relabel ρ) (lowerAssert env test message) (lowerAssert env' test message) := by
  rcases message with _ | m
  · exact (mirrors_lowerCondition h hρ test).bind fun _ => .pure rfl
  · exact .throw_bind

lemma mirrors_lowerExprStmt (h : env.Alike env') (hρ : Shifts d ρ) (e : Expr) :
    Mirrors d (Node.relabel ρ) (lowerExprStmt env e) (lowerExprStmt env' e) := by
  unfold lowerExprStmt
  split
  · exact .pure rfl
  · refine (mirrors_lowerExpr h hρ none _).bind fun v => ?_
    rw [Node.ty_relabel]
    exact .ite (fun _ => .pure rfl) fun _ => .pure rfl

lemma mirrors_lowerBreak (hρ : Shifts d ρ) :
    Mirrors d (Node.relabel ρ) (lowerBreak span) (lowerBreak span) := by
  refine mirrors_frame.bind fun f => ?_
  rcases hl : f.loops with _ | ⟨id, rest⟩ <;>
    simp only [Frame.currentLoop?, Frame.shift, hl, List.map_nil, List.map_cons, List.head?_nil,
      List.head?_cons]
  · exact .throw
  · exact .pure (congrArg Node.br (hρ .body id).symm)

lemma mirrors_lowerContinue (hρ : Shifts d ρ) :
    Mirrors d (Node.relabel ρ) (lowerContinue span) (lowerContinue span) := by
  refine mirrors_frame.bind fun f => ?_
  rcases hl : f.loops with _ | ⟨id, rest⟩ <;>
    simp only [Frame.currentLoop?, Frame.shift, hl, List.map_nil, List.map_cons, List.head?_nil,
      List.head?_cons]
  · exact .throw
  · exact .pure (congrArg Node.br (hρ .loop id).symm)

lemma mirrors_insideLoop {x y : Lower (List Node)} (id : Nat)
    (h : Mirrors d (List.map (Node.relabel ρ)) x y) :
    Mirrors d (List.map (Node.relabel ρ)) (insideLoop id x) (insideLoop (id + d) y) := by
  refine mirrors_frame.bind fun f => (mirrors_setFrame rfl).bind fun _ => h.bind fun ns =>
    mirrors_frame.bind fun f => (mirrors_setFrame ?_).bind fun _ => .pure rfl
  simp only [Frame.leaveLoop, Frame.shift, List.map_tail]

lemma relabel_whileNode (hρ : Shifts d ρ) (id : Nat) (c : Node) (ns ms : List Node) :
    (whileNode id c ns ms).relabel ρ =
      whileNode (id + d) (c.relabel ρ) (ns.map (Node.relabel ρ)) (ms.map (Node.relabel ρ)) := by
  have hloop : ρ (loopLabel id) = loopLabel (id + d) := hρ .loop id
  have hbody : ρ (loopBodyLabel id) = loopBodyLabel (id + d) := hρ .body id
  have helse : ρ (loopElseLabel id) = loopElseLabel (id + d) := hρ .orelse id
  cases ms <;>
    simp [whileNode, Node.relabel, Node.relabelAll_eq, Node.relabelOpt, hloop, hbody, helse]

mutual

/-- **Statements** are lowered to the same nodes with higher label numbers. -/
lemma mirrors_lowerStmt (h : env.Alike env') (hρ : Shifts d ρ) : (s : Stmt) →
    Mirrors d (Node.relabel ρ) (lowerStmt env s) (lowerStmt env' s)
  | .expr _ e => mirrors_lowerExprStmt h hρ e
  | .assign _ targets value => mirrors_lowerAssign h hρ targets value
  | .annAssign _ target annot value => mirrors_lowerAnnAssign h hρ target annot value
  | .augAssign _ target op value => mirrors_lowerAugAssign h hρ target op value
  | .ret _ value => mirrors_lowerReturn h hρ value
  | .breakLoop _ => mirrors_lowerBreak hρ
  | .continueLoop _ => mirrors_lowerContinue hρ
  | .assert _ test message => mirrors_lowerAssert h hρ test message
  | .global _ names => mirrors_lowerGlobal names
  | .pass _ | .importModule .. | .importNames .. => .pure rfl
  | .ifElse _ test body elifs orelse => by
    rw [lowerStmt, lowerStmt]
    refine (mirrors_lowerCondition h hρ test).bind fun c => (mirrors_lowerStmts h hρ body).bind
      fun ns => (mirrors_lowerElse h hρ (mirrors_lowerStmts h hρ orelse) elifs).bind
      fun e => .pure ?_
    rw [Node.relabel, Node.relabel, Node.relabelAll_eq]
    rfl
  | .whileLoop _ test body orelse => by
    rw [lowerStmt, lowerStmt]
    exact mirrors_freshLabel.bind fun id => (mirrors_lowerCondition h hρ test).bind fun c =>
      (mirrors_insideLoop id (mirrors_lowerStmts h hρ body)).bind fun ns =>
      (mirrors_lowerStmts h hρ orelse).bind fun ms => .pure (relabel_whileNode hρ id c ns ms).symm
  | .funcDef .. | .del .. | .raise .. | .nonlocal .. | .forLoop .. | .classDef ..
  | .tryExcept .. | .withItems .. => .throw

lemma mirrors_lowerStmts (h : env.Alike env') (hρ : Shifts d ρ) : (ss : List Stmt) →
    Mirrors d (List.map (Node.relabel ρ)) (lowerStmts env ss) (lowerStmts env' ss)
  | [] => by
    rw [lowerStmts, lowerStmts]
    exact .pure rfl
  | s :: ss => by
    rw [lowerStmts, lowerStmts]
    exact (mirrors_lowerStmt h hρ s).bind fun n => (mirrors_lowerStmts h hρ ss).bind fun ns =>
      .pure rfl

lemma mirrors_lowerElse (h : env.Alike env') (hρ : Shifts d ρ) {x y : Lower (List Node)}
    (hxy : Mirrors d (List.map (Node.relabel ρ)) x y) : (elifs : List Branch) →
    Mirrors d (Node.relabel ρ) (lowerElse env x elifs) (lowerElse env' y elifs)
  | [] => by
    rw [lowerElse, lowerElse]
    refine hxy.bind fun ns => .pure ?_
    rw [Node.relabel, Node.relabelAll_eq]
    rfl
  | .mk test body :: rest => by
    rw [lowerElse, lowerElse]
    refine (mirrors_lowerCondition h hρ test).bind fun c => (mirrors_lowerStmts h hρ body).bind
      fun ns => (mirrors_lowerElse h hρ hxy rest).bind fun e => .pure ?_
    simp only [Node.relabel, Node.relabelAll_eq, Node.relabelOpt, List.map_cons, List.map_nil,
      Option.map_none]

end


end Lowering

end AnnotatedWasm
