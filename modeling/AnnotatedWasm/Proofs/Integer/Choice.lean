import AnnotatedWasm.Proofs.Integer.Expression
import AnnotatedWasm.Proofs.Lowering.Footprint
import AnnotatedWasm.Proofs.Lowering.Soundness

/-!
Conditional expressions.

The code of `body if test else orelse` evaluates both arms and picks one of the two values. So it
traps where an arm traps that is not picked, and calls what this arm calls (`BothArms.endsWith`).
-/

namespace AnnotatedWasm.Lowering

open Ir (Node)
open Syntax (Expr)

section

variable {W : Type} {floats : Floats} {call : Callees W} {fuel : Nat} {st st' : Store Literal W}
  {n : Node} {e : Stop Ir.Label (Value Literal)}

/-- The code gives this word, which has the width of its type. -/
def Yields (M : Machine Literal W) (fuel : Nat) (n : Node) (st : Store Literal W) (u : Word)
    (st' : Store Literal W) : Prop :=
  Returns (n.eval M fuel) st (some (.num u.literal)) st' ∧ n.ty = .num (.int u.width)

/-- The code ends with a word or stops. -/
def EndsWith (M : Machine Literal W) (fuel : Nat) (n : Node) (st : Store Literal W) :
    Except (Stop Ir.Label (Value Literal)) Word → Store Literal W → Prop
  | .ok u, st' => Yields M fuel n st u st'
  | .error e, st' => Stops (n.eval M fuel) st e st'

lemma stops_convert {M : Machine Literal W} (h : Stops (n.eval M fuel) st e st') {i k : NumKind}
    (hty : n.ty = .num i) : Stops ((convert n k).eval M fuel) st e st' := by
  rcases hc : Ir.UnaryOp.conversion? i k with _ | op
  · rwa [convert_self (by rw [hty, (Ir.UnaryOp.conversion?_eq_none_iff _ _).mp hc])]
  · rw [convert_unary hty hc]
    exact h.bind_left.bind_left

lemma isZero_literal (p : Word) :
    (machine floats call).isZero p.literal = true ↔ p.value = 0 := by
  obtain ⟨w, v⟩ := p
  have hvalue : (⟨w, v⟩ : Word).value = 0 ↔ v = 0#w.bits := by
    rw [← BitVec.toInt_inj, BitVec.toInt_zero]
    rfl
  have hbits : w.bits ≤ 64 := by cases w <;> decide
  have hzero : v.setWidth 64 = 0 ↔ v = 0#w.bits := by
    rw [← BitVec.toNat_inj, ← BitVec.toNat_inj, BitVec.toNat_setWidth_of_le hbits]
    rfl
  rw [hvalue, ← hzero]
  exact decide_eq_true_iff

variable {span : Span} {b b' : Body} {t c : Node} {p : Word}

/-- The truth of a test is that of the number that it gives. -/
lemma returns_truth_word (hc : Returns (truth t span) b c b')
    (ht : Yields (machine floats call) fuel t st p st') :
    ∃ q, Returns (c.eval (machine floats call) fuel) st (some (.num q)) st' ∧
      ((machine floats call).isZero q = true ↔ p.value = 0) := by
  obtain ⟨ht, hty⟩ := ht
  obtain ⟨-, k, hk, ⟨-, rfl⟩ | ⟨-, rfl⟩⟩ := returns_truth hc
  · exact ⟨_, ht, isZero_literal p⟩
  · obtain rfl : .int p.width = k := by simpa [hty] using hk
    have hcompare : (machine floats call).binary (.compare .ne (.int p.width)) p.literal
          (.zero (.int p.width)) =
        some (.i32 (if Ir.Comparison.holds .ne p.value 0 then 1 else 0)) := by
      have hzero : (BitVec.ofInt p.width.bits 0).toInt = 0 := BitVec.toInt_zero
      refine (binary_compare p.width p.bits _ .ne).trans ?_
      rw [hzero]
      rfl
    refine ⟨_, returns_evalBinary ht rfl hcompare, (isZero_literal (.ofInt .w32 _)).trans ?_⟩
    by_cases hp : p.value = 0 <;> simp [Ir.Comparison.holds, hp] <;> decide

lemma stops_truth (hc : Returns (truth t span) b c b')
    (ht : Stops (t.eval (machine floats call) fuel) st e st') :
    Stops (c.eval (machine floats call) fuel) st e st' := by
  obtain ⟨-, k, hk, ⟨-, rfl⟩ | ⟨-, rfl⟩⟩ := returns_truth hc
  · exact ht
  · exact stops_evalBinary_left ht

/-- The arms of a choice between integers meet in the wider of their widths. -/
lemma returns_choose_int {x y : Node} {w : Width} (h : Returns (choose c x y span) b n b')
    (hty : n.ty = .num (.int w)) :
    ∃ i j, x.ty = .num (.int i) ∧ y.ty = .num (.int j) ∧ i.max j = w ∧
      n = .select c (convert x (.int w)) (convert y (.int w)) := by
  obtain ⟨-, ⟨hxy, -, rfl⟩ | ⟨i, j, hi, hj, rfl⟩⟩ := returns_choose h
  · have hx : x.ty = .num (.int w) := hty
    have hy : y.ty = .num (.int w) := hxy.symm.trans hx
    exact ⟨w, w, hx, hy, max_self w, by rw [convert_self hx, convert_self hy]⟩
  · have hunify : i.unify j = .int w := Ty.num.inj ((ty_convert hi).symm.trans hty)
    rcases i with i | i <;> rcases j with j | j <;> cases hunify
    exact ⟨i, j, hi, hj, rfl, rfl⟩

end

/-- How the two arms and the test end, one after the other, and what follows of the whole: it stops
where one of them stops, and otherwise it gives the value of the arm that the test picks. -/
inductive BothArms {W : Type} (M : Machine Literal W) (fuel : Nat) (w : Width)
    (body orelse test : Node) (st : Store Literal W) :
    Except (Stop Ir.Label (Value Literal)) Word → Store Literal W → Prop
  | body {e s} : Stops (body.eval M fuel) st e s →
      BothArms M fuel w body orelse test st (.error e) s
  | orelse {u s₁ e s} : Yields M fuel body st u s₁ → Stops (orelse.eval M fuel) s₁ e s →
      BothArms M fuel w body orelse test st (.error e) s
  | test {u s₁ v s₂ e s} : Yields M fuel body st u s₁ → Yields M fuel orelse s₁ v s₂ →
      Stops (test.eval M fuel) s₂ e s → BothArms M fuel w body orelse test st (.error e) s
  | chosen {u s₁ v s₂ p s} : Yields M fuel body st u s₁ → Yields M fuel orelse s₁ v s₂ →
      Yields M fuel test s₂ p s → BothArms M fuel w body orelse test st
        (.ok (.ofInt w (if p.value = 0 then v.value else u.value))) s

section

variable {W : Type} {floats : Floats} {call : Callees W} {fuel : Nat}
  {test : Syntax.Expr} {b b' b₁ b₂ : Body} {t c x y n : Node} {w : Width} {span span' : Span}
  (hc : Returns (truth t span) b c b') (hn : Returns (choose c x y span') b₁ n b₂)
  (hty : n.ty = .num (.int w))

include hc hn hty

/-- The code of a choice runs both arms and the test. -/
lemma BothArms.endsWith {st s : Store Literal W}
    {r : Except (Stop Ir.Label (Value Literal)) Word}
    (h : BothArms (machine floats call) fuel w x y t st r s) :
    EndsWith (machine floats call) fuel n st r s := by
  obtain ⟨i, j, hi, hj, hw, rfl⟩ := returns_choose_int hn hty
  cases h with
  | body hx => exact stops_select_left (stops_convert hx hi)
  | orelse hx hy =>
    exact stops_select_right (returns_convert_word hx.1 hx.2 w) (stops_convert hy hj)
  | test hx hy ht =>
    exact stops_select_test (returns_convert_word hx.1 hx.2 w) (returns_convert_word hy.1 hy.2 w)
      (stops_truth hc ht)
  | @chosen u _ v _ p _ hx hy ht =>
    obtain ⟨q, hq, hzero⟩ := returns_truth_word hc ht
    have hret := returns_select (returns_convert_word hx.1 hx.2 w)
      (returns_convert_word hy.1 hy.2 w) hq
    refine ⟨?_, ty_convert hi⟩
    by_cases hp : p.value = 0
    · rw [if_pos (hzero.mpr hp)] at hret
      rwa [if_pos hp]
    · rw [if_neg (hzero.not.mpr hp)] at hret
      rwa [if_neg hp]

end

/-- An expression sets no slot that there was before. -/
lemma LowersExpr.locals_kept {W : Type} {env : Env} {hint : Option Ty} {e : Expr} {b b' : Body}
    {n : Node} (h : LowersExpr env hint e b n b') {M : Machine Literal W} {fuel : Nat}
    {st st' : Store Literal W} {v : Option (Value Literal)}
    (hret : Returns (n.eval M fuel) st v st') {i : Nat} (hi : i < b.frame.nextIndex) :
    st'.locals i = st.locals i := by
  have hkept := h.setsFrom.locals_kept M fuel st hi
  rwa [hret] at hkept

/-- Code that ends in some way ends so too from a store that differs in slots only that it does not
name. -/
lemma EndsWith.of_sameBelow {W : Type} {M : Machine Literal W} {fuel k : Nat} {n : Node}
    {st st' s : Store Literal W} {r : Except (Stop Ir.Label (Value Literal)) Word}
    (h : EndsWith M fuel n st r s) (hn : n.NamesBelow k) (hst : st.SameBelow k st') :
    ∃ s', EndsWith M fuel n st' r s' ∧ s.SameBelow k s' := by
  rcases r with e | u
  · exact hn.run_eq hst h
  · obtain ⟨s', hrun, hsame⟩ := hn.run_eq hst h.1
    exact ⟨s', ⟨hrun, h.2⟩, hsame⟩

lemma EndsWith.unique {W : Type} {M : Machine Literal W} {fuel : Nat} {n : Node}
    {st s s' : Store Literal W} {r r' : Except (Stop Ir.Label (Value Literal)) Word}
    (h : EndsWith M fuel n st r s) (h' : EndsWith M fuel n st r' s') : r' = r ∧ s' = s := by
  rcases r with e | u <;> rcases r' with e' | u'
  · cases (h : Stops _ _ _ _).symm.trans h'
    exact ⟨rfl, rfl⟩
  · cases (h : Stops _ _ _ _).symm.trans h'.1
  · cases h.1.symm.trans h'
  · obtain ⟨w, v⟩ := u
    obtain ⟨w', v'⟩ := u'
    cases h.1.symm.trans h'.1
    exact ⟨rfl, rfl⟩

/-- **A conditional expression runs both of its arms.** The code of `body if test else orelse`, of
an integer type, runs the code of the body, of the other arm and of the test, in this order and each
once. It stops as the first of them that stops, and otherwise gives the value of the arm that the
test picks. Where both arms give a value and leave all that is shared as it was, the code ends as
the test does, with the value of the arm that is picked. -/
theorem lower_ifElse_runs_both (env : Env) (b : Body) (hb : b.Sound env) (hint : Option Ty)
    (span : Span) (test body orelse : Expr) (n : Node) (b' : Body)
    (h : Returns (lowerExpr env hint (.ifElse span test body orelse)) b n b') (w : Width)
    (hty : n.ty = .num (.int w)) :
    ∃ t b₁ x b₂ y b₃, Returns (lowerExpr env none test) b t b₁ ∧
      Returns (lowerExpr env none body) b₁ x b₂ ∧ Returns (lowerExpr env none orelse) b₂ y b₃ ∧
      (∀ u : Word, x.ty = .num (.int u.width) ∨ y.ty = .num (.int u.width) →
        (Word.ofInt w u.value).value = u.value) ∧
      ∀ (W : Type) (floats : Floats) (call : Callees W) (fuel : Nat) (st : Store Literal W),
        let M := machine floats call
        (∀ r s, BothArms M fuel w x y t st r s →
          ∀ r' s', EndsWith M fuel n st r' s' ↔ r' = r ∧ s' = s) ∧
        ∀ u s₁ v s₂, Yields M fuel x st u s₁ → Yields M fuel y s₁ v s₂ →
          s₂.toShared = st.toShared → ∀ r s, EndsWith M fuel t st r s → ∃ s',
            EndsWith M fuel n st
              (r.map fun p => .ofInt w (if p.value = 0 then v.value else u.value)) s' ∧
            s.SameBelow b₁.frame.nextIndex s' := by
  simp only [lowerExpr, Returns.bind_iff] at h
  obtain ⟨t, b₀, ht, c, b₁, hc, x, b₂, hx, y, b₃, hy, hn⟩ := h
  obtain ⟨rfl, -⟩ := returns_truth hc
  obtain ⟨i, j, hi, hj, rfl, -⟩ := returns_choose_int hn hty
  refine ⟨t, _, x, b₂, y, b₃, ht, hx, hy, ?_, ?_⟩
  · rintro u (hu | hu)
    · cases hi.symm.trans hu
      exact Word.value_ofInt_value (Word.bits_le_max_left _ _)
    · cases hj.symm.trans hu
      exact Word.value_ofInt_value (Word.bits_le_max_right _ _)
  intro W floats call fuel st M
  refine ⟨fun r s hboth r' s' => ?_, ?_⟩
  · have hends := BothArms.endsWith hc hn hty hboth
    exact ⟨hends.unique, fun h => by rwa [h.1, h.2]⟩
  intro u s₁ v s₂ hu hv hshared r s hr
  have hlx := lowersExpr_of_returns hx
  have hly := lowersExpr_of_returns hy
  have hlocals : ∀ k < b₁.frame.nextIndex, s₂.locals k = st.locals k := by
    intro k hk
    rw [hly.locals_kept hv.1 (hk.trans_le hlx.grows.nextIndex), hlx.locals_kept hu.1 hk]
  have hnames : t.NamesBelow b₁.frame.nextIndex :=
    namesBelow_of_typed ((lowersExpr_of_returns ht).typed hb)
  obtain ⟨s', hs', hsame⟩ := hr.of_sameBelow hnames ⟨hshared, hlocals⟩
  refine ⟨s', BothArms.endsWith hc hn hty ?_, hsame⟩
  rcases r with e | p
  · exact .test hu hv hs'
  · exact .chosen hu hv hs'

/-! `y // f(x) if x else y`, where `f` gives back its argument and is logged. -/

def guardEnv : Env where
  options := {}
  signatures := { functions := [("f", { params := [.i32], returns := .i32 })] }

def guardState : Body := ⟨{}, .start "g" [("x", .i32), ("y", .i32)] .i32⟩

def guardTest : Expr := .name ⟨0, 0⟩ "x"

def guardBody : Expr :=
  let p : Span := ⟨0, 0⟩
  .binary p .floorDiv (.name p "y") (.call p (.name p "f") [.name p "x"] [])

def guardOrelse : Expr := .name ⟨0, 0⟩ "y"

def guarded : Expr := .ifElse ⟨0, 0⟩ guardTest guardBody guardOrelse

def guardMachine : Machine Literal (List String) :=
  machine ⟨fun _ x => x, fun _ x _ => x⟩ fun name args sh =>
    some (args.head?, { sh with world := sh.world ++ [name] })

/-- The store with a value of `x`, where `y` is seven and these callees have been called. -/
def guardStore (x : Int) (called : List String) : Store Literal (List String) where
  globals _ := .num (.i32 0)
  arrays := []
  world := called
  locals i := .num (.i32 (if i = 0 then x else 7))

def guardCode : Node :=
  .binary (.arith .div .i32) (.localGet 1 .i32) (.call "f" [.localGet 0 .i32] .i32)

/-- The code of the test, of the arms and of the whole. -/
lemma lower_guarded : ∃ b₂ b₃ b',
    Returns (lowerExpr guardEnv none guardTest) guardState (.localGet 0 .i32) guardState ∧
    Returns (lowerExpr guardEnv none guardBody) guardState guardCode b₂ ∧
    Returns (lowerExpr guardEnv none guardOrelse) b₂ (.localGet 1 .i32) b₃ ∧
    Returns (lowerExpr guardEnv none guarded) guardState
      (.select (.localGet 0 .i32) guardCode (.localGet 1 .i32)) b' := by
  have hbody : ((lowerExpr guardEnv none guardBody).run.run guardState).1.toOption =
      some guardCode := by cbv
  have horelse : ((lowerExpr guardEnv none guardOrelse).run.run
      ((lowerExpr guardEnv none guardBody).run.run guardState).2).1.toOption =
      some (.localGet 1 .i32) := by cbv
  have hwhole : ((lowerExpr guardEnv none guarded).run.run guardState).1.toOption =
      some (.select (.localGet 0 .i32) guardCode (.localGet 1 .i32)) := by cbv
  exact ⟨_, _, _, rfl, .of_toOption hbody, .of_toOption horelse, .of_toOption hwhole⟩

/-- An arm that is not picked is run all the same: `x` is zero, and neither it nor `y` traps or
calls a function, but the whole calls `f` and traps. -/
theorem ifElse_runs_unpicked_arm : ∃ t b₁ x b₂ y b₃ n b',
    Returns (lowerExpr guardEnv none guardTest) guardState t b₁ ∧
    Returns (lowerExpr guardEnv none guardBody) b₁ x b₂ ∧
    Returns (lowerExpr guardEnv none guardOrelse) b₂ y b₃ ∧
    Returns (lowerExpr guardEnv none guarded) guardState n b' ∧ n.ty = .i32 ∧
    Yields guardMachine 0 t (guardStore 0 []) (.ofInt .w32 0) (guardStore 0 []) ∧
    Yields guardMachine 0 y (guardStore 0 []) (.ofInt .w32 7) (guardStore 0 []) ∧
    Stops (n.eval guardMachine 0) (guardStore 0 []) .trapped (guardStore 0 ["f"]) := by
  obtain ⟨b₂, b₃, b', ht, hx, hy, hn⟩ := lower_guarded
  exact ⟨_, _, _, _, _, _, _, _, ht, hx, hy, hn, rfl, ⟨rfl, rfl⟩, ⟨rfl, rfl⟩, rfl⟩

theorem lower_ifElse_runs_both_guarded : ∃ n b' t b₁ x b₂ y b₃,
    Returns (lowerExpr guardEnv none guarded) guardState n b' ∧ guardState.Sound guardEnv ∧
    n.ty = .i32 ∧ Returns (lowerExpr guardEnv none guardTest) guardState t b₁ ∧
    Returns (lowerExpr guardEnv none guardBody) b₁ x b₂ ∧
    Returns (lowerExpr guardEnv none guardOrelse) b₂ y b₃ ∧
    BothArms guardMachine 0 .w32 x y t (guardStore 2 []) (.ok (.ofInt .w32 3))
      (guardStore 2 ["f"]) ∧
    (∀ r' s', EndsWith guardMachine 0 n (guardStore 2 []) r' s' ↔
      r' = .ok (.ofInt .w32 3) ∧ s' = guardStore 2 ["f"]) ∧
    BothArms guardMachine 0 .w32 x y t (guardStore 0 []) (.error .trapped) (guardStore 0 ["f"]) ∧
    ∀ r' s', EndsWith guardMachine 0 n (guardStore 0 []) r' s' ↔
      r' = .error .trapped ∧ s' = guardStore 0 ["f"] := by
  obtain ⟨_, _, b', ht, hx, hy, hn⟩ := lower_guarded
  have hsound : guardState.Sound guardEnv :=
    sound_start ⟨by simp, fun name g h => by cases h⟩ _ _ _
  obtain ⟨t, b₁, x, b₂, y, b₃, ht', hx', hy', -, hruns⟩ :=
    lower_ifElse_runs_both guardEnv guardState hsound none _ _ _ _ _ b' hn .w32 rfl
  cases ht'.symm.trans ht
  cases hx'.symm.trans hx
  cases hy'.symm.trans hy
  have hpicked : BothArms guardMachine 0 .w32 guardCode (.localGet 1 .i32) (.localGet 0 .i32)
      (guardStore 2 []) (.ok (.ofInt .w32 3)) (guardStore 2 ["f"]) := by
    have hbody : Yields guardMachine 0 guardCode (guardStore 2 []) (.ofInt .w32 3)
        (guardStore 2 ["f"]) := ⟨rfl, rfl⟩
    have horelse : Yields guardMachine 0 (.localGet 1 .i32) (guardStore 2 ["f"]) (.ofInt .w32 7)
        (guardStore 2 ["f"]) := ⟨rfl, rfl⟩
    have htest : Yields guardMachine 0 (.localGet 0 .i32) (guardStore 2 ["f"]) (.ofInt .w32 2)
        (guardStore 2 ["f"]) := ⟨rfl, rfl⟩
    exact .chosen hbody horelse htest
  have htrap : BothArms guardMachine 0 .w32 guardCode (.localGet 1 .i32) (.localGet 0 .i32)
      (guardStore 0 []) (.error .trapped) (guardStore 0 ["f"]) := .body rfl
  exact ⟨_, _, _, _, _, _, _, _, hn, hsound, rfl, ht, hx, hy, hpicked,
    (hruns _ _ _ 0 _).1 _ _ hpicked, htrap, (hruns _ _ _ 0 _).1 _ _ htrap⟩

end AnnotatedWasm.Lowering
