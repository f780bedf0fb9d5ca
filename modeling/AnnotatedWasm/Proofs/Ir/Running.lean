import AnnotatedWasm.Proofs.Ir.Eval
import AnnotatedWasm.Proofs.Returns

/-!
Running one node: what it returns when its operands return, and that it traps when one of them
traps. The lemmas hold for every machine.
-/

namespace AnnotatedWasm

open Ir (Node)

lemma returns_orTrap {J V σ α : Type} (a : α) (s : σ) :
    Returns (Run.orTrap (some a) : Run J V σ α) s a s := rfl

lemma fails_orTrap {J V σ α : Type} (s : σ) :
    Fails (Run.orTrap none : Run J V σ α) s .trapped := .throw _ _

/-- The computation ends with this error and leaves this state. -/
def Stops {ε σ α : Type} (x : ExceptT ε (StateM σ) α) (s : σ) (e : ε) (s' : σ) : Prop :=
  x.run.run s = (.error e, s')

namespace Stops

variable {ε σ α β : Type} {x : ExceptT ε (StateM σ) α} {f : α → ExceptT ε (StateM σ) β}
  {s t u : σ} {e : ε}

lemma orTrap {J V : Type} (s : σ) :
    Stops (Run.orTrap none : Run J V σ α) s .trapped s := rfl

lemma bind_left (h : Stops x s e t) : Stops (x >>= f) s e t := by
  unfold Stops at h ⊢
  rw [ExceptT.run_bind, StateT.run_bind, h]
  rfl

lemma bind_right {a : α} (h : Returns x s a t) (h' : Stops (f a) t e u) :
    Stops (x >>= f) s e u := by
  unfold Stops at h' ⊢
  rw [ExceptT.run_bind, StateT.run_bind, h]
  exact h'

end Stops

lemma Returns.bind {ε σ α β : Type} {x : ExceptT ε (StateM σ) α}
    {f : α → ExceptT ε (StateM σ) β} {s t u : σ} {a : α} {b : β} (h : Returns x s a t)
    (h' : Returns (f a) t b u) : Returns (x >>= f) s b u :=
  Returns.bind_iff.mpr ⟨a, t, h, h'⟩

/-- What follows a computation that returns. -/
lemma Returns.run_bind {ε σ α β : Type} {x : ExceptT ε (StateM σ) α} {s t : σ} {a : α}
    (h : Returns x s a t) (f : α → ExceptT ε (StateM σ) β) :
    (x >>= f).run.run s = (f a).run.run t := by
  rw [ExceptT.run_bind, StateT.run_bind, h]
  rfl

/-- A run returns or stops. -/
lemma returns_or_stops {ε σ α : Type} (x : ExceptT ε (StateM σ) α) (s : σ) :
    (∃ a t, Returns x s a t) ∨ ∃ e t, Stops x s e t := by
  rcases h : x.run.run s with ⟨e | a, t⟩
  · exact .inr ⟨e, t, h⟩
  · exact .inl ⟨a, t, h⟩

variable {N W : Type} {M : Machine N W} {fuel : Nat} {st st' st₁ st₂ : Store N W}

/-! ### Numbers -/

section

variable {n a b : Node} {x y z : N} {o : Ir.BinaryOp}

lemma returns_numberOf (h : Returns (n.eval M fuel) st (some (.num x)) st') :
    Returns (Node.number (n.eval M fuel)) st x st' :=
  h.bind (returns_orTrap x st')

lemma fails_numberOf (h : Fails (n.eval M fuel) st .trapped) :
    Fails (Node.number (n.eval M fuel)) st .trapped :=
  h.bind_left

lemma returns_evalUnary {op : Ir.UnaryOp} (h : Returns (n.eval M fuel) st (some (.num x)) st')
    (hop : M.unary op x = some y) :
    Returns ((Node.unary op n).eval M fuel) st (some (.num y)) st' :=
  (returns_numberOf h).bind ((hop ▸ returns_orTrap y st').bind rfl)

lemma fails_evalUnary {op : Ir.UnaryOp} (h : Fails (n.eval M fuel) st .trapped) :
    Fails ((Node.unary op n).eval M fuel) st .trapped :=
  (fails_numberOf h).bind_left

lemma returns_evalBinary (ha : Returns (a.eval M fuel) st (some (.num x)) st₁)
    (hb : Returns (b.eval M fuel) st₁ (some (.num y)) st₂) (ho : M.binary o x y = some z) :
    Returns ((Node.binary o a b).eval M fuel) st (some (.num z)) st₂ :=
  (returns_numberOf ha).bind ((returns_numberOf hb).bind ((ho ▸ returns_orTrap z st₂).bind rfl))

/-- An operation without a result traps, after its operands have been evaluated. -/
lemma stops_evalBinary (ha : Returns (a.eval M fuel) st (some (.num x)) st₁)
    (hb : Returns (b.eval M fuel) st₁ (some (.num y)) st₂) (ho : M.binary o x y = none) :
    Stops ((Node.binary o a b).eval M fuel) st .trapped st₂ :=
  Stops.bind_right (returns_numberOf ha) (Stops.bind_right (returns_numberOf hb)
    (ho ▸ Stops.orTrap st₂).bind_left)

lemma stops_evalBinary_left {e : Stop Ir.Label (Value N)} (ha : Stops (a.eval M fuel) st e st₁) :
    Stops ((Node.binary o a b).eval M fuel) st e st₁ :=
  ha.bind_left.bind_left

/-- An operation traps where an operand does, or where it has no result. -/
lemma fails_evalBinary (h : Fails (a.eval M fuel) st .trapped ∨
    (∃ x st₁, Returns (a.eval M fuel) st (some (.num x)) st₁ ∧
      (Fails (b.eval M fuel) st₁ .trapped ∨
        ∃ y st₂, Returns (b.eval M fuel) st₁ (some (.num y)) st₂ ∧ M.binary o x y = none))) :
    Fails ((Node.binary o a b).eval M fuel) st .trapped := by
  rcases h with ha | ⟨x, st₁, ha, hb | ⟨y, st₂, hb, ho⟩⟩
  · exact (fails_numberOf ha).bind_left
  · exact .bind_right (returns_numberOf ha) (fails_numberOf hb).bind_left
  · exact ⟨st₂, stops_evalBinary ha hb ho⟩

end

/-! ### Stores -/

section

variable {v : Node} {i : Nat} {g : String} {val : Value N}

lemma returns_localGet {t : Ty} (h : st.locals i = val) :
    Returns ((Node.localGet i t).eval M fuel) st (some val) st := by
  subst h
  rfl

lemma returns_localSet (h : Returns (v.eval M fuel) st (some val) st') :
    Returns ((Node.localSet i v).eval M fuel) st none (st'.setLocal i val) :=
  h.bind ((returns_orTrap val st').bind rfl)

lemma returns_globalSet (h : Returns (v.eval M fuel) st (some val) st') :
    Returns ((Node.globalSet g v).eval M fuel) st none (st'.setGlobal g val) :=
  h.bind ((returns_orTrap val st').bind rfl)

lemma fails_localSet (h : Fails (v.eval M fuel) st .trapped) :
    Fails ((Node.localSet i v).eval M fuel) st .trapped :=
  h.bind_left

lemma fails_globalSet (h : Fails (v.eval M fuel) st .trapped) :
    Fails ((Node.globalSet g v).eval M fuel) st .trapped :=
  h.bind_left

end

/-! ### Sequences -/

lemma returns_evalAll_cons {n : Node} {ns : List Node} (hn : Returns (n.eval M fuel) st none st₁)
    (hns : Returns (Node.evalAll M fuel ns) st₁ none st') :
    Returns (Node.evalAll M fuel (n :: ns)) st none st' := by
  rcases ns with _ | ⟨m, ns⟩
  · cases hns
    exact hn
  · exact hn.bind hns

lemma returns_evalAll_append {ms : List Node} (hms : Returns (Node.evalAll M fuel ms) st none st₁)
    {n : Node} {ns : List Node} {v : Option (Value N)}
    (hns : Returns (Node.evalAll M fuel (n :: ns)) st₁ v st') :
    Returns (Node.evalAll M fuel (ms ++ n :: ns)) st v st' := by
  induction ms generalizing st with
  | nil =>
    cases hms
    exact hns
  | cons m ms ih =>
    rcases ms with _ | ⟨m', ms⟩
    · exact Returns.bind hms hns
    · obtain ⟨a, t, hm, hms⟩ := Returns.bind_iff.mp hms
      exact hm.bind (ih hms)

lemma fails_evalAll_cons {n : Node} {ns : List Node} (hn : Fails (n.eval M fuel) st .trapped) :
    Fails (Node.evalAll M fuel (n :: ns)) st .trapped := by
  rcases ns with _ | ⟨m, ns⟩
  · exact hn
  · exact hn.bind_left

/-! ### Choices -/

section

variable {c a b t : Node} {x : N} {u v : Value N}

lemma returns_select (ha : Returns (a.eval M fuel) st (some u) st₁)
    (hb : Returns (b.eval M fuel) st₁ (some v) st₂)
    (hc : Returns (c.eval M fuel) st₂ (some (.num x)) st') :
    Returns ((Node.select c a b).eval M fuel) st (some (if M.isZero x then v else u)) st' :=
  ha.bind ((returns_orTrap u st₁).bind (hb.bind ((returns_orTrap v st₂).bind
    ((returns_numberOf hc).bind rfl))))

/-- A choice evaluates both arms before the test. -/
lemma stops_select_left {e : Stop Ir.Label (Value N)} (ha : Stops (a.eval M fuel) st e st') :
    Stops ((Node.select c a b).eval M fuel) st e st' :=
  ha.bind_left

lemma stops_select_right {e : Stop Ir.Label (Value N)}
    (ha : Returns (a.eval M fuel) st (some u) st₁) (hb : Stops (b.eval M fuel) st₁ e st') :
    Stops ((Node.select c a b).eval M fuel) st e st' :=
  Stops.bind_right ha (Stops.bind_right (returns_orTrap u st₁) hb.bind_left)

lemma stops_select_test {e : Stop Ir.Label (Value N)} (ha : Returns (a.eval M fuel) st (some u) st₁)
    (hb : Returns (b.eval M fuel) st₁ (some v) st₂) (hc : Stops (c.eval M fuel) st₂ e st') :
    Stops ((Node.select c a b).eval M fuel) st e st' :=
  Stops.bind_right ha (Stops.bind_right (returns_orTrap u st₁) (Stops.bind_right hb
    (Stops.bind_right (returns_orTrap v st₂) hc.bind_left.bind_left)))

lemma returns_ifElse_none (hc : Returns (c.eval M fuel) st (some (.num x)) st')
    (hx : M.isZero x = true) : Returns ((Node.ifElse c t none).eval M fuel) st none st' := by
  refine (returns_numberOf hc).bind ?_
  rw [if_pos hx]
  rfl

lemma stops_ifElse_then {e : Stop Ir.Label (Value N)} {o : Option Node}
    (hc : Returns (c.eval M fuel) st (some (.num x)) st₁) (hx : M.isZero x = false)
    (ht : Stops (t.eval M fuel) st₁ e st') : Stops ((Node.ifElse c t o).eval M fuel) st e st' := by
  refine Stops.bind_right (returns_numberOf hc) ?_
  rw [if_neg (by simp [hx])]
  exact ht.bind_left

end

/-! ### Arrays -/

section

variable {k : NumKind} {a i v : Node} {x y : N} {ref : Nat}

lemma returns_arrayNew (ha : Returns (a.eval M fuel) st (some (.num x)) st₁)
    (hi : Returns (i.eval M fuel) st₁ (some (.num y)) st₂) :
    Returns ((Node.arrayNew k a i).eval M fuel) st (some (.array st₂.arrays.length))
      (st₂.addArray (List.replicate (M.toNat y) x)).2 :=
  (returns_numberOf ha).bind ((returns_numberOf hi).bind rfl)

lemma returns_arraySet (ha : Returns (a.eval M fuel) st (some (.array ref)) st₁)
    (hi : Returns (i.eval M fuel) st₁ (some (.num y)) st₂)
    (hv : Returns (v.eval M fuel) st₂ (some (.num x)) st')
    {u : Store N W} (hset : st'.setElement? ref (M.toNat y) x = some u) :
    Returns ((Node.arraySet k a i v).eval M fuel) st none u := by
  have href : Returns (Node.arrayRef (a.eval M fuel)) st ref st₁ := ha.bind (returns_orTrap ref st₁)
  have hget : Returns (get : Eval N W _) st' st' st' := rfl
  refine href.bind ((returns_numberOf hi).bind ((returns_numberOf hv).bind (hget.bind ?_)))
  rw [hset]
  exact (returns_orTrap u st').bind rfl

end

/-! ### Loops -/

/-- A loop whose rounds lead through these stores and start it again, until one ends. -/
lemma returns_loop {l : Ir.Label} {body : Node} {T : Nat → Store N W} {L : Nat}
    (hround : ∀ j < L, Stops (body.eval M fuel) (T j) (.jump l) (T (j + 1)))
    {v : Option (Value N)} (hdone : Returns (body.eval M fuel) (T L) v (T L)) (hfuel : L < fuel) :
    Returns ((Node.loop l body).eval M fuel) (T 0) none (T L) := by
  let round : Eval N W Bool := (do let _ ← body.eval M fuel).jumpsTo l
  have hagain : ∀ j < L, Returns round (T j) true (T (j + 1)) := by
    intro j hj
    have hstop : Stops (do let _ ← body.eval M fuel : Eval N W Unit) (T j) (.jump l) (T (j + 1)) :=
      (hround j hj).bind_left
    unfold Returns
    rw [Run.run_jumpsTo, hstop]
    exact if_pos rfl
  have hend : Returns round (T L) false (T L) := by
    have hret : Returns (do let _ ← body.eval M fuel : Eval N W Unit) (T L) () (T L) :=
      hdone.bind rfl
    unfold Returns
    rw [Run.run_jumpsTo, hret]
  -- on the rounds that are left
  have hrounds : ∀ left j n, j + left = L → left < n →
      Returns (Run.rounds round n) (T j) () (T L) := by
    intro left
    induction left with
    | zero =>
      intro j n hj hn
      obtain ⟨n, rfl⟩ := Nat.exists_eq_succ_of_ne_zero (Nat.ne_of_gt hn)
      obtain rfl : j = L := by omega
      exact hend.bind rfl
    | succ left ih =>
      intro j n hj hn
      obtain ⟨n, rfl⟩ := Nat.exists_eq_succ_of_ne_zero (Nat.ne_of_gt (Nat.zero_lt_of_lt hn))
      exact (hagain j (by omega)).bind (ih (j + 1) n (by omega) (by omega))
  exact (hrounds L 0 fuel (by omega) hfuel).bind rfl

end AnnotatedWasm
