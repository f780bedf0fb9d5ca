import AnnotatedWasm.Proofs.Ir.Running
import AnnotatedWasm.Proofs.Ir.Typing

/-!
What running code can touch.

A run consists of atomic steps on the store (`Node.Takes`), put together by sequencing, early ends
and handlers. A property of runs that these keep is a `Run.Law`; where it holds of every step of
every node of some code, it holds of the code. Two laws are used. A run that `Commutes` with a
change of the store cannot tell whether the change is made before it or after it, as for slots
that the code does not name. A run that `Keeps` a relation leads from each store to a related one.
-/

namespace AnnotatedWasm

namespace Run

variable {J V σ α β : Type}

/-- A step that reads and changes the state at once, or traps. -/
def step (g : σ → Option (α × σ)) : Run J V σ α := do
  match g (← get) with
  | some (a, s) =>
    set s
    return a
  | none => throw .trapped

lemma run_step (g : σ → Option (α × σ)) (s : σ) :
    (step g : Run J V σ α).run.run s =
      match g s with
      | some (a, t) => (.ok a, t)
      | none => (.error .trapped, s) := by
  change (match g s with | some (a, t) => _ | none => _ : Run J V σ α).run.run s = _
  rcases g s with _ | ⟨a, t⟩ <;> rfl

lemma run_tryCatch (x : Run J V σ α) (h : Stop J V → Run J V σ α) (s : σ) :
    (tryCatch x h).run.run s =
      match x.run.run s with
      | (.ok a, t) => (.ok a, t)
      | (.error e, t) => (h e).run.run t := by
  rw [ExceptT.run_tryCatch, StateT.run_bind]
  rcases x.run.run s with ⟨e | a, t⟩ <;> rfl

/-- A property of runs that is kept by all ways to put runs together. -/
structure Law (C : {α : Type} → Run J V σ α → Prop) : Prop where
  pure : ∀ {α : Type} (a : α), C (Pure.pure a : Run J V σ α)
  throw : ∀ {α : Type} (e : Stop J V), C (MonadExcept.throw e : Run J V σ α)
  bind : ∀ {α β : Type} {x : Run J V σ α} {f : α → Run J V σ β},
    C x → (∀ a, C (f a)) → C (x >>= f)
  tryCatch : ∀ {α : Type} {x : Run J V σ α} {h : Stop J V → Run J V σ α},
    C x → (∀ e, C (h e)) → C (MonadExcept.tryCatch x h)

namespace Law

variable {C : {α : Type} → Run J V σ α → Prop} (hC : Law C)

include hC

lemma orTrap (a : Option α) : C (Run.orTrap a : Run J V σ α) := by
  cases a
  · exact hC.throw _
  · exact hC.pure _

/-- A run that is no more than a step and a look at its result. -/
lemma of_step {g : σ → Option (α × σ)} (hg : C (Run.step g : Run J V σ α)) (k : α → β)
    {y : Run J V σ β} (hy : ∀ s, y.run.run s =
      match g s with
      | some (a, t) => (.ok (k a), t)
      | none => (.error .trapped, s)) : C y := by
  have h : y = (Run.step g >>= fun a => Pure.pure (k a) : Run J V σ β) := by
    refine Run.ext fun s => ?_
    rw [hy, run_bind, run_step]
    rcases g s with _ | ⟨a, t⟩ <;> rfl
  rw [h]
  exact hC.bind hg fun _ => hC.pure _

/-- A handler that stops the jumps to one place. -/
lemma caught [DecidableEq J] {x : Run J V σ α} (hx : C x) (target : J) (a : α) :
    C (MonadExcept.tryCatch x fun
      | .jump j => if j = target then Pure.pure a else MonadExcept.throw (.jump j)
      | stop => MonadExcept.throw stop) := by
  refine hC.tryCatch hx fun e => ?_
  rcases e with j | _ | _ | _
  · dsimp only
    split
    · exact hC.pure _
    · exact hC.throw _
  all_goals exact hC.throw _

lemma jumpsTo [DecidableEq J] {x : Run J V σ Unit} (hx : C x) (target : J) :
    C (x.jumpsTo target) :=
  hC.caught (hC.bind hx fun _ => hC.pure _) target true

lemma leftBy [DecidableEq J] {x : Run J V σ (Option α)} (hx : C x) (target : J) :
    C (x.leftBy target) :=
  hC.caught hx target none

lemma rounds {round : Run J V σ Bool} (hround : C round) (fuel : Nat) :
    C (Run.rounds round fuel) := by
  induction fuel with
  | zero => exact hC.throw _
  | succ fuel ih =>
    refine hC.bind hround fun again => ?_
    cases again
    · exact hC.pure _
    · exact ih

end Law

/-- Changing the state before the run is the same as changing it after the run. -/
def Commutes (f : σ → σ) {α : Type} (x : Run J V σ α) : Prop :=
  ∀ s, x.run.run (f s) = ((x.run.run s).1, f (x.run.run s).2)

lemma Commutes.returns {f : σ → σ} {x : Run J V σ α} (hx : Commutes f x) {s t : σ} {a : α}
    (h : Returns x s a t) : Returns x (f s) a (f t) := by
  have hs := hx s
  rwa [h] at hs

lemma Commutes.stops {f : σ → σ} {x : Run J V σ α} (hx : Commutes f x) {s t : σ} {e : Stop J V}
    (h : Stops x s e t) : Stops x (f s) e (f t) := by
  have hs := hx s
  rwa [h] at hs

lemma commutes_law (f : σ → σ) : Law (Commutes f : {α : Type} → Run J V σ α → Prop) where
  pure _ _ := rfl
  throw _ _ := rfl
  bind {_ _ x g} hx hg s := by
    rw [run_bind, run_bind, hx s]
    rcases x.run.run s with ⟨e | a, t⟩
    · rfl
    · exact hg a t
  tryCatch {_ x h} hx hh s := by
    rw [run_tryCatch, run_tryCatch, hx s]
    rcases x.run.run s with ⟨e | a, t⟩
    · exact hh e t
    · rfl

lemma commutes_step {f : σ → σ} {g : σ → Option (α × σ)}
    (h : ∀ s, g (f s) = (g s).map (Prod.map id f)) : Commutes f (step g : Run J V σ α) := by
  intro s
  rw [run_step, run_step, h s]
  rcases g s with _ | ⟨a, t⟩ <;> rfl

/-- Every run leads to a state that is related to the one it started in, however it ends. -/
def Keeps (R : σ → σ → Prop) {α : Type} (x : Run J V σ α) : Prop := ∀ s, R s (x.run.run s).2

lemma keeps_law {R : σ → σ → Prop} (hrefl : ∀ s, R s s)
    (htrans : ∀ s t u, R s t → R t u → R s u) :
    Law (Keeps R : {α : Type} → Run J V σ α → Prop) where
  pure _ s := hrefl s
  throw _ s := hrefl s
  bind {_ _ x g} hx hg s := by
    have hs := hx s
    rw [run_bind]
    rcases hrun : x.run.run s with ⟨e | a, t⟩
    · rwa [hrun] at hs
    · rw [hrun] at hs
      exact htrans _ _ _ hs (hg a t)
  tryCatch {_ x h} hx hh s := by
    have hs := hx s
    rw [run_tryCatch]
    rcases hrun : x.run.run s with ⟨e | a, t⟩
    · rw [hrun] at hs
      exact htrans _ _ _ hs (hh e t)
    · rwa [hrun] at hs

lemma keeps_step {R : σ → σ → Prop} (hrefl : ∀ s, R s s) {g : σ → Option (α × σ)}
    (h : ∀ s a t, g s = some (a, t) → R s t) : Keeps R (step g : Run J V σ α) := by
  intro s
  rw [run_step]
  rcases hg : g s with _ | ⟨a, t⟩
  · exact hrefl s
  · exact h s a t hg

end Run

namespace Ir.Node

variable {N W : Type}

/-! ### Atomic steps -/

/-- A step on the store that the node takes once its operands have been evaluated. -/
inductive Takes (M : Machine N W) :
    Node → {α : Type} → (Store N W → Option (α × Store N W)) → Prop
  | localGet {i t} : Takes M (.localGet i t) fun s => some (s.locals i, s)
  | localSet {i v} (x : Value N) : Takes M (.localSet i v) fun s => some ((), s.setLocal i x)
  | globalGet {g t} : Takes M (.globalGet g t) fun s => some (s.globals g, s)
  | globalSet {g v} (x : Value N) : Takes M (.globalSet g v) fun s => some ((), s.setGlobal g x)
  | call {f args t} (vs : List (Value N)) : Takes M (.call f args t) fun s =>
      (M.call f vs s.toShared).map fun (r, sh) => (r, s.withShared sh)
  | arrayNew {k init size} (xs : List N) : Takes M (.arrayNew k init size) fun s =>
      some (s.addArray xs)
  | arrayNewFixed {k ns} (xs : List N) : Takes M (.arrayNewFixed k ns) fun s =>
      some (s.addArray xs)
  | arrayGet {k a i} (ref j : Nat) : Takes M (.arrayGet k a i) fun s =>
      (s.element? ref j).map fun x => (x, s)
  | arraySet {k a i v} (ref j : Nat) (x : N) : Takes M (.arraySet k a i v) fun s =>
      (s.setElement? ref j x).map fun t => ((), t)
  | arrayLen {a} (ref : Nat) : Takes M (.arrayLen a) fun s =>
      s.arrays[ref]?.map fun xs => (xs.length, s)

/-- All steps of the node and of the nodes below it have the property. -/
def Obeys (M : Machine N W) (C : {α : Type} → Eval N W α → Prop) (n : Node) : Prop :=
  ∀ m ∈ n.subnodes, ∀ {α : Type} (g : Store N W → Option (α × Store N W)),
    m.Takes M g → C (Run.step g)

variable {M : Machine N W} {fuel : Nat} {C : {α : Type} → Eval N W α → Prop}

lemma Obeys.own {n : Node} (h : n.Obeys M C) {α : Type} {g : Store N W → Option (α × Store N W)}
    (hg : n.Takes M g) : C (Run.step g : Eval N W α) :=
  h n (by rw [subnodes_eq]; exact List.mem_cons_self) g hg

lemma Obeys.child {n m : Node} (h : n.Obeys M C) (hm : m ∈ n.children) : m.Obeys M C := by
  intro x hx
  refine h x ?_
  rw [subnodes_eq]
  exact List.mem_cons_of_mem _ (List.mem_flatMap.mpr ⟨m, hm, hx⟩)

end Ir.Node

namespace Run.Law

open Ir (Node)

variable {N W : Type} {M : Machine N W} {fuel : Nat} {C : {α : Type} → Eval N W α → Prop}
  (hC : Law C)

include hC

lemma number {x : Eval N W (Option (Value N))} (hx : C x) : C (Node.number x) :=
  hC.bind hx fun _ => hC.orTrap _

lemma arrayRef {x : Eval N W (Option (Value N))} (hx : C x) : C (Node.arrayRef x) :=
  hC.bind hx fun _ => hC.orTrap _

mutual

/-- A law that holds of every step of some code holds of the code. -/
lemma eval : ∀ n : Node, n.Obeys M C → C (n.eval M fuel)
  | .nop, _ => hC.pure _
  | .unreachable, _ => hC.throw _
  | .const _, _ => hC.pure _
  | .string _, _ => hC.pure _
  | .localGet _ _, h => hC.of_step (h.own .localGet) some fun _ => rfl
  | .localSet _ v, h =>
    hC.bind (eval v (h.child (by simp [Node.children]))) fun _ => hC.bind (hC.orTrap _) fun x =>
      hC.bind (h.own (.localSet x)) fun _ => hC.pure _
  | .globalGet _ _, h => hC.of_step (h.own .globalGet) some fun _ => rfl
  | .globalSet _ v, h =>
    hC.bind (eval v (h.child (by simp [Node.children]))) fun _ => hC.bind (hC.orTrap _) fun x =>
      hC.bind (h.own (.globalSet x)) fun _ => hC.pure _
  | .unary _ v, h =>
    hC.bind (hC.number (eval v (h.child (by simp [Node.children])))) fun _ =>
      hC.bind (hC.orTrap _) fun _ => hC.pure _
  | .binary _ a b, h =>
    hC.bind (hC.number (eval a (h.child (by simp [Node.children])))) fun _ =>
      hC.bind (hC.number (eval b (h.child (by simp [Node.children])))) fun _ =>
        hC.bind (hC.orTrap _) fun _ => hC.pure _
  | .select c a b, h =>
    hC.bind (eval a (h.child (by simp [Node.children]))) fun _ => hC.bind (hC.orTrap _) fun _ =>
      hC.bind (eval b (h.child (by simp [Node.children]))) fun _ => hC.bind (hC.orTrap _) fun _ =>
        hC.bind (hC.number (eval c (h.child (by simp [Node.children])))) fun _ => hC.pure _
  | .block none ns _, h => evalAll ns fun _ hm => h.child hm
  | .block (some l) ns _, h => hC.leftBy (evalAll ns fun _ hm => h.child hm) l
  | .loop l body, h =>
    hC.bind (hC.rounds (hC.jumpsTo (hC.bind (eval body (h.child (by simp [Node.children])))
      fun _ => hC.pure _) l) fuel) fun _ => hC.pure _
  | .ifElse c t e, h => by
    refine hC.bind (hC.number (eval c (h.child (by simp [Node.children])))) fun x => ?_
    split
    · exact evalElse e fun m hm => h.child (by simp [Node.children, Option.mem_def.mp hm])
    · exact hC.bind (eval t (h.child (by simp [Node.children]))) fun _ => hC.pure _
  | .br _, _ => hC.throw _
  | .brIf l c, h => by
    refine hC.bind (hC.number (eval c (h.child (by simp [Node.children])))) fun x => ?_
    split
    · exact hC.pure _
    · exact hC.throw _
  | .call f args t, h =>
    hC.bind (evalArgs args fun _ hm => h.child hm) fun vs =>
      hC.of_step (h.own (.call vs)) id fun s => by
        change ((Run.orTrap (M.call f vs s.toShared) >>= _ : Eval N W _)).run.run s = _
        rcases M.call f vs s.toShared with _ | ⟨r, sh⟩ <;> rfl
  | .ret none, _ => hC.throw _
  | .ret (some v), h =>
    hC.bind (eval v (h.child (by simp [Node.children]))) fun _ => hC.bind (hC.orTrap _) fun _ =>
      hC.throw _
  | .drop v, h => hC.bind (eval v (h.child (by simp [Node.children]))) fun _ => hC.pure _
  | .arrayNew _ a b, h =>
    hC.bind (hC.number (eval a (h.child (by simp [Node.children])))) fun _ =>
      hC.bind (hC.number (eval b (h.child (by simp [Node.children])))) fun _ =>
        hC.of_step (h.own (.arrayNew _)) (fun ref => some (.array ref)) fun _ => rfl
  | .arrayNewFixed _ ns, h =>
    hC.bind (evalArgs ns fun _ hm => h.child hm) fun _ => hC.bind (hC.orTrap _) fun _ =>
      hC.of_step (h.own (.arrayNewFixed _)) (fun ref => some (.array ref)) fun _ => rfl
  | .arrayGet _ a i, h =>
    hC.bind (hC.arrayRef (eval a (h.child (by simp [Node.children])))) fun ref =>
      hC.bind (hC.number (eval i (h.child (by simp [Node.children])))) fun j =>
        hC.of_step (h.own (.arrayGet ref (M.toNat j))) (fun x => some (.num x)) fun s => by
          change ((Run.orTrap (s.element? ref (M.toNat j)) >>= _ : Eval N W _)).run.run s = _
          rcases s.element? ref (M.toNat j) with _ | x <;> rfl
  | .arraySet _ a i v, h =>
    hC.bind (hC.arrayRef (eval a (h.child (by simp [Node.children])))) fun ref =>
      hC.bind (hC.number (eval i (h.child (by simp [Node.children])))) fun j =>
        hC.bind (hC.number (eval v (h.child (by simp [Node.children])))) fun x =>
          hC.of_step (h.own (.arraySet ref (M.toNat j) x)) (fun _ => none) fun s => by
            change ((Run.orTrap (s.setElement? ref (M.toNat j) x) >>= _ : Eval N W _)).run.run s = _
            rcases s.setElement? ref (M.toNat j) x with _ | t <;> rfl
  | .arrayLen a, h =>
    hC.bind (hC.arrayRef (eval a (h.child (by simp [Node.children])))) fun ref =>
      hC.of_step (h.own (.arrayLen ref)) (fun n => some (.num (M.ofNat n))) fun s => by
        change ((Run.orTrap s.arrays[ref]? >>= _ : Eval N W _)).run.run s = _
        rcases s.arrays[ref]? with _ | xs <;> rfl

lemma evalAll : ∀ ns : List Node, (∀ n ∈ ns, n.Obeys M C) → C (Node.evalAll M fuel ns)
  | [], _ => hC.pure _
  | [n], h => eval n (h n (by simp))
  | n :: m :: ns, h =>
    hC.bind (eval n (h n (by simp))) fun _ =>
      evalAll (m :: ns) fun x hx => h x (List.mem_cons_of_mem _ hx)

lemma evalArgs : ∀ ns : List Node, (∀ n ∈ ns, n.Obeys M C) → C (Node.evalArgs M fuel ns)
  | [], _ => hC.pure _
  | n :: ns, h =>
    hC.bind (eval n (h n (by simp))) fun _ => hC.bind (hC.orTrap _) fun _ =>
      hC.bind (evalArgs ns fun x hx => h x (List.mem_cons_of_mem _ hx)) fun _ => hC.pure _

lemma evalElse : ∀ e : Option Node, (∀ n ∈ e, n.Obeys M C) → C (Node.evalElse M fuel e)
  | none, _ => hC.pure _
  | some n, h => hC.bind (eval n (h n rfl)) fun _ => hC.pure _

end

end Run.Law

/-! ### Slots that code does not name -/

namespace Store

variable {N W : Type}

/-- The store with other values in some slots. -/
def overlay (ρ : Nat → Option (Value N)) (s : Store N W) : Store N W :=
  { s with locals := fun i => (ρ i).getD (s.locals i) }

variable {ρ : Nat → Option (Value N)} {s : Store N W} {i : Nat}

lemma locals_overlay (hi : ρ i = none) : (s.overlay ρ).locals i = s.locals i := by
  simp [overlay, hi]

lemma setLocal_overlay (hi : ρ i = none) (x : Value N) :
    (s.overlay ρ).setLocal i x = (s.setLocal i x).overlay ρ := by
  have h : Function.update (fun j => (ρ j).getD (s.locals j)) i x =
      fun j => (ρ j).getD (Function.update s.locals i x j) := by
    funext j
    by_cases hj : j = i
    · subst hj
      simp [hi]
    · simp [hj]
  simp only [setLocal, overlay, h]

lemma setElement?_overlay (ref j : Nat) (x : N) :
    (s.overlay ρ).setElement? ref j x = (s.setElement? ref j x).map (overlay ρ) := by
  simp only [setElement?, overlay, Option.bind_eq_bind]
  rcases s.arrays[ref]? with _ | elems
  · rfl
  · rcases helem : elems[j]? with _ | y <;> simp [helem, overlay]

/-- Setting one slot is an overlay. -/
lemma overlay_update (i : Nat) (x : Value N) (s : Store N W) :
    s.overlay (Function.update (fun _ => none) i (some x)) = s.setLocal i x := by
  have h : (fun j => (Function.update (fun _ => none) i (some x) j).getD (s.locals j)) =
      Function.update s.locals i x := by
    funext j
    by_cases hj : j = i
    · subst hj
      simp
    · simp [hj]
  simp only [overlay, setLocal, h]

end Store

namespace Ir.Node

/-- The slot that a node reads or sets. -/
def slot? : Node → Option Nat
  | localGet i _ | localSet i _ => some i
  | _ => none

variable {N W : Type} {M : Machine N W} {fuel : Nat}

/-- Code cannot tell what is in slots that it does not name, and leaves it there. -/
lemma commutes_overlay {ρ : Nat → Option (Value N)} {n : Node}
    (h : ∀ m ∈ n.subnodes, ∀ i ∈ m.slot?, ρ i = none) :
    Run.Commutes (Store.overlay ρ) (n.eval M fuel : Eval N W _) := by
  refine (Run.commutes_law _).eval n fun m hm α g hg => Run.commutes_step fun s => ?_
  have hslot := h m hm
  cases hg with
  | localGet => simp [Store.locals_overlay (hslot _ rfl)]
  | localSet x => simp [Store.setLocal_overlay (hslot _ rfl)]
  | globalGet | globalSet x | arrayNew xs | arrayNewFixed xs => rfl
  | call vs | arrayGet ref j | arrayLen ref =>
    rw [Option.map_map]
    rfl
  | arraySet ref j x =>
    simp only [Store.setElement?_overlay, Option.map_map]
    rfl

/-- Code that names no slot from `k` on. -/
def NamesBelow (k : Nat) (n : Node) : Prop := ∀ m ∈ n.subnodes, ∀ i ∈ m.slot?, i < k

lemma NamesBelow.commutes_setLocal {n : Node} {k i : Nat} (h : n.NamesBelow k) (hi : k ≤ i)
    (x : Value N) : Run.Commutes (Store.setLocal · i x) (n.eval M fuel : Eval N W _) := by
  have hfresh : ∀ m ∈ n.subnodes, ∀ j ∈ m.slot?,
      Function.update (fun _ => none) i (some x) j = none := by
    intro m hm j hj
    have hlt := h m hm j hj
    rw [Function.update_of_ne (by omega)]
  have hcomm : Run.Commutes (Store.overlay _) (n.eval M fuel : Eval N W _) :=
    commutes_overlay hfresh
  intro s
  have hs := hcomm s
  rwa [Store.overlay_update, Store.overlay_update] at hs

end Ir.Node

/-- The stores differ in slots from `k` on at most. -/
structure Store.SameBelow {N W : Type} (k : Nat) (s t : Store N W) : Prop where
  shared : t.toShared = s.toShared
  locals : ∀ i < k, t.locals i = s.locals i

namespace Store.SameBelow

variable {N W : Type} {k : Nat} {s t u : Store N W}

lemma refl (k : Nat) (s : Store N W) : s.SameBelow k s := ⟨rfl, fun _ _ => rfl⟩

lemma trans (h : s.SameBelow k t) (h' : t.SameBelow k u) : s.SameBelow k u :=
  ⟨h'.shared.trans h.shared, fun i hi => (h'.locals i hi).trans (h.locals i hi)⟩

lemma setLocal (h : s.SameBelow k t) {i : Nat} (hi : k ≤ i) (x : Value N) :
    s.SameBelow k (t.setLocal i x) :=
  ⟨h.shared, fun j hj => (Function.update_of_ne (by omega) _ _).trans (h.locals j hj)⟩

/-- The one store is the other with what it has in the slots from `k` on. -/
lemma eq_overlay (h : s.SameBelow k t) :
    t = s.overlay fun i => if i < k then none else some (t.locals i) := by
  have hlocals : t.locals =
      fun i => (if i < k then none else some (t.locals i)).getD (s.locals i) := by
    funext i
    split
    · next hi => exact h.locals i hi
    · rfl
  change (⟨t.toShared, t.locals⟩ : Store N W) = ⟨s.toShared, _⟩
  rw [h.shared]
  exact congrArg (Store.mk s.toShared) hlocals

end Store.SameBelow

/-- Code runs in the same way on stores that differ in slots only that it does not name. -/
lemma Ir.Node.NamesBelow.run_same {N W : Type} {M : Machine N W} {fuel k : Nat} {n : Ir.Node}
    (h : n.NamesBelow k) {s t : Store N W} (hst : s.SameBelow k t) :
    ((n.eval M fuel).run.run t).1 = ((n.eval M fuel).run.run s).1 ∧
      ((n.eval M fuel).run.run s).2.SameBelow k ((n.eval M fuel).run.run t).2 := by
  have hfresh : ∀ m ∈ n.subnodes, ∀ i ∈ m.slot?,
      (if i < k then none else some (t.locals i)) = none := by
    intro m hm i hi
    exact if_pos (h m hm i hi)
  have hcomm : Run.Commutes (Store.overlay _) (n.eval M fuel : Eval N W _) :=
    commutes_overlay hfresh
  have hrun := hcomm s
  rw [← hst.eq_overlay] at hrun
  rw [hrun]
  refine ⟨rfl, rfl, fun i hi => Store.locals_overlay ?_⟩
  exact if_pos hi

/-- Such a run ends in the same way. -/
lemma Ir.Node.NamesBelow.run_eq {N W : Type} {M : Machine N W} {fuel k : Nat} {n : Ir.Node}
    (h : n.NamesBelow k) {s t s' : Store N W} (hst : s.SameBelow k t)
    {o : Except (Stop Ir.Label (Value N)) (Option (Value N))}
    (hrun : (n.eval M fuel).run.run s = (o, s')) :
    ∃ t', (n.eval M fuel).run.run t = (o, t') ∧ s'.SameBelow k t' := by
  have hsame : ((n.eval M fuel).run.run t).1 = ((n.eval M fuel).run.run s).1 ∧
      ((n.eval M fuel).run.run s).2.SameBelow k ((n.eval M fuel).run.run t).2 := h.run_same hst
  rw [hrun] at hsame
  exact ⟨((n.eval M fuel).run.run t).2, Prod.ext hsame.1 rfl, hsame.2⟩

/-! ### What code leaves as it was -/

/-- The later store has the same in the slots below a number and in some globals. -/
structure Store.Kept {N W : Type} (k : Nat) (G : String → Prop) (s t : Store N W) : Prop where
  locals : ∀ i < k, t.locals i = s.locals i
  globals : ∀ g, G g → t.globals g = s.globals g

/-- Callees leave these globals as they are. -/
def Machine.CallsKeep {N W : Type} (M : Machine N W) (G : String → Prop) : Prop :=
  ∀ f vs sh r sh', M.call f vs sh = some (r, sh') → ∀ g, G g → sh'.globals g = sh.globals g

namespace Ir.Node

variable {N W : Type}

/-- The node itself sets no slot below a number and no global. -/
def StoresFrom (k : Nat) : Node → Prop
  | localSet i _ => k ≤ i
  | globalSet _ _ => False
  | _ => True

/-- Neither the node nor a node below it sets a slot below a number or a global. -/
def SetsFrom (k : Nat) (n : Node) : Prop := ∀ m ∈ n.subnodes, m.StoresFrom k

lemma SetsFrom.keeps {M : Machine N W} {fuel k : Nat} {n : Node} (h : n.SetsFrom k)
    {G : String → Prop} (hG : M.CallsKeep G) :
    Run.Keeps (Store.Kept k G) (n.eval M fuel : Eval N W _) := by
  have hrefl : ∀ s : Store N W, s.Kept k G s := fun s => ⟨fun _ _ => rfl, fun _ _ => rfl⟩
  have htrans : ∀ s t u : Store N W, s.Kept k G t → t.Kept k G u → s.Kept k G u :=
    fun s t u h₁ h₂ => ⟨fun i hi => (h₂.locals i hi).trans (h₁.locals i hi),
      fun g hg => (h₂.globals g hg).trans (h₁.globals g hg)⟩
  refine (Run.keeps_law hrefl htrans).eval n fun m hm α g hg => Run.keeps_step hrefl ?_
  intro s a t hstep
  have hset := h m hm
  cases hg with
  | localSet x =>
    cases hstep
    refine ⟨fun i hi => Function.update_of_ne ?_ _ _, fun _ _ => rfl⟩
    have hle : k ≤ _ := hset
    omega
  | globalSet x => exact hset.elim
  | call vs =>
    obtain ⟨⟨r, sh⟩, hr, he⟩ := Option.map_eq_some_iff.mp hstep
    cases he
    exact ⟨fun _ _ => rfl, fun g hg => hG _ _ _ _ _ hr g hg⟩
  | localGet | globalGet =>
    cases hstep
    exact hrefl s
  | arrayNew xs | arrayNewFixed xs =>
    cases hstep
    exact ⟨fun _ _ => rfl, fun _ _ => rfl⟩
  | arrayGet ref j | arrayLen ref =>
    obtain ⟨x, -, he⟩ := Option.map_eq_some_iff.mp hstep
    cases he
    exact hrefl s
  | arraySet ref j x =>
    obtain ⟨u, hu, he⟩ := Option.map_eq_some_iff.mp hstep
    cases he
    simp only [Store.setElement?, Option.bind_eq_bind, Option.bind_eq_some_iff] at hu
    obtain ⟨elems, -, y, -, he⟩ := hu
    cases he
    exact ⟨fun _ _ => rfl, fun _ _ => rfl⟩

/-- However the run ends, and whatever the callees do, the slots below are as they were. -/
lemma SetsFrom.locals_kept {k i : Nat} {n : Node} (h : n.SetsFrom k) (M : Machine N W) (fuel : Nat)
    (st : Store N W) (hi : i < k) : ((n.eval M fuel).run.run st).2.locals i = st.locals i := by
  have hkept : Run.Keeps (Store.Kept k fun _ => False) (n.eval M fuel) :=
    h.keeps fun _ _ _ _ _ _ _ hg => hg.elim
  exact (hkept st).locals i hi

end Ir.Node

end AnnotatedWasm
