import AnnotatedWasm.Proofs.Exec.Ir
import AnnotatedWasm.Proofs.Exec.Wasm
import AnnotatedWasm.Proofs.Wasm.WellTyped

/-!
Runs of intermediate code and of WebAssembly code side by side.

`Simulates` says that two routines, started in memories that agree, end alike and in memories
that agree again. There is one lemma for each way to build a routine, so that a simulation of
emitted code is put together along the emission.
-/

namespace AnnotatedWasm.Exec

open Ir (Label Enclosing)
open Wasm (Jump Stack StackCode)

/-! ### Agreement -/

/-- The arrays are the same, and so are the globals, the one with a name being the one at the
place of the name. -/
structure Commons.Agrees (names : List String) (s : Commons String) (t : Commons Nat) : Prop where
  heap : s.heap = t.heap
  globals : ∀ (i : Nat) name, names[i]? = some name → s.globals name = t.globals i

/-- The locals are the same as well. -/
structure Memory.Agrees (names : List String) (s : Memory String) (t : Memory Nat) : Prop extends
    s.toCommons.Agrees names t.toCommons where
  locals : s.locals = t.locals

/-- How many values a type stands for. -/
def arity (t : Ty) : Nat := if t.isVoid then 0 else 1

lemma arity_of_ne_void {t : Ty} (h : t ≠ .void) : arity t = 1 := by
  cases t <;> first | rfl | exact absurd rfl h

/-- Both runs end early, in the same way: a branch by its label is one by the depth of the
innermost construct with that label, and a return has the result on top of the stack. -/
inductive SameStop (env : Enclosing) (result : Ty) : Stop Label Datum → Stop Jump Stack → Prop
  | jump {l d c st} : (env.map (·.1)).idxOf? (some l) = some d → env[d]? = some c → c.2 = .void →
      SameStop env result (.jump l) (.jump ⟨d, st⟩)
  | returned {v st} : st.take (arity result) = v.toList → v.toList.length = arity result →
      SameStop env result (.returned v) (.returned (some st))
  | trapped : SameStop env result .trapped .trapped
  | outOfFuel : SameStop env result .outOfFuel .outOfFuel

/-- Two runs end alike. -/
inductive Alike {α β : Type} (names : List String) (env : Enclosing) (result : Ty)
    (R : α → β → Prop) :
    Except (Stop Label Datum) α × Memory String → Except (Stop Jump Stack) β × Memory Nat → Prop
  | ok {a b s t} : R a b → s.Agrees names t → Alike names env result R (.ok a, s) (.ok b, t)
  | stop {e f s t} : SameStop env result e f → s.Agrees names t →
      Alike names env result R (.error e, s) (.error f, t)

/-- From memories that agree the two routines end alike. -/
def Simulates {α β : Type} (names : List String) (env : Enclosing) (result : Ty)
    (R : α → β → Prop) (x : Routine Label Datum String α) (y : StackCode β) : Prop :=
  ∀ s t, s.Agrees names t → Alike names env result R (x.run.run s) (y.run.run t)

variable {α β γ δ : Type} {names : List String} {env : Enclosing} {result : Ty}

namespace Simulates

variable {R : α → β → Prop} {Q : γ → δ → Prop} {x : Routine Label Datum String α}
  {y : StackCode β}

lemma pure {a : α} {b : β} (h : R a b) : Simulates names env result R (pure a) (pure b) :=
  fun _ _ hst => .ok h hst

lemma stop {e : Stop Label Datum} {f : Stop Jump Stack} (h : SameStop env result e f) :
    Simulates names env result R (throw e) (throw f) :=
  fun _ _ hst => .stop h hst

lemma bind {f : α → Routine Label Datum String γ} {g : β → StackCode δ}
    (h : Simulates names env result R x y)
    (h' : ∀ a b, R a b → Simulates names env result Q (f a) (g b)) :
    Simulates names env result Q (x >>= f) (y >>= g) := by
  intro s t hst
  have hxy := h s t hst
  rw [Run.run_bind, Run.run_bind]
  revert hxy
  generalize x.run.run s = p
  generalize y.run.run t = q
  rintro (⟨hab, hst'⟩ | ⟨hef, hst'⟩)
  · exact h' _ _ hab _ _ hst'
  · exact .stop hef hst'

lemma mono {R' : α → β → Prop} (h : Simulates names env result R x y)
    (hR : ∀ a b, R a b → R' a b) : Simulates names env result R' x y := by
  intro s t hst
  have hxy := h s t hst
  revert hxy
  generalize x.run.run s = p
  generalize y.run.run t = q
  rintro (⟨hab, hst'⟩ | ⟨hef, hst'⟩)
  · exact .ok (hR _ _ hab) hst'
  · exact .stop hef hst'

end Simulates

/-! ### Steps -/

lemma simulates_orTrap (o : Option α) :
    Simulates names env result Eq (Run.orTrap o) (Run.orTrap o) := by
  cases o with
  | none => exact .stop .trapped
  | some a => exact .pure rfl

lemma simulates_holds (v : Datum) :
    Simulates names env result Eq (Ir.Node.holds v) (Ir.Node.holds v) := by
  refine (simulates_orTrap v.num?).bind ?_
  rintro a _ rfl
  exact .pure rfl

lemma simulates_getLocal (i : Nat) :
    Simulates names env result Eq (getLocal i) (getLocal i) := by
  intro s t hst
  have hlocal : t.locals[i]? = s.locals[i]? := by rw [hst.locals]
  have hrun : Simulates names env result Eq (Run.orTrap s.locals[i]?) (Run.orTrap s.locals[i]?) :=
    simulates_orTrap s.locals[i]?
  show Alike names env result Eq _ ((Run.orTrap t.locals[i]? : StackCode Datum).run.run t)
  rw [hlocal]
  exact hrun s t hst

lemma simulates_setLocal (i : Nat) (v : Datum) :
    Simulates names env result Eq (setLocal i v) (setLocal i v) := by
  intro s t hst
  have hlocals : s.locals.set i v = t.locals.set i v := by rw [hst.locals]
  exact .ok rfl ⟨⟨hst.heap, hst.globals⟩, hlocals⟩

lemma simulates_getGlobal {i : Nat} {name : String} (hi : names[i]? = some name) :
    Simulates names env result Eq (getGlobal name) (getGlobal i) :=
  fun _ _ hst => .ok (hst.globals i name hi) hst

/-- Where no name comes twice, the others stay as they are on both sides. -/
lemma simulates_setGlobal (hn : names.Nodup) {i : Nat} {name : String}
    (hi : names[i]? = some name) (v : Datum) :
    Simulates names env result Eq (setGlobal name v) (setGlobal i v) := by
  intro s t hst
  refine .ok rfl ⟨⟨hst.heap, fun j other hj => ?_⟩, hst.locals⟩
  show Function.update s.globals name v other = Function.update t.globals i v j
  by_cases hji : j = i
  · subst hji
    obtain rfl : other = name := Option.some.inj (hj.symm.trans hi)
    simp
  · have hne : other ≠ name := by
      rintro rfl
      have hlt := (List.getElem?_eq_some_iff.mp hj).1
      exact hji ((List.getElem?_inj hlt hn).mp (hj.trans hi.symm))
    rw [Function.update_of_ne hne, Function.update_of_ne hji]
    exact hst.globals j other hj

lemma simulates_onHeap (f : Heap → Option (α × Heap)) :
    Simulates names env result Eq (onHeap f) (onHeap f) := by
  intro s t hst
  rw [run_onHeap, run_onHeap, ← hst.heap]
  rcases f s.heap with _ | ⟨a, heap⟩
  · exact .stop .trapped hst
  · exact .ok rfl ⟨⟨rfl, hst.globals⟩, hst.locals⟩

/-- Callees behave alike: from shared parts that agree they end in the same way, with as many
values as the type says. -/
def SameCall (names : List String) (params : Nat) (returns : Ty)
    (call : List Datum → Commons String → Outcome × Commons String)
    (call' : List Datum → Commons Nat → Outcome × Commons Nat) : Prop :=
  ∀ args s t, args.length = params → s.Agrees names t → ∃ outcome s' t',
    call args s = (outcome, s') ∧ call' args t = (outcome, t') ∧ s'.Agrees names t' ∧
      ∀ values, outcome = .returned values → values.length = arity returns

lemma simulates_invoke {calls : Calls String} {calls' : Calls Nat} {name : String} {i params : Nat}
    {returns : Ty} (h : SameCall names params returns (calls name) (calls' i)) {args : List Datum}
    (hargs : args.length = params) :
    Simulates names env result (fun vs ws => vs = ws ∧ vs.length = arity returns)
      (invoke calls name args) (invoke calls' i args) := by
  intro s t hst
  obtain ⟨outcome, s', t', hs, ht, hst', hvalues⟩ := h args _ _ hargs hst.toAgrees
  rw [run_invoke, run_invoke, hs, ht]
  have hagrees : Memory.Agrees names { s with toCommons := s' } { t with toCommons := t' } :=
    ⟨hst', hst.locals⟩
  cases outcome with
  | returned values => exact .ok ⟨rfl, hvalues values rfl⟩ hagrees
  | trapped => exact .stop .trapped hagrees
  | outOfFuel => exact .stop .outOfFuel hagrees

/-! ### Constructs -/

/-- A run that ends early inside a construct either branches to it, which then leaves no value, or
ends so outside of it too, with one construct less on the way. -/
lemma SameStop.exits {c : Option Label × Ty} {e : Stop Label Datum} {f : Stop Jump Stack}
    (h : SameStop (c :: env) result e f) :
    (∃ l st, c = (some l, .void) ∧ e = .jump l ∧ f = .jump ⟨0, st⟩) ∨
      (∃ l d st, c.1 ≠ some l ∧ e = .jump l ∧ f = .jump ⟨d + 1, st⟩ ∧
        SameStop env result (.jump l) (.jump ⟨d, st⟩)) ∨
      ((∀ l, e ≠ .jump l) ∧ (∀ j, f ≠ .jump j) ∧ SameStop env result e f) := by
  cases h with
  | @jump l d c' st hd hc hvoid =>
    rw [List.map_cons, List.idxOf?_cons] at hd
    by_cases hl : c.1 = some l
    · simp only [hl, beq_self_eq_true, if_true] at hd
      cases hd
      cases hc
      exact .inl ⟨l, st, Prod.ext hl hvoid, rfl, rfl⟩
    · have hbeq : (c.1 == some l) = false := by simpa using hl
      rw [hbeq] at hd
      simp only [Bool.false_eq_true, if_false] at hd
      obtain ⟨d', hd', rfl⟩ := Option.map_eq_some_iff.mp hd
      exact .inr (.inl ⟨l, d', st, hl, rfl, rfl, .jump hd' (by simpa using hc) hvoid⟩)
  | returned h₁ h₂ => exact .inr (.inr ⟨nofun, nofun, .returned h₁ h₂⟩)
  | trapped => exact .inr (.inr ⟨nofun, nofun, .trapped⟩)
  | outOfFuel => exact .inr (.inr ⟨nofun, nofun, .outOfFuel⟩)

lemma run_leftBy {J V σ : Type} [DecidableEq J] (target : J) (x : Run J V σ (Option α)) (s : σ) :
    (x.leftBy target).run.run s =
      match x.run.run s with
      | (.error (.jump j), t) => if j = target then (.ok none, t) else (.error (.jump j), t)
      | p => p := by
  rw [Run.leftBy, ExceptT.run_tryCatch, StateT.run_bind]
  rcases x.run.run s with ⟨(j | _ | _ | _) | _, t⟩
  · change (if j = target then Pure.pure none else throw (.jump j) : Run J V σ (Option α)).run.run t =
      if j = target then (.ok none, t) else (.error (.jump j), t)
    split <;> rfl
  all_goals rfl

lemma run_leave (results : Nat) (y : StackCode Stack) (t : Memory Nat) :
    (Wasm.leave results y).run.run t =
      match y.run.run t with
      | (.error (.jump ⟨0, st⟩), u) => (.ok (st.take results), u)
      | (.error (.jump ⟨d + 1, st⟩), u) => (.error (.jump ⟨d, st⟩), u)
      | p => p := by
  rw [Wasm.leave, ExceptT.run_tryCatch, StateT.run_bind]
  rcases y.run.run t with ⟨(⟨_ | d, st⟩ | _ | _ | _) | _, u⟩ <;> rfl

lemma run_round (y : StackCode Stack) (t : Memory Nat) :
    (Wasm.round y).run.run t =
      match y.run.run t with
      | (.ok st, u) => (.ok (some st), u)
      | (.error (.jump ⟨0, _⟩), u) => (.ok none, u)
      | (.error (.jump ⟨d + 1, st⟩), u) => (.error (.jump ⟨d, st⟩), u)
      | (.error e, u) => (.error e, u) := by
  rw [Wasm.round, ExceptT.run_tryCatch, StateT.run_bind, map_eq_pure_bind, Run.run_bind]
  rcases y.run.run t with ⟨(⟨_ | d, st⟩ | _ | _ | _) | _, u⟩ <;> rfl

/-- The value of a construct is what is on the stack at its end. -/
def Leaves (t : Ty) (v : Option Datum) (st : Stack) : Prop :=
  st = v.toList ∧ v.toList.length = arity t

/-- A block with or without a label. -/
def labelled (l : Option Label) (x : Routine Label Datum String (Option Datum)) :
    Routine Label Datum String (Option Datum) :=
  match l with
  | none => x
  | some l => x.leftBy l

/-- How a run ends if branches to the label end there. -/
def leftAt {V σ α : Type} (l : Option Label) :
    Except (Stop Label V) (Option α) × σ → Except (Stop Label V) (Option α) × σ
  | (.error (.jump j), t) => if l = some j then (.ok none, t) else (.error (.jump j), t)
  | p => p

lemma run_labelled (l : Option Label) (x : Routine Label Datum String (Option Datum))
    (s : Memory String) : (labelled l x).run.run s = leftAt l (x.run.run s) := by
  cases l with
  | none => rcases hx : x.run.run s with ⟨(j | _ | _ | _) | _, t⟩ <;> simp [labelled, leftAt, hx]
  | some l =>
    rw [labelled, run_leftBy]
    rcases x.run.run s with ⟨(j | _ | _ | _) | _, t⟩ <;> simp [leftAt, eq_comm]

lemma Simulates.leave {l : Option Label} {t : Ty} {x : Routine Label Datum String (Option Datum)}
    {y : StackCode Stack} (h : Simulates names ((l, t) :: env) result (Leaves t) x y) :
    Simulates names env result (Leaves t) (labelled l x) (Wasm.leave (arity t) y) := by
  intro s u hst
  have hxy := h s u hst
  rw [run_leave, run_labelled]
  revert hxy
  generalize x.run.run s = p
  generalize y.run.run u = q
  rintro (⟨hv, hst'⟩ | ⟨hstop, hst'⟩)
  · exact .ok hv hst'
  · rcases hstop.exits with ⟨j, st, hc, rfl, rfl⟩ | ⟨j, d, st, hne, rfl, rfl, hout⟩ |
      ⟨hj, -, hout⟩
    · -- the branch ends here, and the construct has no value
      cases hc
      simp only [leftAt, if_true]
      exact .ok ⟨by simp [arity, Ty.isVoid], rfl⟩ hst'
    · simp only [leftAt, hne, if_false]
      exact .stop hout hst'
    · cases hout with
      | jump => exact absurd rfl (hj _)
      | returned h₁ h₂ => exact .stop (.returned h₁ h₂) hst'
      | trapped => exact .stop .trapped hst'
      | outOfFuel => exact .stop .outOfFuel hst'

/-- A round of a loop is followed by another on both sides or on none. -/
lemma Simulates.round {l : Label} {x : Routine Label Datum String (Option Datum)}
    {y : StackCode Stack} (h : Simulates names ((some l, .void) :: env) result (Leaves .void) x y) :
    Simulates names env result (fun again st => st = if again then none else some [])
      (Run.jumpsTo l (do let _ ← x)) (Wasm.round y) := by
  intro s u hst
  have hxy := h s u hst
  rw [run_round, Run.run_jumpsTo, Run.run_bind]
  revert hxy
  generalize x.run.run s = p
  generalize y.run.run u = q
  rintro (⟨⟨rfl, hv⟩, hst'⟩ | ⟨hstop, hst'⟩)
  · refine .ok ?_ hst'
    simpa [arity, Ty.isVoid] using hv
  · rcases hstop.exits with ⟨j, st, hc, rfl, rfl⟩ | ⟨j, d, st, hne, rfl, rfl, hout⟩ |
      ⟨hj, -, hout⟩
    · cases hc
      simp only [if_true]
      exact .ok rfl hst'
    · have hne' : j ≠ l := fun hjl => hne (by rw [hjl])
      simp only [hne', if_false]
      exact .stop hout hst'
    · cases hout with
      | jump => exact absurd rfl (hj _)
      | returned h₁ h₂ => exact .stop (.returned h₁ h₂) hst'
      | trapped => exact .stop .trapped hst'
      | outOfFuel => exact .stop .outOfFuel hst'

lemma Simulates.repeated {l : Label} {x : Routine Label Datum String (Option Datum)}
    {y : StackCode Stack} (h : Simulates names ((some l, .void) :: env) result (Leaves .void) x y) :
    ∀ fuel, Simulates names env result (fun _ st => st = [])
      (Run.rounds (Run.jumpsTo l (do let _ ← x)) fuel) (Wasm.repeated y fuel)
  | 0 => .stop .outOfFuel
  | fuel + 1 => by
    rw [Run.rounds, Wasm.repeated]
    refine h.round.bind ?_
    rintro again _ rfl
    cases again
    · exact .pure rfl
    · exact h.repeated fuel

end AnnotatedWasm.Exec
