import AnnotatedWasm.Proofs.Lowering.Soundness

/-!
The slots of a function and their names.

While a function is lowered its frame changes in four ways (`Frame.Steps`): an unnamed slot is
handed out, a new name gets a slot, a global is opened, and a loop is gone through. Making a slot
for a name does not look whether the name is taken; that it never is follows from the way each
statement uses these steps. From them alone follow the order of the slot table (`Frame.Tidy`) and
that nothing known is ever lost (`Frame.Keeps`).
-/

namespace AnnotatedWasm

namespace Frame

/-- How a frame changes, with the unnamed slots that are handed out on the way. -/
inductive Steps : Frame → List Slot → Frame → Prop
  | refl (f) : Steps f [] f
  | temporary {f ty temps g} : Steps (f.temporary ty).2 temps g →
      Steps f ((f.temporary ty).1 :: temps) g
  | declare {f name ty temps g} : f.slot? name = none → f.global? name = none →
      Steps (f.declare name ty).2 temps g → Steps f temps g
  | openGlobal {f name ty temps g} : f.slot? name = none →
      (∀ old ∈ f.global? name, old = ty) → Steps (f.openGlobal name ty) temps g → Steps f temps g
  | loop {f id temps g temps' h} : Steps (f.enterLoop id) temps g → Steps g.leaveLoop temps' h →
      Steps f (temps ++ temps') h

/-- The slot table is in order, and `temps` are unnamed slots of it. -/
structure Tidy (f : Frame) (temps : List Slot) : Prop where
  /-- A name stands for a slot that the function has, of the same type. -/
  typed : ∀ name s, f.slot? name = some s → f.slotTypes[s.index]? = some s.ty
  distinct : ∀ name name' s s', f.slot? name = some s → f.slot? name' = some s' →
    s.index = s'.index → name = name'
  /-- An unnamed slot is a slot of the function, and no name stands for it. -/
  unnamed : ∀ t ∈ temps, f.slotTypes[t.index]? = some t.ty ∧
    ∀ name s, f.slot? name = some s → s.index ≠ t.index
  exclusive : ∀ name s, f.slot? name = some s → f.global? name = none
  increasing : (f.localNames.map (·.1)).Pairwise (· < ·)
  listed : ∀ i ∈ f.localNames.map (·.1), i < f.nextIndex

/-- Everything that a frame knows is the same in a later one. -/
structure Keeps (f g : Frame) : Prop where
  slot : ∀ name s, f.slot? name = some s → g.slot? name = some s
  global : ∀ name ty, f.global? name = some ty → g.global? name = some ty
  slotTypes : f.slotTypes <+: g.slotTypes
  loops : g.loops = f.loops

/-! ### The steps -/

variable {f g h : Frame} {temps temps' : List Slot}

lemma Steps.trans (hf : f.Steps temps g) (hg : g.Steps temps' h) :
    f.Steps (temps ++ temps') h := by
  induction hf with
  | refl => exact hg
  | temporary _ ih => exact .temporary (ih hg)
  | declare hs hn _ ih => exact .declare hs hn (ih hg)
  | openGlobal hs hn _ ih => exact .openGlobal hs hn (ih hg)
  | loop hb _ _ ih => rw [List.append_assoc]; exact .loop hb (ih hg)

/-- Slots without names are handed out one by one. -/
lemma exists_steps_extra (f : Frame) (tys : List Ty) :
    ∃ temps, f.Steps temps { f with extra := f.extra ++ tys } := by
  induction tys generalizing f with
  | nil => exact ⟨[], by rw [List.append_nil]; exact .refl f⟩
  | cons ty tys ih =>
    obtain ⟨temps, hsteps⟩ := ih (f.temporary ty).2
    simp only [Frame.temporary, List.append_assoc, List.singleton_append] at hsteps
    exact ⟨_ :: temps, .temporary hsteps⟩

lemma slot?_declare (f : Frame) (name : String) (ty : Ty) (id : String) :
    (f.declare name ty).2.slot? id =
      if name = id then some ⟨f.nextIndex, ty⟩ else f.slot? id :=
  Lowering.lookupLast?_snoc id name _ _

lemma global?_openGlobal (f : Frame) (name : String) (ty : Ty) (id : String) :
    (f.openGlobal name ty).global? id = if name = id then some ty else f.global? id :=
  Lowering.lookupLast?_snoc id name _ _

lemma length_slotTypes (f : Frame) : f.slotTypes.length = f.nextIndex := by
  simp [slotTypes, nextIndex]

lemma slotTypes_declare (f : Frame) (name : String) (ty : Ty) :
    (f.declare name ty).2.slotTypes = f.slotTypes ++ [ty] := by
  simp [slotTypes, declare]

lemma slotTypes_temporary (f : Frame) (ty : Ty) :
    (f.temporary ty).2.slotTypes = f.slotTypes ++ [ty] := by
  simp [slotTypes, temporary]

/-! ### Nothing known is lost -/

lemma Keeps.refl (f : Frame) : f.Keeps f :=
  ⟨fun _ _ hs => hs, fun _ _ hg => hg, List.prefix_rfl, rfl⟩

lemma Keeps.trans (hf : f.Keeps g) (hg : g.Keeps h) : f.Keeps h where
  slot name s hs := hg.slot name s (hf.slot name s hs)
  global name ty ht := hg.global name ty (hf.global name ty ht)
  slotTypes := hf.slotTypes.trans hg.slotTypes
  loops := hg.loops.trans hf.loops

lemma keeps_temporary (f : Frame) (ty : Ty) : f.Keeps (f.temporary ty).2 where
  slot _ _ hs := hs
  global _ _ hg := hg
  slotTypes := by rw [slotTypes_temporary]; exact List.prefix_append _ _
  loops := rfl

lemma keeps_declare {name : String} (hs : f.slot? name = none) (ty : Ty) :
    f.Keeps (f.declare name ty).2 where
  slot id s hid := by
    have hne : name ≠ id := by
      rintro rfl
      rw [hs] at hid
      cases hid
    rw [slot?_declare, if_neg hne, hid]
  global _ _ hg := hg
  slotTypes := by rw [slotTypes_declare]; exact List.prefix_append _ _
  loops := rfl

lemma keeps_openGlobal {name : String} {ty : Ty} (hold : ∀ old ∈ f.global? name, old = ty) :
    f.Keeps (f.openGlobal name ty) where
  slot _ _ hs := hs
  global id old hid := by
    rw [global?_openGlobal]
    split
    · next heq =>
      subst heq
      rw [hold old hid]
    · exact hid
  slotTypes := List.prefix_rfl
  loops := rfl

/-- After a loop the frame has the loops that it had before. -/
lemma Keeps.leaveLoop {id : Nat} (hg : (f.enterLoop id).Keeps g) : f.Keeps g.leaveLoop where
  slot := hg.slot
  global := hg.global
  slotTypes := hg.slotTypes
  loops := by
    have hl : g.loops = id :: f.loops := hg.loops
    simp [Frame.leaveLoop, hl]

theorem Steps.keeps (hf : f.Steps temps g) : f.Keeps g := by
  induction hf with
  | refl => exact .refl _
  | temporary _ ih => exact (keeps_temporary _ _).trans ih
  | declare hs _ _ ih => exact (keeps_declare hs _).trans ih
  | openGlobal _ hold _ ih => exact (keeps_openGlobal hold).trans ih
  | loop _ _ ihb ih => exact ihb.leaveLoop.trans ih

/-! ### The table stays in order -/

lemma Tidy.index_lt (hf : f.Tidy temps) {name : String} {s : Slot} (hs : f.slot? name = some s) :
    s.index < f.nextIndex := by
  have hlt := (List.getElem?_eq_some_iff.mp (hf.typed name s hs)).1
  rwa [length_slotTypes] at hlt

lemma Tidy.temp_lt (hf : f.Tidy temps) {t : Slot} (ht : t ∈ temps) : t.index < f.nextIndex := by
  have hlt := (List.getElem?_eq_some_iff.mp (hf.unnamed t ht).1).1
  rwa [length_slotTypes] at hlt

/-- What a slot holds does not depend on the slots made after it. -/
lemma getElem?_slotTypes_snoc {i : Nat} {t : Ty} (ht : f.slotTypes[i]? = some t) (ty : Ty) :
    (f.slotTypes ++ [ty])[i]? = some t := by
  rw [List.getElem?_append_left (List.getElem?_eq_some_iff.mp ht).1, ht]

lemma getElem?_slotTypes_next (f : Frame) (ty : Ty) :
    (f.slotTypes ++ [ty])[f.nextIndex]? = some ty := by
  rw [← length_slotTypes, List.getElem?_concat_length]

lemma Tidy.temporary (hf : f.Tidy temps) (ty : Ty) :
    (f.temporary ty).2.Tidy (temps ++ [(f.temporary ty).1]) where
  typed name s hs := by
    rw [slotTypes_temporary]
    exact getElem?_slotTypes_snoc (hf.typed name s hs) ty
  distinct := hf.distinct
  unnamed t ht := by
    rw [slotTypes_temporary]
    rcases List.mem_append.mp ht with ht | ht
    · obtain ⟨hty, hne⟩ := hf.unnamed t ht
      exact ⟨getElem?_slotTypes_snoc hty ty, hne⟩
    · obtain rfl := List.mem_singleton.mp ht
      exact ⟨getElem?_slotTypes_next f ty, fun name s hs => Nat.ne_of_lt (hf.index_lt hs)⟩
  exclusive := hf.exclusive
  increasing := hf.increasing
  listed i hi := by
    have hlt := hf.listed i hi
    simp only [Frame.temporary, nextIndex, List.length_append, List.length_singleton] at hlt ⊢
    omega

lemma mem_of_lookupLast? {α : Type} {name : String} {a : α} :
    ∀ {l : List (String × α)}, lookupLast? name l = some a → (name, a) ∈ l
  | [], h => by cases h
  | (n, _) :: l, h => by
    rw [lookupLast?] at h
    split at h
    · next hl =>
      cases h
      exact List.mem_cons_of_mem _ (mem_of_lookupLast? hl)
    · split at h
      · next heq =>
        cases h
        rw [heq]
        exact List.mem_cons_self
      · cases h

/-- Two names share no slot, since every slot is listed under one name. -/
lemma eq_of_index_eq (hinc : (f.localNames.map (·.1)).Pairwise (· < ·)) {name name' : String}
    {s s' : Slot} (hs : f.slot? name = some s) (hs' : f.slot? name' = some s')
    (heq : s.index = s'.index) : name = name' := by
  have hmem {id : String} {t : Slot} (ht : f.slot? id = some t) : (t.index, id) ∈ f.localNames :=
    List.mem_map_of_mem (mem_of_lookupLast? ht)
  have hnodup : (f.localNames.map (·.1)).Nodup := hinc.imp Nat.ne_of_lt
  exact congrArg Prod.snd (List.inj_on_of_nodup_map hnodup (hmem hs) (hmem hs') heq)

lemma localNames_declare (f : Frame) (name : String) (ty : Ty) :
    (f.declare name ty).2.localNames.map (·.1) = f.localNames.map (·.1) ++ [f.nextIndex] := by
  simp [localNames, Frame.declare]

lemma Tidy.increasing_declare (hf : f.Tidy temps) (name : String) (ty : Ty) :
    ((f.declare name ty).2.localNames.map (·.1)).Pairwise (· < ·) := by
  rw [localNames_declare, List.pairwise_append]
  refine ⟨hf.increasing, List.pairwise_singleton _ _, fun i hi j hj => ?_⟩
  rw [List.mem_singleton.mp hj]
  exact hf.listed i hi

/-- A new name gets the slot after all others. -/
lemma Tidy.declare (hf : f.Tidy temps) {name : String} (hg : f.global? name = none) (ty : Ty) :
    (f.declare name ty).2.Tidy temps where
  typed id s hs := by
    rw [slotTypes_declare]
    rw [slot?_declare] at hs
    split at hs
    · cases hs
      exact getElem?_slotTypes_next f ty
    · exact getElem?_slotTypes_snoc (hf.typed id s hs) ty
  distinct _ _ _ _ := eq_of_index_eq (hf.increasing_declare name ty)
  unnamed t ht := by
    obtain ⟨hty, hne⟩ := hf.unnamed t ht
    rw [slotTypes_declare]
    refine ⟨getElem?_slotTypes_snoc hty ty, fun id s hs => ?_⟩
    rw [slot?_declare] at hs
    split at hs
    · cases hs
      exact (Nat.ne_of_lt (hf.temp_lt ht)).symm
    · exact hne id s hs
  exclusive id s hs := by
    rw [slot?_declare] at hs
    split at hs
    · next heq => exact heq ▸ hg
    · exact hf.exclusive id s hs
  increasing := hf.increasing_declare name ty
  listed i hi := by
    rw [localNames_declare] at hi
    have hnext : (f.declare name ty).2.nextIndex = f.nextIndex + 1 := by
      simp [Frame.declare, nextIndex, Nat.add_assoc]
    rw [hnext]
    rcases List.mem_append.mp hi with hi | hi
    · exact Nat.lt_succ_of_lt (hf.listed i hi)
    · rw [List.mem_singleton.mp hi]
      exact Nat.lt_succ_self _

lemma Tidy.openGlobal (hf : f.Tidy temps) {name : String} (hs : f.slot? name = none) (ty : Ty) :
    (f.openGlobal name ty).Tidy temps where
  typed := hf.typed
  distinct := hf.distinct
  unnamed := hf.unnamed
  exclusive id s hid := by
    have hne : name ≠ id := by
      rintro rfl
      have hid' : f.slot? name = some s := hid
      rw [hs] at hid'
      cases hid'
    rw [global?_openGlobal, if_neg hne]
    exact hf.exclusive id s hid
  increasing := hf.increasing
  listed := hf.listed

/-- Loops play no part in the table. -/
lemma Tidy.setLoops (hf : f.Tidy temps) (loops : List Nat) : { f with loops }.Tidy temps :=
  ⟨hf.typed, hf.distinct, hf.unnamed, hf.exclusive, hf.increasing, hf.listed⟩

theorem Steps.tidy (hsteps : f.Steps temps' g) (hf : f.Tidy temps) : g.Tidy (temps ++ temps') := by
  induction hsteps generalizing temps with
  | refl => rwa [List.append_nil]
  | temporary _ ih =>
    have htidy := ih (hf.temporary _)
    rwa [List.append_assoc] at htidy
  | declare _ hg _ ih => exact ih (hf.declare hg _)
  | openGlobal hs _ _ ih => exact ih (hf.openGlobal hs _)
  | loop _ _ ihb ih =>
    rw [← List.append_assoc]
    exact ih ((ihb (hf.setLoops _)).setLoops _)

lemma localNames_paramSlots (params : List (String × Ty)) (first : Nat) :
    (paramSlots first params).map (·.2.index) = List.range' first params.length := by
  induction params generalizing first with
  | nil => rfl
  | cons p params ih =>
    simp only [paramSlots, List.map_cons, ih, List.length_cons, List.range'_succ]

/-- The parameters of a function take the first slots, in order. -/
lemma tidy_start (name : String) (params : List (String × Ty)) (returns : Ty) :
    (start name params returns).Tidy [] := by
  have hlist : (start name params returns).localNames.map (·.1) =
      List.range' 0 params.length := by
    rw [← localNames_paramSlots]
    simp [localNames, start]
  have hinc : ((start name params returns).localNames.map (·.1)).Pairwise (· < ·) := by
    rw [hlist]
    exact List.pairwise_lt_range'
  refine ⟨fun id s hs => ?_, fun _ _ _ _ => eq_of_index_eq hinc, by simp, fun _ _ _ => rfl, hinc,
    ?_⟩
  · obtain ⟨i, hi, hty⟩ := Lowering.slot_paramSlots hs
    rw [hi, Nat.zero_add]
    simpa [slotTypes, start] using hty
  · intro i hi
    rw [hlist, List.mem_range'_1] at hi
    simpa [nextIndex, start] using hi.2

end Frame

/-! ### Statements -/

namespace Lowering

open Ir (Node)
open Syntax (Expr Stmt Branch FuncHeader)

/-- Opened globals have the kinds that they are declared with. -/
def Body.OpensDeclared (b : Body) : Prop :=
  ∀ name ty, b.frame.global? name = some ty →
    ∃ d, b.session.declared.lookup name = some d ∧ ty = .num d.kind

/-- The frame of the later state comes from the earlier by steps, as long as opened globals are
declared. -/
def Body.Walks (b b' : Body) : Prop :=
  b.OpensDeclared → b'.OpensDeclared ∧ ∃ temps, b.frame.Steps temps b'.frame

namespace Body.Walks

lemma refl (b : Body) : b.Walks b := fun hb => ⟨hb, [], .refl _⟩

lemma trans {a b c : Body} (h : a.Walks b) (h' : b.Walks c) : a.Walks c := by
  intro ha
  obtain ⟨hb, temps, hab⟩ := h ha
  obtain ⟨hc, temps', hbc⟩ := h' hb
  exact ⟨hc, temps ++ temps', hab.trans hbc⟩

variable {b b' : Body}

lemma of_grows (h : b.Grows b') : b.Walks b' := by
  obtain ⟨tys, labels, events, rfl⟩ := h
  exact fun hb => ⟨hb, b.frame.exists_steps_extra tys⟩

lemma declare {name : String} (hs : b.frame.slot? name = none) (hg : b.frame.global? name = none)
    (ty : Ty) : b.Walks (b.declare name ty) :=
  fun hb => ⟨hb, [], .declare hs hg (.refl _)⟩

lemma openGlobal {name : String} {d : Declared} (hs : b.frame.slot? name = none)
    (hd : b.session.declared.lookup name = some d) :
    b.Walks ((b.promote name d).openGlobal name (.num d.kind)) := by
  intro hb
  have hdeclared := (Body.Extends.promote b name d).declared
  constructor
  · intro id ty hid
    rw [Body.openGlobal, Frame.global?_openGlobal, frame_promote] at hid
    rw [Body.openGlobal, hdeclared]
    split at hid
    · next heq =>
      cases hid
      exact ⟨d, heq ▸ hd, rfl⟩
    · exact hb id ty hid
  · rw [Body.openGlobal, frame_promote]
    refine ⟨[], .openGlobal hs (fun old hold => ?_) (.refl _)⟩
    -- a global that is opened again is still declared in the same way
    obtain ⟨d', hd', rfl⟩ := hb name old hold
    rw [hd] at hd'
    cases hd'
    rfl

lemma leaveLoop {id : Nat} (h : (b.enterLoop id).Walks b') : b.Walks b'.leaveLoop := by
  intro hb
  obtain ⟨hb', temps, hsteps⟩ := h hb
  exact ⟨hb', temps ++ [], .loop hsteps (.refl _)⟩

end Body.Walks

variable {env : Env} {b b' : Body} {n : Node}

lemma Body.Moves.walks {D : String → Prop} {names : List String} (h : b.Moves D names b') :
    b.Walks b' := by
  induction h with
  | grows h => exact .of_grows h
  | declare _ hs hg => exact .declare hs hg _
  | openGlobal _ hs hd => exact .openGlobal hs hd
  | loop _ ih => exact ih.leaveLoop
  | trans _ _ ih ih' => exact ih.trans ih'

/-- The slot table is in order, and opened globals have the kinds that they are declared with. -/
structure Body.Tidy (b : Body) (temps : List Slot) : Prop where
  slots : b.frame.Tidy temps
  globals : b.OpensDeclared

/-- What is reached from a tidy state is tidy, with the slots handed out on the way. -/
lemma Body.Walks.tidy (h : b.Walks b') {temps : List Slot} (hb : b.Tidy temps) :
    ∃ new, b.frame.Steps new b'.frame ∧ b'.Tidy (temps ++ new) := by
  obtain ⟨hglobals, new, hsteps⟩ := h hb.globals
  exact ⟨new, hsteps, hsteps.tidy hb.slots, hglobals⟩

/-- **The slot table** is in order when a function starts and stays so through any statements that
are lowered; no name ever stands for a slot that was handed out without one. A statement keeps the
slot, type or global of every name, adds to the slots at their end, and leaves the loops as they
were. -/
theorem lowering_keeps_slots (env : Env) :
    (∀ s header sig, Body.Tidy ⟨s, startFrame header sig⟩ []) ∧
      ∀ b temps, Body.Tidy b temps →
        (∀ stmts ns b', Returns (lowerStmts env stmts) b ns b' →
          ∃ new, b.frame.Steps new b'.frame ∧ b'.Tidy (temps ++ new)) ∧
        (∀ stmt n b', Returns (lowerStmt env stmt) b n b' → b.frame.Keeps b'.frame) := by
  refine ⟨fun s header sig => ⟨Frame.tidy_start _ _ _, nofun⟩, fun b temps hb => ⟨?_, ?_⟩⟩
  · intro stmts ns b' h
    exact ((lowersStmts_of_returns stmts h).moves fun _ _ _ _ _ _ => trivial).walks.tidy hb
  · intro stmt n b' h
    obtain ⟨new, hsteps, -⟩ := ((lowersStmt_of_returns stmt h).moves fun _ _ _ _ => trivial).walks.tidy hb
    exact hsteps.keeps

/-! A function with a global `g` and floored division. -/

def quotientEnv : Env where
  options := { floorDivision := .floor }
  signatures := {}

def quotientState : Body where
  session := { declared := [("g", ⟨.i64, .i64 7⟩)] }
  frame := startFrame ⟨"f", [.mk "n" ⟨0, 0⟩ none none], none, []⟩ ⟨[.i32], .void⟩

/-- `global g`, then `x = y = n // 2`, which needs four slots without names. -/
def quotientStmts : List Stmt :=
  let p : Span := ⟨0, 0⟩
  [.global p ["g"],
    .assign p [.name p "x", .name p "y"] (.binary p .floorDiv (.name p "n") (.number p "2"))]

/-- A loop in which `g` is opened again and `z` is new. -/
def quotientLoop : Stmt :=
  let p : Span := ⟨0, 0⟩
  .whileLoop p (.name p "x") [
    .global p ["g"],
    .assign p [.name p "z"] (.binary p .floorDiv (.name p "g") (.name p "y")),
    .breakLoop p] []

theorem lowering_keeps_slots_quotient : ∃ ns b temps n b',
    Returns (lowerStmts quotientEnv quotientStmts) quotientState ns b ∧
    Returns (lowerStmt quotientEnv quotientLoop) b n b' ∧
    b.frame.localNames = [(0, "n"), (5, "x"), (6, "y")] ∧
    b'.frame.localNames = [(0, "n"), (5, "x"), (6, "y"), (10, "z")] ∧
    quotientState.frame.Steps temps b.frame ∧ b.Tidy temps ∧ b.frame.Keeps b'.frame := by
  let b := ((lowerStmts quotientEnv quotientStmts).run.run quotientState).2
  have hstmts :
      ((lowerStmts quotientEnv quotientStmts).run.run quotientState).1.toOption.isSome := by
    decide +kernel
  have hloop : ((lowerStmt quotientEnv quotientLoop).run.run b).1.toOption.isSome := by
    decide +kernel
  obtain ⟨ns, hns⟩ := Option.isSome_iff_exists.mp hstmts
  obtain ⟨n, hn⟩ := Option.isSome_iff_exists.mp hloop
  have hb := Returns.of_toOption hns
  obtain ⟨hstart, hkept⟩ := lowering_keeps_slots quotientEnv
  obtain ⟨temps, hsteps, htidy⟩ := (hkept quotientState [] (hstart _ _ _)).1 _ _ _ hb
  refine ⟨ns, b, temps, n, _, hb, .of_toOption hn, by decide +kernel, by decide +kernel, hsteps,
    htidy, ?_⟩
  exact (hkept b temps htidy).2 _ _ _ (.of_toOption hn)

end Lowering

end AnnotatedWasm
