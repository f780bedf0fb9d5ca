import AnnotatedWasm.Proofs.Integer.Expression
import AnnotatedWasm.Proofs.Lowering.Soundness

/-!
Assignments of integer expressions to names.

The code of an assignment computes its value once and leaves it in each target, converted to the
kind of the target (`Assigned`). A single store is one such step; a chain of targets copies the
value from an unnamed slot, which no store in the chain can touch.
-/

namespace AnnotatedWasm.Lowering

open Ir (Node)
open Syntax (Expr Stmt)

/-! ### What an assignment leaves -/

/-- A word as it is kept in a variable of a kind. -/
def stored (floats : Floats) (x : Word) : NumKind → Literal
  | .int w => (Word.ofInt w x.value).literal
  | .float t => floats.unary (.convert x.width t) x.literal

variable {W : Type} {floats : Floats} {call : Callees W} {fuel : Nat} {x : Word}

/-- A name stands for the word, in the kind on record for the name. -/
def Holds (floats : Floats) (x : Word) (f : Frame) (st : Store Literal W) (name : String) : Prop :=
  match f.slot? name with
  | some s => ∃ k, s.ty = .num k ∧ st.locals s.index = .num (stored floats x k)
  | none => ∃ k, f.global? name = some (.num k) ∧ st.globals name = .num (stored floats x k)

/-- Slots only get more, and known names stay what they are. -/
structure KeepsNames (f f' : Frame) : Prop where
  nextIndex : f.nextIndex ≤ f'.nextIndex
  slot? : ∀ id, recordedType? f id ≠ none → f'.slot? id = f.slot? id
  global? : ∀ id, f'.global? id = f.global? id

/-- These names, as the later frame has them, stand for the word, and nothing else that the
earlier frame knows has changed. -/
structure Assigned (floats : Floats) (x : Word) (names : List String) (f f' : Frame)
    (st st' : Store Literal W) : Prop where
  keeps : KeepsNames f f'
  holds : ∀ name ∈ names, Holds floats x f' st' name
  locals : ∀ i < f.nextIndex, (∀ name ∈ names, ∀ s, f'.slot? name = some s → s.index ≠ i) →
    st'.locals i = st.locals i
  globals : ∀ g, (g ∈ names → (f'.slot? g).isSome) → st'.globals g = st.globals g
  arrays : st'.arrays = st.arrays
  world : st'.world = st.world

lemma KeepsNames.recordedType? {f f' : Frame} (h : KeepsNames f f') {id : String}
    (hid : Lowering.recordedType? f id ≠ none) :
    Lowering.recordedType? f' id = Lowering.recordedType? f id := by
  rw [Lowering.recordedType?, h.slot? id hid, h.global?, ← Lowering.recordedType?]

lemma KeepsNames.trans {f g h : Frame} (h₁ : KeepsNames f g) (h₂ : KeepsNames g h) :
    KeepsNames f h where
  nextIndex := h₁.nextIndex.trans h₂.nextIndex
  slot? id hid := by rw [h₂.slot? id (by rwa [h₁.recordedType? hid]), h₁.slot? id hid]
  global? id := by rw [h₂.global?, h₁.global?]

/-- A name that stands for something is known. -/
lemma Holds.recorded {f : Frame} {st : Store Literal W} {name : String}
    (h : Holds floats x f st name) : Lowering.recordedType? f name ≠ none := by
  unfold Holds at h
  rw [recordedType?]
  split at h
  · next hs => simp [hs]
  · next hs =>
    obtain ⟨k, hk, -⟩ := h
    simp [hs, hk]

variable {env : Env} {b b₁ b' : Body} {st st₁ st' : Store Literal W} {f : Frame} {name : String}
  {n v value : Node}

lemma Body.Sound.index_lt (hb : b.Sound env) {s : Slot}
    (hs : b.frame.slot? name = some s) : s.index < b.frame.nextIndex := by
  have h := List.getElem?_eq_some_iff.mp (hb.slots name s hs)
  simpa [Body.scope, Frame.slotTypes, Frame.nextIndex] using h.1

/-- What stands for the word does so after an assignment of the same word. -/
lemma Assigned.holds_of_holds {names : List String}
    (h : Assigned floats x names b.frame b'.frame st st') (hb : b.Sound env) (hb' : b'.Sound env)
    {id : String} (hid : Holds floats x b.frame st id) : Holds floats x b'.frame st' id := by
  by_cases hmem : id ∈ names
  · exact h.holds id hmem
  have hslot := h.keeps.slot? id hid.recorded
  unfold Holds at hid ⊢
  rw [hslot]
  rcases hs : b.frame.slot? id with _ | s
  · simp only [hs] at hid ⊢
    rw [h.keeps.global?, h.globals id fun hm => (hmem hm).elim]
    exact hid
  · simp only [hs] at hid ⊢
    by_cases htarget : ∃ name ∈ names, ∃ t, b'.frame.slot? name = some t ∧ t.index = s.index
    · -- a target may share the slot: then it has the same kind, and so the same value
      obtain ⟨name, hname, t, ht, hi⟩ := htarget
      have hholds := h.holds name hname
      simp only [Holds, ht] at hholds
      have hty : t.ty = s.ty := by
        have h₁ := hb'.slots _ _ ht
        have h₂ := hb'.slots _ _ (hslot.trans hs)
        rw [hi, h₂] at h₁
        exact (Option.some.inj h₁).symm
      rwa [hty, hi] at hholds
    · push Not at htarget
      rw [h.locals s.index (hb.index_lt hs) fun name hn t ht => htarget name hn t ht]
      exact hid

/-- Two assignments of one word, one after the other. -/
lemma Assigned.trans {names names' : List String}
    (h₁ : Assigned floats x names b.frame b₁.frame st st₁)
    (h₂ : Assigned floats x names' b₁.frame b'.frame st₁ st') (hb₁ : b₁.Sound env)
    (hb' : b'.Sound env) : Assigned floats x (names ++ names') b.frame b'.frame st st' where
  keeps := h₁.keeps.trans h₂.keeps
  holds name hname := by
    rcases List.mem_append.mp hname with hm | hm
    · exact h₂.holds_of_holds hb₁ hb' (h₁.holds name hm)
    · exact h₂.holds name hm
  locals i hi hne := by
    rw [h₂.locals i (lt_of_lt_of_le hi h₁.keeps.nextIndex) fun name hn =>
      hne name (List.mem_append_right _ hn)]
    refine h₁.locals i hi fun name hn s hs => hne name (List.mem_append_left _ hn) s ?_
    rw [h₂.keeps.slot? name (h₁.holds name hn).recorded, hs]
  globals g hg := by
    rw [h₂.globals g fun hm => hg (List.mem_append_right _ hm)]
    refine h₁.globals g fun hm => ?_
    rw [← h₂.keeps.slot? g (h₁.holds g hm).recorded]
    exact hg (List.mem_append_left _ hm)
  arrays := h₂.arrays.trans h₁.arrays
  world := h₂.world.trans h₁.world

lemma KeepsNames.of_grows (hg : b.Grows b') : KeepsNames b.frame b'.frame where
  nextIndex := by obtain ⟨_, _, _, rfl⟩ := hg; rw [nextIndex_grow]; omega
  slot? id _ := hg.slot? id
  global? := hg.global?

/-- Nothing is assigned where the frame only grows and only slots it did not have are set. -/
lemma Assigned.of_grows (hg : b.Grows b') (hlocals : ∀ i < b.frame.nextIndex,
    st'.locals i = st.locals i) (hshared : st'.toShared = st.toShared) :
    Assigned floats x [] b.frame b'.frame st st' where
  keeps := .of_grows hg
  holds := by simp
  locals i hi _ := hlocals i hi
  globals g _ := by rw [hshared]
  arrays := by rw [hshared]
  world := by rw [hshared]

/-! ### Running a store -/

/-- The code gives the word, in the kind of its type. -/
def Gives (M : Machine Literal W) (fuel : Nat) (floats : Floats) (n : Node)
    (st : Store Literal W) (x : Word) (st' : Store Literal W) : Prop :=
  ∃ k, n.ty = .num k ∧ Returns (n.eval M fuel) st (some (.num (stored floats x k))) st'

lemma stored_self (x : Word) : stored floats x (.int x.width) = x.literal := by
  rw [stored, Word.ofInt_value]

lemma Meets.gives {sh : Shared Literal W}
    (h : Meets (machine floats call) fuel f n st (some (x, sh))) :
    Gives (machine floats call) fuel floats n st x (st.withShared sh) :=
  ⟨.int x.width, h.2.1, by rw [stored_self]; exact h.1⟩

/-- A word may be converted to every kind. -/
lemma Adapts.gives {t : Ty} (h : Adapts v t n) (hty : v.ty = .num (.int x.width))
    (hv : Gives (machine floats call) fuel floats v st x st') :
    Gives (machine floats call) fuel floats n st x st' := by
  cases h with
  | same _ => exact hv
  | @number s k hs =>
    obtain ⟨k₀, hk₀, hv⟩ := hv
    obtain rfl : .int x.width = k₀ := by simpa [hty] using hk₀
    obtain rfl : .int x.width = s := by simpa [hty] using hs
    refine ⟨k, ty_convert hs, ?_⟩
    rw [stored_self] at hv
    rcases hc : Ir.UnaryOp.conversion? (.int x.width) k with _ | op
    · obtain rfl := (Ir.UnaryOp.conversion?_eq_none_iff _ _).mp hc
      rwa [convert_self hs, stored_self]
    · rw [convert_unary hs hc]
      refine returns_evalUnary hv ?_
      rcases k with w | t
      · exact unary_conversion hc
      · obtain rfl : Ir.UnaryOp.convert x.width t = op := by
          cases hw : x.width <;> simpa [hw, Ir.UnaryOp.conversion?] using hc
        rfl

/-- Nothing is done to a value that has the type already. -/
lemma Adapts.eq_self (h : Adapts v v.ty n) : n = v := by
  generalize ht : v.ty = t at h
  cases h with
  | same _ => rfl
  | number _ => exact convert_self ht

lemma Adapts.fails {M : Machine Literal W} {t : Ty} (h : Adapts v t n)
    (hv : Fails (v.eval M fuel) st .trapped) : Fails (n.eval M fuel) st .trapped := by
  cases h with
  | same _ => exact hv
  | @number s k hs =>
    rcases hc : Ir.UnaryOp.conversion? s k with _ | op
    · obtain rfl := (Ir.UnaryOp.conversion?_eq_none_iff _ _).mp hc
      rwa [convert_self hs]
    · rw [convert_unary hs hc]
      exact fails_evalUnary hv

/-! ### Targets -/

@[simp] lemma slot?_declare (name : String) (ty : Ty) (id : String) :
    (b.declare name ty).frame.slot? id =
      if name = id then some ⟨b.frame.nextIndex, ty⟩ else b.frame.slot? id :=
  lookupLast?_snoc id name _ _

lemma KeepsNames.declare (hs : b.frame.slot? name = none)
    (hg : b.frame.global? name = none) (ty : Ty) :
    KeepsNames b.frame (b.declare name ty).frame where
  nextIndex := by simp [Body.declare, Frame.declare, Frame.nextIndex]
  slot? id hid := by
    have hne : name ≠ id := by
      rintro rfl
      simp [Lowering.recordedType?, hs, hg] at hid
    rw [slot?_declare, if_neg hne]
  global? _ := rfl

/-- **One store**: a name gets the word, and all else stays. -/
lemma StoresName.assigns {M : Machine Literal W}
    (h : StoresName name value b n b') (hv : Gives M fuel floats value st x st₁)
    (hadapt : ∀ t ∈ recordedType? b.frame name, ∀ v, Adapts value t v →
      Gives M fuel floats v st x st₁) :
    ∃ st', Returns (n.eval M fuel) st none st' ∧
      Assigned floats x [name] b.frame b'.frame st₁ st' := by
  cases h with
  | slot hs ha hnotes =>
    have hg := hnotes.grows
    obtain ⟨k, hk, hret⟩ := hadapt _ (by simp [recordedType?, hs]) _ ha
    have hs' := (hg.slot? name).trans hs
    refine ⟨_, returns_localSet hret, .of_grows hg, ?_, fun i _ hi => ?_, fun _ _ => rfl, rfl, rfl⟩
    · simp only [List.mem_singleton, forall_eq, Holds, hs']
      exact ⟨k, ha.ty.symm.trans hk, by simp [Store.setLocal]⟩
    · exact Function.update_of_ne (hi name (by simp) _ hs').symm _ _
  | global hs hgl ha hnotes =>
    have hg := hnotes.grows
    obtain ⟨k, hk, hret⟩ := hadapt _ (by simp [recordedType?, hs, hgl]) _ ha
    have hs' := (hg.slot? name).trans hs
    refine ⟨_, returns_globalSet hret, .of_grows hg, ?_, fun _ _ _ => rfl, fun g hne => ?_,
      rfl, rfl⟩
    · simp only [List.mem_singleton, forall_eq, Holds, hs']
      refine ⟨k, ?_, by simp [Store.setGlobal]⟩
      rw [hg.global?, hgl, ← ha.ty, hk]
    · refine Function.update_of_ne (fun he => ?_) _ _
      subst he
      simp [hs'] at hne
  | fresh hs hgl _ =>
    obtain ⟨k, hk, hret⟩ := hv
    refine ⟨_, returns_localSet hret, .declare hs hgl _, ?_, fun i hi _ => ?_, fun _ _ => rfl, rfl,
      rfl⟩
    · simp only [List.mem_singleton, forall_eq, Holds, slot?_declare, if_true]
      exact ⟨k, hk, by simp [Store.setLocal]⟩
    · exact Function.update_of_ne (Nat.ne_of_lt hi) _ _

lemma StoresName.fails {M : Machine Literal W}
    (h : StoresName name value b n b') (hv : Fails (value.eval M fuel) st .trapped) :
    Fails (n.eval M fuel) st .trapped := by
  cases h with
  | slot _ ha _ => exact fails_localSet (ha.fails hv)
  | global _ _ ha _ => exact fails_globalSet (ha.fails hv)
  | fresh _ _ _ => exact fails_localSet hv

lemma StoresName.sound (h : StoresName name value b n b') (hb : b.Sound env) : b'.Sound env := by
  cases h with
  | slot _ _ hg => exact hg.grows.sound hb
  | global _ _ _ hg => exact hg.grows.sound hb
  | fresh _ _ _ => exact hb.declare _ _

/-- There is such a slot, and it has no name. -/
structure Unnamed (i : Nat) (f : Frame) : Prop where
  index_lt : i < f.nextIndex
  index_ne : ∀ id s, f.slot? id = some s → s.index ≠ i

lemma StoresName.unnamed (h : StoresName name value b n b')
    {i : Nat} (hi : Unnamed i b.frame) : Unnamed i b'.frame := by
  have grows (hg : b.Grows b') : Unnamed i b'.frame :=
    ⟨hi.index_lt.trans_le (KeepsNames.of_grows hg).nextIndex,
      fun id s hs => hi.index_ne id s (by rwa [← hg.slot?])⟩
  cases h with
  | slot _ _ hg => exact grows hg.grows
  | global _ _ _ hg => exact grows hg.grows
  | fresh hs hgl _ =>
    refine ⟨hi.index_lt.trans_le (KeepsNames.declare hs hgl _).nextIndex, fun id s hs' => ?_⟩
    rw [slot?_declare] at hs'
    split at hs'
    · cases hs'
      exact (Nat.ne_of_lt hi.index_lt).symm
    · exact hi.index_ne id s hs'

/-- **A chain of stores** from an unnamed slot that keeps the word. -/
lemma StoresAll.assigns {i : Nat} {targets : List Expr} {ns : List Node}
    (h : StoresAll env value targets b ns b') (hvalue : value = slotGet ⟨i, .num (.int x.width)⟩)
    {names : List String} (hnames : targets.mapM Expr.name? = some names) (hb : b.Sound env)
    (hi : Unnamed i b.frame) (hx : st.locals i = .num x.literal) :
    ∃ st', Returns (Node.evalAll (machine floats call) fuel ns) st none st' ∧
      Assigned floats x names b.frame b'.frame st st' ∧ b'.Sound env := by
  induction h generalizing st names with
  | nil =>
    cases hnames
    exact ⟨st, rfl, .of_grows (.refl _) (fun _ _ => rfl) rfl, hb⟩
  | @cons target targets b n b₁ ns b' hs hss ih =>
    rcases hs with ⟨hs⟩ | ⟨_⟩
    · rename_i span id
      simp only [List.mapM_cons, Expr.name?, Option.bind_eq_bind, Option.bind_some,
        Option.bind_eq_some_iff] at hnames
      obtain ⟨rest, hrest, he⟩ := hnames
      cases he
      have hgives : Gives (machine floats call) fuel floats value st x st := by
        subst hvalue
        refine ⟨.int x.width, rfl, ?_⟩
        rw [stored_self]
        exact returns_localGet hx
      have hty : value.ty = .num (.int x.width) := by rw [hvalue, ty_slotGet]
      obtain ⟨st₁, hret, ha⟩ := hs.assigns hgives fun _ _ _ hadapt => hadapt.gives hty hgives
      -- the store has left the unnamed slot alone
      have hi₁ := hs.unnamed hi
      have hx₁ : st₁.locals i = .num x.literal := by
        rw [ha.locals i hi.index_lt fun name _ s hs' => hi₁.index_ne name s hs', hx]
      have hb₁ := hs.sound hb
      obtain ⟨st', hret', ha', hb'⟩ := ih hrest hb₁ hi₁ hx₁
      exact ⟨st', returns_evalAll_cons hret hret', ha.trans ha' hb₁ hb', hb'⟩
    · simp [List.mapM_cons, Expr.name?] at hnames

/-! ### Statements -/

/-- The code assigns the word to these names and leaves what is shared as the meaning does, or it
traps where there is no meaning. -/
def Performs (floats : Floats) (call : Callees W) (fuel : Nat) (names : List String)
    (f f' : Frame) (n : Node) (st : Store Literal W) : Option (Word × Shared Literal W) → Prop
  | some (x, sh) => ∃ st', Returns (n.eval (machine floats call) fuel) st none st' ∧
      Assigned floats x names f f' (st.withShared sh) st'
  | none => Fails (n.eval (machine floats call) fuel) st .trapped

/-- A store of a value to one name. -/
lemma StoresName.performs {r : Option (Word × Shared Literal W)}
    (h : StoresName name value b₁ n b') (hg : b.Grows b₁) (hb : b.Sound env)
    (hnone : r = none → Fails (value.eval (machine floats call) fuel) st .trapped)
    (hsome : ∀ x sh, r = some (x, sh) →
      Gives (machine floats call) fuel floats value st x (st.withShared sh) ∧
      ∀ t ∈ recordedType? b₁.frame name, ∀ v, Adapts value t v →
        Gives (machine floats call) fuel floats v st x (st.withShared sh)) :
    Performs floats call fuel [name] b.frame b'.frame n st r := by
  rcases r with _ | ⟨x, sh⟩
  · exact h.fails (hnone rfl)
  · obtain ⟨hv, hadapt⟩ := hsome x sh rfl
    obtain ⟨st', hret, ha⟩ := h.assigns hv hadapt
    have hb₁ := hg.sound hb
    exact ⟨st', hret, (Assigned.of_grows hg (fun _ _ => rfl) rfl).trans ha hb₁ (h.sound hb₁)⟩

lemma Meets.performs {r : Option (Word × Shared Literal W)}
    (hm : Meets (machine floats call) fuel f value st r)
    (h : StoresName name value b₁ n b') (hg : b.Grows b₁) (hb : b.Sound env) :
    Performs floats call fuel [name] b.frame b'.frame n st r := by
  refine h.performs hg hb (fun hr => ?_) fun x sh hr => ?_
  · rwa [hr] at hm
  · subst hr
    exact ⟨hm.gives, fun _ _ _ hadapt => hadapt.gives hm.2.1 hm.gives⟩

/-- A store of a value that has the type of the name already. -/
lemma Meets.performsTyped {r : Option (Word × Shared Literal W)} {ty : Ty}
    (hm : Meets (machine floats call) fuel f v st r)
    (ha : Adapts v ty value) (hold : ∀ t ∈ recordedType? b₁.frame name, t = ty)
    (h : StoresName name value b₁ n b') (hg : b.Grows b₁) (hb : b.Sound env) :
    Performs floats call fuel [name] b.frame b'.frame n st r := by
  refine h.performs hg hb (fun hr => ?_) fun x sh hr => ?_
  · subst hr
    exact ha.fails hm
  · subst hr
    have hgives := ha.gives hm.2.1 hm.gives
    refine ⟨hgives, fun t ht v hv => ?_⟩
    rw [hold t ht, ← ha.ty] at hv
    rwa [hv.eq_self]

/-- A store to a chain of names, through an unnamed slot. -/
lemma Meets.performsAll {r : Option (Word × Shared Literal W)} {names : List String}
    {targets : List Expr} {ns : List Node}
    (hm : Meets (machine floats call) fuel f v st r)
    (h : StoresAll env (slotGet ⟨b₁.frame.nextIndex, v.ty⟩) targets (b₁.grow [v.ty] 0 []) ns b')
    (hnames : targets.mapM Expr.name? = some names) (hg : b.Grows b₁) (hb : b.Sound env) :
    Performs floats call fuel names b.frame b'.frame
      (.block none (.localSet b₁.frame.nextIndex v :: ns) .void) st r := by
  rcases r with _ | ⟨x, sh⟩
  · exact fails_evalAll_cons (fails_localSet hm)
  obtain ⟨hret, hty, -⟩ := hm
  have hb₁ := hg.sound hb
  have hg' : b.Grows (b₁.grow [v.ty] 0 []) := hg.trans ⟨_, _, _, rfl⟩
  have hlt : b.frame.nextIndex ≤ b₁.frame.nextIndex := (KeepsNames.of_grows hg).nextIndex
  have hunnamed : Unnamed b₁.frame.nextIndex (b₁.grow [v.ty] 0 []).frame := by
    refine ⟨by rw [nextIndex_grow]; simp, fun id s hs => ?_⟩
    exact Nat.ne_of_lt (hb₁.index_lt (hs : b₁.frame.slot? id = some s))
  let st₁ := (st.withShared sh).setLocal b₁.frame.nextIndex (.num x.literal)
  have hx : st₁.locals b₁.frame.nextIndex = .num x.literal := Function.update_self _ _ _
  have hkept : Assigned floats x [] b.frame (b₁.grow [v.ty] 0 []).frame (st.withShared sh) st₁ :=
    .of_grows hg' (fun i hi => Function.update_of_ne (by omega) _ _) rfl
  obtain ⟨st', hret', ha, hb'⟩ := h.assigns (by rw [hty]) hnames (hg'.sound hb) hunnamed hx
  refine ⟨st', ?_, hkept.trans ha (hg'.sound hb) hb'⟩
  exact returns_evalAll_cons (returns_localSet hret) hret'

/-- **Assignments**: the lowered code of an assignment stores the meaning of its value. -/
lemma LowersSimple.performs {s : Stmt} {names : List String} {e : Expr}
    (h : LowersSimple env s b n b') (hs : s.assigns? = some (names, e))
    (hi : IntExpr b.frame env.signatures e) (ht : env.options.floorDivision = .truncate)
    (hcall : call.Fit b.frame env.signatures) (hb : b.Sound env) (hst : st.Fits b.frame) :
    Performs floats call fuel names b.frame b'.frame n st
      (e.meaning b.frame env.signatures call st.locals st.toShared) := by
  have same := SameNames.refl b.frame
  cases h with
  | assign hv hstore =>
    cases hstore with
    | name hstore =>
      cases hs
      exact (hv.meets ht hcall hi same hst).performs hstore hv.grows hb
    | element => simp [Stmt.assigns?, List.mapM_cons, Expr.name?] at hs
  | @assignAll _ targets _ _ _ _ _ _ _ hv _ hstores =>
    obtain ⟨rest, hnames, he⟩ := Option.bind_eq_some_iff.mp hs
    cases he
    exact (hv.meets ht hcall hi same hst).performsAll hstores hnames hv.grows hb
  | annAssign _ _ _ hold hv hc hstore =>
    cases hs
    obtain ⟨hg, hadapt⟩ := returns_coerce hc
    have hgrows := hv.grows.trans hg.grows
    refine (hv.meets ht hcall hi same hst).performsTyped hadapt ?_ hstore hgrows hb
    rwa [hgrows.recordedType?]
  | augAssign hv hstore =>
    cases hs
    exact (hv.meets ht hcall hi same hst).performs hstore hv.grows hb
  | comment | effect | drop | declare | pass | global | importModule | importNames =>
    cases hs

/-- **Integer code has its meaning**: with division toward zero, the code of every integer
expression gives the word that the expression means, and the code of an assignment to names stores
it, once, in each of them and changes nothing else; both trap exactly where there is no meaning.

The state is any that a function may be lowered in, the store holds numbers of the kinds on record,
and callees do what they like within their signatures. -/
theorem lower_integer_meaning (env : Env) (ht : env.options.floorDivision = .truncate)
    (floats : Floats) (call : Callees W) (fuel : Nat) (b : Body) (hb : b.Sound env)
    (hcall : call.Fit b.frame env.signatures) (st : Store Literal W) (hst : st.Fits b.frame) :
    (∀ hint e n b', IntExpr b.frame env.signatures e → Returns (lowerExpr env hint e) b n b' →
      Meets (machine floats call) fuel b.frame n st
        (e.meaning b.frame env.signatures call st.locals st.toShared)) ∧
    (∀ s names e n b', s.assigns? = some (names, e) → IntExpr b.frame env.signatures e →
      Returns (lowerStmt env s) b n b' →
      Performs floats call fuel names b.frame b'.frame n st
        (e.meaning b.frame env.signatures call st.locals st.toShared)) := by
  constructor
  · intro hint e n b' hi h
    exact (lowersExpr_of_returns h).meets ht hcall hi (.refl _) hst
  · intro s names e n b' hs hi h
    cases lowersStmt_of_returns s h with
    | simple h => exact h.performs hs hi ht hcall hb hst
    | retNone | retSome | breakLoop | continueLoop | assert | ifElse | whileLoop => cases hs

/-! `g = k = n // f(x - g)`, where `g` is a global that `f` changes. -/

def chainEnv : Env where
  options := {}
  signatures := { functions := [("f", { params := [.num .i64], returns := .i32 })] }

def chainState : Body :=
  let g : Declared := ⟨.i32, .i32 0⟩
  let start : Frame := .start "h" [("x", .i32), ("n", .num .i64)] .void
  (Body.promote ⟨{ declared := [("g", g)] }, start⟩ "g" g).openGlobal "g" .i32

def chainStmt : Stmt :=
  let p : Span := ⟨0, 0⟩
  .assign p [.name p "g", .name p "k"]
    (.binary p .floorDiv (.name p "n")
      (.call p (.name p "f") [.binary p .sub (.name p "x") (.name p "g")] []))

/-- `f` sets the global to nine and returns two. -/
def chainCallees : Callees Unit := fun _ _ sh =>
  some (some (.num (.i32 2)), { sh with globals := Function.update sh.globals "g" (.num (.i32 9)) })

def chainStore : Store Literal Unit where
  globals _ := .num (.i32 3)
  arrays := []
  world := ()
  locals i := if i = 1 then .num (.i64 (-9)) else .num (.i32 7)

lemma chainState_sound : chainState.Sound chainEnv := by
  refine Body.Sound.openGlobal (sound_start ⟨by simp, ?_⟩ _ _ _) rfl
  intro name g h
  cases h

lemma slot?_chainState {s : Slot} (h : chainState.frame.slot? name = some s) :
    s = ⟨0, .i32⟩ ∨ s = ⟨1, .num .i64⟩ := by
  have hs : chainState.frame.bindings = [("x", ⟨0, .i32⟩), ("n", ⟨1, .num .i64⟩)] := by
    decide +kernel
  rw [Frame.slot?, hs] at h
  simp only [lookupLast?] at h
  grind

lemma global?_chainState {t : Ty} (h : chainState.frame.global? name = some t) :
    name = "g" ∧ t = .i32 := by
  have hg : chainState.frame.globals = [("g", .i32)] := by decide +kernel
  rw [Frame.global?, hg] at h
  simp only [lookupLast?] at h
  grind

lemma chainCallees_fit : chainCallees.Fit chainState.frame chainEnv.signatures := by
  intro name sig vs sh r sh' hsig _ _ hr
  cases hr
  refine ⟨fun g t hg => ?_, fun _ => ⟨_, rfl, ?_⟩⟩
  · obtain ⟨rfl, rfl⟩ := global?_chainState hg
    rintro _ ⟨⟩
    exact ⟨.i32 9, rfl, rfl⟩
  · have hret : sig.returns = .i32 := by
      simp only [chainEnv, Signatures.get?, List.lookup] at hsig
      grind
    rw [hret]
    rintro _ ⟨⟩
    exact ⟨.i32 2, rfl, rfl⟩

lemma chainStore_fits : chainStore.Fits chainState.frame where
  shared g t hg := by
    obtain ⟨-, rfl⟩ := global?_chainState hg
    rintro _ ⟨⟩
    exact ⟨.i32 3, rfl, rfl⟩
  locals name s hs := by
    rcases slot?_chainState hs with rfl | rfl <;> rintro _ ⟨⟩
    · exact ⟨.i32 7, rfl, rfl⟩
    · exact ⟨.i64 (-9), rfl, rfl⟩

theorem lower_integer_meaning_chain : ∃ names e n b',
    chainStmt.assigns? = some (names, e) ∧ Returns (lowerStmt chainEnv chainStmt) chainState n b' ∧
      ((e.meaning chainState.frame chainEnv.signatures chainCallees chainStore.locals
        chainStore.toShared).map (·.1.value)) = some (-4) ∧
      ∀ floats fuel, Performs floats chainCallees fuel names chainState.frame b'.frame n chainStore
        (e.meaning chainState.frame chainEnv.signatures chainCallees chainStore.locals
          chainStore.toShared) := by
  have hok : ((lowerStmt chainEnv chainStmt).run.run chainState).1.toOption.isSome := by
    decide +kernel
  obtain ⟨n, hn⟩ := Option.isSome_iff_exists.mp hok
  refine ⟨_, _, n, _, rfl, Returns.of_toOption hn, by decide +kernel, fun floats fuel => ?_⟩
  refine (lower_integer_meaning chainEnv rfl floats chainCallees fuel chainState chainState_sound
    chainCallees_fit chainStore chainStore_fits).2 chainStmt _ _ n _ rfl ?_ (Returns.of_toOption hn)
  refine .binary (by decide) (.name (w := .w64) (by decide +kernel)) (.call rfl ?_ rfl ?_)
  · simp
  · simp only [List.mem_singleton, forall_eq]
    exact .binary (by decide) (.name (w := .w32) (by decide +kernel))
      (.name (w := .w32) (by decide +kernel))

end AnnotatedWasm.Lowering
