import AnnotatedWasm.Proofs.Wasm.WellTyped

/-!
Why emission fails.

A node of a function stands inside some constructs (`Within`). There is no binary file of a module
just where a local has no value, or a node refers to a name that stands for nothing in its place
(`Faulty`): a label of none of the constructs around it, a function or a global that the module has
not. Emission comes to the nodes in the order of `places`, and it is the first defect in this order
that is reported (`encode_error_iff`).
-/

namespace AnnotatedWasm

/-! ### Places -/

namespace Ir

namespace Node

/-- The nodes right below a node, each with the constructs that the node puts around it. -/
def inner : Node → List (Enclosing × Node)
  | block l body t => body.map fun m => ([(l, t)], m)
  | loop l body => [([(some l, .void)], body)]
  | ifElse c a e => ([], c) :: ([(none, .void)], a) :: e.toList.map fun m => ([(none, .void)], m)
  | n => n.children.map fun m => ([], m)

lemma inner_map_snd (n : Node) : n.inner.map (·.2) = n.children := by
  cases n <;> simp [inner, children]

/-- If the first node stands inside the first constructs, then the second one is in it and stands
inside the second ones. -/
inductive Within : Enclosing → Node → Enclosing → Node → Prop
  | self {E n} : Within E n E n
  | inner {E n D c E' m} : (D, c) ∈ n.inner → Within (D ++ E) c E' m → Within E n E' m

lemma mem_children {n c : Node} {D : Enclosing} (h : (D, c) ∈ n.inner) : c ∈ n.children := by
  rw [← inner_map_snd]
  exact List.mem_map_of_mem h

lemma Within.mem_subnodes {E E' : Enclosing} {n m : Node} (h : Within E n E' m) :
    m ∈ n.subnodes := by
  induction h with
  | self => rw [subnodes_eq]; exact List.mem_cons_self
  | inner hc _ ih =>
    rw [subnodes_eq]
    exact List.mem_cons_of_mem _ (List.mem_flatMap_of_mem (mem_children hc) ih)

/-- Every node in a node has a place. -/
lemma exists_within (E : Enclosing) (n : Node) {m : Node} (h : m ∈ n.subnodes) :
    ∃ E', Within E n E' m := by
  rw [subnodes_eq, List.mem_cons, List.mem_flatMap] at h
  rcases h with rfl | ⟨c, hc, hm⟩
  · exact ⟨E, .self⟩
  · rw [← inner_map_snd] at hc
    obtain ⟨⟨D, c⟩, hD, rfl⟩ := List.mem_map.mp hc
    obtain ⟨E', hE'⟩ := exists_within (D ++ E) c hm
    exact ⟨E', .inner hD hE'⟩
termination_by n.subnodes.length
decreasing_by exact length_subnodes_lt (mem_children hD)

mutual

/-- The nodes in a node, each with the constructs around it, in the order in which emission looks
at their names: operands come first, the condition of a choice last of them, but a branch looks for
its label before its condition. -/
def places (E : Enclosing) : Node → List (Enclosing × Node)
  | n@nop | n@unreachable | n@(const _) | n@(string _) | n@(localGet _ _)
  | n@(globalGet _ _) | n@(br _) => [(E, n)]
  | n@(localSet _ v) | n@(globalSet _ v) | n@(unary _ v) | n@(drop v) | n@(arrayLen v) =>
    places E v ++ [(E, n)]
  | n@(brIf _ c) => (E, n) :: places E c
  | n@(binary _ a b) | n@(arrayNew _ a b) | n@(arrayGet _ a b) =>
    places E a ++ places E b ++ [(E, n)]
  | n@(select c a b) => places E a ++ places E b ++ places E c ++ [(E, n)]
  | n@(arraySet _ a i v) => places E a ++ places E i ++ places E v ++ [(E, n)]
  | n@(block l body t) => placesAll ((l, t) :: E) body ++ [(E, n)]
  | n@(loop l body) => places ((some l, .void) :: E) body ++ [(E, n)]
  | n@(ifElse c a e) =>
    places E c ++ places ((none, .void) :: E) a ++ placesOpt ((none, .void) :: E) e ++ [(E, n)]
  | n@(call _ args _) | n@(arrayNewFixed _ args) => placesAll E args ++ [(E, n)]
  | n@(ret v) => placesOpt E v ++ [(E, n)]

def placesAll (E : Enclosing) : List Node → List (Enclosing × Node)
  | [] => []
  | n :: ns => places E n ++ placesAll E ns

def placesOpt (E : Enclosing) : Option Node → List (Enclosing × Node)
  | none => []
  | some n => places E n

end

lemma placesAll_eq (E : Enclosing) (ns : List Node) : placesAll E ns = ns.flatMap (places E) := by
  induction ns with
  | nil => rfl
  | cons n ns ih => rw [placesAll, ih]; rfl

lemma placesOpt_eq (E : Enclosing) (e : Option Node) :
    placesOpt E e = e.toList.flatMap (places E) := by
  cases e <;> simp [placesOpt]

/-- A node in its place, and the places in the nodes right below it. -/
lemma places_perm_inner (E : Enclosing) (n : Node) :
    (n.places E).Perm ((E, n) :: n.inner.flatMap fun c => c.2.places (c.1 ++ E)) := by
  cases n
  case brIf l c => simp [places, inner, children]
  case select c a b =>
    have hcondition : (a.places E ++ b.places E ++ c.places E).Perm
        (c.places E ++ (a.places E ++ b.places E)) := List.perm_append_comm
    simpa [places, inner, children] using
      (List.perm_append_singleton _ _).trans (hcondition.cons (E, select c a b))
  all_goals
    simp only [places, inner, children, placesAll_eq, placesOpt_eq, List.map_cons, List.map_nil,
      List.flatMap_cons, List.flatMap_nil, List.flatMap_map, List.append_nil, List.nil_append,
      List.cons_append, ← List.append_assoc]
    first | exact .refl _ | exact List.perm_append_singleton _ _

/-- The places in a node are those of the nodes in it, each as often as it occurs. -/
lemma places_perm (E : Enclosing) (n : Node) : ((n.places E).map (·.2)).Perm n.subnodes := by
  have hinner : (n.inner.flatMap fun c => (c.2.places (c.1 ++ E)).map (·.2)).Perm
      (n.inner.flatMap fun c => c.2.subnodes) :=
    List.Perm.flatMap_left _ fun c hc => places_perm (c.1 ++ E) c.2
  rw [subnodes_eq, ← inner_map_snd, List.flatMap_map]
  refine ((n.places_perm_inner E).map _).trans ?_
  rw [List.map_cons, List.map_flatMap]
  exact hinner.cons n
termination_by n.subnodes.length
decreasing_by exact length_subnodes_lt (mem_children hc)

lemma Within.mem_places {E E' : Enclosing} {n m : Node} (h : Within E n E' m) :
    (E', m) ∈ n.places E := by
  induction h with
  | @self E n => exact (n.places_perm_inner E).mem_iff.mpr List.mem_cons_self
  | @inner E n D c E' m hc _ ih =>
    rw [(n.places_perm_inner E).mem_iff]
    exact List.mem_cons_of_mem _ (List.mem_flatMap_of_mem hc ih)

lemma within_of_mem_places {E E' : Enclosing} {n m : Node} (h : (E', m) ∈ n.places E) :
    Within E n E' m := by
  rw [(n.places_perm_inner E).mem_iff, List.mem_cons, List.mem_flatMap] at h
  rcases h with h | ⟨⟨D, c⟩, hc, hm⟩
  · cases h
    exact .self
  · exact .inner hc (within_of_mem_places hm)
termination_by n.subnodes.length
decreasing_by exact length_subnodes_lt (mem_children hc)

/-- The label that a node branches to. -/
def target? : Node → Option Label
  | br l | brIf l _ => some l
  | _ => none

/-- The function that a node calls. -/
def callee? : Node → Option String
  | call f _ _ => some f
  | _ => none

lemma branchOptIn_iff {E : Enclosing} {e : Option Node} : BranchOptIn E e ↔ ∀ n ∈ e, n.BranchesIn E := by
  cases e <;> simp [BranchOptIn]

/-- A node branches to a construct around it, and the nodes right below it do so too, inside what
the node puts around them. -/
lemma branchesIn_iff {E : Enclosing} {n : Node} : n.BranchesIn E ↔
    (∀ l ∈ n.target?, E.Reaches l) ∧ ∀ p ∈ n.inner, p.2.BranchesIn (p.1 ++ E) := by
  cases n <;> simp only [BranchesIn, branchAllIn_iff, branchOptIn_iff, target?, inner, children,
    List.forall_mem_cons, List.forall_mem_map, List.map_cons, List.map_nil, Option.mem_toList,
    Option.mem_def, List.cons_append, List.nil_append, Option.some.injEq, forall_eq',
    List.not_mem_nil, false_implies, implies_true, reduceCtorEq, true_and, and_true]

lemma Within.branchesIn {E E' : Enclosing} {n m : Node} (h : Within E n E' m)
    (hn : n.BranchesIn E) : m.BranchesIn E' := by
  induction h with
  | self => exact hn
  | inner hc _ ih => exact ih ((branchesIn_iff.mp hn).2 _ hc)

end Node

namespace Function

/-- In the function, the node stands inside the constructs. -/
def Within (f : Function) (E : Enclosing) (m : Node) : Prop :=
  ∃ n ∈ f.body, n.Within [] E m

lemma Within.mem_subnodes {f : Function} {E : Enclosing} {m : Node} (h : f.Within E m) :
    m ∈ f.subnodes := by
  obtain ⟨n, hn, hm⟩ := h
  rw [subnodes, Node.subnodesAll_eq]
  exact List.mem_flatMap_of_mem hn hm.mem_subnodes

lemma exists_within {f : Function} {m : Node} (h : m ∈ f.subnodes) : ∃ E, f.Within E m := by
  rw [subnodes, Node.subnodesAll_eq, List.mem_flatMap] at h
  obtain ⟨n, hn, hm⟩ := h
  obtain ⟨E, hE⟩ := n.exists_within [] hm
  exact ⟨E, n, hn, hE⟩

/-- The nodes of the function in the order of emission, each with the constructs around it. -/
def places (f : Function) : List (Enclosing × Node) := Node.placesAll [] f.body

lemma mem_places {f : Function} {E : Enclosing} {m : Node} :
    (E, m) ∈ f.places ↔ f.Within E m := by
  rw [places, Node.placesAll_eq, List.mem_flatMap]
  exact exists_congr fun n => and_congr_right fun _ =>
    ⟨Node.within_of_mem_places, Node.Within.mem_places⟩

/-- Every node of the function has its place in the order, as often as it occurs. -/
lemma places_perm (f : Function) : (f.places.map (·.2)).Perm f.subnodes := by
  rw [places, Node.placesAll_eq, List.map_flatMap, subnodes, Node.subnodesAll_eq]
  exact List.Perm.flatMap_left _ fun n _ => n.places_perm []

end Function

end Ir

/-! ### Failures of a step -/

namespace Wasm

open Ir (Node Enclosing)

/-- The error of a computation that fails. -/
def fault? {α : Type} : Except EmitError α → Option EmitError
  | .ok _ => none
  | .error e => some e

lemma fault?_eq_some_iff {α : Type} {x : Except EmitError α} {e : EmitError} :
    fault? x = some e ↔ x = .error e := by
  cases x <;> simp [fault?]

/-- From every pool, the step succeeds or has this error. -/
def Faults {α : Type} (x : Emit α) (o : Option EmitError) : Prop := ∀ p, fault? (x.run p) = o

namespace Faults

variable {α β : Type} {x : Emit α} {o o' : Option EmitError}

lemma pure {a : α} : Faults (pure a) none := fun _ => rfl

lemma throw {e : EmitError} : Faults (throw e : Emit α) (some e) := fun _ => rfl

/-- The error of the first step counts. -/
lemma bind {f : α → Emit β} (h : Faults x o) (h' : ∀ a, Faults (f a) o') :
    Faults (x >>= f) (o.or o') := by
  intro p
  have hx := h p
  rw [StateT.run_bind]
  rcases hrun : x.run p with e | ⟨a, q⟩ <;> rw [hrun] at hx <;> subst hx
  · rfl
  · exact h' a q

/-- Before a step comes one that never fails. -/
lemma after {f : α → Emit β} (h : Faults x none) (h' : ∀ a, Faults (f a) o) : Faults (x >>= f) o :=
  h.bind h'

/-- What follows the step never fails. -/
lemma last {f : α → Emit β} (h : Faults x o) (h' : ∀ a, Faults (f a) none) :
    Faults (x >>= f) o := by
  simpa only [Option.or_none] using h.bind h'

end Faults

lemma faults_arrayType (s : Storage) : Faults (arrayType s) none := fun _ => rfl

lemma faults_valType (t : Ty) : Faults (valType t) none := fun _ => rfl

lemma faults_addSegment (bytes : List UInt8) : Faults (addSegment bytes) none := fun _ => rfl

lemma faults_functionTypes (fs : List Ir.Function) : Faults (functionTypes fs) none := by
  induction fs with
  | nil => exact .pure
  | cons f fs ih => exact fun p => ih.last (fun is => .pure (a := _ :: is)) _

/-! ### Failures of nodes -/

/-- In this place, the node refers to a name that stands for nothing. -/
inductive Misses (S : Symbols) (E : Enclosing) : Node → EmitError → Prop
  | label {n l} : n.target? = some l → (∀ c ∈ E, c.1 ≠ some l) → Misses S E n (.unknownLabel l)
  | call {f args ty} : f ∉ S.functions → Misses S E (.call f args ty) (.unknownFunction f)
  | globalGet {g ty} : g ∉ S.globals → Misses S E (.globalGet g ty) (.unknownGlobal g)
  | globalSet {g v} : g ∉ S.globals → Misses S E (.globalSet g v) (.unknownGlobal g)

/-- The defect of a node in its place. -/
def defect? (S : Symbols) : Enclosing × Node → Option EmitError
  | (E, .br l) | (E, .brIf l _) =>
    if some l ∈ E.map (·.1) then none else some (.unknownLabel l)
  | (_, .call f _ _) => if f ∈ S.functions then none else some (.unknownFunction f)
  | (_, .globalGet g _) | (_, .globalSet g _) =>
    if g ∈ S.globals then none else some (.unknownGlobal g)
  | _ => none

variable {S : Symbols}

lemma defect?_eq_some_iff {E : Enclosing} {n : Node} {e : EmitError} :
    defect? S (E, n) = some e ↔ Misses S E n e := by
  have hlabels (l : Ir.Label) : some l ∉ E.map (·.1) ↔ ∀ c ∈ E, c.1 ≠ some l := by
    rw [List.mem_map]
    push Not
    rfl
  constructor
  · intro h
    cases n <;> simp only [defect?, Option.ite_none_left_eq_some, Option.some.injEq,
      reduceCtorEq] at h
    case br | brIf =>
      obtain ⟨hl, rfl⟩ := h
      exact .label rfl ((hlabels _).mp hl)
    case call => exact h.2 ▸ .call h.1
    case globalGet => exact h.2 ▸ .globalGet h.1
    case globalSet => exact h.2 ▸ .globalSet h.1
  · intro h
    cases h with
    | @label _ l hn hl =>
      cases n <;> cases hn <;> exact if_neg ((hlabels l).mpr hl)
    | call h | globalGet h | globalSet h => exact if_neg h

lemma lastIndexOf?_eq_none_iff {name : String} {names : List String} :
    lastIndexOf? name names = none ↔ name ∉ names := by
  induction names with
  | nil => simp [lastIndexOf?]
  | cons n names ih =>
    rw [lastIndexOf?, List.mem_cons, not_or, ← ih]
    rcases lastIndexOf? name names with _ | i
    · simp [eq_comm]
    · simp

/-- A look-up fails just where there is nothing to find. -/
lemma faults_found {o : Option Nat} {P : Prop} [Decidable P] {e : EmitError} (h : o = none ↔ ¬ P) :
    Faults (match o with | some i => return i | none => throw e) (if P then none else some e) := by
  cases o with
  | none => rw [if_neg (h.mp rfl)]; exact .throw
  | some i => rw [if_pos (not_not.mp (mt h.mpr nofun))]; exact .pure

lemma faults_function (name : String) : Faults (S.function name)
    (if name ∈ S.functions then none else some (.unknownFunction name)) :=
  faults_found lastIndexOf?_eq_none_iff

lemma faults_global (name : String) : Faults (S.global name)
    (if name ∈ S.globals then none else some (.unknownGlobal name)) :=
  faults_found lastIndexOf?_eq_none_iff

lemma faults_depthOf (labels : Labels) (l : Ir.Label) : Faults (depthOf labels l)
    (if some l ∈ labels then none else some (.unknownLabel l)) :=
  faults_found List.idxOf?_eq_none_iff

open List (findSome?_append findSome?_singleton) in
mutual

/-- **Nodes**: emission fails at the first defect. -/
lemma emit_faults : (n : Node) → (E : Enclosing) →
    Faults (emit S (E.map (·.1)) n) ((n.places E).findSome? (defect? S))
  | .nop, E | .unreachable, E | .const _, E | .localGet _ _, E | .ret none, E => by
    rw [emit]
    exact .pure
  | .string s, E => by
    rw [emit, emitString]
    exact (faults_arrayType .byte).after fun _ => (faults_addSegment _).after fun _ =>
      .pure
  | .localSet _ v, E | .unary _ v, E | .drop v, E | .arrayLen v, E | .ret (some v), E => by
    rw [emit, Node.places, findSome?_append]
    exact (emit_faults v E).bind fun _ => .pure
  | .globalGet g _, E => by
    rw [emit, Node.places, findSome?_singleton]
    exact (faults_global g).last fun _ => .pure
  | .globalSet g v, E => by
    rw [emit, Node.places, findSome?_append, findSome?_singleton]
    exact (emit_faults v E).bind fun _ => (faults_global g).last fun _ => .pure
  | .binary _ a b, E => by
    rw [emit, Node.places, List.append_assoc, findSome?_append, findSome?_append]
    exact (emit_faults a E).bind fun _ => (emit_faults b E).bind fun _ => .pure
  | .arrayNew k a b, E | .arrayGet k a b, E => by
    rw [emit, Node.places, List.append_assoc, findSome?_append, findSome?_append]
    exact (emit_faults a E).bind fun _ => (emit_faults b E).bind fun _ =>
      (faults_arrayType _).after fun _ => .pure
  | .arraySet k a i v, E => by
    rw [emit, Node.places, List.append_assoc, List.append_assoc, findSome?_append, findSome?_append,
      findSome?_append]
    exact (emit_faults a E).bind fun _ => (emit_faults i E).bind fun _ =>
      (emit_faults v E).bind fun _ => (faults_arrayType _).after fun _ => .pure
  | .select c a b, E => by
    rw [emit, Node.places, List.append_assoc, List.append_assoc, findSome?_append, findSome?_append,
      findSome?_append]
    refine (emit_faults a E).bind fun _ => (emit_faults b E).bind fun _ =>
      (emit_faults c E).bind fun _ => ?_
    split
    · exact (faults_valType _).after fun v => by cases v <;> exact .pure
    · exact .pure
  | .block l body t, E => by
    rw [emit, Node.places, findSome?_append]
    exact (faults_valType t).after fun _ =>
      (emitAll_faults body ((l, t) :: E)).bind fun _ => .pure
  | .loop l body, E => by
    rw [emit, Node.places, findSome?_append]
    exact (emit_faults body ((some l, .void) :: E)).bind fun _ => .pure
  | .ifElse c a none, E => by
    rw [emit, Node.places, Node.placesOpt, List.append_nil, List.append_assoc, findSome?_append,
      findSome?_append]
    exact (emit_faults c E).bind fun _ => (emit_faults a ((none, .void) :: E)).bind fun _ => .pure
  | .ifElse c a (some b), E => by
    rw [emit, Node.places, Node.placesOpt, List.append_assoc, List.append_assoc, findSome?_append,
      findSome?_append, findSome?_append]
    exact (emit_faults c E).bind fun _ => (emit_faults a ((none, .void) :: E)).bind fun _ =>
      (emit_faults b ((none, .void) :: E)).bind fun _ => .pure
  | .br l, E => by
    rw [emit, Node.places, findSome?_singleton]
    exact (faults_depthOf _ l).last fun _ => .pure
  | .brIf l c, E => by
    rw [emit, Node.places, ← List.singleton_append, findSome?_append, findSome?_singleton]
    exact (faults_depthOf _ l).bind fun _ => (emit_faults c E).last fun _ => .pure
  | .call f args _, E => by
    rw [emit, Node.places, findSome?_append, findSome?_singleton]
    exact (emitAll_faults args E).bind fun _ => (faults_function f).last fun _ => .pure
  | .arrayNewFixed k values, E => by
    rw [emit, Node.places, findSome?_append]
    exact (emitAll_faults values E).bind fun _ => (faults_arrayType _).after fun _ => .pure

lemma emitAll_faults : (ns : List Node) → (E : Enclosing) →
    Faults (emitAll S (E.map (·.1)) ns) ((Node.placesAll E ns).findSome? (defect? S))
  | [], E => by
    rw [emitAll]
    exact .pure
  | n :: ns, E => by
    rw [emitAll, Node.placesAll, findSome?_append]
    exact (emit_faults n E).bind fun _ => (emitAll_faults ns E).last fun _ => .pure

end

/-! ### Failures of functions and modules -/

/-- A local of the function has no value, or one of its nodes refers to nothing. -/
inductive Faulty (S : Symbols) (f : Ir.Function) : EmitError → Prop
  | voidLocal : .void ∈ f.locals → Faulty S f (.voidLocal f.name)
  | name {E n e} : f.Within E n → Misses S E n e → Faulty S f e

/-- The defects of a function in the order of emission; locals come before the body. -/
def defectsOf (S : Symbols) (f : Ir.Function) : List EmitError :=
  (if .void ∈ f.locals then [.voidLocal f.name] else []) ++ f.places.filterMap (defect? S)

lemma mem_defectsOf {f : Ir.Function} {e : EmitError} : e ∈ defectsOf S f ↔ Faulty S f e := by
  rw [defectsOf, List.mem_append, List.mem_filterMap]
  constructor
  · rintro (h | ⟨⟨E, n⟩, hn, he⟩)
    · split at h
      · next hvoid => exact List.mem_singleton.mp h ▸ .voidLocal hvoid
      · cases h
    · exact .name (Ir.Function.mem_places.mp hn) (defect?_eq_some_iff.mp he)
  · rintro (hvoid | ⟨hn, he⟩)
    · exact .inl (by rw [if_pos hvoid]; exact List.mem_singleton_self _)
    · exact .inr ⟨_, Ir.Function.mem_places.mpr hn, defect?_eq_some_iff.mpr he⟩

lemma localTypes_faults (name : String) : (ts : List Ty) → Faults (localTypes name ts)
    (if .void ∈ ts then some (.voidLocal name) else none)
  | [] => .pure
  | t :: ts => by
    intro p
    obtain ⟨v, q, hv⟩ : ∃ v q, (valType t).run p = .ok (v, q) := ⟨_, _, rfl⟩
    obtain ⟨hvalues, -⟩ := (writes_valType t p v q rfl hv).2.2 q (.refl q)
    rw [localTypes, StateT.run_bind, hv]
    rcases v with _ | v
    · have hmem : .void ∈ t :: ts := by
        by_contra hmem
        obtain ⟨u, hu⟩ :=
          valuesOf_of_ne_void q.types.entries (Ne.symm (List.ne_of_not_mem_cons hmem))
        rw [hu] at hvalues
        cases hvalues
      rw [if_pos hmem]
      rfl
    · have ht : .void ≠ t := by
        rintro rfl
        cases hvalues
      simp only [List.mem_cons, ht, false_or]
      exact (localTypes_faults name ts).last (fun vs => .pure (a := v :: vs)) q

lemma emitFunction_faults (f : Ir.Function) :
    Faults (emitFunction S f) (defectsOf S f).head? := by
  have hlocals : (if .void ∈ f.locals then [EmitError.voidLocal f.name] else []).head? =
      if .void ∈ f.locals then some (.voidLocal f.name) else none := by
    split <;> rfl
  rw [emitFunction, defectsOf, List.head?_append, List.head?_filterMap, hlocals]
  exact (localTypes_faults f.name f.locals).bind fun _ =>
    (emitAll_faults f.body []).last fun _ => .pure

lemma emitFunctions_faults (fs : List Ir.Function) :
    Faults (emitFunctions S fs) (fs.flatMap (defectsOf S)).head? := by
  induction fs with
  | nil => exact .pure
  | cons f fs ih =>
    rw [emitFunctions, List.flatMap_cons, List.head?_append]
    exact (emitFunction_faults f).bind fun _ => ih.last fun _ => .pure

/-- The defects of a module in the order of emission, function by function. -/
def defects (m : Ir.Module) : List EmitError := m.functions.flatMap (defectsOf (Symbols.ofModule m))

lemma mem_defects {m : Ir.Module} {e : EmitError} :
    e ∈ defects m ↔ ∃ f ∈ m.functions, Faulty (Symbols.ofModule m) f e := by
  simp only [defects, List.mem_flatMap, mem_defectsOf]

/-- **Modules**: the error is the first defect. -/
lemma fault?_encode (m : Ir.Module) : fault? (encode m) = (defects m).head? := by
  have hfaults : Faults (do
      let functions ← functionTypes m.functions
      let codes ← emitFunctions (Symbols.ofModule m) m.functions
      return (functions, codes)) (defects m).head? :=
    (faults_functionTypes _).after fun _ => (emitFunctions_faults _).last fun _ => .pure
  rw [← hfaults {}, encode, Module.ofIr]
  rcases StateT.run _ _ with e | r <;> rfl

/-- If there is no binary file then a function is at fault. -/
lemma encode_error {m : Ir.Module} {e : EmitError} (h : encode m = .error e) :
    ∃ f ∈ m.functions, Faulty (Symbols.ofModule m) f e := by
  rw [← fault?_eq_some_iff, fault?_encode] at h
  exact mem_defects.mp (List.mem_of_mem_head? h)

/-- What is called in a module that has a binary file is a function of it. -/
lemma encode_callees {m : Ir.Module} {bytes : List UInt8} (h : encode m = .ok bytes) :
    ∀ f ∈ m.functions, ∀ n ∈ f.subnodes, ∀ name ∈ n.callee?,
      ∃ g ∈ m.functions, g.name = name := by
  intro f hf n hn name hname
  have hnone : (defects m).head? = none := by rw [← fault?_encode, h]; rfl
  obtain ⟨E, hE⟩ := Ir.Function.exists_within hn
  cases n <;> cases hname
  by_contra hmem
  have hdefect : .unknownFunction name ∈ defects m :=
    mem_defects.mpr ⟨f, hf, .name hE (.call fun h => hmem (List.mem_map.mp h))⟩
  rw [List.head?_eq_none_iff.mp hnone] at hdefect
  cases hdefect

/-- **Failure of emission**: a module has no binary file just where a local of a function has no
value, or where a node of a function branches to a label of none of the blocks and loops around it,
calls no function of the module, or gets or sets no global of it. The error is the first such
defect: functions in order, in each the locals before the body, and the nodes of the body, each as
often as it occurs, in the order in which emission comes to them. -/
theorem encode_error_iff (m : Ir.Module) :
    ((∃ e, encode m = .error e) ↔ ∃ f ∈ m.functions, .void ∈ f.locals ∨
      ∃ E n e, f.Within E n ∧ Misses (Symbols.ofModule m) E n e) ∧
    (∀ e, encode m = .error e ↔ (defects m).head? = some e) ∧
    (∀ e, e ∈ defects m ↔ ∃ f ∈ m.functions, Faulty (Symbols.ofModule m) f e) ∧
    (∀ f : Ir.Function, (f.places.map (·.2)).Perm f.subnodes) := by
  have hfirst : ∀ e, encode m = .error e ↔ (defects m).head? = some e := fun e => by
    rw [← fault?_eq_some_iff, fault?_encode]
  refine ⟨?_, hfirst, fun e => mem_defects, Ir.Function.places_perm⟩
  constructor
  · rintro ⟨e, he⟩
    obtain ⟨f, hf, hvoid | ⟨hn, hmiss⟩⟩ := encode_error he
    · exact ⟨f, hf, .inl hvoid⟩
    · exact ⟨f, hf, .inr ⟨_, _, e, hn, hmiss⟩⟩
  · rintro ⟨f, hf, h⟩
    have hfault : ∃ e, Faulty (Symbols.ofModule m) f e := by
      rcases h with hvoid | ⟨E, n, e, hn, hmiss⟩
      · exact ⟨_, .voidLocal hvoid⟩
      · exact ⟨e, .name hn hmiss⟩
    obtain ⟨e, he⟩ := hfault
    have hdefect : defects m ≠ [] := List.ne_nil_of_mem (mem_defects.mpr ⟨f, hf, he⟩)
    exact ⟨_, (hfirst _).mpr (List.head?_eq_some_head hdefect)⟩

/-- A label is looked for before the condition of its branch, a callee after the arguments. -/
example :
    let f : Ir.Function := ⟨"f", [], .void, [], [],
      [.call "g" [.block (some "out") [.brIf "on" (.globalGet "x" .i32)] .i32] .void]⟩
    defects ⟨[f], []⟩ = [.unknownLabel "on", .unknownGlobal "x", .unknownFunction "g"] := by
  decide

end Wasm

end AnnotatedWasm
