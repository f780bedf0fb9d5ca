import AnnotatedWasm.Proofs.Lowering.Branches

/-!
Lowered code with other numbers in its labels.

A renaming goes through all labels of a node, those that constructs have and those that branches
go to. Where all branches go to constructs around them, two renamings that agree on the labels of
the constructs give the same code (`Node.relabel_congr`).
-/

namespace AnnotatedWasm

namespace Ir

/-- The label with the number at its end changed. -/
def renumber (π : Nat → Nat) (l : Label) : Label :=
  let cs := l.toList.reverse
  let number := Nat.ofDigitChars 10 (cs.takeWhile Char.isDigit).reverse 0
  String.ofList (cs.dropWhile Char.isDigit).reverse ++ (π number).repr

lemma Enclosing.Reaches.mem_labels {E : Enclosing} {l : Label} (h : E.Reaches l) :
    l ∈ E.labels := by
  obtain ⟨c, hc, -⟩ := h
  refine List.mem_filterMap.mpr ⟨c, List.mem_of_find?_eq_some hc, ?_⟩
  simpa using List.find?_some hc

namespace Node

mutual

/-- The node with its labels renamed. -/
def relabel (ρ : Label → Label) : Node → Node
  | nop => nop
  | unreachable => unreachable
  | const v => const v
  | string s => string s
  | localGet i t => localGet i t
  | localSet i v => localSet i (v.relabel ρ)
  | globalGet g t => globalGet g t
  | globalSet g v => globalSet g (v.relabel ρ)
  | unary op v => unary op (v.relabel ρ)
  | binary op a b => binary op (a.relabel ρ) (b.relabel ρ)
  | select c a b => select (c.relabel ρ) (a.relabel ρ) (b.relabel ρ)
  | block l ns t => block (l.map ρ) (relabelAll ρ ns) t
  | loop l n => loop (ρ l) (n.relabel ρ)
  | ifElse c a e => ifElse (c.relabel ρ) (a.relabel ρ) (relabelOpt ρ e)
  | br l => br (ρ l)
  | brIf l c => brIf (ρ l) (c.relabel ρ)
  | call f ns t => call f (relabelAll ρ ns) t
  | ret v => ret (relabelOpt ρ v)
  | drop v => drop (v.relabel ρ)
  | arrayNew k a b => arrayNew k (a.relabel ρ) (b.relabel ρ)
  | arrayNewFixed k ns => arrayNewFixed k (relabelAll ρ ns)
  | arrayGet k a b => arrayGet k (a.relabel ρ) (b.relabel ρ)
  | arraySet k a b c => arraySet k (a.relabel ρ) (b.relabel ρ) (c.relabel ρ)
  | arrayLen a => arrayLen (a.relabel ρ)

def relabelAll (ρ : Label → Label) : List Node → List Node
  | [] => []
  | n :: ns => n.relabel ρ :: relabelAll ρ ns

def relabelOpt (ρ : Label → Label) : Option Node → Option Node
  | none => none
  | some n => some (n.relabel ρ)

end

variable {ρ ρ' : Label → Label}

lemma relabelAll_eq (ns : List Node) : relabelAll ρ ns = ns.map (relabel ρ) := by
  induction ns with
  | nil => rfl
  | cons n ns ih => rw [relabelAll, ih, List.map_cons]

/-- Labels say nothing about the value of a node. -/
@[simp] lemma ty_relabel (n : Node) : (n.relabel ρ).ty = n.ty := by
  cases n
  case select c a b => exact ty_relabel a
  all_goals rfl

/-- Renamings that agree at a node and below it. -/
lemma relabel_eq_of_children {n : Node} (hlabel : ∀ l ∈ n.label?, ρ l = ρ' l)
    (htarget : ∀ l ∈ n.target?, ρ l = ρ' l)
    (hchildren : ∀ c ∈ n.children, c.relabel ρ = c.relabel ρ') : n.relabel ρ = n.relabel ρ' := by
  have hall (ns : List Node) (h : ∀ c ∈ ns, c.relabel ρ = c.relabel ρ') :
      relabelAll ρ ns = relabelAll ρ' ns := by
    rw [relabelAll_eq, relabelAll_eq]
    exact List.map_congr_left h
  cases n with
  | block l ns t =>
    have hl : l.map ρ = l.map ρ' := Option.map_congr hlabel
    rw [relabel, relabel, hl, hall ns hchildren]
  | call f ns t => rw [relabel, relabel, hall ns hchildren]
  | arrayNewFixed k ns => rw [relabel, relabel, hall ns hchildren]
  | ifElse c a e => cases e <;> simp_all [relabel, relabelOpt, children]
  | ret v => cases v <;> simp_all [relabel, relabelOpt, children]
  | _ => simp_all [relabel, children, label?, target?]

/-- **Renamings** that agree on the labels in a node and around it give the same code, if branches
go to constructs around them. -/
lemma relabel_congr (n : Node) {E : Enclosing} (hn : n.BranchesIn E)
    (h : ∀ l ∈ E.labels ++ n.labels, ρ l = ρ' l) : n.relabel ρ = n.relabel ρ' := by
  obtain ⟨htarget, hinner⟩ := branchesIn_iff.mp hn
  refine relabel_eq_of_children (fun l hl => h l ?_) (fun l hl => h l ?_) fun c hc => ?_
  · rw [labels_eq]
    exact List.mem_append_right _ (List.mem_append_left _ (Option.mem_toList.mpr hl))
  · exact List.mem_append_left _ (htarget l hl).mem_labels
  · rw [← inner_map_snd] at hc
    obtain ⟨⟨D, c⟩, hD, rfl⟩ := List.mem_map.mp hc
    refine relabel_congr c (hinner _ hD) fun l hl => h l ?_
    rw [Enclosing.labels, List.filterMap_append, List.append_assoc, List.mem_append,
      List.mem_append] at hl
    have hsub := (labels_inner hD).subset
    rcases hl with hl | hl | hl
    · exact List.mem_append_right _ (hsub (List.mem_append_left _ hl))
    · exact List.mem_append_left _ hl
    · exact List.mem_append_right _ (hsub (List.mem_append_right _ hl))
termination_by n.subnodes.length
decreasing_by exact length_subnodes_lt (mem_children hD)

mutual

lemma relabel_relabel : (n : Node) → (n.relabel ρ).relabel ρ' = n.relabel (ρ' ∘ ρ)
  | nop | unreachable | const _ | string _ | localGet _ _ | globalGet _ _ | br _ => rfl
  | localSet _ v | globalSet _ v | unary _ v | drop v | arrayLen v | loop _ v | brIf _ v => by
    simp only [relabel, relabel_relabel v, Function.comp_apply]
  | binary _ a b | arrayNew _ a b | arrayGet _ a b => by
    simp only [relabel, relabel_relabel a, relabel_relabel b]
  | select a b c | arraySet _ a b c => by
    simp only [relabel, relabel_relabel a, relabel_relabel b, relabel_relabel c]
  | block l ns _ => by simp only [relabel, relabelAll_relabelAll ns, Option.map_map]
  | call _ ns _ | arrayNewFixed _ ns => by simp only [relabel, relabelAll_relabelAll ns]
  | ifElse c a none => by
    simp only [relabel, relabelOpt, relabel_relabel c, relabel_relabel a]
  | ifElse c a (some e) => by
    simp only [relabel, relabelOpt, relabel_relabel c, relabel_relabel a, relabel_relabel e]
  | ret none => rfl
  | ret (some v) => by simp only [relabel, relabelOpt, relabel_relabel v]

lemma relabelAll_relabelAll : (ns : List Node) →
    relabelAll ρ' (relabelAll ρ ns) = relabelAll (ρ' ∘ ρ) ns
  | [] => rfl
  | n :: ns => by simp only [relabelAll, relabel_relabel n, relabelAll_relabelAll ns]

end

mutual

lemma relabel_id : (n : Node) → n.relabel id = n
  | nop | unreachable | const _ | string _ | localGet _ _ | globalGet _ _ | br _ => rfl
  | localSet _ v | globalSet _ v | unary _ v | drop v | arrayLen v | loop _ v | brIf _ v => by
    simp only [relabel, relabel_id v, id_eq]
  | binary _ a b | arrayNew _ a b | arrayGet _ a b => by
    simp only [relabel, relabel_id a, relabel_id b]
  | select a b c | arraySet _ a b c => by
    simp only [relabel, relabel_id a, relabel_id b, relabel_id c]
  | block l ns _ => by simp only [relabel, relabelAll_id ns, Option.map_id, id_eq]
  | call _ ns _ | arrayNewFixed _ ns => by simp only [relabel, relabelAll_id ns]
  | ifElse c a none => by simp only [relabel, relabelOpt, relabel_id c, relabel_id a]
  | ifElse c a (some e) => by
    simp only [relabel, relabelOpt, relabel_id c, relabel_id a, relabel_id e]
  | ret none => rfl
  | ret (some v) => by simp only [relabel, relabelOpt, relabel_id v]

lemma relabelAll_id : (ns : List Node) → relabelAll id ns = ns
  | [] => rfl
  | n :: ns => by simp only [relabelAll, relabel_id n, relabelAll_id ns]

end

end Node

/-! ### Functions -/

namespace Function

/-- The function with its labels renamed. -/
def relabel (ρ : Label → Label) (f : Function) : Function :=
  { f with body := f.body.map (Node.relabel ρ) }

/-- The labels of the function have numbers from `lo` on and below `hi`, and its branches go to
constructs around them. -/
def LabelledIn (lo hi : Nat) (f : Function) : Prop :=
  (∀ l ∈ f.labels, Lowering.Numbered lo hi l) ∧ ∀ n ∈ f.body, n.BranchesIn []

variable {ρ ρ' : Label → Label} {f : Function} {lo hi : Nat}

lemma LabelledIn.mono {lo' hi' : Nat} (h : f.LabelledIn lo hi) (hlo : lo' ≤ lo) (hhi : hi ≤ hi') :
    f.LabelledIn lo' hi' := by
  refine ⟨fun l hl => ?_, h.2⟩
  obtain ⟨k, i, hi, hj, rfl⟩ := h.1 l hl
  exact ⟨k, i, hlo.trans hi, hj.trans_le hhi, rfl⟩

lemma relabel_congr (h : f.LabelledIn lo hi)
    (hρ : ∀ (k : Lowering.LabelKind) i, lo ≤ i → i < hi → ρ (k.label i) = ρ' (k.label i)) :
    f.relabel ρ = f.relabel ρ' := by
  have hbody : f.body.map (Node.relabel ρ) = f.body.map (Node.relabel ρ') := by
    refine List.map_congr_left fun n hn => n.relabel_congr (h.2 n hn) fun l hl => ?_
    have hmem : l ∈ f.labels := by
      rw [labels_eq]
      exact List.mem_flatMap_of_mem hn hl
    obtain ⟨k, i, hlo, hhi, rfl⟩ := h.1 l hmem
    exact hρ k i hlo hhi
  rw [relabel, hbody, relabel]

lemma relabel_relabel (f : Function) : (f.relabel ρ).relabel ρ' = f.relabel (ρ' ∘ ρ) := by
  simp only [relabel, List.map_map, Function.mk.injEq, true_and]
  exact List.map_congr_left fun n _ => n.relabel_relabel

lemma relabel_id (f : Function) : f.relabel id = f := by
  simp only [relabel]
  rw [List.map_congr_left fun n _ => n.relabel_id, List.map_id']

/-- A renaming that leaves the labels as they are. -/
lemma relabel_eq_self (h : f.LabelledIn lo hi)
    (hρ : ∀ (k : Lowering.LabelKind) i, lo ≤ i → i < hi → ρ (k.label i) = k.label i) :
    f.relabel ρ = f :=
  (relabel_congr h hρ).trans f.relabel_id

end Function

end Ir

namespace Lowering

lemma renumber_label (π : Nat → Nat) (k : LabelKind) (i : Nat) :
    Ir.renumber π (k.label i) = k.label (π i) := by
  obtain ⟨hdigits, hstem⟩ := k.span_label i
  have hnumber : Nat.ofDigitChars 10 i.repr.toList 0 = i := by
    rw [Nat.toList_repr]
    exact Nat.ofDigitChars_toDigits (by decide) le_rfl
  simp only [Ir.renumber, hdigits, hstem, List.reverse_reverse, hnumber, String.ofList_toList]
  rfl

/-! ### Blocks of numbers -/

/-- Two neighbouring blocks of numbers, from `n` on, of `a` and of `b` numbers, are exchanged. -/
def exchange (n a b : Nat) : Equiv.Perm Nat where
  toFun i := if i < n then i else if i < n + a then i + b else if i < n + a + b then i - a else i
  invFun i := if i < n then i else if i < n + b then i + a else if i < n + b + a then i - b else i
  left_inv i := by
    dsimp only
    split_ifs <;> omega
  right_inv i := by
    dsimp only
    split_ifs <;> omega

lemma exchange_apply (n a b i : Nat) : exchange n a b i =
    if i < n then i else if i < n + a then i + b else if i < n + a + b then i - a else i :=
  rfl

lemma exchange_first {n a b i : Nat} (h : n ≤ i) (h' : i < n + a) : exchange n a b i = i + b := by
  rw [exchange_apply]
  split_ifs <;> omega

lemma exchange_second {n a b i : Nat} (h : n ≤ i) (h' : i < n + b) :
    exchange n a b (i + a) = i := by
  rw [exchange_apply]
  split_ifs <;> omega

lemma exchange_other {n a b i : Nat} (h : i < n ∨ n + a + b ≤ i) : exchange n a b i = i := by
  rw [exchange_apply]
  split_ifs <;> omega

end Lowering

end AnnotatedWasm
