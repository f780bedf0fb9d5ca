import AnnotatedWasm.Proofs.Ir.Traversals
import AnnotatedWasm.Proofs.Listing.Words
import AnnotatedWasm.Proofs.Lowering.Globals
import AnnotatedWasm.Proofs.Wasm.Failures

/-!
Nodes from their lines.

A node has a line that opens it, the lines of its operands and, if it has any, a line that closes
it. The first word of the opening line says which form the node has (`ctorIdx_eq`), and the rest of
the line says what it names (`opening_inj`). Its operands end where a line closes it (`lines_split`).
-/

namespace AnnotatedWasm.Ir.Node

open Listing

mutual

/-- The node without the types that nodes carry. -/
def untyped : Node → Node
  | localGet i _ => localGet i .void
  | localSet i v => localSet i v.untyped
  | globalGet g _ => globalGet g .void
  | globalSet g v => globalSet g v.untyped
  | unary op v => unary op v.untyped
  | binary op a b => binary op a.untyped b.untyped
  | select c a b => select c.untyped a.untyped b.untyped
  | block l ns _ => block l (untypedAll ns) .void
  | loop l v => loop l v.untyped
  | ifElse c a e => ifElse c.untyped a.untyped (untypedOpt e)
  | brIf l c => brIf l c.untyped
  | call f ns _ => call f (untypedAll ns) .void
  | ret v => ret (untypedOpt v)
  | drop v => drop v.untyped
  | arrayNew k a b => arrayNew k a.untyped b.untyped
  | arrayNewFixed k ns => arrayNewFixed k (untypedAll ns)
  | arrayGet k a i => arrayGet k a.untyped i.untyped
  | arraySet k a i v => arraySet k a.untyped i.untyped v.untyped
  | arrayLen a => arrayLen a.untyped
  | n => n

def untypedAll : List Node → List Node
  | [] => []
  | n :: ns => n.untyped :: untypedAll ns

def untypedOpt : Option Node → Option Node
  | none => none
  | some n => some n.untyped

end

lemma untypedAll_eq (ns : List Node) : untypedAll ns = ns.map untyped := by
  induction ns with
  | nil => rfl
  | cons n ns ih => rw [untypedAll, ih]; rfl

lemma untypedOpt_inj {e e' : Option Node} :
    e.toList.map untyped = e'.toList.map untyped ↔ untypedOpt e = untypedOpt e' := by
  cases e <;> cases e' <;> simp [untypedOpt]

/-- The words that lines of nodes start with, for one form of nodes after the other. -/
def firstWords : List (List String) :=
  [["nop"], ["unreachable"], NumKind.all.map (·.name ++ ".const"), ["string.const"],
    ["local.get"], ["local.set"], ["global.get"], ["global.set"], UnaryOp.all.map UnaryOp.name,
    BinaryOp.all.map BinaryOp.name, ["select"], ["block"], ["loop"], ["if"], ["br"], ["br_if"],
    ["call"], ["return"], ["drop"], ["array.new"], ["array.new_fixed"], ["array.get"],
    ["array.set"], ["array.len"]]

lemma nodup_firstWords : ("local" :: firstWords.flatten).Nodup := by
  decide +kernel

lemma mem_all_unary (op : UnaryOp) : op ∈ UnaryOp.all ∧ Bare op.name := by
  cases op <;> (try cases ‹Width›) <;> (try cases ‹Width›) <;> decide

lemma mem_all_binary (op : BinaryOp) : op ∈ BinaryOp.all ∧ Bare op.name := by
  rcases op with ⟨_ | _ | _ | _, (_ | _) | (_ | _)⟩ | (_ | _) |
    ⟨_ | _ | _ | _ | _ | _, (_ | _) | (_ | _)⟩ <;> decide

def wordOf (line : List Char) : List Char := (line.drop 1).takeWhile (!delim ·)

lemma wordOf_bare {s : String} (hs : Bare s) : wordOf ("(" ++ s).toList = s.toList := by
  simpa [wordOf] using takeWhile_before (x := []) hs (by simp)

lemma wordOf_opening (n : Node) :
    ∃ ws, firstWords[n.ctorIdx]? = some ws ∧ ∃ w ∈ ws, wordOf n.opening.toList = w.toList := by
  unfold opening head
  cases n
  case const v =>
    refine ⟨_, rfl, _, List.mem_map_of_mem (?_ : v.kind ∈ _), ?_⟩ <;>
      rcases v with ⟨_ | _, _⟩ | ⟨_ | _, _⟩ <;>
      simp [NumKind.all, Literal.kind, wordOf, operands, children, delim, toString, Literal.text,
        NumKind.name, Width.digits]
  case unary op v =>
    refine ⟨_, rfl, _, List.mem_map_of_mem (mem_all_unary op).1, ?_⟩
    simpa [operands, children] using wordOf_bare (mem_all_unary op).2
  case binary op a b =>
    refine ⟨_, rfl, _, List.mem_map_of_mem (mem_all_binary op).1, ?_⟩
    simpa [operands, children] using wordOf_bare (mem_all_binary op).2
  case block l ns t =>
    refine ⟨_, rfl, _, List.mem_singleton_self _, ?_⟩
    rcases l with _ | l <;> rcases t with _ | _ | _ | _ <;> rcases ns with _ | _ <;>
      simp [wordOf, operands, children, delim, toString, resultText, Ty.isVoid]
  case ret v =>
    refine ⟨_, rfl, _, List.mem_singleton_self _, ?_⟩
    cases v <;> simp [wordOf, operands, children, delim]
  all_goals
    refine ⟨_, rfl, _, List.mem_singleton_self _, ?_⟩
    simp [wordOf, operands, children, delim, toString]

lemma wordOf_opening_ne (n : Node) : wordOf n.opening.toList ≠ "local".toList := by
  obtain ⟨ws, hws, w, hw, hline⟩ := n.wordOf_opening
  rw [hline, ne_eq, String.toList_inj]
  rintro rfl
  exact nodup_firstWords.notMem (List.mem_flatten.mpr ⟨ws, List.mem_of_getElem? hws, hw⟩)

/-- Nodes with the same line are of the same form. -/
lemma ctorIdx_eq {n n' : Node} (h : n.opening = n'.opening) : n.ctorIdx = n'.ctorIdx := by
  have hdisjoint := (List.nodup_flatten.mp nodup_firstWords.of_cons).2
  have hlt {m m' : Node} (h : m.opening = m'.opening) : ¬m.ctorIdx < m'.ctorIdx := by
    intro hlt
    obtain ⟨ws, hws, w, hw, hline⟩ := m.wordOf_opening
    obtain ⟨ws', hws', w', hw', hline'⟩ := m'.wordOf_opening
    rw [h, hline', String.toList_inj] at hline
    obtain ⟨hi, rfl⟩ := List.getElem?_eq_some_iff.mp hws
    obtain ⟨hj, rfl⟩ := List.getElem?_eq_some_iff.mp hws'
    exact List.pairwise_iff_getElem.mp hdisjoint _ _ hi hj hlt hw (hline ▸ hw')
  exact le_antisymm (not_lt.mp (hlt h.symm)) (not_lt.mp (hlt h))

lemma unaryName_inj {a b : UnaryOp} : a.name = b.name ↔ a = b := by
  have hnodup : (UnaryOp.all.map UnaryOp.name).Nodup :=
    (List.nodup_flatten.mp nodup_firstWords.of_cons).1 _ (List.mem_of_getElem? (i := 8) rfl)
  exact ⟨List.inj_on_of_nodup_map hnodup (mem_all_unary a).1 (mem_all_unary b).1, congrArg _⟩

lemma binaryName_inj {a b : BinaryOp} : a.name = b.name ↔ a = b := by
  have hnodup : (BinaryOp.all.map BinaryOp.name).Nodup :=
    (List.nodup_flatten.mp nodup_firstWords.of_cons).1 _ (List.mem_of_getElem? (i := 9) rfl)
  exact ⟨List.inj_on_of_nodup_map hnodup (mem_all_binary a).1 (mem_all_binary b).1, congrArg _⟩

def constant? : Node → Option Literal
  | const v => some v
  | _ => none

/-- The line of the node can be read. -/
structure Legible (n : Node) : Prop where
  global : ∀ g ∈ n.global?, Bare g
  callee : ∀ f ∈ n.callee?, Bare f
  label : ∀ l ∈ n.label?, Bare l
  target : ∀ l ∈ n.target?, Bare l
  constant : ∀ v ∈ n.constant?, v.kind.isFloat = false

/-- What ends the line of a node. -/
def closing (ops : List Node) : List Char := (if ops.isEmpty then ")" else "").toList

lemma opening_toList (n : Node) :
    n.opening.toList = '(' :: (n.head.toList ++ closing n.operands) := by
  simp [opening, closing]

lemma delim_closing (ops : List Node) : ∀ c ∈ (closing ops).head?, delim c = true := by
  cases ops <;> simp [closing, delim]

lemma closing_inj {ops ops' : List Node} (h : closing ops = closing ops') :
    ops.isEmpty = ops'.isEmpty := by
  cases ops <;> cases ops' <;> simp_all [closing]

lemma opening_inj {n n' : Node} (hn : n.Legible) (hn' : n'.Legible) (h : n.opening = n'.opening) :
    n.operands.isEmpty = n'.operands.isEmpty ∧
      (n.operands.map untyped = n'.operands.map untyped → n.untyped = n'.untyped) := by
  have hform := ctorIdx_eq h
  have hline := congrArg String.toList h
  rw [opening_toList, opening_toList] at hline
  unfold opening at h
  unfold head at h hline
  cases n <;> cases n' <;> try cases hform
  case call f args t f' args' t' =>
    simp [toString] at hline
    obtain ⟨rfl, hline⟩ := bare_inj (hn.callee f rfl) (hn'.callee f' rfl) (delim_closing _)
      (delim_closing _) hline
    exact ⟨closing_inj hline, by simp [operands, children, untyped, untypedAll_eq]⟩
  case arrayNewFixed k vs k' vs' =>
    simp [toString, -Nat.toList_repr] at hline
    obtain ⟨hk, hline⟩ := bare_inj (bare_text (.num k)) (bare_text (.num k')) (by simp [delim])
      (by simp [delim]) hline
    obtain ⟨-, hline⟩ := bare_inj (bare_repr _) (bare_repr _) (delim_closing _) (delim_closing _)
      (List.cons.inj hline).2
    exact ⟨closing_inj hline, by simp [operands, children, untyped, untypedAll_eq, name_inj.mp hk]⟩
  case block l ns t l' ns' t' =>
    have hspace (ops : List Node) : (closing ops).head? ≠ some ' ' := by
      cases ops <;> simp [closing]
    have hresult (t : Ty) (ops : List Node) (z : List Char) :
        (∀ c ∈ ((resultText t).toList ++ closing ops).head?, delim c = true) ∧
          (resultText t).toList ++ closing ops ≠ ' ' :: '$' :: z := by
      unfold resultText
      split <;> cases ops <;> simp [closing, delim, toString]
    cases l <;> cases l' <;> simp [toString] at hline
    · obtain ⟨-, hline⟩ := resultText_split (hspace _) (hspace _) hline
      exact ⟨closing_inj hline, by simp [operands, children, untyped, untypedAll_eq]⟩
    · exact absurd hline (hresult t _ _).2
    · exact absurd hline.symm (hresult t' _ _).2
    · next l l' =>
      obtain ⟨rfl, hline⟩ := bare_inj (hn.label l rfl) (hn'.label l' rfl) (hresult t _ []).1
        (hresult t' _ []).1 hline
      obtain ⟨-, hline⟩ := resultText_split (hspace _) (hspace _) hline
      exact ⟨closing_inj hline, by simp [operands, children, untyped, untypedAll_eq]⟩
  case const v v' =>
    rw [literal_inj (hn.constant v rfl) (hn'.constant v' rfl)
      (by simpa [operands, children] using h)]
    exact ⟨rfl, fun _ => rfl⟩
  case string s s' =>
    simp [toString, operands, children] at h
    rw [quoted_inj h]
    simp [operands, children]
  case ret v v' =>
    cases v <;> cases v' <;> simp_all [operands, children, untyped, untypedOpt, closing]
  all_goals
    clear hline
    simp_all [operands, children, untyped, toString, Nat.repr_inj, untypedOpt_inj, unaryName_inj,
      binaryName_inj, name_inj]

lemma newline_opening {n : Node} (hn : n.Legible) : '\n' ∉ n.opening.toList := by
  have hglobal (g : String) (hg : g ∈ n.global?) : '\n' ∉ g.toList := (hn.global g hg).newline
  have hcallee (f : String) (hf : f ∈ n.callee?) : '\n' ∉ f.toList := (hn.callee f hf).newline
  have hlabel (l : Label) (hl : l ∈ n.label?) : '\n' ∉ l.toList := (hn.label l hl).newline
  have htarget (l : Label) (hl : l ∈ n.target?) : '\n' ∉ l.toList := (hn.target l hl).newline
  have hclose (ops : List Node) : '\n' ∉ closing ops := by cases ops <;> simp [closing]
  have hkind (k : NumKind) : '\n' ∉ k.name.toList := (bare_text (.num k)).newline
  have hnumber (k : Nat) : '\n' ∉ k.repr.toList := (bare_repr k).newline
  rw [opening_toList]
  unfold head
  cases n
  case const v => simp [newline_literal (hn.constant v rfl), hclose]
  case unary op _ => simp [(mem_all_unary op).2.newline, hclose]
  case binary op _ _ => simp [(mem_all_binary op).2.newline, hclose]
  case block l _ _ =>
    cases l <;> simp_all [toString, label?, newline_resultText]
  all_goals
    simp_all [toString, global?, callee?, label?, target?, newline_quoted, -Nat.toList_repr]

/-! ### Trees -/

/-- What follows starts with a line that closes a node or a function. -/
def Closes (ls : List String) : Prop := ∃ l ∈ ls.head?, '(' ∉ l.toList

lemma not_closes_lines (d : Nat) (n : Node) (ls : List String) : ¬Closes (n.lines d ++ ls) := by
  simp [Closes, lines_eq, opening]

/-- The lines of a node tell it from others, up to types. -/
lemma lines_split (d : Nat) (n n' : Node) (hn : ∀ m ∈ n.subnodes, m.Legible)
    (hn' : ∀ m ∈ n'.subnodes, m.Legible) : Splits untyped (lines d) n n' := by
  intro x y h
  rw [forall_subnodes] at hn hn'
  simp only [lines_eq, List.cons_append, List.append_assoc] at h
  obtain ⟨hline, h⟩ := List.cons.inj h
  obtain ⟨hempty, hops⟩ := opening_inj hn.1 hn'.1 (by simpa using hline)
  rw [← hempty] at h
  rcases hleaf : n.operands.isEmpty with _ | _
  · rw [hleaf] at h
    obtain ⟨hmap, hxy⟩ := flatMap_split (g := untyped) (Q := Closes) h
      (fun m hm m' hm' => lines_split (d + 1) m m' (hn.2 m (n.operands_perm.mem_iff.mp hm))
        (hn'.2 m' (n'.operands_perm.mem_iff.mp hm')))
      (fun m _ => not_closes_lines _ m) (fun m _ => not_closes_lines _ m) (by simp [Closes])
      (by simp [Closes])
    exact ⟨hops hmap, (List.cons.inj hxy).2⟩
  · rw [hleaf] at hempty
    simp_all
termination_by n.subnodes.length
decreasing_by exact length_subnodes_operand hm

lemma newline_lines (d : Nat) (n : Node) (hn : ∀ m ∈ n.subnodes, m.Legible) :
    ∀ l ∈ n.lines d, '\n' ∉ l.toList := by
  rw [forall_subnodes] at hn
  rw [lines_eq, List.forall_mem_cons, List.forall_mem_append, List.forall_mem_flatMap]
  refine ⟨by simp [newline_opening hn.1], fun m hm => ?_, by split <;> simp⟩
  exact newline_lines (d + 1) m (hn.2 m (n.operands_perm.mem_iff.mp hm))
termination_by n.subnodes.length
decreasing_by exact length_subnodes_operand hm

end AnnotatedWasm.Ir.Node
