import AnnotatedWasm.Proofs.Parsing.Lexical

/-!
The spans of a parsed source are sound.

Every node that a source is parsed to is well placed: it stands on whole characters, within the node
above it and apart from the nodes beside it, and a name or a number has the span of its own text.
-/

namespace AnnotatedWasm.Syntax

variable {s : Stmt} {block : List Stmt}

lemma sublist_flatMap {α : Type} {f : α → List Node} {as : List α} {a : α} {ns : List Node}
    (ha : a ∈ as) (h : ns.Sublist (f a)) : ns.Sublist (as.flatMap f) := by
  have hfa := (List.singleton_sublist.mpr ha).flatMap f
  rw [List.flatMap_singleton] at hfa
  exact h.trans hfa

/-- The statements of a block are among the nodes right below, in their order. -/
lemma Stmt.sublist_children (h : block ∈ s.blocks) : (stmtNodes block).Sublist s.children := by
  cases s with
  | whileLoop | forLoop | funcDef | classDef | withItems => grind [blocks, children]
  | ifElse span test body elifs orelse =>
    have helif (e : Branch) (he : e ∈ elifs) :
        (stmtNodes e.body).Sublist (elifs.flatMap Branch.children) :=
      sublist_flatMap he (by cases e; exact List.sublist_cons_self ..)
    grind [blocks, children]
  | tryExcept span body handlers orelse finale =>
    have hhandler (e : Handler) (he : e ∈ handlers) :
        (stmtNodes e.body).Sublist (handlers.flatMap Handler.children) :=
      sublist_flatMap he (by cases e; exact List.sublist_append_right ..)
    grind [blocks, children]
  | _ => cases h

/-- Statements in increasing order, each apart from the others. -/
def Apart (block : List Stmt) : Prop := block.Pairwise (·.span.stop ≤ ·.span.start)

lemma apart_of_sublist {lo hi : Nat} {ns : List Node} (h : Between lo hi ns)
    (hblock : (stmtNodes block).Sublist ns) : Apart block :=
  List.pairwise_map.mp (h.sublist hblock).pairwise

/-- What the spans of a source say is so. -/
structure SoundSpans (source : String) (m : Module) : Prop where
  /-- They lie in the source. -/
  bounds : ∀ n ∈ m.nodes, n.span.start ≤ n.span.stop ∧ n.span.stop ≤ source.utf8ByteSize
  /-- No character is cut in two. -/
  boundaries : ∀ n ∈ m.nodes, Boundary source n.span.start ∧ Boundary source n.span.stop
  nested : ∀ n ∈ m.nodes, ∀ c ∈ n.children,
    n.span.start ≤ c.span.start ∧ c.span.stop ≤ n.span.stop
  /-- Nodes side by side do not overlap, and come in the order in which they are listed. -/
  siblings : ∀ n ∈ m.nodes, n.children.Pairwise (·.span.stop ≤ ·.span.start)
  body : Apart m.body
  blocks : ∀ s, .stmt s ∈ m.nodes → ∀ block ∈ s.blocks, Apart block
  names : ∀ span id, .expr (.name span id) ∈ m.nodes → span.textIn source = id
  numbers : ∀ span text, .expr (.number span text) ∈ m.nodes → span.textIn source = text

lemma Laid.soundSpans {source : String} {m : Module} {lo hi : Nat}
    (h : Laid source lo hi (stmtNodes m.body)) : SoundSpans source m := by
  have hplaced (n : Node) (hn : n ∈ m.nodes) : n.Placed source := by
    obtain ⟨top, htop, hn⟩ := List.mem_flatMap.mp hn
    exact h.wellPlaced top htop n hn
  constructor
  case bounds => exact fun n hn => ⟨(hplaced n hn).valid.le, (hplaced n hn).valid.stop.le⟩
  case boundaries => exact fun n hn => ⟨(hplaced n hn).valid.start, (hplaced n hn).valid.stop⟩
  case nested => exact fun n hn c hc => (hplaced n hn).children.of_mem hc
  case siblings => exact fun n hn => (hplaced n hn).children.pairwise
  case body => exact apart_of_sublist h.between (.refl _)
  case blocks =>
    intro s hs block hblock
    exact apart_of_sublist (hplaced _ hs).children (Stmt.sublist_children hblock)
  case names => exact fun span id hid => (hplaced _ hid).spelled id rfl
  case numbers => exact fun span text htext => (hplaced _ htext).spelled text rfl

end AnnotatedWasm.Syntax

namespace AnnotatedWasm.Grammar

open Syntax

/-- **The spans of a parsed source are sound.** Each node's span lies in the source and on whole
characters, within the span of the node above it and apart from those of the nodes beside it; the
statements of each block come in increasing order; and under the span of a name or of a number
stands its text. -/
theorem parse_soundSpans {source : String} {m : Module} (h : parse source = .ok m) :
    SoundSpans source m := by
  obtain ⟨stop, hlaid⟩ := laid_of_parse h
  exact hlaid.soundSpans

/-- A string and a comment with characters of two bytes, around a decorated definition. -/
def decoratedText : String :=
  "s = \"ü\"\n@d\ndef f(x: t = 10):\n    if (g(x, k = y)): return 1,\n" ++
    "    else:\n        a.b[i] = -x ** 2  # é\n\n"

/-- The definition starts with its decorator and runs to the end of the last line, where its blocks
end. -/
theorem parse_soundSpans_decorated : ∃ m, parse decoratedText = .ok m ∧
    m.body.map Stmt.span = [⟨0, 8⟩, ⟨9, 103⟩] ∧ SoundSpans decoratedText m := by
  have hspans : (parse decoratedText).toOption.map (·.body.map Stmt.span) =
      some [⟨0, 8⟩, ⟨9, 103⟩] := by
    decide +kernel
  cases hparse : parse decoratedText with
  | error e =>
    rw [hparse] at hspans
    cases hspans
  | ok m =>
    rw [hparse] at hspans
    exact ⟨m, rfl, Option.some.inj hspans, parse_soundSpans hparse⟩

end AnnotatedWasm.Grammar
