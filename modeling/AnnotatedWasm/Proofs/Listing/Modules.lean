import AnnotatedWasm.Proofs.Listing.Nodes

/-!
Functions, globals and modules from their lines.

No line has a line break in it, so a listing falls into its lines (`splitOn_listing`). Those of a
function start with its header and its locals, where a slot is shown by its name or else by its
number, so the slots tell which of them have names (`Legible.slots_inj`).
-/

namespace AnnotatedWasm.Ir

open Listing

namespace Function

/-- The function without the types that nodes carry. -/
def untyped (f : Function) : Function := { f with body := f.body.map Node.untyped }

/-- The lines of the function can be read. -/
structure Legible (f : Function) : Prop where
  name : Bare f.name
  names : ∀ p ∈ f.localNames, Bare p.2
  increasing : (f.localNames.map (·.1)).Pairwise (· < ·)
  listed : ∀ i ∈ f.localNames.map (·.1), i < f.params.length + f.locals.length
  nodes : ∀ n ∈ f.body, ∀ m ∈ n.subnodes, m.Legible

variable {f f' : Function}

/-! ### Slots -/

/-- How slots are shown: a name or a number, and a type. -/
def slots (f : Function) (first : Nat) (ts : List Ty) : List (String × Ty) :=
  (ts.zipIdx first).map fun p => (f.slotText p.2, p.1)

def slotLine (word : String) (p : String × Ty) : String := s!"({word} {p.1} {p.2.text})"

lemma slotTexts_eq (f : Function) (word : String) (first : Nat) (ts : List Ty) :
    f.slotTexts word first ts = (f.slots first ts).map (slotLine word) := by
  induction ts generalizing first with
  | nil => rfl
  | cons t ts ih => simp [slotTexts, slots, slotLine, ih]

lemma Legible.slots (hf : f.Legible) {first : Nat} {ts : List Ty} :
    ∀ p ∈ f.slots first ts, Bare p.1 := by
  intro p hp
  obtain ⟨q, -, rfl⟩ := List.mem_map.mp hp
  unfold slotText
  split
  · next h => simpa [Bare, toString, delim] using hf.names _ (List.mem_of_find?_eq_some h)
  · exact bare_repr _

lemma slotLine_split {word : String} {p q : String × Ty} (hp : Bare p.1) (hq : Bare q.1) :
    Splits id (fun p => (slotLine word p).toList) p q := by
  intro x y h
  simp [slotLine, toString] at h
  obtain ⟨hname, h⟩ := bare_inj hp hq (by simp [delim]) (by simp [delim]) h
  obtain ⟨hty, h⟩ := bare_inj (bare_text _) (bare_text _) (by simp [delim]) (by simp [delim])
    (List.cons.inj h).2
  exact ⟨Prod.ext hname (text_inj hty), (List.cons.inj h).2⟩

lemma newline_slotLine {word : String} {p : String × Ty} (hw : '\n' ∉ word.toList)
    (hp : Bare p.1) : '\n' ∉ (slotLine word p).toList := by
  simp [slotLine, toString, hw, hp.newline, (bare_text p.2).newline]

lemma Legible.mem_localNames (hf : f.Legible) {i : Nat} {s : String} :
    (i, s) ∈ f.localNames ↔ i < f.params.length + f.locals.length ∧ f.slotText i = "$" ++ s := by
  unfold slotText
  constructor
  · intro h
    refine ⟨hf.listed i (List.mem_map_of_mem h), ?_⟩
    have hfind : f.localNames.find? (·.1 = i) = some (i, s) := by
      obtain ⟨q, hq⟩ := Option.isSome_iff_exists.mp
        ((List.find?_isSome (p := (·.1 = i))).mpr ⟨_, h, by simp⟩)
      rw [hq, List.inj_on_of_nodup_map (hf.increasing.imp ne_of_lt)
        (List.mem_of_find?_eq_some hq) h (by simpa using List.find?_some hq)]
    simp [hfind, toString]
  · rintro ⟨-, h⟩
    split at h
    · next j name hfind =>
      obtain rfl : j = i := by simpa using List.find?_some hfind
      obtain rfl : name = s := by simpa [toString] using h
      exact List.mem_of_find?_eq_some hfind
    · have hdollar : '$' ∈ i.repr.toList := by simp [show i.repr = _ from h]
      rw [Nat.toList_repr] at hdollar
      cases Nat.isDigit_of_mem_toDigits (by decide) (by decide) hdollar

/-- What the slots of a function are shown as tells the names and the types of its slots. -/
lemma Legible.slots_inj (hf : f.Legible) (hf' : f'.Legible)
    (hparams : f.slots 0 f.params = f'.slots 0 f'.params)
    (hlocals : f.slots f.params.length f.locals = f'.slots f'.params.length f'.locals) :
    f.params = f'.params ∧ f.locals = f'.locals ∧ f.localNames = f'.localNames := by
  have htypes {first first' : Nat} {ts ts' : List Ty} (h : f.slots first ts = f'.slots first' ts') :
      ts = ts' := by
    simpa [Function.slots, Function.comp_def] using congrArg (List.map Prod.snd) h
  have hp := htypes hparams
  have hl := htypes hlocals
  have hall : f.slots 0 (f.params ++ f.locals) = f'.slots 0 (f.params ++ f.locals) := by
    rw [← hp] at hparams hlocals
    rw [← hl] at hlocals
    simpa [Function.slots, List.zipIdx_append] using congrArg₂ (· ++ ·) hparams hlocals
  have htext (i : Nat) (hi : i < f.params.length + f.locals.length) :
      f.slotText i = f'.slotText i := by
    simpa [Function.slots, hi] using congrArg (·[i]?.map Prod.fst) hall
  refine ⟨hp, hl, ?_⟩
  have hr : Std.Irrefl fun p q : Nat × String => p.1 < q.1 := ⟨fun _ => lt_irrefl _⟩
  have ha : Std.Antisymm fun p q : Nat × String => p.1 < q.1 :=
    ⟨fun _ _ h h' => absurd h (lt_asymm h')⟩
  refine (List.pairwise_map.mp hf.increasing).eq_of_mem_iff (List.pairwise_map.mp hf'.increasing) ?_
  rintro ⟨i, s⟩
  rw [hf.mem_localNames, hf'.mem_localNames, ← hp, ← hl]
  exact and_congr_right fun hi => by rw [htext i hi]

/-! ### Functions -/

def header (f : Function) : String :=
  let params := f.slotTexts "param" 0 f.params
  let head := String.intercalate " " (s!"(func ${f.name}" :: params)
  s!"  {head}{resultText f.result}"

lemma header_toList (f : Function) :
    f.header.toList = "  (func $".toList ++ (f.name.toList ++
      ((f.slots 0 f.params).flatMap (fun p => ' ' :: (slotLine "param" p).toList) ++
        (resultText f.result).toList)) := by
  have hspaced (a : List Char) (ls : List (List Char)) :
      [' '].intercalate (a :: ls) = a ++ ls.flatMap (' ' :: ·) := by
    induction ls generalizing a with
    | nil => simp
    | cons b ls ih => simp [List.intercalate_cons_cons, ih]
  simp [header, toString, slotTexts_eq, hspaced, List.flatMap_map]

lemma lines_eq (f : Function) : f.lines = f.header ::
    ((f.slots f.params.length f.locals).flatMap (fun p => ["    " ++ slotLine "local" p]) ++
      (f.body.flatMap (Node.lines 2) ++ ["  )"])) := by
  simp [lines, header, slotTexts_eq, Node.linesAll_eq, List.map_eq_flatMap, List.flatMap_assoc]

lemma header_inj (hf : f.Legible) (hf' : f'.Legible) (h : f.header = f'.header) :
    f.name = f'.name ∧ f.slots 0 f.params = f'.slots 0 f'.params ∧ f.result = f'.result := by
  have hresult (t : Ty) :
      (resultText t).toList = [] ∨ ∃ z, (resultText t).toList = " (r".toList ++ z := by
    unfold resultText
    split <;> simp [toString]
  have hafter (f : Function) : ∀ c ∈ ((f.slots 0 f.params).flatMap
      (fun p => ' ' :: (slotLine "param" p).toList) ++ (resultText f.result).toList).head?,
      delim c = true := by
    rcases f.slots 0 f.params with _ | ⟨p, ps⟩
    · obtain h | ⟨z, h⟩ := hresult f.result <;> simp [h, delim]
    · simp [delim]
  have h := congrArg String.toList h
  rw [header_toList, header_toList, List.append_cancel_left_eq] at h
  obtain ⟨hname, h⟩ := bare_inj hf.name hf'.name (hafter f) (hafter f') h
  obtain ⟨hslots, h⟩ := flatMap_split (g := id) (Q := fun z => z.take 3 ≠ " (p".toList) h
    (fun p hp q hq x y h => slotLine_split (hf.slots p hp) (hf'.slots q hq) x y (List.cons.inj h).2)
    (by simp [slotLine, toString]) (by simp [slotLine, toString])
    (by obtain h | ⟨z, h⟩ := hresult f.result <;> simp [h])
    (by obtain h | ⟨z, h⟩ := hresult f'.result <;> simp [h])
  refine ⟨hname, by simpa using hslots, ?_⟩
  exact (resultText_split (x := []) (y := []) (by simp) (by simp) (by simpa using h)).1

lemma lines_split (hf : f.Legible) (hf' : f'.Legible) : Splits untyped lines f f' := by
  intro x y h
  simp only [lines_eq, List.cons_append, List.append_assoc] at h
  obtain ⟨hheader, h⟩ := List.cons.inj h
  obtain ⟨hname, hparams, hresult⟩ := header_inj hf hf' hheader
  have hword (ns : List Node) (z : List String) :
      ∀ l ∈ (ns.flatMap (Node.lines 2) ++ ("  )" :: z)).head?,
        Node.wordOf (l.toList.drop 4) ≠ "local".toList := by
    rcases ns with _ | ⟨n, ns⟩
    · simp [Node.wordOf]
    · simpa [Node.lines_eq, List.replicate] using n.wordOf_opening_ne
  obtain ⟨hlocals, h⟩ := flatMap_split (g := id)
    (Q := fun z => ∀ l ∈ z.head?, Node.wordOf (l.toList.drop 4) ≠ "local".toList) h
    (fun p hp q hq x y h => ⟨(slotLine_split (hf.slots p hp) (hf'.slots q hq) [] []
      (by simpa using congrArg String.toList (List.cons.inj h).1)).1, (List.cons.inj h).2⟩)
    (by simp [Node.wordOf, slotLine, toString, delim])
    (by simp [Node.wordOf, slotLine, toString, delim]) (hword _ _) (hword _ _)
  obtain ⟨hbody, h⟩ := flatMap_split (g := Node.untyped) (Q := Node.Closes) h
    (fun n hn n' hn' => Node.lines_split 2 n n' (hf.nodes n hn) (hf'.nodes n' hn'))
    (fun n _ => Node.not_closes_lines 2 n) (fun n _ => Node.not_closes_lines 2 n)
    (by simp [Node.Closes]) (by simp [Node.Closes])
  obtain ⟨hp, hl, hn⟩ := hf.slots_inj hf' hparams (by simpa using hlocals)
  exact ⟨by simp [untyped, hname, hp, hresult, hl, hn, hbody], (List.cons.inj h).2⟩

lemma newline_lines (hf : f.Legible) : ∀ l ∈ f.lines, '\n' ∉ l.toList := by
  rw [lines_eq, List.forall_mem_cons, List.forall_mem_append, List.forall_mem_append,
    List.forall_mem_flatMap, List.forall_mem_flatMap]
  refine ⟨?_, fun p hp => ?_, fun n hn => n.newline_lines 2 (hf.nodes n hn), by simp⟩
  · rw [header_toList]
    simp only [List.mem_append, List.mem_flatMap, List.mem_cons, not_or, not_exists, not_and]
    exact ⟨by decide, hf.name.newline,
      fun p hp => ⟨by decide, newline_slotLine (by decide) (hf.slots p hp)⟩, newline_resultText _⟩
  · simpa using newline_slotLine (by decide) (hf.slots p hp)

end Function

/-! ### Modules -/

/-- The line of the global can be read. -/
structure Global.Legible (g : Global) : Prop where
  name : Bare g.name
  init : g.init.kind.isFloat = false

lemma Global.line_toList (g : Global) : g.line.toList = "  (global $".toList ++ (g.name.toList ++
    (' ' :: ((if g.isMutable then "(mut " else "").toList ++ (g.kind.name.toList ++
      ((if g.isMutable then ")" else "").toList ++ (" (".toList ++ (g.init.text.toList ++
        "))".toList))))))) := by
  rcases g with ⟨name, kind, _ | _, init⟩ <;> simp [line, toString]

lemma Global.line_inj {g g' : Global} (hg : g.Legible) (hg' : g'.Legible) (h : g.line = g'.line) :
    g = g' := by
  have h := congrArg String.toList h
  rw [line_toList, line_toList, List.append_cancel_left_eq] at h
  obtain ⟨hname, h⟩ := bare_inj hg.name hg'.name (by simp [delim]) (by simp [delim]) h
  obtain ⟨name, kind, mutable, init⟩ := g
  obtain ⟨name', kind', mutable', init'⟩ := g'
  obtain rfl : mutable = mutable' := by
    revert h
    rcases kind with (_ | _) | (_ | _) <;> rcases kind' with (_ | _) | (_ | _) <;>
      cases mutable <;> cases mutable' <;> simp [NumKind.name]
  have h := List.append_cancel_left (List.cons.inj h).2
  obtain ⟨hkind, h⟩ := bare_inj (bare_text (.num kind)) (bare_text (.num kind'))
    (by cases mutable <;> simp [delim]) (by cases mutable <;> simp [delim]) h
  obtain rfl := name_inj.mp hkind
  simp only [List.append_cancel_left_eq, List.append_cancel_right_eq] at h
  have hinit : init = init' := literal_inj hg.init hg'.init (String.toList_inj.mp h)
  rw [show name = name' from hname, hinit]

lemma Global.newline_line {g : Global} (hg : g.Legible) : '\n' ∉ g.line.toList := by
  rw [line_toList]
  split <;> simp [hg.name.newline, newline_literal hg.init,
    show '\n' ∉ g.kind.name.toList from (bare_text (.num g.kind)).newline]

namespace Module

def untyped (m : Module) : Module := { m with functions := m.functions.map Function.untyped }

structure Legible (m : Module) : Prop where
  globals : ∀ g ∈ m.globals, g.Legible
  functions : ∀ f ∈ m.functions, f.Legible

variable {m m' : Module}

/-- The lines of a listing. -/
def lines (m : Module) : List String :=
  "(module" ::
    (m.globals.flatMap (fun g => [g.line]) ++ (m.functions.flatMap Function.lines ++ [")"]))

lemma splitOn_listing (hm : m.Legible) :
    m.listing.toList.splitOn '\n' = m.lines.map String.toList := by
  have hlisting : m.listing = String.intercalate "\n" m.lines := by
    simp [listing, lines, List.map_eq_flatMap]
  rw [hlisting, String.toList_intercalate, show "\n".toList = ['\n'] from rfl]
  refine List.splitOn_intercalate _ ?_ (by simp [lines])
  simp only [lines, List.forall_mem_map, List.forall_mem_cons, List.forall_mem_append,
    List.forall_mem_flatMap]
  exact ⟨by decide, fun g hg => ⟨Global.newline_line (hm.globals g hg), by simp⟩,
    fun f hf => f.newline_lines (hm.functions f hf), by decide, by simp⟩

lemma listing_inj (hm : m.Legible) (hm' : m'.Legible) (h : m.listing = m'.listing) :
    m.untyped = m'.untyped := by
  have hlines : m.lines = m'.lines := by
    have hsplit := splitOn_listing hm'
    rw [← h, splitOn_listing hm] at hsplit
    exact List.map_injective_iff.mpr (fun _ _ => String.toList_inj.mp) hsplit
  have hfunction (f : Function) : f.header.toList.take 4 = "  (f".toList := by
    simp [Function.header_toList]
  have hnext (fs : List Function) :
      ∀ l ∈ (fs.flatMap Function.lines ++ [")"]).head?, l.toList.take 4 ≠ "  (g".toList := by
    rcases fs with _ | ⟨f, fs⟩ <;> simp [Function.lines_eq, hfunction]
  obtain ⟨hglobals, h⟩ := flatMap_split (g := id)
    (Q := fun z => ∀ l ∈ z.head?, l.toList.take 4 ≠ "  (g".toList) (List.cons.inj hlines).2
    (fun g hg g' hg' x y h => ⟨Global.line_inj (hm.globals g hg) (hm'.globals g' hg')
      (List.cons.inj h).1, (List.cons.inj h).2⟩)
    (by simp [Global.line_toList]) (by simp [Global.line_toList]) (hnext _) (hnext _)
  have hclose (f : Function) (z : List String) :
      ¬∀ l ∈ (f.lines ++ z).head?, l.toList.take 4 ≠ "  (f".toList := by
    simp [Function.lines_eq, hfunction]
  obtain ⟨hfunctions, -⟩ := flatMap_split (g := Function.untyped)
    (Q := fun z => ∀ l ∈ z.head?, l.toList.take 4 ≠ "  (f".toList) h
    (fun f hf f' hf' => Function.lines_split (hm.functions f hf) (hm'.functions f' hf'))
    (fun f _ => hclose f) (fun f _ => hclose f) (by simp) (by simp)
  simpa [untyped, hfunctions] using hglobals

end Module

end AnnotatedWasm.Ir
