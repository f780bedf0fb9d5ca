/-!
Places in a source text: byte spans, and the table that turns a byte offset into a line
number.
-/

namespace AnnotatedWasm

/-- A half-open range of byte offsets into the UTF-8 text of a source. -/
structure Span where
  start : Nat
  stop : Nat
deriving Repr, DecidableEq, Inhabited

namespace Span

/-- From the start of `s` to the farther of its own end and the end of `t`. -/
def extendTo (s t : Span) : Span := ⟨s.start, max t.stop s.stop⟩

/-- Written `start..stop`. -/
def text (s : Span) : String := s!"{s.start}..{s.stop}"

end Span

/-- The number of UTF-8 bytes of a character sequence. -/
def byteLength : List Char → Nat
  | [] => 0
  | c :: cs => c.utf8Size + byteLength cs

@[simp] theorem byteLength_nil : byteLength [] = 0 := rfl

@[simp] theorem byteLength_cons (c : Char) (cs : List Char) :
    byteLength (c :: cs) = c.utf8Size + byteLength cs := rfl

@[simp] theorem byteLength_append (cs ds : List Char) :
    byteLength (cs ++ ds) = byteLength cs + byteLength ds := by
  induction cs with
  | nil => simp
  | cons c cs ih => simp [ih, Nat.add_assoc]

/-- The byte offsets at which the lines of a text start, in increasing order. -/
structure LineTable where
  starts : Array Nat
deriving Repr, DecidableEq

namespace LineTable

/-- What a search in a table finds: the index of an entry, or the one that the entry would have. -/
inductive Place where
  | found (index : Nat)
  | missing (index : Nat)
deriving Repr, DecidableEq

/-- The offsets just after each newline of `bytes`, which start at `offset`. -/
def startsFrom (offset : Nat) : List UInt8 → List Nat
  | [] => []
  | b :: bytes =>
    if b = 0x0a then (offset + 1) :: startsFrom (offset + 1) bytes
    else startsFrom (offset + 1) bytes

def ofSource (source : String) : LineTable :=
  ⟨(0 :: startsFrom 0 source.toUTF8.data.toList).toArray⟩

/-- Where the line with an index starts. -/
def start (t : LineTable) (index : Nat) : Nat := t.starts.getD index 0

/-- Halves the `size` entries from `base` on until one is left. -/
def narrow (t : LineTable) (offset base size : Nat) : Nat :=
  if size ≤ 1 then base
  else
    let mid := base + size / 2
    if offset < t.start mid then t.narrow offset base (size - size / 2)
    else t.narrow offset mid (size - size / 2)
termination_by size

/-- Looks for a line that starts at `offset`. -/
def search (t : LineTable) (offset : Nat) : Place :=
  if t.starts.isEmpty then .missing 0
  else
    let i := t.narrow offset 0 t.starts.size
    if t.start i = offset then .found i
    else if t.start i < offset then .missing (i + 1)
    else .missing i

/-- The line, counted from one, that holds `offset`. An offset past the end is on the last
line. -/
def line (t : LineTable) (offset : Nat) : Nat :=
  match t.search offset with
  | .found i => i + 1
  | .missing i => i

/-- The line on which a span starts. -/
def lineOf (t : LineTable) (s : Span) : Nat := t.line s.start

end LineTable

end AnnotatedWasm
