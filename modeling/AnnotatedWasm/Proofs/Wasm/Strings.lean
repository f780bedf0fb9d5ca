import AnnotatedWasm.Proofs.Exec.Emission
import AnnotatedWasm.Proofs.Wasm.Contents

/-!
String constants and their segments.

The file of a module has one segment for each string constant, in the order in which the constants
are emitted, and the code copies each constant whole from its own segment.
-/

namespace AnnotatedWasm.Wasm

open Exec (Heap)

/-- The one section that says how many segments there are. -/
lemma Module.filter_parts (w : Module) :
    w.parts.filter (·.id = 0x0c) = optionalPart 0x0c w.data (uleb w.data.length) := by
  have hoptional {α : Type} (id : UInt8) (xs : List α) (payload : List UInt8) :
      (optionalPart id xs payload).filter (·.id = 0x0c) =
        if id = 0x0c then optionalPart id xs payload else [] := by
    rw [optionalPart]
    split <;> split <;> simp_all
  simp [Module.parts, List.filter_append, hoptional]

/-- A copy that gives a text: it takes the whole of a segment, which holds the text. -/
structure Copy.Gives (c : Copy) (data : List (List UInt8)) (s : String) : Prop where
  segment : data[c.segment]? = some s.toUTF8.toList
  operands : ∃ offset size, c.offset = some (.const offset) ∧ c.length = some (.const size) ∧
    offset.unsigned + size.unsigned ≤ s.toUTF8.toList.length ∧
    (s.toUTF8.toList.length < 2 ^ 32 → size.unsigned = s.toUTF8.toList.length) ∧
    ∀ h, Heap.addCopied? s.toUTF8.toList (.num offset) (.num size) h = some (h.add (.ofText s))

/-- How the string constants of a module stand in its file. -/
structure LinesUp (m : Ir.Module) (bytes : List UInt8) (w : Module) : Prop where
  decodes : Decodes none bytes (sectionIds m) w
  segments : w.data = m.texts.map (·.toUTF8.toList)
  /-- The code of all functions copies from one segment after the other. -/
  copies : w.codes.flatMap Code.copies = w.data.zipIdx.map fun (segment, k) =>
    ⟨some (.const (.i32 0)), some (.const (.i32 segment.length)), w.types.idxOf (.array .byte), k⟩
  gives : List.Forall₂ (fun c s => c.Gives w.data s) (w.codes.flatMap Code.copies) m.texts
  /-- There is no count where there are no segments. -/
  count : ∀ parts, readSections none bytes = some parts → parts.filter (·.id = 0x0c) =
    if m.texts.isEmpty then [] else [⟨0x0c, uleb m.texts.length⟩]

lemma gives_copiesOf (T : List TypeDef) (data : List (List UInt8)) (texts : List String) (k : Nat)
    (hdata : data.drop k = texts.map (·.toUTF8.toList)) :
    List.Forall₂ (fun c s => c.Gives data s) (copiesOf T k texts) texts := by
  induction texts generalizing k with
  | nil => exact .nil
  | cons s texts ih =>
    rw [List.map_cons] at hdata
    have hsegment : data[k]? = some s.toUTF8.toList := by
      rw [← List.head?_drop, hdata, List.head?_cons]
    have hrest : data.drop (k + 1) = texts.map (·.toUTF8.toList) := by
      rw [← List.drop_drop, hdata, List.drop_one, List.tail_cons]
    have hzero : (Literal.i32 0).unsigned = 0 := rfl
    refine .cons ⟨hsegment, _, _, rfl, rfl, ?_, fun hlt => ?_, fun h => ?_⟩ (ih (k + 1) hrest)
    · rw [hzero, Exec.unsigned_i32, Nat.zero_add]
      exact Nat.mod_le _ _
    · rw [Exec.unsigned_i32, Nat.mod_eq_of_lt hlt]
    · rw [Exec.addCopied?_text]

/-- **String constants and segments line up**: in the file that a module is encoded to, the `k`-th
string constant, in the order of emission through all functions, is the `k`-th segment, and the
`k`-th copy in the code takes all of it from its start, so no copy goes beyond its segment. The
number of segments is written in a section of its own. -/
theorem encode_linesUp {m : Ir.Module} {bytes : List UInt8} (h : encode m = .ok bytes) :
    ∃ w, Module.ofIr m = .ok w ∧ w.bytes = bytes ∧ LinesUp m bytes w := by
  rcases hw : Module.ofIr m with e | w
  · rw [encode, hw] at h
    cases h
  · rw [encode, hw] at h
    cases h
    have hrep := represents_of_ofIr hw
    have hread : readSections none w.bytes = some w.parts := readSections_bytes trivial
    refine ⟨w, rfl, rfl, hrep.decodes trivial fun _ _ => trivial, hrep.data, ?_, ?_, ?_⟩
    · rw [hrep.copies, hrep.data, List.zipIdx_map, List.map_map]
      rfl
    · rw [hrep.copies]
      exact gives_copiesOf _ _ _ 0 hrep.data
    · intro parts hparts
      cases hread.symm.trans hparts
      rw [w.filter_parts, optionalPart, hrep.data, List.isEmpty_map, List.length_map]

open Ir.Node in
/-- Two texts in one expression, one of them empty, and the other again in another function. -/
def textModule : Ir.Module where
  functions := [
    { name := "f", params := [.i32], result := .str, locals := [], localNames := []
      body := [ret (some (select (localGet 0 .i32) (string "é)") (string "")))] },
    { name := "g", params := [], result := .void, locals := [], localNames := []
      body := [loop "l" (drop (arrayLen (string "é)")))] }]

theorem encode_linesUp_text : ∃ bytes w, encode textModule = .ok bytes ∧
    w.data = [[0xc3, 0xa9, 0x29], [], [0xc3, 0xa9, 0x29]] ∧
    (w.codes.flatMap Code.copies).map Copy.segment = [0, 1, 2] ∧ LinesUp textModule bytes w := by
  have hsome : (encode textModule).toOption.isSome = true := by decide +kernel
  have htexts : textModule.texts.map (·.toUTF8.toList) =
      [[0xc3, 0xa9, 0x29], [], [0xc3, 0xa9, 0x29]] := by decide +kernel
  rcases hbytes : encode textModule with e | bytes
  · rw [hbytes] at hsome
    cases hsome
  · obtain ⟨w, -, -, hup⟩ := encode_linesUp hbytes
    have hdata := hup.segments.trans htexts
    refine ⟨bytes, w, rfl, hdata, ?_, hup⟩
    rw [hup.copies, hdata]
    rfl

end AnnotatedWasm.Wasm
