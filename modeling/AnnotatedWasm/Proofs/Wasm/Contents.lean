import AnnotatedWasm.Proofs.Wasm.Sections
import AnnotatedWasm.Proofs.Wasm.WellTypedModule

/-!
What the file of a module holds.

The code of a module copies each string constant from a segment of its own, and the file reads back
as the module that it was made of. So a file tells all that `Represents` says of its module.
-/

namespace AnnotatedWasm

namespace Wasm

open Ir (Node)

/-! ### Copies from segments -/

/-- A copy from a segment, with the two instructions right before it. -/
structure Copy where
  offset : Option Instr
  length : Option Instr
  type : Nat
  segment : Nat

mutual

/-- The copies in an instruction, in order, where `a` and `b` stand before it. -/
def Instr.copies (a b : Option Instr) : Instr → List Copy
  | .arrayNewData t s => [⟨a, b, t, s⟩]
  | .block _ is | .loop is | .ifThen is => Instr.copiesAll none none is
  | .ifElse is js => Instr.copiesAll none none is ++ Instr.copiesAll none none js
  | _ => []

def Instr.copiesAll (a b : Option Instr) : List Instr → List Copy
  | [] => []
  | i :: is => i.copies a b ++ Instr.copiesAll b (some i) is

end

/-- Copies of whole texts, from segments that are numbered from `k` on. -/
def copiesOf (T : List TypeDef) (k : Nat) (texts : List String) : List Copy :=
  (texts.zipIdx k).map fun (s, i) => ⟨some (.const (.i32 0)),
    some (.const (.i32 s.toUTF8.toList.length)), T.idxOf (.array .byte), i⟩

lemma copiesOf_append (T : List TypeDef) (k : Nat) (texts more : List String) :
    copiesOf T k (texts ++ more) = copiesOf T k texts ++ copiesOf T (k + texts.length) more := by
  rw [copiesOf, List.zipIdx_append, List.map_append]
  rfl

/-- These are the copies in the instructions, whatever stands before them. -/
def Copies (T : List TypeDef) (k : Nat) (texts : List String) (is : List Instr) : Prop :=
  ∀ a b, Instr.copiesAll a b is = copiesOf T k texts

namespace Copies

variable {T : List TypeDef} {k : Nat} {texts more : List String} {is js : List Instr} {i : Instr}

lemma append (h : Copies T k texts is) (h' : Copies T (k + texts.length) more js) :
    Copies T k (texts ++ more) (is ++ js) := by
  have hsplit (is : List Instr) : ∀ a b, Instr.copiesAll a b (is ++ js) =
      Instr.copiesAll a b is ++ copiesOf T (k + texts.length) more := by
    induction is with
    | nil => exact fun a b => (h' a b).trans (List.nil_append _).symm
    | cons i is ih => simp [Instr.copiesAll, ih]
  intro a b
  rw [hsplit, h, copiesOf_append]

lemma single (hi : ∀ a b, i.copies a b = copiesOf T k texts) : Copies T k texts [i] := by
  intro a b
  rw [Instr.copiesAll, hi, Instr.copiesAll, List.append_nil]

/-- An instruction that copies nothing may follow. -/
lemma followed (h : Copies T k texts is) (hi : ∀ a b, i.copies a b = []) :
    Copies T k texts (is ++ [i]) := by
  have hlast : Copies T (k + texts.length) [] [i] := single hi
  have happend := h.append hlast
  rwa [List.append_nil] at happend

end Copies

variable {S : Symbols} {r : Pool} {k : Nat} {L : Labels}

lemma Applies.copies {T : List TypeDef} {n : Node} {ops : List Node} {i : Instr}
    (h : Applies S T L n ops i) (a b : Option Instr) : i.copies a b = [] := by
  cases h
  case select hi => cases hi <;> rfl
  all_goals rfl

mutual

/-- The code of a node copies its string constants, in order. -/
lemma Emits.copies {k : Nat} {L : Labels} {n : Node} {is : List Instr} :
    Emits S r k L n is → Copies r.types.entries k n.texts is
  | .applies hn hops => by
    rw [hn.texts]
    exact hops.copies.followed hn.copies
  | .string ht _ => fun a b => by
    rw [copiesOf, ← ht.1]
    rfl
  | .block _ _ hbody => .single fun _ _ => hbody.copies none none
  | .loop hbody => .single fun _ _ => hbody.copies none none
  | .ifThen hc ha => by
    rw [Node.texts, Node.textsOpt, List.append_nil]
    exact hc.copies.append (.single fun _ _ => ha.copies none none)
  | .ifElse hc ha hb => by
    rw [Node.texts, Node.textsOpt, List.append_assoc]
    refine hc.copies.append (.single fun _ _ => ?_)
    rw [Instr.copies, ha.copies, hb.copies, copiesOf_append]

lemma EmitsAll.copies {k : Nat} {L : Labels} {ns : List Node} {is : List Instr} :
    EmitsAll S r k L ns is → Copies r.types.entries k (Node.textsAll ns) is
  | .nil => fun _ _ => rfl
  | .cons hn hns => hn.copies.append hns.copies

end

/-- The copies in a function. -/
def Code.copies (code : Code) : List Copy := Instr.copiesAll none none code.body

lemma FunctionEmits.copies {f : Ir.Function} {code : Code} (h : FunctionEmits S r k f code) :
    code.copies = copiesOf r.types.entries k (Node.textsAll f.body) := by
  obtain ⟨is, his, hbody⟩ := h.body
  rw [Code.copies, hbody]
  split
  · exact his.copies none none
  · exact his.copies.followed (fun _ _ => rfl) none none

lemma FunctionsEmit.copies {fs : List Ir.Function} {codes : List Code}
    (h : FunctionsEmit S r k fs codes) : codes.flatMap Code.copies =
      copiesOf r.types.entries k (fs.flatMap fun f => Node.textsAll f.body) := by
  induction h with
  | nil => rfl
  | cons hf _ ih => rw [List.flatMap_cons, List.flatMap_cons, hf.copies, ih, copiesOf_append]

/-! ### Modules -/

/-- The copies in all functions, in order, are those of the string constants. -/
lemma Represents.copies {m : Ir.Module} {w : Module} (h : Represents m w) :
    w.codes.flatMap Code.copies = copiesOf w.types 0 m.texts := h.emits.copies

/-- The codes of the sections of a file, in order. -/
def sectionIds (m : Ir.Module) : List UInt8 :=
  [0x01, 0x03] ++ (if m.globals.isEmpty then [] else [0x06]) ++ [0x07] ++
    (if m.texts.isEmpty then [] else [0x0c]) ++ [0x0a] ++
    (if m.texts.isEmpty then [] else [0x0b]) ++ [0x00]

/-- The file has these sections and they hold this module, with nothing left over. -/
def Decodes (limit : Limit) (bytes : List UInt8) (ids : List UInt8) (w : Module) : Prop :=
  ∃ parts, readSections limit bytes = some parts ∧ parts.map (·.id) = ids ∧
    (Module.ofParts limit).run parts = some (w, [])

lemma Represents.decodes {m : Ir.Module} {w : Module} (h : Represents m w) {limit : Limit}
    (hroom : limit.Holds w.bytes.length) (hnumbers : ∀ n ∈ w.numbers, limit.Holds n) :
    Decodes limit w.bytes (sectionIds m) w := by
  have hparts : limit.Holds (partsBytes w.parts).length := by
    refine hroom.mono ?_
    rw [w.bytes_eq, List.length_append]
    exact Nat.le_add_left _ _
  have hlen : w.codes.length = w.functions.length :=
    h.locals.length_eq.symm.trans h.functions.length_eq
  refine ⟨w.parts, readSections_bytes hroom, ?_, Module.run_ofParts hparts hnumbers hlen⟩
  rw [w.map_id_parts, h.globals, h.data, List.isEmpty_map, List.isEmpty_map]
  rfl

/-- **Decoding**: the file that a module is encoded to has its sections in order and decodes to what
represents the module. This is so for a reader that sets no limit to numbers, and for one that
takes numbers of 32 bits, if all sizes and indices are such numbers. -/
theorem encode_decodes (m : Ir.Module) (bytes : List UInt8) (h : encode m = .ok bytes) :
    ∃ w, Module.ofIr m = .ok w ∧ Represents m w ∧ Decodes none bytes (sectionIds m) w ∧
      (bytes.length < 2 ^ 32 → (∀ n ∈ w.numbers, n < 2 ^ 32) →
        Decodes (some 32) bytes (sectionIds m) w) := by
  rcases hw : Module.ofIr m with e | w
  · rw [encode, hw] at h
    cases h
  · rw [encode, hw] at h
    cases h
    have hrep := represents_of_ofIr hw
    exact ⟨w, rfl, hrep, hrep.decodes trivial fun _ _ => trivial,
      fun hroom hnumbers => hrep.decodes hroom hnumbers⟩

/-- Both readers get back a module with a global and a string constant, whose indices are small. -/
theorem encode_decodes_walk : ∃ bytes w, encode walkModule = .ok bytes ∧
    Represents walkModule w ∧
    Decodes none bytes [0x01, 0x03, 0x06, 0x07, 0x0c, 0x0a, 0x0b, 0x00] w ∧
    Decodes (some 32) bytes [0x01, 0x03, 0x06, 0x07, 0x0c, 0x0a, 0x0b, 0x00] w := by
  have hsmall : (encode walkModule).toOption.map (decide <| ·.length < 2 ^ 32) = some true := by
    decide +kernel
  have hnumbers : (Module.ofIr walkModule).toOption.map (·.numbers.all (· < 2 ^ 32)) =
      some true := by decide +kernel
  have hids : sectionIds walkModule = [0x01, 0x03, 0x06, 0x07, 0x0c, 0x0a, 0x0b, 0x00] := by
    decide +kernel
  rcases hbytes : encode walkModule with e | bytes
  · rw [hbytes] at hsmall
    cases hsmall
  · obtain ⟨w, hw, hrep, hall, hstrict⟩ := encode_decodes walkModule bytes hbytes
    rw [hbytes] at hsmall
    rw [hw] at hnumbers
    rw [hids] at hall hstrict
    refine ⟨bytes, w, rfl, hrep, hall, hstrict ?_ ?_⟩
    · simpa [Except.toOption] using hsmall
    · simpa [Except.toOption] using hnumbers

end Wasm

end AnnotatedWasm
