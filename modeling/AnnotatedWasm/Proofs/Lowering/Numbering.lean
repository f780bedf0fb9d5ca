import AnnotatedWasm.Lowering.Basic
import Mathlib

/-!
Numbered labels.

Labels of four families are numbered by one counter. A label says which family it is of and which
number it has (`LabelKind.label_inj`), so labels that are taken one after the other differ (`Fresh`).
-/

namespace AnnotatedWasm.Lowering

/-- The families of labels. -/
inductive LabelKind where
  | loop | body | orelse | range
deriving DecidableEq

namespace LabelKind

def stem : LabelKind → String
  | loop => "loop_"
  | body => "loop_body_"
  | orelse => "loop_else_"
  | range => "range_"

def label (k : LabelKind) (id : Nat) : Ir.Label := k.stem ++ id.repr

lemma toList_label (k : LabelKind) (id : Nat) :
    (k.label id).toList = k.stem.toList ++ id.repr.toList :=
  String.toList_append

/-- A label is cut before the digits at its end. -/
lemma span_label (k : LabelKind) (id : Nat) :
    (k.label id).toList.reverse.takeWhile Char.isDigit = id.repr.toList.reverse ∧
      (k.label id).toList.reverse.dropWhile Char.isDigit = k.stem.toList.reverse := by
  have hdigits : ∀ c ∈ id.repr.toList.reverse, c.isDigit = true := by
    intro c hc
    rw [List.mem_reverse, Nat.toList_repr] at hc
    exact Nat.isDigit_of_mem_toDigits (by decide) (by decide) hc
  have hstem : k.stem.toList.reverse.takeWhile Char.isDigit = [] ∧
      k.stem.toList.reverse.dropWhile Char.isDigit = k.stem.toList.reverse := by
    cases k <;> decide
  rw [toList_label, List.reverse_append, List.takeWhile_append_of_pos hdigits,
    List.dropWhile_append_of_pos hdigits, hstem.1, hstem.2, List.append_nil]
  exact ⟨rfl, rfl⟩

lemma label_inj {k k' : LabelKind} {i j : Nat} (h : k.label i = k'.label j) : k = k' ∧ i = j := by
  obtain ⟨hdigits, hstem⟩ := k.span_label i
  obtain ⟨hdigits', hstem'⟩ := k'.span_label j
  rw [h] at hdigits hstem
  constructor
  · have heq := List.reverse_injective (hstem.symm.trans hstem')
    revert heq
    cases k <;> cases k' <;> decide
  · have heq := List.reverse_injective (hdigits.symm.trans hdigits')
    exact Nat.repr_inj.mp (String.toList_inj.mp heq)

lemma label_ne {k k' : LabelKind} (h : k ≠ k') (i j : Nat) : k.label i ≠ k'.label j :=
  fun heq => h (label_inj heq).1

end LabelKind

lemma loopLabel_eq (id : Nat) : loopLabel id = LabelKind.loop.label id := rfl

lemma loopBodyLabel_eq (id : Nat) : loopBodyLabel id = LabelKind.body.label id := rfl

lemma loopElseLabel_eq (id : Nat) : loopElseLabel id = LabelKind.orelse.label id := rfl

lemma loopLabel_inj {i j : Nat} (h : loopLabel i = loopLabel j) : i = j :=
  (LabelKind.label_inj h : LabelKind.loop = .loop ∧ i = j).2

lemma loopLabel_ne_body (i j : Nat) : loopBodyLabel j ≠ loopLabel i :=
  LabelKind.label_ne (by decide : LabelKind.body ≠ .loop) j i

lemma loopLabel_ne_else (i j : Nat) : loopLabel i ≠ loopElseLabel j :=
  LabelKind.label_ne (by decide : LabelKind.loop ≠ .orelse) i j

lemma loopBodyLabel_ne_else (i j : Nat) : loopBodyLabel i ≠ loopElseLabel j :=
  LabelKind.label_ne (by decide : LabelKind.body ≠ .orelse) i j

/-! ### Labels that are taken one after the other -/

/-- The label has a number from `lo` on and below `hi`. -/
def Numbered (lo hi : Nat) (l : Ir.Label) : Prop := ∃ k i, lo ≤ i ∧ i < hi ∧ l = LabelKind.label k i

/-- Different labels with such numbers. -/
structure Fresh (lo hi : Nat) (ls : List Ir.Label) : Prop where
  le : lo ≤ hi
  nodup : ls.Nodup
  numbered : ∀ l ∈ ls, Numbered lo hi l

namespace Fresh

variable {lo mid hi : Nat} {ls ls' : List Ir.Label}

lemma nil (h : lo ≤ hi) : Fresh lo hi [] := ⟨h, List.nodup_nil, nofun⟩

lemma mono {lo' hi' : Nat} (h : Fresh lo hi ls) (hlo : lo' ≤ lo) (hhi : hi ≤ hi') :
    Fresh lo' hi' ls := by
  refine ⟨(hlo.trans h.le).trans hhi, h.nodup, fun l hl => ?_⟩
  obtain ⟨k, i, hi, hj, rfl⟩ := h.numbered l hl
  exact ⟨k, i, hlo.trans hi, hj.trans_le hhi, rfl⟩

lemma perm (h : Fresh lo hi ls) (hp : ls.Perm ls') : Fresh lo hi ls' :=
  ⟨h.le, hp.nodup_iff.mp h.nodup, fun l hl => h.numbered l (hp.mem_iff.mpr hl)⟩

/-- Labels that were numbered one after the other. -/
lemma append (h : Fresh lo mid ls) (h' : Fresh mid hi ls') : Fresh lo hi (ls ++ ls') where
  le := h.le.trans h'.le
  nodup := by
    rw [List.nodup_append']
    refine ⟨h.nodup, h'.nodup, fun l hl hl' => ?_⟩
    obtain ⟨k, i, -, hi, rfl⟩ := h.numbered l hl
    obtain ⟨k', j, hj, -, heq⟩ := h'.numbered _ hl'
    obtain ⟨-, rfl⟩ := LabelKind.label_inj heq
    omega
  numbered l hl := by
    rcases List.mem_append.mp hl with hl | hl
    · exact (h.mono le_rfl h'.le).numbered l hl
    · exact (h'.mono h.le le_rfl).numbered l hl

/-- Labels of different families with one number. -/
lemma single {kinds : List LabelKind} (h : kinds.Nodup) (id : Nat) :
    Fresh id (id + 1) (kinds.map (LabelKind.label · id)) where
  le := Nat.le_succ id
  nodup := h.map fun _ _ heq => (LabelKind.label_inj heq).1
  numbered l hl := by
    obtain ⟨k, -, rfl⟩ := List.mem_map.mp hl
    exact ⟨k, id, le_rfl, Nat.lt_succ_self id, rfl⟩

end Fresh

/-- The labels are new between two states. -/
abbrev NewLabels (b b' : Body) (ls : List Ir.Label) : Prop :=
  Fresh b.session.nextLabel b'.session.nextLabel ls

end AnnotatedWasm.Lowering
