import AnnotatedWasm.Ir.Listing
import Mathlib

/-!
Texts that can be told apart where something follows them.

A listing is made of words between blanks and brackets, and of texts in quotes. A word ends where
one of these characters comes (`bare_inj`), a quoted character says itself where it ends
(`quotedChar_split`), and a list of such texts can be taken apart if what follows it does not look
like one more (`flatMap_split`).
-/

namespace AnnotatedWasm.Listing

/-- If texts of this form in front of something agree, so do what they say and what follows. -/
def Splits {α β γ : Type} (g : α → γ) (f : α → List β) (a b : α) : Prop :=
  ∀ x y, f a ++ x = f b ++ y → g a = g b ∧ x = y

lemma flatMap_split {α β γ : Type} {g : α → γ} {f : α → List β} {Q : List β → Prop}
    {as bs : List α} {x y : List β} (h : as.flatMap f ++ x = bs.flatMap f ++ y)
    (hsplit : ∀ a ∈ as, ∀ b ∈ bs, Splits g f a b) (has : ∀ a ∈ as, ∀ z, ¬Q (f a ++ z))
    (hbs : ∀ b ∈ bs, ∀ z, ¬Q (f b ++ z)) (hx : Q x) (hy : Q y) :
    as.map g = bs.map g ∧ x = y := by
  induction as generalizing bs with
  | nil =>
    cases bs with
    | nil => exact ⟨rfl, h⟩
    | cons b bs =>
      rw [List.flatMap_nil, List.nil_append, List.flatMap_cons, List.append_assoc] at h
      exact absurd (h ▸ hx) (hbs b List.mem_cons_self _)
  | cons a as ih =>
    cases bs with
    | nil =>
      rw [List.flatMap_nil, List.nil_append, List.flatMap_cons, List.append_assoc] at h
      exact absurd (h ▸ hy) (has a List.mem_cons_self _)
    | cons b bs =>
      simp only [List.flatMap_cons, List.append_assoc] at h
      obtain ⟨hab, h⟩ := hsplit a List.mem_cons_self b List.mem_cons_self _ _ h
      obtain ⟨habs, hxy⟩ := ih h (fun a ha b hb => hsplit a (.tail _ ha) b (.tail _ hb))
        (fun a ha => has a (.tail _ ha)) fun b hb => hbs b (.tail _ hb)
      exact ⟨congrArg₂ List.cons hab habs, hxy⟩

/-! ### Words -/

section

variable {p : Char → Bool} {u v x y : List Char}

lemma takeWhile_before (hu : u.any p = false) (hx : ∀ c ∈ x.head?, p c = true) :
    (u ++ x).takeWhile (!p ·) = u := by
  rw [List.takeWhile_append_of_pos (by simpa using hu)]
  cases x with
  | nil => simp
  | cons c x => simp [hx c rfl]

/-- Texts that end where the first of some characters comes. -/
lemma split_before (hu : u.any p = false) (hv : v.any p = false)
    (hx : ∀ c ∈ x.head?, p c = true) (hy : ∀ c ∈ y.head?, p c = true) (h : u ++ x = v ++ y) :
    u = v ∧ x = y := by
  have huv := congrArg (List.takeWhile (!p ·)) h
  rw [takeWhile_before hu hx, takeWhile_before hv hy] at huv
  rw [huv] at h
  exact ⟨huv, List.append_cancel_left h⟩

end

/-- A character that stands between words. -/
def delim (c : Char) : Bool := c = ' ' || c = '(' || c = ')' || c = '\n'

def Bare (s : String) : Prop := s.toList.any delim = false

instance (s : String) : Decidable (Bare s) := inferInstanceAs (Decidable (_ = _))

lemma bare_inj {s t : String} {x y : List Char} (hs : Bare s) (ht : Bare t)
    (hx : ∀ c ∈ x.head?, delim c = true) (hy : ∀ c ∈ y.head?, delim c = true)
    (h : s.toList ++ x = t.toList ++ y) : s = t ∧ x = y :=
  (split_before hs ht hx hy h).imp_left String.toList_inj.mp

lemma Bare.newline {s : String} (hs : Bare s) : '\n' ∉ s.toList :=
  fun h => List.any_eq_false.mp hs _ h rfl

lemma bare_repr (n : Nat) : Bare n.repr := by
  rw [Bare, List.any_eq_false, Nat.toList_repr]
  intro c hc
  have hdigit := Nat.isDigit_of_mem_toDigits (by decide) (by decide) hc
  simp only [delim, Bool.or_eq_true, decide_eq_true_eq]
  rintro (((rfl | rfl) | rfl) | rfl) <;> cases hdigit

lemma bare_text (t : Ty) : Bare t.text := by
  rcases t with ⟨(_ | _) | (_ | _)⟩ | ⟨(_ | _) | (_ | _)⟩ | _ | _ <;> decide

lemma text_inj {t u : Ty} (h : t.text = u.text) : t = u := by
  revert h
  rcases t with ⟨(_ | _) | (_ | _)⟩ | ⟨(_ | _) | (_ | _)⟩ | _ | _ <;>
    rcases u with ⟨(_ | _) | (_ | _)⟩ | ⟨(_ | _) | (_ | _)⟩ | _ | _ <;>
    first | exact fun _ => rfl | decide

lemma name_inj {k l : NumKind} : k.name = l.name ↔ k = l :=
  ⟨fun h => Ty.num.inj (text_inj h), congrArg _⟩

lemma literal_inj {v v' : Literal} (hv : v.kind.isFloat = false) (hv' : v'.kind.isFloat = false)
    (h : v.text = v'.text) : v = v' := by
  rcases v with ⟨w, v⟩ | _ <;> rcases v' with ⟨w', v'⟩ | _ <;> cases hv <;> cases hv'
  cases w <;> cases w' <;> simp_all [Literal.text, ← String.toList_inj, toString, Width.digits]
  all_goals exact BitVec.toInt_inj.mp (Int.repr_inj.mp (String.toList_inj.mp h))

lemma newline_literal {v : Literal} (hv : v.kind.isFloat = false) : '\n' ∉ v.text.toList := by
  have hint (i : Int) : '\n' ∉ i.repr.toList := by
    rcases i with n | n
    · exact (bare_repr n).newline
    · simpa [Int.repr, -Nat.toList_repr] using (bare_repr (n + 1)).newline
  rcases v with ⟨_ | _, v⟩ | _ <;> cases hv <;>
    simpa [Literal.text, toString, Width.digits] using hint v.toInt

lemma newline_resultText (t : Ty) : '\n' ∉ (Ir.resultText t).toList := by
  unfold Ir.resultText
  split <;> simp [toString, (bare_text t).newline]

/-- What a block or a function leaves can be told from its line. -/
lemma resultText_split {t u : Ty} {x y : List Char} (hx : x.head? ≠ some ' ')
    (hy : y.head? ≠ some ' ')
    (h : (Ir.resultText t).toList ++ x = (Ir.resultText u).toList ++ y) : t = u ∧ x = y := by
  have hvoid {t : Ty} (ht : t.isVoid = true) : t = .void := by
    cases t <;> first | rfl | cases ht
  unfold Ir.resultText at h
  split at h <;> split at h <;> simp [toString] at h
  · next ht hu => exact ⟨(hvoid ht).trans (hvoid hu).symm, h⟩
  · simp [h] at hx
  · simp [← h] at hy
  · obtain ⟨htext, hxy⟩ :=
      bare_inj (bare_text t) (bare_text u) (by simp [delim]) (by simp [delim]) h
    exact ⟨text_inj htext, (List.cons.inj hxy).2⟩

/-! ### Quoted texts -/

/-- The number that hexadecimal digits stand for. -/
def ofHex (cs : List Char) : Nat :=
  cs.foldl (fun n c => 16 * n + "0123456789abcdef".toList.idxOf c) 0

lemma ofHex_hex (n : Nat) :
    ofHex (Text.hex n) = n ∧ (Text.hex n).any (· ∈ ['\x7d', '\n']) = false := by
  have hdigit : ∀ d < 16, "0123456789abcdef".toList.idxOf d.digitChar = d := by decide
  induction n using Nat.strongRecOn with
  | ind n ih =>
    rw [Text.hex, Nat.toDigits_eq_if (by decide)]
    split
    · next hn => simpa [ofHex] using hdigit n hn
    · next hn =>
      obtain ⟨hvalue, hany⟩ := ih (n / 16) (by omega)
      have hlast := hdigit (n % 16) (Nat.mod_lt _ (by decide))
      simp only [ofHex, Text.hex] at hvalue hany
      refine ⟨?_, by rw [List.any_append, hany]; simp⟩
      simp only [ofHex, List.foldl_append, hvalue, List.foldl_cons, List.foldl_nil, hlast]
      omega

/-- The characters that have an escape of one letter. -/
def escapes : List (Char × Char) :=
  [('\x00', '0'), ('\t', 't'), ('\r', 'r'), ('\n', 'n'), ('\x22', '\x22'), ('\\', '\\')]

lemma quotedChar_cases (c : Char) :
    Text.quotedChar c = [c] ∧ c ∉ escapes.map Prod.fst ∨
      (∃ e, (c, e) ∈ escapes ∧ Text.quotedChar c = ['\\', e]) ∨
      Text.quotedChar c = ['\\', 'u', '\x7b'] ++ Text.hex c.toNat ++ ['\x7d'] := by
  unfold Text.quotedChar
  split
  case h_7 => split <;> simp_all [escapes]
  all_goals simp [escapes]

lemma quotedChar_split (c d : Char) : Splits id Text.quotedChar c d := by
  have hone : ∀ p ∈ escapes, ∀ q ∈ escapes, p.2 = q.2 → p.1 = q.1 := by decide
  have hother : ∀ p ∈ escapes, p.2 ≠ 'u' := by decide
  have hslash : '\\' ∈ escapes.map Prod.fst := by decide
  intro x y h
  obtain ⟨hc, hplain⟩ | ⟨e, he, hc⟩ | hc := quotedChar_cases c <;>
    obtain ⟨hd, hplain'⟩ | ⟨e', he', hd⟩ | hd := quotedChar_cases d <;>
    rw [hc, hd] at h <;> simp at h
  · exact h
  · exact absurd (h.1 ▸ hslash) hplain
  · exact absurd (h.1 ▸ hslash) hplain
  · exact absurd (h.1 ▸ hslash) hplain'
  · exact ⟨hone _ he _ he' h.1, h.2⟩
  · exact absurd h.1 (hother _ he)
  · exact absurd (h.1 ▸ hslash) hplain'
  · exact absurd h.1.symm (hother _ he')
  · obtain ⟨hhex, hxy⟩ := split_before (ofHex_hex _).2 (ofHex_hex _).2 (by simp) (by simp) h
    have hval := congrArg ofHex hhex
    rw [(ofHex_hex _).1, (ofHex_hex _).1] at hval
    exact ⟨Char.toNat_inj.mp hval, (List.cons.inj hxy).2⟩

lemma newline_quoted (s : String) : '\n' ∉ (Text.quoted s).toList := by
  have hescape : ∀ p ∈ escapes, p.2 ≠ '\n' := by decide
  simp only [Text.quoted, String.toList_ofList, List.mem_append, List.mem_flatMap]
  rintro ((h | ⟨c, -, h⟩) | h)
  · simp at h
  · obtain ⟨hc, hplain⟩ | ⟨e, he, hc⟩ | hc := quotedChar_cases c <;> rw [hc] at h <;> simp at h
    · exact hplain (h ▸ by decide)
    · exact hescape _ he h.symm
    · exact List.any_eq_false.mp (ofHex_hex _).2 _ h (by decide)
  · simp at h

lemma quoted_inj {s t : String} (h : Text.quoted s = Text.quoted t) : s = t := by
  have hquote (c : Char) (z : List Char) : (Text.quotedChar c ++ z).head? ≠ some '\x22' := by
    obtain ⟨hc, hplain⟩ | ⟨e, he, hc⟩ | hc := quotedChar_cases c <;> simp [hc]
    rintro rfl
    exact hplain (by decide)
  simp only [Text.quoted, String.ofList_inj, List.append_assoc, List.append_cancel_left_eq] at h
  obtain ⟨h, -⟩ := flatMap_split (Q := fun z => z.head? = some '\x22') h
    (fun c _ d _ => quotedChar_split c d) (fun c _ => hquote c) (fun c _ => hquote c) rfl rfl
  exact String.toList_inj.mp (by simpa using h)

end AnnotatedWasm.Listing
