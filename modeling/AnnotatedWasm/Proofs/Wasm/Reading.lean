import AnnotatedWasm.Wasm.Binary
import AnnotatedWasm.Proofs.Wasm.Reader

/-!
Numbers, sequences and texts are read back as they were written.

`Reads r cs a` says that a reader takes just the bytes `cs` for `a`, whatever follows. Numbers have
to keep to the limit of the reader; a file that is not too long holds no length that does not.
-/

namespace AnnotatedWasm.Wasm

/-- In front of any bytes, the reader takes these ones and gives this value. -/
def Reads {α : Type} (r : Reader α) (cs : List UInt8) (a : α) : Prop :=
  ∀ rest, r.run (cs ++ rest) = some (a, rest)

namespace Reads

variable {α β : Type} {r : Reader α} {f : α → Reader β} {cs ds : List UInt8} {a : α} {b : β}

lemma pure (a : α) : Reads (pure a) [] a := fun _ => rfl

lemma bind (h : Reads r cs a) (h' : Reads (f a) ds b) : Reads (r >>= f) (cs ++ ds) b := by
  intro rest
  rw [StateT.run_bind, List.append_assoc, h]
  exact h' rest

/-- The last reader of several gives the result away. -/
lemma map {g : α → β} (h : Reads r cs a) : Reads (do return g (← r)) cs (g a) := by
  have hbind : Reads (do return g (← r)) (cs ++ []) (g a) := h.bind (pure (g a))
  rwa [List.append_nil] at hbind

/-- A step that takes no bytes. -/
lemma lift {o : Option α} (ho : o = some a) (h : Reads (f a) cs b) :
    Reads ((liftM o : Reader α) >>= f) cs b := by
  intro rest
  rw [StateT.run_bind, ho]
  exact h rest

lemma guarded {p : Prop} [Decidable p] {r : Reader α} (hp : p) (h : Reads r cs a) :
    Reads (do guard p; r) cs a := by
  intro rest
  rw [guard, if_pos hp]
  exact h rest

lemma whole (h : Reads r cs a) : Reader.whole r cs = some a := by
  have hrun := h []
  rw [List.append_nil] at hrun
  rw [Reader.whole, hrun]

end Reads

open Reader

variable {α : Type} {w : Limit}

lemma reads_byte (c : UInt8) : Reads byte [c] c := fun _ => rfl

/-- The first byte decides how to go on. -/
lemma reads_byte_bind {β : Type} {f : UInt8 → Reader β} {c : UInt8} {cs : List UInt8} {b : β}
    (h : Reads (f c) cs b) : Reads (byte >>= f) (c :: cs) b :=
  (reads_byte c).bind h

lemma reads_expect (c : UInt8) : Reads (expect c) [c] () := by
  intro rest
  rw [expect, StateT.run_bind, reads_byte c]
  simp

lemma reads_expect_bind {β : Type} {r : Reader β} {c : UInt8} {cs : List UInt8} {b : β}
    (h : Reads r cs b) : Reads (do expect c; r) (c :: cs) b :=
  (reads_expect c).bind h

/-! ### Numbers -/

namespace Limit.Holds

lemma mono {m n : Nat} (h : w.Holds n) (hle : m ≤ n) : w.Holds m := by
  cases w with
  | none => trivial
  | some bits => exact lt_of_le_of_lt hle h

/-- A number that needs more than a byte leaves the rest of its digits to the next. -/
lemma less {n : Nat} (h : w.Holds n) (hn : 128 ≤ n) :
    w.goesOn = true ∧ w.less.Holds (n / 128) := by
  cases w with
  | none => exact ⟨rfl, trivial⟩
  | some bits =>
    have hlt : n < 2 ^ bits := h
    have hbits : 7 < bits := by
      by_contra hle
      have hpow : 2 ^ bits ≤ 2 ^ 7 := Nat.pow_le_pow_right (by omega) (by omega)
      omega
    refine ⟨by simpa [goesOn] using hbits, ?_⟩
    show n / 128 < 2 ^ (bits - 7)
    have hpow : 2 ^ bits = 128 * 2 ^ (bits - 7) := by
      rw [show (128 : Nat) = 2 ^ 7 by rfl, ← pow_add]
      congr 1
      omega
    omega

lemma withSign {n : Nat} (h : w.Holds n) : w.withSign.HoldsSigned n := by
  cases w with
  | none => trivial
  | some bits =>
    have hlt : n < 2 ^ bits := h
    show -2 ^ (bits + 1 - 1) ≤ (n : Int) ∧ (n : Int) < 2 ^ (bits + 1 - 1)
    rw [Nat.add_sub_cancel]
    have hcast : (n : Int) < 2 ^ bits := by exact_mod_cast hlt
    exact ⟨by omega, hcast⟩

end Limit.Holds

/-- The same for signed numbers. -/
lemma Limit.HoldsSigned.less {n : Int} (h : w.HoldsSigned n) (hn : ¬ (-64 ≤ n ∧ n < 64)) :
    w.goesOn = true ∧ w.less.HoldsSigned (n / 128) := by
  cases w with
  | none => exact ⟨rfl, trivial⟩
  | some bits =>
    obtain ⟨hlow, hhigh⟩ : -2 ^ (bits - 1) ≤ n ∧ n < 2 ^ (bits - 1) := h
    have hbits : 7 < bits := by
      by_contra hle
      have hpow : (2 : Int) ^ (bits - 1) ≤ 2 ^ 6 := pow_le_pow_right₀ (by omega) (by omega)
      omega
    refine ⟨by simpa [goesOn] using hbits, ?_⟩
    show -2 ^ (bits - 7 - 1) ≤ n / 128 ∧ n / 128 < 2 ^ (bits - 7 - 1)
    have hpow : (2 : Int) ^ (bits - 1) = 128 * 2 ^ (bits - 7 - 1) := by
      rw [show (128 : Int) = 2 ^ 7 by rfl, ← pow_add]
      congr 1
      omega
    omega

lemma reads_unsigned {n : Nat} (h : w.Holds n) : Reads (unsigned w) (uleb n) n := by
  intro rest
  show unsigned w (uleb n ++ rest) = _
  induction n using Nat.strong_induction_on generalizing w with
  | _ n ih =>
    rw [uleb]
    split
    · next hn =>
      have hbyte : (UInt8.ofNat n).toNat = n := by
        rw [UInt8.toNat_ofNat']
        omega
      rw [List.singleton_append, unsigned, hbyte, if_pos hn, if_pos h]
    · next hn =>
      obtain ⟨hgo, hless⟩ := h.less (by omega)
      have hbyte : (UInt8.ofNat (n % 128 + 128)).toNat = n % 128 + 128 := by
        rw [UInt8.toNat_ofNat']
        omega
      rw [List.cons_append, unsigned, hbyte, if_neg (by omega), if_pos hgo,
        ih (n / 128) (by omega) hless]
      show some (128 * (n / 128) + (n % 128 + 128 - 128), rest) = some (n, rest)
      rw [show 128 * (n / 128) + (n % 128 + 128 - 128) = n by omega]

lemma reads_signed {n : Int} (h : w.HoldsSigned n) : Reads (signed w) (sleb n) n := by
  intro rest
  show signed w (sleb n ++ rest) = _
  induction hk : n.natAbs using Nat.strong_induction_on generalizing w n with
  | _ k ih =>
    rw [sleb]
    split
    · next hn =>
      have hbyte : (UInt8.ofNat (n % 128).toNat).toNat = (n % 128).toNat := by
        rw [UInt8.toNat_ofNat']
        omega
      have hlast : (if (n % 128).toNat < 64 then ((n % 128).toNat : Int)
          else (n % 128).toNat - 128) = n := by
        split <;> omega
      rw [List.singleton_append, signed, hbyte, if_pos (by omega)]
      simp only [hlast]
      rw [if_pos h]
    · next hn =>
      obtain ⟨hgo, hless⟩ := h.less hn
      have hbyte : (UInt8.ofNat ((n % 128).toNat + 128)).toNat = (n % 128).toNat + 128 := by
        rw [UInt8.toNat_ofNat']
        omega
      rw [List.cons_append, signed, hbyte, if_neg (by omega), if_pos hgo,
        ih (n / 128).natAbs (by omega) hless rfl]
      show some (128 * (n / 128) + (((n % 128).toNat + 128 : Nat) - 128 : Int), rest) = some (n, rest)
      rw [show 128 * (n / 128) + (((n % 128).toNat + 128 : Nat) - 128 : Int) = n by omega]

lemma reads_fixed : ∀ (n : Nat) {v : Nat}, v < 256 ^ n → Reads (fixed n) (littleEndian n v) v
  | 0, v, h => by
    obtain rfl : v = 0 := by simpa using h
    exact .pure 0
  | n + 1, v, h => by
    have hdiv : v / 256 < 256 ^ n := by
      rw [pow_succ] at h
      exact Nat.div_lt_of_lt_mul (by rwa [mul_comm] at h)
    have hbyte : (UInt8.ofNat (v % 256)).toNat = v % 256 := by
      rw [UInt8.toNat_ofNat']
      omega
    have hread : Reads (fixed (n + 1)) (littleEndian (n + 1) v)
        ((UInt8.ofNat (v % 256)).toNat + 256 * (v / 256)) :=
      reads_byte_bind (reads_fixed n hdiv).map
    rwa [hbyte, Nat.mod_add_div] at hread

/-! ### Sequences -/

lemma uleb_pos (n : Nat) : 0 < (uleb n).length := by
  rw [uleb]
  split <;> simp

section

variable {item : α → List UInt8} {r : Reader α}

lemma reads_items {xs : List α} (h : ∀ x ∈ xs, Reads r (item x) x) :
    Reads (items r xs.length) (xs.flatMap item) xs := by
  induction xs with
  | nil => exact .pure []
  | cons x xs ih =>
    obtain ⟨hx, hxs⟩ := List.forall_mem_cons.mp h
    rw [List.length_cons, items, List.flatMap_cons]
    exact hx.bind (ih hxs).map

lemma length_item_le {xs : List α} {x : α} (h : x ∈ xs) :
    (item x).length ≤ (vector item xs).length := by
  have hsub : (item x).Sublist (xs.map item).flatten :=
    List.sublist_flatten_of_mem (List.mem_map_of_mem h)
  rw [vector, List.length_append]
  exact hsub.length_le.trans (Nat.le_add_left _ _)

/-- A sequence takes no less bytes than it has items. -/
lemma length_le_vector {xs : List α} (hpos : ∀ x ∈ xs, 0 < (item x).length) :
    xs.length ≤ (vector item xs).length := by
  rw [vector, List.length_append]
  refine Nat.le_trans ?_ (Nat.le_add_left _ _)
  induction xs with
  | nil => exact Nat.zero_le _
  | cons x xs ih =>
    obtain ⟨hx, hxs⟩ := List.forall_mem_cons.mp hpos
    have hrest := ih hxs
    rw [List.flatMap_cons, List.length_append, List.length_cons]
    omega

/-- A sequence is read by the reader of its items, which may count on room for each of them. -/
lemma reads_counted {xs : List α} (hroom : w.Holds (vector item xs).length)
    (hpos : ∀ x ∈ xs, 0 < (item x).length)
    (h : ∀ x ∈ xs, w.Holds (item x).length → Reads r (item x) x) :
    Reads (counted w r) (vector item xs) xs := by
  have hlength : w.Holds xs.length := hroom.mono (length_le_vector hpos)
  rw [counted, vector]
  exact (reads_unsigned hlength).bind
    (reads_items fun x hx => h x hx (hroom.mono (length_item_le hx)))

end

lemma Limit.Holds.of_sized {cs : List UInt8} (h : w.Holds (sized cs).length) :
    w.Holds cs.length := by
  refine h.mono ?_
  rw [sized, List.length_append]
  exact Nat.le_add_left _ _

/-- Bytes are cut out by their number. -/
lemma reads_boxed_of_whole {r : Reader α} {cs : List UInt8} {a : α}
    (hroom : w.Holds (sized cs).length) (h : whole r cs = some a) :
    Reads (boxed w r) (sized cs) a := by
  have htake : Reads (take cs.length) cs cs := by
    intro rest
    show (if cs.length ≤ (cs ++ rest).length then _ else _) = _
    rw [if_pos (by simp), List.take_left, List.drop_left]
  have hlast : Reads (liftM (whole r cs) : Reader α) [] a := by
    intro rest
    rw [h]
    rfl
  have hrest := htake.bind (f := fun cs => liftM (whole r cs)) hlast
  rw [List.append_nil] at hrest
  rw [boxed, sized]
  exact (reads_unsigned hroom.of_sized).bind hrest

lemma reads_boxed {r : Reader α} {cs : List UInt8} {a : α} (hroom : w.Holds (sized cs).length)
    (h : w.Holds cs.length → Reads r cs a) : Reads (boxed w r) (sized cs) a :=
  reads_boxed_of_whole hroom (h hroom.of_sized).whole

lemma reads_boxed_rest {cs : List UInt8} (hroom : w.Holds (sized cs).length) :
    Reads (boxed w rest) (sized cs) cs :=
  reads_boxed_of_whole hroom rfl

/-! ### Texts -/

lemma toList_loop (b : ByteArray) (i : Nat) (r : List UInt8) :
    ByteArray.toList.loop b i r = r.reverse ++ b.data.toList.drop i := by
  induction hk : b.size - i generalizing i r with
  | zero =>
    rw [ByteArray.toList.loop, if_neg (by omega), List.drop_of_length_le, List.append_nil]
    rw [Array.length_toList]
    exact Nat.sub_eq_zero_iff_le.mp hk
  | succ k ih =>
    have hi : i < b.size := by omega
    rw [ByteArray.toList.loop, if_pos hi, ih _ _ (by omega), List.reverse_cons, List.append_assoc]
    congr 1
    have hlt : i < b.data.toList.length := hi
    rw [List.drop_eq_getElem_cons hlt, List.singleton_append]
    congr 1
    show b.data[i]! = _
    rw [getElem!_pos b.data i hi, Array.getElem_toList]

lemma toByteArray_toList (b : ByteArray) : b.toList.toByteArray = b := by
  have hlist : b.toList = b.data.toList := by
    rw [ByteArray.toList, toList_loop]
    rfl
  ext1
  rw [hlist, List.data_toByteArray, Array.toArray_toList]

lemma fromUTF8?_toUTF8 (s : String) : String.fromUTF8? s.toUTF8.toList.toByteArray = some s := by
  rw [String.toUTF8_eq_toByteArray, toByteArray_toList, String.fromUTF8?, dif_pos s.isValidUTF8]
  rfl

lemma reads_text {s : String} (hroom : w.Holds (nameBytes s).length) :
    Reads (text w) (nameBytes s) s := by
  have hlast : Reads (liftM (String.fromUTF8? s.toUTF8.toList.toByteArray) : Reader String) [] s := by
    intro rest
    rw [fromUTF8?_toUTF8]
    rfl
  have hread := (reads_boxed_rest hroom).bind
    (f := fun cs => liftM (String.fromUTF8? cs.toByteArray)) hlast
  rwa [List.append_nil] at hread

end AnnotatedWasm.Wasm
