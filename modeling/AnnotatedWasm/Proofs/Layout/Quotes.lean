import AnnotatedWasm.Proofs.Layout.Tiling

/-!
String literals can be unquoted.

The scan closes a literal only by the quotes that opened it, and a literal on one line never starts
with three equal quotes. So the delimiter that is read off the text of a string token both opens and
closes it, and what stands between is cut out at character boundaries, wherever the token starts.
-/

namespace AnnotatedWasm

/-- The characters that open and close literals. -/
def quoteChars : List Char := ['\x27', '\x22']

namespace Scan

variable {q : Char} {cs : List Char} {n k : Nat}

lemma Ending.add_eq_closed {e : Ending} (h : e.add k = .closed n) :
    ∃ m, e = .closed m ∧ n = k + m := by
  cases e with
  | closed m => cases h; exact ⟨m, rfl, rfl⟩
  | broken m => cases h

/-- A literal on one line goes up to the next quote, and is empty if that comes first. -/
lemma lineString_closed (hq : q ≠ '\\') (h : lineString q cs = .closed n) :
    ∃ inner rest, cs = inner ++ q :: rest ∧ n = inner.length + 1 ∧ inner.head? ≠ some q := by
  fun_induction lineString q cs generalizing n with
  | case1 | case2 | case3 | case6 => cases h
  | case4 c cs hc ih =>
    obtain ⟨m, hm, rfl⟩ := Ending.add_eq_closed h
    obtain ⟨inner, rest, rfl, rfl, -⟩ := ih hm
    exact ⟨'\\' :: c :: inner, rest, rfl, by simp; omega, by simpa using hq.symm⟩
  | case5 cs => cases h; exact ⟨[], cs, rfl, rfl, by simp⟩
  | case7 c cs _ _ hc hn ih =>
    obtain ⟨m, hm, rfl⟩ := Ending.add_eq_closed h
    obtain ⟨inner, rest, rfl, rfl, -⟩ := ih hm
    exact ⟨c :: inner, rest, rfl, by simp; omega, by simpa using hc⟩

/-- A literal in triple quotes goes up to three quotes. -/
lemma blockString_closed (h : blockString q cs = .closed n) :
    ∃ inner rest, cs = inner ++ q :: q :: q :: rest ∧ n = inner.length + 3 := by
  fun_induction blockString q cs generalizing n with
  | case1 | case3 | case5 => cases h
  | case2 c cs hc ih =>
    obtain ⟨m, hm, rfl⟩ := Ending.add_eq_closed h
    obtain ⟨inner, rest, rfl, rfl⟩ := ih hm
    exact ⟨c :: inner, rest, rfl, by simp; omega⟩
  | case4 c hc d ds hd ih =>
    obtain ⟨m, hm, rfl⟩ := Ending.add_eq_closed h
    obtain ⟨inner, rest, rfl, rfl⟩ := ih hm
    exact ⟨c :: d :: inner, rest, rfl, by simp; omega⟩
  | case6 c hc d hd e es he ih =>
    obtain ⟨m, hm, rfl⟩ := Ending.add_eq_closed h
    obtain ⟨inner, rest, rfl, rfl⟩ := ih hm
    exact ⟨c :: d :: e :: inner, rest, rfl, by simp; omega⟩
  | case7 c hc d hd e es he =>
    cases h
    simp only [ne_eq, not_not] at hc hd he
    exact ⟨[], es, by rw [hc, hd, he]; rfl, rfl⟩

/-- The delimiter that is read off a text stands at both its ends, around `inner`. -/
def Delimited (text : List Char) (q : Char) (inner : List Char) : Prop :=
  text = List.replicate (Text.quoteLength text) q ++ inner ++
    List.replicate (Text.quoteLength text) q

lemma quoteLength_triple (hq : q ∈ quoteChars) (cs : List Char) :
    Text.quoteLength (q :: q :: q :: cs) = 3 := by
  rcases List.mem_pair.mp hq with rfl | rfl <;> rfl

lemma quoteLength_single (h : ¬[q, q] <+: cs) : Text.quoteLength (q :: cs) = 1 := by
  unfold Text.quoteLength
  split <;> simp_all

lemma delimited_triple (hq : q ∈ quoteChars) (inner : List Char) :
    Delimited (q :: q :: q :: (inner ++ [q, q, q])) q inner := by
  rw [Delimited, quoteLength_triple hq]
  rfl

lemma delimited_single {inner : List Char} (h : inner.head? ≠ some q) :
    Delimited (q :: (inner ++ [q])) q inner := by
  have hlength : Text.quoteLength (q :: (inner ++ [q])) = 1 := by
    refine quoteLength_single fun hprefix => h ?_
    cases inner with
    | nil => simp at hprefix
    | cons c inner => simp_all
  rw [Delimited, hlength]
  rfl

/-- A closed literal stands between quotes of the kind that opens it. -/
lemma stringEnding_closed (hq : q ∈ quoteChars) (h : stringEnding q cs = .closed n) :
    ∃ inner, Delimited (q :: cs.take n) q inner := by
  have hline (h : lineString q cs = .closed n) : ∃ inner, Delimited (q :: cs.take n) q inner := by
    have hne : q ≠ '\\' := by rintro rfl; revert hq; decide
    obtain ⟨inner, rest, rfl, rfl, hinner⟩ := lineString_closed hne h
    refine ⟨inner, ?_⟩
    rw [List.append_cons, List.take_left' (by simp)]
    exact delimited_single hinner
  unfold stringEnding at h
  split at h
  · next c d cs =>
    split at h
    · next hcd =>
      obtain ⟨hc, hd⟩ : c = q ∧ d = q := by simpa using hcd
      subst c d
      obtain ⟨m, hm, rfl⟩ := Ending.add_eq_closed h
      obtain ⟨inner, rest, rfl, rfl⟩ := blockString_closed hm
      refine ⟨inner, ?_⟩
      have htake : (q :: q :: (inner ++ q :: q :: q :: rest)).take (2 + (inner.length + 3)) =
          q :: q :: (inner ++ [q, q, q]) := by
        have hsplit : q :: q :: (inner ++ q :: q :: q :: rest) =
            q :: q :: (inner ++ [q, q, q]) ++ rest := by simp
        rw [hsplit, List.take_left' (by simp; omega)]
      rw [htake]
      exact delimited_triple hq inner
    · exact hline h
  · exact hline h

lemma measure_eq_string {c : Char} (h : measure c cs = (.string, n)) :
    c ∈ quoteChars ∧ stringEnding c cs = .closed n := by
  have hmarked (ds : List Char) : marked c ds ≠ (.string, n) := by
    unfold marked
    split <;> simp
  unfold measure at h
  split at h
  · cases h
  split at h
  · cases h
  split at h
  · cases h
  split at h
  case h_6 => split at h; cases h; exact absurd h (hmarked _)
  case h_7 | h_8 =>
    refine ⟨by decide, ?_⟩
    split at h
    · next hends => rw [hends, (Prod.mk.inj h).2]
    · cases h
  case h_9 => exact absurd h (hmarked _)
  all_goals cases h

lemma token?_eq_string {piece : Piece} {s text : String}
    (h : piece.token? s = some (.string text)) : piece = .string ∧ s = text := by
  cases piece
  case string => cases h; exact ⟨rfl, rfl⟩
  case word => rw [Piece.token?] at h; split at h <;> cases h
  all_goals cases h

/-- Every string token has the text under its span, which stands between quotes. -/
lemma scanFrom_delimited (source : String) (offset indent : Nat) (cs : List Char) : ∀ before,
    source.toList = before ++ cs → byteLength before = offset →
      ∀ l ∈ scanFrom offset indent cs, ∀ text, l.token = .string text →
        l.span.textIn source = text ∧
          ∃ q ∈ quoteChars, ∃ inner, Delimited text.toList q inner := by
  fun_induction scanFrom offset indent cs with
  | case1 => exact fun _ _ _ => List.forall_mem_nil _
  | case2 offset indent c cs found text rest stop later token htoken ih =>
    rintro before hsource rfl
    have hpiece : source.toList = before ++ text ++ rest := split_piece found.2 hsource
    refine List.forall_mem_cons.mpr ⟨?_, ih _ hpiece (byteLength_append before text)⟩
    rintro literal rfl
    obtain ⟨hfound, rfl⟩ := token?_eq_string htoken
    obtain ⟨hq, hclosed⟩ := measure_eq_string (Prod.ext hfound rfl)
    refine ⟨textIn_of_append hpiece, c, hq, ?_⟩
    rw [String.toList_ofList]
    exact stringEnding_closed hq hclosed
  | case3 offset indent c cs found text rest stop later htoken ih =>
    rintro before hsource rfl
    exact ih _ (split_piece found.2 hsource) (byteLength_append before text)

end Scan

/-- The delimiter of `k` quotes `q` opens and closes the text, and cutting it off leaves `inner`. -/
structure Strips (text : String) (k : Nat) (q : Char) (inner : List Char) : Prop where
  quote : q ∈ quoteChars
  length : k = 1 ∨ k = 3
  triple : k = 3 ↔ ∃ r ∈ quoteChars, [r, r, r] <+: text.toList
  delimited : text.toList = List.replicate k q ++ inner ++ List.replicate k q
  long : 2 * k ≤ text.utf8ByteSize
  start : Boundary text k
  stop : Boundary text (text.utf8ByteSize - k)
  cut : Span.textIn text ⟨k, text.utf8ByteSize - k⟩ = String.ofList inner
  value : Text.unquote text = String.ofList (Text.unescape inner)

lemma quoteLength_cases (cs : List Char) :
    (Text.quoteLength cs = 1 ∨ Text.quoteLength cs = 3) ∧
      (Text.quoteLength cs = 3 ↔ ∃ r ∈ quoteChars, [r, r, r] <+: cs) := by
  unfold Text.quoteLength
  split
  · simp [quoteChars]
  · simp [quoteChars]
  · next hdouble hsingle =>
    refine ⟨.inl rfl, by simp, ?_⟩
    rintro ⟨r, hr, rest, rfl⟩
    rcases List.mem_pair.mp hr with rfl | rfl
    · exact (hsingle rest rfl).elim
    · exact (hdouble rest rfl).elim

lemma strips_of_delimited {text : String} {q : Char} {inner : List Char} (hq : q ∈ quoteChars)
    (h : Scan.Delimited text.toList q inner) :
    Strips text (Text.quoteLength text.toList) q inner := by
  obtain ⟨hlength, htriple⟩ := quoteLength_cases text.toList
  generalize hk : Text.quoteLength text.toList = k at hlength htriple
  rw [Scan.Delimited, hk] at h
  have hbytes : byteLength (List.replicate k q) = k := by
    rcases hlength with rfl | rfl <;> rcases List.mem_pair.mp hq with rfl | rfl <;> rfl
  have hsize : text.utf8ByteSize = k + byteLength inner + k := by
    rw [← Layout.byteLength_toList, h, byteLength_append, byteLength_append, hbytes]
  have hstop : text.utf8ByteSize - k = k + byteLength inner := by omega
  have hcut := textIn_of_append h
  have hstart := boundary_of_append ((List.append_assoc ..).symm.trans h.symm).symm
  have hend := boundary_of_append h
  rw [byteLength_append, hbytes] at hend
  rw [hbytes] at hcut hstart
  refine ⟨hq, hlength, htriple, h, by omega, hstart, hstop ▸ hend, hstop ▸ hcut, ?_⟩
  have hinner : Text.inner text.toList = inner := by
    have hlen : text.toList.length - 2 * k = inner.length := by
      rw [h]
      simp
      omega
    rw [Text.inner, hk, hlen, h, List.append_assoc, List.drop_left' List.length_replicate,
      List.take_left]
  rw [Text.unquote, hinner]

/-- **Every string token can be unquoted**, whatever stands before it. -/
theorem lexemes_unquotable {source text : String} {l : Lexeme} (hl : l ∈ Layout.lexemes source)
    (htext : l.token = .string text) : l.span.textIn source = text ∧
      ∃ q inner, Strips text (Text.quoteLength text.toList) q inner := by
  rcases Layout.mem_run hl with h | h | h
  · cases h
  · obtain ⟨placed, hplaced, rfl⟩ := List.mem_map.mp h
    obtain ⟨hspan, q, hq, inner, hinner⟩ := Scan.scanFrom_delimited source 0 _ source.toList [] rfl
      rfl placed hplaced text htext
    exact ⟨hspan, q, inner, strips_of_delimited hq hinner⟩
  · simp [Layout.addedTokens, htext] at h

/-- A literal in triple quotes that does not end; the two quotes left over are one that does. -/
def leftoverText : String := "'''é''"

theorem lexemes_unquotable_leftover : ⟨.string "''", ⟨5, 7⟩⟩ ∈ Layout.lexemes leftoverText ∧
    Span.textIn leftoverText ⟨5, 7⟩ = "''" ∧ ∃ q inner, Strips "''" 1 q inner ∧ inner = [] := by
  have hmem : ⟨.string "''", ⟨5, 7⟩⟩ ∈ Layout.lexemes leftoverText := by decide +kernel
  obtain ⟨htext, q, inner, h⟩ := lexemes_unquotable hmem rfl
  refine ⟨hmem, htext, q, inner, h, ?_⟩
  have hlength := congrArg List.length h.delimited
  simpa [Text.quoteLength] using hlength

end AnnotatedWasm
