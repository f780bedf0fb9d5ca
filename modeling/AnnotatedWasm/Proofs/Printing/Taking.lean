import Mathlib
import AnnotatedWasm.Proofs.Printing.Printer

/-!
What a parser takes off the front of its stream.

`Takes p ts F a` says that `p` gives `a` on every stream that starts with the tokens `ts` and goes
on with a token allowed by `F`: it takes just these tokens. What comes next matters, since most
parsers go on as long as they can. The streams here have no places, so `a` has no spans. Each
construct of the grammar has a rule, so that a parser is followed step by step.
-/

namespace AnnotatedWasm.Grammar

open Syntax

/-- The next token of a stream. -/
def next : List Lexeme → Token
  | [] => .eof
  | l :: _ => l.token

/-- A stream of tokens without places. -/
def bare (ts : List Token) : State := ⟨ts.map (⟨·, nowhere⟩), nowhere⟩

theorem headD_append {ts : List Token} {t : Token} (h : ts.head? = some t) (us : List Token)
    (u : Token) : (ts ++ us).headD u = t := by
  cases ts with
  | nil => cases h
  | cons v ts => exact Option.some.inj h

theorem headD_headD (ts us : List Token) (t : Token) :
    (ts ++ us).headD t = ts.headD (us.headD t) := by
  cases ts <;> rfl

variable {α β : Type} {ts us : List Token} {F G : Token → Prop} {a : α} {b : β}

def Takes (p : Parser α) (ts : List Token) (F : Token → Prop) (a : α) : Prop :=
  ∀ rest : List Token, F (rest.headD .eof) → p (bare (ts ++ rest)) = .ok (a, bare rest)

namespace Takes

/-- Fewer tokens may follow. -/
theorem before {p : Parser α} (h : Takes p ts G a) (hG : ∀ t, F t → G t) : Takes p ts F a :=
  fun rest hF => h rest (hG _ hF)

theorem pure : Takes (pure b) [] F b := fun _ _ => rfl

/-- One parser after another. The second starts with the token that the first must stop at. -/
theorem bind {p : Parser α} {f : α → Parser β} (hp : Takes p ts G a)
    (hG : ∀ t, F t → G (us.headD t)) (hf : Takes (f a) us F b) :
    Takes (p >>= f) (ts ++ us) F b := by
  intro rest hF
  have hrun := hp (us ++ rest) (by rw [headD_headD]; exact hG _ hF)
  rw [List.append_assoc]
  simp only [Bind.bind, StateT.bind, hrun, Except.bind]
  exact hf rest hF

/-- One parser after another, with a known token where the second starts. -/
theorem bind_cons {t : Token} {p : Parser α} {f : α → Parser β} (hp : Takes p ts G a) (hG : G t)
    (hf : Takes (f a) (t :: us) F b) : Takes (p >>= f) (ts ++ t :: us) F b :=
  hp.bind (fun _ _ => hG) hf

/-- A parser that takes nothing. -/
theorem bind_nil {p : Parser α} {f : α → Parser β} (hp : Takes p [] G a)
    (hG : ∀ t, F t → G (us.headD t)) (hf : Takes (f a) us F b) : Takes (p >>= f) us F b :=
  hp.bind hG hf

/-- The last parser of a sequence that takes anything. -/
theorem bind_last {p : Parser α} {f : α → Parser β} (hp : Takes p ts F a)
    (hf : Takes (f a) [] F b) : Takes (p >>= f) ts F b := by
  have h : Takes (p >>= f) (ts ++ []) F b := hp.bind (fun _ h => h) hf
  rwa [List.append_nil] at h

/-! ### Steps -/

theorem peekSpan {f : Span → Parser β} (h : Takes (f nowhere) ts F b) :
    Takes (peekSpan >>= f) ts F b := by
  intro rest hF
  have hrun (us : List Token) : (Grammar.peekSpan >>= f) (bare us) = f nowhere (bare us) := by
    cases us <;> rfl
  rw [hrun]
  exact h rest hF

theorem spanFrom {f : Span → Parser β} (h : Takes (f nowhere) ts F b) :
    Takes (spanFrom nowhere >>= f) ts F b := h

theorem peek_eq {f : Token → Parser β} (us : List Token) :
    (Grammar.peek >>= f) (bare us) = f (us.headD .eof) (bare us) := by
  cases us <;> rfl

/-- Looking at a token that is there. -/
theorem peek {t : Token} {f : Token → Parser β} (ht : ts.head? = some t)
    (h : Takes (f t) ts F b) : Takes (peek >>= f) ts F b := by
  intro rest hF
  rw [peek_eq, headD_append ht]
  exact h rest hF

/-- Looking at the token behind what is taken. -/
theorem peek_nil {f : Token → Parser β} (h : ∀ t, F t → Takes (f t) [] (· = t) b) :
    Takes (Grammar.peek >>= f) [] F b := fun rest hF =>
  (peek_eq rest).trans (h _ hF rest rfl)

theorem advance {t : Token} {f : Unit → Parser β} (h : Takes (f ()) ts F b) :
    Takes (advance >>= f) (t :: ts) F b := h

theorem eat {t : Token} {f : Bool → Parser β} (h : Takes (f true) ts F b) :
    Takes (eat t >>= f) (t :: ts) F b := by
  rw [Grammar.eat, bind_assoc]
  refine peek rfl ?_
  rw [if_pos rfl, bind_assoc]
  exact advance (by rwa [pure_bind])

theorem eat_not {t : Token} {f : Bool → Parser β} (ht : ∀ u, F u → ts.headD u ≠ t)
    (h : Takes (f false) ts F b) : Takes (Grammar.eat t >>= f) ts F b := by
  intro rest hF
  have hne : (ts ++ rest).headD .eof ≠ t := by
    rw [headD_headD]
    exact ht _ hF
  rw [Grammar.eat, bind_assoc, peek_eq, if_neg hne, pure_bind]
  exact h rest hF

theorem expect {t : Token} {f : Unit → Parser β} (h : Takes (f ()) ts F b) :
    Takes (expect t >>= f) (t :: ts) F b := by
  rw [Grammar.expect, bind_assoc]
  refine peek rfl ?_
  rw [if_pos rfl]
  exact advance h

theorem identifier {s : String} {f : String → Parser β} (h : Takes (f s) ts F b) :
    Takes (identifier >>= f) (.name s :: ts) F b := by
  rw [Grammar.identifier, bind_assoc]
  refine peek rfl ?_
  simp only [bind_assoc, pure_bind]
  exact advance h

/-- The part behind a mark that is there. -/
theorem after? {t : Token} {p : Parser α} (h : Takes p ts F a) :
    Takes (after? t p) (t :: ts) F (some a) := by
  rw [Grammar.after?]
  refine eat ?_
  rw [if_pos rfl]
  exact h.bind_last pure

/-- The part behind a mark that is not there. -/
theorem after?_none {t : Token} {p : Parser α} (ht : ∀ u, F u → u ≠ t) :
    Takes (Grammar.after? t p) [] F none := by
  rw [Grammar.after?]
  refine eat_not ht ?_
  rw [if_neg (by decide)]
  exact pure

end Takes

/-! ### Loops -/

/-- What the rounds of a loop take, started from `a`, however many more are allowed. -/
def Rounds (body : α → Parser (Step α)) (a : α) (ts : List Token) (F : Token → Prop)
    (b : α) : Prop :=
  ∀ n, ts.length < n → Takes (loopN body n a) ts F b

namespace Rounds

variable {body : α → Parser (Step α)} {b c : α}

theorem done (h : Takes (body a) ts F (.done b)) : Rounds body a ts F b := by
  rintro (_ | n) hn
  · cases hn
  · rw [loopN]
    exact h.bind_last .pure

theorem again (h : Takes (body a) ts G (.again c)) (hts : ts ≠ [])
    (hG : ∀ t, F t → G (us.headD t)) (hrest : Rounds body c us F b) :
    Rounds body a (ts ++ us) F b := by
  rintro (_ | n) hn
  · cases hn
  · have hlen : us.length < n := by
      have := List.length_pos_iff.2 hts
      rw [List.length_append] at hn
      omega
    rw [loopN]
    exact h.bind hG (hrest n hlen)

variable {γ : Type} {g : γ → List Token} {A : List γ → α} {xs : List γ}

/-- A loop that takes one part in each round and stops behind the last. The accumulator is `A` of
the parts taken. -/
theorem each (hF : ∀ t, F t → G t) (hg : ∀ x ∈ xs, ∃ t, (g x).head? = some t ∧ G t)
    (hround : ∀ ys, ∀ x ∈ xs, Takes (body (A ys)) (g x) G (.again (A (ys ++ [x]))))
    (hdone : Takes (body (A xs)) [] F (.done b)) : Rounds body (A []) (xs.flatMap g) F b := by
  suffices h : ∀ zs ys, xs = ys ++ zs → Rounds body (A ys) (zs.flatMap g) F b from h xs [] rfl
  intro zs
  induction zs with
  | nil =>
    intro ys hys
    rw [List.append_nil] at hys
    exact done (hys ▸ hdone)
  | cons x zs ih =>
    intro ys hys
    have hmem {y : γ} (hy : y ∈ x :: zs) : y ∈ xs := hys ▸ List.mem_append_right ys hy
    obtain ⟨t, ht, -⟩ := hg x (hmem (by simp))
    refine again (hround ys x (hmem (by simp))) (by rintro h; simp [h] at ht) ?_
      (ih (ys ++ [x]) (by simpa using hys))
    intro u hu
    cases zs with
    | nil => exact hF u hu
    | cons y zs =>
      obtain ⟨t, ht, hG⟩ := hg y (hmem (by simp))
      have hhead : ((y :: zs).flatMap g).headD u = t := headD_append ht _ u
      exact hhead ▸ hG

/-- A loop over parts with commas between them, that asks for another round at each comma. -/
theorem commas (hnil : xs = [] → Takes (body (A [])) [] F (.done (A [])))
    (hround : ∀ ys x zs, xs = ys ++ x :: zs →
      Takes (body (A ys)) (g x ++ [.punct .comma]) (fun _ => True) (.again (A (ys ++ [x]))))
    (hlast : ∀ ys x zs, xs = ys ++ x :: zs →
      Takes (body (A ys)) (g x) F (.done (A (ys ++ [x])))) :
    Rounds body (A []) ([.punct .comma].intercalate (xs.map g)) F (A xs) := by
  suffices h : ∀ zs ys, xs = ys ++ zs → zs ≠ [] →
      Rounds body (A ys) ([.punct .comma].intercalate (zs.map g)) F (A xs) by
    by_cases hxs : xs = []
    · subst hxs
      exact done (hnil rfl)
    · exact h xs [] rfl hxs
  intro zs
  induction zs with
  | nil => exact fun _ _ h => absurd rfl h
  | cons z zs ih =>
    intro ys hys _
    cases zs with
    | nil =>
      rw [List.map_singleton, List.intercalate_singleton, hys]
      exact done (hlast ys z [] hys)
    | cons y zs =>
      rw [List.map_cons, List.map_cons, List.intercalate_cons_cons]
      exact again (hround ys z _ hys) (by simp) (fun _ _ => trivial)
        (ih (ys ++ [z]) (by simpa using hys) (by simp))

end Rounds

theorem Takes.loop {body : α → Parser (Step α)} {b : α} (h : Rounds body a ts F b) :
    Takes (loop body a) ts F b := by
  intro rest hF
  refine h ((bare (ts ++ rest)).rest.length + 1) ?_ rest hF
  rw [bare, List.length_map, List.length_append]
  omega

/-! ### Lists -/

variable {γ : Type} {f : γ → List Token} {g : γ → α} {item : Parser α}

/-- Items divided by commas, up to the token that closes them. -/
theorem Takes.listUntil {close : Token} (hclose : close ≠ .punct .comma) {xs : List γ}
    (hitem : ∀ x ∈ xs, Takes item (f x) (fun t => t = .punct .comma ∨ t = close) (g x))
    (hf : ∀ x ∈ xs, ∃ t, (f x).head? = some t ∧ t ≠ close) :
    Takes (listUntil close item) ([.punct .comma].intercalate (xs.map f)) (· = close)
      (xs.map g) := by
  refine .loop (.commas (A := List.map g) (fun _ => ?_) ?_ ?_)
  · refine .peek_nil ?_
    rintro t rfl
    rw [if_pos rfl]
    exact .pure
  · intro ys x zs hxs
    have hx : x ∈ xs := by simp [hxs]
    obtain ⟨t, ht, hne⟩ := hf x hx
    refine .peek (t := t) (by simp [ht]) ?_
    rw [if_neg hne, List.map_append]
    refine (hitem x hx).bind (fun _ _ => .inl rfl) (.eat ?_)
    rw [if_pos rfl]
    exact .pure
  · intro ys x zs hxs
    have hx : x ∈ xs := by simp [hxs]
    obtain ⟨t, ht, hne⟩ := hf x hx
    refine .peek ht ?_
    rw [if_neg hne, List.map_append]
    refine ((hitem x hx).before fun _ h => .inr h).bind_last (.eat_not ?_ ?_)
    · rintro u rfl
      exact hclose
    · rw [if_neg (by decide)]
      exact .pure

/-- One or more items with a mark between each two. -/
theorem Takes.separated {mark : Token} {x : γ} {xs : List γ}
    (hitem : ∀ y ∈ x :: xs, Takes item (f y) (fun t => t = mark ∨ F t) (g y))
    (hmark : ∀ t, F t → t ≠ mark) :
    Takes (separated mark item) (f x ++ xs.flatMap fun y => mark :: f y) F
      ((x :: xs).map g) := by
  rw [Grammar.separated]
  refine (hitem x (by simp)).bind ?_ (.loop (.each (A := fun ys => (x :: ys).map g)
    (G := fun t => t = mark ∨ F t) (fun _ => .inr) (fun y _ => ⟨mark, rfl, .inl rfl⟩) ?_ ?_))
  · intro t ht
    cases xs with
    | nil => exact .inr ht
    | cons y xs => exact .inl rfl
  · intro ys y hy
    rw [← List.cons_append, List.map_append]
    refine .eat ?_
    rw [if_pos rfl]
    exact (hitem y (by simp [hy])).bind_last .pure
  · refine .eat_not hmark ?_
    rw [if_neg (by decide)]
    exact .pure

end AnnotatedWasm.Grammar
