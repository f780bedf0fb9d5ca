import AnnotatedWasm.Token
import Mathlib.Data.List.Basic

/-!
Brackets that are nested.

`Nested` says it of a list of tokens by the shape of the list. A reader goes from left to right
instead and has the brackets that are still open on a stack: `Carries σ ts τ` says that the tokens
lead from the stack `σ` to `τ`. Tokens that lead from the empty stack to the empty stack are nested.
-/

namespace AnnotatedWasm

/-- The bracket that closes an opening one. -/
def Punct.closing? : Punct → Option Punct
  | lParen => some rParen
  | lBracket => some rBracket
  | lBrace => some rBrace
  | _ => none

namespace Token

def isBracket : Token → Bool
  | punct p => p.isOpening || p.isClosing
  | _ => false

/-- Neither a bracket nor an error. -/
def isPlain (t : Token) : Bool := !t.isBracket && t ≠ error

/-- The tokens that are not plain. -/
def rough : List Token :=
  [error, punct .lParen, punct .rParen, punct .lBracket, punct .rBracket, punct .lBrace,
    punct .rBrace]

lemma mem_rough {t : Token} (h : t.isPlain = false) : t ∈ rough := by
  cases t with
  | error => decide
  | punct p =>
    revert h
    cases p <;> decide
  | _ => cases h

/-- What only some plain tokens have a value for. -/
lemma isPlain_of_some {α : Type} {f : Token → Option α} (hf : ∀ t ∈ rough, f t = none) {t : Token}
    {a : α} (h : f t = some a) : t.isPlain = true := by
  cases hplain : t.isPlain with
  | true => rfl
  | false =>
    rw [hf t (mem_rough hplain)] at h
    cases h

end Token

/-- Every bracket that opens is closed by one of its kind, and what stands between is nested. -/
inductive Nested : List Token → Prop
  | nil : Nested []
  | other {t ts} : t.isBracket = false → Nested ts → Nested (t :: ts)
  | pair {p q ts us} : p.closing? = some q → Nested ts → Nested us →
      Nested (.punct p :: (ts ++ .punct q :: us))

/-- What one token does to the brackets that are open, the innermost first. No error does
anything. -/
inductive Moves : List Punct → Token → List Punct → Prop
  | plain {σ t} : t.isPlain = true → Moves σ t σ
  | opens {σ p q} : p.closing? = some q → Moves σ (.punct p) (p :: σ)
  | closes {σ p q} : p.closing? = some q → Moves (p :: σ) (.punct q) σ

inductive Carries : List Punct → List Token → List Punct → Prop
  | nil {σ} : Carries σ [] σ
  | cons {σ t τ ts υ} : Moves σ t τ → Carries τ ts υ → Carries σ (t :: ts) υ

variable {σ τ υ : List Punct} {t : Token} {ts us : List Token}

lemma Moves.ne_error (h : Moves σ t τ) : t ≠ .error := by
  cases h with
  | plain h =>
    rintro rfl
    cases h
  | opens _ => nofun
  | closes _ => nofun

namespace Carries

lemma append (h : Carries σ ts τ) (h' : Carries τ us υ) : Carries σ (ts ++ us) υ := by
  induction h with
  | nil => exact h'
  | cons hmove _ ih => exact .cons hmove (ih h')

lemma ne_error (h : Carries σ ts τ) : ∀ t ∈ ts, t ≠ .error := by
  induction h with
  | nil => nofun
  | cons hmove _ ih => exact List.forall_mem_cons.mpr ⟨hmove.ne_error, ih⟩

/-- Tokens that close the open brackets one after the other, and are nested between. -/
def Unwinds : List Punct → List Token → Prop
  | [], ts => Nested ts
  | p :: σ, ts => ∃ us q vs, ts = us ++ .punct q :: vs ∧ p.closing? = some q ∧ Nested us ∧
      Unwinds σ vs

lemma Unwinds.append_left (hnested : ∀ vs, Nested vs → Nested (us ++ vs)) (h : Unwinds σ ts) :
    Unwinds σ (us ++ ts) := by
  cases σ with
  | nil => exact hnested ts h
  | cons p σ =>
    obtain ⟨vs, q, ws, rfl, hclosing, hvs, hws⟩ := h
    exact ⟨us ++ vs, q, ws, by simp, hclosing, hnested vs hvs, hws⟩

lemma unwinds (h : Carries σ ts τ) (hτ : τ = []) : Unwinds σ ts := by
  induction h with
  | nil =>
    subst hτ
    exact .nil
  | @cons _ t _ _ _ hmove _ ih =>
    have hrest := ih hτ
    cases hmove with
    | plain hplain =>
      have hbracket : t.isBracket = false := by
        simp only [Token.isPlain, Bool.and_eq_true, Bool.not_eq_true'] at hplain
        exact hplain.1
      have hother (ws : List Token) (hws : Nested ws) : Nested ([t] ++ ws) := .other hbracket hws
      exact hrest.append_left hother
    | @opens _ p _ _ =>
      obtain ⟨us, q, vs, rfl, hclosing, hus, hvs⟩ := hrest
      have hpair (ws : List Token) (hws : Nested ws) :
          Nested (.punct p :: (us ++ [.punct q]) ++ ws) := by
        simpa using Nested.pair hclosing hus hws
      simpa using hvs.append_left hpair
    | @closes _ p q hclosing => exact ⟨[], q, _, rfl, hclosing, .nil, hrest⟩

lemma nested (h : Carries [] ts []) : Nested ts := h.unwinds rfl

end Carries

end AnnotatedWasm
