import AnnotatedWasm.Proofs.Parsing.Nesting
import AnnotatedWasm.Proofs.Spans.Placement

/-!
What a parser takes from its stream, what it does with brackets, where it places the nodes it
builds, and where it fails.

`Parses E n fresh T σ A p τ M P` is about a parser `p` that starts before a token allowed by `T`.
Where it succeeds, it has taken tokens from the front of the stream, never `eof`, and at least one
if its value is as `M` says. Where it fails, it has stalled only if the stream was too long for it. It
is also about how the parser is put together: a loop in it takes a token in each round that asks for
another.

Where the setting knows more of the streams, namely that they are those of a source and start by a
bound as far as the first error token, the tokens taken lead from the open brackets `σ` to `τ`, the
parser goes from a state with `A` to one with `P`, and the span of an error starts by the bound. Two
assertions are used there. A parser is `At` a place before it takes its first lexeme, which starts
the node to be built; once that lexeme is taken, `Held` lists the nodes that were read since, each
one after the other. There the parser can go on in whatever way, and when it closes a node around
what it has read, the span runs from the first lexeme to the one taken last.

A parser that has taken a token may call the grammar that is unrolled once less. So the tokens that
are allowed for are `n`, and one more as long as none has been taken.
-/

namespace AnnotatedWasm

/-- Whether a token has a text of its own in the source, as marks and the end have not. -/
def Token.stands : Token → Bool
  | indent | dedent | error | eof => false
  | _ => true

namespace Grammar

open Syntax

variable {n k j : Nat} {fresh : Bool} {T : Token → Prop} {σ τ υ : List Punct} {α β : Type}
  {M : α → Prop} {O : β → Prop} {P : α → State → Prop} {Q : β → State → Prop}
  {A B : State → Prop} {s s₁ s' : State} {taken taken' : List Lexeme}

namespace State

/-- The span that the next node starts with. -/
def here (s : State) : Span :=
  match s.rest with
  | l :: _ => l.span
  | [] => s.last

def advanced (s : State) : State :=
  match s.rest with
  | l :: rest => ⟨rest, l.span⟩
  | [] => s

end State

lemma bind_eq_ok {p : Parser α} {f : α → Parser β} {b : β} :
    (p >>= f) s = .ok (b, s') ↔ ∃ a s₁, p s = .ok (a, s₁) ∧ f a s₁ = .ok (b, s') := by
  cases hp : p s with
  | error e => simp [Bind.bind, StateT.bind, hp, Except.bind]
  | ok out =>
    obtain ⟨a, s₁⟩ := out
    simp [Bind.bind, StateT.bind, hp, Except.bind]

lemma bind_of_ok {p : Parser α} {f : α → Parser β} {a : α} (h : p s = .ok (a, s₁)) :
    (p >>= f) s = f a s₁ := by
  simp only [Bind.bind, StateT.bind, h, Except.bind]

lemma peek_eq_ok (s : State) : peek s = .ok (next s.rest, s) := by
  obtain ⟨rest, last⟩ := s
  cases rest <;> rfl

lemma peekSpan_eq_ok (s : State) : peekSpan s = .ok (s.here, s) := by
  obtain ⟨rest, last⟩ := s
  cases rest <;> rfl

lemma loop_eq (body : α → Parser (Step α)) (a : α) (s : State) :
    loop body a s = loopN body (s.rest.length + 1) a s := rfl

def Step.value : Step α → α
  | again a | done a => a

/-! ### Tokens that are taken -/

/-- From `s` to `s'` the lexemes `taken` have been taken, and the end of the stream is not among
them. -/
def Took (s s' : State) (taken : List Lexeme) : Prop :=
  s.rest = taken ++ s'.rest ∧ ∀ l ∈ taken, l.token ≠ .eof

namespace Took

lemma refl (s : State) : Took s s [] := ⟨rfl, nofun⟩

lemma append (h : Took s s₁ taken) (h' : Took s₁ s' taken') : Took s s' (taken ++ taken') :=
  ⟨by rw [h.1, h'.1, List.append_assoc], List.forall_mem_append.mpr ⟨h.2, h'.2⟩⟩

lemma length_le (h : Took s s' taken) : s'.rest.length ≤ s.rest.length := by
  rw [h.1, List.length_append]
  exact Nat.le_add_left ..

lemma length_lt (h : Took s s' taken) (hne : taken ≠ []) : s'.rest.length < s.rest.length := by
  have hpos := List.length_pos_of_ne_nil hne
  rw [h.1, List.length_append]
  omega

end Took

/-! ### When a token is certain to be taken -/

def Always (_ : α) : Prop := True

def Never (_ : α) : Prop := False

/-- Whether another round is asked for. -/
def Asks : Step α → Prop
  | .again _ => True
  | .done _ => False

/-- A parser made of single steps, of calls to `r` and `stmt`, and of loops that take a token in
each round that asks for another. -/
inductive Productive (r : Inner) (stmt : Parser Stmt) : {α : Type} → Parser α → Prop
  | pure {α : Type} (a : α) : Productive r stmt (pure a)
  | throw {α : Type} {e : ParseError} (h : e.fault ≠ .stalled) :
      Productive r stmt (throw e : Parser α)
  | peek : Productive r stmt peek
  | peekSpan : Productive r stmt peekSpan
  | advance : Productive r stmt advance
  | spanFrom (start : Span) : Productive r stmt (spanFrom start)
  | expr : Productive r stmt r.expr
  | orTest : Productive r stmt r.orTest
  | notTest : Productive r stmt r.notTest
  | factor : Productive r stmt r.factor
  | stmt : Productive r stmt stmt
  | bind {α β : Type} {p : Parser α} {f : α → Parser β} (hp : Productive r stmt p)
      (hf : ∀ a, Productive r stmt (f a)) : Productive r stmt (p >>= f)
  | loop {α : Type} {body : α → Parser (Step α)} (a : α) (hbody : ∀ a, Productive r stmt (body a))
      (htakes : ∀ a s b s', body a s = .ok (.again b, s') → ∃ taken, Took s s' taken ∧ taken ≠ []) :
      Productive r stmt (loop body a)

/-! ### Settings -/

/-- Whether the streams are known to be those of a source, and where their lexemes start by. -/
structure Knowledge where
  known : Prop
  bound : Nat
  source : String

/-- With the parsers that may be called for the parts of a node. -/
structure Setting extends Knowledge where
  parts : Inner
  stmt : Parser Stmt

variable {K : Knowledge} {E : Setting} {lo : Nat} {start : Span} {ns ms : List Node} {t : Token}

/-- A token that may be taken where the brackets `σ` are open, and leaves `τ` open. -/
structure Shifts (K : Knowledge) (σ : List Punct) (t : Token) (τ : List Punct) : Prop where
  ne_eof : t ≠ .eof
  moves : K.known → Moves σ t τ

namespace Shifts

variable {p q : Punct}

lemma plain (h : (t.isPlain && t ≠ .eof) = true) : Shifts K σ t σ := by
  obtain ⟨hplain, hne⟩ := (Bool.and_eq_true_iff ..).mp h
  exact ⟨of_decide_eq_true hne, fun _ => .plain hplain⟩

lemma opens (h : p.closing? = some q) : Shifts K σ (.punct p) (p :: σ) := ⟨nofun, fun _ => .opens h⟩

lemma closes (h : p.closing? = some q) : Shifts K (p :: σ) (.punct q) σ :=
  ⟨nofun, fun _ => .closes h⟩

end Shifts

/-! ### Places in the stream -/

/-- A node to be made of a span and of the nodes `ns` below it. -/
def Builds (g : Span → Node) (ns : List Node) : Prop :=
  ∀ span, (g span).span = span ∧ (g span).children = ns ∧ (g span).spelling? = none ∧
    (∀ id ∈ (g span).names, isWord id = true) ∧ ∀ body ∈ (g span).bodies, body ≠ []

/-- Such a node without a spelling, names or bodies of its own. -/
def Plain (g : Span → Node) (ns : List Node) : Prop :=
  (fun span => ((g span).span, (g span).children, (g span).spelling?, (g span).names,
    (g span).bodies)) = fun span => (span, ns, none, [], [])

lemma Plain.builds {g : Span → Node} {ns : List Node} (h : Plain g ns) : Builds g ns := by
  intro span
  have hspan := congrFun h span
  simp only [Prod.mk.injEq] at hspan
  obtain ⟨hspan, hchildren, hspelling, hnames, hbodies⟩ := hspan
  simp [hspan, hchildren, hspelling, hnames, hbodies]

namespace State

/-- The lexeme taken last and those to come start by the bound and stand one after the other, and
the blocks to come have lines. -/
structure Near (K : Knowledge) (s : State) : Prop where
  last : s.last.start ≤ K.bound
  rest : StartBy K.bound s.rest
  opens : Opens s.rest
  boundary : Boundary K.source s.last.stop
  spaced : Spaced K.source Layout.markTokens s.last.stop s.rest

namespace Near

lemma here (h : s.Near K) : s.here.start ≤ K.bound := by
  obtain ⟨rest, last⟩ := s
  cases rest with
  | nil => exact h.last
  | cons l rest => exact h.rest.1

lemma stop_le (h : s.Near K) : s.last.stop ≤ s.advanced.last.stop := by
  obtain ⟨rest, last⟩ := s
  cases rest with
  | nil => exact le_rfl
  | cons l rest =>
    obtain ⟨hvalid, -, hpos | ⟨-, hpos⟩, -⟩ := h.spaced
    · exact hpos.trans hvalid.le
    · exact hpos.ge

lemma advanced (h : s.Near K) (hnext : next s.rest ≠ .error) : s.advanced.Near K := by
  obtain ⟨rest, last⟩ := s
  cases rest with
  | nil => exact h
  | cons l rest =>
    obtain ⟨hvalid, -, -, hrest⟩ := h.spaced
    exact ⟨h.rest.1, h.rest.2 hnext, h.opens.suffix (List.suffix_cons ..), hvalid.stop, hrest⟩

end Near

end State

namespace Knowledge

/-- Before the first lexeme of a node: what was taken stops at `lo`, and `start` comes next. -/
structure At (K : Knowledge) (lo : Nat) (start : Span) (s : State) : Prop where
  last : s.last.stop = lo
  here : s.here = start

/-- Since the lexeme at `start` was taken, the nodes `ns` have been read. -/
structure Held (K : Knowledge) (lo : Nat) (start : Span) (ns : List Node) (s : State) : Prop where
  from_le : lo ≤ start.start
  boundary : Boundary K.source start.start
  start_le : start.start ≤ K.bound
  stop_le : start.stop ≤ s.last.stop
  laid : Laid K.source start.start s.last.stop ns
  near : ∀ n ∈ ns, n.span.start ≤ K.bound

/-- Once the next lexeme is taken, the nodes `ns` have been read. -/
def Before (K : Knowledge) (lo : Nat) (start : Span) (ns : List Node) (s : State) : Prop :=
  K.Held lo start ns s.advanced

/-- The first lexeme of a node is no mark. -/
lemma At.cons (h : K.At lo start s) (hs : s.Near K) (hnext : next s.rest = t)
    (ht : t.stands = true) : ∃ rest, s.rest = ⟨t, start⟩ :: rest ∧ lo ≤ start.start ∧
      start.Valid K.source ∧ Lexeme.Spelled K.source ⟨t, start⟩ := by
  obtain ⟨rfl, hhere⟩ := h
  obtain ⟨rest, last⟩ := s
  cases rest with
  | nil =>
    obtain rfl : .eof = t := hnext
    cases ht
  | cons l rest =>
    obtain ⟨u, span⟩ := l
    obtain rfl : u = t := hnext
    obtain rfl : span = start := hhere
    obtain ⟨hvalid, hspelled, hpos | ⟨hmark, -⟩, -⟩ := hs.spaced
    · exact ⟨rest, rfl, hpos, hvalid, hspelled⟩
    · simp only [Layout.markTokens, List.mem_cons, List.not_mem_nil, or_false] at hmark
      rcases hmark with rfl | rfl | rfl <;> cases ht

lemma At.before (h : K.At lo start s) (hs : s.Near K) (hnext : next s.rest = t)
    (ht : t.stands = true) : K.Before lo start [] s := by
  obtain ⟨rest, hrest, hlo, hvalid, -⟩ := h.cons hs hnext ht
  have hlast : s.advanced.last = start := by rw [State.advanced, hrest]
  refine ⟨hlo, hvalid.start, h.here ▸ hs.here, ?_, ?_, nofun⟩
  · rw [hlast]
  · rw [hlast]
    exact .nil hvalid.le

namespace Held

lemma before (h : K.Held lo start ns s) (hs : s.Near K) : K.Before lo start ns s :=
  ⟨h.from_le, h.boundary, h.start_le, h.stop_le.trans hs.stop_le, h.laid.to_le hs.stop_le, h.near⟩

/-- A node that was read from a place on comes after the nodes read so far. -/
lemma append (h : K.Held lo start ns s) (h' : K.Held s.last.stop s.here ms s') :
    K.Held lo start (ns ++ ms) s' := by
  have hms : Laid K.source s.last.stop s'.last.stop ms := h'.laid.from_le h'.from_le
  exact ⟨h.from_le, h.boundary, h.start_le, h.stop_le.trans hms.between.le, h.laid.append hms,
    List.forall_mem_append.mpr ⟨h.near, h'.near⟩⟩

/-- Nodes may be left out of the tree. -/
lemma sublist (h : K.Held lo start ns s) (hms : ms.Sublist ns) : K.Held lo start ms s :=
  ⟨h.from_le, h.boundary, h.start_le, h.stop_le, h.laid.sublist hms,
    fun n hn => h.near n (hms.subset hn)⟩

/-- A node that ends with the lexeme taken last is closed around what was read. -/
lemma close {n : Node} (h : K.Held lo start ns s) (hs : s.Near K)
    (hspan : n.span = start.extendTo s.last) (hchildren : n.children = ns)
    (hn : n.Faithful K.source) : K.Held lo start [n] s := by
  have hextend : start.extendTo s.last = ⟨start.start, s.last.stop⟩ := by
    rw [Span.extendTo, Nat.max_eq_left h.stop_le]
  have hvalid : n.span.Valid K.source := by
    rw [hspan, hextend]
    exact ⟨h.boundary, hs.boundary, h.laid.between.le⟩
  refine ⟨h.from_le, h.boundary, h.start_le, h.stop_le,
    h.laid.node (hspan.trans hextend) hvalid hchildren hn, List.forall_mem_singleton.mpr ?_⟩
  rw [hspan, hextend]
  exact h.start_le

end Held

/-- A node that still lacks its span, with what was read for it. -/
def Drafts (K : Knowledge) (lo : Nat) (start : Span) (g : Span → Node) (s : State) : Prop :=
  ∃ ns, Builds g ns ∧ K.Held lo start ns s

end Knowledge

/-! ### Outcomes -/

/-- From `s` to `s'` the lexemes `taken` have been taken, which lead from `σ` to `τ`. -/
structure Passes (K : Knowledge) (σ : List Punct) (s s' : State) (τ : List Punct)
    (taken : List Lexeme) : Prop where
  took : Took s s' taken
  near : K.known → s'.Near K
  carries : K.known → Carries σ (taken.map Lexeme.token) τ

lemma Passes.append (h : Passes K σ s s₁ τ taken) (h' : Passes K τ s₁ s' υ taken') :
    Passes K σ s s' υ (taken ++ taken') := by
  refine ⟨h.took.append h'.took, h'.near, fun hknown => ?_⟩
  rw [List.map_append]
  exact (h.carries hknown).append (h'.carries hknown)

/-- What may come out of a parser that starts in `s`, of which a stream of fewer than `k` tokens is
not too long. -/
def Outcome (K : Knowledge) (k : Nat) (σ : List Punct) (s : State) (τ : List Punct) (M : α → Prop)
    (P : α → State → Prop) : Except ParseError (α × State) → Prop
  | .ok (a, s') => ∃ taken, Passes K σ s s' τ taken ∧ (M a → taken ≠ []) ∧ (K.known → P a s')
  | .error e => (e.fault = .stalled → k ≤ s.rest.length) ∧ (K.known → e.span.start ≤ K.bound)

def Runs (K : Knowledge) (k : Nat) (T : Token → Prop) (σ : List Punct) (A : State → Prop)
    (p : Parser α) (τ : List Punct) (M : α → Prop) (P : α → State → Prop) : Prop :=
  ∀ s : State, (K.known → s.Near K) → (K.known → A s) → T (next s.rest) →
    Outcome K k σ s τ M P (p s)

structure Parses (E : Setting) (n : Nat) (fresh : Bool) (T : Token → Prop) (σ : List Punct)
    (A : State → Prop) (p : Parser α) (τ : List Punct) (M : α → Prop) (P : α → State → Prop) :
    Prop where
  runs : Runs E.toKnowledge (n + fresh.toNat) T σ A p τ M P
  productive : ¬E.known → Productive E.parts E.stmt p

namespace Outcome

variable {out : Except ParseError (α × State)}

/-- More tokens may have been taken before. -/
lemma prepend (h : Passes K σ s s₁ τ taken) (hout : Outcome K k τ s₁ υ M P out) :
    Outcome K k σ s υ M P out := by
  cases out with
  | error e => exact ⟨fun he => (hout.1 he).trans h.took.length_le, hout.2⟩
  | ok out =>
    obtain ⟨taken', h', hne, hP⟩ := hout
    exact ⟨_, h.append h', fun hM => List.append_ne_nil_of_right_ne_nil _ (hne hM), hP⟩

/-- A token that has been taken before counts, also for the length of the stream. -/
lemma prepend_taken (hk : k ≤ j + 1) (h : Passes K σ s s₁ τ taken) (hne : taken ≠ [])
    (hout : Outcome K j τ s₁ υ Never P out) : Outcome K k σ s υ M P out := by
  cases out with
  | error e =>
    refine ⟨fun he => ?_, hout.2⟩
    have hle := hout.1 he
    have hlt := h.took.length_lt hne
    omega
  | ok out =>
    obtain ⟨taken', h', -, hP⟩ := hout
    exact ⟨_, h.append h', fun _ => List.append_ne_nil_of_left_ne_nil hne _, hP⟩

lemma weaken {M' : α → Prop} {P' : α → State → Prop} (h : Outcome K k σ s τ M P out) (hj : j ≤ k)
    (hM : ∀ a, M' a → M a) (hP : K.known → ∀ a s, P a s → P' a s) :
    Outcome K j σ s τ M' P' out := by
  cases out with
  | error e => exact ⟨fun he => hj.trans (h.1 he), h.2⟩
  | ok out =>
    obtain ⟨taken, hpasses, hne, ha⟩ := h
    exact ⟨taken, hpasses, fun h => hne (hM _ h), fun hknown => hP hknown _ _ (ha hknown)⟩

/-- What follows a parser is judged by what comes out of that parser. -/
lemma bind {p : Parser α} {f : α → Parser β} (h : Outcome K k σ s τ M P (p s))
    (hf : ∀ a s₁ taken, Passes K σ s s₁ τ taken → (M a → taken ≠ []) → (K.known → P a s₁) →
      Outcome K k σ s υ O Q (f a s₁)) : Outcome K k σ s υ O Q ((p >>= f) s) := by
  cases hout : p s with
  | error e =>
    have hfail : (p >>= f) s = .error e := by simp only [Bind.bind, StateT.bind, hout, Except.bind]
    rw [hout] at h
    rw [hfail]
    exact h
  | ok out =>
    obtain ⟨a, s₁⟩ := out
    rw [hout] at h
    rw [bind_of_ok hout]
    obtain ⟨taken, hpasses, hne, hP⟩ := h
    exact hf a s₁ taken hpasses hne hP

/-- A loop that takes a token in each round that asks for another does not stall by itself: it has
more rounds than there are tokens. -/
lemma loopN {body : α → Parser (Step α)}
    (hbody : ∀ a, Runs K k (fun _ => True) σ (P a) (body a) σ Asks fun step => P step.value) :
    ∀ (j : Nat) (a : α) (s : State), s.rest.length < j → (K.known → s.Near K) →
      (K.known → P a s) → Outcome K k σ s σ Never P (loopN body j a s)
  | 0, _, _, hlt, _, _ => absurd hlt (Nat.not_lt_zero _)
  | j + 1, a, s, hlt, hs, ha => by
    rw [Grammar.loopN]
    refine (hbody a s hs ha trivial).bind fun step s₁ taken hpasses hne hstep => ?_
    cases step with
    | done b => exact ⟨taken, hpasses, False.elim, hstep⟩
    | again b =>
      have hshorter := hpasses.took.length_lt (hne trivial)
      exact (loopN hbody j b s₁ (by omega) hpasses.near hstep).prepend hpasses

end Outcome

lemma Runs.mono {p : Parser α} (hj : j ≤ k) (h : Runs K k T σ A p τ M P) : Runs K j T σ A p τ M P :=
  fun s hs hA hT => (h s hs hA hT).weaken hj (fun _ => id) fun _ _ _ => id

/-- The token that comes next is known. -/
lemma Runs.peek {f : Token → Parser β} (h : Runs K k (· = t) σ A (f t) τ O Q) :
    Runs K k (· = t) σ A (peek >>= f) τ O Q := by
  rintro s hs hA rfl
  rw [bind_of_ok (peek_eq_ok s)]
  exact h s hs hA rfl

/-! ### Rules -/

namespace Parses

variable {p : Parser α} {f : α → Parser β}

lemma pure {b : β} (hO : ¬O b) (hQ : E.known → ∀ s, A s → Q b s) :
    Parses E n fresh T σ A (pure b) σ O Q :=
  ⟨fun s hs hA _ => ⟨[], ⟨.refl s, hs, fun _ => .nil⟩, fun hb => absurd hb hO,
    fun hknown => hQ hknown s (hA hknown)⟩, fun _ => .pure b⟩

lemma same {b : β} (hO : O b = False) (hQ : A = Q b) :
    Parses E n fresh T σ A (Pure.pure b) σ O Q :=
  .pure (hO ▸ not_false) fun _ _ hs => hQ ▸ hs

lemma bind (hp : Parses E n fresh T σ A p τ M P)
    (hf : ∀ a, Parses E n fresh (fun _ => True) τ (P a) (f a) υ O Q) :
    Parses E n fresh T σ A (p >>= f) υ O Q where
  runs s hs hA hT := (hp.runs s hs hA hT).bind fun a s₁ _ hpasses _ ha =>
    ((hf a).runs s₁ hpasses.near ha trivial).prepend hpasses
  productive hE := .bind (hp.productive hE) fun a => (hf a).productive hE

/-- Once a token is certain to have been taken, there is no need for another. -/
lemma take (hp : Parses E n fresh T σ A p τ Always P)
    (hf : ∀ a, Parses E n false (fun _ => True) τ (P a) (f a) υ Never Q) :
    Parses E n fresh T σ A (p >>= f) υ O Q where
  runs s hs hA hT := (hp.runs s hs hA hT).bind fun a s₁ _ hpasses hne ha =>
    ((hf a).runs s₁ hpasses.near ha trivial).prepend_taken (by cases fresh <;> simp) hpasses
      (hne trivial)
  productive hE := .bind (hp.productive hE) fun a => (hf a).productive hE

lemma weaken {M' : α → Prop} {P' : α → State → Prop} (hp : Parses E n fresh T σ A p τ M P)
    (hM : ∀ a, M' a → M a) (hP : E.known → ∀ a s, P a s → P' a s) :
    Parses E n fresh T σ A p τ M' P' :=
  ⟨fun s hs hA hT => (hp.runs s hs hA hT).weaken le_rfl hM hP, hp.productive⟩

lemma of_imp (hp : Parses E n fresh T σ B p τ M P)
    (hA : E.known → ∀ s, s.Near E.toKnowledge → T (next s.rest) → A s → B s) :
    Parses E n fresh T σ A p τ M P :=
  ⟨fun s hs hs' hT => hp.runs s hs (fun hknown => hA hknown s (hs hknown) hT (hs' hknown)) hT,
    hp.productive⟩

lemma pull {c : Prop} (h : (E.known → c) → Parses E n fresh T σ A p τ M P) :
    Parses E n fresh T σ (fun s => c ∧ A s) p τ M P :=
  ⟨fun s hs hA => (h fun hknown => (hA hknown).1).runs s hs fun hknown => (hA hknown).2,
    fun hE => (h hE.elim).productive hE⟩

/-- What holds of a parser that has taken no token yet holds later. -/
lemma later (hp : Parses E n fresh T σ A p τ M P) : Parses E n false T σ A p τ M P :=
  ⟨hp.runs.mono (Nat.le_add_right n fresh.toNat), hp.productive⟩

/-- A parser that is good for one token more is so from the start. -/
lemma earlier (hp : Parses E (n + fresh.toNat) false T σ A p τ M P) :
    Parses E n fresh T σ A p τ M P :=
  ⟨hp.runs, hp.productive⟩

lemma anywhere (hp : Parses E n fresh (fun _ => True) σ A p τ M P) :
    Parses E n fresh T σ A p τ M P :=
  ⟨fun s hs hA _ => hp.runs s hs hA trivial, hp.productive⟩

/-! ### Steps -/

lemma peek {f : Token → Parser β} (h : ∀ t, Parses E n fresh (· = t) σ A (f t) τ O Q) :
    Parses E n fresh T σ A (peek >>= f) τ O Q where
  runs s hs hA _ := by
    rw [bind_of_ok (peek_eq_ok s)]
    exact (h _).runs s hs hA rfl
  productive hE := .bind .peek fun t => (h t).productive hE

/-- Where a line starts, as far as the streams are known. -/
lemma peek_starts {f : Token → Parser β}
    (h : ∀ t, (E.known → t.Starts) → Parses E n fresh (· = t) σ A (f t) τ O Q) :
    Parses E n fresh (fun t => E.known → t.Starts) σ A (Grammar.peek >>= f) τ O Q where
  runs s hs hA hT := by
    rw [bind_of_ok (peek_eq_ok s)]
    exact (h _ hT).runs s hs hA rfl
  productive hE := .bind .peek fun t => (h t hE.elim).productive hE

/-- A node starts where the parser stands. -/
lemma peekSpan {f : Span → Parser β} {nodes : β → List Node} (h : ∀ start, Parses E n fresh T σ
      (E.At lo start) (f start) τ O fun b => E.Held lo start (nodes b)) :
    Parses E n fresh T σ (E.At lo start) (peekSpan >>= f) τ O
      fun b => E.Held lo start (nodes b) where
  runs s hs hA hT := by
    rw [bind_of_ok (peekSpan_eq_ok s)]
    refine ((h s.here).runs s hs (fun hknown => ⟨(hA hknown).last, rfl⟩) hT).weaken le_rfl
      (fun _ => id) fun hknown b s' hb => ?_
    rwa [(hA hknown).here] at hb
  productive hE := .bind .peekSpan fun span => (h span).productive hE

lemma throw {e : ParseError} (hfault : e.fault ≠ .stalled)
    (hspan : E.known → ∀ s, A s → e.span.start ≤ E.bound) :
    Parses E n fresh T σ A (throw e : Parser β) τ O Q :=
  ⟨fun s _ hA _ => ⟨fun he => absurd he hfault, fun hknown => hspan hknown s (hA hknown)⟩,
    fun _ => .throw hfault⟩

/-- What would follow an error is not reached, but it is part of the parser. -/
lemma unexpected_bind {wanted : Wanted} (h : ¬E.known → ∀ a, Productive E.parts E.stmt (f a)) :
    Parses E n fresh T σ A (unexpected wanted >>= f) τ O Q where
  runs s hs _ _ := by
    rw [Grammar.unexpected, bind_assoc, bind_of_ok (peek_eq_ok s), bind_assoc,
      bind_of_ok (peekSpan_eq_ok s)]
    exact ⟨nofun, fun hknown => (hs hknown).here⟩
  productive hE := .bind (.bind .peek fun _ => .bind .peekSpan fun _ => .throw nofun) (h hE)

lemma unexpected {wanted : Wanted} :
    Parses E n fresh T σ A (unexpected wanted : Parser β) τ O Q := by
  rw [← bind_pure (Grammar.unexpected wanted)]
  exact .unexpected_bind fun _ a => .pure a

/-- Taking a token before one that is known to follow it. -/
lemma advance_before {U : Token → Prop} {f : Unit → Parser β} (ht : Shifts E.toKnowledge σ t τ)
    (hU : ∀ ls, (E.known → Opens ls) → next ls = t → U (next ls.tail))
    (hA : E.known → ∀ s, s.Near E.toKnowledge → next s.rest = t → A s → B s.advanced)
    (h : Parses E n false U τ B (f ()) υ Never Q) :
    Parses E n fresh (· = t) σ A (advance >>= f) υ O Q where
  runs s hs hs' hnext := by
    have hafter := hU s.rest (fun hknown => (hs hknown).opens) hnext
    have hnear (hknown : E.known) : s.advanced.Near E.toKnowledge :=
      (hs hknown).advanced (hnext ▸ (ht.moves hknown).ne_error)
    have hB (hknown : E.known) : B s.advanced := hA hknown s (hs hknown) hnext (hs' hknown)
    obtain ⟨rest, last⟩ := s
    cases rest with
    | nil => exact absurd hnext.symm ht.ne_eof
    | cons l rest =>
      obtain rfl : l.token = t := hnext
      have hpasses : Passes E.toKnowledge σ ⟨l :: rest, last⟩ ⟨rest, l.span⟩ τ [l] :=
        ⟨⟨rfl, List.forall_mem_singleton.mpr ht.ne_eof⟩, hnear,
          fun hknown => .cons (ht.moves hknown) .nil⟩
      exact (h.runs _ hnear hB hafter).prepend_taken (by cases fresh <;> simp) hpasses
        (List.cons_ne_nil l [])
  productive hE := .bind .advance fun _ => h.productive hE

/-- Taking the first lexeme of a node, or one after it. -/
lemma step {f : Unit → Parser β} (ht : Shifts E.toKnowledge σ t τ)
    (h : Parses E n false (fun _ => True) τ (E.Held lo start ns) (f ()) υ Never Q) :
    Parses E n fresh (· = t) σ (E.Before lo start ns) (advance >>= f) υ O Q :=
  advance_before ht (fun _ _ _ => trivial) (fun _ _ _ _ hs => hs) h

lemma begins (h : Parses E n fresh (· = t) σ (E.Before lo start []) p τ M P)
    (ht : t.stands = true) : Parses E n fresh (· = t) σ (E.At lo start) p τ M P :=
  h.of_imp fun _ _ hs hnext hat => hat.before hs hnext ht

lemma goes (h : Parses E n fresh T σ (E.Before lo start ns) p τ M P) :
    Parses E n fresh T σ (E.Held lo start ns) p τ M P :=
  h.of_imp fun _ _ hs _ hheld => hheld.before hs

lemma first {f : Unit → Parser β} (hstands : t.stands = true) (ht : Shifts E.toKnowledge σ t τ)
    (h : Parses E n false (fun _ => True) τ (E.Held lo start []) (f ()) υ Never Q) :
    Parses E n fresh (· = t) σ (E.At lo start) (Grammar.advance >>= f) υ O Q :=
  (step ht h).begins hstands

lemma advance {f : Unit → Parser β} (ht : Shifts E.toKnowledge σ t τ)
    (h : Parses E n false (fun _ => True) τ (E.Held lo start ns) (f ()) υ Never Q) :
    Parses E n fresh (· = t) σ (E.Held lo start ns) (advance >>= f) υ O Q :=
  (step ht h).goes

/-- After an `indent` comes what starts a line. -/
lemma advance_indent {f : Unit → Parser β}
    (h : Parses E n false (fun t => E.known → t.Starts) σ (E.Held lo start ns) (f ()) τ Never Q) :
    Parses E n fresh (· = .indent) σ (E.Held lo start ns) (Grammar.advance >>= f) τ O Q := by
  refine advance_before (.plain rfl) (fun ls hls hnext hknown => ?_)
    (fun _ _ hs _ hheld => hheld.before hs) h
  cases ls with
  | nil => cases hnext
  | cons l ls => exact hls hknown l ls List.suffix_rfl hnext

/-- A token that is taken where it comes next. -/
lemma eat_of {f : Bool → Parser β}
    (htrue : Parses E n fresh (· = t) σ A (Grammar.advance >>= fun _ => f true) υ O Q)
    (hfalse : Parses E n fresh (fun _ => True) σ A (f false) υ O Q) :
    Parses E n fresh T σ A (eat t >>= f) υ O Q := by
  rw [Grammar.eat, bind_assoc]
  refine .peek fun u => ?_
  by_cases h : u = t
  · subst h
    rw [if_pos rfl, bind_assoc]
    simpa only [pure_bind] using htrue
  · rw [if_neg h, pure_bind]
    exact hfalse.anywhere

lemma eat {f : Bool → Parser β} (ht : Shifts E.toKnowledge σ t τ)
    (htrue : Parses E n false (fun _ => True) τ (E.Held lo start ns) (f true) υ Never Q)
    (hfalse : Parses E n fresh (fun _ => True) σ (E.Held lo start ns) (f false) υ O Q) :
    Parses E n fresh T σ (E.Held lo start ns) (eat t >>= f) υ O Q :=
  eat_of (.advance ht htrue) hfalse

/-- A token that comes next is taken. -/
lemma runs_eat {f : Bool → Parser β}
    (h : Parses E n fresh (· = t) σ A (Grammar.advance >>= fun _ => f true) υ O Q) :
    Runs E.toKnowledge (n + fresh.toNat) (· = t) σ A (Grammar.eat t >>= f) υ O Q := by
  rw [Grammar.eat, bind_assoc]
  refine .peek ?_
  rw [if_pos rfl, bind_assoc]
  simpa only [pure_bind] using h.runs

/-- A token that is asked for. -/
lemma expect {f : Unit → Parser β} (ht : Shifts E.toKnowledge σ t τ)
    (h : Parses E n false (fun _ => True) τ (E.Held lo start ns) (f ()) υ Never Q) :
    Parses E n fresh T σ (E.Held lo start ns) (expect t >>= f) υ O Q := by
  rw [Grammar.expect, bind_assoc]
  refine .peek fun u => ?_
  by_cases hu : u = t
  · subst hu
    rw [if_pos rfl]
    exact .advance ht h
  · rw [if_neg hu]
    exact .unexpected_bind fun hE _ => h.productive hE

/-- Where another token than the one asked for comes next, nothing more is read. -/
lemma require {u : Token} {wanted : Wanted} {f : Unit → Parser β}
    (h : Parses E n fresh (· = u) σ A (f ()) τ O Q) :
    Parses E n fresh (· = t) σ A
      (if t ≠ u then Grammar.unexpected wanted >>= f else f ()) τ O Q := by
  by_cases ht : t = u
  · subst ht
    rwa [if_neg (not_not.mpr rfl)]
  · rw [if_pos ht]
    exact .unexpected_bind fun hE _ => h.productive hE

lemma identifier (hA : E.known → ∀ s t, s.Near E.toKnowledge → A s → next s.rest = t →
      t.stands = true → E.Before lo start ns s) :
    Parses E n fresh T σ A identifier σ Always
      fun id s => isWord id = true ∧ E.Held lo start ns s := by
  refine .peek fun t => ?_
  split
  · next id =>
    have hword : Parses E n fresh (· = .name id) σ
        (fun s => isWord id = true ∧ E.Before lo start ns s) (do Grammar.advance; return id) σ
        Always fun id s => isWord id = true ∧ E.Held lo start ns s :=
      .pull fun hid => .step (.plain rfl) (.pure not_false fun hknown _ hs => ⟨hid hknown, hs⟩)
    refine hword.of_imp fun hknown s hs hnext hs' => ⟨?_, hA hknown s _ hs hs' hnext rfl⟩
    obtain ⟨rest, last⟩ := s
    cases rest with
    | nil => cases hnext
    | cons l rest => exact hs.spaced.2.1.word _ hnext
  · exact .unexpected

/-- What the span becomes is up to the state. -/
lemma spanFrom_of {B : Span → State → Prop} {f : Span → Parser β}
    (hA : E.known → ∀ s, s.Near E.toKnowledge → A s → B (start.extendTo s.last) s)
    (h : ∀ span, Parses E n fresh T σ (B span) (f span) τ O Q) :
    Parses E n fresh T σ A (spanFrom start >>= f) τ O Q where
  runs s hs hs' hT :=
    (h (start.extendTo s.last)).runs s hs (fun hknown => hA hknown s (hs hknown) (hs' hknown)) hT
  productive hE := .bind (.spanFrom start) fun span => (h span).productive hE

/-- Closing a node around what was read. -/
lemma spanFrom {g : Span → Node} {f : Span → Parser β} (hg : E.known → Builds g ns)
    (h : ∀ span, Parses E n fresh T σ (E.Held lo start [g span]) (f span) τ O Q) :
    Parses E n fresh T σ (E.Held lo start ns) (Grammar.spanFrom start >>= f) τ O Q := by
  refine spanFrom_of (B := fun span => E.Held lo start [g span]) (fun hknown s hs hheld => ?_) h
  obtain ⟨hspan, hchildren, hspelling, hnamed, hfilled⟩ := hg hknown (start.extendTo s.last)
  exact hheld.close hs hspan hchildren ⟨by rw [hspelling]; nofun, hnamed, hfilled⟩

lemma drafts {g : Span → Node} (h : ∀ ns, (E.known → Builds g ns) →
      Parses E n fresh T σ (E.Held lo start ns) p τ M P) :
    Parses E n fresh T σ (E.Drafts lo start g) p τ M P := by
  refine ⟨fun s hs hA hT => ?_, fun hE => (h [] hE.elim).productive hE⟩
  by_cases hknown : E.known
  · obtain ⟨ns, hg, hheld⟩ := hA hknown
    exact (h ns fun _ => hg).runs s hs (fun _ => hheld) hT
  · exact (h [] hknown.elim).runs s hs hknown.elim hT

lemma draft {node : Span → Expr} (hnode : Plain (fun span => .expr (node span)) ns) :
    Parses E n fresh T σ (E.Held lo start ns) (Pure.pure node) σ Never
      fun node => E.Drafts lo start fun span => .expr (node span) :=
  .pure not_false fun _ _ hs => ⟨ns, hnode.builds, hs⟩

/-! ### Loops -/

section Loops

variable {body : α → Parser (Step α)} {a : α} (hbody : ∀ a,
  Parses E n fresh (fun _ => True) σ (P a) (body a) σ Asks fun step => P step.value)

include hbody

/-- The first round may find more than the others. -/
lemma loop_from {L : Step α → Prop} (hagain : ∀ b, L (.again b)) (hdone : ∀ b, M b → L (.done b))
    (hfirst : Runs E.toKnowledge (n + fresh.toNat) T σ A (body a) σ L fun step => P step.value) :
    Parses E n fresh T σ A (loop body a) σ M P where
  runs s hs hA hT := by
    rw [loop_eq, Grammar.loopN]
    refine (hfirst s hs hA hT).bind fun step s₁ taken hpasses hne hstep => ?_
    cases step with
    | done b => exact ⟨taken, hpasses, fun hM => hne (hdone b hM), hstep⟩
    | again b =>
      have htaken := hne (hagain b)
      have hrest := Outcome.loopN (fun a => (hbody a).runs) s.rest.length b s₁
        (hpasses.took.length_lt htaken) hpasses.near hstep
      exact hrest.prepend_taken (Nat.le_succ _) hpasses htaken
  productive hE := by
    refine .loop a (fun a => (hbody a).productive hE) fun a s b s' hround => ?_
    have hrun := (hbody a).runs s hE.elim hE.elim trivial
    rw [hround] at hrun
    obtain ⟨taken, hpasses, hne, -⟩ := hrun
    exact ⟨taken, hpasses.took, hne trivial⟩

lemma loop_of (ha : E.known → ∀ s, A s → P a s) :
    Parses E n fresh T σ A (loop body a) σ Never P :=
  loop_from hbody (fun _ => trivial) (fun _ => False.elim)
    ((hbody a).anywhere.of_imp fun hknown s _ _ => ha hknown s).runs

omit hbody in
lemma loop (ha : A = P a) (hbody : ∀ a,
    Parses E n fresh (fun _ => True) σ (P a) (body a) σ Asks fun step => P step.value) :
    Parses E n fresh T σ A (loop body a) σ Never P :=
  loop_of hbody fun _ _ hs => ha ▸ hs

end Loops

lemma after? {Q : Option α → State → Prop} (ht : Shifts E.toKnowledge σ t σ)
    (hp : Parses E n false (fun _ => True) σ (E.Held lo start ns) p σ M fun a => Q (some a))
    (hnone : E.known → ∀ s, E.Held lo start ns s → Q none s) :
    Parses E n fresh T σ (E.Held lo start ns) (after? t p) σ Never Q :=
  .eat ht (hp.bind fun _ => .same rfl rfl) (.pure not_false hnone)

/-- What is kept while a mark is taken is kept between the items. -/
lemma separated {I : List α → State → Prop} (ht : Shifts E.toKnowledge σ t σ)
    (hI : E.known → ∀ items s, s.Near E.toKnowledge → I items s → I items s.advanced)
    (hfirst : Parses E n fresh T σ A p σ Always fun a => I [a])
    (hnext : ∀ items, Parses E n false (fun _ => True) σ (I items) p σ M
      fun a => I (items ++ [a])) : Parses E n fresh T σ A (separated t p) σ Always I := by
  refine hfirst.take fun first => .loop rfl fun items => .eat_of ?_ (.same rfl rfl)
  exact .advance_before ht (fun _ _ _ => trivial) (fun hknown s hs _ => hI hknown items s hs)
    ((hnext items).bind fun a => .same rfl rfl)

/-! ### Nodes -/

/-- The last step: the expression is closed around its parts. -/
lemma close_of {node : Span → Expr} (hnode : E.known → Builds (fun span => .expr (node span)) ns) :
    Parses E n fresh T σ (E.Held lo start ns) (do return node (← Grammar.spanFrom start)) σ Never
      fun e => E.Held lo start [.expr e] :=
  .spanFrom hnode fun _ => .same rfl rfl

lemma close {node : Span → Expr} (hnode : Plain (fun span => .expr (node span)) ns) :
    Parses E n fresh T σ (E.Held lo start ns) (do return node (← Grammar.spanFrom start)) σ Never
      fun e => E.Held lo start [.expr e] :=
  .close_of fun _ => hnode.builds

lemma close_again {node : Span → Expr} (hnode : Plain (fun span => .expr (node span)) ns) :
    Parses E n fresh T σ (E.Held lo start ns)
      (do return Step.again (node (← Grammar.spanFrom start))) σ Never
      fun step => E.Held lo start [.expr step.value] :=
  .spanFrom (fun _ => hnode.builds) fun _ => .same rfl rfl

/-- A node that is one word of the source. -/
lemma word {text : String} {node : Span → Expr} (ht : t = .name text ∨ t = .number text)
    (hnode : ∀ span, (node span).span = span ∧ (node span).children = [] ∧
      (Node.expr (node span)).spelling? = some text ∧
      ∀ id ∈ (Node.expr (node span)).names, t = .name id) :
    Parses E n fresh (· = t) σ (E.At lo start)
      (do Grammar.advance; return node (← Grammar.spanFrom start)) σ Always
      fun e => E.Held lo start [.expr e] := by
  have hstands : t.stands = true := by rcases ht with rfl | rfl <;> rfl
  have hplain : (t.isPlain && t ≠ .eof) = true := by rcases ht with rfl | rfl <;> rfl
  have hextend : start.extendTo start = start := by rw [Span.extendTo, Nat.max_self]
  refine .advance_before (U := fun _ => True)
    (B := fun s => (s.last = start ∧ Lexeme.Spelled E.source ⟨t, start⟩) ∧ E.Held lo start [] s)
    (.plain hplain) (fun _ _ _ => trivial) (fun hknown s hs hnext hat => ?_)
    (.spanFrom_of (B := fun span => E.Held lo start [.expr (node span)])
      (fun hknown s hs hheld => ?_) fun _ => .same rfl rfl)
  · obtain ⟨rest, hrest, -, -, hspelled⟩ := hat.cons hs hnext hstands
    exact ⟨⟨by rw [State.advanced, hrest], hspelled⟩, hat.before hs hnext hstands⟩
  · obtain ⟨⟨hlast, hspelled⟩, hheld⟩ := hheld
    obtain ⟨hspan, hchildren, hspelling, hnames⟩ := hnode (start.extendTo s.last)
    refine hheld.close hs hspan hchildren
      ⟨fun text' htext => ?_, fun id hid => hspelled.word id (hnames id hid), nofun⟩
    rw [hspelling, Option.mem_some_iff] at htext
    subst htext
    rw [show (Node.expr _).span = _ from hspan, hlast, hextend]
    exact hspelled.text text ht

end Parses

/-! ### Parsers by what they read -/

/-- A parser that reads a node, or the like, from its first lexeme on. -/
abbrev Places (E : Setting) (n : Nat) (fresh : Bool) (T : Token → Prop) (σ : List Punct)
    (p : Parser α) (nodes : α → List Node) : Prop :=
  ∀ {lo start}, Parses E n fresh T σ (E.At lo start) p σ Always fun a => E.Held lo start (nodes a)

/-- A parser that goes on to read nodes. -/
abbrev Adds (E : Setting) (n : Nat) (fresh : Bool) (T : Token → Prop) (σ : List Punct)
    (p : Parser α) (M : α → Prop) (nodes : α → List Node) : Prop :=
  ∀ {lo start ns}, Parses E n fresh T σ (E.Held lo start ns) p σ M
    fun a => E.Held lo start (ns ++ nodes a)

/-- A parser that goes on to take lexemes and reads no node. -/
abbrev Keeps (E : Setting) (n : Nat) (fresh : Bool) (T : Token → Prop) (σ : List Punct)
    (p : Parser α) (M : α → Prop) : Prop :=
  ∀ {lo start ns}, Parses E n fresh T σ (E.Held lo start ns) p σ M fun _ => E.Held lo start ns

lemma Parses.adds {p : Parser α} {nodes : α → List Node}
    (h : Places E n false (fun _ => True) σ p nodes) : Adds E n false T σ p Always nodes :=
  ⟨fun s hs hA _ => ((@h s.last.stop s.here).runs s hs (fun _ => ⟨rfl, rfl⟩) trivial).weaken
      le_rfl (fun _ => id) fun hknown _ _ => (hA hknown).append,
    (@h 0 ⟨0, 0⟩).productive⟩

lemma finds_identifier : Parses E n fresh T σ (E.Held lo start ns) identifier σ Always
    fun id s => isWord id = true ∧ E.Held lo start ns s :=
  .identifier fun _ _ _ hs hheld _ _ => hheld.before hs

lemma keeps_identifier : Keeps E n fresh T σ identifier Always :=
  finds_identifier.weaken (fun _ => id) fun _ _ _ => And.right

lemma keeps_skipNewlines : Keeps E n fresh T σ skipNewlines Never :=
  .loop rfl fun _ => .eat (.plain rfl) (.same rfl rfl) (.same rfl rfl)

/-- Before what starts a line there are no newlines to skip. -/
lemma Parses.skip_starts {f : Unit → Parser β}
    (h : Parses E n fresh (fun t => E.known → t.Starts) σ (E.Held lo start ns) (f ()) τ O Q) :
    Parses E n fresh (fun t => E.known → t.Starts) σ (E.Held lo start ns)
      (skipNewlines >>= f) τ O Q := by
  by_cases hknown : E.known
  · refine ⟨fun s hs hA hT => ?_, fun hE => absurd hknown hE⟩
    have hnewline : next s.rest ≠ .newline := by
      have hstarts := hT hknown
      simp only [Token.Starts, List.mem_cons, not_or] at hstarts
      exact hstarts.1
    have heat : Grammar.eat .newline s = .ok (false, s) := by
      rw [Grammar.eat, bind_of_ok (peek_eq_ok s), if_neg hnewline]
      rfl
    have hskip : skipNewlines s = .ok ((), s) := by
      rw [skipNewlines, loop_eq, Grammar.loopN]
      exact bind_eq_ok.mpr ⟨.done (), s, bind_of_ok heat, rfl⟩
    rw [bind_of_ok hskip]
    exact h.runs s hs hA hT
  · exact keeps_skipNewlines.bind fun _ =>
      ⟨fun s hs hA _ => h.runs s hs hA hknown.elim, h.productive⟩

/-- An optional expression. -/
lemma adds_after? {p : Parser Expr} (ht : Shifts E.toKnowledge σ t σ)
    (hp : Places E n false (fun _ => True) σ p fun e => [.expr e]) :
    Adds E n fresh T σ (after? t p) Never optNodes :=
  .after? ht (.adds hp) fun _ _ hs => by simpa [optNodes, exprNodes] using hs

lemma Parses.listUntil {item : Parser α} {close : Token} {g : α → Node}
    (hitem : Places E n false (fun _ => True) σ item fun a => [g a]) :
    Adds E n false T σ (listUntil close item) Never fun items => items.map g := by
  refine .loop_of (fun items => .peek fun t => ?_) fun _ _ hs => by simpa using hs
  split
  · exact .same rfl rfl
  · refine .take (.adds hitem) fun a => .eat (.plain rfl) ?_ ?_ <;>
      exact .pure not_false fun _ _ hs => by simpa [Step.value] using hs

end Grammar

end AnnotatedWasm
