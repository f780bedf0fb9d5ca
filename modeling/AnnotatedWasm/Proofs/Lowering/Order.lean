import AnnotatedWasm.Proofs.Lowering.Mirrors
import AnnotatedWasm.Proofs.Lowering.Promotion

/-!
The order of definitions.

Two neighbouring definitions that are compiled can be exchanged. Neither sees the other: signatures
are collected before, a function that is lowered uses up label numbers and puts globals into the
module, and of these only the numbers show in the other function.
-/

namespace AnnotatedWasm

open Syntax (Expr Stmt FuncHeader)

/-! ### Signatures -/

/-- The tables say the same of every name. -/
structure Signatures.Alike (s t : Signatures) : Prop where
  aliases : t.aliases = s.aliases
  get? : ∀ name, t.get? name = s.get? name

namespace Signature

/-- What statements add to the signatures. -/
inductive CollectsAll : Signatures → List Stmt → Signatures → Prop
  | nil {s} : CollectsAll s [] s
  | cons {s stmt s₁ rest s'} : Collects s stmt s₁ → CollectsAll s₁ rest s' →
      CollectsAll s (stmt :: rest) s'

variable {s s' t : Signatures} {stmt : Stmt}

lemma get?_snoc (s : Signatures) (key name : String) (sig : FuncSig) :
    Signatures.get? { s with functions := s.functions ++ [(key, sig)] } name =
      (s.get? name).or (if name = key then some sig else none) := by
  rw [Signatures.get?, List.lookup_append, Signatures.get?]
  by_cases h : name = key
  · simp [h]
  · simp [List.lookup_cons, h, beq_false_of_ne h]

/-- What a statement may add it does add. -/
lemma Collects.returns (h : Collects s stmt s') (log : List Event) :
    ∃ log', Returns (collectStmt s stmt) log s' log' := by
  cases h with
  | @signed span header body sig hm hget hsig =>
    refine ⟨log ++ [.signature header.name sig.params sig.returns], ?_⟩
    simp [collectStmt, hm, hget, hsig, collectStmt.liftExcept, report]
  | unmarked hm => exact ⟨log, by simp [collectStmt, hm]⟩
  | other hother =>
    refine ⟨log, ?_⟩
    cases stmt
    case funcDef => exact absurd rfl (hother _ _ _)
    all_goals simp [collectStmt]

lemma collectsAll_of_returns {log' : List Event} : ∀ {body : List Stmt} {s : Signatures}
    {log : List Event}, Returns (collectFrom s body) log s' log' → CollectsAll s body s'
  | [], s, log, h => by
    simp [collectFrom] at h
    rw [h.1]
    exact .nil
  | stmt :: rest, s, log, h => by
    simp only [collectFrom, Returns.bind_iff] at h
    obtain ⟨s₁, log₁, hstmt, hrest⟩ := h
    exact .cons (returns_collectStmt hstmt) (collectsAll_of_returns hrest)

lemma CollectsAll.returns {body : List Stmt} (h : CollectsAll s body s') :
    ∀ log, ∃ log', Returns (collectFrom s body) log s' log' := by
  induction h with
  | nil => exact fun log => ⟨log, by simp [collectFrom]⟩
  | cons hstmt _ ih =>
    intro log
    obtain ⟨log₁, hstmt⟩ := hstmt.returns log
    obtain ⟨log', hrest⟩ := ih log₁
    exact ⟨log', by rw [collectFrom, Returns.bind_iff]; exact ⟨_, _, hstmt, hrest⟩⟩

lemma collectsAll_append {xs ys : List Stmt} :
    CollectsAll s (xs ++ ys) s' ↔ ∃ s₁, CollectsAll s xs s₁ ∧ CollectsAll s₁ ys s' := by
  induction xs generalizing s with
  | nil =>
    constructor
    · exact fun h => ⟨s, .nil, h⟩
    · rintro ⟨_, ⟨⟩, h⟩
      exact h
  | cons x xs ih =>
    constructor
    · rintro (_ | ⟨hx, h⟩)
      obtain ⟨s₁, hxs, hys⟩ := ih.mp h
      exact ⟨s₁, .cons hx hxs, hys⟩
    · rintro ⟨s₁, (_ | ⟨hx, hxs⟩), hys⟩
      exact .cons hx (ih.mpr ⟨s₁, hxs, hys⟩)

/-- Tables that say the same go on to say the same. -/
lemma Collects.alike (h : Collects s stmt s') (hst : s.Alike t) :
    ∃ t', Collects t stmt t' ∧ s'.Alike t' := by
  cases h with
  | signed hm hget hsig =>
    refine ⟨_, .signed (hst.aliases ▸ hm) (hst.get? _ ▸ hget) (hst.aliases ▸ hsig),
      hst.aliases, fun name => ?_⟩
    rw [get?_snoc, get?_snoc, hst.get?]
  | unmarked hm => exact ⟨t, .unmarked (hst.aliases ▸ hm), hst⟩
  | other hother =>
    exact ⟨_, .other hother, by rw [hst.aliases], hst.get?⟩

lemma CollectsAll.alike {body : List Stmt} (h : CollectsAll s body s') :
    ∀ {t}, s.Alike t → ∃ t', CollectsAll t body t' ∧ s'.Alike t' := by
  induction h with
  | nil => exact fun hst => ⟨_, .nil, hst⟩
  | cons hstmt _ ih =>
    intro t hst
    obtain ⟨t₁, ht₁, hst₁⟩ := hstmt.alike hst
    obtain ⟨t', ht', hst'⟩ := ih hst₁
    exact ⟨t', .cons ht₁ ht', hst'⟩

/-- Neighbouring definitions add the same in either order. -/
lemma Collects.swap {s₁ s₂ : Signatures} {p q : Span} {f g : FuncHeader} {fs gs : List Stmt}
    (hf : Collects s (.funcDef p f fs) s₁) (hg : Collects s₁ (.funcDef q g gs) s₂) :
    ∃ t₁ t₂, Collects s (.funcDef q g gs) t₁ ∧ Collects t₁ (.funcDef p f fs) t₂ ∧
      s₂.Alike t₂ := by
  cases hf with
  | @signed _ _ _ sig hm hget hsig =>
    cases hg with
    | @signed _ _ _ sig' hm' hget' hsig' =>
      -- the names differ, since neither is there when the second is added
      rw [get?_snoc, Option.or_eq_none_iff] at hget'
      have hne : g.name ≠ f.name := by
        intro heq
        simp [heq] at hget'
      refine ⟨_, _, .signed hm' hget'.1 hsig', .signed hm ?_ hsig, rfl, fun name => ?_⟩
      · rw [get?_snoc, hget, if_neg hne.symm]
        rfl
      · rw [get?_snoc, get?_snoc, get?_snoc, get?_snoc, Option.or_assoc, Option.or_assoc]
        by_cases hname : name = f.name
        · rw [if_pos hname, if_neg (by rw [hname]; exact hne.symm)]
          simp
        · rw [if_neg hname]
          simp
    | unmarked hm' => exact ⟨s, _, .unmarked hm', .signed hm hget hsig, rfl, fun _ => rfl⟩
    | other hother => exact absurd rfl (hother _ _ _)
  | unmarked hm =>
    cases hg with
    | signed hm' hget' hsig' =>
      exact ⟨_, _, .signed hm' hget' hsig', .unmarked hm, rfl, fun _ => rfl⟩
    | unmarked hm' => exact ⟨s, s, .unmarked hm', .unmarked hm, rfl, fun _ => rfl⟩
    | other hother => exact absurd rfl (hother _ _ _)
  | other hother => exact absurd rfl (hother _ _ _)

/-- **Signatures** do not depend on the order of neighbouring definitions. -/
lemma CollectsAll.swap {before after : List Stmt} {p q : Span} {f g : FuncHeader}
    {fs gs : List Stmt}
    (h : CollectsAll s (before ++ .funcDef p f fs :: .funcDef q g gs :: after) s') :
    ∃ t', CollectsAll s (before ++ .funcDef q g gs :: .funcDef p f fs :: after) t' ∧
      s'.Alike t' := by
  obtain ⟨s₁, hbefore, h⟩ := collectsAll_append.mp h
  obtain _ | ⟨hf, _ | ⟨hg, hafter⟩⟩ := h
  obtain ⟨t₁, t₂, hg, hf, hst⟩ := hf.swap hg
  obtain ⟨t', hafter, hst'⟩ := hafter.alike hst
  exact ⟨t', collectsAll_append.mpr ⟨s₁, hbefore, .cons hg (.cons hf hafter)⟩, hst'⟩

end Signature

namespace Lowering

open Ir (Label)
open Signature (Aliases)
open Syntax (globalNamesAll)

variable {env env' : Env} {s s' t t' : Session} {u : Unit} {d : Nat} {ρ : Label → Label}
  {header : FuncHeader} {body : List Stmt} {span : Span}

lemma Env.Alike.symm (h : env.Alike env') : env'.Alike env :=
  ⟨h.options.symm, h.aliases.symm, fun name => (h.get? name).symm⟩

/-! ### One function -/

/-- The second session has the same declarations and higher label numbers. -/
structure Session.Shifted (d : Nat) (s t : Session) : Prop where
  declared : t.declared = s.declared
  nextLabel : t.nextLabel = s.nextLabel + d

/-- Both sessions get one function more, and that of the second has higher label numbers. -/
def Session.Gain (d : Nat) (ρ : Label → Label) (s t s' t' : Session) : Prop :=
  s'.Shifted d t' ∧ ∃ f, s'.module.functions = s.module.functions ++ [f] ∧
    t'.module.functions = t.module.functions ++ [f.relabel ρ]

/-- A frame in which nothing has been lowered knows no label numbers. -/
lemma shifted_start {f : Frame} (hf : f.loops = []) (h : s.Shifted d t) :
    Body.Shifted d ⟨s, f⟩ ⟨t, f⟩ := by
  refine ⟨?_, h.declared, h.nextLabel⟩
  cases f
  cases hf
  rfl

lemma gain_addFunction {b c : Body} {ns : List Ir.Node}
    (hs : b.session.module.functions = s.module.functions)
    (ht : c.session.module.functions = t.module.functions) (h : b.Shifted d c) :
    Session.Gain d ρ s t (b.session.addFunction (b.frame.finish ns))
      (c.session.addFunction (c.frame.finish (ns.map (Ir.Node.relabel ρ)))) := by
  refine ⟨⟨h.declared, h.nextLabel⟩, b.frame.finish ns, ?_, ?_⟩
  · rw [← hs]
    rfl
  · rw [← ht, h.frame]
    rfl

/-- A function that is lowered with lower label numbers is lowered with higher ones. -/
lemma lowerFunction_up (henv : env.Alike env') (hρ : Shifts d ρ) (hst : s.Shifted d t)
    (h : Returns (lowerFunction env header body span) s u s') :
    ∃ t', Returns (lowerFunction env' header body span) t () t' ∧ Session.Gain d ρ s t s' t' := by
  obtain ⟨sig, ns, b, hsig, htypes, hns, rfl⟩ := returns_lowerFunction_iff.mp h
  have hstart := shifted_start (f := startFrame header sig) rfl hst
  obtain ⟨c, hms, hbc⟩ := (mirrors_lowerStmts henv hρ body).returns hstart hns
  refine ⟨_, returns_lowerFunction_iff.mpr ⟨sig, _, c, ?_, ?_, hms, rfl⟩,
    gain_addFunction ?_ ?_ hbc⟩
  · rw [henv.get?, hsig]
  · rwa [henv.options]
  · exact (lowersStmts_of_returns body hns).extends.functions
  · exact (lowersStmts_of_returns body hms).extends.functions

/-- And the other way round. -/
lemma lowerFunction_down (henv : env.Alike env') (hρ : Shifts d ρ) (hst : s.Shifted d t)
    (h : Returns (lowerFunction env' header body span) t u t') :
    ∃ s', Returns (lowerFunction env header body span) s () s' ∧ Session.Gain d ρ s t s' t' := by
  obtain ⟨sig, ms, c, hsig, htypes, hms, rfl⟩ := returns_lowerFunction_iff.mp h
  have hstart := shifted_start (f := startFrame header sig) rfl hst
  obtain ⟨ns, b, hns, rfl, hbc⟩ := (mirrors_lowerStmts henv hρ body).returns_back hstart hms
  refine ⟨_, returns_lowerFunction_iff.mpr ⟨sig, ns, b, ?_, ?_, hns, rfl⟩,
    gain_addFunction ?_ ?_ hbc⟩
  · rw [← henv.get?, hsig]
  · rwa [← henv.options]
  · exact (lowersStmts_of_returns body hns).extends.functions
  · exact (lowersStmts_of_returns body hms).extends.functions

/-- What else a function does to the session. -/
structure Session.Adds (names : List String) (s s' : Session) : Prop where
  declared : s'.declared = s.declared
  nextLabel : s.nextLabel ≤ s'.nextLabel
  promoted : ∀ g, g ∈ s'.promoted ↔ g ∈ s.promoted ∨ g ∈ names

lemma adds_lowerFunction (h : Returns (lowerFunction env header body span) s u s') :
    s.Adds (globalNamesAll body) s' := by
  obtain ⟨sig, ns, b, -, -, hns, rfl⟩ := returns_lowerFunction_iff.mp h
  have hlowers := lowersStmts_of_returns body hns
  exact ⟨hlowers.extends.declared, hlowers.extends.nextLabel, hlowers.opens.promoted⟩

/-! ### Sessions that go on alike -/

/-- The sessions have the same declarations, label numbers and names of globals. -/
structure Session.Like (s t : Session) : Prop extends Session.Shifted 0 s t where
  promoted : ∀ g, g ∈ t.promoted ↔ g ∈ s.promoted

lemma shifts_id : Shifts 0 (id : Label → Label) := fun _ _ => rfl

lemma Unwritten.like {targets : List Expr} (h : Unwritten targets s) (hst : s.Like t) :
    Unwritten targets t := by
  have hnone (s : Session) (name : String) :
      s.module.global? name = none ↔ name ∉ s.promoted := by
    simp [Ir.Module.global?, Session.promoted]
  intro e he name hname
  rw [hnone, hst.promoted, ← hnone]
  exact h e he name hname

lemma declareGlobal_returns {target annot e : Expr} {name : String} {k : NumKind} {init : Literal}
    (hty : Signature.resolve env.signatures.aliases annot = .ok (.num k))
    (hname : target.name? = some name) (hnew : s.declared.lookup name = none)
    (hinit : constantOf? k e = some init) :
    Returns (declareGlobal env target annot (some e) span) s () (s.declare name ⟨k, init⟩) := by
  have hnot : ∀ x, (name, x) ∉ s.declared := by
    intro x hx
    simpa using List.lookup_eq_none_iff.mp hnew _ hx
  simpa [declareGlobal, hty, hname, hinit, Ty.kind?, noteModule, Session.declare] using hnot

/-- Both sessions get the same functions. -/
def Session.SameGain (s t s' t' : Session) : Prop :=
  s'.Like t' ∧ ∃ fs, s'.module.functions = s.module.functions ++ fs ∧
    t'.module.functions = t.module.functions ++ fs

lemma Session.Like.sameGain (h : s.Like t) : s.SameGain t s t :=
  ⟨h, [], (List.append_nil _).symm, (List.append_nil _).symm⟩

/-- A statement at the top level does the same to sessions that are alike. -/
lemma lowerTopLevel_like {stmt : Stmt} (henv : env.Alike env') (hst : s.Like t)
    (h : Returns (lowerTopLevel env stmt) s u s') :
    ∃ t', Returns (lowerTopLevel env' stmt) t () t' ∧ s.SameGain t s' t' := by
  cases returns_lowerTopLevel h with
  | @function span header body sig _ ns b hm _ _ _ =>
    have hm' : env'.signatures.aliases.isMarked header.decorators = true := by rwa [henv.aliases]
    rw [lowerTopLevel, if_pos hm] at h
    obtain ⟨t', ht, hshift, f, hs, ht'⟩ := lowerFunction_up henv shifts_id hst.toShifted h
    refine ⟨t', ?_, ⟨hshift, fun g => ?_⟩, [f], hs, ?_⟩
    · rwa [lowerTopLevel, if_pos hm']
    · rw [(adds_lowerFunction ht).promoted, (adds_lowerFunction h).promoted, hst.promoted]
    · rw [ht', f.relabel_id]
  | unmarked hm =>
    refine ⟨t, ?_, hst.sameGain⟩
    simp [lowerTopLevel, henv.aliases, hm]
  | @declare span target annot e name k init _ hty hname hnew hinit =>
    refine ⟨t.declare name ⟨k, init⟩, ?_, ⟨⟨?_, hst.nextLabel⟩, hst.promoted⟩, [], ?_, ?_⟩
    · exact declareGlobal_returns (by rwa [henv.aliases]) hname (by rwa [hst.declared]) hinit
    · simp [Session.declare, hst.declared]
    · exact (List.append_nil _).symm
    · exact (List.append_nil _).symm
  | foreign herror =>
    refine ⟨t, ?_, hst.sameGain⟩
    simp [lowerTopLevel, declareGlobal, henv.aliases, herror]
  | assign hw => exact ⟨t, returns_checkWrites.mpr ⟨hw.like hst, rfl⟩, hst.sameGain⟩
  | augAssign hw => exact ⟨t, returns_checkWrite.mpr ⟨hw.like hst, rfl⟩, hst.sameGain⟩
  | other hform =>
    refine ⟨t, ?_, hst.sameGain⟩
    cases stmt
    case funcDef | annAssign | assign | augAssign => exact absurd trivial hform
    all_goals simp [lowerTopLevel]

lemma lowerAll_like (henv : env.Alike env') : ∀ {body : List Stmt} {s t : Session}, s.Like t →
    Returns (lowerAll env body) s u s' →
    ∃ t', Returns (lowerAll env' body) t () t' ∧ s.SameGain t s' t'
  | [], s, t, hst, h => by
    simp [lowerAll] at h
    subst h
    exact ⟨t, by simp [lowerAll], hst.sameGain⟩
  | stmt :: rest, s, t, hst, h => by
    simp only [lowerAll, Returns.bind_iff] at h
    obtain ⟨_, s₁, hstmt, hrest⟩ := h
    obtain ⟨t₁, ht₁, hst₁, fs, hs₁, hfs⟩ := lowerTopLevel_like henv hst hstmt
    obtain ⟨t', ht', hst', gs, hs', hgs⟩ := lowerAll_like henv hst₁ hrest
    refine ⟨t', ?_, hst', fs ++ gs, ?_, ?_⟩
    · rw [lowerAll, Returns.bind_iff]
      exact ⟨(), t₁, ht₁, ht'⟩
    · rw [hs', hs₁, List.append_assoc]
    · rw [hgs, hfs, List.append_assoc]

lemma returns_lowerAll_append {xs ys : List Stmt} :
    Returns (lowerAll env (xs ++ ys)) s u s' ↔
      ∃ s₁, Returns (lowerAll env xs) s () s₁ ∧ Returns (lowerAll env ys) s₁ () s' := by
  induction xs generalizing s with
  | nil => simp [lowerAll]
  | cons x xs ih =>
    simp only [List.cons_append, lowerAll, Returns.bind_iff, ih]
    constructor
    · rintro ⟨_, s₀, hx, s₁, hxs, hys⟩
      exact ⟨s₁, ⟨(), s₀, hx, hxs⟩, hys⟩
    · rintro ⟨s₁, ⟨_, s₀, hx, hxs⟩, hys⟩
      exact ⟨(), s₀, hx, s₁, hxs, hys⟩

/-! ### Label numbers of functions -/

/-- The session gets functions whose labels have the numbers used up meanwhile. -/
def Session.Grown (s s' : Session) : Prop :=
  s.nextLabel ≤ s'.nextLabel ∧ ∃ fs, s'.module.functions = s.module.functions ++ fs ∧
    ∀ f ∈ fs, f.LabelledIn s.nextLabel s'.nextLabel

lemma Session.Grown.refl (s : Session) : s.Grown s := ⟨le_rfl, [], by simp, nofun⟩

lemma Session.Grown.trans {s₁ : Session} (h : s.Grown s₁) (h' : s₁.Grown s') : s.Grown s' := by
  obtain ⟨hle, fs, hfs, hlabels⟩ := h
  obtain ⟨hle', gs, hgs, hlabels'⟩ := h'
  refine ⟨hle.trans hle', fs ++ gs, by rw [hgs, hfs, List.append_assoc], fun f hf => ?_⟩
  rcases List.mem_append.mp hf with hf | hf
  · exact (hlabels f hf).mono le_rfl hle'
  · exact (hlabels' f hf).mono hle le_rfl

lemma LowersTop.grown {stmt : Stmt} (h : LowersTop env stmt s s') : s.Grown s' := by
  cases h with
  | @function _ header _ sig _ ns b _ _ _ hns =>
    refine ⟨hns.extends.nextLabel, [b.frame.finish ns], ?_, List.forall_mem_singleton.mpr ?_⟩
    · have hfunctions : b.session.module.functions = s.module.functions := hns.extends.functions
      rw [← hfunctions]
      rfl
    · refine ⟨fun l hl => ?_, hns.branchesIn ⟨nofun, nofun⟩⟩
      rw [Ir.Function.labels_eq] at hl
      exact hns.newLabels.numbered l hl
  | declare | unmarked | foreign | assign | augAssign | other =>
    exact ⟨le_rfl, [], (List.append_nil _).symm, nofun⟩

lemma LowersAll.grown {body : List Stmt} (h : LowersAll env body s s') : s.Grown s' := by
  induction h with
  | nil => exact .refl _
  | cons hstmt _ ih => exact hstmt.grown.trans ih

/-! ### Neighbouring functions -/

/-- Two functions that are lowered one after the other can be lowered in the other order. -/
lemma lowerFunction_swap {s₁ s₂ : Session} {header' : FuncHeader} {body' : List Stmt} {span' : Span}
    (henv : env.Alike env') (hst : s.Like t)
    (hm : env.signatures.aliases.isMarked header.decorators = true)
    (hm' : env.signatures.aliases.isMarked header'.decorators = true)
    (h : Returns (lowerFunction env header body span) s u s₁)
    (h' : Returns (lowerFunction env header' body' span') s₁ u s₂) :
    ∃ t₁ t₂ f g, Returns (lowerFunction env' header' body' span') t () t₁ ∧
      Returns (lowerFunction env' header body span) t₁ () t₂ ∧ s₂.Like t₂ ∧
      s₂.module.functions = s.module.functions ++ [f, g] ∧
      t₂.module.functions = t.module.functions ++ [g, f].map (Ir.Function.relabel (Ir.renumber
        (exchange s.nextLabel (s₁.nextLabel - s.nextLabel) (s₂.nextLabel - s₁.nextLabel)))) := by
  have hadds := adds_lowerFunction h
  have hadds' := adds_lowerFunction h'
  have hle := hadds.nextLabel
  have hle' := hadds'.nextLabel
  have hnext : t.nextLabel = s.nextLabel := hst.nextLabel
  set a := s₁.nextLabel - s.nextLabel with ha
  set b := s₂.nextLabel - s₁.nextLabel with hb
  have hshifts (d : Nat) : Shifts d (Ir.renumber (· + d)) := renumber_label (· + d)
  -- the second function with lower numbers
  have hdown : t.Shifted a s₁ := ⟨by rw [hadds.declared, hst.declared], by omega⟩
  obtain ⟨t₁, ht₁, hshift₁, g, htg, hsg⟩ := lowerFunction_down henv.symm (hshifts a) hdown h'
  have haddt := adds_lowerFunction ht₁
  have hnext₁ : s₂.nextLabel = t₁.nextLabel + a := hshift₁.nextLabel
  -- the first function with higher numbers
  have hup : s.Shifted b t₁ := ⟨by rw [haddt.declared, hst.declared], by omega⟩
  obtain ⟨t₂, ht₂, hshift₂, f, hsf, htf⟩ := lowerFunction_up henv (hshifts b) hup h
  have haddt' := adds_lowerFunction ht₂
  have hnext₂ : t₂.nextLabel = s₁.nextLabel + b := hshift₂.nextLabel
  refine ⟨t₁, t₂, f, g.relabel (Ir.renumber (· + a)), ht₁, ht₂, ⟨⟨?_, by omega⟩, fun x => ?_⟩,
    ?_, ?_⟩
  · rw [haddt'.declared, haddt.declared, hadds'.declared, hadds.declared, hst.declared]
  · rw [haddt'.promoted, haddt.promoted, hadds'.promoted, hadds.promoted, hst.promoted]
    tauto
  · rw [hsg, hsf, List.append_assoc]
    rfl
  · have hf : f.LabelledIn s.nextLabel s₁.nextLabel := by
      obtain ⟨-, fs, hfs, hlabels⟩ := (returns_lowerFunction hm h).grown
      have heq := List.append_cancel_left (hsf.symm.trans hfs)
      exact hlabels f (heq ▸ List.mem_singleton_self f)
    have hg : g.LabelledIn t.nextLabel t₁.nextLabel := by
      obtain ⟨-, gs, hgs, hlabels⟩ :=
        (returns_lowerFunction (by rwa [henv.aliases]) ht₁ : LowersTop env' _ _ _).grown
      have heq := List.append_cancel_left (htg.symm.trans hgs)
      exact hlabels g (heq ▸ List.mem_singleton_self g)
    have hrelabel : f.relabel (Ir.renumber (· + b)) =
        f.relabel (Ir.renumber (exchange s.nextLabel a b)) := by
      refine Ir.Function.relabel_congr hf fun k i hlo hhi => ?_
      rw [renumber_label, renumber_label, exchange_first hlo (by omega)]
    have hrelabel' : (g.relabel (Ir.renumber (· + a))).relabel
        (Ir.renumber (exchange s.nextLabel a b)) = g := by
      rw [Ir.Function.relabel_relabel]
      refine Ir.Function.relabel_eq_self hg fun k i hlo hhi => ?_
      rw [Function.comp_apply, renumber_label, renumber_label,
        exchange_second (by omega) (by omega)]
    rw [htf, htg, List.append_assoc, hrelabel, List.map_cons, List.map_cons, hrelabel']
    rfl

lemma Session.Grown.labelled {fs : List Ir.Function} (h : s.Grown s')
    (hfs : s'.module.functions = s.module.functions ++ fs) :
    ∀ f ∈ fs, f.LabelledIn s.nextLabel s'.nextLabel := by
  obtain ⟨-, gs, hgs, hin⟩ := h
  rw [hfs] at hgs
  rwa [List.append_cancel_left hgs]

/-- Functions numbered outside both ranges keep their labels. -/
lemma map_relabel_exchange {fs : List Ir.Function} {lo hi n a b : Nat}
    (hfs : ∀ f ∈ fs, f.LabelledIn lo hi) (hout : hi ≤ n ∨ n + a + b ≤ lo) :
    fs.map (Ir.Function.relabel (Ir.renumber (exchange n a b))) = fs := by
  refine (List.map_congr_left fun f hf => ?_).trans fs.map_id
  refine Ir.Function.relabel_eq_self (hfs f hf) fun k i hlo hhi => ?_
  rw [renumber_label, exchange_other (by omega)]

/-- **Neighbouring definitions** among statements can be lowered in the other order: their functions
are exchanged and all label numbers renamed. -/
lemma lowerAll_swap {before after : List Stmt} {p q : Span} {f g : FuncHeader} {fs gs : List Stmt}
    (henv : env.Alike env') (hst : s.Like t)
    (hf : env.signatures.aliases.isMarked f.decorators = true)
    (hg : env.signatures.aliases.isMarked g.decorators = true)
    (h : Returns (lowerAll env (before ++ .funcDef p f fs :: .funcDef q g gs :: after)) s u s') :
    ∃ s₀ t' earlier x y later, ∃ π : Equiv.Perm Nat,
      Returns (lowerAll env before) s () s₀ ∧
      Returns (lowerAll env' (before ++ .funcDef q g gs :: .funcDef p f fs :: after)) t () t' ∧
      s₀.module.functions = s.module.functions ++ earlier ∧
      s'.module.functions = s.module.functions ++ (earlier ++ x :: y :: later) ∧
      t'.module.functions = t.module.functions ++
        (earlier ++ y :: x :: later).map (Ir.Function.relabel (Ir.renumber π)) := by
  have hf' : env'.signatures.aliases.isMarked f.decorators = true := by rwa [henv.aliases]
  have hg' : env'.signatures.aliases.isMarked g.decorators = true := by rwa [henv.aliases]
  obtain ⟨s₀, hbefore, hrest⟩ := returns_lowerAll_append.mp h
  simp only [lowerAll, lowerTopLevel, Returns.bind_iff, if_pos hf, if_pos hg] at hrest
  obtain ⟨_, s₁, hfun, _, s₂, hfun', hafter⟩ := hrest
  -- before and after the two definitions the runs are alike
  obtain ⟨t₀, hbefore', hlike₀, earlier, hs₀, ht₀⟩ := lowerAll_like henv hst hbefore
  obtain ⟨t₁, t₂, x, y, hswap, hswap', hlike₂, hs₂, ht₂⟩ :=
    lowerFunction_swap henv hlike₀ hf hg hfun hfun'
  obtain ⟨t', hafter', -, later, hs', ht'⟩ := lowerAll_like henv hlike₂ hafter
  set π := exchange s₀.nextLabel (s₁.nextLabel - s₀.nextLabel) (s₂.nextLabel - s₁.nextLabel)
  refine ⟨s₀, t', earlier, x, y, later, π, hbefore, ?_, hs₀, ?_, ?_⟩
  · refine returns_lowerAll_append.mpr ⟨t₀, hbefore', ?_⟩
    simp only [lowerAll, lowerTopLevel, Returns.bind_iff, if_pos hf', if_pos hg']
    exact ⟨(), t₁, hswap, (), t₂, hswap', hafter'⟩
  · rw [hs', hs₂, hs₀]
    simp
  · have hle := (adds_lowerFunction hfun).nextLabel
    have hle' := (adds_lowerFunction hfun').nextLabel
    have hearlier : earlier.map (Ir.Function.relabel (Ir.renumber π)) = earlier :=
      map_relabel_exchange ((returns_lowerAll hbefore).grown.labelled hs₀) (.inl le_rfl)
    have hlater : later.map (Ir.Function.relabel (Ir.renumber π)) = later :=
      map_relabel_exchange ((returns_lowerAll hafter).grown.labelled hs') (.inr (by omega))
    have hsplit : earlier ++ y :: x :: later = earlier ++ ([y, x] ++ later) := rfl
    rw [ht', ht₂, ht₀, hsplit, List.map_append, List.map_append, hearlier, hlater]
    simp only [List.append_assoc]

/-! ### Globals -/

variable {known : Aliases} {body' : List Stmt}

lemma lists_perm (h : body.Perm body') (g : String) : Lists known body g ↔ Lists known body' g := by
  have hdefs : (markedDefs known body).Perm (markedDefs known body') := h.filterMap _
  simp only [Lists, hdefs.mem_iff]

/-- A statement declares a name in one way only. -/
lemma Declares.unique {stmt : Stmt} {name : String} {d d' : Declared}
    (h : Declares known name d stmt) (h' : Declares known name d' stmt) : d = d' := by
  unfold Declares at h h'
  split at h
  · obtain ⟨-, hty, hinit⟩ := h
    obtain ⟨-, hty', hinit'⟩ := h'
    have hkind : d.kind = d'.kind := by simpa using hty.symm.trans hty'
    rw [hkind, hinit'] at hinit
    obtain ⟨k, l⟩ := d
    obtain ⟨k', l'⟩ := d'
    simp_all
  · cases h

/-- Where the statements are the same, a global is the same. -/
lemma mem_globals_of_perm (hs : s.Follows known body) (ht : t.Follows known body')
    (hperm : body.Perm body') {x : Ir.Global} (hx : x ∈ s.module.globals) :
    x ∈ t.module.globals := by
  have hname : x.name ∈ t.promoted := by
    rw [ht.defined.promoted, ← lists_perm hperm, ← hs.defined.promoted]
    exact List.mem_map_of_mem hx
  obtain ⟨y, hy, hyx⟩ := List.mem_map.mp hname
  obtain ⟨hmutable, -, before, stmt, after, rfl, hdecl, -, honce⟩ := hs.declaredOnce hx
  obtain ⟨hmutable', -, before', stmt', after', rfl, hdecl', -⟩ := ht.declaredOnce hy
  have hmem : stmt' ∈ before ++ stmt :: after :=
    hperm.mem_iff.mpr (List.mem_append_right _ List.mem_cons_self)
  have hsame : stmt' = stmt := by
    by_contra hne
    have hother : stmt' ∈ before ++ after := by simpa [hne] using hmem
    exact honce stmt' hother (hyx ▸ hdecl'.declaredName?_eq)
  subst hsame
  rw [hyx] at hdecl'
  have hd := hdecl.unique hdecl'
  obtain ⟨name, kind, isMutable, init⟩ := x
  obtain ⟨name', kind', isMutable', init'⟩ := y
  simp_all

lemma perm_globals (hs : s.Follows known body) (ht : t.Follows known body')
    (hperm : body.Perm body') : s.module.globals.Perm t.module.globals := by
  have hnodup (s : Session) (h : s.promoted.Nodup) : s.module.globals.Nodup := .of_map _ h
  refine (List.perm_ext_iff_of_nodup (hnodup s hs.defined.distinct)
    (hnodup t ht.defined.distinct)).mpr fun x => ?_
  exact ⟨mem_globals_of_perm hs ht hperm, mem_globals_of_perm ht hs hperm.symm⟩

end Lowering

/-! ### Modules -/

/-- The second module has the functions of the first with those at a place and after it exchanged
and label numbers renamed, and the same globals in some order. -/
structure Ir.Module.Exchanged (place : Nat) (π : Equiv.Perm Nat) (m m' : Module) : Prop where
  functions : ∃ fs f g hs, fs.length = place ∧ m.functions = fs ++ f :: g :: hs ∧
    m'.functions = (fs ++ g :: f :: hs).map (Function.relabel (renumber π))
  globals : m.globals.Perm m'.globals

open Lowering Signature

variable {options : Options} {before after : List Stmt} {p q : Span} {f g : FuncHeader}
  {fs gs : List Stmt} {log : List Event}

lemma knownAfter_swap : knownAfter {} (before ++ .funcDef q g gs :: .funcDef p f fs :: after) =
    knownAfter {} (before ++ .funcDef p f fs :: .funcDef q g gs :: after) := by
  simp [knownAfter, List.foldl_append, Aliases.record]

lemma lower_exchanged {log' : List Event} {ir : Ir.Module}
    (hf : (knownAfter {} (before ++ .funcDef p f fs :: .funcDef q g gs :: after)).isMarked
      f.decorators)
    (hg : (knownAfter {} (before ++ .funcDef p f fs :: .funcDef q g gs :: after)).isMarked
      g.decorators)
    (h : Returns (lower options ⟨before ++ .funcDef p f fs :: .funcDef q g gs :: after⟩) log ir
      log') :
    ∃ ir' log' π,
      Returns (lower options ⟨before ++ .funcDef q g gs :: .funcDef p f fs :: after⟩) log ir' log' ∧
        ir.Exchanged (markedDefs (knownAfter {} (before ++ .funcDef p f fs :: .funcDef q g gs ::
          after)) before).length π ir' := by
  obtain ⟨sigs, log₁, s, hsigs, hrun, rfl, rfl⟩ := returns_lower_iff.mp h
  have hknown := (returns_collectFrom hsigs List.nodup_nil).1
  obtain ⟨sigs', hcollects, halike⟩ := (collectsAll_of_returns hsigs).swap
  obtain ⟨log₂, hsigs'⟩ := hcollects.returns log
  have henv : Env.Alike ⟨options, sigs⟩ ⟨options, sigs'⟩ := ⟨rfl, halike.aliases, halike.get?⟩
  rw [← hknown] at hf hg
  have hstart : Session.Like ⟨{}, [], 0, log₁⟩ ⟨{}, [], 0, log₂⟩ := ⟨⟨rfl, rfl⟩, fun _ => Iff.rfl⟩
  obtain ⟨s₀, t, earlier, x, y, later, π, hbefore, hrun', hs₀, hs, ht⟩ :=
    lowerAll_swap henv hstart hf hg hrun
  refine ⟨t.module, t.log, π, returns_lower_iff.mpr ⟨sigs', log₂, t, hsigs', hrun', rfl, rfl⟩,
    ⟨earlier, x, y, later, ?_, hs, ht⟩, ?_⟩
  · have hfollows := (returns_lowerAll hbefore).follows (.start _ log₁)
    have hlength := hfollows.defined.functions.length_eq
    rw [hs₀] at hlength
    rw [← hknown]
    exact hlength.symm
  · have hfollows := (returns_lowerAll hrun).follows (.start _ log₁)
    have hfollows' := (returns_lowerAll hrun').follows (.start _ log₂)
    rw [halike.aliases] at hfollows'
    have hperm := List.Perm.append_left before
      (.swap (.funcDef q g gs) (.funcDef p f fs) after : List.Perm (_ :: _ :: _) _)
    exact perm_globals hfollows hfollows' hperm

/-- **The order of definitions** does not matter. Where two neighbouring definitions that are
compiled are exchanged, both modules are lowered or neither is. The functions of the one are those
of the other with these two exchanged, up to a renaming of label numbers that is one-to-one, and the
globals are the same. -/
theorem lower_order_irrelevant (options : Options) (before : List Stmt) (p : Span) (f : FuncHeader)
    (fs : List Stmt) (q : Span) (g : FuncHeader) (gs after : List Stmt) (log : List Event)
    (hf : (knownAfter {} (before ++ .funcDef p f fs :: .funcDef q g gs :: after)).isMarked
      f.decorators)
    (hg : (knownAfter {} (before ++ .funcDef p f fs :: .funcDef q g gs :: after)).isMarked
      g.decorators) :
    ((∃ ir log', Returns (lower options
        ⟨before ++ .funcDef p f fs :: .funcDef q g gs :: after⟩) log ir log') ↔
      ∃ ir log', Returns (lower options
        ⟨before ++ .funcDef q g gs :: .funcDef p f fs :: after⟩) log ir log') ∧
    ∀ ir ir' log₁ log₂,
      Returns (lower options ⟨before ++ .funcDef p f fs :: .funcDef q g gs :: after⟩) log ir log₁ →
      Returns (lower options ⟨before ++ .funcDef q g gs :: .funcDef p f fs :: after⟩) log ir' log₂ →
      ∃ π, ir.Exchanged (markedDefs (knownAfter {} (before ++ .funcDef p f fs ::
        .funcDef q g gs :: after)) before).length π ir' := by
  refine ⟨⟨?_, ?_⟩, ?_⟩
  · rintro ⟨ir, log', h⟩
    obtain ⟨ir', log₂, -, h', -⟩ := lower_exchanged hf hg h
    exact ⟨ir', log₂, h'⟩
  · rintro ⟨ir', log', h'⟩
    rw [← knownAfter_swap] at hf hg
    obtain ⟨ir, log₁, -, h, -⟩ := lower_exchanged hg hf h'
    exact ⟨ir, log₁, h⟩
  · intro ir ir' log₁ log₂ h h'
    obtain ⟨ir'', log'', π, h'', hexchanged⟩ := lower_exchanged hf hg h
    obtain ⟨hir, -⟩ := Prod.mk.inj (h'.symm.trans h'')
    cases hir
    exact ⟨π, hexchanged⟩

/-- The head of a function from a counter to an integer. -/
def ringHeader (name : String) : FuncHeader :=
  let p : Span := ⟨0, 0⟩
  ⟨name, [.mk "n" p (some (.name p "i32")) none], some (.name p "i32"), [.name p "wasmfunc"]⟩

/-- A body that counts in a global and hands its counter on, in a loop. -/
def ringBody (callee : String) : List Stmt :=
  let p : Span := ⟨0, 0⟩
  [.global p ["turns"],
    .whileLoop p (.name p "n") [
      .augAssign p (.name p "turns") .add (.number p "1"),
      .augAssign p (.name p "n") .sub (.number p "1"),
      .expr p (.call p (.name p callee) [.name p "n"] [])] [],
    .ret p (some (.name p "turns"))]

def ringBefore : List Stmt :=
  let p : Span := ⟨0, 0⟩
  [.importNames p ["wasmfunc"] [("wasmfunc", none), ("i32", none)],
    .annAssign p (.name p "turns") (.name p "i32") (some (.number p "7")),
    .funcDef p (ringHeader "start") (ringBody "ping")]

/-- Two functions that call each other are exchanged, with a function that calls one of them
before. -/
theorem lower_order_irrelevant_ring : ∃ ir ir' log log' π,
    Returns (lower {} ⟨ringBefore ++ .funcDef ⟨0, 0⟩ (ringHeader "ping") (ringBody "pong") ::
      .funcDef ⟨0, 0⟩ (ringHeader "pong") (ringBody "ping") :: []⟩) [] ir log ∧
    Returns (lower {} ⟨ringBefore ++ .funcDef ⟨0, 0⟩ (ringHeader "pong") (ringBody "ping") ::
      .funcDef ⟨0, 0⟩ (ringHeader "ping") (ringBody "pong") :: []⟩) [] ir' log' ∧
    ir.functions.map (·.name) = ["start", "ping", "pong"] ∧ ir.globals.map (·.name) = ["turns"] ∧
      ir.Exchanged 1 π ir' := by
  have hrun : ((lower {} ⟨ringBefore ++ .funcDef ⟨0, 0⟩ (ringHeader "ping") (ringBody "pong") ::
      .funcDef ⟨0, 0⟩ (ringHeader "pong") (ringBody "ping") :: []⟩).run.run []).1.toOption.map
        (fun ir => (ir.functions.map (·.name), ir.globals.map (·.name))) =
      some (["start", "ping", "pong"], ["turns"]) := by decide +kernel
  obtain ⟨ir, hir, heq⟩ := Option.map_eq_some_iff.mp hrun
  obtain ⟨hnames, hglobals⟩ := Prod.mk.inj heq
  have h := Returns.of_toOption hir
  obtain ⟨hiff, hexchanged⟩ := lower_order_irrelevant {} ringBefore ⟨0, 0⟩ (ringHeader "ping")
    (ringBody "pong") ⟨0, 0⟩ (ringHeader "pong") (ringBody "ping") [] [] rfl rfl
  obtain ⟨ir', log', h'⟩ := hiff.mp ⟨ir, _, h⟩
  obtain ⟨π, hπ⟩ := hexchanged _ _ _ _ h h'
  exact ⟨ir, ir', _, log', π, h, h', hnames, hglobals, hπ⟩

end AnnotatedWasm
