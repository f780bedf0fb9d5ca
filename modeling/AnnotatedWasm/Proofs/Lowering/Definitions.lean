import AnnotatedWasm.Proofs.Lowering.Soundness

/-!
Which definitions of a source are compiled, and under which signatures.

Signatures are recorded for the definitions that are marked by the names known where they stand.
Functions are compiled for the definitions that are marked by the names known at the end of the
source. The two agree if no later import changes whether a definition is marked.
-/

namespace AnnotatedWasm

open Syntax (Stmt FuncHeader)

namespace Signature

/-- A definition at the top level, with the names that are known where it stands. -/
structure Definition where
  known : Aliases
  header : FuncHeader

/-- The definitions among statements, in order. -/
def definitionsFrom (known : Aliases) : List Stmt → List Definition
  | [] => []
  | .funcDef _ header _ :: rest => ⟨known, header⟩ :: definitionsFrom known rest
  | stmt :: rest => definitionsFrom (known.record stmt) rest

/-- The names known after statements. -/
def knownAfter (known : Aliases) (body : List Stmt) : Aliases := body.foldl Aliases.record known

/-- The definition is marked by these names. -/
def Definition.markedBy (d : Definition) (known : Aliases) : Bool :=
  known.isMarked d.header.decorators

/-- The definitions of a source that are marked where they stand. -/
def recorded (m : Syntax.Module) : List Definition :=
  (definitionsFrom {} m.body).filter fun d => d.markedBy d.known

/-- The definitions of a source that are marked at its end. -/
def compiled (m : Syntax.Module) : List Definition :=
  (definitionsFrom {} m.body).filter (·.markedBy (knownAfter {} m.body))

/-- No definition is marked where it stands but not at the end, or the other way round. -/
def Steady (m : Syntax.Module) : Prop :=
  ∀ d ∈ definitionsFrom {} m.body, d.markedBy d.known = d.markedBy (knownAfter {} m.body)

instance (m : Syntax.Module) : Decidable (Steady m) :=
  inferInstanceAs (Decidable (∀ d ∈ definitionsFrom {} m.body, _))

lemma Steady.recorded_eq {m : Syntax.Module} (h : Steady m) : recorded m = compiled m :=
  List.filter_congr h

/-! ### Recorded signatures -/

/-- What is recorded is the signature of the definition. -/
def Definition.Signed (d : Definition) (entry : String × FuncSig) : Prop :=
  entry.1 = d.header.name ∧ ofHeader d.known d.header = .ok entry.2

/-- What a statement adds to the signatures. -/
inductive Collects (s : Signatures) : Stmt → Signatures → Prop
  | signed {span header body sig} : s.aliases.isMarked header.decorators = true →
      s.get? header.name = none → ofHeader s.aliases header = .ok sig →
      Collects s (.funcDef span header body)
        { s with functions := s.functions ++ [(header.name, sig)] }
  | unmarked {span header body} : s.aliases.isMarked header.decorators = false →
      Collects s (.funcDef span header body) s
  | other {stmt} : (∀ span header body, stmt ≠ .funcDef span header body) →
      Collects s stmt { s with aliases := s.aliases.record stmt }

lemma returns_collectStmt {s s' : Signatures} {stmt : Stmt} {log log' : List Event}
    (h : Returns (collectStmt s stmt) log s' log') : Collects s stmt s' := by
  unfold collectStmt at h
  split at h
  · next span header body =>
    rcases hm : s.aliases.isMarked header.decorators with _ | _
    · simp [hm] at h
      rw [h.1]
      exact .unmarked hm
    · rcases hget : s.get? header.name with _ | _
      · rcases hsig : ofHeader s.aliases header with e | sig
        · simp [hm, hget, hsig, collectStmt.liftExcept] at h
        · simp [hm, hget, hsig, collectStmt.liftExcept, report] at h
          rw [h.2]
          exact .signed hm hget hsig
      · simp [hm, hget] at h
  · next hother =>
    simp at h
    rw [h.1]
    exact .other hother

lemma get?_eq_none_iff {s : Signatures} {name : String} :
    s.get? name = none ↔ name ∉ s.functions.map (·.1) := by
  rw [Signatures.get?, List.lookup_eq_none_iff]
  constructor
  · rintro h hmem
    obtain ⟨entry, hentry, rfl⟩ := List.mem_map.mp hmem
    simpa using h entry hentry
  · intro h entry hentry
    rw [bne_iff_ne]
    rintro rfl
    exact h (List.mem_map_of_mem hentry)

lemma returns_collectFrom {s' : Signatures} {log' : List Event} : ∀ {body : List Stmt}
    {s : Signatures} {log : List Event}, Returns (collectFrom s body) log s' log' →
    (s.functions.map (·.1)).Nodup →
    s'.aliases = knownAfter s.aliases body ∧ (s'.functions.map (·.1)).Nodup ∧
      ∃ entries, s'.functions = s.functions ++ entries ∧ List.Forall₂ Definition.Signed
        ((definitionsFrom s.aliases body).filter fun d => d.markedBy d.known) entries
  | [], s, log, h, hn => by
    simp [collectFrom] at h
    rw [h.1]
    exact ⟨rfl, hn, [], by simp, .nil⟩
  | stmt :: rest, s, log, h, hn => by
    simp only [collectFrom, Returns.bind_iff] at h
    obtain ⟨s₁, log₁, hstmt, hrest⟩ := h
    have hcollects := returns_collectStmt hstmt
    cases hcollects with
    | @signed span header body sig hm hget hsig =>
      have hn₁ : ((s.functions ++ [(header.name, sig)]).map (·.1)).Nodup := by
        rw [List.map_append, List.nodup_append]
        refine ⟨hn, List.nodup_singleton _, ?_⟩
        rintro name hname _ hnew rfl
        rw [List.mem_singleton.mp hnew] at hname
        exact get?_eq_none_iff.mp hget hname
      obtain ⟨haliases, hn', entries, hfun, hsigned⟩ := returns_collectFrom hrest hn₁
      refine ⟨haliases, hn', (header.name, sig) :: entries, by simp [hfun], ?_⟩
      have hmarked : Definition.markedBy ⟨s.aliases, header⟩ s.aliases = true := hm
      simp only [definitionsFrom, List.filter_cons, hmarked, if_true]
      exact .cons ⟨rfl, hsig⟩ hsigned
    | @unmarked span header body hm =>
      obtain ⟨haliases, hn', entries, hfun, hsigned⟩ := returns_collectFrom hrest hn
      refine ⟨haliases, hn', entries, hfun, ?_⟩
      have hmarked : Definition.markedBy ⟨s.aliases, header⟩ s.aliases = false := hm
      simp only [definitionsFrom, List.filter_cons, hmarked, Bool.false_eq_true, if_false]
      exact hsigned
    | other hother =>
      have hdefs : definitionsFrom s.aliases (stmt :: rest) =
          definitionsFrom (s.aliases.record stmt) rest := by
        cases stmt
        case funcDef => exact absurd rfl (hother _ _ _)
        all_goals rfl
      rw [hdefs]
      exact returns_collectFrom hrest hn

/-- Under each recorded name stands what was recorded with it. -/
lemma get?_of_mem {s : Signatures} (hn : (s.functions.map (·.1)).Nodup) {entry : String × FuncSig}
    (h : entry ∈ s.functions) : s.get? entry.1 = some entry.2 := by
  unfold Signatures.get?
  generalize s.functions = entries at hn h
  induction entries with
  | nil => cases h
  | cons e entries ih =>
    rw [List.map_cons, List.nodup_cons] at hn
    rcases List.mem_cons.mp h with rfl | h
    · exact List.lookup_cons_self
    · have hne : entry.1 ≠ e.1 := fun heq => hn.1 (heq ▸ List.mem_map_of_mem h)
      rw [List.lookup_cons, beq_false_of_ne hne]
      exact ih hn.2 h

lemma length_paramTypes {known : Aliases} : ∀ {ps : List Syntax.Param} {tys : List Ty},
    paramTypes known ps = .ok tys → tys.length = ps.length
  | [], tys, h => by
    cases h
    rfl
  | p :: ps, tys, h => by
    rw [paramTypes] at h
    rcases hp : paramType known p with _ | ty
    · simp [hp, bind, Except.bind] at h
    rcases hps : paramTypes known ps with _ | rest
    · simp [hp, hps, bind, Except.bind] at h
    simp [hp, hps, bind, Except.bind, pure, Except.pure] at h
    rw [← h, List.length_cons, length_paramTypes hps, List.length_cons]

/-- A signature has a type for each parameter. -/
lemma Definition.Signed.length_params {d : Definition} {entry : String × FuncSig}
    (h : d.Signed entry) : entry.2.params.length = d.header.params.length := by
  have hsig := h.2
  rw [ofHeader] at hsig
  rcases hps : paramTypes d.known d.header.params with _ | tys
  · simp [hps, bind, Except.bind] at hsig
  have hparams : entry.2.params = tys := by
    rcases hr : d.header.returns with _ | annot
    · simp [hps, hr, bind, Except.bind, pure, Except.pure] at hsig
      rw [← hsig]
    · rcases hty : resolve d.known annot with _ | ty
      · simp [hps, hr, hty, bind, Except.bind] at hsig
      · simp [hps, hr, hty, bind, Except.bind, pure, Except.pure] at hsig
        rw [← hsig]
  rw [hparams, length_paramTypes hps]

end Signature

/-! ### Compiled functions -/

namespace Lowering

open Signature

variable {env : Env} {s s' : Session}

/-- The function is compiled from the definition, under the signature that is recorded for its
name: parameters of the definition and of the signature are matched as far as both go. -/
def CompiledFrom (sigs : Signatures) (d : Definition) (f : Ir.Function) : Prop :=
  ∃ sig, sigs.get? d.header.name = some sig ∧ f.name = d.header.name ∧
    f.params = sig.params.take d.header.params.length ∧ f.result = sig.returns

lemma map_snd_zip_take {α β : Type} : ∀ (xs : List α) (ys : List β),
    (xs.zip ys).map (·.2) = ys.take xs.length
  | [], ys => by simp
  | _ :: _, [] => by simp
  | x :: xs, y :: ys => by simp [map_snd_zip_take xs ys]

/-- A statement adds a function if it is a definition that is marked, and none otherwise. -/
lemma LowersTop.functions {stmt : Stmt} (h : LowersTop env stmt s s') (known : Aliases) :
    ∃ fs, s'.module.functions = s.module.functions ++ fs ∧
      List.Forall₂ (CompiledFrom env.signatures)
        ((definitionsFrom known [stmt]).filter (·.markedBy env.signatures.aliases)) fs := by
  cases h with
  | @function span header body sig _ ns b hm hsig _ hns =>
    have hext := hns.extends
    refine ⟨[b.frame.finish ns], ?_, ?_⟩
    · show b.session.module.functions ++ _ = _
      rw [hext.functions]
    · have hmarked : Definition.markedBy ⟨known, header⟩ env.signatures.aliases = true := hm
      simp only [definitionsFrom, List.filter_cons, List.filter_nil, hmarked, if_true]
      refine .cons ⟨sig, hsig, hext.name, ?_, hext.returns⟩ .nil
      have hparams : b.frame.params =
          ((header.params.map Syntax.Param.name).zip sig.params).map (·.2) := hext.params
      rw [map_snd_zip_take, List.length_map] at hparams
      exact hparams
  | @unmarked span header body _ hm =>
    have hmarked : Definition.markedBy ⟨known, header⟩ env.signatures.aliases = false := hm
    simp only [definitionsFrom, List.filter_cons, hmarked, Bool.false_eq_true, if_false]
    exact ⟨[], by simp, .nil⟩
  | declare | foreign | assign | augAssign => exact ⟨[], by simp [Session.declare], .nil⟩
  | other hform =>
    cases stmt
    case funcDef => exact absurd trivial hform
    all_goals exact ⟨[], by simp, .nil⟩

lemma definitionsFrom_append (known : Aliases) : ∀ (body rest : List Stmt),
    definitionsFrom known (body ++ rest) =
      definitionsFrom known body ++ definitionsFrom (knownAfter known body) rest
  | [], rest => rfl
  | stmt :: body, rest => by
    have ih := fun known => definitionsFrom_append known body rest
    cases stmt
    case funcDef => exact congrArg (_ :: ·) (ih known)
    all_goals exact ih _

lemma LowersAll.functions {body : List Stmt} (h : LowersAll env body s s') (known : Aliases) :
    ∃ fs, s'.module.functions = s.module.functions ++ fs ∧
      List.Forall₂ (CompiledFrom env.signatures)
        ((definitionsFrom known body).filter (·.markedBy env.signatures.aliases)) fs := by
  induction h generalizing known with
  | nil => exact ⟨[], by simp, .nil⟩
  | @cons stmt rest _ _ _ hstmt _ ih =>
    obtain ⟨fs, hfs, hfrom⟩ := hstmt.functions known
    obtain ⟨gs, hgs, hrest⟩ := ih (knownAfter known [stmt])
    refine ⟨fs ++ gs, by rw [hgs, hfs, List.append_assoc], ?_⟩
    rw [← List.singleton_append, definitionsFrom_append, List.filter_append]
    exact List.rel_append hfrom hrest

end Lowering

/-! ### Both together -/

namespace Signature

/-- The function is that of the definition, under the definition's own signature, which is the one
recorded for its name. -/
def Definition.EmittedAs (sigs : Signatures) (d : Definition) (f : Ir.Function) : Prop :=
  ∃ sig, ofHeader d.known d.header = .ok sig ∧ sigs.get? d.header.name = some sig ∧
    f.name = d.header.name ∧ f.params = sig.params ∧ f.result = sig.returns

lemma exists_mem_of_forall₂ {α β : Type} {R : α → β → Prop} {xs : List α} {ys : List β}
    (h : List.Forall₂ R xs ys) : ∀ x ∈ xs, ∃ y ∈ ys, R x y := by
  induction h with
  | nil => exact nofun
  | cons hxy _ ih =>
    refine List.forall_mem_cons.mpr ⟨⟨_, List.mem_cons_self, hxy⟩, fun x hx => ?_⟩
    obtain ⟨y, hy, hr⟩ := ih x hx
    exact ⟨y, List.mem_cons_of_mem _ hy, hr⟩

/-- Definitions that are both recorded and compiled are compiled under their own signatures. -/
lemma emittedAs_of_compiledFrom {sigs : Signatures} (hn : (sigs.functions.map (·.1)).Nodup)
    {ds : List Definition} {fs : List Ir.Function}
    (hrec : List.Forall₂ Definition.Signed ds sigs.functions)
    (hcomp : List.Forall₂ (Lowering.CompiledFrom sigs) ds fs) :
    List.Forall₂ (Definition.EmittedAs sigs) ds fs := by
  have hboth := (List.forall₂_and_left ds fs).mpr ⟨exists_mem_of_forall₂ hrec, hcomp⟩
  refine hboth.imp ?_
  rintro d f ⟨⟨entry, hentry, hsigned⟩, sig, hsig, hname, hparams, hresult⟩
  have hget := get?_of_mem hn hentry
  rw [hsigned.1, hsig] at hget
  obtain rfl : sig = entry.2 := Option.some.inj hget
  rw [← hsigned.length_params, List.take_length] at hparams
  exact ⟨_, hsigned.2, hsig, hname, hparams, hresult⟩

end Signature

open Signature

/-- Calls name functions of the module, with arguments of the types of their parameters. -/
def Ir.Module.CallsOwn (m : Ir.Module) : Prop :=
  ∀ f ∈ m.functions, ∀ name args ty, .call name args ty ∈ f.subnodes →
    ∃ g ∈ m.functions, g.name = name ∧ g.params = args.map (·.ty) ∧ g.result = ty

/-- What has a signature is in the module when every recorded definition is. -/
lemma callsOwn_of_emitted {sigs : Signatures} {ds : List Definition} {ir : Ir.Module}
    (hrec : List.Forall₂ Definition.Signed ds sigs.functions)
    (hem : List.Forall₂ (Definition.EmittedAs sigs) ds ir.functions)
    (htyped : ∀ f ∈ ir.functions, f.Typed ir.globals sigs.get?) : ir.CallsOwn := by
  intro f hf name args ty hcall
  have hsig : sigs.get? name = some ⟨args.map (·.ty), ty⟩ := (htyped f hf).1 _ hcall
  have hmem : name ∈ sigs.functions.map (·.1) := by
    by_contra hnot
    rw [get?_eq_none_iff.mpr hnot] at hsig
    cases hsig
  obtain ⟨entry, hentry, rfl⟩ := List.mem_map.mp hmem
  obtain ⟨d, hd, hsigned⟩ := exists_mem_of_forall₂ hrec.flip entry hentry
  obtain ⟨g, hg, sig, -, hget, hname, hparams, hresult⟩ := exists_mem_of_forall₂ hem d hd
  rw [← hsigned.1, hsig] at hget
  cases hget
  exact ⟨g, hg, hname.trans hsigned.1.symm, hparams, hresult⟩

/-- **Compiled definitions**: signatures are recorded for the definitions that are marked where they
stand, and functions are compiled for those that are marked at the end, each time in source order.
Where these are the same, each function has the signature of its definition, and calls name
functions of the module. -/
theorem lower_marked_definitions (options : Options) (m : Syntax.Module) (log : List Event)
    (ir : Ir.Module) (log' : List Event) (h : Returns (lower options m) log ir log') :
    ∃ sigs log₁, Returns (collect m) log sigs log₁ ∧
      List.Forall₂ Definition.Signed (recorded m) sigs.functions ∧
      List.Forall₂ (Lowering.CompiledFrom sigs) (compiled m) ir.functions ∧
      (Steady m → List.Forall₂ (Definition.EmittedAs sigs) (recorded m) ir.functions ∧
        ir.CallsOwn) := by
  obtain ⟨sigs, log₁, s, hsigs, hall, rfl, -⟩ := returns_lower h
  obtain ⟨haliases, hn, entries, hentries, hrec⟩ := returns_collectFrom hsigs List.nodup_nil
  obtain rfl : sigs.functions = entries := hentries
  obtain ⟨fs, hfs, hcomp⟩ := hall.functions {}
  obtain rfl : s.module.functions = fs := hfs
  rw [haliases] at hcomp
  refine ⟨sigs, log₁, hsigs, hrec, hcomp, fun hsteady => ?_⟩
  have hem : List.Forall₂ (Definition.EmittedAs sigs) (recorded m) s.module.functions :=
    emittedAs_of_compiledFrom hn hrec (hsteady.recorded_eq ▸ hcomp)
  have htyped := (hall.sound ⟨nofun, nofun⟩).functions
  exact ⟨hem, callsOwn_of_emitted hrec hem htyped⟩

/-- A function that calls a later one, and an import between them by which the later one is
marked. -/
def forwardSource : Syntax.Module :=
  let p : Span := ⟨0, 0⟩
  { body := [
      .importNames p ["wasmfunc"] [("wasmfunc", none), ("i32", none)],
      .funcDef p ⟨"first", [.mk "n" p (some (.name p "i32")) none], some (.name p "i32"),
          [.name p "wasmfunc"]⟩
        [.ret p (some (.call p (.name p "second") [.name p "n"] []))],
      .importModule p ["wasmfunc"] (some "w"),
      .funcDef p ⟨"aside", [], none, []⟩ [.pass p],
      .funcDef p ⟨"second", [.mk "n" p (some (.attr p (.name p "w") "i32")) none],
          some (.name p "i32"), [.call p (.attr p (.name p "w") "wasmfunc") [] []]⟩
        [.ret p (some (.name p "n"))]] }

theorem lower_marked_definitions_forward : ∃ ir log' sigs log₁,
    Returns (lower {} forwardSource) [] ir log' ∧ Returns (collect forwardSource) [] sigs log₁ ∧
    ir.functions.map (fun f => (f.name, f.params, f.result)) =
      [("first", [.i32], .i32), ("second", [.i32], .i32)] ∧
    List.Forall₂ Definition.Signed (recorded forwardSource) sigs.functions ∧
    List.Forall₂ (Definition.EmittedAs sigs) (recorded forwardSource) ir.functions ∧
    ir.CallsOwn := by
  have hrun : ((lower {} forwardSource).run.run []).1.toOption.map
      (·.functions.map fun f => (f.name, f.params, f.result)) =
      some [("first", [.i32], .i32), ("second", [.i32], .i32)] := by decide +kernel
  obtain ⟨ir, hir, hfunctions⟩ := Option.map_eq_some_iff.mp hrun
  have h := Returns.of_toOption hir
  obtain ⟨sigs, log₁, hsigs, hrec, -, hsteady⟩ := lower_marked_definitions _ _ _ _ _ h
  obtain ⟨hem, hcalls⟩ := hsteady (by decide +kernel)
  exact ⟨ir, _, sigs, log₁, h, hsigs, hfunctions, hrec, hem, hcalls⟩

/-- The name of the marker stands for a type after the definition that it marks. -/
def reboundSource : Syntax.Module :=
  let p : Span := ⟨0, 0⟩
  { body := [
      .importNames p ["wasmfunc"] [("wasmfunc", none), ("i32", none)],
      .funcDef p ⟨"f", [], some (.name p "i32"), [.name p "wasmfunc"]⟩
        [.ret p (some (.number p "1"))],
      .importNames p ["wasmfunc"] [("i32", some "wasmfunc")]] }

/-- A definition whose mark is taken away later has a signature and no function. -/
theorem lower_drops_rebound : ∃ ir log' sigs log₁, Returns (lower {} reboundSource) [] ir log' ∧
    Returns (collect reboundSource) [] sigs log₁ ∧ ir.functions = [] ∧
    sigs.functions = [("f", ⟨[], .i32⟩)] := by
  have hrun : ((lower {} reboundSource).run.run []).1.toOption.map (·.functions.map (·.name)) =
      some [] := by decide +kernel
  have hcollect : ((collect reboundSource).run.run []).1.toOption.map (·.functions) =
      some [("f", ⟨[], .i32⟩)] := by decide +kernel
  obtain ⟨ir, hir, hfunctions⟩ := Option.map_eq_some_iff.mp hrun
  obtain ⟨sigs, hsigs, hentries⟩ := Option.map_eq_some_iff.mp hcollect
  exact ⟨ir, _, sigs, _, .of_toOption hir, .of_toOption hsigs, List.map_eq_nil_iff.mp hfunctions,
    hentries⟩

end AnnotatedWasm
