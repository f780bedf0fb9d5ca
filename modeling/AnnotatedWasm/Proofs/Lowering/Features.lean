import AnnotatedWasm.Proofs.Lowering.Gating
import AnnotatedWasm.Proofs.Wasm.Contents

/-!
What the switches turn off does not occur in compiled code.

The calls of a module that has a binary file are all to functions of it, and the signatures of
these have been looked at. So all types are allowed, and as code is well typed, a node that works
on arrays cannot be there without a value of such a type.
-/

namespace AnnotatedWasm

/-! ### What has been looked at -/

/-- All types and values of the function are allowed. -/
def Ir.Function.Allowed (o : Options) (f : Function) : Prop :=
  (∀ t ∈ f.params ++ f.locals ++ [f.result], o.Allows t) ∧ ∀ n ∈ f.body, n.Allowed o

namespace Lowering

open Syntax (Stmt)

variable {env : Env} {s s' : Session}

/-- The signature of the function has been looked at, and the rest of it as well but for the
results of its calls. -/
def Checked (env : Env) (f : Ir.Function) : Prop :=
  (∃ sig, env.signatures.get? f.name = some sig ∧ env.options.Allows sig.returns) ∧
    ((∀ n ∈ f.body, n.CallsAllowed env.options) → f.Allowed env.options)

lemma LowersTop.checked {stmt : Stmt} (h : LowersTop env stmt s s')
    (hs : ∀ f ∈ s.module.functions, Checked env f) : ∀ f ∈ s'.module.functions, Checked env f := by
  cases h with
  | @function _ header _ sig _ ns b _ hsig hallows hns =>
    obtain ⟨hparams, hreturns⟩ := List.forall_mem_append.mp hallows
    have hreturns := List.forall_mem_singleton.mp hreturns
    have hext := hns.extends
    have hstart : Body.Allowed env.options ⟨s, startFrame header sig⟩ := by
      intro t ht
      obtain ⟨⟨name, ty⟩, hmem, rfl⟩ := List.mem_map.mp (Frame.mem_types_start ht)
      exact hparams ty (List.of_mem_zip hmem).2
    intro f hf
    have hf : f ∈ b.session.module.functions ++ [b.frame.finish ns] := hf
    rw [hext.functions] at hf
    rcases List.mem_append.mp hf with hf | hf
    · exact hs f hf
    rw [List.mem_singleton.mp hf]
    refine ⟨⟨sig, ?_, hreturns⟩, fun hcalls => ?_⟩
    · have hname : b.frame.name = header.name := hext.name
      rwa [Frame.finish, hname]
    · obtain ⟨hnodes, hb⟩ := hns.allowed hstart hcalls
      refine ⟨List.forall_mem_append.mpr ⟨fun t ht => hb t ?_, ?_⟩, hnodes⟩
      · exact List.mem_append_left _ (List.mem_append_left _ ht)
      · have hresult : b.frame.returns = sig.returns := hext.returns
        rw [Frame.finish, hresult]
        exact List.forall_mem_singleton.mpr hreturns
  | declare _ _ _ _ | unmarked _ | foreign _ | assign _ | augAssign _ | other _ => exact hs

lemma LowersAll.checked {body : List Stmt} (h : LowersAll env body s s')
    (hs : ∀ f ∈ s.module.functions, Checked env f) : ∀ f ∈ s'.module.functions, Checked env f := by
  induction h with
  | nil => exact hs
  | cons h _ ih => exact ih (h.checked hs)

end Lowering

/-! ### What is absent -/

/-- The feature that values of a type need. -/
def Ty.feature? : Ty → Option Feature
  | array _ => some .arrays
  | str => some .strings
  | num _ | void => none

def Options.has (o : Options) : Feature → Bool
  | .arrays => o.gc
  | .strings => o.strings

lemma Options.Allows.has {o : Options} {t : Ty} (h : o.Allows t) : ∀ x ∈ t.feature?, o.has x := by
  cases t with
  | array k => simpa [Ty.feature?, Options.has] using h
  | str => simpa [Ty.feature?, Options.has] using h
  | num k => nofun
  | void => nofun

namespace Ir

/-- The feature that a node needs for what it does. -/
def Node.feature? : Node → Option Feature
  | string _ => some .strings
  | arrayNew .. | arrayNewFixed .. | arrayGet .. | arraySet .. | arrayLen .. => some .arrays
  | _ => none

/-- The feature occurs nowhere in the function. -/
structure Function.Without (x : Feature) (f : Function) : Prop where
  types : ∀ t ∈ f.params ++ f.locals ++ [f.result], t.feature? ≠ some x
  values : ∀ n ∈ f.subnodes, n.ty.feature? ≠ some x
  nodes : ∀ n ∈ f.subnodes, n.feature? ≠ some x

variable {o : Options} {Γ : Scope}

/-- A node that works on an array has an array below it, and one that makes a value is of its
type. -/
lemma Node.Allowed.has {n : Node} (h : n.Allowed o) (hfits : n.Fits Γ) :
    ∀ x ∈ n.feature?, o.has x := by
  have hself := h.ty.has
  have hchild := (allowed_iff.mp h).2
  cases n with
  | string s => exact hself
  | arrayNew k a b => exact hself
  | arrayNewFixed k ns => exact hself
  | arrayGet k a i =>
    have ha := (hchild a (by simp [children])).ty.has
    rwa [hfits.1] at ha
  | arraySet k a i v =>
    have ha := (hchild a (by simp [children])).ty.has
    rwa [hfits.1] at ha
  | arrayLen a =>
    have ha := (hchild a (by simp [children])).ty.has
    obtain ⟨k, hk⟩ := hfits
    rwa [hk] at ha
  | _ => nofun

lemma Node.Allowed.subnode (n : Node) (h : n.Allowed o) {m : Node} (hm : m ∈ n.subnodes) :
    m.Allowed o := by
  rw [subnodes_eq] at hm
  rcases List.mem_cons.mp hm with rfl | hm
  · exact h
  · obtain ⟨c, hc, hm⟩ := List.mem_flatMap.mp hm
    exact Allowed.subnode c ((allowed_iff.mp h).2 c hc) hm
termination_by n.subnodes.length
decreasing_by exact length_subnodes_lt hc

/-- What needs a feature that is off does not occur in well-typed code that is allowed. -/
lemma Function.Allowed.without {f : Function} {globals : List Global}
    {signature? : String → Option FuncSig} (h : f.Allowed o) (htyped : f.Typed globals signature?)
    {x : Feature} (hx : o.has x = false) : f.Without x := by
  have hon {y : Option Feature} (hy : ∀ z ∈ y, o.has z) : y ≠ some x := by
    rintro rfl
    simp [hx] at hy
  have hnode : ∀ n ∈ f.subnodes, n.Allowed o := by
    intro n hn
    rw [subnodes, Node.subnodesAll_eq] at hn
    obtain ⟨top, htop, hn⟩ := List.mem_flatMap.mp hn
    exact (h.2 top htop).subnode _ hn
  exact ⟨fun t ht => hon (h.1 t ht).has, fun n hn => hon (hnode n hn).ty.has,
    fun n hn => hon ((hnode n hn).has (htyped.1 n hn))⟩

/-! ### String constants -/

namespace Node

lemma textsAll_eq (ns : List Node) : textsAll ns = ns.flatMap texts := by
  induction ns with
  | nil => rfl
  | cons n ns ih => rw [textsAll, ih, List.flatMap_cons]

lemma textsOpt_eq (e : Option Node) : textsOpt e = e.toList.flatMap texts := by
  cases e <;> simp [textsOpt]

/-- A string constant is the node itself or stands in a node right below it. -/
lemma mem_texts {n : Node} {s : String} (h : s ∈ n.texts) :
    n = .string s ∨ ∃ c ∈ n.children, s ∈ c.texts := by
  cases n <;> simp [texts, children, textsAll_eq, textsOpt_eq] at h ⊢ <;> tauto

lemma string_mem_subnodes (n : Node) {s : String} (h : s ∈ n.texts) : .string s ∈ n.subnodes := by
  rw [subnodes_eq]
  rcases mem_texts h with rfl | ⟨c, hc, hs⟩
  · exact List.mem_cons_self
  · exact List.mem_cons_of_mem _ (List.mem_flatMap_of_mem hc (string_mem_subnodes c hs))
termination_by n.subnodes.length
decreasing_by exact length_subnodes_lt hc

end Node

lemma Module.texts_eq_nil {m : Module} (h : ∀ f ∈ m.functions, f.Without .strings) :
    m.texts = [] := by
  refine List.eq_nil_iff_forall_not_mem.mpr fun s hs => ?_
  obtain ⟨f, hf, hs⟩ := List.mem_flatMap.mp hs
  rw [Node.textsAll_eq] at hs
  obtain ⟨n, hn, hs⟩ := List.mem_flatMap.mp hs
  refine (h f hf).nodes (.string s) ?_ rfl
  rw [Function.subnodes, Node.subnodesAll_eq]
  exact List.mem_flatMap_of_mem hn (n.string_mem_subnodes hs)

end Ir

/-- A module without string constants has a file without segments of data. -/
lemma Wasm.sections_of_texts_nil {m : Ir.Module} {bytes : List UInt8} (h : encode m = .ok bytes)
    (htexts : m.texts = []) :
    ∃ parts, readSections none bytes = some parts ∧ ∀ s ∈ parts, s.id ≠ 0x0b ∧ s.id ≠ 0x0c := by
  rcases hw : Module.ofIr m with e | w
  · rw [encode, hw] at h
    cases h
  rw [encode, hw] at h
  cases h
  have hdecodes : Decodes none w.bytes (sectionIds m) w :=
    (represents_of_ofIr hw).decodes trivial fun _ _ => trivial
  obtain ⟨parts, hparts, hids, -⟩ := hdecodes
  refine ⟨parts, hparts, fun s hs => ?_⟩
  have hid : s.id ∈ sectionIds m := hids ▸ List.mem_map_of_mem hs
  simp only [sectionIds, htexts, List.isEmpty_nil, if_true, List.append_nil] at hid
  constructor
  · rintro heq
    rw [heq] at hid
    revert hid
    split <;> decide
  · rintro heq
    rw [heq] at hid
    revert hid
    split <;> decide

open Lowering in
/-- **Features**: what a switch turns off occurs nowhere in a module that has been lowered and has
a binary file, neither as a type nor as a node; and without strings the file has no data. -/
theorem lower_without_disabled (options : Options) (m : Syntax.Module) (log log' : List Event)
    (ir : Ir.Module) (bytes : List UInt8) (h : Returns (lower options m) log ir log')
    (hbytes : Wasm.encode ir = .ok bytes) :
    (options.gc = false → ∀ f ∈ ir.functions, f.Without .arrays) ∧
      (options.strings = false → (∀ f ∈ ir.functions, f.Without .strings) ∧
        ∃ parts, Wasm.readSections none bytes = some parts ∧
          ∀ s ∈ parts, s.id ≠ 0x0b ∧ s.id ≠ 0x0c) := by
  obtain ⟨sigs, log₁, s, -, hall, rfl, -⟩ := returns_lower h
  have hchecked := hall.checked (by simp)
  have htyped := (hall.sound ⟨by simp, by simp [Ir.Module.global?]⟩).functions
  have hallowed : ∀ f ∈ s.module.functions, f.Allowed options := by
    intro f hf
    refine (hchecked f hf).2 fun top htop n hn hcall => ?_
    -- what is called has been looked at when it was lowered
    have hmem : n ∈ f.subnodes := by
      rw [Ir.Function.subnodes, Ir.Node.subnodesAll_eq]
      exact List.mem_flatMap_of_mem htop hn
    obtain ⟨name, hname⟩ := Option.isSome_iff_exists.mp hcall
    obtain ⟨g, hg, rfl⟩ := Wasm.encode_callees hbytes f hf n hmem name hname
    obtain ⟨sig, hsig, hreturns⟩ := (hchecked g hg).1
    have hfits := (htyped f hf).1 n hmem
    cases n with
    | call target args ty =>
      cases hname
      cases Option.some.inj (hsig.symm.trans hfits)
      exact hreturns
    | _ => cases hname
  have hwithout {x : Feature} (hx : options.has x = false) :
      ∀ f ∈ s.module.functions, f.Without x :=
    fun f hf => (hallowed f hf).without (htyped f hf) hx
  refine ⟨fun hgc => hwithout hgc, fun hstrings => ⟨hwithout hstrings, ?_⟩⟩
  exact Wasm.sections_of_texts_nil hbytes (Ir.Module.texts_eq_nil (hwithout hstrings))

/-- A source with a string that is a comment and a variable whose type is that of a call, to a
function that comes later. -/
def relaySource : Syntax.Module :=
  let p : Span := ⟨0, 0⟩
  let header (name : String) : Syntax.FuncHeader :=
    ⟨name, [.mk "n" p (some (.name p "i32")) none], some (.name p "i64"), [.name p "wasmfunc"]⟩
  { body := [
      .importNames p ["wasmfunc"] [("wasmfunc", none), ("i32", none), ("i64", none)],
      .funcDef p (header "relay") [
        .expr p (.string p "passes it on"),
        .assign p [.name p "x"] (.call p (.name p "later") [.name p "n"] []),
        .ret p (some (.name p "x"))],
      .funcDef p (header "later") [.ret p (some (.name p "n"))]] }

theorem lower_without_disabled_relay : ∃ ir log' bytes,
    Returns (lower {} relaySource) [] ir log' ∧ Wasm.encode ir = .ok bytes ∧
      ir.functions.map (·.name) = ["relay", "later"] ∧
      (∀ f ∈ ir.functions, f.Without .arrays ∧ f.Without .strings) ∧
      ∃ parts, Wasm.readSections none bytes = some parts ∧
        ∀ s ∈ parts, s.id ≠ 0x0b ∧ s.id ≠ 0x0c := by
  have hrun : ((lower {} relaySource).run.run []).1.toOption.map (fun ir =>
      (ir.functions.map (·.name), (Wasm.encode ir).toOption.isSome)) =
      some (["relay", "later"], true) := by decide +kernel
  obtain ⟨ir, hir, heq⟩ := Option.map_eq_some_iff.mp hrun
  obtain ⟨hnames, hsome⟩ := Prod.mk.inj heq
  have h := Returns.of_toOption hir
  rcases hbytes : Wasm.encode ir with e | bytes
  · rw [hbytes] at hsome
    cases hsome
  obtain ⟨harrays, hstrings⟩ := lower_without_disabled _ _ _ _ _ _ h hbytes
  obtain ⟨hwithout, hparts⟩ := hstrings rfl
  exact ⟨ir, _, bytes, h, hbytes, hnames, fun f hf => ⟨harrays rfl f hf, hwithout f hf⟩, hparts⟩

end AnnotatedWasm
