import AnnotatedWasm.Proofs.Wasm.Failures

/-!
The code of a whole module.

All functions share one table of types and one list of segments, which are complete only when the
last function is emitted. Names that come once stand for the indices that the calls and the uses of
globals were given.
-/

namespace AnnotatedWasm.Wasm

variable {strict : Bool}

/-! ### Indices -/

/-- Where no name comes twice, the last thing with a name is the first. -/
lemma lastIndexOf?_of_find? {α : Type} {key : α → String} {xs : List α}
    (hn : (xs.map key).Nodup) {name : String} {x : α} (h : xs.find? (key · = name) = some x) :
    ∃ i, lastIndexOf? name (xs.map key) = some i ∧ xs[i]? = some x := by
  induction xs with
  | nil => cases h
  | cons y ys ih =>
    obtain ⟨hy, hys⟩ := List.nodup_cons.mp hn
    rw [List.find?_cons] at h
    rw [List.map_cons, lastIndexOf?]
    by_cases hkey : key y = name
    · simp only [hkey, decide_true] at h
      cases h
      rw [hkey] at hy
      exact ⟨0, by rw [lastIndexOf?_eq_none_iff.mpr hy]; exact if_pos hkey, rfl⟩
    · simp only [hkey, decide_false] at h
      obtain ⟨i, hi, hx⟩ := ih hys h
      exact ⟨i + 1, by rw [hi], hx⟩

lemma getElem?_of_forall₂ {α β : Type} {R : α → β → Prop} {xs : List α} {ys : List β}
    (h : List.Forall₂ R xs ys) {i : Nat} {x : α} (hi : xs[i]? = some x) :
    ∃ y, ys[i]? = some y ∧ R x y := by
  induction h generalizing i with
  | nil => cases hi
  | cons hxy _ ih =>
    cases i with
    | zero => cases hi; exact ⟨_, rfl, hxy⟩
    | succ i => exact ih hi

/-- Slots that all have values have one each. -/
lemma getElem?_flatMap_valuesOf (T : List TypeDef) {ts : List Ty} (h : ∀ t ∈ ts, t ≠ .void)
    {i : Nat} {t : Ty} (hi : ts[i]? = some t) :
    ∃ v, valuesOf T t = [v] ∧ (ts.flatMap (valuesOf T))[i]? = some v := by
  induction ts generalizing i with
  | nil => cases hi
  | cons u ts ih =>
    obtain ⟨hu, hts⟩ := List.forall_mem_cons.mp h
    obtain ⟨v, hv⟩ := valuesOf_of_ne_void T hu
    rw [List.flatMap_cons, hv]
    cases i with
    | zero => cases hi; exact ⟨v, hv, rfl⟩
    | succ i => exact ih hts hi

/-! ### The finished module -/

variable {m : Ir.Module}

/-- All names in well-typed code stand for something. -/
lemma defects_eq_nil (h : m.Encodable) : defects m = [] := by
  by_contra hne
  obtain ⟨e, he⟩ := List.exists_mem_of_ne_nil _ hne
  obtain ⟨f, hf, hvoid | ⟨hwithin, hmiss⟩⟩ := mem_defects.mp he
  · exact (h.functions f hf).locals .void hvoid rfl
  · have hfits := (h.functions f hf).typed _ hwithin.mem_subnodes
    obtain ⟨root, hroot, hin⟩ := hwithin
    have hknown {α : Type} {key : α → String} {xs : List α} {name : String} {x : α}
        (hx : xs.find? (key · = name) = some x) : name ∈ xs.map key :=
      List.mem_map.mpr ⟨x, List.mem_of_find?_eq_some hx, by simpa using List.find?_some hx⟩
    cases hmiss with
    | label htarget hnone =>
      have hbranches := Ir.Node.branchAllIn_iff.mp (h.functions f hf).branches root hroot
      obtain ⟨c, hc, -⟩ := (Ir.Node.branchesIn_iff.mp (hin.branchesIn hbranches)).1 _ htarget
      exact hnone c (List.mem_of_find?_eq_some hc) (by simpa using List.find?_some hc)
    | call hmem =>
      obtain ⟨g, hg, -⟩ := Option.map_eq_some_iff.mp hfits
      exact hmem (hknown hg)
    | globalGet hmem | globalSet hmem =>
      obtain ⟨x, hx, -⟩ := Option.map_eq_some_iff.mp hfits
      exact hmem (hknown hx)

lemma exists_represents (h : m.Encodable) : ∃ w, Module.ofIr m = .ok w ∧ Represents m w := by
  rcases hw : Module.ofIr m with e | w
  · have herror : fault? (encode m) = some e := by rw [encode, hw]; rfl
    rw [fault?_encode, defects_eq_nil h] at herror
    cases herror
  · exact ⟨w, rfl, represents_of_ofIr hw⟩

/-- What the parts of the finished module are. -/
structure Emitted (m : Ir.Module) (strict : Bool) (w : Module) (r : Pool) : Prop where
  types : w.types = r.types.entries
  data : w.data = r.data
  globals : w.globals = m.globals.map fun g => ⟨g.kind, g.isMutable, g.init⟩
  functions : List.Forall₂ (FunctionType r.types.entries) m.functions w.functions
  codes : List.Forall₂ (fun f code => FunctionCode (f.scope m.globals m.signature?)
    (Symbols.ofModule m) strict f r code) m.functions w.codes

/-- What the code of a function refers to is in the finished module. -/
lemma Emitted.suits {w : Module} {r : Pool} (hw : Emitted m strict w r) (h : m.Encodable)
    {f : Ir.Function} {j : Nat} {code : Code} (hf : f ∈ m.functions)
    (hj : FunctionType r.types.entries f j)
    (hcode : FunctionCode (f.scope m.globals m.signature?) (Symbols.ofModule m) strict f r code) :
    (w.context strict (f.params.flatMap (valuesOf w.types)) (valuesOf w.types f.result) code).Suits
      (f.scope m.globals m.signature?) (Symbols.ofModule m) strict [] r where
  strict := rfl
  types := hw.types
  segments := congrArg List.length hw.data
  locals i t ht := by
    have hslots : ∀ t ∈ f.params ++ f.locals, t ≠ .void :=
      List.forall_mem_append.mpr ⟨(h.functions f hf).params, (h.functions f hf).locals⟩
    have hentered : ∀ t ∈ f.params ++ f.locals, Entered w.types t := by
      rw [hw.types]
      exact List.forall_mem_append.mpr ⟨hj.2.1, hcode.entered⟩
    refine ⟨hentered t (List.mem_of_getElem? ht), ?_⟩
    show ∃ v, _ ∧ (_ ++ expand code.locals)[i]? = _
    rw [hcode.locals, ← hw.types, ← List.flatMap_append]
    exact getElem?_flatMap_valuesOf w.types hslots ht
  globals name x i hx hi := by
    obtain ⟨k, hk, hget⟩ := lastIndexOf?_of_find? h.globalNames hx
    obtain rfl : k = i := Option.some.inj (hk.symm.trans hi)
    show w.globals[k]? = _
    rw [hw.globals, List.getElem?_map, hget]
    rfl
  functions name sig i hsig hi := by
    obtain ⟨g, hg, rfl⟩ := Option.map_eq_some_iff.mp hsig
    obtain ⟨k, hk, hget⟩ := lastIndexOf?_of_find? h.functionNames hg
    obtain rfl : k = i := Option.some.inj (hk.symm.trans hi)
    obtain ⟨j', hj', hty⟩ := getElem?_of_forall₂ hw.functions hget
    rw [← hw.types] at hty
    exact ⟨hty.2.2, j', hj', hty.1⟩
  labels := List.nil_prefix
  result := rfl

open Ir.Node in
/-- Two functions, a loop that is left from within, a choice between arrays, and a global. -/
def walkModule : Ir.Module where
  globals := [⟨"steps", .i64, true, .i64 0⟩]
  functions := [
    { name := "walk", params := [.array .i32, .i32], result := .i32, locals := [.str]
      localNames := []
      body := [
        localSet 2 (string "walk"),
        block (some "exit") [loop "next" (block none [
          brIf "exit" (binary (.compare .eq .i32) (localGet 1 .i32) (i32 0)),
          globalSet "steps" (binary (.arith .add .i64) (globalGet "steps" .i64) (const (.i64 1))),
          localSet 1 (arrayGet .i32
            (select (localGet 1 .i32) (localGet 0 (.array .i32))
              (arrayNewFixed .i32 [i32 1, i32 2]))
            (localGet 1 .i32)),
          br "next"] .void)] .void,
        ifElse (localGet 1 .i32) (ret (some (i32 1))) none,
        ret (some (arrayLen (localGet 0 (.array .i32))))] },
    { name := "start", params := [], result := .void, locals := [], localNames := []
      body := [drop (call "walk" [arrayNew .i32 (i32 0) (i32 4), i32 2] .i32)] }]

end AnnotatedWasm.Wasm
