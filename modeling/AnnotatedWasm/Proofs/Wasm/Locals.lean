import AnnotatedWasm.Proofs.Wasm.Interning

/-!
Locals are declared in groups of one type, which keep their numbering.

The groups of a function expand to the value types of its locals, each as the table of types has it
then and later. They are the coarsest such groups: none is empty, and neighbours differ.
-/

namespace AnnotatedWasm.Wasm

/-- The groups stand for the value types, with equal neighbours in one group. -/
structure Groups (vs : List ValType) (groups : List (Nat × ValType)) : Prop where
  expands : expand groups = vs
  nonempty : ∀ g ∈ groups, 0 < g.1
  differ : groups.IsChain fun g h => g.2 ≠ h.2

lemma groups_runs (vs : List ValType) : Groups vs (runs vs) := by
  suffices h : (∀ g ∈ runs vs, 0 < g.1) ∧ (runs vs).IsChain fun g h => g.2 ≠ h.2 from
    ⟨expand_runs vs, h.1, h.2⟩
  induction vs with
  | nil => exact ⟨List.forall_mem_nil _, .nil⟩
  | cons v vs ih =>
    rw [runs]
    revert ih
    rcases runs vs with _ | ⟨⟨n, u⟩, rest⟩ <;> rintro ⟨hpos, hchain⟩
    · exact ⟨List.forall_mem_singleton.mpr Nat.one_pos, .singleton _⟩
    dsimp only
    obtain ⟨-, hrest⟩ := List.forall_mem_cons.mp hpos
    split
    · -- the first group grows, and its type stays
      exact ⟨List.forall_mem_cons.mpr ⟨Nat.succ_pos n, hrest⟩, by
        cases rest with
        | nil => exact .singleton _
        | cons g rest => rwa [List.isChain_cons_cons] at hchain ⊢⟩
    · next hu =>
      exact ⟨List.forall_mem_cons.mpr ⟨Nat.one_pos, hpos⟩, .cons_cons (Ne.symm hu) hchain⟩

/-- Locals that all have values get their value types, which stay the same in every later table. -/
lemma localTypes_run (name : String) (tys : List Ty) (h : ∀ t ∈ tys, t ≠ .void) (p : Pool) :
    ∃ vs q, (localTypes name tys).run p = .ok (vs, q) ∧ q.data = p.data ∧
      p.types.entries <+: q.types.entries ∧ ∀ t : TypeTable, q.types.entries <+: t.entries →
        tys.map t.valType = vs.map fun v => (some v, t) := by
  induction tys generalizing p with
  | nil => exact ⟨[], p, rfl, rfl, List.prefix_rfl, fun _ _ => rfl⟩
  | cons ty tys ih =>
    obtain ⟨hty, htys⟩ := List.forall_mem_cons.mp h
    obtain ⟨v, hv⟩ : ∃ v, (p.types.valType ty).1 = some v := by
      cases ty with
      | void => exact absurd rfl hty
      | num _ | array _ | str => exact ⟨_, rfl⟩
    obtain ⟨vs, q, hrun, hdata, hle, hvs⟩ := ih htys { p with types := (p.types.valType ty).2 }
    refine ⟨v :: vs, q, ?_, hdata, (p.types.valType_enters ty).1.trans hle, fun t ht => ?_⟩
    · have hstep : (valType ty).run p = .ok (some v, { p with types := (p.types.valType ty).2 }) := by
        rw [← hv]
        rfl
      rw [localTypes, StateT.run_bind, hstep]
      show ((localTypes name tys).run _ >>= _) = _
      rw [hrun]
      rfl
    · have hfirst : t.valType ty = _ := TypeTable.settles_valType ty p.types t (hle.trans ht)
      rw [List.map_cons, List.map_cons, hfirst, hv, hvs t ht]

/-- **Locals keep their slots**: the groups in the code of a function expand to the value types of
its locals, and behind the parameters the index of a local is its place among them. -/
theorem emitFunction_groups (S : Symbols) (f : Ir.Function) (hlocals : ∀ t ∈ f.locals, t ≠ .void)
    (p : Pool) : ∃ vs q, (localTypes f.name f.locals).run p = .ok (vs, q) ∧ Groups vs (runs vs) ∧
      (∀ t : TypeTable, q.types.entries <+: t.entries →
        f.locals.map t.valType = vs.map fun v => (some v, t)) ∧
      ∀ code r, (emitFunction S f).run p = .ok (code, r) → code.locals = runs vs ∧
        ∀ (w : Module) (strict : Bool) (params results : List ValType) (i : Nat) (ty : Ty),
          params.length = f.params.length → f.locals[i]? = some ty → ∃ v,
            r.types.valType ty = (some v, r.types) ∧
            (w.context strict params results code).locals[f.params.length + i]? = some v := by
  obtain ⟨vs, q, hrun, -, -, hvs⟩ := localTypes_run f.name f.locals hlocals p
  refine ⟨vs, q, hrun, groups_runs vs, hvs, fun code _ hemit => ?_⟩
  rw [emitFunction, StateT.run_bind, hrun] at hemit
  replace hemit : ((emitAll S [] f.body).run q >>= fun x => .ok (⟨runs vs,
      if f.result.isVoid then x.1 else x.1 ++ [.unreachable]⟩, x.2)) = .ok (code, _) := hemit
  rcases hbody : (emitAll S [] f.body).run q with e | ⟨is, r⟩
  · rw [hbody] at hemit
    cases hemit
  rw [hbody] at hemit
  obtain ⟨rfl, rfl⟩ := Prod.mk.inj (Except.ok.inj hemit)
  refine ⟨rfl, fun w strict params results i ty hparams hty => ?_⟩
  have hle : q.types.entries <+: r.types.entries :=
    (emitAll_writes S f.body [] _ q is r rfl hbody).1
  have hget := congrArg (·[i]?) (hvs r.types hle)
  simp only [List.getElem?_map, hty, Option.map_some] at hget
  obtain ⟨v, hv, hty⟩ := Option.map_eq_some_iff.mp hget.symm
  refine ⟨v, hty.symm, ?_⟩
  show (params ++ expand (runs vs))[_]? = _
  rw [← hparams, List.getElem?_append_right (Nat.le_add_right ..), Nat.add_sub_cancel_left,
    expand_runs, hv]

/-- Two arrays of different elements between numbers. -/
def mixedLocals : Ir.Function :=
  ⟨"f", [.i64], .void, [.i32, .i32, .array .i32, .array .f64, .array .f64, .i32], [], []⟩

theorem emitFunction_groups_mixed : (∀ t ∈ mixedLocals.locals, t ≠ .void) ∧
    ∃ vs q, (localTypes "f" mixedLocals.locals).run {} = .ok (vs, q) ∧ Groups vs
      [(2, .num .i32), (1, .ref 0), (2, .ref 1), (1, .num .i32)] := by
  have hlocals : ∀ t ∈ mixedLocals.locals, t ≠ .void := by decide
  obtain ⟨vs, q, hrun, hgroups, -⟩ := emitFunction_groups ⟨[], []⟩ mixedLocals hlocals {}
  refine ⟨hlocals, vs, q, hrun, ?_⟩
  have hvs : (localTypes "f" mixedLocals.locals).run {} = .ok
      ([.num .i32, .num .i32, .ref 0, .ref 1, .ref 1, .num .i32],
        ⟨⟨[.array (.num .i32), .array (.num .f64)]⟩, []⟩) := rfl
  obtain ⟨rfl, -⟩ := Prod.mk.inj (Except.ok.inj (hvs.symm.trans hrun))
  exact hgroups

end AnnotatedWasm.Wasm
