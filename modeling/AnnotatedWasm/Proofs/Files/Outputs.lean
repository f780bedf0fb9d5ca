import AnnotatedWasm.Proofs.Files.Writing

/-!
Whose outputs are found where after a run over many files.

A file's outputs are named after the file without its extension, and a dot that is then still in the
name cuts it once more. So the outputs of two files in one directory may have the same names, and
then those of the later file stay. `compileAll_outputs` says that nothing else gets lost.
-/

namespace AnnotatedWasm

open Command (Arguments)
open AnnotatedWasm.Path (IsExtension named stemOf)

variable {t t' : FileTree} {o : Output} {path : Path} {q : Place} {S S' T e e' : String}

/-! ### Places of outputs -/

section Places

/-- An output is put where the base leads, under the base's name with the extension. -/
lemma place_pathFor (he : IsExtension e) (hT : (o.baseFor path).stem? = some T)
    (hq : t.place (o.pathFor path e) = .ok q) :
    ∃ d, t.follow (o.baseFor path).start (Path.trim (o.baseFor path).steps).dropLast = .ok d ∧
      q = d ++ [named T e] := by
  have hfollow := FileTree.follow_of_place hq
  rw [Output.pathFor, Path.withExtension_of_stem? hT] at hfollow
  obtain ⟨d, hd, -, rfl⟩ := FileTree.follow_concat.mp hfollow
  obtain ⟨hstays, hup⟩ := he.named_steps T
  exact ⟨d, hd, by simp [FileTree.onward, hstays, hup]⟩

lemma pathFor_of_stem?_none (h : (o.baseFor path).stem? = none) (e : String) :
    o.pathFor path e = o.baseFor path := by
  rw [Output.pathFor, Path.withExtension, h]

/-- Two outputs of one file are never in one place. -/
lemma eq_of_place_pathFor (he : IsExtension e) (he' : IsExtension e')
    (hT : (o.baseFor path).stem? = some T) (hq : t.place (o.pathFor path e) = .ok q)
    (hq' : t.place (o.pathFor path e') = .ok q) : e = e' := by
  obtain ⟨d, hd, rfl⟩ := place_pathFor he hT hq
  obtain ⟨d', hd', heq⟩ := place_pathFor he' hT hq'
  obtain ⟨-, hnames⟩ := List.append_inj' heq (by simp)
  exact (Path.named_inj he he' (List.singleton_inj.mp hnames)).2

/-- The files are in one directory, or their outputs are told to go to one. -/
def Output.SharesDirectory (o : Output) (t : FileTree) (path path' : Path) : Prop :=
  o.directory.isSome ∨ ∃ d, t.follow path.parent.start path.parent.steps = .ok d ∧
    t.follow path'.parent.start path'.parent.steps = .ok d

/-- An output of one file is in the place of one of the other. -/
def Output.Collide (o : Output) (t : FileTree) (path path' : Path) : Prop :=
  ∃ q, ∃ r ∈ o.pathsFor path, ∃ r' ∈ o.pathsFor path', t.place r = .ok q ∧ t.place r' = .ok q

variable {f g : String}

lemma baseFor_eq (hS : (Path.ofText f).stem? = some S) (hdot : S ≠ ".") :
    o.baseFor (.ofText f) = ⟨(o.directoryFor (.ofText f)).way.start,
      (o.directoryFor (.ofText f)).way.steps ++ [S]⟩ := by
  rw [Output.baseFor, hS, Option.getD_some, Path.join_concat _ (Path.of_stem? hS).1 hdot]

lemma stem?_baseFor (hS : (Path.ofText f).stem? = some S) (hdot : S ≠ ".") :
    (o.baseFor (.ofText f)).stem? = if S = ".." then none else some (stemOf S) := by
  have hstays := Path.staysPut_stem? hS hdot
  rw [baseFor_eq hS hdot]
  split
  · next hup =>
    subst hup
    rw [Path.stem?, Path.fileName?, Path.trim_concat hstays, List.getLast?_concat]
    rfl
  · next hup => exact Path.stem?_concat hstays hup

lemma ne_up_of_stem?_baseFor (hS : (Path.ofText f).stem? = some S)
    (hT : (o.baseFor (.ofText f)).stem? = some T) : S ≠ ".." := by
  rintro rfl
  rw [stem?_baseFor hS (by decide), if_pos rfl] at hT
  cases hT

/-- The output of a file in a directory: a name there, or beside it if the file's is a lone dot. -/
def outputPath (d : Path) (S e : String) : Path :=
  if S = "." then d.withExtension e else d.join (named (stemOf S) e)

lemma pathFor_eq (hd : (o.directoryFor (.ofText f)).LeadsInto)
    (hS : (Path.ofText f).stem? = some S) (hT : (o.baseFor (.ofText f)).stem? = some T)
    (he : IsExtension e) :
    o.pathFor (.ofText f) e = outputPath (o.directoryFor (.ofText f)) S e := by
  have hup := ne_up_of_stem?_baseFor hS hT
  rw [Output.baseFor, hS, Option.getD_some] at hT
  rw [Output.pathFor, Output.baseFor, hS, Option.getD_some, outputPath]
  split
  · next hdot =>
    subst hdot
    exact hd.withExtension_join_dot hT e
  · next hdot =>
    exact Path.withExtension_join _ (Path.of_stem? hS).1 (Path.staysPut_stem? hS hdot) hup he

lemma follow_parent {d : Place}
    (h : t.follow (Path.ofText f).parent.way.start (Path.ofText f).parent.way.steps = .ok d) :
    t.follow (Path.ofText f).parent.start (Path.ofText f).parent.steps = .ok d := by
  obtain ⟨hstart, hsteps⟩ := Path.way_parent f
  rw [hstart] at h
  rcases hsteps with hsteps | ⟨hnil, hsteps⟩
  · rw [hsteps] at h
    exact h
  · rw [hsteps, ← List.nil_append [""]] at h
    obtain ⟨d', hd', -, hd⟩ := FileTree.follow_concat.mp h
    have hstays : FileTree.onward d' "" = d' := if_pos rfl
    rw [hnil, hd, hstays]
    exact hd'

lemma place_output (hS : (Path.ofText f).stem? = some S) (hdot : S ≠ ".") (hup : S ≠ "..")
    (he : IsExtension e) (hq : t.place (o.pathFor (.ofText f) e) = .ok q) :
    ∃ d, t.follow (o.directoryFor (.ofText f)).way.start
        (o.directoryFor (.ofText f)).way.steps = .ok d ∧
      q = d ++ [named (stemOf S) e] := by
  have hstem : (o.baseFor (.ofText f)).stem? = some (stemOf S) := by
    rw [stem?_baseFor hS hdot, if_neg hup]
  have hplace := place_pathFor he hstem hq
  rw [baseFor_eq hS hdot, Path.trim_concat (Path.staysPut_stem? hS hdot),
    List.dropLast_concat] at hplace
  exact hplace

/-- Files whose outputs have one place share a directory, and what is left of their names. -/
lemma shares_of_place (hS : (Path.ofText f).stem? = some S) (hdot : S ≠ ".") (hup : S ≠ "..")
    (hS' : (Path.ofText g).stem? = some S') (hdot' : S' ≠ ".") (hup' : S' ≠ "..")
    (he : IsExtension e) (he' : IsExtension e')
    (hq : t.place (o.pathFor (.ofText f) e) = .ok q)
    (hq' : t.place (o.pathFor (.ofText g) e') = .ok q) :
    o.SharesDirectory t (.ofText f) (.ofText g) ∧ stemOf S = stemOf S' := by
  obtain ⟨d, hd, rfl⟩ := place_output hS hdot hup he hq
  obtain ⟨d', hd', heq⟩ := place_output hS' hdot' hup' he' hq'
  obtain ⟨rfl, hnames⟩ := List.append_inj' heq (by simp)
  refine ⟨?_, (Path.named_inj he he' (List.singleton_inj.mp hnames)).1⟩
  unfold Output.directoryFor at hd hd'
  cases hdirectory : o.directory with
  | some D => exact .inl (by simp [hdirectory])
  | none =>
    rw [hdirectory, Option.getD_none] at hd hd'
    exact .inr ⟨d, follow_parent hd, follow_parent hd'⟩

end Places

/-! ### One file -/

section Compiled

variable {a : Artifact}

/-- What can be written has a name. -/
lemma exists_stem?_baseFor (ht : t.WellFormed)
    (h : Writes ((a.outputs o.listing).map fun c => (o.pathFor path c.1, c.2)) t t') :
    ∃ T, (o.baseFor path).stem? = some T := by
  obtain ⟨c, cs, hcs⟩ : ∃ c cs, a.outputs o.listing = c :: cs := ⟨_, _, rfl⟩
  rw [hcs, List.map_cons] at h
  obtain ⟨t₁, hwrite⟩ := h.head
  obtain ⟨q, hq, hnew, -⟩ := FileTree.returns_write hwrite
  cases hbase : (o.baseFor path).stem? with
  | some T => exact ⟨T, rfl⟩
  | none =>
    rw [pathFor_of_stem?_none hbase] at hq
    obtain ⟨T, hT⟩ := ht.exists_stem? hq hnew
    rw [hbase] at hT
    cases hT

/-- Once a file has been compiled, each of its outputs is where it was written. -/
lemma get?_of_writes (ht : t.WellFormed)
    (h : Writes ((a.outputs o.listing).map fun c => (o.pathFor path c.1, c.2)) t t') :
    ∀ c ∈ a.outputs o.listing, ∃ q, t'.place (o.pathFor path c.1) = .ok q ∧
      t'.get? q = some (.file c.2) := by
  obtain ⟨T, hT⟩ := exists_stem?_baseFor ht h
  have hext (c : String × ByteArray) (hc : c ∈ a.outputs o.listing) : IsExtension c.1 :=
    isExtension (map_fst_outputs a o.listing ▸ List.mem_map_of_mem hc)
  have hnodup : ((a.outputs o.listing).map Prod.fst).Nodup := by
    rw [map_fst_outputs]
    cases o.listing <;> decide
  have hapart : ((a.outputs o.listing).map fun c => (o.pathFor path c.1, c.2)).Pairwise
      fun x y => ∀ q, t'.place x.1 = .ok q → t'.place y.1 ≠ .ok q := by
    rw [List.pairwise_map]
    dsimp only
    refine (List.pairwise_map.mp hnodup).imp_of_mem fun {c c'} hc hc' hne q hq hq' => ?_
    exact hne (eq_of_place_pathFor (hext c hc) (hext c' hc') hT hq hq')
  simpa only [List.forall_mem_map] using h.get? hapart

end Compiled

/-! ### Runs -/

namespace Command.Arguments

variable (a : Arguments)

/-- The file tree once files have been compiled in turn. -/
def treeAfter (files : List String) (t : FileTree) : FileTree :=
  ((a.compileAll files : StateM FileTree _).run t).2

lemma treeAfter_cons (file : String) (files : List String) (t : FileTree) :
    a.treeAfter (file :: files) t = a.treeAfter files
      ((((compileFile a.options a.output (.ofText file) :
        LoggedT FileFailure (StateM FileTree) _).run.run []).run t).2) := by
  unfold treeAfter
  rw [compileAll, StateT.run_bind, compileOne, StateT.run_bind]
  rcases ((compileFile a.options a.output (.ofText file) :
    LoggedT FileFailure (StateM FileTree) _).run.run []).run t with ⟨⟨e | written, log⟩, t'⟩ <;> rfl

lemma treeAfter_append (files files' : List String) (t : FileTree) :
    a.treeAfter (files ++ files') t = a.treeAfter files' (a.treeAfter files t) := by
  induction files generalizing t with
  | nil => rfl
  | cons file files ih => rw [List.cons_append, treeAfter_cons, treeAfter_cons, ih]

/-- The paths to which a run over files may write. -/
def pathsFor (files : List String) : List Path :=
  (files.filter fun file => (Path.ofText file).stem?.isSome).flatMap fun file =>
    a.output.pathsFor (.ofText file)

/-- A run over files changes nothing but their outputs. -/
lemma evolves_treeAfter (files : List String) (ht : t.WellFormed) :
    t.Evolves (a.pathsFor files) (a.treeAfter files t) := by
  induction files generalizing t with
  | nil => exact .refl _ t
  | cons file files ih =>
    rw [treeAfter_cons]
    have hrest : a.pathsFor files ⊆ a.pathsFor (file :: files) := by
      unfold pathsFor
      rw [List.filter_cons]
      split <;> simp
    cases hstem : (Path.ofText file).stem? with
    | none =>
      have hstep := touches_nameless a.options a.output ht hstem []
      exact (hstep.mono (by simp)).trans ((ih (hstep.wellFormed ht)).mono hrest)
    | some S =>
      have hstep := touches_compileFile (t := t) a.options a.output (.ofText file) []
      have hfirst : a.output.pathsFor (.ofText file) ⊆ a.pathsFor (file :: files) := by
        unfold pathsFor
        rw [List.filter_cons_of_pos (by simp [hstem]), List.flatMap_cons]
        exact List.subset_append_left _ _
      exact (hstep.mono hfirst).trans ((ih (hstep.wellFormed ht)).mono hrest)

lemma leadsInto_directoryFor (f : String) : (a.output.directoryFor (.ofText f)).LeadsInto := by
  unfold Output.directoryFor output
  cases a.outDir with
  | none => exact Path.leadsInto_parent f
  | some d => exact Path.leadsInto_ofText d

end Command.Arguments

/-- Where outputs are files, those of another file are in their places only if the two share a
directory and what is left of their names. -/
lemma shares_of_collide {f g : String} (ht : t.WellFormed)
    (hfiles : ∀ r ∈ o.pathsFor (.ofText f), ∀ q, t.place r = .ok q → t.get? q ≠ some .directory)
    (hS : (Path.ofText f).stem? = some S) (hdot : S ≠ ".") (hup : S ≠ "..")
    (hS' : (Path.ofText g).stem? = some S') (hdot' : S' ≠ ".")
    (h : o.Collide t (.ofText f) (.ofText g)) :
    o.SharesDirectory t (.ofText f) (.ofText g) ∧ stemOf S = stemOf S' := by
  obtain ⟨q, r, hr, r', hr', hq, hq'⟩ := h
  have hnot := hfiles r hr q hq
  obtain ⟨e, he, rfl⟩ := List.mem_map.mp hr
  obtain ⟨e', he', rfl⟩ := List.mem_map.mp hr'
  have hup' : S' ≠ ".." := by
    -- the way up would lead to a directory
    intro hup'
    have hnone : (o.baseFor (.ofText g)).stem? = none := by
      rw [stem?_baseFor hS' hdot', if_pos hup']
    rw [pathFor_of_stem?_none hnone] at hq'
    obtain ⟨T, hT⟩ := ht.exists_stem? hq' hnot
    rw [hnone] at hT
    cases hT
  exact shares_of_place hS hdot hup hS' hdot' hup' (isExtension he) (isExtension he') hq hq'

/-- Files are compiled in turn, and one of them, with marked functions, compiles. Then its source was
read and compiled, and only its outputs were written: they bear the file's name without its
extension, cut once more at the last dot that is left in it. At the end of the run they are as they
were written, unless a later file has an output in the place of one of them; for that the two files
must share their directory and what is left of their names. -/
theorem compileAll_outputs (a : Arguments) (before after : List String) {f : String}
    {t t₁ t₂ t' : FileTree} {written : List Path} {log : List Event} (ht : t.WellFormed)
    (ht₁ : a.treeAfter before t = t₁)
    (h : Ends (compileFile a.options a.output (.ofText f)) [] t₁ written log t₂)
    (hne : written ≠ []) (ht' : a.treeAfter (before ++ f :: after) t = t') :
    ∃ S source artifact log₁, (Path.ofText f).stem? = some S ∧
      Returns (FileTree.read (.ofText f)) t₁ source.toUTF8 t₁ ∧
      Returns (compileSource a.options f source) [] (some artifact) log₁ ∧
      written = (extensions a.emitIr).map (outputPath (a.output.directoryFor (.ofText f)) S) ∧
      t₁.Evolves written t₂ ∧
      (∀ g S', (Path.ofText g).stem? = some S' → S ≠ "." → S' ≠ "." →
        a.output.Collide t' (.ofText f) (.ofText g) →
          a.output.SharesDirectory t' (.ofText f) (.ofText g) ∧ stemOf S = stemOf S') ∧
      ((∀ g ∈ after, (Path.ofText g).stem?.isSome →
          ¬ a.output.Collide t' (.ofText f) (.ofText g)) →
        ∀ c ∈ artifact.outputs a.emitIr,
          Returns (FileTree.read (outputPath (a.output.directoryFor (.ofText f)) S c.1)) t' c.2
            t') := by
  have hstep : t₁.Evolves (a.output.pathsFor (.ofText f)) t₂ := by
    have htouches := touches_compileFile (t := t₁) a.options a.output (.ofText f) []
    rwa [h] at htouches
  obtain ⟨source, artifact, log₁, tm, hread, hcompiled, hmade, hwrites, hwritten⟩ :=
    of_compileFile h hne
  rw [Path.text_ofText] at hcompiled
  have hwf₁ : t₁.WellFormed := ht₁ ▸ (a.evolves_treeAfter before ht).wellFormed ht
  have hafter : t₂.Evolves (a.pathsFor after) t' := by
    rw [a.treeAfter_append, ht₁, a.treeAfter_cons, h] at ht'
    exact ht' ▸ a.evolves_treeAfter after (hstep.wellFormed hwf₁)
  have hheld := get?_of_writes (hmade.wellFormed hwf₁) hwrites
  have hfiles : ∀ r ∈ a.output.pathsFor (.ofText f), ∀ q, t'.place r = .ok q →
      t'.get? q ≠ some .directory := by
    intro r hr q hq
    obtain ⟨e, he, rfl⟩ := List.mem_map.mp hr
    rw [← map_fst_outputs artifact] at he
    obtain ⟨c, hc, rfl⟩ := List.mem_map.mp he
    obtain ⟨q', hq', hfile⟩ := hheld c hc
    obtain rfl : q' = q := Except.ok.inj ((hafter.place hq').symm.trans hq)
    obtain ⟨c', hfile'⟩ := hafter.files q' _ hfile
    simp [hfile']
  obtain ⟨T, hT⟩ := exists_stem?_baseFor (hmade.wellFormed hwf₁) hwrites
  obtain ⟨⟨q, hq, hfile⟩, -⟩ := FileTree.returns_read.mp hread
  obtain ⟨S, hS⟩ := hwf₁.exists_stem? hq (by simp [hfile])
  have hpath {e : String} (he : e ∈ extensions a.emitIr) :=
    pathFor_eq (a.leadsInto_directoryFor f) hS hT (isExtension he)
  refine ⟨S, source, artifact, log₁, hS, hread, hcompiled, ?_, hwritten ▸ hstep, ?_, ?_⟩
  · rw [hwritten]
    exact List.map_congr_left fun e he => hpath he
  · intro g S' hS' hdot hdot'
    exact shares_of_collide (hafter.wellFormed (hstep.wellFormed hwf₁)) hfiles hS hdot
      (ne_up_of_stem?_baseFor hS hT) hS' hdot'
  · intro hapart c hc
    have he : c.1 ∈ extensions a.emitIr :=
      map_fst_outputs artifact a.emitIr ▸ List.mem_map_of_mem hc
    rw [← hpath he, FileTree.returns_read]
    obtain ⟨q, hq, hfile⟩ := hheld c hc
    refine ⟨⟨q, hafter.place hq, hafter.keeps hfile fun r hr hr' => ?_⟩, rfl⟩
    obtain ⟨g, hg, hr⟩ := List.mem_flatMap.mp hr
    obtain ⟨hg, hstem⟩ := List.mem_filter.mp hg
    exact hapart g hg hstem ⟨q, _, List.mem_map_of_mem he, r, hr, hafter.place hq, hr'⟩

/-- A source with one marked function, which gives a number. -/
def constantSource (name value : String) : String :=
  "from wasmfunc import wasmfunc, i32\n\n@wasmfunc\ndef " ++ name ++ "() -> i32:\n    return " ++
    value ++ "\n"

def nestedTree : FileTree :=
  .ofFiles [("lib/m.py", constantSource "f" "1"), ("m.py", constantSource "g" "2"),
    ("lib/n.py", constantSource "h" "3")]

def nestedRun : Arguments := ⟨["missing.py", "lib/m.py", "m.py", "lib/n.py"], {}, none, true, 0⟩

/-- Outputs outlive those of a file of the same name elsewhere and of another file beside it, and a
file that is missing does not matter. -/
theorem compileAll_outputs_nested :
    ∃ source artifact log, Returns (compileSource {} "lib/m.py" source) [] (some artifact) log ∧
      ∀ c ∈ artifact.outputs true,
        Returns (FileTree.read ((Path.ofText "lib").join (named "m" c.1)))
          (nestedRun.treeAfter nestedRun.files nestedTree) c.2
          (nestedRun.treeAfter nestedRun.files nestedTree) := by
  have ht : nestedTree.WellFormed := FileTree.wellFormed_ofFiles _
  obtain ⟨log, t₂, hrun⟩ : ∃ log t₂,
      Ends (compileFile nestedRun.options nestedRun.output (.ofText "lib/m.py")) []
        (nestedRun.treeAfter ["missing.py"] nestedTree)
        (["lib/m.wasm", "lib/m.wat", "lib/m.ir"].map Path.ofText) log t₂ :=
    ⟨_, _, .of_toOption (by decide +kernel)⟩
  obtain ⟨S, source, artifact, log₁, hS, -, hcompiled, -, -, hshares, hheld⟩ :=
    compileAll_outputs nestedRun ["missing.py"] ["m.py", "lib/n.py"] ht rfl hrun (by decide) rfl
  obtain rfl : "m" = S := Option.some.inj hS
  refine ⟨source, artifact, log₁, hcompiled, hheld fun g hg _ hcollide => ?_⟩
  rcases List.mem_pair.mp hg with rfl | rfl
  · obtain ⟨hdirectory | ⟨d, hd, hd'⟩, -⟩ :=
      hshares "m.py" "m" (by decide) (by decide) (by decide) hcollide
    · cases hdirectory
    · have hkeeps := nestedRun.evolves_treeAfter ["missing.py", "lib/m.py", "m.py", "lib/n.py"] ht
      have hlib : nestedTree.follow .bare ["lib"] = .ok ["work", "lib"] := by decide +kernel
      have hhere : nestedTree.follow .bare [] = .ok ["work"] := by decide +kernel
      have hparent : (Path.ofText "lib/m.py").parent = ⟨.bare, ["lib"]⟩ := by decide
      have hparent' : (Path.ofText "m.py").parent = ⟨.bare, []⟩ := by decide
      rw [hparent] at hd
      rw [hparent'] at hd'
      obtain rfl := Except.ok.inj (hd.symm.trans (hkeeps.follow hlib))
      cases hd'.symm.trans (hkeeps.follow hhere)
  · obtain ⟨-, hstems⟩ := hshares "lib/n.py" "n" (by decide) (by decide) (by decide) hcollide
    revert hstems
    decide

/-- Two files with different stems whose outputs are one: those of the first are lost. -/
theorem outputs_lost_to_dotted_name :
    (Path.ofText "a.b.py").stem? = some "a.b" ∧ (Path.ofText "a.c.py").stem? = some "a.c" ∧
      ∃ t₁ t₂ log₁ log₂,
        Ends (compileFile {} ⟨none, true⟩ (.ofText "a.b.py")) []
          (.ofFiles [("a.b.py", constantSource "f" "1"), ("a.c.py", constantSource "g" "2")])
          (["a.wasm", "a.wat", "a.ir"].map Path.ofText) log₁ t₁ ∧
        Ends (compileFile {} ⟨none, true⟩ (.ofText "a.c.py")) [] t₁
          (["a.wasm", "a.wat", "a.ir"].map Path.ofText) log₂ t₂ ∧
        ((FileTree.read (.ofText "a.ir")).run.run t₂).1.toOption =
          some ("(module\n  (func $g (result i32)\n" ++
            "    (return\n      (i32.const 2)\n    )\n  )\n)").toUTF8 := by
  refine ⟨by decide, by decide, _, _, _, _, .of_toOption ?_, .of_toOption ?_, ?_⟩
  · decide +kernel
  · decide +kernel
  · decide +kernel

end AnnotatedWasm
