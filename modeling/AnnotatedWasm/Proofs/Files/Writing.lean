import AnnotatedWasm.Command.Run
import AnnotatedWasm.Proofs.Files.Trees

/-!
What the compilation of a file does to the file tree.

`Touches` says which files a computation can change, however it ends, and `Ends` what it ends with
if it succeeds. A file that compiles is read once and its outputs are written one after the other.
-/

namespace AnnotatedWasm

open FileTree (EvolvesBy)

variable {α β : Type} {t t' : FileTree} {log log' : List Event} {paths : List Path}

section Rules

variable {x : LoggedT FileFailure (StateM FileTree) α}

/-- However the computation ends that starts with `t`, only the files to which paths lead have
changed. -/
def Touches (paths : List Path) (t : FileTree) (x : LoggedT FileFailure (StateM FileTree) α) :
    Prop :=
  ∀ log, t.Evolves paths ((x.run.run log).run t).2

/-- The computation succeeds. -/
def Ends (x : LoggedT FileFailure (StateM FileTree) α) (log : List Event) (t : FileTree) (a : α)
    (log' : List Event) (t' : FileTree) : Prop :=
  (x.run.run log).run t = ((.ok a, log'), t')

lemma run_attempt (blame : FileError → FileFailure) (y : FileTree.Access α) (log : List Event)
    (t : FileTree) : ((attempt blame y).run.run log).run t =
      (((y.run.run t).1.mapError blame, log), (y.run.run t).2) := by
  unfold attempt
  rw [ExceptT.run_mk, StateT.run_bind, StateT.run_bind]
  have hlift : StateT.run ((liftM y.run : StateT (List Event) (StateM FileTree) _).run log) t =
      (do let r ← y.run.run t; pure ((r.1, log), r.2) : Id _) := rfl
  rw [hlift]
  rcases y.run.run t with ⟨e | a, t'⟩ <;> rfl

namespace Touches

lemma pure (a : α) : Touches paths t (pure a) := fun _ => .refl paths t

lemma throw (e : FileFailure) : Touches paths t (throw e : LoggedT _ _ α) := fun _ => .refl paths t

lemma bind_of_ends {f : α → LoggedT FileFailure (StateM FileTree) β} (hx : Touches paths t x)
    (hf : ∀ a log log' t', Ends x log t a log' t' → Touches paths t' (f a)) :
    Touches paths t (x >>= f) := by
  intro log
  have hstep := hx log
  rw [ExceptT.run_bind, StateT.run_bind, StateT.run_bind]
  rcases hrun : (x.run.run log).run t with ⟨⟨e | a, log'⟩, t'⟩
  · rw [hrun] at hstep
    exact hstep
  · rw [hrun] at hstep
    exact hstep.trans (hf a log log' t' hrun log')

lemma bind {f : α → LoggedT FileFailure (StateM FileTree) β} (hx : Touches paths t x)
    (hf : ∀ a t', Touches paths t' (f a)) : Touches paths t (x >>= f) :=
  .bind_of_ends hx fun a _ _ t' _ => hf a t'

lemma report (e : Event) : Touches paths t (report e) := fun _ => .refl paths t

lemma embed (y : Logged FileFailure α) : Touches paths t y.embed := fun _ => .refl paths t

lemma attempt {blame : FileError → FileFailure} {y : FileTree.Access α}
    (h : EvolvesBy paths t y) : Touches paths t (attempt blame y) := by
  intro log
  rw [run_attempt]
  exact h

end Touches

namespace Ends

lemma bind_iff {f : α → LoggedT FileFailure (StateM FileTree) β} {b : β} :
    Ends (x >>= f) log t b log' t' ↔ ∃ a log₁ t₁, Ends x log t a log₁ t₁ ∧
      Ends (f a) log₁ t₁ b log' t' := by
  unfold Ends
  rw [ExceptT.run_bind, StateT.run_bind, StateT.run_bind]
  rcases hrun : (x.run.run log).run t with ⟨⟨e | a, log₁⟩, t₁⟩
  · constructor
    · intro h
      cases h
    · rintro ⟨_, _, _, h, -⟩
      cases h
  · constructor
    · exact fun h => ⟨a, log₁, t₁, rfl, h⟩
    · rintro ⟨_, _, _, h, h'⟩
      cases h
      exact h'

lemma of_toOption {a : α} (h : ((x.run.run log).run t).1.1.toOption = some a) :
    Ends x log t a ((x.run.run log).run t).1.2 ((x.run.run log).run t).2 := by
  unfold Ends
  rcases hrun : (x.run.run log).run t with ⟨⟨e | b, log'⟩, t'⟩
  · simp [hrun, Except.toOption] at h
  · rw [hrun] at h
    cases h
    rfl

lemma pure_iff {a b : α} : Ends (pure a) log t b log' t' ↔ b = a ∧ log' = log ∧ t' = t := by
  constructor
  · intro h
    cases h
    exact ⟨rfl, rfl, rfl⟩
  · rintro ⟨rfl, rfl, rfl⟩
    rfl

lemma report_iff {e : Event} {u : Unit} :
    Ends (report e) log t u log' t' ↔ log' = log ++ [e] ∧ t' = t := by
  constructor
  · intro h
    cases h
    exact ⟨rfl, rfl⟩
  · rintro ⟨rfl, rfl⟩
    rfl

lemma embed_iff {y : Logged FileFailure α} {a : α} :
    Ends y.embed log t a log' t' ↔ Returns y log a log' ∧ t' = t := by
  have hrun : ((y.embed : LoggedT FileFailure (StateM FileTree) α).run.run log).run t =
      (y.run.run log, t) := rfl
  rw [Ends, hrun, Returns, Prod.mk.injEq, eq_comm (a := t)]

lemma attempt_iff {blame : FileError → FileFailure} {y : FileTree.Access α} {a : α} :
    Ends (attempt blame y) log t a log' t' ↔ Returns y t a t' ∧ log' = log := by
  rw [Ends, run_attempt, Returns]
  rcases hrun : y.run.run t with ⟨e | b, t₁⟩
  · constructor
    · intro h
      cases h
    · rintro ⟨h, -⟩
      cases h
  · constructor
    · intro h
      cases h
      exact ⟨rfl, rfl⟩
    · rintro ⟨h, rfl⟩
      cases h
      rfl

end Ends

end Rules

/-! ### Outputs -/

/-- What is written for a compiled source, by its extension. -/
def Artifact.outputs (a : Artifact) (listing : Bool) : List (String × ByteArray) :=
  [("wasm", ⟨a.bytes.toArray⟩), ("wat", a.binary.text.toUTF8)] ++
    if listing then [("ir", a.module.listing.toUTF8)] else []

def extensions (listing : Bool) : List String := ["wasm", "wat"] ++ if listing then ["ir"] else []

lemma map_fst_outputs (a : Artifact) (listing : Bool) :
    (a.outputs listing).map Prod.fst = extensions listing := by
  cases listing <;> rfl

lemma isExtension {listing : Bool} {e : String} (h : e ∈ extensions listing) :
    Path.IsExtension e := by
  have hmem : e ∈ extensions true := by
    cases listing with
    | true => exact h
    | false => exact List.mem_append_left _ (by simpa [extensions] using h)
  simp only [extensions, if_true, List.cons_append, List.nil_append, List.mem_cons,
    List.not_mem_nil, or_false] at hmem
  rcases hmem with rfl | rfl | rfl <;> exact ⟨by decide, by decide, by decide⟩

/-- The paths that may be written for a file. -/
def Output.pathsFor (o : Output) (path : Path) : List Path :=
  (extensions o.listing).map (o.pathFor path)

section Compiling

variable {options : Options} {o : Output} {path : Path} {a : Artifact}

lemma touches_writeFile {c : ByteArray} (h : path ∈ paths) : Touches paths t (writeFile path c) :=
  .attempt ((FileTree.evolves_write path c).mono (by simpa using h))

lemma touches_readSource (path : Path) : Touches paths t (readSource path) := by
  refine .bind (.attempt (FileTree.evolves_read path)) fun bytes t' => ?_
  split
  · exact .pure _
  · exact .throw _

/-- The outputs of a file, once its directory is there. -/
def writeOutputs (o : Output) (path : Path) (a : Artifact) :
    LoggedT FileFailure (StateM FileTree) (List Path) := do
  writeBinary (o.pathFor path "wasm") a.bytes
  writeText (o.pathFor path "wat") a.binary
  if o.listing then
    writeListing (o.pathFor path "ir") a.module
    return [o.pathFor path "wasm", o.pathFor path "wat", o.pathFor path "ir"]
  return [o.pathFor path "wasm", o.pathFor path "wat"]

lemma writeArtifact_eq (o : Output) (path : Path) (a : Artifact) : writeArtifact o path a =
    if (o.directoryFor path).isEmpty then writeOutputs o path a
    else attempt (.write (o.directoryFor path)) (Files.makeDirectories (o.directoryFor path)) >>=
      fun _ => writeOutputs o path a := rfl

lemma touches_writeOutputs (o : Output) (path : Path) (a : Artifact) :
    Touches (o.pathsFor path) t (writeOutputs o path a) := by
  have hbinary : o.pathFor path "wasm" ∈ o.pathsFor path := by simp [Output.pathsFor, extensions]
  have htext : o.pathFor path "wat" ∈ o.pathsFor path := by simp [Output.pathsFor, extensions]
  refine .bind (.bind (touches_writeFile hbinary) fun _ _ => .report _) fun _ _ => ?_
  refine .bind (.bind (touches_writeFile htext) fun _ _ => .report _) fun _ _ => ?_
  split
  · next h =>
    have hlisting : o.pathFor path "ir" ∈ o.pathsFor path := by
      simp [Output.pathsFor, extensions, h]
    refine .bind (.bind (touches_writeFile hlisting) fun _ _ => .report _) fun _ _ => ?_
    exact .pure _
  · exact .pure _

lemma touches_writeArtifact (o : Output) (path : Path) (a : Artifact) :
    Touches (o.pathsFor path) t (writeArtifact o path a) := by
  rw [writeArtifact_eq]
  split
  · exact touches_writeOutputs o path a
  · refine .bind (.attempt (FileTree.evolves_makeDirectories _)) fun _ _ => ?_
    exact touches_writeOutputs o path a

/-- Whether a file compiles or not, no file changes but its outputs. -/
lemma touches_compileFile (options : Options) (o : Output) (path : Path) :
    Touches (o.pathsFor path) t (compileFile options o path) := by
  refine .bind (touches_readSource path) fun source t' => .bind (.embed _) fun compiled t' => ?_
  cases compiled with
  | none => exact .bind (.report _) fun _ _ => .pure _
  | some a => exact touches_writeArtifact o path a

end Compiling

/-! ### Files that compile -/

/-- Files are written one after the other. -/
inductive Writes : List (Path × ByteArray) → FileTree → FileTree → Prop
  | nil (t : FileTree) : Writes [] t t
  | cons {path : Path} {c : ByteArray} {files : List (Path × ByteArray)} {t t₁ t' : FileTree} :
      Returns (FileTree.write path c) t () t₁ → Writes files t₁ t' →
      Writes ((path, c) :: files) t t'

lemma Writes.evolves {files : List (Path × ByteArray)} (h : Writes files t t') :
    t.Evolves (files.map Prod.fst) t' := by
  induction h with
  | nil t => exact .refl _ t
  | cons hwrite _ ih =>
    obtain ⟨q, hq, hnew, rfl⟩ := FileTree.returns_write hwrite
    exact ((FileTree.Evolves.put_file hq hnew).mono (by simp)).trans (ih.mono (by simp))

lemma Writes.head {x : Path × ByteArray} {files : List (Path × ByteArray)}
    (h : Writes (x :: files) t t') : ∃ t₁, Returns (FileTree.write x.1 x.2) t () t₁ := by
  cases h with
  | cons hwrite _ => exact ⟨_, hwrite⟩

/-- Where no two paths lead to one place, every file ends up with what was written to it. -/
lemma Writes.get? {files : List (Path × ByteArray)} (h : Writes files t t')
    (hapart : files.Pairwise fun x y => ∀ q, t'.place x.1 = .ok q → t'.place y.1 ≠ .ok q) :
    ∀ x ∈ files, ∃ q, t'.place x.1 = .ok q ∧ t'.get? q = some (.file x.2) := by
  induction h with
  | nil t => simp
  | @cons path c files t t₁ t' hwrite hrest ih =>
    obtain ⟨hfirst, hapart⟩ := List.pairwise_cons.mp hapart
    refine List.forall_mem_cons.mpr ⟨?_, ih hapart⟩
    obtain ⟨q, hq, hnew, rfl⟩ := FileTree.returns_write hwrite
    have hwritten : (t.put q (.file c)).get? q = some (.file c) := by
      refine FileTree.get?_put_self ?_
      rintro rfl
      exact hnew rfl
    have hplace : t'.place path = .ok q :=
      hrest.evolves.place ((FileTree.Evolves.put_file hq hnew).place hq)
    -- the files that follow are written elsewhere
    refine ⟨q, hplace, hrest.evolves.keeps hwritten fun r hr => ?_⟩
    obtain ⟨x, hx, rfl⟩ := List.mem_map.mp hr
    exact hfirst x hx q hplace

section Compiled

variable {options : Options} {o : Output} {path : Path} {a : Artifact} {written : List Path}

lemma returns_of_writeFile {c : ByteArray} {e : Event} {u : Unit}
    (h : Ends (writeFile path c >>= fun _ => report e) log t u log' t') :
    Returns (FileTree.write path c) t () t' := by
  obtain ⟨_, _, _, hwrite, hreport⟩ := Ends.bind_iff.mp h
  obtain ⟨-, rfl⟩ := Ends.report_iff.mp hreport
  exact (Ends.attempt_iff.mp hwrite).1

lemma writes_of_writeOutputs (h : Ends (writeOutputs o path a) log t written log' t') :
    Writes ((a.outputs o.listing).map fun c => (o.pathFor path c.1, c.2)) t t' ∧
      written = o.pathsFor path := by
  obtain ⟨_, _, t₁, hbinary, h⟩ := Ends.bind_iff.mp h
  obtain ⟨_, _, t₂, htext, h⟩ := Ends.bind_iff.mp h
  have hbinary := returns_of_writeFile hbinary
  have htext := returns_of_writeFile htext
  unfold Artifact.outputs Output.pathsFor extensions
  split at h
  · next hlisting =>
    rw [hlisting]
    obtain ⟨_, _, t₃, hlast, h⟩ := Ends.bind_iff.mp h
    obtain ⟨rfl, -, rfl⟩ := Ends.pure_iff.mp h
    exact ⟨.cons hbinary (.cons htext (.cons (returns_of_writeFile hlast) (.nil _))), rfl⟩
  · next hlisting =>
    rw [Bool.not_eq_true] at hlisting
    rw [hlisting]
    obtain ⟨rfl, -, rfl⟩ := Ends.pure_iff.mp h
    exact ⟨.cons hbinary (.cons htext (.nil _)), rfl⟩

/-- Only directories are made before the outputs are written. -/
lemma writes_of_writeArtifact (h : Ends (writeArtifact o path a) log t written log' t') :
    ∃ t₁, t.Evolves [] t₁ ∧
      Writes ((a.outputs o.listing).map fun c => (o.pathFor path c.1, c.2)) t₁ t' ∧
      written = o.pathsFor path := by
  rw [writeArtifact_eq] at h
  split at h
  · exact ⟨t, .refl _ t, writes_of_writeOutputs h⟩
  · obtain ⟨_, _, t₁, hdirectories, h⟩ := Ends.bind_iff.mp h
    have hmade : Returns (FileTree.makeDirectories (o.directoryFor path)) t _ t₁ :=
      (Ends.attempt_iff.mp hdirectories).1
    have hevolves : EvolvesBy [] t (FileTree.makeDirectories (o.directoryFor path)) :=
      FileTree.evolves_makeDirectories _
    rw [EvolvesBy, hmade] at hevolves
    exact ⟨t₁, hevolves, writes_of_writeOutputs h⟩

lemma toUTF8_of_fromUTF8? {bytes : ByteArray} {s : String} (h : String.fromUTF8? bytes = some s) :
    s.toUTF8 = bytes := by
  unfold String.fromUTF8? at h
  split at h
  · cases h
    rfl
  · cases h

lemma of_readSource {source : String} (h : Ends (readSource path) log t source log' t') :
    Returns (FileTree.read path) t source.toUTF8 t ∧ log' = log ∧ t' = t := by
  obtain ⟨bytes, log₁, t₁, hattempt, hrest⟩ := Ends.bind_iff.mp h
  obtain ⟨hread, rfl⟩ := Ends.attempt_iff.mp hattempt
  obtain ⟨-, rfl⟩ := FileTree.returns_read.mp hread
  split at hrest
  · next text htext =>
    obtain ⟨rfl, rfl, rfl⟩ := Ends.pure_iff.mp hrest
    rw [toUTF8_of_fromUTF8? htext]
    exact ⟨hread, rfl, rfl⟩
  · cases hrest

/-- A file with marked functions that compiles: what is read, what it compiles to and what is
written. -/
lemma of_compileFile (h : Ends (compileFile options o path) log t written log' t')
    (hne : written ≠ []) :
    ∃ source a log₁ t₁, Returns (FileTree.read path) t source.toUTF8 t ∧
      Returns (compileSource options path.text source) log (some a) log₁ ∧ t.Evolves [] t₁ ∧
      Writes ((a.outputs o.listing).map fun c => (o.pathFor path c.1, c.2)) t₁ t' ∧
      written = o.pathsFor path := by
  obtain ⟨source, _, _, hsource, hrest⟩ := Ends.bind_iff.mp h
  obtain ⟨hread, rfl, rfl⟩ := of_readSource hsource
  obtain ⟨compiled, log₁, _, hembed, hlast⟩ := Ends.bind_iff.mp hrest
  obtain ⟨hcompiled, rfl⟩ := Ends.embed_iff.mp hembed
  rw [Returns.adapt_iff] at hcompiled
  cases compiled with
  | none =>
    obtain ⟨_, _, _, -, hnil⟩ := Ends.bind_iff.mp hlast
    exact absurd (Ends.pure_iff.mp hnil).1 hne
  | some a =>
    obtain ⟨t₁, hmade, hwrites, hwritten⟩ := writes_of_writeArtifact hlast
    exact ⟨source, a, log₁, t₁, hread, hcompiled, hmade, hwrites, hwritten⟩

/-- A path that names no file leads to none that could be read. -/
lemma touches_nameless (options : Options) (o : Output) (ht : t.WellFormed)
    (h : path.stem? = none) : Touches [] t (compileFile options o path) := by
  refine .bind_of_ends (touches_readSource path) fun source log log' t' hends => ?_
  obtain ⟨hread, -⟩ := of_readSource hends
  obtain ⟨⟨q, hq, hfile⟩, -⟩ := FileTree.returns_read.mp hread
  obtain ⟨S, hS⟩ := ht.exists_stem? hq (by simp [hfile])
  rw [h] at hS
  cases hS

end Compiled

end AnnotatedWasm
