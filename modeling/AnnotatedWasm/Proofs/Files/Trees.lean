import AnnotatedWasm.Files.Tree
import AnnotatedWasm.Proofs.Files.Paths
import AnnotatedWasm.Proofs.Returns

/-!
How a file tree can change.

Nothing is ever removed: a directory stays one, and so does a file. `Evolves paths t t'` says that,
and that only the files to which `paths` lead have changed. Since paths are followed through
directories alone, a path that leads somewhere leads there for good.
-/

namespace AnnotatedWasm.FileTree

variable {t t' t'' : FileTree} {p q : Place} {e : FileEntry} {path : Path} {start : PathStart}
  {steps : List String}

/-! ### Entries -/

lemma lookup_filter_ne (entries : List (Place × FileEntry)) (h : q ≠ p) :
    (entries.filter (·.1 ≠ p)).lookup q = entries.lookup q := by
  induction entries with
  | nil => rfl
  | cons entry entries ih =>
    obtain ⟨r, e⟩ := entry
    by_cases hr : r = p
    · subst hr
      rw [List.filter_cons_of_neg (by simp), ih, List.lookup_cons, beq_false_of_ne h]
    · rw [List.filter_cons_of_pos (by simpa using hr), List.lookup_cons, List.lookup_cons, ih]

lemma get?_put_self (hp : p ≠ []) : (t.put p e).get? p = some e := by
  simp [get?, put, hp]

lemma get?_put_of_ne (h : q ≠ p) : (t.put p e).get? q = t.get? q := by
  simp only [get?, put, List.lookup_cons, beq_false_of_ne h, lookup_filter_ne _ h]

@[simp] lemma working_put : (t.put p e).working = t.working := rfl

/-! ### Ways -/

/-- Where a step from a directory leads. -/
def onward (p : Place) (name : String) : Place :=
  if Path.staysPut name then p else if name = ".." then p.dropLast else p ++ [name]

lemma step_eq_ok {name : String} :
    t.step p name = .ok q ↔ t.get? p = some .directory ∧ q = onward p name := by
  unfold step onward
  cases h : t.get? p with
  | none => simp [throw, throwThe, MonadExceptOf.throw]
  | some entry =>
    cases entry with
    | file contents => simp [throw, throwThe, MonadExceptOf.throw]
    | directory =>
      split_ifs <;> simp [pure, Except.pure, eq_comm]

lemma follow_concat {name : String} :
    t.follow start (steps ++ [name]) = .ok q ↔
      ∃ d, t.follow start steps = .ok d ∧ t.get? d = some .directory ∧ q = onward d name := by
  rw [follow, follow, List.foldlM_append]
  cases List.foldlM t.step (if start = .root then [] else t.working) steps with
  | error e => simp [Bind.bind, Except.bind]
  | ok d =>
    simp only [Bind.bind, Except.bind, List.foldlM_cons, List.foldlM_nil, Except.ok.injEq,
      ← step_eq_ok, exists_eq_left']
    cases t.step d name <;> rfl

/-- Where there are the same directories and more, a path leads to the same place. -/
lemma follow_mono (hworking : t'.working = t.working)
    (h : ∀ p, t.get? p = some .directory → t'.get? p = some .directory)
    (hq : t.follow start steps = .ok q) :
    t'.follow start steps = .ok q := by
  induction steps using List.reverseRecOn generalizing q with
  | nil =>
    rw [follow, hworking]
    exact hq
  | append_singleton steps name ih =>
    obtain ⟨d, hd, hdir, rfl⟩ := follow_concat.mp hq
    exact follow_concat.mpr ⟨d, ih hd, h d hdir, rfl⟩

lemma place_mono (hworking : t'.working = t.working)
    (h : ∀ p, t.get? p = some .directory → t'.get? p = some .directory)
    (hq : t.place path = .ok q) : t'.place path = .ok q := by
  unfold place at hq ⊢
  split at hq
  · cases hq
  · rw [if_neg ‹_›]
    exact follow_mono hworking h hq

/-- The directories above every entry are there, and the working directory is. -/
structure WellFormed (t : FileTree) : Prop where
  working : t.get? t.working = some .directory
  above : ∀ p name e, t.get? (p ++ [name]) = some e → t.get? p = some .directory

lemma WellFormed.dropLast (h : t.WellFormed) (hp : t.get? p = some .directory) :
    t.get? p.dropLast = some .directory := by
  rcases List.eq_nil_or_concat' p with rfl | ⟨d, name, rfl⟩
  · rfl
  · rw [List.dropLast_concat]
    exact h.above d name _ hp

/-- A way ends at a directory, or with a step into one. -/
lemma WellFormed.of_follow (h : t.WellFormed) (hq : t.follow start steps = .ok q) :
    t.get? q = some .directory ∨ ∃ front name d, steps = front ++ [name] ∧
      Path.staysPut name = false ∧ name ≠ ".." ∧ q = d ++ [name] ∧ t.get? d = some .directory := by
  rcases List.eq_nil_or_concat' steps with rfl | ⟨front, name, rfl⟩
  · obtain rfl : (if start = .root then [] else t.working) = q := Except.ok.inj hq
    split
    · exact .inl rfl
    · exact .inl h.working
  · obtain ⟨d, -, hdir, rfl⟩ := follow_concat.mp hq
    unfold onward
    split_ifs with hstays hup
    · exact .inl hdir
    · exact .inl (h.dropLast hdir)
    · rw [Bool.not_eq_true] at hstays
      exact .inr ⟨front, name, d, rfl, hstays, hup, rfl, hdir⟩

lemma follow_of_place (hq : t.place path = .ok q) :
    t.follow path.start path.steps = .ok q := by
  unfold place at hq
  split at hq
  · cases hq
  · exact hq

/-- A path that leads to a file names it. -/
lemma WellFormed.exists_stem? (h : t.WellFormed) (hq : t.place path = .ok q)
    (hnot : t.get? q ≠ some .directory) : ∃ S, path.stem? = some S := by
  obtain ⟨front, name, d, hsteps, hstays, hup, -, -⟩ :=
    (h.of_follow (follow_of_place hq)).resolve_left hnot
  obtain ⟨start, steps⟩ := path
  obtain rfl : steps = front ++ [name] := hsteps
  exact ⟨_, Path.stem?_concat hstays hup⟩

/-- A new entry in a directory, that is no directory's place. -/
lemma WellFormed.put (h : t.WellFormed)
    (hq : t.follow start steps = .ok q) (hnew : t.get? q ≠ some .directory) :
    (t.put q e).WellFormed := by
  have hkeep (p : Place) (hp : t.get? p = some .directory) :
      (t.put q e).get? p = some .directory := by
    rw [get?_put_of_ne (by rintro rfl; exact hnew hp), hp]
  obtain ⟨-, name, d, -, -, -, rfl, hd⟩ := (h.of_follow hq).resolve_left hnew
  refine ⟨hkeep _ h.working, fun p name' e' hp => ?_⟩
  by_cases heq : p ++ [name'] = d ++ [name]
  · obtain ⟨rfl, -⟩ := List.append_inj' heq rfl
    exact hkeep p hd
  · rw [get?_put_of_ne heq] at hp
    exact hkeep p (h.above p name' e' hp)

/-! ### Changes -/

structure Evolves (paths : List Path) (t t' : FileTree) : Prop where
  working : t'.working = t.working
  directories : ∀ q, t.get? q = some .directory → t'.get? q = some .directory
  files : ∀ q c, t.get? q = some (.file c) → ∃ c', t'.get? q = some (.file c')
  wellFormed : t.WellFormed → t'.WellFormed
  /-- Every place is as it was, or a new directory, or one to which a path leads. -/
  changes : ∀ q, t'.get? q = t.get? q ∨ (t.get? q = none ∧ t'.get? q = some .directory) ∨
    ∃ path ∈ paths, t'.place path = .ok q

namespace Evolves

variable {paths paths' : List Path}

lemma refl (paths : List Path) (t : FileTree) : t.Evolves paths t :=
  ⟨rfl, fun _ h => h, fun _ c h => ⟨c, h⟩, fun h => h, fun _ => .inl rfl⟩

lemma place (h : t.Evolves paths t') (hq : t.place path = .ok q) :
    t'.place path = .ok q :=
  place_mono h.working h.directories hq

lemma follow (h : t.Evolves paths t')
    (hq : t.follow start steps = .ok q) : t'.follow start steps = .ok q :=
  follow_mono h.working h.directories hq

lemma trans (h : t.Evolves paths t') (h' : t'.Evolves paths t'') : t.Evolves paths t'' where
  working := h'.working.trans h.working
  directories q hq := h'.directories q (h.directories q hq)
  files q c hq := by
    obtain ⟨c', hc'⟩ := h.files q c hq
    exact h'.files q c' hc'
  wellFormed ht := h'.wellFormed (h.wellFormed ht)
  changes q := by
    rcases h'.changes q with hsame' | ⟨hnone', hdir'⟩ | hpath'
    · rcases h.changes q with hsame | ⟨hnone, hdir⟩ | ⟨path, hpath, hq⟩
      · exact .inl (hsame'.trans hsame)
      · exact .inr (.inl ⟨hnone, hsame'.trans hdir⟩)
      · exact .inr (.inr ⟨path, hpath, h'.place hq⟩)
    · rcases h.changes q with hsame | ⟨-, hdir⟩ | ⟨path, hpath, hq⟩
      · exact .inr (.inl ⟨hsame.symm.trans hnone', hdir'⟩)
      · rw [hdir] at hnone'
        cases hnone'
      · exact .inr (.inr ⟨path, hpath, h'.place hq⟩)
    · exact .inr (.inr hpath')

lemma mono (h : t.Evolves paths t') (hsub : paths ⊆ paths') : t.Evolves paths' t' :=
  { h with
    changes q := (h.changes q).imp_right (.imp_right fun ⟨path, hpath, hq⟩ =>
      ⟨path, hsub hpath, hq⟩) }

/-- A file keeps its contents unless a path that is written to leads to it. -/
lemma keeps {c : ByteArray} (h : t.Evolves paths t')
    (hc : t.get? q = some (.file c)) (hapart : ∀ r ∈ paths, t'.place r ≠ .ok q) :
    t'.get? q = some (.file c) := by
  rcases h.changes q with hsame | ⟨hnone, -⟩ | ⟨r, hr, hq⟩
  · rw [hsame, hc]
  · rw [hc] at hnone
    cases hnone
  · exact absurd hq (hapart r hr)

/-- A file that is written. -/
lemma put_file {c : ByteArray} (hq : t.place path = .ok q)
    (hnew : t.get? q ≠ some .directory) : t.Evolves [path] (t.put q (.file c)) := by
  have hne : q ≠ [] := by
    rintro rfl
    exact hnew rfl
  have hkeep (p : Place) (hp : t.get? p = some .directory) :
      (t.put q (.file c)).get? p = some .directory := by
    rw [get?_put_of_ne (by rintro rfl; exact hnew hp), hp]
  refine ⟨rfl, hkeep, fun p c' hp => ?_, fun h => h.put (follow_of_place hq) hnew, fun p => ?_⟩
  · by_cases heq : p = q
    · subst heq
      exact ⟨c, get?_put_self hne⟩
    · exact ⟨c', by rw [get?_put_of_ne heq, hp]⟩
  · by_cases heq : p = q
    · subst heq
      exact .inr (.inr ⟨path, List.mem_singleton_self _, place_mono working_put hkeep hq⟩)
    · exact .inl (get?_put_of_ne heq)

/-- A directory that is made. -/
lemma put_directory (hq : t.follow start steps = .ok q)
    (hnone : t.get? q = none) : t.Evolves paths (t.put q .directory) := by
  have hne : q ≠ [] := by
    rintro rfl
    cases hnone
  have hkeep (p : Place) (e : FileEntry) (hp : t.get? p = some e) :
      (t.put q .directory).get? p = some e := by
    rw [get?_put_of_ne (by rintro rfl; simp [hnone] at hp), hp]
  refine ⟨rfl, fun p hp => hkeep p _ hp, fun p c hp => ⟨c, hkeep p _ hp⟩,
    fun h => h.put hq (by simp [hnone]), fun p => ?_⟩
  by_cases heq : p = q
  · subst heq
    exact .inr (.inl ⟨hnone, get?_put_self hne⟩)
  · exact .inl (get?_put_of_ne heq)

end Evolves

/-! ### Access -/

section

variable {α β : Type} {paths : List Path} {x : Access α}

/-- However the computation ends that starts with `t`, only the files to which paths lead have
changed. -/
def EvolvesBy (paths : List Path) (t : FileTree) (x : Access α) : Prop :=
  t.Evolves paths (x.run.run t).2

namespace EvolvesBy

lemma pure (a : α) : EvolvesBy paths t (pure a : Access α) := .refl paths t

lemma throw (e : FileError) : EvolvesBy paths t (throw e : Access α) := .refl paths t

lemma bind {f : α → Access β} (hx : EvolvesBy paths t x)
    (hf : ∀ a t', EvolvesBy paths t' (f a)) : EvolvesBy paths t (x >>= f) := by
  unfold EvolvesBy at hx ⊢
  rw [ExceptT.run_bind, StateT.run_bind]
  rcases hrun : x.run.run t with ⟨e | a, t'⟩
  · rw [hrun] at hx
    exact hx
  · rw [hrun] at hx
    exact hx.trans (hf a t')

lemma get_bind {f : FileTree → Access β} (h : EvolvesBy paths t (f t)) :
    EvolvesBy paths t (get >>= f) := h

lemma lift_bind {y : Except FileError α} {f : α → Access β}
    (h : ∀ a, y = .ok a → EvolvesBy paths t (f a)) : EvolvesBy paths t (liftM y >>= f) := by
  cases y with
  | error e => exact .refl paths t
  | ok a => exact h a rfl

lemma set (h : t.Evolves paths t') : EvolvesBy paths t (set t' : Access PUnit) := h

lemma tryCatch {handle : FileError → Access α} (hx : EvolvesBy paths t x)
    (hhandle : ∀ e t', EvolvesBy paths t' (handle e)) :
    EvolvesBy paths t (tryCatch x handle) := by
  unfold EvolvesBy at hx ⊢
  simp only [MonadExcept.tryCatch, tryCatchThe, MonadExceptOf.tryCatch, ExceptT.tryCatch,
    ExceptT.run_mk, StateT.run_bind]
  rcases h : x.run.run t with ⟨e | a, t'⟩
  · have hrun : StateT.run x t = (.error e, t') := h
    rw [h] at hx
    rw [hrun]
    exact hx.trans (hhandle e t')
  · have hrun : StateT.run x t = (.ok a, t') := h
    rw [h] at hx
    rw [hrun]
    exact hx

end EvolvesBy

lemma evolves_read (path : Path) : EvolvesBy paths t (read path) := by
  refine .get_bind (.lift_bind fun q _ => ?_)
  split
  · exact .throw _
  · exact .throw _
  · exact .pure _

lemma evolves_write (path : Path) (c : ByteArray) : EvolvesBy [path] t (write path c) := by
  refine .get_bind (.lift_bind fun q hq => ?_)
  split
  · exact .refl _ _
  · next hdir =>
    refine .set (.put_file hq fun h => hdir ?_)
    rw [h]
    rfl

lemma evolves_makeDirectory (path : Path) : EvolvesBy paths t (makeDirectory path) := by
  refine .get_bind ?_
  split
  · exact .refl _ _
  · refine .lift_bind fun q hq => ?_
    split
    · exact .refl _ _
    · next hnone => exact .set (.put_directory hq (by simpa using hnone))

lemma evolves_needDirectory (path : Path) : EvolvesBy paths t (needDirectory path) := by
  refine .tryCatch (evolves_makeDirectory path) fun e t' => .get_bind ?_
  split
  · exact .pure _
  · exact .throw _

lemma evolves_makeDirectoriesWithin (n : Nat) (path : Path) :
    EvolvesBy paths t (makeDirectoriesWithin n path) := by
  induction n generalizing path t with
  | zero => exact evolves_needDirectory path
  | succ n ih =>
    rw [makeDirectoriesWithin]
    split
    · exact .pure _
    · refine .tryCatch (evolves_needDirectory path) fun e t' => ?_
      split
      · exact .refl _ _
      · exact .bind (ih _) fun _ _ => evolves_needDirectory path

lemma evolves_makeDirectories (path : Path) : EvolvesBy paths t (makeDirectories path) :=
  evolves_makeDirectoriesWithin _ path

lemma returns_lift {y : Except FileError α} {a : α} :
    Returns (liftM y : Access α) t a t' ↔ y = .ok a ∧ t' = t := by
  constructor
  · intro h
    cases y with
    | error e => cases h
    | ok b =>
      cases h
      exact ⟨rfl, rfl⟩
  · rintro ⟨rfl, rfl⟩
    rfl

lemma returns_read {c : ByteArray} :
    Returns (read path) t c t' ↔
      (∃ q, t.place path = .ok q ∧ t.get? q = some (.file c)) ∧ t' = t := by
  unfold read
  simp only [Returns.bind_iff, Returns.get_iff, returns_lift]
  constructor
  · rintro ⟨_, _, ⟨rfl, rfl⟩, q, _, ⟨hq, rfl⟩, h⟩
    split at h
    · cases h
    · cases h
    · next hentry =>
      obtain ⟨rfl, rfl⟩ := Returns.pure_iff.mp h
      exact ⟨⟨q, hq, hentry⟩, rfl⟩
  · rintro ⟨⟨q, hq, hentry⟩, rfl⟩
    refine ⟨_, _, ⟨rfl, rfl⟩, q, _, ⟨hq, rfl⟩, ?_⟩
    rw [hentry]
    exact Returns.pure_iff.mpr ⟨rfl, rfl⟩

lemma returns_write {c : ByteArray} {u : Unit} (h : Returns (write path c) t u t') :
    ∃ q, t.place path = .ok q ∧ t.get? q ≠ some .directory ∧ t' = t.put q (.file c) := by
  unfold write at h
  simp only [Returns.bind_iff, Returns.get_iff, returns_lift] at h
  obtain ⟨_, _, ⟨rfl, rfl⟩, q, _, ⟨hq, rfl⟩, h⟩ := h
  split at h
  · simp at h
  · next hdir =>
    refine ⟨q, hq, fun hentry => hdir ?_, Returns.set_iff.mp h⟩
    rw [hentry]
    rfl

lemma evolves_addFile (path : Path) (c : ByteArray) : EvolvesBy [path] t (addFile path c) :=
  .bind (evolves_makeDirectories _) fun _ _ => evolves_write path c

end

/-! ### Trees of files -/

lemma wellFormed_empty : empty.WellFormed := by
  refine ⟨rfl, fun p name e h => ?_⟩
  rcases p with _ | ⟨first, p⟩
  · rfl
  · have hne : first :: p ++ [name] ≠ ["work"] := by simp
    have hnone : empty.get? (first :: p ++ [name]) = none := by
      simp only [get?, empty, List.lookup_cons, beq_false_of_ne hne]
      rfl
    rw [hnone] at h
    cases h

/-- The tree with these files and nothing else. -/
def ofFiles (files : List (String × String)) : FileTree :=
  files.foldl (fun t file => ((addFile (.ofText file.1) file.2.toUTF8).run.run t).2) empty

lemma wellFormed_ofFiles (files : List (String × String)) : (ofFiles files).WellFormed := by
  unfold ofFiles
  refine List.foldlRecOn files _ wellFormed_empty fun t ht file _ => ?_
  have hadd : EvolvesBy _ t (addFile (.ofText file.1) file.2.toUTF8) := evolves_addFile _ _
  exact hadd.wellFormed ht

end AnnotatedWasm.FileTree
