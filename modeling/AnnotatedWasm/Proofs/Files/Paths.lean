import Mathlib
import AnnotatedWasm.CompileFile

/-!
Paths and the texts they are written as.

A directory's text, with a slash behind it where one is needed, is what the paths into the directory
start with: `join_concat` reads such a path back. From it follows what the outputs of a file are
called.
-/

namespace AnnotatedWasm.Path

/-! ### Steps -/

lemma split_ne_nil (cs : List Char) : split cs ≠ [] := by
  cases cs with
  | nil => simp [split]
  | cons c cs =>
    rw [split]
    split
    · simp
    · split <;> simp

lemma split_cons {c : Char} (hc : c ≠ '/') {cs p : List Char} {ps : List (List Char)}
    (h : split cs = p :: ps) : split (c :: cs) = (c :: p) :: ps := by
  rw [split, if_neg hc, h]

lemma split_append_slash (cs ds : List Char) : split (cs ++ '/' :: ds) = split cs ++ split ds := by
  induction cs with
  | nil => rfl
  | cons c cs ih =>
    obtain ⟨p, ps, hsplit⟩ := List.exists_cons_of_ne_nil (split_ne_nil cs)
    by_cases hc : c = '/'
    · subst hc
      simp [split, ih]
    · rw [hsplit] at ih
      rw [List.cons_append, split_cons hc ih, split_cons hc hsplit]
      rfl

lemma split_of_notMem {cs : List Char} (h : '/' ∉ cs) : split cs = [cs] := by
  induction cs with
  | nil => rfl
  | cons c cs ih =>
    rw [List.mem_cons, not_or] at h
    exact split_cons (Ne.symm h.1) (ih h.2)

lemma notMem_of_mem_split {cs p : List Char} (h : p ∈ split cs) : '/' ∉ p := by
  induction cs generalizing p with
  | nil => simp_all [split]
  | cons c cs ih =>
    obtain ⟨q, ps, hsplit⟩ := List.exists_cons_of_ne_nil (split_ne_nil cs)
    rw [hsplit] at ih
    by_cases hc : c = '/'
    · subst hc
      rw [split, if_pos rfl, hsplit, List.mem_cons] at h
      rcases h with rfl | h
      · nofun
      · exact ih h
    · rw [split_cons hc hsplit, List.mem_cons] at h
      rcases h with rfl | h
      · simp [Ne.symm hc, ih List.mem_cons_self]
      · exact ih (List.mem_cons_of_mem _ h)

lemma intercalate_split (cs : List Char) : ['/'].intercalate (split cs) = cs := by
  induction cs with
  | nil => rfl
  | cons c cs ih =>
    obtain ⟨p, ps, hsplit⟩ := List.exists_cons_of_ne_nil (split_ne_nil cs)
    rw [hsplit] at ih
    by_cases hc : c = '/'
    · subst hc
      rw [split, if_pos rfl, hsplit, List.intercalate_cons_cons, ih]
      rfl
    · rw [split_cons hc hsplit]
      cases ps with
      | nil => simpa using ih
      | cons q ps =>
        rw [List.intercalate_cons_cons] at ih ⊢
        simp [← ih]

/-- A text that can be a step, as it has no slash. -/
def OneStep (s : String) : Prop := '/' ∉ s.toList

instance : DecidablePred OneStep := fun s => inferInstanceAs (Decidable ('/' ∉ s.toList))

lemma stepsOf_ne_nil (cs : List Char) : stepsOf cs ≠ [] := by
  simp [stepsOf, split_ne_nil]

@[simp] lemma stepsOf_nil : stepsOf [] = [""] := rfl

lemma stepsOf_append_slash (cs ds : List Char) :
    stepsOf (cs ++ '/' :: ds) = stepsOf cs ++ stepsOf ds := by
  rw [stepsOf, split_append_slash, List.map_append, stepsOf, stepsOf]

lemma OneStep.stepsOf {s : String} (h : OneStep s) : stepsOf s.toList = [s] := by
  rw [Path.stepsOf, split_of_notMem h, List.map_singleton, String.ofList_toList]

lemma oneStep_of_mem_stepsOf {cs : List Char} {s : String} (h : s ∈ stepsOf cs) : OneStep s := by
  obtain ⟨p, hp, rfl⟩ := List.mem_map.mp h
  rw [OneStep, String.toList_ofList]
  exact notMem_of_mem_split hp

lemma intercalate_stepsOf (cs : List Char) :
    ['/'].intercalate ((stepsOf cs).map String.toList) = cs := by
  rw [stepsOf, List.map_map]
  have hid : String.toList ∘ String.ofList = id := funext fun _ => String.toList_ofList
  rw [hid, List.map_id]
  exact intercalate_split cs

lemma stepsOf_intercalate {ss : List String} (hne : ss ≠ []) (h : ∀ s ∈ ss, OneStep s) :
    stepsOf (String.intercalate "/" ss).toList = ss := by
  induction ss with
  | nil => exact absurd rfl hne
  | cons s ss ih =>
    obtain ⟨hs, hss⟩ := List.forall_mem_cons.mp h
    cases ss with
    | nil => simpa using hs.stepsOf
    | cons s' ss =>
      have hcut : (String.intercalate "/" (s :: s' :: ss)).toList =
          s.toList ++ '/' :: (String.intercalate "/" (s' :: ss)).toList := by
        simp [String.toList_intercalate]
      rw [hcut, stepsOf_append_slash, hs.stepsOf, ih (by simp) hss]
      rfl

/-! ### Texts -/

section

variable {x y : String} {cs : List Char}

lemma ofText_root (h : x.toList = '/' :: cs) : ofText x = ⟨.root, stepsOf cs⟩ := by
  simp [ofText, h]

lemma ofText_here (h : x.toList = '.' :: '/' :: cs) : ofText x = ⟨.here, "" :: stepsOf cs⟩ := by
  simp [ofText, h]

lemma ofText_bare (hroot : ∀ cs, x.toList ≠ '/' :: cs) (hdot : x.toList ≠ ['.'])
    (hhere : ∀ cs, x.toList ≠ '.' :: '/' :: cs) : ofText x = ⟨.bare, stepsOf x.toList⟩ := by
  unfold ofText
  split
  · exact absurd ‹_› (hroot _)
  · exact absurd ‹_› hdot
  · exact absurd ‹_› (hhere _)
  · rfl

lemma ofText_bare_slash {r : List Char} (hy : y.toList = r ++ '/' :: cs) (hnil : r ≠ [])
    (hroot : ∀ ds, r ≠ '/' :: ds) (hdot : r ≠ ['.']) (hhere : ∀ ds, r ≠ '.' :: '/' :: ds) :
    ofText y = ⟨.bare, stepsOf r ++ stepsOf cs⟩ := by
  rw [← stepsOf_append_slash, ← hy]
  obtain ⟨c, r, rfl⟩ := List.exists_cons_of_ne_nil hnil
  refine ofText_bare (fun ds h => ?_) (fun h => ?_) fun ds h => ?_
  · rw [hy, List.cons_append, List.cons.injEq] at h
    exact hroot r (by rw [h.1])
  · rw [hy] at h
    simp at h
  · rw [hy, List.cons_append, List.cons.injEq] at h
    cases r with
    | nil => exact hdot (by rw [h.1])
    | cons c' r =>
      rw [List.cons_append, List.cons.injEq] at h
      exact hhere r (by rw [h.1, h.2.1])

/-- The text up to a slash says where a path starts and which steps come first. -/
lemma ofText_of_slash {r : List Char} (hx : x.toList = r ++ ['/'])
    (hy : y.toList = r ++ '/' :: cs) :
    ofText y = ⟨(ofText x).start, (ofText x).steps.dropLast ++ stepsOf cs⟩ := by
  by_cases hnil : r = []
  · subst hnil
    rw [ofText_root hx, ofText_root hy]
    rfl
  by_cases hroot : ∃ ds, r = '/' :: ds
  · obtain ⟨ds, rfl⟩ := hroot
    rw [List.cons_append] at hx hy
    rw [ofText_root hx, ofText_root hy]
    simp only [stepsOf_append_slash, stepsOf_nil, List.dropLast_concat]
  by_cases hdot : r = ['.']
  · subst hdot
    rw [ofText_here hx, ofText_here hy]
    rfl
  by_cases hhere : ∃ ds, r = '.' :: '/' :: ds
  · obtain ⟨ds, rfl⟩ := hhere
    rw [List.cons_append, List.cons_append] at hx hy
    rw [ofText_here hx, ofText_here hy]
    simp only [stepsOf_append_slash, stepsOf_nil, ← List.cons_append, List.dropLast_concat]
  · rw [not_exists] at hroot hhere
    rw [ofText_bare_slash hx hnil hroot hdot hhere, ofText_bare_slash hy hnil hroot hdot hhere]
    simp only [stepsOf_nil, List.dropLast_concat]

/-- The text that a path has is the one it is read from. -/
lemma text_ofText (x : String) : (ofText x).text = x := by
  rw [← String.toList_inj]
  unfold ofText
  split <;> rename_i h
  · simp [text, PathStart.text, intercalate_stepsOf, h]
  · simp [text, PathStart.text, h]
  · obtain ⟨s, ss, hsteps⟩ := List.exists_cons_of_ne_nil (stepsOf_ne_nil ‹List Char›)
    have hcs := intercalate_stepsOf ‹List Char›
    rw [hsteps] at hcs ⊢
    simpa [text, PathStart.text, h] using hcs
  · simp [text, PathStart.text, intercalate_stepsOf]

end

/-! ### Directories -/

/-- What the texts of paths into a directory start with. -/
def lead (d : Path) : String :=
  if d.text.isEmpty || d.text.toList.getLast? = some '/' then d.text else d.text ++ "/"

lemma join_eq (d : Path) (name : String) : d.join name = ofText (d.lead ++ name) := by
  simp only [join, lead]
  split <;> rfl

lemma lead_cases (d : Path) : d.lead = "" ∨ ∃ r, d.lead.toList = r ++ ['/'] := by
  rw [lead]
  split
  · next h =>
    rcases Bool.or_eq_true_iff.mp h with h | h
    · exact .inl (String.isEmpty_iff.mp h)
    · exact .inr (List.getLast?_eq_some_iff.mp (of_decide_eq_true h))
  · exact .inr ⟨d.text.toList, by simp⟩

/-- The way to a directory as the paths into it have it. -/
def way (d : Path) : Path := ⟨(ofText d.lead).start, (ofText d.lead).steps.dropLast⟩

lemma ofText_of_lead {d : Path} {y : String} {r cs : List Char} (hr : d.lead.toList = r ++ ['/'])
    (hy : y.toList = r ++ '/' :: cs) : ofText y = ⟨d.way.start, d.way.steps ++ stepsOf cs⟩ := by
  rw [ofText_of_slash hr hy, way]

lemma join_concat (d : Path) {name : String} (hname : OneStep name) (hdot : name ≠ ".") :
    d.join name = ⟨d.way.start, d.way.steps ++ [name]⟩ := by
  rw [join_eq]
  rcases lead_cases d with hnil | ⟨r, hr⟩
  · rw [way, hnil, String.empty_append]
    have hbare : ofText name = ⟨.bare, stepsOf name.toList⟩ := by
      refine ofText_bare (fun cs h => ?_) (fun h => ?_) fun cs h => ?_
      · rw [OneStep, h] at hname
        simp at hname
      · exact hdot (String.toList_inj.mp h)
      · rw [OneStep, h] at hname
        simp at hname
    rw [hbare, hname.stepsOf]
    rfl
  · have happend : (d.lead ++ name).toList = r ++ '/' :: name.toList := by simp [hr]
    rw [ofText_of_lead hr happend, hname.stepsOf]

/-! ### Names -/

lemma trim_isPrefix (steps : List String) : trim steps <+: steps := by
  rw [trim, ← List.reverse_suffix, List.reverse_reverse]
  exact List.dropWhile_suffix _

lemma trim_concat {steps : List String} {s : String} (h : staysPut s = false) :
    trim (steps ++ [s]) = steps ++ [s] := by
  simp [trim, h]

lemma trim_concat_of_staysPut {steps : List String} {s : String} (h : staysPut s = true) :
    trim (steps ++ [s]) = trim steps := by
  simp [trim, h]

lemma staysPut_of_getLast?_trim {steps : List String} {s : String}
    (h : (trim steps).getLast? = some s) : staysPut s = false := by
  rw [trim, List.getLast?_reverse] at h
  have hhead := List.head?_dropWhile_not staysPut steps.reverse
  rwa [h] at hhead

lemma staysPut_eq_false {s : String} : staysPut s = false ↔ s ≠ "" ∧ s ≠ "." := by
  simp [staysPut]

lemma oneStep_of_mem_steps {x s : String} (h : s ∈ (ofText x).steps) : OneStep s := by
  unfold ofText at h
  split at h
  · exact oneStep_of_mem_stepsOf h
  · cases h
  · rcases List.mem_cons.mp h with rfl | h
    · nofun
    · exact oneStep_of_mem_stepsOf h
  · exact oneStep_of_mem_stepsOf h

lemma stemOf_isPrefix (name : String) : (stemOf name).toList <+: name.toList := by
  rw [stemOf]
  split
  · exact List.prefix_rfl
  · rw [String.toList_ofList, ← List.reverse_suffix, List.reverse_reverse]
    exact (List.drop_suffix _ _).trans (List.dropWhile_suffix _)

lemma OneStep.stemOf {name : String} (h : OneStep name) : OneStep (stemOf name) :=
  fun hmem => h ((stemOf_isPrefix name).subset hmem)

lemma stemOf_ne_empty {name : String} (h : name ≠ "") : stemOf name ≠ "" := by
  rw [stemOf]
  split
  · exact h
  · next hfront => simpa [← String.toList_inj] using hfront

/-- The stem of a path that a text names. -/
lemma of_stem? {x S : String} (h : (ofText x).stem? = some S) : OneStep S ∧ S ≠ "" := by
  obtain ⟨name, hname, rfl⟩ := Option.map_eq_some_iff.mp h
  obtain ⟨hlast, -⟩ := Option.filter_eq_some_iff.mp hname
  have hmem := (trim_isPrefix _).subset (List.mem_of_mem_getLast? hlast)
  have hstays := staysPut_eq_false.mp (staysPut_of_getLast?_trim hlast)
  exact ⟨(oneStep_of_mem_steps hmem).stemOf, stemOf_ne_empty hstays.1⟩

lemma staysPut_stem? {x S : String} (h : (ofText x).stem? = some S) (hdot : S ≠ ".") :
    staysPut S = false :=
  staysPut_eq_false.mpr ⟨(of_stem? h).2, hdot⟩

/-- What can follow the dot of a name. -/
structure IsExtension (e : String) : Prop where
  oneStep : OneStep e
  dotless : '.' ∉ e.toList
  ne_empty : e ≠ ""

/-- A name with an extension. -/
def named (stem e : String) : String := stem ++ "." ++ e

section Named

variable {T T' e e' : String}

lemma toList_named (T e : String) : (named T e).toList = T.toList ++ '.' :: e.toList := by
  simp [named]

lemma IsExtension.named_oneStep (he : IsExtension e) (hT : OneStep T) : OneStep (named T e) := by
  rw [OneStep, toList_named]
  simpa using ⟨hT, he.oneStep⟩

/-- A name with an extension is a step into the directory. -/
lemma IsExtension.named_steps (he : IsExtension e) (T : String) :
    staysPut (named T e) = false ∧ named T e ≠ ".." := by
  obtain ⟨es, c, hc⟩ : ∃ es c, e.toList = es ++ [c] := by
    simpa using (List.eq_nil_or_concat e.toList).resolve_left (by simpa using he.ne_empty)
  have hdot : c ≠ '.' := by
    rintro rfl
    exact he.dotless (by simp [hc])
  have hlast : (named T e).toList.getLast? = some c := by
    rw [toList_named, hc]
    exact List.getLast?_eq_some_iff.mpr ⟨T.toList ++ '.' :: es, by simp⟩
  have hne (s : String) (hs : s.toList.getLast? = none ∨ s.toList.getLast? = some '.') :
      named T e ≠ s := by
    rintro rfl
    rw [hlast] at hs
    simp [hdot] at hs
  refine ⟨staysPut_eq_false.mpr ⟨hne _ (by simp), hne _ (by simp)⟩, hne _ (by simp)⟩

lemma named_inj (he : IsExtension e) (he' : IsExtension e') (h : named T e = named T' e') :
    T = T' ∧ e = e' := by
  rw [← String.toList_inj, toList_named, toList_named] at h
  -- one stem is the other with more behind it, and that would hold a dot of the extension
  have hcut {T T' e e' l : List Char} (he : '.' ∉ e) (hl : T' = T ++ l)
      (hrest : '.' :: e = l ++ '.' :: e') : T = T' ∧ e = e' := by
    cases l with
    | nil => simp_all
    | cons c l =>
      rw [List.cons_append, List.cons.injEq] at hrest
      exact absurd (by simp [hrest.2]) he
  rcases List.append_eq_append_iff.mp h with ⟨l, hl, hrest⟩ | ⟨l, hl, hrest⟩
  · obtain ⟨hT, he⟩ := hcut he.dotless hl hrest
    exact ⟨String.toList_inj.mp hT, String.toList_inj.mp he⟩
  · obtain ⟨hT, he⟩ := hcut he'.dotless hl hrest
    exact ⟨(String.toList_inj.mp hT).symm, (String.toList_inj.mp he).symm⟩

end Named

/-! ### The directory of a file -/

lemma intercalate_append {ss ss' : List (List Char)} (h : ss ≠ []) (h' : ss' ≠ []) :
    ['/'].intercalate (ss ++ ss') = ['/'].intercalate ss ++ '/' :: ['/'].intercalate ss' := by
  induction ss with
  | nil => exact absurd rfl h
  | cons s ss ih =>
    cases ss with
    | nil =>
      obtain ⟨s', ss', rfl⟩ := List.exists_cons_of_ne_nil h'
      simp
    | cons s₁ ss =>
      have hrest := ih (by simp)
      simp only [List.cons_append, List.intercalate_cons_cons] at hrest ⊢
      rw [hrest]
      simp

lemma exists_parent_steps {p : Path} (h : p.parent.steps ≠ []) :
    p.parent.start = p.start ∧ ∃ more, more ≠ [] ∧ p.steps = p.parent.steps ++ more := by
  unfold parent at h ⊢
  split
  · next hnil => simp [hnil] at h
  · next s ss hsteps =>
    refine ⟨rfl, ?_⟩
    obtain ⟨rest, hrest⟩ := trim_isPrefix p.steps
    obtain ⟨rest', hrest'⟩ := trim_isPrefix (s :: ss).dropLast
    refine ⟨rest' ++ (s :: ss).getLast (by simp) :: rest, by simp, ?_⟩
    rw [← hrest, hsteps, ← List.append_assoc, hrest']
    conv_lhs => rw [← List.dropLast_concat_getLast (l := s :: ss) (by simp)]
    simp

/-- The last step of a directory's path leads somewhere. -/
lemma staysPut_of_parent {p : Path} {s : String} (h : p.parent.steps.getLast? = some s) :
    staysPut s = false := by
  unfold parent at h
  split at h
  · cases h
  · exact staysPut_of_getLast?_trim h

lemma toList_text (p : Path) :
    p.text.toList = p.start.text.toList ++ ['/'].intercalate (p.steps.map String.toList) := by
  simp [text]

/-- A text ends as the last step does. -/
lemma exists_text_concat (start : PathStart) (steps : List String) (s : String) :
    ∃ cs, (⟨start, steps ++ [s]⟩ : Path).text.toList = cs ++ s.toList := by
  rw [toList_text, List.map_append]
  cases steps with
  | nil => exact ⟨start.text.toList, by simp⟩
  | cons s' steps =>
    rw [intercalate_append (by simp) (by simp)]
    exact ⟨start.text.toList ++ ['/'].intercalate ((s' :: steps).map String.toList) ++ ['/'],
      by simp⟩

lemma lead_of_getLast? {p : Path} {s : String} (hlast : p.steps.getLast? = some s)
    (hs : OneStep s) (hne : s ≠ "") : p.lead = p.text ++ "/" := by
  obtain ⟨start, steps⟩ := p
  obtain ⟨front, rfl⟩ := List.getLast?_eq_some_iff.mp hlast
  obtain ⟨cs, hcs⟩ := exists_text_concat start front s
  obtain ⟨ds, c, hc⟩ : ∃ ds c, s.toList = ds ++ [c] := by
    simpa using (List.eq_nil_or_concat s.toList).resolve_left (by simpa using hne)
  have hslash : c ≠ '/' := by
    rintro rfl
    exact hs (by simp [hc])
  have htext : (⟨start, front ++ [s]⟩ : Path).text.toList.getLast? = some c := by
    rw [hcs, hc, ← List.append_assoc, List.getLast?_concat]
  rw [lead, if_neg]
  rw [htext]
  rw [Bool.or_eq_true, not_or]
  refine ⟨fun hempty => ?_, by simpa using hslash⟩
  rw [String.isEmpty_iff.mp hempty] at htext
  simp at htext

/-- The directory of a file is read back from its text, but for a step that stays where it is. -/
lemma way_parent (x : String) : (ofText x).parent.way.start = (ofText x).parent.start ∧
    ((ofText x).parent.way.steps = (ofText x).parent.steps ∨
      (ofText x).parent.steps = [] ∧ (ofText x).parent.way.steps = [""]) := by
  generalize hp : (ofText x).parent = p
  cases hlast : p.steps.getLast? with
  | none =>
    obtain ⟨start, steps⟩ := p
    obtain rfl : steps = [] := List.getLast?_eq_none_iff.mp hlast
    cases start with
    | bare => exact ⟨rfl, .inl rfl⟩
    | here => exact ⟨by decide, .inr ⟨rfl, by decide⟩⟩
    | root => exact ⟨by decide, .inl (by decide)⟩
  | some s =>
    have hne : p.steps ≠ [] := by
      intro h
      simp [h] at hlast
    subst hp
    obtain ⟨hstart, more, hmore, hsteps⟩ := exists_parent_steps hne
    have hstays := staysPut_eq_false.mp (staysPut_of_parent hlast)
    have hone (s : String) (hs : s ∈ (ofText x).parent.steps ++ more) : OneStep s :=
      oneStep_of_mem_steps (hsteps ▸ hs)
    have hlead := lead_of_getLast? hlast
      (hone s (List.mem_append_left _ (List.mem_of_mem_getLast? hlast))) hstays.1
    -- the text goes on behind the directory's
    have hx : x.toList = (ofText x).parent.text.toList ++
        '/' :: (String.intercalate "/" more).toList := by
      conv_lhs => rw [← text_ofText x]
      rw [toList_text, toList_text, hsteps, List.map_append,
        intercalate_append (by simpa using hne) (by simpa using hmore), hstart]
      simp [String.toList_intercalate]
    have hlead' : (ofText x).parent.lead.toList = (ofText x).parent.text.toList ++ ['/'] := by
      simp [hlead]
    have hcut := ofText_of_lead hlead' hx
    rw [stepsOf_intercalate hmore fun s hs => hone s (List.mem_append_right _ hs)] at hcut
    have hstart' := congrArg Path.start hcut
    have hsteps' := congrArg Path.steps hcut
    dsimp only at hstart' hsteps'
    rw [hsteps] at hsteps'
    exact ⟨by rw [hstart, hstart'], .inl (List.append_cancel_right hsteps').symm⟩

/-- A path into a directory starts with the steps to it, but for some that stay where they are. -/
structure LeadsInto (d : Path) : Prop where
  start : d.way.start = d.start
  steps : trim d.way.steps = trim d.steps

lemma leadsInto_parent (x : String) : (ofText x).parent.LeadsInto := by
  obtain ⟨hstart, hsteps⟩ := way_parent x
  refine ⟨hstart, ?_⟩
  rcases hsteps with hsteps | ⟨hnil, hsteps⟩
  · rw [hsteps]
  · rw [hnil, hsteps]
    rfl

lemma leadsInto_ofText (x : String) : (ofText x).LeadsInto := by
  by_cases hslash : ∃ r, x.toList = r ++ ['/']
  · obtain ⟨r, hr⟩ := hslash
    have hlead : (ofText x).lead = x := by
      rw [lead, text_ofText, if_pos (by simp [hr])]
    refine ⟨by rw [way, hlead], ?_⟩
    rw [way, hlead]
    conv_rhs => rw [ofText_of_slash hr hr]
    exact (trim_concat_of_staysPut rfl).symm
  by_cases hempty : x = ""
  · subst hempty
    exact ⟨by decide, by decide⟩
  have hlead : (ofText x).lead.toList = x.toList ++ ['/'] := by
    rw [lead, text_ofText, if_neg]
    · simp
    · rw [Bool.or_eq_true, not_or]
      refine ⟨by simpa using hempty, fun hlast => hslash ?_⟩
      exact List.getLast?_eq_some_iff.mp (of_decide_eq_true hlast)
  have hsnoc {start : PathStart} {steps : List String} (hx : ofText x = ⟨start, steps⟩)
      (hy : ofText (ofText x).lead = ⟨start, steps ++ [""]⟩) : (ofText x).LeadsInto := by
    refine ⟨by rw [way, hy, hx], ?_⟩
    rw [way, hy, hx, List.dropLast_concat]
  by_cases hroot : ∃ cs, x.toList = '/' :: cs
  · obtain ⟨cs, hcs⟩ := hroot
    rw [hcs, List.cons_append] at hlead
    exact hsnoc (ofText_root hcs) (by rw [ofText_root hlead, stepsOf_append_slash, stepsOf_nil])
  by_cases hdot : x.toList = ['.']
  · obtain rfl : x = "." := String.toList_inj.mp hdot
    exact ⟨by decide, by decide⟩
  by_cases hhere : ∃ cs, x.toList = '.' :: '/' :: cs
  · obtain ⟨cs, hcs⟩ := hhere
    rw [hcs, List.cons_append, List.cons_append] at hlead
    refine hsnoc (ofText_here hcs) ?_
    rw [ofText_here hlead, stepsOf_append_slash, stepsOf_nil, List.cons_append]
  · rw [not_exists] at hroot hhere
    refine hsnoc (ofText_bare hroot hdot hhere) ?_
    rw [ofText_bare_slash hlead (by simpa using hempty) hroot hdot hhere, stepsOf_nil]

/-! ### Outputs -/

lemma stem?_concat {start : PathStart} {front : List String} {S : String}
    (hstays : staysPut S = false) (hup : S ≠ "..") :
    (⟨start, front ++ [S]⟩ : Path).stem? = some (stemOf S) := by
  rw [stem?, fileName?, trim_concat hstays, List.getLast?_concat, Option.filter_some_pos (by simpa),
    Option.map_some]

lemma withExtension_of_stem? {p : Path} {T : String} (h : p.stem? = some T) (e : String) :
    p.withExtension e = ⟨p.start, (trim p.steps).dropLast ++ [named T e]⟩ := by
  rw [withExtension, h]
  rfl

/-- With another extension, a name in a directory is again one there. -/
lemma withExtension_join (d : Path) {S e : String} (hS : OneStep S) (hstays : staysPut S = false)
    (hup : S ≠ "..") (he : IsExtension e) :
    (d.join S).withExtension e = d.join (named (stemOf S) e) := by
  have hnamed := staysPut_eq_false.mp (he.named_steps (stemOf S)).1
  rw [join_concat d hS (staysPut_eq_false.mp hstays).2,
    join_concat d (he.named_oneStep hS.stemOf) hnamed.2,
    withExtension_of_stem? (stem?_concat hstays hup), trim_concat hstays, List.dropLast_concat]

/-- A lone dot is no name, so the directory's own is taken. -/
lemma LeadsInto.withExtension_join_dot {d : Path} (hd : d.LeadsInto) {T : String}
    (hT : (d.join ".").stem? = some T) (e : String) :
    (d.join ".").withExtension e = d.withExtension e := by
  rw [join_eq] at hT ⊢
  rcases lead_cases d with hnil | ⟨r, hr⟩
  · have hnone : (ofText ("" ++ ".")).stem? = none := by decide
    rw [hnil, hnone] at hT
    cases hT
  · have happend : (d.lead ++ ".").toList = r ++ '/' :: ['.'] := by simp [hr]
    have hjoin := ofText_of_lead hr happend
    have htrim : trim (ofText (d.lead ++ ".")).steps = trim d.steps := by
      rw [hjoin, ← hd.steps]
      exact trim_concat_of_staysPut rfl
    have hstart : (ofText (d.lead ++ ".")).start = d.start := by rw [hjoin, hd.start]
    have hstem : d.stem? = some T := by
      rw [stem?, fileName?, htrim] at hT
      exact hT
    rw [withExtension_of_stem? hT, withExtension_of_stem? hstem, htrim, hstart]

end AnnotatedWasm.Path
