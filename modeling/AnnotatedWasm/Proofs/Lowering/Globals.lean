import AnnotatedWasm.Proofs.Lowering.Landmarks
import AnnotatedWasm.Proofs.Lowering.Slots

/-!
Globals in the body of a function.

A function refers to the globals that its `global` statements list, and only in code that is lowered
after the statement that lists them (`Sees`). The statements that list a global also put it into the
module, once, as it is declared (`Body.Opens`).
-/

namespace AnnotatedWasm

namespace Ir.Node

/-- The global that a node reads or sets. -/
def global? : Node → Option String
  | globalGet g _ | globalSet g _ => some g
  | _ => none

/-- All globals that are read or set in a node are among those. -/
def Uses (P : String → Prop) (n : Node) : Prop := ∀ m ∈ n.subnodes, ∀ g ∈ m.global?, P g

variable {P Q : String → Prop} {n : Node}

lemma uses_iff : n.Uses P ↔ (∀ g ∈ n.global?, P g) ∧ ∀ m ∈ n.children, m.Uses P := by
  unfold Uses
  rw [subnodes_eq, List.forall_mem_cons]
  simp only [List.forall_mem_flatMap]

lemma Uses.mono (h : n.Uses P) (hPQ : ∀ g, P g → Q g) : n.Uses Q :=
  fun m hm g hg => hPQ g (h m hm g hg)

/-- A node that names no global itself. -/
lemma uses_of_children (hn : n.global? = none) (h : ∀ m ∈ n.children, m.Uses P) : n.Uses P :=
  uses_iff.mpr ⟨by simp [hn], h⟩

lemma global?_eq_none (h : n.isLandmark = false) : n.global? = none := by
  cases n
  case globalGet | globalSet => cases h
  all_goals rfl

lemma uses_landmarks : n.Uses P ↔ ∀ m ∈ n.landmarks, m.Uses P :=
  ⟨forall_landmarks (fun _ _ h => (uses_iff.mp h).2) n,
    of_landmarks (fun _ hm => uses_of_children (global?_eq_none hm)) n⟩

end Ir.Node

namespace Lowering

open Ir (Node)
open Ir.Node
open Syntax (Expr Stmt Branch globalNamesAll globalNamesBranches)

variable {env : Env} {b b' : Body} {n : Node}

/-! ### References of expressions -/

/-- A function has opened a global by this name. -/
def Body.HasGlobal (b : Body) (g : String) : Prop := (b.frame.global? g).isSome

lemma uses_global {g : String} {ty : Ty} (hn : n.global? = some g)
    (hg : lookupLast? g b.frame.globals = some ty) (h : ∀ m ∈ n.children, m.Uses b.HasGlobal) :
    n.Uses b.HasGlobal := by
  refine uses_iff.mpr ⟨?_, h⟩
  rw [hn]
  rintro _ ⟨⟩
  exact Option.isSome_iff_exists.mpr ⟨ty, hg⟩

lemma Mark.uses (h : Mark b.frame.globals n) : n.Uses b.HasGlobal := by
  induction h with
  | global hg => exact uses_global rfl hg nofun
  | store hg _ ih =>
    exact uses_global rfl hg (List.forall_mem_singleton.mpr (uses_landmarks.mpr ih))
  | @range s l k =>
    refine uses_of_children rfl (List.forall_mem_singleton.mpr (uses_landmarks.mpr ?_))
    have hbr : (Node.br l).Uses b.HasGlobal := uses_of_children rfl nofun
    simpa [landmarks, landmarksAll, landmarksOpt] using hbr

lemma Marked.uses (h : Marked b b' n.landmarks) : n.Uses b.HasGlobal :=
  uses_landmarks.mpr fun m hm => (h.each m hm).uses

lemma Body.Grows.hasGlobal (h : b.Grows b') : b'.HasGlobal = b.HasGlobal := by
  funext g
  rw [HasGlobal, h.global?, HasGlobal]

/-! ### What statements do to globals -/

/-- The names of the globals that the module has so far. -/
def Session.promoted (s : Session) : List String := s.module.globals.map (·.name)

/-- The function opens these globals, and those of them that the module does not have yet are put
there as they are declared. -/
structure Body.Opens (names : List String) (b b' : Body) : Prop where
  declared : b'.session.declared = b.session.declared
  opened : ∀ g, b'.HasGlobal g ↔ b.HasGlobal g ∨ g ∈ names
  promoted : ∀ g, g ∈ b'.session.promoted ↔ g ∈ b.session.promoted ∨ g ∈ names
  added : ∀ x ∈ b'.session.module.globals, x ∈ b.session.module.globals ∨
    x.name ∉ b.session.promoted ∧
      ∃ d, b.session.declared.lookup x.name = some d ∧ x = ⟨x.name, d.kind, true, d.init⟩
  nodup : b.session.promoted.Nodup → b'.session.promoted.Nodup

namespace Body.Opens

/-- A step that touches no globals. -/
lemma of_eq (hd : b'.session.declared = b.session.declared)
    (hf : b'.frame.globals = b.frame.globals) (hm : b'.session.module = b.session.module) :
    b.Opens [] b' where
  declared := hd
  opened g := by simp [HasGlobal, Frame.global?, hf]
  promoted g := by simp [Session.promoted, hm]
  added x hx := .inl (by rwa [hm] at hx)
  nodup h := by rwa [Session.promoted, hm]

lemma refl (b : Body) : b.Opens [] b := .of_eq rfl rfl rfl

lemma of_grows (h : b.Grows b') : b.Opens [] b' := by
  obtain ⟨_, _, _, rfl⟩ := h
  exact .of_eq rfl rfl rfl

lemma trans {names names' : List String} {b₁ : Body} (h : b.Opens names b₁)
    (h' : b₁.Opens names' b') : b.Opens (names ++ names') b' where
  declared := h'.declared.trans h.declared
  opened g := by rw [h'.opened, h.opened, List.mem_append, or_assoc]
  promoted g := by rw [h'.promoted, h.promoted, List.mem_append, or_assoc]
  added x hx := by
    rcases h'.added x hx with hx | ⟨hnew, d, hd, heq⟩
    · exact h.added x hx
    · refine .inr ⟨fun hold => hnew ((h.promoted _).mpr (.inl hold)), d, ?_, heq⟩
      rwa [← h.declared]
  nodup hb := h'.nodup (h.nodup hb)

lemma leaveLoop {names : List String} {id : Nat} (h : (b.enterLoop id).Opens names b') :
    b.Opens names b'.leaveLoop :=
  ⟨h.declared, h.opened, h.promoted, h.added, h.nodup⟩

end Body.Opens

lemma globals_promote (b : Body) (name : String) (d : Declared) :
    (b.promote name d).session.module.globals =
      if name ∈ b.session.promoted then b.session.module.globals
      else b.session.module.globals ++ [⟨name, d.kind, true, d.init⟩] := by
  have hmem : name ∈ b.session.promoted ↔ ¬ (b.session.module.global? name).isNone := by
    simp [Session.promoted, Ir.Module.global?]
  simp only [Body.promote]
  split
  · next hnone => rw [if_neg (by rwa [hmem, not_not])]; rfl
  · next hsome => rw [if_pos (by rwa [hmem])]

/-- One name of a `global` statement. -/
lemma Body.Opens.openGlobal {name : String} {d : Declared}
    (hd : b.session.declared.lookup name = some d) :
    b.Opens [name] ((b.promote name d).openGlobal name (.num d.kind)) where
  declared := (Body.Extends.promote b name d).declared
  opened g := by
    rw [HasGlobal, Body.openGlobal, Frame.global?_openGlobal, frame_promote, HasGlobal,
      List.mem_singleton]
    by_cases hg : name = g
    · simp [hg]
    · simp [hg, Ne.symm hg]
  promoted g := by
    rw [Session.promoted, Body.openGlobal, globals_promote]
    split
    · next hmem =>
      rw [List.mem_singleton]
      exact ⟨.inl, fun h => h.elim id fun heq => heq ▸ hmem⟩
    · simp [Session.promoted]
  added x hx := by
    rw [Body.openGlobal, globals_promote] at hx
    split at hx
    · exact .inl hx
    · next hmem =>
      rcases List.mem_append.mp hx with hx | hx
      · exact .inl hx
      · rw [List.mem_singleton.mp hx]
        exact .inr ⟨hmem, d, hd, rfl⟩
  nodup hb := by
    rw [Session.promoted, Body.openGlobal, globals_promote]
    split
    · exact hb
    · next hmem =>
      rw [List.map_append]
      exact hb.append (List.nodup_singleton _) (List.disjoint_singleton.mpr hmem)

lemma Body.Moves.opens {D : String → Prop} {names : List String} (h : b.Moves D names b') :
    b.Opens names b' := by
  induction h with
  | grows h => exact .of_grows h
  | declare => exact .of_eq rfl rfl rfl
  | openGlobal _ _ hd => exact .openGlobal hd
  | loop _ ih => exact ih.leaveLoop
  | trans _ _ ih ih' => exact ih.trans ih'

lemma LowersStmt.opens {s : Stmt} (h : LowersStmt env s b n b') : b.Opens s.globalNames b' :=
  (h.moves fun _ _ _ _ => trivial).opens

lemma LowersStmts.opens {ss : List Stmt} {ns : List Node} (h : LowersStmts env ss b ns b') :
    b.Opens (globalNamesAll ss) b' :=
  (h.moves fun _ _ _ _ _ _ => trivial).opens

/-! ### What statements refer to -/

mutual

/-- Where globals `known` are listed before the statement, its code refers to these and to those
that the statement itself lists earlier in source order. -/
inductive Sees : List String → Stmt → Node → Prop
  | plain {known s n} : n.Uses (· ∈ known) → Sees known s n
  | ifElse {known span test body elifs orelse c ns e} : c.Uses (· ∈ known) →
      SeesAll known body ns → SeesElse (known ++ globalNamesAll body) elifs orelse e →
      Sees known (.ifElse span test body elifs orelse) (.ifElse c (.block none ns .void) (some e))
  | whileLoop {known span test body orelse id c ns ms} : c.Uses (· ∈ known) →
      SeesAll known body ns → SeesAll (known ++ globalNamesAll body) orelse ms →
      Sees known (.whileLoop span test body orelse) (whileNode id c ns ms)

inductive SeesAll : List String → List Stmt → List Node → Prop
  | nil {known} : SeesAll known [] []
  | cons {known s ss n ns} : Sees known s n → SeesAll (known ++ s.globalNames) ss ns →
      SeesAll known (s :: ss) (n :: ns)

inductive SeesElse : List String → List Branch → List Stmt → Node → Prop
  | nil {known orelse ns} : SeesAll known orelse ns →
      SeesElse known [] orelse (.block none ns .void)
  | cons {known test body rest orelse c ns e} : c.Uses (· ∈ known) → SeesAll known body ns →
      SeesElse (known ++ globalNamesAll body) rest orelse e →
      SeesElse known (.mk test body :: rest) orelse
        (.block none [.ifElse c (.block none ns .void) (some e)] .void)

end

lemma uses_nop {P : String → Prop} : Node.nop.Uses P := uses_of_children rfl nofun

/-- All globals that the function has opened are among these. -/
def Body.OpenAmong (known : List String) (b : Body) : Prop := ∀ g, b.HasGlobal g → g ∈ known

lemma Body.Opens.openAmong {known names : List String} (h : b.Opens names b')
    (hb : b.OpenAmong known) : b'.OpenAmong (known ++ names) := by
  intro g hg
  rw [List.mem_append]
  exact ((h.opened g).mp hg).imp_left (hb g)

lemma Body.Grows.openAmong {known : List String} (h : b.Grows b') (hb : b.OpenAmong known) :
    b'.OpenAmong known := by
  intro g hg
  rw [h.hasGlobal] at hg
  exact hb g hg

mutual

lemma LowersStmt.sees {s : Stmt} {b b' : Body} {n : Node} {known : List String} :
    LowersStmt env s b n b' → b.OpenAmong known → Sees known s n
  | .simple h, hb => by
    obtain ⟨b₁, hmarks, -⟩ := h.marks
    exact .plain (hmarks.uses.mono hb)
  | .retNone _ _, _ | .breakLoop _, _ | .continueLoop _, _ => .plain (uses_of_children rfl nofun)
  | .retSome _ he hc, hb => by
    have hv := (he.marks.coerce hc).uses.mono hb
    exact .plain (uses_of_children rfl (List.forall_mem_singleton.mpr hv))
  | .assert hc, hb => by
    have htest := (marks_lowerCondition hc).uses.mono hb
    refine .plain (uses_of_children rfl ?_)
    rintro m (_ | ⟨_, _ | ⟨_, _ | ⟨_, ⟨⟩⟩⟩⟩)
    · exact htest
    · exact uses_nop
    · exact uses_of_children rfl nofun
  | .ifElse hc hns he, hb => by
    have hb₁ := (grows_of_lowerCondition hc).openAmong hb
    exact .ifElse ((marks_lowerCondition hc).uses.mono hb) (hns.sees hb₁)
      (he.sees (hns.opens.openAmong hb₁))
  | .whileLoop hc hns hms, hb => by
    have hb₁ := (grows_of_lowerCondition hc).openAmong hb
    exact .whileLoop ((marks_lowerCondition hc).uses.mono hb) (hns.sees hb₁)
      (hms.sees (hns.opens.openAmong hb₁))

lemma LowersStmts.sees {ss : List Stmt} {b b' : Body} {ns : List Node} {known : List String} :
    LowersStmts env ss b ns b' → b.OpenAmong known → SeesAll known ss ns
  | .nil, _ => .nil
  | .cons h hs, hb => .cons (h.sees hb) (hs.sees (h.opens.openAmong hb))

lemma LowersElse.sees {orelse : List Stmt} {elifs : List Branch} {b b' : Body} {n : Node}
    {known : List String} :
    LowersElse env orelse elifs b n b' → b.OpenAmong known → SeesElse known elifs orelse n
  | .nil h, hb => .nil (h.sees hb)
  | .cons hc hns he, hb => by
    have hb₁ := (grows_of_lowerCondition hc).openAmong hb
    exact .cons ((marks_lowerCondition hc).uses.mono hb) (hns.sees hb₁)
      (he.sees (hns.opens.openAmong hb₁))

end

end Lowering

end AnnotatedWasm
