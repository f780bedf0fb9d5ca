import AnnotatedWasm.CompileError
import AnnotatedWasm.Text.Quoted

/-!
What a compilation reports about its work, and computations that keep such reports also when
they fail.
-/

namespace AnnotatedWasm

/-- How important a report is. -/
inductive Level where
  | warn
  | info
  | debug
deriving Repr, DecidableEq

namespace Level

def name : Level → String
  | warn => "WARN"
  | info => "INFO"
  | debug => "DEBUG"

def rank : Level → Nat
  | warn => 0
  | info => 1
  | debug => 2

end Level

inductive Event where
  | signature (function : String) (params : List Ty) (returns : Ty)
  | globalDeclared (name : String) (kind : NumKind)
  | globalPromoted (name function : String)
  | functionLowered (name : String) (params locals : Nat)
  | narrowed (source target : NumKind) (place : Span)
  | widened (source target : NumKind)
  | unified (left right target : NumKind)
  | encoded (functions globals types bytes : Nat)
  | compiled (file : String) (functions bytes : Nat)
  | nothingFound (file : String)
  | moduleWritten (path : String) (bytes : Nat)
  | textWritten (path : String)
  | listingWritten (path : String)
deriving Repr, DecidableEq

namespace Event

def level : Event → Level
  | narrowed .. | nothingFound .. => .warn
  | moduleWritten .. | textWritten .. | listingWritten .. => .info
  | _ => .debug

def text : Event → String
  | signature f ps r =>
    let params := String.intercalate ", " (ps.map Ty.logText)
    s!"registered signature function={f} params=[{params}] returns={r.text}"
  | globalDeclared g k => s!"declared global global={g} ty={k.name}"
  | globalPromoted g f => s!"promoted global global={g} function={f}"
  | functionLowered f ps ls => s!"lowered function function={f} params={ps} locals={ls}"
  | narrowed s t place =>
    s!"implicit narrowing conversion from={s.name} to={t.name} at={place.text}"
  | widened s t => s!"implicit widening conversion from={s.name} to={t.name}"
  | unified l r t =>
    s!"unifying operands left={l.name} right={r.name} target={t.name}"
  | encoded fs gs ts bs => s!"encoded module functions={fs} globals={gs} types={ts} bytes={bs}"
  | compiled file fs bs => s!"compiled file={Text.quoted file} functions={fs} bytes={bs}"
  | nothingFound file => s!"no compilable functions found file={file}"
  | moduleWritten path bs => s!"wrote module path={path} bytes={bs}"
  | textWritten path => s!"wrote text format path={path}"
  | listingWritten path => s!"wrote IR listing path={path}"

/-- A log line. -/
def line (e : Event) : String := s!"{e.level.name} {e.text}"

end Event

/-- The log lines of the events up to a level of detail. -/
def logLines (detail : Level) (events : List Event) : List String :=
  (events.filter (·.level.rank ≤ detail.rank)).map Event.line

/-- A computation that may fail and reports events in either case. -/
abbrev LoggedT (ε : Type) (m : Type → Type) := ExceptT ε (StateT (List Event) m)

/-- Such a computation with no other effect. -/
abbrev Logged (ε : Type) := LoggedT ε Id

section

variable {ε α : Type} {m : Type → Type} [Monad m]

/-- Reports an event. -/
def report (e : Event) : LoggedT ε m Unit := modify (· ++ [e])

/-- A computation without effects among those with some. -/
def Logged.embed (x : Logged ε α) : LoggedT ε m α :=
  ExceptT.mk fun events => pure (x.run.run events)

end

end AnnotatedWasm
