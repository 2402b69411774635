import Straightline.Span

/-! Findings about the program being compiled, addressed to the person who wrote it. -/
namespace Straightline

inductive Severity
  | error
  | warning
deriving DecidableEq, Repr

namespace Diagnostic

/-- Whom a diagnostic blames. -/
inductive Kind
  /-- The program should not have reached the compiler like this. -/
  | defect
  /-- The program is fine, but beyond what can be compiled. -/
  | unsupported
  /-- The program compiles, but something looks off. -/
  | lint
deriving DecidableEq, Repr

def Kind.severity : Kind → Severity
  | defect | unsupported => .error
  | lint => .warning

end Diagnostic

structure Diagnostic where
  kind : Diagnostic.Kind
  message : String
  span : Span
  notes : List String := []
  help : Option String := none
deriving DecidableEq, Repr

namespace Diagnostic

def severity (d : Diagnostic) : Severity := d.kind.severity

def isError (d : Diagnostic) : Bool := d.severity = .error

def addNote (d : Diagnostic) (note : String) : Diagnostic := { d with notes := d.notes ++ [note] }

/-- A diagnostic gives at most one piece of help: the latest. -/
def setHelp (d : Diagnostic) (help : String) : Diagnostic := { d with help := some help }

/-- Some diagnostic of the list is an error. -/
def anyError (ds : List Diagnostic) : Bool := ds.any isError

end Diagnostic

end Straightline
