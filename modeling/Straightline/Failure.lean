import Straightline.IR.Module
import Straightline.Machine.Instr
import Straightline.Selection.Limit

/-! How a compilation can end without assembly. -/
namespace Straightline

/-- Code that the compiler itself put together wrongly. -/
inductive InternalError
  | build (e : IR.BuildError)
  | selection (e : Selection.Fault)
  | assembly (e : Machine.Malformed)
deriving DecidableEq, Repr

def InternalError.message : InternalError → String
  | build e => e.message
  | selection e => e.message
  | assembly e => e.message

inductive Failure
  /-- The program cannot be compiled as it is written. -/
  | diagnostics (ds : List Diagnostic)
  /-- Code was asked for from a module that is not complete. -/
  | incomplete (functions : List String)
  | internal (e : InternalError)
deriving DecidableEq, Repr

namespace Failure

def message : Failure → String
  | diagnostics ds => s!"compilation failed with {ds.length} diagnostic(s)"
  | incomplete [] => "module is incomplete; it contains no functions"
  | incomplete fs => "module is incomplete; unterminated functions: " ++ ", ".intercalate fs
  | internal e => "internal compiler error: " ++ e.message

/-- The exit status that tells the kinds of failure apart. -/
def exitCode : Failure → Nat
  | diagnostics _ => 1
  | incomplete _ => 2
  | internal _ => 101

/-- The failure is the compiler's and not the program's. -/
def isInternal : Failure → Bool
  | diagnostics _ => false
  | _ => true

/-- The diagnostics to show. -/
def toDiagnostics : Failure → List Diagnostic
  | diagnostics ds => ds
  | _ => []

end Failure

end Straightline
