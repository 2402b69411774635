import Straightline.Assembly.Arm64
import Straightline.Failure
import Straightline.Lowering.Program
import Straightline.Selection.Select

/-! From programs to assembly: lowering, selection and assembly, each ending at its first errors. -/
namespace Straightline

open IR (Module)
open Machine (Instr)
open Source (Program)

/-- The value, unless the diagnostics that came with it hold an error. -/
def unlessErrors {α : Type} (a : α) (ds : List Diagnostic) : Except Failure α :=
  if Diagnostic.anyError ds then .error (.diagnostics ds) else .ok a

/-- Machine code for a module as far as it could be selected. -/
structure Selected where
  code : List Instr
  diagnostics : List Diagnostic

namespace Selected

def hasErrors (s : Selected) : Bool := Diagnostic.anyError s.diagnostics

def result (s : Selected) : Except Failure (List Instr) := unlessErrors s.code s.diagnostics

end Selected

/-- Selects code for every function of a complete module. -/
def selectModule (t : Target) (m : Module) : Except Failure Selected :=
  if m.isComplete then
    match m.functions.mapM (Selection.codeOfFunc t) with
    | .ok segments => .ok ⟨segments.flatMap (·.code), segments.filterMap (·.diagnostic)⟩
    | .error e => .error (.internal (.selection e))
  else .error (.incomplete m.incomplete)

def assemble (t : Target) (code : List Instr) : Except Failure String :=
  match Assembly.program t code with
  | .ok text => .ok text
  | .error e => .error (.internal (.assembly e))

/-- The text of lowered code. -/
def listing (o : Lowering.Outcome) : Except Failure String := do
  let m ← unlessErrors o.code o.diagnostics
  return m.text

/-- Assembly, with the warnings that the program deserves all the same. -/
structure Output where
  assembly : String
  warnings : List Diagnostic

/-- Selection and assembly of lowered code. -/
def translate (t : Target) (o : Lowering.Outcome) : Except Failure Output := do
  let m ← unlessErrors o.code o.diagnostics
  let s ← selectModule t m
  let assembly ← assemble t (← s.result)
  return ⟨assembly, o.diagnostics.filter (!·.isError)⟩

/-- Lowers a program for a target, which names the entry point. -/
def lower (t : Target) (moduleName : String) (p : Program) : Except Failure Lowering.Outcome :=
  match p.lower t.entryPoint moduleName with
  | .ok o => .ok o
  | .error e => .error (.internal (.build e))

/-- The text of a program's block code. -/
def dump (t : Target) (moduleName : String) (p : Program) : Except Failure String := do
  listing (← lower t moduleName p)

def compile (t : Target) (moduleName : String) (p : Program) : Except Failure Output := do
  translate t (← lower t moduleName p)

/-! ## Options -/

/-- How a program is to be compiled. -/
structure Options where
  target : Target := .darwin
  moduleName : String := "main"
  /-- Items are lowered at the same time. -/
  parallel : Bool := false

namespace Options

variable (o : Options) (p : Program)

def lower : Except Failure Lowering.Outcome :=
  let outcome := if o.parallel then p.lowerParallel o.target.entryPoint o.moduleName
    else p.lower o.target.entryPoint o.moduleName
  match outcome with
  | .ok l => .ok l
  | .error e => .error (.internal (.build e))

def dump : Except Failure String := do
  listing (← o.lower p)

def compile : Except Failure Output := do
  translate o.target (← o.lower p)

/-- The assembly alone. -/
def assembly : Except Failure String := do
  return (← o.compile p).assembly

/-- Lowering at the same time gives what lowering in order gives. -/
theorem lower_eq : o.lower p = Straightline.lower o.target o.moduleName p := by
  unfold lower Straightline.lower
  rw [Program.lowerParallel_eq_lower, ite_self]

theorem dump_eq : o.dump p = Straightline.dump o.target o.moduleName p := by
  rw [dump, Straightline.dump, lower_eq]

theorem compile_eq : o.compile p = Straightline.compile o.target o.moduleName p := by
  rw [compile, Straightline.compile, lower_eq]

end Options

end Straightline
