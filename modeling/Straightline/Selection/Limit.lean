import Straightline.Diagnostic.Basic
import Straightline.IR.Value

/-!
Why code cannot be selected. A limit of the machine is the programmer's concern and gives up one
function; a fault is ill-formed code and gives up the module.
-/
namespace Straightline.Selection

/-- What was found to have a type without machine representation. -/
inductive Subject
  | param (name : String)
  | var (name : String)
  | temp (id : Nat)
  | resultOf (callee : String)
deriving DecidableEq, Repr

def Subject.text : Subject → String
  | param n => s!"parameter `{n}`"
  | var n => s!"variable `{n}`"
  | temp id => s!"%{id}"
  | resultOf f => s!"result of `{f}`"

inductive Limit
  /-- A register would be overwritten that holds a value still to be read. -/
  | tooDeep
  | frame (size max : Nat)
  | params (count max : Nat)
  | args (callee : String) (count max : Nat)
  | type (subject : Subject) (ty : Ty)
  | constant (c : IR.Constant)
  | modulo
deriving DecidableEq, Repr

namespace Limit

/-- The limit as met in the function `f`. -/
def message (f : String) : Limit → String
  | tooDeep => "expression too deeply nested for the fixed-register code generator"
  | frame size max =>
    s!"function `{f}` needs a {size}-byte stack frame; at most {max} bytes are supported"
  | params n max => s!"function `{f}` takes {n} parameters; at most {max} are supported"
  | args callee n max => s!"call to `{callee}` passes {n} arguments; at most {max} are supported"
  | type subject ty =>
    s!"{subject.text} has type {ty.name}; only int values have a machine representation"
  | constant c => s!"{c.ty.name} constant {c.text} has no machine representation"
  | modulo => "the `%` operator has no code generation"

def diagnostic (l : Limit) (f : String) (span : Span) : Diagnostic where
  kind := .unsupported
  message := l.message f
  span := span
  notes := [s!"in function `{f}`"]

end Limit

inductive Fault.Cause
  | storeTarget (target : String)
  | loadSource (source : String)
  | unknownVariable (name : String)
  | undefinedTemporary (id : Nat)
  /-- A slot would be overwritten that a load still has to read. -/
  | staleLoad (name : String)
deriving DecidableEq, Repr

structure Fault where
  function : String
  cause : Fault.Cause
deriving DecidableEq, Repr

def Fault.message (e : Fault) : String :=
  match e.cause with
  | .storeTarget v => s!"store in `{e.function}` targets `{v}`, which is not a variable"
  | .loadSource v => s!"load in `{e.function}` reads `{v}`, which is not a variable"
  | .unknownVariable n => s!"variable `{n}` in `{e.function}` has no stack slot"
  | .undefinedTemporary id => s!"temporary %{id} in `{e.function}` is read before it is defined"
  | .staleLoad n => s!"store to `{n}` in `{e.function}` would overwrite a pending load of it"

end Straightline.Selection
