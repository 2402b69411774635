import Straightline.Diagnostic.Basic
import Straightline.Ty

/-! What can be wrong with a program, and how each finding is worded. -/
namespace Straightline.Lowering

inductive Problem
  | unknownType (name : String)
  | integerTooWide (text : String)
  | malformedFloat (text : String)
  | unresolved (name function : String)
  | unknownOperator (op : String)
  | operandTypes (op : String) (lhs rhs : Ty)
  /-- Something other than a name is called. -/
  | notCallable (noun : String)
  | voidValue
  | assignment (name : String)
  | outsideFunction (noun : String)
  | redefined (function : String)
  | noFunctions
  /-- A statement follows a return. -/
  | unreachable
deriving DecidableEq, Repr

namespace Problem

def kind : Problem → Diagnostic.Kind
  | integerTooWide _ | unknownOperator _ | notCallable _ | voidValue => .unsupported
  | unreachable => .lint
  | _ => .defect

def message : Problem → String
  | unknownType t => s!"unknown type `{t}`"
  | integerTooWide t => s!"integer literal `{t}` does not fit in 64 bits"
  | malformedFloat t => s!"malformed float literal `{t}`"
  | unresolved n _ => s!"unresolved identifier `{n}`"
  | unknownOperator op => s!"unsupported binary operator `{op}`"
  | operandTypes op l r => s!"operands of `{op}` have different types: {l.name} and {r.name}"
  | notCallable noun => s!"cannot call a {noun}"
  | voidValue => "a void call cannot be used as a value"
  | assignment n => s!"cannot lower assignment to `{n}`"
  | outsideFunction noun => s!"{noun} outside a function body"
  | redefined f => s!"function `{f}` is defined more than once"
  | noFunctions => "program defines no functions"
  | unreachable => "unreachable statement after `return`"

def notes : Problem → List String
  | unresolved _ f => [s!"in function `{f}`"]
  | unreachable => ["statements following a return are not compiled"]
  | _ => []

def help? : Problem → Option String
  | unknownType _ => some "known types are int, float, string, bool and nil"
  | unknownOperator _ => some "supported operators are +, -, * and /"
  | notCallable _ => some "call targets must be plain function names"
  | voidValue => some "call it as a statement instead"
  | assignment _ => some "only `let`, `return` and expression statements reach code generation"
  | outsideFunction _ => some "top-level code must be placed inside `func main()`"
  | _ => none

def diagnostic (p : Problem) (span : Span) : Diagnostic where
  kind := p.kind
  message := p.message
  span := span
  notes := p.notes
  help := p.help?

end Problem

end Straightline.Lowering
