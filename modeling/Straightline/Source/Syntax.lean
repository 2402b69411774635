import Straightline.Span

/-!
Syntax trees as a parser delivers them: literals are still text, names are unresolved, and operators
are whatever the source wrote. Every node knows its span.
-/
namespace Straightline.Source

inductive Literal
  | int (text : String)
  | float (text : String)
  | string (value : String)
  | bool (value : Bool)
deriving DecidableEq, Repr

inductive Expr
  | literal (value : Literal) (span : Span)
  | name (id : String) (span : Span)
  | binary (op : String) (lhs rhs : Expr) (span : Span)
  | call (callee : Expr) (args : List Expr) (span : Span)

namespace Expr

def span : Expr → Span
  | literal _ s | name _ s | binary _ _ _ s | call _ _ s => s

/-- The noun that messages use for the expression. -/
def describe : Expr → String
  | literal .. => "literal"
  | name .. => "identifier"
  | binary .. => "binary expression"
  | call .. => "call expression"

end Expr

inductive Stmt
  | bind (name : String) (init : Expr) (span : Span)
  | assign (name : String) (value : Expr) (span : Span)
  | ret (value : Option Expr) (span : Span)
  | eval (value : Expr) (span : Span)

namespace Stmt

def span : Stmt → Span
  | bind _ _ s | assign _ _ s | ret _ s | eval _ s => s

/-- The noun that messages use for the statement. -/
def describe : Stmt → String
  | bind .. => "let statement"
  | assign .. => "assignment"
  | ret .. => "return statement"
  | eval .. => "expression statement"

end Stmt

/-- A parameter with the type it is annotated with. -/
structure Param where
  name : String
  ty : Located String
deriving DecidableEq, Repr

/-- A function definition; `result` is the annotated return type. -/
structure FnDef where
  name : Located String
  params : List Param
  result : Option (Located String)
  body : List Stmt

inductive Item
  | fn (definition : FnDef)
  | stmt (statement : Stmt) (span : Span)

abbrev Program := List Item

namespace Program

/-- The definitions of a program, in source order. -/
def definitions (p : Program) : List FnDef :=
  p.filterMap fun
    | .fn d => some d
    | .stmt .. => none

end Program

end Straightline.Source
