import Straightline.IR.Builder
import Straightline.Lowering.Problem
import Straightline.Lowering.Scope
import Straightline.Source.Syntax

/-!
The body of a function as code. Expressions append to the entry block and give a value; a statement
that cannot be lowered is abandoned where it stands, and the next one is tried.
-/
namespace Straightline

open IR

namespace Lowering

/-- What is fixed while a body is lowered: the function's name, and what each function returns. -/
structure Context where
  function : String
  results : List (String × Ty)

/-- The type a call of `name` returns; what is not defined returns nothing. -/
def Context.resultOf (cx : Context) (name : String) : Ty := (cx.results.lookup name).getD .nil

/-- A body under construction. -/
structure Body where
  builder : Builder
  scope : Scope

/-- Why a statement was abandoned. -/
inductive Stop
  | problem (p : Problem) (span : Span)
  /-- It reads a name whose declaration failed, which is reported there. -/
  | tainted
  | fault (e : BuildError)

/-- A lowering step; what it appended before it stopped stays. -/
abbrev Lower := EStateM Stop Body

variable {α : Type}

def fail (p : Problem) (span : Span) : Lower α := throw (.problem p span)

/-- Runs a build step on the body's builder. -/
def build (x : Build α) : Lower α := fun b =>
  match x b.builder with
  | .ok a builder => .ok a { b with builder }
  | .error e builder => .error (.fault e) { b with builder }

/-- Runs a build step that stamps `span` on what it appends. -/
def buildAt (span : Span) (x : Build α) : Lower α := do
  build (Builder.setSpan span)
  build x

/-- Computes `x`; if that stops, the name counts as one whose declaration failed. -/
def declaring (name : String) (x : Lower α) : Lower α := fun b =>
  match x b with
  | .ok a b => .ok a b
  | .error stop b => .error stop { b with scope := b.scope.set name .failed }

def declare (name : String) (ty : Ty) : Lower Unit :=
  modify fun b => { b with scope := b.scope.set name (.typed ty) }

/-- Appends the read of a name. -/
def read (cx : Context) (name : String) (span : Span) : Lower Temporary := do
  match (← get).scope.find? name with
  | some .failed => throw .tainted
  | none => fail (.unresolved name cx.function) span
  | some (.typed ty) => buildAt span (Builder.load (.var ⟨name, ty⟩))

end Lowering

namespace Source

open Lowering

def Literal.lower (span : Span) : Literal → Lower Constant
  | .int text => match Numeral.int64? text.toList with
    | some n => return .int n
    | none => fail (.integerTooWide text) span
  | .float text => match Numeral.Binary64.ofText? text.toList with
    | some x => return .float x
    | none => fail (.malformedFloat text) span
  | .string s => return .string s
  | .bool b => return .bool b

/-- The function that is named as the target of a call. -/
def Expr.functionName : Expr → Lower String
  | .name f _ => return f
  | e => fail (.notCallable e.describe) e.span

mutual

/-- Appends what computes an expression, and gives its value. -/
def Expr.lower (cx : Context) : Expr → Lower Value
  | .literal l span => .const <$> l.lower span
  | .name n span => .temp <$> read cx n span
  | .binary op lhs rhs span => do
    match BinOp.ofSymbol? op with
    | none => fail (.unknownOperator op) span
    | some binOp =>
      let l ← lhs.lower cx
      let r ← rhs.lower cx
      if l.ty = r.ty then .temp <$> buildAt span (Builder.binary binOp l r)
      else fail (.operandTypes op l.ty r.ty) span
  | .call callee args span => do
    let f ← callee.functionName
    let values ← lowerAll cx args
    match ← buildAt span (Builder.call f values (cx.resultOf f)) with
    | some t => return .temp t
    | none => fail .voidValue span

/-- The values of several expressions, left to right. -/
def Expr.lowerAll (cx : Context) : List Expr → Lower (List Value)
  | [] => return []
  | e :: rest => do
    let v ← e.lower cx
    let vs ← lowerAll cx rest
    return v :: vs

end

/-- An expression in statement position: its value is dropped, so a call need not have one. -/
def Expr.lowerEffect (cx : Context) : Expr → Lower Unit
  | .call callee args span => do
    let f ← callee.functionName
    let values ← lowerAll cx args
    discard <| buildAt span (Builder.call f values (cx.resultOf f))
  | e => discard <| e.lower cx

def Stmt.lower (cx : Context) : Stmt → Lower Unit
  | .bind name init span => do
    let value ← declaring name (init.lower cx)
    let v ← buildAt span (Builder.alloc name value.ty)
    build (Builder.store (.var v) value)
    declare name value.ty
  | .ret none span => buildAt span (Builder.ret none)
  | .ret (some e) span => do
    let value ← e.lower cx
    buildAt span (Builder.ret (some value))
  | .eval e _ => e.lowerEffect cx
  | .assign name _ span => fail (.assignment name) span

end Source

namespace Lowering

/-- A body lowered as far as possible; `clean` says that no statement was abandoned. -/
structure BodyOutcome where
  builder : Builder
  diagnostics : List Diagnostic
  clean : Bool

/-- Lowers statements in order. The first one after a return draws a warning and ends the body. -/
def lowerBody (cx : Context) : List Source.Stmt → Body → Except BuildError BodyOutcome
  | [], b => .ok ⟨b.builder, [], true⟩
  | s :: rest, b =>
    if b.builder.isTerminated then
      .ok ⟨b.builder, [Problem.unreachable.diagnostic s.span], true⟩
    else match s.lower cx b with
      | .ok () b => lowerBody cx rest b
      | .error (.fault e) _ => .error e
      | .error .tainted b => do
        let r ← lowerBody cx rest b
        return { r with clean := false }
      | .error (.problem p span) b => do
        let r ← lowerBody cx rest b
        return { r with diagnostics := p.diagnostic span :: r.diagnostics, clean := false }

end Lowering

end Straightline
