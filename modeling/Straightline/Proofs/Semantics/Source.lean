import Straightline.Lowering.Program
import Straightline.Proofs.Semantics.Code

/-!
What a source program does, read off the syntax tree: operands are evaluated from left to right, and
every name is looked up in one flat environment. What lowering rejects has no meaning here.
-/
namespace Straightline.Source

open IR

variable {V : Type}

/-- The constant that a literal stands for. -/
def Literal.constant? : Literal → Option Constant
  | .int text => (Numeral.int64? text.toList).map .int
  | .float text => (Numeral.Binary64.ofText? text.toList).map .float
  | .string s => some (.string s)
  | .bool b => some (.bool b)

/-- The name that an expression consists of. -/
def Expr.name? : Expr → Option String
  | .name n _ => some n
  | _ => none

variable (M : Meaning V) (O : Oracle V) (env : String → Option V)

mutual

/-- The value of an expression, with the calls made by then. -/
def Expr.eval : Expr → List (Call V) → Option (V × List (Call V))
  | .literal l _, calls => do
    let c ← l.constant?
    return (M.const c, calls)
  | .name n _, calls => do
    let w ← env n
    return (w, calls)
  | .binary op lhs rhs _, calls => do
    let b ← BinOp.ofSymbol? op
    let (l, calls) ← lhs.eval calls
    let (r, calls) ← rhs.eval calls
    return (M.binary b l r, calls)
  | .call callee args _, calls => do
    let f ← callee.name?
    let (ws, calls) ← evalAll args calls
    return (O calls ⟨f, ws⟩, calls ++ [⟨f, ws⟩])

/-- The values of several expressions. -/
def Expr.evalAll : List Expr → List (Call V) → Option (List V × List (Call V))
  | [], calls => some ([], calls)
  | e :: rest, calls => do
    let (w, calls) ← e.eval calls
    let (ws, calls) ← evalAll rest calls
    return (w :: ws, calls)

end

/-- Statements up to the first return; `atEnd` is what comes back if there is none. -/
def Stmt.evalBody (atEnd : Option V) :
    List Stmt → (String → Option V) → List (Call V) → Option (Behaviour V)
  | [], _, calls => some ⟨calls, atEnd⟩
  | .bind name init _ :: rest, env, calls => do
    let (w, calls) ← init.eval M O env calls
    evalBody atEnd rest (Function.update env name (some w)) calls
  | .eval e _ :: rest, env, calls => do
    let (_, calls) ← e.eval M O env calls
    evalBody atEnd rest env calls
  | .ret none _ :: _, _, calls => some ⟨calls, none⟩
  | .ret (some e) _ :: _, env, calls => do
    let (w, calls) ← e.eval M O env calls
    return ⟨calls, some w⟩
  | .assign .. :: _, _, _ => none

/-- A function binds its parameters and runs its body. The entry point returns zero at the end. -/
def FnDef.eval (entryPoint : String) (d : FnDef) (args : List V) (history : List (Call V)) :
    Option (Behaviour V) :=
  let atEnd := if d.name.val = entryPoint then some (M.const (.int 0)) else none
  Stmt.evalBody M O atEnd d.body (cellsOf ((d.params.map (·.name)).zip args)) history

end Straightline.Source
