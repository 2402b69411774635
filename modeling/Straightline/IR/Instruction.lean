import Straightline.IR.Value

/-! Instructions: operations, which run in sequence, and the return that ends a block. -/
namespace Straightline.IR

inductive BinOp
  | add
  | subtract
  | multiply
  | divide
  | modulo
deriving DecidableEq, Repr

namespace BinOp

def mnemonic : BinOp → String
  | add => "add"
  | subtract => "sub"
  | multiply => "mul"
  | divide => "div"
  | modulo => "mod"

/-- The operator that the source writes as `s`; the remainder has no source spelling. -/
def ofSymbol? (s : String) : Option BinOp :=
  if s = "+" then some add
  else if s = "-" then some subtract
  else if s = "*" then some multiply
  else if s = "/" then some divide
  else none

end BinOp

inductive Op
  /-- Makes room for a variable. -/
  | alloc (result : Variable)
  | store (dest value : Value)
  | load (result : Temporary) (source : Value)
  | binary (op : BinOp) (result : Temporary) (lhs rhs : Value)
  /-- A call; there is no result if the callee returns nothing. -/
  | call (result : Option Temporary) (callee : String) (args : List Value)
deriving DecidableEq, Repr

inductive Instruction
  | op (o : Op)
  | ret (value : Option Value)
deriving DecidableEq, Repr

def Temporary.binding (t : Temporary) : String := s!"%{t.id}: {t.ty.name} = "

namespace Op

def result? : Op → Option Value
  | alloc v => some (.var v)
  | store .. => none
  | load t _ | binary _ t _ _ => some (.temp t)
  | call t _ _ => t.map .temp

def operands : Op → List Value
  | alloc _ => []
  | store dest value => [dest, value]
  | load _ source => [source]
  | binary _ _ lhs rhs => [lhs, rhs]
  | call _ _ args => args

def name : Op → String
  | alloc _ => "alloc"
  | store .. => "store"
  | load .. => "load"
  | binary .. => "binary"
  | call .. => "call"

def text : Op → String
  | alloc v => s!"{v.name} = alloc {v.ty.name}"
  | store dest value => s!"store {dest.text}, {value.text}"
  | load t source => s!"{t.binding}load {source.text}"
  | binary op t lhs rhs => s!"{t.binding}{op.mnemonic} {lhs.text}, {rhs.text}"
  | call t callee args =>
    let binding := match t with
      | some t => t.binding
      | none => ""
    binding ++ "call " ++ callee ++ "(" ++ ", ".intercalate (args.map (·.text)) ++ ")"

end Op

namespace Instruction

def result? : Instruction → Option Value
  | op o => o.result?
  | ret _ => none

def operands : Instruction → List Value
  | op o => o.operands
  | ret value => value.toList

def isReturn : Instruction → Bool
  | op _ => false
  | ret _ => true

def name : Instruction → String
  | op o => o.name
  | ret _ => "ret"

def text : Instruction → String
  | op o => o.text
  | ret (some v) => "ret " ++ v.text
  | ret none => "ret"

end Instruction

end Straightline.IR
