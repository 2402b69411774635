import Straightline.Numeral.FloatText
import Straightline.Text.Quoted
import Straightline.Ty

/-! What instructions compute with: constants, named variables, and temporaries with a number. -/
namespace Straightline.IR

open Numeral (Binary64)

inductive Constant
  | int (value : Int64)
  | float (value : Binary64)
  | string (value : String)
  | bool (value : Bool)
deriving DecidableEq, Repr

namespace Constant

def ty : Constant → Ty
  | int _ => .int
  | float _ => .float
  | string _ => .string
  | bool _ => .bool

def text : Constant → String
  | int n => toString n.toInt
  | float x => x.text
  | string s => Text.quote s
  | bool b => if b then "true" else "false"

end Constant

structure Variable where
  name : String
  ty : Ty
deriving DecidableEq, Repr

/-- The result of one instruction; its number tells it from the others of its function. -/
structure Temporary where
  id : Nat
  ty : Ty
deriving DecidableEq, Repr

inductive Value
  | const (c : Constant)
  | var (v : Variable)
  | temp (t : Temporary)
deriving DecidableEq, Repr

namespace Value

def ty : Value → Ty
  | const c => c.ty
  | var v => v.ty
  | temp t => t.ty

def text : Value → String
  | const c => c.text
  | var v => v.name
  | temp t => s!"%{t.id}"

def isConstant : Value → Bool
  | const _ => true
  | _ => false

def int? : Value → Option Int64
  | const (.int n) => some n
  | _ => none

def var? : Value → Option Variable
  | var v => some v
  | _ => none

def temp? : Value → Option Temporary
  | temp t => some t
  | _ => none

end Value

end Straightline.IR
