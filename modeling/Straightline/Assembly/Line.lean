import Straightline.Machine.Register

/-! Lines of ARM64 assembly as data, and their spelling. -/
namespace Straightline.Assembly

open Machine (Register)

def registerName : Register → String
  | .r0 => "x0"
  | .r1 => "x1"
  | .r2 => "x2"
  | .r3 => "x3"
  | .sp => "sp"
  | .fp => "x29"
  | .lr => "x30"

/-- The flexible last operand of a move, an addition or a subtraction. -/
inductive Source
  | reg (r : Register)
  | imm (value : Int64)
deriving DecidableEq, Repr

def Source.text : Source → String
  | reg r => registerName r
  | imm n => s!"#{n.toInt}"

inductive Line
  | mov (dst : Register) (src : Source)
  /-- Sets the low 16 bits and clears the others. -/
  | movz (dst : Register) (chunk : Nat)
  /-- Sets the 16 bits from `shift` on and keeps the others. -/
  | movk (dst : Register) (chunk shift : Nat)
  | ldr (dst base : Register) (offset : Int)
  | str (src base : Register) (offset : Int)
  | stp (a b base : Register) (offset : Int)
  | ldp (a b base : Register) (offset : Int)
  | add (dst lhs : Register) (src : Source)
  | sub (dst lhs : Register) (src : Source)
  | mul (dst lhs rhs : Register)
  | sdiv (dst lhs rhs : Register)
  | bl (symbol : String)
  | ret
  | label (symbol : String)
  | globl (symbol : String)
  | remark (text : String)
deriving DecidableEq, Repr

/-- An address in brackets; a zero offset is left out. -/
def address (base : Register) (offset : Int) : String :=
  if offset = 0 then s!"[{registerName base}]" else s!"[{registerName base}, #{offset}]"

def Line.text : Line → String
  | mov d s => s!"    mov {registerName d}, {s.text}"
  | movz d n => s!"    movz {registerName d}, #{n}"
  | movk d n k => s!"    movk {registerName d}, #{n}, lsl #{k}"
  | ldr d b o => s!"    ldr {registerName d}, {address b o}"
  | str r b o => s!"    str {registerName r}, {address b o}"
  | stp a b base o => s!"    stp {registerName a}, {registerName b}, [{registerName base}, #{o}]!"
  | ldp a b base o => s!"    ldp {registerName a}, {registerName b}, [{registerName base}], #{o}"
  | add d l s => s!"    add {registerName d}, {registerName l}, {s.text}"
  | sub d l s => s!"    sub {registerName d}, {registerName l}, {s.text}"
  | mul d l r => s!"    mul {registerName d}, {registerName l}, {registerName r}"
  | sdiv d l r => s!"    sdiv {registerName d}, {registerName l}, {registerName r}"
  | bl s => "    bl " ++ s
  | ret => "    ret"
  | label s => s ++ ":"
  | globl s => "    .globl " ++ s
  | remark t => "    # " ++ t

end Straightline.Assembly
