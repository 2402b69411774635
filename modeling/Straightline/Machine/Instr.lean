import Straightline.Machine.Register

/-!
Instructions of the abstract machine: an opcode with any list of operands. Whether the operands suit
the opcode is checked when the instruction is written as assembly.
-/
namespace Straightline.Machine

inductive Operand
  | reg (r : Register)
  | imm (value : Int64)
  /-- A symbol before the platform's own spelling is applied. -/
  | label (name : String)
  | mem (base : Register) (offset : Int)
deriving DecidableEq, Repr

namespace Operand

/-- The noun that messages use for the operand. -/
def describe : Operand → String
  | reg _ => "register"
  | imm _ => "immediate"
  | label _ => "label"
  | mem .. => "memory"

def text : Operand → String
  | reg r => r.name
  | imm n => s!"#{n.toInt}"
  | label name => name
  | mem base offset => if offset = 0 then s!"[{base.name}]" else s!"[{base.name}, #{offset}]"

end Operand

inductive Opcode
  | move
  | load
  | store
  /-- Pushes two registers: the base is lowered by the offset first. -/
  | storePair
  /-- Pops two registers: the base is raised by the offset afterwards. -/
  | loadPair
  | add
  | subtract
  | multiply
  | divide
  | call
  | ret
  | defineLabel
  | global
  | comment
deriving DecidableEq, Repr

namespace Opcode

def name : Opcode → String
  | move => "Move"
  | load => "Load"
  | store => "Store"
  | storePair => "StorePair"
  | loadPair => "LoadPair"
  | add => "Add"
  | subtract => "Subtract"
  | multiply => "Multiply"
  | divide => "Divide"
  | call => "Call"
  | ret => "Return"
  | defineLabel => "DefineLabel"
  | global => "Global"
  | comment => "Comment"

def all : List Opcode :=
  [move, load, store, storePair, loadPair, add, subtract, multiply, divide, call, ret, defineLabel,
    global, comment]

def ofName? (s : String) : Option Opcode := all.find? (·.name = s)

theorem ofName?_name (op : Opcode) : ofName? op.name = some op := by
  cases op <;> decide

/-- The operands the opcode is meant for. -/
def signature : Opcode → String
  | move => "register, register|immediate"
  | load | store => "register, memory"
  | storePair | loadPair => "register, register, memory"
  | add | subtract => "register, register, register|immediate"
  | multiply | divide => "register, register, register"
  | call => "label, register..."
  | ret => "no operands"
  | defineLabel | global => "label"
  | comment => "comment text and no operands"

end Opcode

structure Instr where
  opcode : Opcode
  operands : List Operand := []
  comment : Option String := none
deriving DecidableEq, Repr

namespace Instr

open Register

def move (dst src : Register) : Instr := ⟨.move, [.reg dst, .reg src], none⟩

def moveImm (dst : Register) (n : Int64) : Instr := ⟨.move, [.reg dst, .imm n], none⟩

def load (dst base : Register) (offset : Int) : Instr :=
  ⟨.load, [.reg dst, .mem base offset], none⟩

def store (src base : Register) (offset : Int) : Instr :=
  ⟨.store, [.reg src, .mem base offset], none⟩

def storePair (a b base : Register) (offset : Int) : Instr :=
  ⟨.storePair, [.reg a, .reg b, .mem base offset], none⟩

def loadPair (a b base : Register) (offset : Int) : Instr :=
  ⟨.loadPair, [.reg a, .reg b, .mem base offset], none⟩

/-- Three-address arithmetic; `src` is a register or an immediate. -/
def arith (op : Opcode) (dst lhs : Register) (src : Operand) : Instr :=
  ⟨op, [.reg dst, .reg lhs, src], none⟩

/-- A call that reads the registers `args`. -/
def call (symbol : String) (args : List Register) : Instr :=
  ⟨.call, .label symbol :: args.map .reg, none⟩

def ret : Instr := ⟨.ret, [], none⟩

def label (name : String) : Instr := ⟨.defineLabel, [.label name], none⟩

def global (name : String) : Instr := ⟨.global, [.label name], none⟩

def remark (text : String) : Instr := ⟨.comment, [], some text⟩

/-- The registers that the instruction overwrites; a callee may use every argument register. -/
def writes (i : Instr) : List Register :=
  match i.opcode, i.operands with
  | .move, .reg r :: _ | .load, .reg r :: _ | .add, .reg r :: _ | .subtract, .reg r :: _
  | .multiply, .reg r :: _ | .divide, .reg r :: _ => [r]
  | .call, _ => arguments
  | _, _ => []

/-- The instruction in the machine's own vocabulary. -/
def text (i : Instr) : String :=
  let operands :=
    if i.operands.isEmpty then "" else " " ++ ", ".intercalate (i.operands.map (·.text))
  let comment := match i.comment with
    | some text => " ; " ++ text
    | none => ""
  i.opcode.name ++ operands ++ comment

end Instr

/-- An instruction whose operands do not suit its opcode. -/
structure Malformed where
  opcode : Opcode
  operands : List Operand
deriving DecidableEq, Repr

namespace Malformed

def found (m : Malformed) : String :=
  if m.operands.isEmpty then "no operands" else ", ".intercalate (m.operands.map (·.describe))

def message (m : Malformed) : String :=
  s!"{m.opcode.name} expects {m.opcode.signature}, found {m.found}"

end Malformed

end Straightline.Machine
