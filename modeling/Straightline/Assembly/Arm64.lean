import Straightline.Assembly.Line
import Straightline.Machine.Instr
import Straightline.Target.Basic

/-!
Machine instructions as ARM64 assembly. An instruction gives one line, except that a move of a wide
immediate builds it 16 bits at a time; operands that do not suit their opcode are refused.
-/
namespace Straightline.Assembly

open Machine (Register Instr Malformed Opcode Operand)

/-- The 16 bits of `bits` from `shift` on. -/
def chunk (bits shift : Nat) : Nat := (bits >>> shift) % 0x10000

/-- One move reaches 16 bits, plain or inverted. -/
def fitsMove (n : Int64) : Bool := -0x10000 ≤ n.toInt && n.toInt ≤ 0xFFFF

/-- Loads a constant: one move if it fits, else its lowest chunk followed by the higher chunks that
are not zero. -/
def moveImm (dst : Register) (n : Int64) : List Line :=
  if fitsMove n then [.mov dst (.imm n)]
  else
    let bits := n.toUInt64.toNat
    .movz dst (chunk bits 0) ::
      (([16, 32, 48] : List Nat).filter (chunk bits · ≠ 0)).map fun k => .movk dst (chunk bits k) k

/-- The platform's spelling of a symbol. -/
def symbol (t : Target) (name : String) : String := t.symbolPrefix ++ name

/-- The lines of an instruction. -/
def encode (t : Target) (i : Instr) : Except Malformed (List Line) :=
  match i.opcode, i.operands with
  | .move, [.reg d, .reg s] => .ok [.mov d (.reg s)]
  | .move, [.reg d, .imm n] => .ok (moveImm d n)
  | .load, [.reg d, .mem b o] => .ok [.ldr d b o]
  | .store, [.reg s, .mem b o] => .ok [.str s b o]
  | .storePair, [.reg a, .reg b, .mem base o] => .ok [.stp a b base o]
  | .loadPair, [.reg a, .reg b, .mem base o] => .ok [.ldp a b base o]
  | .add, [.reg d, .reg l, .reg r] => .ok [.add d l (.reg r)]
  | .add, [.reg d, .reg l, .imm n] => .ok [.add d l (.imm n)]
  | .subtract, [.reg d, .reg l, .reg r] => .ok [.sub d l (.reg r)]
  | .subtract, [.reg d, .reg l, .imm n] => .ok [.sub d l (.imm n)]
  | .multiply, [.reg d, .reg l, .reg r] => .ok [.mul d l r]
  | .divide, [.reg d, .reg l, .reg r] => .ok [.sdiv d l r]
  | .call, .label f :: args =>
    if args.all (fun | .reg _ => true | _ => false) then .ok [.bl (symbol t f)]
    else .error ⟨.call, i.operands⟩
  | .ret, [] => .ok [.ret]
  | .defineLabel, [.label f] => .ok [.label (symbol t f)]
  | .global, [.label f] => .ok [.globl (symbol t f)]
  | .comment, [] => match i.comment with
    | some text => .ok [.remark text]
    | none => .error ⟨.comment, []⟩
  | op, operands => .error ⟨op, operands⟩

/-- What follows an instruction on its last line; a comment instruction has nothing to add. -/
def trailer (i : Instr) : String :=
  match i.opcode, i.comment with
  | .comment, _ | _, none => ""
  | _, some text => " // " ++ text

def instruction (t : Target) (i : Instr) : Except Malformed String := do
  let lines ← encode t i
  return "\n".intercalate (lines.map (·.text)) ++ trailer i

/-- A whole program: the section header, then each instruction on lines of its own. -/
def program (t : Target) (code : List Instr) : Except Malformed String := do
  let texts ← code.mapM (instruction t)
  return ".text\n.align 2\n\n" ++ String.join (texts.map (· ++ "\n"))

end Straightline.Assembly
