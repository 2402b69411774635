import Straightline.Selection.Frame
import Straightline.Selection.State
import Straightline.Target.Basic

/-!
Machine code for each instruction. Loads are put off: a loaded temporary stays in its slot until
it is read. Results are computed into the result register, and the right operand steps aside for
the left.
-/
namespace Straightline.Selection

open IR
open Machine (Instr Opcode Operand Register)

/-- What is fixed while code is selected for a function. -/
structure Context where
  target : Target
  function : Func

namespace Context

def frame (cx : Context) : Frame := .ofFunc cx.function

def isEntry (cx : Context) : Bool := cx.target.isEntryPoint cx.function.name

/-- How many arguments fit in registers. -/
def maxArgs (cx : Context) : Nat := min cx.target.argumentRegisters Register.arguments.length

end Context

def demandInt (subject : Subject) (ty : Ty) : Select Unit :=
  if ty = .int then pure () else reject (.type subject ty)

def offsetOf (cx : Context) (name : String) : Select Int :=
  match cx.frame.offset? name with
  | some offset => pure offset
  | none => fault (.unknownVariable name)

/-- Where a value is. -/
def find (cx : Context) : Value → Select Place
  | .const (.int n) => pure (.imm n)
  | .const c => reject (.constant c)
  | .var v => do
    demandInt (.var v.name) v.ty
    .slot <$> offsetOf cx v.name
  | .temp t => do
    demandInt (.temp t.id) t.ty
    match (← get).place? t.id with
    | some p => pure p
    | none => fault (.undefinedTemporary t.id)

/-- Reads a value into a register. -/
def fetch (cx : Context) (v : Value) (dst : Register) : Select Unit := do
  let p ← find cx v
  spend v
  match p with
  | .imm n => issue (.moveImm dst n)
  | .slot offset => issue (.load dst .fp offset)
  | .reg r =>
    if r = dst then pure ()
    else do
      issue (.move dst r)
      settle v (.reg dst)

def opcode? : BinOp → Option Opcode
  | .add => some .add
  | .subtract => some .subtract
  | .multiply => some .multiply
  | .divide => some .divide
  | .modulo => none

/-- The immediate can be the right operand itself. -/
def isDirect (op : Opcode) (n : Int64) : Bool :=
  (op = .add || op = .subtract) && 0 ≤ n.toInt && n.toInt ≤ 4095

/-- A right operand in the result register makes way for the left one. -/
def stepAside (v : Value) (p : Place) : Select Place :=
  if p = .reg .r0 then do
    issue (.move .r2 .r0)
    settle v (.reg .r2)
    return .reg .r2
  else return p

/-- Reads both operands, the left one into the result register or, if the right one has to come
through there, into the one beside it. -/
def fetchOperands (cx : Context) (op : Opcode) (lhs rhs : Value) (right : Place) :
    Select (Register × Operand) := do
  fetch cx lhs .r0
  match right with
  | .reg r =>
    spend rhs
    return (.r0, .reg r)
  | .imm n =>
    if isDirect op n then return (.r0, .imm n)
    else do
      issue (.move .r1 .r0)
      fetch cx rhs .r0
      return (.r1, .reg .r0)
  | .slot _ =>
    issue (.move .r1 .r0)
    fetch cx rhs .r0
    return (.r1, .reg .r0)

def codeOfBinary (cx : Context) (op : BinOp) (result : Temporary) (lhs rhs : Value) :
    Select Unit := do
  match opcode? op with
  | none => reject .modulo
  | some op =>
    let right ← stepAside rhs (← find cx rhs)
    let (left, src) ← fetchOperands cx op lhs rhs right
    issue (.arith op .r0 left src)
    settle (.temp result) (.reg .r0)

/-- Reads the values at places that satisfy `which` into the registers beside them. -/
def fetchArgs (cx : Context) (which : Place → Bool) :
    List ((Value × Place) × Register) → Select Unit
  | [] => pure ()
  | ((v, p), r) :: rest => do
    if which p then fetch cx v r
    fetchArgs cx which rest

/-- Arguments that are in registers move first, so that the others cannot overwrite them. -/
def codeOfCall (cx : Context) (result : Option Temporary) (callee : String) (args : List Value) :
    Select Unit := do
  match result with
  | some t => demandInt (.resultOf callee) t.ty
  | none => pure ()
  if cx.maxArgs < args.length then do
    let limit := Limit.args callee args.length cx.maxArgs
    issue (.remark ("ERROR: " ++ limit.message cx.function.name))
    reject limit
  else do
    let places ← args.mapM (find cx)
    let moves := (args.zip places).zip Register.arguments
    fetchArgs cx Place.isReg moves
    fetchArgs cx (!·.isReg) moves
    issue (.call (cx.target.callee callee) (Register.arguments.take args.length))
    match result with
    | some t => settle (.temp t) (.reg Register.result)
    | none => pure ()

def codeOfOp (cx : Context) : Op → Select Unit
  | .alloc _ => pure ()
  | .store (.var v) value => do
    let offset ← offsetOf cx v.name
    fetch cx value .r0
    if (← get).isAwaited (.slot offset) then fault (.staleLoad v.name)
    else issue (.store .r0 .fp offset)
  | .store dest _ => fault (.storeTarget dest.text)
  | .load result (.var v) => do
    let offset ← offsetOf cx v.name
    settle (.temp result) (.slot offset)
  | .load _ source => fault (.loadSource source.text)
  | .binary op result lhs rhs => codeOfBinary cx op result lhs rhs
  | .call result callee args => codeOfCall cx result callee args

def epilogue (cx : Context) : Select Unit := do
  issue (.remark "Function epilogue")
  if 0 < cx.frame.size then issue (.move .sp .fp)
  issue (.loadPair .fp .lr .sp 16)
  issue .ret

/-- The entry point returns zero where it returns nothing. -/
def codeOfReturn (cx : Context) (value : Option Value) : Select Unit := do
  match value with
  | some v => fetch cx v Register.result
  | none => if cx.isEntry then issue (.moveImm Register.result 0)
  epilogue cx

def codeOf (cx : Context) : Instruction → Select Unit
  | .op o => codeOfOp cx o
  | .ret value => codeOfReturn cx value

/-- Stores the parameters in their slots. -/
def storeParams (cx : Context) : List (Variable × Register) → Select Unit
  | [] => pure ()
  | (p, r) :: rest => do
    demandInt (.param p.name) p.ty
    let offset ← offsetOf cx p.name
    issue (.store r .fp offset)
    storeParams cx rest

def prologue (cx : Context) : Select Unit := do
  let f := cx.function
  let size := cx.frame.size
  if cx.isEntry then issue (.global f.name)
  issue (.label f.name)
  issue (.remark "Function prologue")
  issue (.storePair .fp .lr .sp (-16))
  issue (.move .fp .sp)
  if Frame.maxSize < size then reject (.frame size Frame.maxSize)
  if 0 < size then issue (.arith .subtract .sp .sp (.imm (Int64.ofNat size)))
  if cx.maxArgs < f.params.length then reject (.params f.params.length cx.maxArgs)
  storeParams cx (f.params.zip Register.arguments)

/-- The code of a function as far as it could be selected, and the limit it met. -/
structure Segment where
  code : List Instr
  diagnostic : Option Diagnostic

/-- Goes on with `next` after a step that stands at `span`, or ends the selection there. -/
def proceed (f : Func) (span : Span) (step : EStateM.Result Stop State Unit)
    (next : State → Except Fault Segment) : Except Fault Segment :=
  match step with
  | .ok () s => next s
  | .error (.limit l) s => .ok ⟨s.code, some (l.diagnostic f.name span)⟩
  | .error (.fault c) _ => .error ⟨f.name, c⟩

def codeOfAll (cx : Context) : List (Located Instruction) → State → Except Fault Segment
  | [], s => .ok ⟨s.code, none⟩
  | i :: rest, s =>
    proceed cx.function (i.span.orElse cx.function.span) (codeOf cx i.val s) (codeOfAll cx rest)

/-- The temporaries that a function reads, as often as it does. -/
def reads (f : Func) : List Nat :=
  f.instructions.flatMap fun i => i.val.operands.filterMap fun v => v.temp?.map (·.id)

def codeOfFunc (t : Target) (f : Func) : Except Fault Segment :=
  let cx : Context := ⟨t, f⟩
  proceed f f.span (prologue cx { pending := reads f }) (codeOfAll cx f.instructions)

end Straightline.Selection
