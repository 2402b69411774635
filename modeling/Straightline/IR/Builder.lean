import Straightline.IR.Module

/-!
Code built one instruction at a time. A builder numbers the temporaries, stamps every instruction
with the current span, and appends it to the insertion block; without one, instructions are
dropped.
-/
namespace Straightline.IR

structure Builder where
  nextId : Nat := 0
  block : Option Block := none
  span : Span := .nowhere
deriving DecidableEq, Repr

/-- A build step. What it did before it failed stays done: a number once given out is not reused. -/
abbrev Build := EStateM BuildError Builder

namespace Builder

def isTerminated (b : Builder) : Bool := b.block.any (·.isComplete)

/-- Starts over: numbers begin at zero again, and there is no insertion block. -/
def reset : Build Unit := set ({} : Builder)

def setSpan (s : Span) : Build Unit := modify fun b => { b with span := s }

/-- Makes `block` the insertion block; a previous one is lost. -/
def insert (block : Block) : Build Unit := modify fun b => { b with block := some block }

/-- Gives up the insertion block. -/
def take : Build (Option Block) := modifyGet fun b => (b.block, { b with block := none })

/-- A temporary with the next number. -/
def fresh (ty : Ty) : Build Temporary :=
  modifyGet fun b => (⟨b.nextId, ty⟩, { b with nextId := b.nextId + 1 })

/-- Changes the insertion block, if there is one. -/
def update (f : Block → Except BuildError Block) : Build Unit := do
  match (← get).block with
  | none => return
  | some block => match f block with
    | .ok block => modify fun b => { b with block := some block }
    | .error e => throw e

def append (o : Op) : Build Unit := do
  let span := (← get).span
  update (·.push ⟨.op o, span⟩)

def alloc (name : String) (ty : Ty) : Build Variable := do
  let v : Variable := ⟨name, ty⟩
  append (.alloc v)
  return v

def store (dest value : Value) : Build Unit := append (.store dest value)

def load (source : Value) : Build Temporary := do
  let t ← fresh source.ty
  append (.load t source)
  return t

/-- The result has the type of the left operand. -/
def binary (op : BinOp) (lhs rhs : Value) : Build Temporary := do
  let t ← fresh lhs.ty
  append (.binary op t lhs rhs)
  return t

/-- A call has a result unless it returns `nil`. -/
def call (callee : String) (args : List Value) (result : Ty) : Build (Option Temporary) := do
  let t ← if result = .nil then pure none else some <$> fresh result
  append (.call t callee args)
  return t

def ret (value : Option Value) : Build Unit := do
  let span := (← get).span
  update (·.terminate ⟨.ret value, span⟩)

end Builder

end Straightline.IR
