import Straightline.IR.Module

/-!
Blocks in columns: the instructions of the body in one list, their spans in another one, and what ends
the block beside them. Main statement: whatever a new block is asked to take, in columns it takes and
refuses the same as without, and each instruction has its own span.
-/
namespace Straightline.IR

structure Columns where
  name : String
  instructions : List Instruction := []
  spans : List Span := []
  terminator : Option Instruction := none
  terminatorSpan : Span := .nowhere

namespace Columns

variable (c : Columns) (i : Instruction) (span : Span)

def push : Except BuildError Columns :=
  if i.isReturn then .error (.terminatorInBody c.name)
  else if c.terminator.isSome then .error (.blockTerminated c.name)
  else .ok { c with instructions := c.instructions ++ [i], spans := c.spans ++ [span] }

def terminate : Except BuildError Columns :=
  if !i.isReturn then .error (.notATerminator i.text)
  else if c.terminator.isSome then .error (.blockTerminated c.name)
  else .ok { c with terminator := some i, terminatorSpan := span }

/-- The instructions with their spans, as far as both lists go, and what ends the block. -/
def spanned : List (Located Instruction) :=
  List.zipWith Located.mk c.instructions c.spans ++ c.terminator.toList.map (⟨·, c.terminatorSpan⟩)

end Columns

/-- What a block can be asked to take. -/
inductive Addition
  | push (i : Located Instruction)
  | terminate (i : Located Instruction)

def Block.apply (b : Block) : Addition → Except BuildError Block
  | .push i => b.push i
  | .terminate i => b.terminate i

def Columns.apply (c : Columns) : Addition → Except BuildError Columns
  | .push i => c.push i.val i.span
  | .terminate i => c.terminate i.val i.span

/-- The block after several additions; what it refuses leaves it as it is. -/
def Block.after (b : Block) (as : List Addition) : Block :=
  as.foldl (fun b a => (b.apply a).toOption.getD b) b

def Columns.after (c : Columns) (as : List Addition) : Columns :=
  as.foldl (fun c a => (c.apply a).toOption.getD c) c

namespace Block

def columns (b : Block) : Columns where
  name := b.name
  instructions := b.body.map fun o => .op o.val
  spans := b.body.map (·.span)
  terminator := b.terminator.map fun t => .ret t.val
  terminatorSpan := (b.terminator.map (·.span)).getD .nowhere

variable (b : Block)

theorem spanned_columns : b.columns.spanned = b.instructions := by
  obtain ⟨name, body, _ | t⟩ := b <;>
    simp [columns, Columns.spanned, instructions, List.zipWith_map, List.zipWith_self]

theorem columns_push (i : Located Instruction) :
    (b.push i).map columns = b.columns.push i.val i.span := by
  obtain ⟨o | value, span⟩ := i
  · cases ht : b.terminator <;>
      simp [push, Columns.push, Instruction.isReturn, isComplete, columns, Except.map, ht]
  · rfl

theorem columns_terminate (i : Located Instruction) :
    (b.terminate i).map columns = b.columns.terminate i.val i.span := by
  obtain ⟨o | value, span⟩ := i
  · rfl
  · cases ht : b.terminator <;>
      simp [terminate, Columns.terminate, Instruction.isReturn, isComplete, columns, Except.map, ht]

/-- One addition: both take it, or both refuse it for the same reason. -/
theorem columns_apply (a : Addition) : (b.apply a).map columns = b.columns.apply a := by
  cases a with
  | push i => exact b.columns_push i
  | terminate i => exact b.columns_terminate i

theorem columns_after (as : List Addition) : (b.after as).columns = b.columns.after as := by
  induction as generalizing b with
  | nil => rfl
  | cons a as ih =>
    have hstep : ((b.apply a).toOption.getD b).columns =
        (b.columns.apply a).toOption.getD b.columns := by
      rw [← columns_apply]
      cases b.apply a <;> rfl
    exact (ih _).trans (congrArg (Columns.after · as) hstep)

/-- In columns no instruction is lost, and none has the span of another one. -/
theorem spanned_after (name : String) (as : List Addition) :
    (Columns.after { name } as).spanned = (Block.after { name } as).instructions := by
  rw [← spanned_columns, columns_after]
  rfl

end Block

end Straightline.IR
