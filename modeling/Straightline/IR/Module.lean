import Straightline.IR.Instruction
import Straightline.Span

/-!
Blocks, functions and modules. A block is complete when it ends in a return, a function when it has
blocks and all are complete, and likewise a module.
-/
namespace Straightline.IR

/-- Why code could not be put together. -/
inductive BuildError
  | notATerminator (text : String)
  | terminatorInBody (block : String)
  | blockTerminated (block : String)
  | duplicateFunction (name : String)
deriving DecidableEq, Repr

def BuildError.message : BuildError → String
  | notATerminator text => s!"`{text}` cannot terminate a basic block"
  | terminatorInBody b => s!"return appended to the body of block `{b}` instead of its terminator"
  | blockTerminated b => s!"block `{b}` already has a terminator"
  | duplicateFunction f => s!"function `{f}` is defined twice in the module"

structure Block where
  name : String
  body : List (Located Op) := []
  /-- The return that ends the block, with the value it gives back. -/
  terminator : Option (Located (Option Value)) := none
deriving DecidableEq, Repr

namespace Block

/-- The name of a function's first block. -/
def entryName : String := "entry"

def isComplete (b : Block) : Bool := b.terminator.isSome

/-- All instructions in order, the return last. -/
def instructions (b : Block) : List (Located Instruction) :=
  b.body.map (fun o => ⟨.op o.val, o.span⟩)
    ++ b.terminator.toList.map (fun t => ⟨.ret t.val, t.span⟩)

/-- Appends an operation to the body. -/
def push (b : Block) (i : Located Instruction) : Except BuildError Block :=
  match i.val with
  | .ret _ => .error (.terminatorInBody b.name)
  | .op o =>
    if b.isComplete then .error (.blockTerminated b.name)
    else .ok { b with body := b.body ++ [⟨o, i.span⟩] }

/-- Ends the block with a return. -/
def terminate (b : Block) (i : Located Instruction) : Except BuildError Block :=
  match i.val with
  | .op o => .error (.notATerminator o.text)
  | .ret value =>
    if b.isComplete then .error (.blockTerminated b.name)
    else .ok { b with terminator := some ⟨value, i.span⟩ }

def text (b : Block) : String :=
  let ending := match b.terminator with
    | some t => (Instruction.ret t.val).text
    | none => "<unterminated>"
  s!"  {b.name}:\n" ++ String.join (b.body.map fun o => "    " ++ o.val.text ++ "\n")
    ++ "    " ++ ending ++ "\n"

theorem instructions_push {b c : Block} {i : Located Instruction} (h : b.push i = .ok c) :
    c.instructions = b.instructions ++ [i] := by
  obtain ⟨_ | _, span⟩ := i <;> simp only [push, reduceCtorEq] at h
  split at h
  · cases h
  · next hc =>
    obtain rfl := Except.ok.inj h
    have hb : b.terminator = none := by simpa [isComplete] using hc
    simp [instructions, hb]

theorem instructions_terminate {b c : Block} {i : Located Instruction} (h : b.terminate i = .ok c) :
    c.instructions = b.instructions ++ [i] := by
  obtain ⟨_ | _, span⟩ := i <;> simp only [terminate, reduceCtorEq] at h
  split at h
  · cases h
  · next hc =>
    obtain rfl := Except.ok.inj h
    have hb : b.terminator = none := by simpa [isComplete] using hc
    simp [instructions, hb]

end Block

structure Func where
  name : String
  params : List Variable
  result : Ty
  span : Span
  blocks : List Block
deriving DecidableEq, Repr

namespace Func

def isVoid (f : Func) : Bool := f.result = .nil

def isComplete (f : Func) : Bool := !f.blocks.isEmpty && f.blocks.all (·.isComplete)

def instructions (f : Func) : List (Located Instruction) := f.blocks.flatMap (·.instructions)

def text (f : Func) : String :=
  let params := ", ".intercalate (f.params.map fun p => p.name ++ ": " ++ p.ty.name)
  let result := if f.isVoid then "" else " -> " ++ f.result.name
  "fn " ++ f.name ++ "(" ++ params ++ ")" ++ result ++ " \x7b\n"
    ++ String.join (f.blocks.map (·.text)) ++ "\x7d\n"

end Func

/-- Functions, each under a name of its own. -/
structure Module where
  name : String
  functions : List Func := []
  nodup : (functions.map (·.name)).Nodup := by decide
deriving DecidableEq, Repr

namespace Module

def find? (m : Module) (name : String) : Option Func := m.functions.find? (·.name = name)

theorem find?_eq_none {m : Module} {name : String} :
    m.find? name = none ↔ name ∉ m.functions.map (·.name) := by
  simp [find?]

/-- Appends a function whose name is not taken. -/
def append (m : Module) (f : Func) (h : f.name ∉ m.functions.map (·.name)) : Module where
  name := m.name
  functions := m.functions ++ [f]
  nodup := by
    rw [List.map_append, List.nodup_append]
    refine ⟨m.nodup, by simp, ?_⟩
    rintro a ha _ hb rfl
    obtain rfl := List.mem_singleton.1 hb
    exact h ha

@[simp] theorem append_functions (m : Module) (f : Func) (h : f.name ∉ m.functions.map (·.name)) :
    (m.append f h).functions = m.functions ++ [f] := rfl

/-- Appends a function, unless its name is taken. -/
def add (m : Module) (f : Func) : Except BuildError Module :=
  match h : m.find? f.name with
  | some _ => .error (.duplicateFunction f.name)
  | none => .ok (m.append f (find?_eq_none.1 h))

theorem functions_add {m n : Module} {f : Func} (h : m.add f = .ok n) :
    n.functions = m.functions ++ [f] := by
  unfold add at h
  split at h
  · cases h
  · obtain rfl := Except.ok.inj h
    rfl

def isComplete (m : Module) : Bool := !m.functions.isEmpty && m.functions.all (·.isComplete)

/-- The names of the functions that are not complete. -/
def incomplete (m : Module) : List String :=
  (m.functions.filter fun f => !f.isComplete).map (·.name)

def text (m : Module) : String :=
  "module " ++ m.name ++ "\n" ++ String.join (m.functions.map fun f => "\n" ++ f.text)

end Module

end Straightline.IR
