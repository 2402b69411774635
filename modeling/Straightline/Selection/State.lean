import Straightline.Machine.Instr
import Straightline.Selection.Limit

/-!
What is known while code is selected: where each temporary is, which reads are still to come, and
the code so far. No instruction may overwrite a register whose value is still to be read.
-/
namespace Straightline.Selection

open Machine (Instr Register)

/-- Where a value can be had from. -/
inductive Place
  | imm (value : Int64)
  /-- A slot, by its offset from the frame pointer. -/
  | slot (offset : Int)
  | reg (r : Register)
deriving DecidableEq, Repr

def Place.isReg : Place → Bool
  | .reg _ => true
  | _ => false

structure State where
  /-- The reads of temporaries still to come, one entry for each. -/
  pending : List Nat
  /-- Where temporaries were put, the latest first. -/
  places : List (Nat × Place) := []
  code : List Instr := []

namespace State

def place? (s : State) (id : Nat) : Option Place := s.places.lookup id

/-- Some read is still to come of a temporary that is at `p`. -/
def isAwaited (s : State) (p : Place) : Bool := s.pending.any fun id => s.place? id = some p

/-- The instruction overwrites no register that is awaited. -/
def permits (s : State) (i : Instr) : Bool := i.writes.all fun r => !s.isAwaited (.reg r)

end State

/-- What ends the selection of a function early. -/
inductive Stop
  | limit (l : Limit)
  | fault (c : Fault.Cause)

/-- A selection step; the code selected before it stopped stays. -/
abbrev Select := EStateM Stop State

variable {α : Type}

def reject (l : Limit) : Select α := throw (.limit l)

def fault (c : Fault.Cause) : Select α := throw (.fault c)

/-- Appends an instruction if the state permits it. -/
def issue (i : Instr) : Select Unit := fun s =>
  if s.permits i then .ok () { s with code := s.code ++ [i] } else .error (.limit .tooDeep) s

theorem issue_eq_ok_iff {i : Instr} {s t : State} :
    issue i s = .ok () t ↔ s.permits i = true ∧ t = { s with code := s.code ++ [i] } := by
  unfold issue
  split
  next h => simp [h, eq_comm]
  next h => simp [h]

/-- Records that a value is now at `p`; only temporaries move. -/
def settle (v : IR.Value) (p : Place) : Select Unit :=
  match v with
  | .temp t => modify fun s => { s with places := (t.id, p) :: s.places }
  | _ => pure ()

/-- Counts one read of a value as done. -/
def spend (v : IR.Value) : Select Unit :=
  match v with
  | .temp t => modify fun s => { s with pending := s.pending.erase t.id }
  | _ => pure ()

end Straightline.Selection
