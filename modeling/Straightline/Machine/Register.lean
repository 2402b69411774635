/-! The registers of the abstract machine, named by the role they play in the calling convention. -/
namespace Straightline.Machine

inductive Register
  | r0
  | r1
  | r2
  | r3
  | sp
  | fp
  | lr
deriving DecidableEq, Repr

namespace Register

def name : Register → String
  | r0 => "r0"
  | r1 => "r1"
  | r2 => "r2"
  | r3 => "r3"
  | sp => "sp"
  | fp => "fp"
  | lr => "lr"

def all : List Register := [r0, r1, r2, r3, sp, fp, lr]

def ofName? (s : String) : Option Register := all.find? (·.name = s)

theorem ofName?_name (r : Register) : ofName? r.name = some r := by
  cases r <;> decide

/-- The registers that carry the arguments of a call, in order. -/
def arguments : List Register := [r0, r1, r2, r3]

/-- The register that carries the result of a call. -/
def result : Register := r0

def argument? (i : Nat) : Option Register := arguments[i]?

def isArgument (r : Register) : Bool := r ∈ arguments

end Register

end Straightline.Machine
