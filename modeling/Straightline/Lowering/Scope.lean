import Straightline.Ty

/-! The names in scope. A name whose declaration failed stays known: its uses pass in silence. -/
namespace Straightline.Lowering

inductive Binding
  | typed (ty : Ty)
  /-- The declaration was rejected; its problem is reported where it stands. -/
  | failed
deriving DecidableEq, Repr

/-- Bindings by name, the latest first. -/
abbrev Scope := List (String × Binding)

namespace Scope

def find? (s : Scope) (name : String) : Option Binding := s.lookup name

def set (s : Scope) (name : String) (b : Binding) : Scope := (name, b) :: s

/-- Binds a parameter. Of several parameters with one name a failed one decides. -/
def setParam (s : Scope) (name : String) : Option Ty → Scope
  | none => s.set name .failed
  | some ty => if s.find? name = some .failed then s else s.set name (.typed ty)

variable (s : Scope) (b : Binding) {m n : String}

@[simp] theorem find?_nil : find? [] n = none := rfl

@[simp] theorem find?_set_self : (s.set n b).find? n = some b := by
  simp [find?, set]

theorem find?_set_of_ne (h : m ≠ n) : (s.set n b).find? m = s.find? m := by
  rw [find?, set, List.lookup_cons, beq_false_of_ne h, find?]

end Scope

end Straightline.Lowering
