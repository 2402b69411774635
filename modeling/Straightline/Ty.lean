/-! The primitive types. Only `int` has a machine representation; `nil` has no value. -/
namespace Straightline

inductive Ty
  | int
  | float
  | string
  | bool
  | nil
deriving DecidableEq, Repr

namespace Ty

def name : Ty → String
  | int => "int"
  | float => "float"
  | string => "string"
  | bool => "bool"
  | nil => "nil"

def all : List Ty := [int, float, string, bool, nil]

/-- The type that is written `s`. -/
def ofName? (s : String) : Option Ty := all.find? (·.name = s)

theorem ofName?_name (t : Ty) : ofName? t.name = some t := by
  cases t <;> decide

end Ty

end Straightline
