import Mathlib.Logic.Function.Basic
import Straightline.IR.Module

/-!
What block code does. A variable is a cell that its name stands for, a temporary holds what its
latest definition gave, and calls are left to an oracle. A run that reads what was never written
has no behaviour.
-/
namespace Straightline

/-- A call as its callee sees it. -/
structure Call (V : Type) where
  callee : String
  args : List V
deriving DecidableEq, Repr

/-- What a call returns, given the calls before it. -/
abbrev Oracle (V : Type) := List (Call V) → Call V → V

/-- The calls that were made, in order, and the value that was returned, if any. -/
structure Behaviour (V : Type) where
  calls : List (Call V)
  value : Option V
deriving DecidableEq, Repr

/-- What constants and operators stand for among the values `V`. -/
structure Meaning (V : Type) where
  const : IR.Constant → V
  binary : IR.BinOp → V → V → V

variable {V : Type}

/-- The same call under another name. -/
def Call.rename (symbol : String → String) (c : Call V) : Call V := ⟨symbol c.callee, c.args⟩

/-- An oracle asked about renamed calls. -/
def Oracle.under (O : Oracle V) (symbol : String → String) : Oracle V := fun history c =>
  O (history.map (·.rename symbol)) (c.rename symbol)

/-- Sets named cells one after the other. -/
def setCells (cells : String → Option V) (bindings : List (String × V)) : String → Option V :=
  bindings.foldl (fun cells b => Function.update cells b.1 (some b.2)) cells

/-- The cells of named values; of several values for one name the last counts. -/
def cellsOf (bindings : List (String × V)) : String → Option V := setCells (fun _ => none) bindings

namespace IR

/-- What a running function has computed so far. -/
structure Store (V : Type) where
  cells : String → Option V
  temps : Nat → Option V := fun _ => none
  calls : List (Call V) := []

namespace Store

def setCell (st : Store V) (name : String) (w : V) : Store V :=
  { st with cells := Function.update st.cells name (some w) }

def setTemp (st : Store V) (id : Nat) (w : V) : Store V :=
  { st with temps := Function.update st.temps id (some w) }

/-- Makes a call; the result goes to a temporary or is dropped. -/
def perform (O : Oracle V) (st : Store V) (result : Option Temporary) (c : Call V) : Store V :=
  let after := { st with calls := st.calls ++ [c] }
  match result with
  | some t => after.setTemp t.id (O st.calls c)
  | none => after

end Store

variable (M : Meaning V) (O : Oracle V)

def Value.eval (st : Store V) : Value → Option V
  | const c => some (M.const c)
  | var v => st.cells v.name
  | temp t => st.temps t.id

def Op.exec (st : Store V) : Op → Option (Store V)
  | alloc _ => some st
  | store (.var v) value => do
    let w ← value.eval M st
    return st.setCell v.name w
  | store _ _ => none
  | load t (.var v) => do
    let w ← st.cells v.name
    return st.setTemp t.id w
  | load _ _ => none
  | binary op t lhs rhs => do
    let l ← lhs.eval M st
    let r ← rhs.eval M st
    return st.setTemp t.id (M.binary op l r)
  | call t callee args => do
    let ws ← args.mapM (·.eval M st)
    return st.perform O t ⟨callee, ws⟩

/-- Operations one after the other. -/
def execAll : List (Located Op) → Store V → Option (Store V)
  | [], st => some st
  | o :: rest, st => (o.val.exec M O st).bind (execAll rest)

def returned (st : Store V) : Option Value → Option (Behaviour V)
  | none => some ⟨st.calls, none⟩
  | some v => do
    let w ← v.eval M st
    return ⟨st.calls, some w⟩

def Block.run (st : Store V) (b : Block) : Option (Behaviour V) := do
  let t ← b.terminator
  let st ← execAll M O b.body st
  returned M st t.val

/-- What is known where a function begins: its parameters are cells. -/
def Func.start (f : Func) (args : List V) (history : List (Call V)) : Store V where
  cells := cellsOf ((f.params.map (·.name)).zip args)
  calls := history

/-- A function runs its first block. -/
def Func.run (f : Func) (args : List V) (history : List (Call V)) : Option (Behaviour V) := do
  let b ← f.blocks.head?
  b.run M O (f.start args history)

variable {M O} {st st' : Store V}

theorem exec_store_eq_some {x : Variable} {v : Value} :
    (Op.store (.var x) v).exec M O st = some st' ↔
      ∃ w, v.eval M st = some w ∧ st' = st.setCell x.name w := by
  simp [Op.exec, Option.bind_eq_some_iff, eq_comm (b := st')]

theorem exec_load_eq_some {t : Temporary} {x : Variable} :
    (Op.load t (.var x)).exec M O st = some st' ↔
      ∃ w, st.cells x.name = some w ∧ st' = st.setTemp t.id w := by
  simp [Op.exec, Option.bind_eq_some_iff, eq_comm (b := st')]

theorem exec_binary_eq_some {b : BinOp} {t : Temporary} {lhs rhs : Value} :
    (Op.binary b t lhs rhs).exec M O st = some st' ↔ ∃ l r, lhs.eval M st = some l ∧
      rhs.eval M st = some r ∧ st' = st.setTemp t.id (M.binary b l r) := by
  simp [Op.exec, Option.bind_eq_some_iff, eq_comm (b := st')]

theorem exec_call_eq_some {t : Option Temporary} {callee : String} {args : List Value} :
    (Op.call t callee args).exec M O st = some st' ↔
      ∃ ws, args.mapM (·.eval M st) = some ws ∧ st' = st.perform O t ⟨callee, ws⟩ := by
  simp [Op.exec, Option.bind_eq_some_iff, eq_comm (b := st')]

theorem execAll_append {xs ys : List (Located Op)} :
    execAll M O (xs ++ ys) st = (execAll M O xs st).bind (execAll M O ys) := by
  induction xs generalizing st with
  | nil => rfl
  | cons o rest ih =>
    simp only [List.cons_append, execAll]
    cases o.val.exec M O st with
    | none => rfl
    | some st => exact ih

end IR

end Straightline
