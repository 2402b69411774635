import Mathlib.Data.Finset.Card
import Straightline.Proofs.Semantics.Source

/-!
The programs that there is machine code for, read off the syntax tree. Everything is an integer, few
names and arguments are used, and of the operands of an operator or a call at most one is computed.
-/
namespace Straightline.Source

open Lowering (Context)

namespace Expr

/-- A literal that is not an integer. -/
def isForeign : Expr → Bool
  | .literal (.int _) _ => false
  | .literal .. => true
  | _ => false

/-- An operator or a call, whose value has to be computed. -/
def isComputed : Expr → Bool
  | .binary .. | .call .. => true
  | _ => false

/-- The expressions that an expression is computed from. -/
def operands : Expr → List Expr
  | .binary _ lhs rhs _ => [lhs, rhs]
  | .call _ args _ => args
  | _ => []

mutual

/-- An expression with all expressions within it. -/
def parts : Expr → List Expr
  | .binary op lhs rhs span => .binary op lhs rhs span :: (lhs.parts ++ rhs.parts)
  | .call callee args span => .call callee args span :: partsAll args
  | .literal l span => [.literal l span]
  | .name x span => [.name x span]

def partsAll : List Expr → List Expr
  | [] => []
  | e :: rest => e.parts ++ partsAll rest

end

theorem parts_eq (e : Expr) : e.parts = e :: partsAll e.operands := by
  cases e <;> simp [parts, operands, partsAll]

theorem mem_partsAll_self (e : Expr) (rest : List Expr) : e ∈ partsAll (e :: rest) := by
  rw [partsAll, parts_eq]
  exact .head _

theorem forall_mem_partsAll_cons {P : Expr → Prop} {e : Expr} {rest : List Expr} :
    (∀ e' ∈ partsAll (e :: rest), P e') ↔
      (P e ∧ ∀ e' ∈ partsAll e.operands, P e') ∧ ∀ e' ∈ partsAll rest, P e' := by
  rw [partsAll, List.forall_mem_append, parts_eq, List.forall_mem_cons]

/-- A call passes at most `limit` arguments, and if it has a result that is an integer. -/
def CallFits (cx : Context) (limit : Nat) : Expr → Prop
  | .call callee args _ =>
    args.length ≤ limit ∧ ∀ f ∈ callee.name?, cx.resultOf f = .int ∨ cx.resultOf f = .nil
  | _ => True

/-- There is code for the expression itself, once there is for its operands. -/
structure Fits (cx : Context) (limit : Nat) (e : Expr) : Prop where
  call : e.CallFits cx limit
  literals : ∀ o ∈ e.operands, o.isForeign = false
  nesting : e.operands.countP isComputed ≤ 1

end Expr

namespace Stmt

def isReturn : Stmt → Bool
  | .ret .. => true
  | _ => false

def exprs : Stmt → List Expr
  | .bind _ e _ | .assign _ e _ | .eval e _ => [e]
  | .ret e _ => e.toList

/-- The expressions whose value is stored or returned; an expression statement drops its value. -/
def used : Stmt → List Expr
  | .bind _ e _ | .assign _ e _ => [e]
  | .ret e _ => e.toList
  | .eval .. => []

def declared? : Stmt → Option String
  | .bind x .. => some x
  | _ => none

/-- There is code for the statement. -/
structure Fits (cx : Context) (limit : Nat) (s : Stmt) : Prop where
  parts : ∀ e ∈ Expr.partsAll s.exprs, e.Fits cx limit
  literals : ∀ e ∈ s.used, e.isForeign = false

/-- The statements up to the first return and with it. -/
def reached : List Stmt → List Stmt
  | [] => []
  | s :: rest => if s.isReturn then [s] else s :: reached rest

theorem reached_cons {s : Stmt} (h : s.isReturn = false) (rest : List Stmt) :
    reached (s :: rest) = s :: reached rest := by
  simp [reached, h]

theorem mem_of_mem_reached {s : Stmt} {stmts : List Stmt} (h : s ∈ reached stmts) :
    s ∈ stmts := by
  induction stmts with
  | nil => cases h
  | cons s' rest ih =>
    unfold reached at h
    split at h
    · exact List.mem_singleton.1 h ▸ .head _
    · rcases List.mem_cons.1 h with rfl | h
      · exact .head _
      · exact .tail _ (ih h)

end Stmt

namespace FnDef

/-- The names that need room, as often as they are declared. -/
def names (d : FnDef) : List String :=
  d.params.map (·.name) ++ (Stmt.reached d.body).filterMap Stmt.declared?

/-- There is code for the definition, given what each function returns. -/
structure InFragment (results : List (String × Ty)) (limit : Nat) (d : FnDef) : Prop where
  params_le : d.params.length ≤ limit
  params_int : ∀ p ∈ d.params, Ty.ofName? p.ty.val = some .int
  names_le : d.names.toFinset.card ≤ 32
  body : ∀ s ∈ Stmt.reached d.body, s.Fits ⟨d.name.val, results⟩ limit

end FnDef

section Decidable

variable {cx : Context} {limit : Nat}

instance (e : Expr) : Decidable (e.CallFits cx limit) :=
  match e with
  | .call callee args _ => inferInstanceAs (Decidable (args.length ≤ limit ∧
      ∀ f ∈ callee.name?, cx.resultOf f = .int ∨ cx.resultOf f = .nil))
  | .literal .. | .name .. | .binary .. => .isTrue trivial

instance (e : Expr) : Decidable (e.Fits cx limit) :=
  decidable_of_iff (e.CallFits cx limit ∧ (∀ o ∈ e.operands, o.isForeign = false) ∧
      e.operands.countP Expr.isComputed ≤ 1)
    ⟨fun h => ⟨h.1, h.2.1, h.2.2⟩, fun h => ⟨h.call, h.literals, h.nesting⟩⟩

instance (s : Stmt) : Decidable (s.Fits cx limit) :=
  decidable_of_iff
    ((∀ e ∈ Expr.partsAll s.exprs, e.Fits cx limit) ∧ ∀ e ∈ s.used, e.isForeign = false)
    ⟨fun h => ⟨h.1, h.2⟩, fun h => ⟨h.parts, h.literals⟩⟩

instance (results : List (String × Ty)) (d : FnDef) : Decidable (d.InFragment results limit) :=
  decidable_of_iff (d.params.length ≤ limit ∧ (∀ p ∈ d.params, Ty.ofName? p.ty.val = some .int) ∧
      d.names.toFinset.card ≤ 32 ∧ ∀ s ∈ Stmt.reached d.body, s.Fits ⟨d.name.val, results⟩ limit)
    ⟨fun h => ⟨h.1, h.2.1, h.2.2.1, h.2.2.2⟩,
      fun h => ⟨h.params_le, h.params_int, h.names_le, h.body⟩⟩

end Decidable

end Straightline.Source
