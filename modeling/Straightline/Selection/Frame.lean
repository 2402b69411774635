import Straightline.IR.Module

/-!
Stack frames. Every variable of a function has one 8-byte slot below the frame pointer, parameters
first, and a name declared twice has one slot.
-/
namespace Straightline.Selection

/-- The variables with a slot, in the order of their slots. -/
structure Frame where
  names : List String := []
  nodup : names.Nodup := by simp

namespace Frame

/-- Gives a name the next slot, unless it has one. -/
def assign (fr : Frame) (name : String) : Frame :=
  if h : name ∈ fr.names then fr
  else ⟨fr.names ++ [name], List.nodup_append.2 ⟨fr.nodup, by simp, by
    intro a ha b hb hab
    simp only [List.mem_singleton] at hb
    exact h (hb ▸ hab ▸ ha)⟩⟩

/-- The name that an operation makes room for. -/
def allocated : IR.Op → Option String
  | .alloc v => some v.name
  | _ => none

/-- The names that a function declares, as often as it does. -/
def declared (f : IR.Func) : List String :=
  f.params.map (·.name) ++ f.blocks.flatMap fun b => b.body.filterMap fun o => allocated o.val

def ofFunc (f : IR.Func) : Frame := (declared f).foldl assign {}

/-- Where the slot of a name lies, relative to the frame pointer. -/
def offset? (fr : Frame) (name : String) : Option Int :=
  (fr.names.idxOf? name).map fun k => -8 * (k + 1 : Nat)

/-- The bytes of all slots, in units of 16. -/
def size (fr : Frame) : Nat := (8 * fr.names.length + 15) / 16 * 16

/-- The largest frame that is supported. -/
def maxSize : Nat := 256

@[simp] theorem mem_assign {fr : Frame} {m n : String} :
    m ∈ (fr.assign n).names ↔ m ∈ fr.names ∨ m = n := by
  unfold assign
  split
  next h => exact ⟨.inl, fun hm => hm.elim id fun e => e ▸ h⟩
  next => simp

theorem mem_foldl_assign {l : List String} {fr : Frame} {m : String} :
    m ∈ (l.foldl assign fr).names ↔ m ∈ fr.names ∨ m ∈ l := by
  induction l generalizing fr with
  | nil => simp
  | cons n l ih => simp [ih, or_assoc]

/-- A name has a slot just when the function declares it. -/
theorem mem_ofFunc {f : IR.Func} {m : String} : m ∈ (ofFunc f).names ↔ m ∈ declared f := by
  simp [ofFunc, mem_foldl_assign]

end Frame

end Straightline.Selection
