import Mathlib.Data.Finset.Card
import Straightline.Proofs.Semantics.Machine
import Straightline.Selection.Frame

/-! Where slots lie: below the frame pointer, within the frame, and apart from each other. -/
namespace Straightline.Selection.Frame

open Machine (Word)

variable {fr : Frame} {x y : String} {o o' : Int}

/-- Slots are numbered from the frame pointer down. -/
theorem offset?_eq_some (h : fr.offset? x = some o) :
    ∃ k, fr.names[k]? = some x ∧ o = -8 * (k + 1 : Nat) := by
  obtain ⟨k, hk, rfl⟩ := Option.map_eq_some_iff.1 h
  obtain ⟨hlt, he, -⟩ := List.findIdx?_eq_some_iff_getElem.1 hk
  refine ⟨k, ?_, rfl⟩
  rw [List.getElem?_eq_getElem hlt]
  simpa using he

theorem offset?_eq_none_iff : fr.offset? x = none ↔ x ∉ fr.names := by
  rw [offset?, Option.map_eq_none_iff, List.idxOf?_eq_none_iff]

theorem exists_offset? {f : IR.Func} (h : x ∈ declared f) : ∃ o, (ofFunc f).offset? x = some o := by
  rw [← Option.isSome_iff_exists, Option.isSome_iff_ne_none, ne_eq, offset?_eq_none_iff, not_not,
    mem_ofFunc]
  exact h

theorem eq_of_offset?_eq (hx : fr.offset? x = some o) (hy : fr.offset? y = some o) : x = y := by
  obtain ⟨k, hk, rfl⟩ := offset?_eq_some hx
  obtain ⟨j, hj, he⟩ := offset?_eq_some hy
  obtain rfl : k = j := by omega
  exact Option.some.inj (hk.symm.trans hj)

/-- There are as many slots as different names. -/
theorem length_foldl_assign (l : List String) :
    (l.foldl assign {}).names.length = l.toFinset.card := by
  rw [← List.toFinset_card_of_nodup (l.foldl assign {}).nodup]
  congr 1
  ext x
  simp [mem_foldl_assign]

theorem length_names (f : IR.Func) : (ofFunc f).names.length = (declared f).toFinset.card :=
  length_foldl_assign (declared f)

theorem length_le_size (fr : Frame) : 8 * fr.names.length ≤ fr.size := by
  unfold size
  omega

theorem offset?_bounds (h : fr.offset? x = some o) : ∃ k : Nat, 8 * (k + 1) ≤ fr.size ∧
    o = -8 * (k + 1 : Nat) := by
  obtain ⟨k, hk, rfl⟩ := offset?_eq_some h
  refine ⟨k, ?_, rfl⟩
  obtain ⟨hlt, -⟩ := List.getElem?_eq_some_iff.1 hk
  have := fr.length_le_size
  omega

theorem ofInt_slot (k : Nat) :
    BitVec.ofInt 64 (-8 * (k + 1 : Nat)) = -BitVec.ofNat 64 (8 * (k + 1)) := by
  rw [show -8 * ((k + 1 : Nat) : Int) = -((8 * (k + 1) : Nat) : Int) by omega,
    BitVec.ofInt_neg, BitVec.ofInt_natCast]

/-- The slot of a name is some words below the frame pointer. -/
theorem slot_eq (h : fr.offset? x = some o) (fp : Word) :
    ∃ k : Nat, 8 * (k + 1) ≤ fr.size ∧
      fp + BitVec.ofInt 64 o = fp - BitVec.ofNat 64 (8 * (k + 1)) := by
  obtain ⟨k, hk, rfl⟩ := offset?_bounds h
  refine ⟨k, hk, ?_⟩
  rw [ofInt_slot, BitVec.sub_eq_add_neg]

/-- Different slots do not overlap. -/
theorem slots_disjoint (hsize : fr.size ≤ maxSize) (hx : fr.offset? x = some o)
    (hy : fr.offset? y = some o') (hne : o ≠ o') (fp : Word) :
    8 ≤ (fp + BitVec.ofInt 64 o - (fp + BitVec.ofInt 64 o')).toNat ∧
      (fp + BitVec.ofInt 64 o - (fp + BitVec.ofInt 64 o')).toNat + 8 ≤ 2 ^ 64 := by
  obtain ⟨k, hk, rfl⟩ := offset?_bounds hx
  obtain ⟨j, hj, rfl⟩ := offset?_bounds hy
  have hkj : k ≠ j := by
    rintro rfl
    exact hne rfl
  unfold maxSize at hsize
  rw [ofInt_slot, ofInt_slot]
  constructor <;> bv_omega

end Straightline.Selection.Frame
