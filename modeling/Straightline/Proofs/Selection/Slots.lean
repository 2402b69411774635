import Mathlib.Order.Bounds.Defs
import Straightline.Proofs.Selection.Layout

/-!
Which name has which slot. Slots go to names in the order in which these first come up, parameters
before what the code makes room for, and a frame is no larger than its slots and its alignment need. A
table that is filled one name after the other has the same offsets.
-/
namespace Straightline.Selection.Frame

open IR

variable {fr : Frame} {f : Func} {x y n : String} {l : List String} {o p : Int}

/-- How many different names come before the first `x`. -/
def rank (x : String) (l : List String) : Nat := (l.takeWhile (· ≠ x)).toFinset.card

theorem takeWhile_ne_append (h : x ∉ l) (l' : List String) :
    (l ++ x :: l').takeWhile (· ≠ x) = l := by
  have hall : ∀ y ∈ l, decide (y ≠ x) = true := by
    intro y hy
    simpa using fun he : y = x => h (he ▸ hy)
  rw [List.takeWhile_append_of_pos hall, List.takeWhile_cons_of_neg (by simp), List.append_nil]

/-- What comes later does not count. -/
theorem rank_append_of_mem (h : x ∈ l) (l' : List String) : rank x (l ++ l') = rank x l := by
  obtain ⟨before, after, rfl, hbefore⟩ := List.eq_append_cons_of_mem h
  rw [rank, rank, List.append_assoc, List.cons_append, takeWhile_ne_append hbefore,
    takeWhile_ne_append hbefore]

theorem rank_concat_self (h : x ∉ l) : rank x (l ++ [x]) = l.toFinset.card := by
  rw [rank, takeWhile_ne_append h]

/-! ## One name after the other -/

/-- A slot once given is kept. -/
theorem offset?_assign_of_mem (h : x ∈ fr.names) (n : String) :
    (fr.assign n).offset? x = fr.offset? x := by
  unfold assign
  split
  · rfl
  · obtain ⟨k, hk⟩ := Option.ne_none_iff_exists'.1 (mt List.idxOf?_eq_none_iff.1 (not_not.2 h))
    have hnew : (fr.names ++ [n]).idxOf? x = some k := by
      rw [List.idxOf?, List.findIdx?_append, ← List.idxOf?, hk, Option.some_or]
    rw [offset?, offset?, hk, hnew]

/-- A name without a slot is given the one below all others. -/
theorem offset?_assign_self (h : n ∉ fr.names) :
    (fr.assign n).offset? n = some (-8 * (fr.names.length + 1 : Int)) := by
  have hnew : (fr.names ++ [n]).idxOf? n = some fr.names.length := by
    rw [List.idxOf?, List.findIdx?_append, ← List.idxOf?, List.idxOf?_eq_none_iff.2 h]
    simp
  rw [assign, dif_neg h, offset?, hnew, Option.map_some, Int.natCast_add_one]

/-- A name lies below as many slots as there are different names before it. -/
theorem offset?_foldl_assign (h : x ∈ l) :
    (l.foldl assign {}).offset? x = some (-8 * (rank x l + 1 : Int)) := by
  -- The names are taken off from the end: the last one assigned is the last one to come up.
  induction l using List.reverseRecOn with
  | nil => cases h
  | append_singleton l n ih =>
    rw [List.foldl_append, List.foldl_cons, List.foldl_nil]
    by_cases hx : x ∈ l
    · have hmem : x ∈ (l.foldl assign {}).names := mem_foldl_assign.2 (.inr hx)
      rw [offset?_assign_of_mem hmem, ih hx, rank_append_of_mem hx]
    · obtain rfl : x = n := by simpa [hx] using h
      have hmem : x ∉ (l.foldl assign {}).names := by simpa [mem_foldl_assign] using hx
      rw [offset?_assign_self hmem, rank_concat_self hx, length_foldl_assign]

/-! ## A table of offsets -/

/-- Offsets by name, and how many slots have been given out. -/
structure Table where
  offsets : List (String × Int) := []
  slots : Int := 0

namespace Table

def offset? (tb : Table) (name : String) : Option Int := tb.offsets.lookup name

def assign (tb : Table) (name : String) : Table :=
  if (tb.offset? name).isSome then tb
  else ⟨(name, -8 * (tb.slots + 1)) :: tb.offsets, tb.slots + 1⟩

def ofFunc (f : Func) : Table := (declared f).foldl assign {}

def size (tb : Table) : Int := (tb.slots * 8 + 16 - 1) / 16 * 16

end Table

/-- The table has the slots of the frame. -/
structure Tabulates (tb : Table) (fr : Frame) : Prop where
  offsets : ∀ x, tb.offset? x = fr.offset? x
  slots : tb.slots = fr.names.length

namespace Tabulates

variable {tb : Table}

theorem assign (h : Tabulates tb fr) (n : String) : Tabulates (tb.assign n) (fr.assign n) := by
  by_cases hn : n ∈ fr.names
  · have hsome : (tb.offset? n).isSome = true := by
      rw [h.offsets, Option.isSome_iff_ne_none]
      exact fun hnone => offset?_eq_none_iff.1 hnone hn
    rw [Table.assign, if_pos hsome, Frame.assign, dif_pos hn]
    exact h
  · have hnone : ¬ (tb.offset? n).isSome = true := by
      rw [h.offsets, offset?_eq_none_iff.2 hn]
      simp
    rw [Table.assign, if_neg hnone]
    constructor
    · intro x
      by_cases hx : x = n
      · subst hx
        rw [offset?_assign_self hn, ← h.slots, Table.offset?, List.lookup_cons_self]
      · rw [Table.offset?, List.lookup_cons, beq_false_of_ne hx]
        refine (h.offsets x).trans ?_
        by_cases hmem : x ∈ fr.names
        · rw [offset?_assign_of_mem hmem]
        · rw [offset?_eq_none_iff.2 hmem, offset?_eq_none_iff.2 (by simp [hmem, hx])]
    · simp [Frame.assign, hn, h.slots]

theorem foldl (h : Tabulates tb fr) (l : List String) :
    Tabulates (l.foldl Table.assign tb) (l.foldl Frame.assign fr) := by
  induction l generalizing tb fr with
  | nil => exact h
  | cons n l ih => exact ih (h.assign n)

theorem size_eq (h : Tabulates tb fr) : tb.size = fr.size := by
  rw [Table.size, Frame.size, h.slots]
  omega

end Tabulates

/-- A table filled name by name has the offsets and the size of the frame. -/
theorem table_ofFunc (f : Func) : (∀ x, (Table.ofFunc f).offset? x = (ofFunc f).offset? x) ∧
    (Table.ofFunc f).size = (ofFunc f).size := by
  have hempty : Tabulates {} {} := ⟨fun _ => rfl, rfl⟩
  have h : Tabulates (.ofFunc f) (.ofFunc f) := hempty.foldl (declared f)
  exact ⟨h.offsets, h.size_eq⟩

/-! ## A function's names -/

/-- The names of a function's variables as they come up: those of the parameters, then those that
its code makes room for. -/
def appearing (f : Func) : List String :=
  f.params.map (·.name) ++ f.instructions.filterMap fun i => match i.val with
    | .op (.alloc v) => some v.name
    | _ => none

theorem mem_appearing : x ∈ appearing f ↔ (∃ p ∈ f.params, p.name = x) ∨
    ∃ i ∈ f.instructions, ∃ v, i.val = .op (.alloc v) ∧ v.name = x := by
  rw [appearing, List.mem_append, List.mem_map, List.mem_filterMap]
  refine or_congr_right (exists_congr fun i => and_congr_right fun _ => ?_)
  split
  next v hv => simp [hv]
  next hv =>
    refine ⟨fun h => (nomatch h), ?_⟩
    rintro ⟨v, hi, -⟩
    exact (hv v hi).elim

theorem declared_eq_appearing (f : Func) : declared f = appearing f := by
  rw [declared, appearing, Func.instructions, List.filterMap_flatMap]
  congr 1
  refine congrArg (f.blocks.flatMap ·) (funext fun b => ?_)
  rw [Block.instructions, List.filterMap_append, List.filterMap_map, List.filterMap_map]
  -- A return makes no room, so what a block adds comes from its body.
  refine .trans ?_ (List.append_right_eq_self.2 (List.filterMap_eq_nil_iff.2 fun _ _ => rfl)).symm
  refine congrArg (b.body.filterMap ·) (funext fun o => ?_)
  rcases o with ⟨_ | _, span⟩ <;> rfl

theorem offset?_ofFunc (h : x ∈ appearing f) :
    (ofFunc f).offset? x = some (-8 * (rank x (appearing f) + 1 : Int)) := by
  rw [ofFunc, declared_eq_appearing]
  exact offset?_foldl_assign h

theorem isSome_offset?_ofFunc : ((ofFunc f).offset? x).isSome ↔ x ∈ appearing f := by
  rw [Option.isSome_iff_ne_none, ne_eq, offset?_eq_none_iff, not_not, mem_ofFunc,
    declared_eq_appearing]

/-- No slot is left out: each has a name. -/
theorem exists_rank_eq {k : Nat} (h : k < (appearing f).toFinset.card) :
    ∃ x ∈ appearing f, rank x (appearing f) = k := by
  rw [← declared_eq_appearing, ← length_names] at h
  have hx : (ofFunc f).names[k] ∈ appearing f := by
    rw [← declared_eq_appearing, ← mem_ofFunc]
    exact List.getElem_mem h
  refine ⟨_, hx, ?_⟩
  obtain ⟨j, hj, he⟩ := offset?_eq_some (offset?_ofFunc hx)
  have hkj : k = j := by
    rw [← List.getElem?_eq_getElem h] at hj
    exact (List.getElem?_inj h (ofFunc f).nodup).1 hj.symm
  omega

/-- The slots of different names have no byte in common. -/
theorem offsets_apart (hx : fr.offset? x = some o) (hy : fr.offset? y = some p) (hne : x ≠ y) :
    o + 8 ≤ p ∨ p + 8 ≤ o := by
  have hop : o ≠ p := by
    rintro rfl
    exact hne (eq_of_offset?_eq hx hy)
  obtain ⟨k, -, rfl⟩ := offset?_eq_some hx
  obtain ⟨j, -, rfl⟩ := offset?_eq_some hy
  omega

theorem isLeast_size (fr : Frame) :
    IsLeast {s | 16 ∣ s ∧ 8 * fr.names.length ≤ s} fr.size := by
  refine ⟨⟨Nat.dvd_mul_left .., fr.length_le_size⟩, ?_⟩
  rintro s ⟨hdvd, hle⟩
  unfold size
  omega

/-- Frames are laid out without overlap and without waste. The names with a slot are those of the
parameters and of what the code makes room for. The one that has `k` different names before it lies
`k + 1` words below the frame pointer, for every `k` there is one, so different names share no byte;
and the size is the least multiple of 16 that covers all slots. -/
theorem slots_injective_tight (f : Func) :
    (∀ x, ((ofFunc f).offset? x).isSome ↔ (∃ p ∈ f.params, p.name = x) ∨
      ∃ i ∈ f.instructions, ∃ v, i.val = .op (.alloc v) ∧ v.name = x) ∧
    (∀ x ∈ appearing f, (ofFunc f).offset? x = some (-8 * (rank x (appearing f) + 1 : Int))) ∧
    (∀ k < (appearing f).toFinset.card, ∃ x ∈ appearing f, rank x (appearing f) = k) ∧
    (∀ x y o p, (ofFunc f).offset? x = some o → (ofFunc f).offset? y = some p → x ≠ y →
      o + 8 ≤ p ∨ p + 8 ≤ o) ∧
    IsLeast {s | 16 ∣ s ∧ 8 * (appearing f).toFinset.card ≤ s} (ofFunc f).size ∧
    ∀ x o, (ofFunc f).offset? x = some o → -((ofFunc f).size : Int) ≤ o ∧ o + 8 ≤ 0 := by
  refine ⟨fun x => isSome_offset?_ofFunc.trans mem_appearing, fun x hx => offset?_ofFunc hx,
    fun k hk => exists_rank_eq hk, fun x y o p hx hy hne => offsets_apart hx hy hne, ?_, ?_⟩
  · rw [← declared_eq_appearing, ← length_names]
    exact (ofFunc f).isLeast_size
  · intro x o hx
    obtain ⟨k, hk, rfl⟩ := offset?_bounds hx
    omega

/-- Two blocks that make room for parameters again, and twice for one more name. -/
def repeatingNames : Func where
  name := "f"
  params := [⟨"a", .int⟩, ⟨"b", .int⟩, ⟨"a", .int⟩]
  result := .nil
  span := .nowhere
  blocks := [{
    name := Block.entryName
    body := [.alloc ⟨"b", .int⟩, .alloc ⟨"c", .int⟩].map (⟨·, .nowhere⟩)
    terminator := some ⟨none, .nowhere⟩ }, {
    name := "next"
    body := [.alloc ⟨"c", .int⟩, .alloc ⟨"a", .int⟩].map (⟨·, .nowhere⟩) }]

theorem slots_injective_tight_repeating :
    "a" ∈ appearing repeatingNames ∧ "c" ∈ appearing repeatingNames ∧
      (ofFunc repeatingNames).offset? "a" = some (-8) ∧
      (ofFunc repeatingNames).offset? "c" = some (-24) ∧
      ((-8 : Int) + 8 ≤ -24 ∨ (-24 : Int) + 8 ≤ -8) ∧
      IsLeast {s | 16 ∣ s ∧ 8 * 3 ≤ s} (ofFunc repeatingNames).size := by
  obtain ⟨-, hoffset, -, hapart, hleast, -⟩ := slots_injective_tight repeatingNames
  have hmem : "a" ∈ appearing repeatingNames ∧ "c" ∈ appearing repeatingNames := by decide
  have ha : (ofFunc repeatingNames).offset? "a" = some (-8) := hoffset "a" hmem.1
  have hc : (ofFunc repeatingNames).offset? "c" = some (-24) := hoffset "c" hmem.2
  exact ⟨hmem.1, hmem.2, ha, hc, hapart "a" "c" _ _ ha hc (by decide), hleast⟩

end Straightline.Selection.Frame
