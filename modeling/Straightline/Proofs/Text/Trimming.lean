import Mathlib.Data.List.DropRight
import Straightline.Proofs.Text.Reading
import Straightline.Text.Blank

/-!
Texts without their loose ends. What is stripped can be put back, padding makes no difference, and
the first occurrence of a sign that is never stripped divides a text as it divides the stripped one.
-/
namespace Straightline.Text

variable {p : Char → Bool} {s x y : List Char} {c d : Char}

theorem strip_append_left (hx : ∀ c ∈ x, p c = true) : strip p (x ++ s) = strip p s := by
  rw [strip, strip, List.dropWhile_append_of_pos hx]

theorem stripEnd_append (hy : ∀ c ∈ y, p c = true) : stripEnd p (s ++ y) = stripEnd p s := by
  have hrev : ∀ c ∈ y.reverse, p c = true := fun c hc => hy c (List.mem_reverse.1 hc)
  rw [stripEnd, stripEnd, List.reverse_append, List.dropWhile_append_of_pos hrev]

theorem strip_append_right (hy : ∀ c ∈ y, p c = true) : strip p (s ++ y) = strip p s := by
  rw [strip, strip, List.dropWhile_append]
  split
  next hnil =>
    have hs : s.dropWhile p = [] := List.isEmpty_iff.1 hnil
    rw [hs, List.dropWhile_eq_nil_iff.2 hy]
  next => exact stripEnd_append hy

/-- A last sign that is not stripped keeps all that stands before it, but for the front. -/
theorem strip_concat (hc : p c = false) : strip p (x ++ [c]) = x.dropWhile p ++ [c] := by
  have hfront : (x ++ [c]).dropWhile p = x.dropWhile p ++ [c] := by
    rw [List.dropWhile_append]
    split
    next hnil =>
      rw [List.isEmpty_iff.1 hnil]
      simp [hc]
    next => rfl
  rw [strip, hfront]
  exact List.rdropWhile_concat_neg _ _ _ (by simp [hc])

/-- A text whose ends are not stripped stays whole. -/
theorem strip_eq_self (hhead : ∀ c ∈ s.head?, p c = false) (hlast : ∀ c ∈ s.getLast?, p c = false) :
    strip p s = s := by
  rcases List.eq_nil_or_concat s with rfl | ⟨x, c, rfl⟩
  · rfl
  · rw [List.concat_eq_append] at hhead hlast ⊢
    rw [strip_concat (hlast c (by simp))]
    cases x with
    | nil => rfl
    | cons a x => rw [List.dropWhile_cons_of_neg (by simp [hhead a rfl])]

/-- A text is what stays of it, between what is stripped. -/
theorem exists_eq_strip (p : Char → Bool) (s : List Char) :
    ∃ x y, s = x ++ (strip p s ++ y) ∧ (∀ c ∈ x, p c = true) ∧ ∀ c ∈ y, p c = true := by
  refine ⟨s.takeWhile p, (s.dropWhile p).rtakeWhile p, ?_, fun _ => List.mem_takeWhile_imp,
    fun _ => List.mem_rtakeWhile_imp⟩
  have hback : strip p s ++ (s.dropWhile p).rtakeWhile p = s.dropWhile p :=
    List.rdropWhile_append_rtakeWhile
  rw [hback, List.takeWhile_append_dropWhile]

theorem strip_of_forall (hs : ∀ c ∈ s, p c = true) : strip p s = [] := by
  rw [strip, List.dropWhile_eq_nil_iff.2 hs]
  rfl

/-- A first sign that is not stripped stays the first one. -/
theorem head?_strip_cons (hc : p c = false) : (strip p (c :: s)).head? = some c := by
  obtain ⟨x, y, hs, hx, hy⟩ := exists_eq_strip p (c :: s)
  cases x with
  | cons a x =>
    obtain ⟨rfl, -⟩ := List.cons.inj hs
    cases hc.symm.trans (hx c (.head _))
  | nil =>
    cases hstrip : strip p (c :: s) with
    | nil =>
      rw [hstrip] at hs
      have hmem : c ∈ y := by
        rw [show y = c :: s from hs.symm]
        exact .head _
      cases hc.symm.trans (hy c hmem)
    | cons a z =>
      rw [hstrip] at hs
      rw [(List.cons.inj hs).1, List.head?_cons]

/-- The first sign of a text that is stripped already is not stripped. -/
theorem eq_false_of_strip_cons (h : strip p (c :: s) = c :: s) : p c = false := by
  by_contra hc
  have hskip : strip p (c :: s) = strip p s :=
    strip_append_left (x := [c]) (by simpa using hc)
  obtain ⟨x, y, hs, -, -⟩ := exists_eq_strip p s
  have hlength := congrArg List.length hs
  rw [← hskip, h] at hlength
  simp only [List.length_append, List.length_cons] at hlength
  omega

theorem mem_strip_iff (hd : p d = false) : d ∈ strip p s ↔ d ∈ s := by
  obtain ⟨x, y, hs, hx, hy⟩ := exists_eq_strip p s
  have hnot : ∀ {z : List Char}, (∀ c ∈ z, p c = true) → d ∉ z := by
    intro z hz hmem
    rw [hz d hmem] at hd
    cases hd
  nth_rewrite 2 [hs]
  simp [hnot hx, hnot hy]

/-- A text divides at the first occurrence of a sign. -/
theorem divide_append (hx : d ∉ x) :
    (x ++ d :: y).takeWhile (· ≠ d) = x ∧ (x ++ d :: y).dropWhile (· ≠ d) = d :: y := by
  apply takeWhile_append_stop
  · intro a ha
    refine decide_eq_true ?_
    rintro rfl
    exact hx ha
  · simp

/-- It makes no difference to the stripped parts whether the text was stripped before. -/
theorem strip_divided (hd : p d = false) (hmem : d ∈ s) :
    strip p ((strip p s).takeWhile (· ≠ d)) = strip p (s.takeWhile (· ≠ d)) ∧
      strip p ((strip p s).dropWhile (· ≠ d)).tail = strip p (s.dropWhile (· ≠ d)).tail := by
  obtain ⟨x, y, hs, hx, hy⟩ := exists_eq_strip p s
  obtain ⟨a, b, hab, ha⟩ := List.eq_append_cons_of_mem ((mem_strip_iff hd).2 hmem)
  have hxa : d ∉ x ++ a := by
    intro h
    rcases List.mem_append.1 h with h | h
    · rw [hx d h] at hd
      cases hd
    · exact ha h
  have hwhole : s = (x ++ a) ++ d :: (b ++ y) := by
    rw [hs, hab]
    simp
  obtain ⟨htake, hdrop⟩ := divide_append (y := b) ha
  obtain ⟨htake', hdrop'⟩ := divide_append (y := b ++ y) hxa
  rw [hab, htake, hdrop, hwhole, htake', hdrop', List.tail_cons, List.tail_cons,
    strip_append_left hx, strip_append_right hy]
  exact ⟨rfl, rfl⟩

end Straightline.Text
