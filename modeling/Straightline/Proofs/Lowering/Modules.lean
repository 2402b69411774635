import Straightline.Proofs.Lowering.Abandon

/-!
The modules that programs are lowered to, with or without errors: every program has one, and its
functions stem from the program's definitions.
-/
namespace Straightline

open IR Source

namespace Lowering

variable {m : Module} {f : Func} {items : List (Option Func × List Diagnostic)}

theorem mem_collect (hf : f ∈ (collect m items).code.functions) :
    f ∈ m.functions ∨ ∃ ds, (some f, ds) ∈ items := by
  induction items generalizing m with
  | nil => exact .inl hf
  | cons i rest ih =>
    have hrest : f ∈ (collect m rest).code.functions →
        f ∈ m.functions ∨ ∃ ds, (some f, ds) ∈ i :: rest :=
      fun h => (ih h).imp_right fun ⟨ds, hds⟩ => ⟨ds, .tail _ hds⟩
    obtain ⟨_ | g, ds⟩ := i
    · exact hrest hf
    · simp only [collect] at hf
      cases hadd : m.add g with
      | error e =>
        rw [hadd] at hf
        exact hrest hf
      | ok m' =>
        rw [hadd] at hf
        rcases ih hf with hf | ⟨ds', hds'⟩
        · rw [Module.functions_add hadd] at hf
          rcases List.mem_append.1 hf with hf | hf
          · exact .inl hf
          · obtain rfl := List.mem_singleton.1 hf
            exact .inr ⟨ds, .head _⟩
        · exact .inr ⟨ds', .tail _ hds'⟩

end Lowering

namespace Source

open Lowering

variable {entryPoint moduleName : String} {p : Program} {o : Outcome} {f : Func}

theorem Item.exists_lower (entryPoint : String) (results : List (String × Ty)) (i : Item) :
    ∃ r, i.lower entryPoint results = .ok r := by
  cases i with
  | stmt s span => exact ⟨_, rfl⟩
  | fn d =>
    obtain ⟨f, ds, -, -, h, -⟩ := d.lower_leaves entryPoint results
    exact ⟨_, except_bind_eq_ok.2 ⟨(f, ds), h, rfl⟩⟩

namespace Program

/-- The module of a program is put together from its items. -/
theorem lowerUncapped_code (h : p.lowerUncapped entryPoint moduleName = .ok o) :
    ∃ items, List.Forall₂ (fun i r => Item.lower entryPoint (p.resultTypes entryPoint) i = .ok r)
      p items ∧ o.code = (collect { name := moduleName } items).code := by
  obtain ⟨items, hitems, h⟩ := except_bind_eq_ok.1 h
  refine ⟨items, mapM_eq_ok_iff.1 hitems, ?_⟩
  dsimp only [gather] at h
  split at h <;> cases h <;> rfl

/-- Where there is a function, nothing is reported but what the items report. -/
theorem lowerUncapped_collect (h : p.lowerUncapped entryPoint moduleName = .ok o)
    (hf : f ∈ o.code.functions) :
    ∃ items, List.Forall₂ (fun i r => Item.lower entryPoint (p.resultTypes entryPoint) i = .ok r)
      p items ∧ o = collect { name := moduleName } items := by
  obtain ⟨items, hitems, h⟩ := except_bind_eq_ok.1 h
  refine ⟨items, mapM_eq_ok_iff.1 hitems, ?_⟩
  dsimp only [gather] at h
  split at h
  next hempty =>
    cases h
    rw [Bool.and_eq_true, List.isEmpty_iff] at hempty
    rw [hempty.1] at hf
    cases hf
  next => exact (Except.ok.inj h).symm

theorem lower_eq_ok_iff : p.lower entryPoint moduleName = .ok o ↔
    ∃ u, p.lowerUncapped entryPoint moduleName = .ok u ∧ o = ⟨u.code, cap u.diagnostics⟩ := by
  unfold lower
  rw [except_bind_eq_ok]
  refine exists_congr fun u => and_congr_right fun _ => ?_
  constructor
  · intro h
    exact (Except.ok.inj h).symm
  · rintro rfl
    rfl

theorem exists_items (entryPoint : String) (results : List (String × Ty)) (p : Program) :
    ∃ items, List.Forall₂ (fun i r => Item.lower entryPoint results i = .ok r) p items := by
  induction p with
  | nil => exact ⟨[], .nil⟩
  | cons i rest ih =>
    obtain ⟨items, hitems⟩ := ih
    obtain ⟨r, hr⟩ := i.exists_lower entryPoint results
    exact ⟨r :: items, .cons hr hitems⟩

/-- Every program can be lowered. -/
theorem exists_lowerUncapped (entryPoint moduleName : String) (p : Program) :
    ∃ o, p.lowerUncapped entryPoint moduleName = .ok o := by
  obtain ⟨items, hitems⟩ := exists_items entryPoint (p.resultTypes entryPoint) p
  exact ⟨gather moduleName items, except_bind_eq_ok.2 ⟨items, mapM_eq_ok_iff.2 hitems, rfl⟩⟩

theorem definition_of_item {results : List (String × Ty)} {ds : List Diagnostic}
    {items : List (Option Func × List Diagnostic)}
    (hitems : List.Forall₂ (fun i r => Item.lower entryPoint results i = .ok r) p items)
    (hf : (some f, ds) ∈ items) :
    ∃ d ∈ p.definitions, d.lower entryPoint results = .ok (f, ds) := by
  induction hitems with
  | nil => cases hf
  | @cons i r p items hi _ ih =>
    rcases List.mem_cons.1 hf with rfl | hf
    · cases i with
      | stmt s span => cases hi
      | fn d =>
        obtain ⟨⟨f', ds'⟩, hd, hr⟩ := except_bind_eq_ok.1 hi
        cases hr
        exact ⟨d, List.mem_filterMap.2 ⟨.fn d, .head _, rfl⟩, hd⟩
    · obtain ⟨d, hmem, hd⟩ := ih hf
      obtain ⟨j, hj, hjd⟩ := List.mem_filterMap.1 hmem
      exact ⟨d, List.mem_filterMap.2 ⟨j, .tail _ hj, hjd⟩, hd⟩

/-- The functions of a module are what definitions of the program are lowered to. -/
theorem exists_definition (h : p.lowerUncapped entryPoint moduleName = .ok o)
    (hf : f ∈ o.code.functions) :
    ∃ d ∈ p.definitions, ∃ ds, d.lower entryPoint (p.resultTypes entryPoint) = .ok (f, ds) := by
  obtain ⟨items, hitems, hcode⟩ := lowerUncapped_code h
  rw [hcode] at hf
  rcases mem_collect hf with hf | ⟨ds, hds⟩
  · cases hf
  · obtain ⟨d, hd, hlower⟩ := definition_of_item hitems hds
    exact ⟨d, hd, ds, hlower⟩

end Program

end Source

end Straightline
