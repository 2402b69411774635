import Straightline.Proofs.Lowering.Modules
import Straightline.Proofs.Reporting
import Straightline.Proofs.Selection.Faults

/-!
Programs with errors. What they are lowered to can still be given to selection, which refuses a
module with an incomplete function but never finds code that was put together wrongly. A function
that failed is incomplete unless one of its own returns went through.
-/
namespace Straightline

open IR Source Lowering

variable {t : Target} {entryPoint moduleName : String} {p : Program} {o : Outcome} {f : Func}

/-- A complete module whose functions are in order has code, as far as the limits allow. -/
theorem exists_selectModule (t : Target) {m : Module} (hm : m.isComplete = true)
    (hf : ∀ f ∈ m.functions, f.InOrder) : ∃ s, selectModule t m = .ok s := by
  have hsegs : ∃ segs, List.Forall₂ (fun f seg => Selection.codeOfFunc t f = .ok seg)
      m.functions segs := by
    generalize m.functions = fs at hf
    induction fs with
    | nil => exact ⟨[], .nil⟩
    | cons f fs ih =>
      obtain ⟨seg, hseg⟩ := Selection.exists_codeOfFunc t (hf f (.head _))
      obtain ⟨segs, hsegs⟩ := ih fun g hg => hf g (.tail _ hg)
      exact ⟨seg :: segs, .cons hseg hsegs⟩
  obtain ⟨segs, hsegs⟩ := hsegs
  unfold selectModule
  rw [if_pos hm, mapM_eq_ok_iff.2 hsegs]
  exact ⟨_, rfl⟩

theorem selectModule_incomplete (t : Target) {m : Module} (hm : m.isComplete = false) :
    selectModule t m = .error (.incomplete m.incomplete) := by
  unfold selectModule
  rw [if_neg (by simp [hm])]

/-- Every program can be lowered, and selection finds nothing wrong with how the module was put
together, whatever errors the program has. -/
theorem internal_errors_unreachable (entryPoint moduleName : String) (p : Program) :
    ∃ o, p.lower entryPoint moduleName = .ok o ∧
      ∀ t, (∀ e, selectModule t o.code ≠ .error (.internal e)) ∧
        (o.code.isComplete = true → ∃ s, selectModule t o.code = .ok s) := by
  obtain ⟨u, hu⟩ := p.exists_lowerUncapped entryPoint moduleName
  refine ⟨_, Program.lower_eq_ok_iff.2 ⟨u, hu, rfl⟩, ?_⟩
  intro t
  have hok : u.code.isComplete = true → ∃ s, selectModule t u.code = .ok s := by
    intro hm
    apply exists_selectModule t hm
    intro f hf
    obtain ⟨d, -, ds, hd⟩ := Program.exists_definition hu hf
    exact FnDef.inOrder_of_lower hd
  refine ⟨?_, hok⟩
  intro e he
  cases hm : u.code.isComplete with
  | true =>
    obtain ⟨s, hs⟩ := hok hm
    cases hs.symm.trans he
  | false => cases (selectModule_incomplete t hm).symm.trans he

/-- A function is complete just when no error was found in its definition or one of its returns went
through all the same. -/
theorem isComplete_of_lower {d : FnDef} {results : List (String × Ty)} {ds : List Diagnostic}
    (h : d.lower entryPoint results = .ok (f, ds)) :
    f.isComplete = (!Diagnostic.anyError ds || d.returns results) := by
  obtain ⟨f', ds', ops, t, h', -, hreturns, hf⟩ := d.lower_leaves entryPoint results
  cases h.symm.trans h'
  rw [hf, hreturns]
  cases t <;> cases Diagnostic.anyError ds <;> rfl

/-- An incomplete function is told by its name. -/
theorem mem_incomplete_iff {m : Module} (hf : f ∈ m.functions) :
    f.name ∈ m.incomplete ↔ f.isComplete = false := by
  simp only [Module.incomplete, List.mem_map, List.mem_filter, Bool.not_eq_true']
  constructor
  · rintro ⟨g, ⟨hg, hc⟩, hname⟩
    obtain rfl : g = f := List.inj_on_of_nodup_map m.nodup hg hf hname
    exact hc
  · intro hc
    exact ⟨f, ⟨hf, hc⟩, rfl⟩

theorem isComplete_of_mem_incomplete {m : Module} {name : String} (h : name ∈ m.incomplete) :
    m.isComplete = false := by
  obtain ⟨g, hg, -⟩ := List.mem_map.1 h
  obtain ⟨hg, hc⟩ := List.mem_filter.1 hg
  have hall : m.functions.all (·.isComplete) = false :=
    List.all_eq_false.2 ⟨g, hg, by simpa using hc⟩
  simp [Module.isComplete, hall]

/-- A definition in which an error was found has an incomplete function just when none of its
returns went through; then selection refuses the module and names the function, if it is the one
that was kept. -/
theorem failed_function_refused {d : FnDef} {ds : List Diagnostic}
    (hd : d.lower entryPoint (p.resultTypes entryPoint) = .ok (f, ds))
    (he : Diagnostic.anyError ds = true) :
    (f.isComplete = false ↔ d.returns (p.resultTypes entryPoint) = false) ∧
      ∀ moduleName o, p.lower entryPoint moduleName = .ok o → o.code.find? d.name.val = some f →
        ∀ t, (selectModule t o.code = .error (.incomplete o.code.incomplete) ∧
          d.name.val ∈ o.code.incomplete ↔ d.returns (p.resultTypes entryPoint) = false) := by
  have hcomplete : f.isComplete = d.returns (p.resultTypes entryPoint) := by
    simp [isComplete_of_lower hd, he]
  refine ⟨by rw [hcomplete], ?_⟩
  intro moduleName o ho hkept t
  obtain ⟨u, hu, rfl⟩ := Program.lower_eq_ok_iff.1 ho
  have hmem : d.name.val ∈ u.code.incomplete ↔ f.isComplete = false := by
    rw [← FnDef.name_of_lower hd]
    exact mem_incomplete_iff (List.mem_of_find?_eq_some hkept)
  rw [← hcomplete, ← hmem]
  constructor
  · exact And.right
  · intro hname
    exact ⟨selectModule_incomplete t (isComplete_of_mem_incomplete hname), hname⟩

/-- `func g(a: Bad) { x; return a }`, before a procedure without errors. -/
def brokenFunction : FnDef :=
  ⟨⟨"g", .nowhere⟩, [⟨"a", ⟨"Bad", .nowhere⟩⟩], none,
    [unresolved, .ret (some (.name "a" .nowhere)) .nowhere]⟩

def brokenProgram : Program := [.fn brokenFunction, procedure "main" [] []]

theorem failed_function_refused_broken :
    ∃ f ds o, brokenFunction.lower "main" (brokenProgram.resultTypes "main") = .ok (f, ds) ∧
      ds.length = 2 ∧ brokenProgram.lower "main" "m" = .ok o ∧ o.code.find? "g" = some f ∧
      f.isComplete = false ∧
      selectModule .darwin o.code = .error (.incomplete o.code.incomplete) ∧
      "g" ∈ o.code.incomplete := by
  have hlower : (brokenFunction.lower "main" (brokenProgram.resultTypes "main")).toOption.map
      (fun r => (Diagnostic.anyError r.2, r.2.length)) = some (true, 2) := by
    decide +kernel
  obtain ⟨⟨f, ds⟩, hd, hds⟩ := exists_ok_of_toOption hlower
  rw [Prod.mk.injEq] at hds
  have hfound : (brokenProgram.lower "main" "m").toOption.map (fun o => o.code.find? "g") =
      some ((brokenFunction.lower "main" (brokenProgram.resultTypes "main")).toOption.map (·.1)) := by
    decide +kernel
  obtain ⟨o, ho, hkept⟩ := exists_ok_of_toOption hfound
  rw [hd] at hkept
  have hreturns : brokenFunction.returns (brokenProgram.resultTypes "main") = false := by
    decide +kernel
  obtain ⟨hf, hselect⟩ := failed_function_refused (p := brokenProgram) hd hds.1
  exact ⟨f, ds, o, hd, hds.2, ho, hkept, hf.2 hreturns,
    (hselect "m" o ho hkept .darwin).2 hreturns⟩

/-- `func main() { x; return }` -/
def returningAnyway : Program := [procedure "main" [unresolved] []]

/-- An error was found in the only function there is, and there is code for it. -/
theorem failed_function_selected :
    ∃ o s, returningAnyway.lower "main" "m" = .ok o ∧ o.hasErrors = true ∧
      o.code.isComplete = true ∧ selectModule .darwin o.code = .ok s := by
  have heval : (returningAnyway.lower "main" "m").toOption.map
      (fun o => (o.hasErrors, o.code.isComplete,
        (selectModule .darwin o.code).toOption.map fun _ => ())) = some (true, true, some ()) := by
    decide +kernel
  obtain ⟨o, ho, hfacts⟩ := exists_ok_of_toOption heval
  rw [Prod.mk.injEq, Prod.mk.injEq] at hfacts
  obtain ⟨s, hs, -⟩ := exists_ok_of_toOption hfacts.2.2
  exact ⟨o, s, ho, hfacts.1, hfacts.2.1, hs⟩

end Straightline
