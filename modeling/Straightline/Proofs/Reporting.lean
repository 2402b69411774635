import Mathlib.Data.List.TFAE
import Mathlib.Tactic.TFAE
import Straightline.Compile
import Straightline.Proofs.Results

/-!
Which errors end a compilation. Diagnostics are cut off before anyone looks for errors among them,
so an error counts only if not too many diagnostics come before it.
-/
namespace Straightline

open Source (Program)
open Lowering (cap diagnosticLimit)

variable {t : Target} {moduleName : String} {p : Program} {o : Lowering.Outcome}
  {ds : List Diagnostic}

/-- What is kept holds an error just when the first diagnostics do. -/
theorem anyError_cap (ds : List Diagnostic) :
    Diagnostic.anyError (cap ds) = Diagnostic.anyError (ds.take diagnosticLimit) := by
  unfold cap
  split
  next hle => rw [List.take_of_length_le hle]
  next =>
    have htake : ds.take diagnosticLimit =
        ds.take (diagnosticLimit - 1) ++ ds[diagnosticLimit - 1]?.toList := List.take_add_one
    rw [htake]
    cases ds[diagnosticLimit - 1]? with
    | none => rfl
    | some d =>
      simp only [Diagnostic.anyError, List.any_append]
      rfl

theorem lower_eq_ok (h : p.lowerUncapped t.entryPoint moduleName = .ok o) :
    lower t moduleName p = .ok ⟨o.code, cap o.diagnostics⟩ := by
  unfold lower Program.lower
  rw [h]
  rfl

theorem unlessErrors_eq_error {α : Type} {a : α} {e : Failure} :
    unlessErrors a ds = .error e ↔ Diagnostic.anyError ds = true ∧ e = .diagnostics ds := by
  unfold unlessErrors
  split
  next he => simp [he, eq_comm]
  next he => simp [he]

theorem anyError_of_unlessErrors {α : Type} {a : α} {ds' : List Diagnostic}
    (h : unlessErrors a ds' = .error (.diagnostics ds)) : Diagnostic.anyError ds = true := by
  obtain ⟨he, hds⟩ := unlessErrors_eq_error.1 h
  cases hds
  exact he

/-- What comes after lowering is reached unless an error was kept. -/
theorem after_lower {α : Type} {next : Lowering.Outcome → IR.Module → Except Failure α}
    (h : p.lowerUncapped t.entryPoint moduleName = .ok o) :
    (do let c ← lower t moduleName p
        let m ← unlessErrors c.code c.diagnostics
        next c m) =
      if Diagnostic.anyError (cap o.diagnostics) then .error (.diagnostics (cap o.diagnostics))
      else next ⟨o.code, cap o.diagnostics⟩ o.code := by
  rw [lower_eq_ok h]
  change (unlessErrors o.code (cap o.diagnostics) >>= _) = _
  unfold unlessErrors
  split <;> rfl

theorem lower_ne_diagnostics : lower t moduleName p ≠ .error (.diagnostics ds) := by
  unfold lower
  split <;> nofun

theorem selectModule_ne_diagnostics {m : IR.Module} :
    selectModule t m ≠ .error (.diagnostics ds) := by
  unfold selectModule
  split
  · split <;> nofun
  · nofun

theorem assemble_ne_diagnostics {code : List Machine.Instr} :
    assemble t code ≠ .error (.diagnostics ds) := by
  unfold assemble
  split <;> nofun

/-- A compilation that ends in diagnostics has an error among them. -/
theorem anyError_of_compile (h : compile t moduleName p = .error (.diagnostics ds)) :
    Diagnostic.anyError ds = true := by
  rcases except_bind_eq_error.1 h with h | ⟨o, -, h⟩
  · exact (lower_ne_diagnostics h).elim
  rcases except_bind_eq_error.1 h with h | ⟨m, -, h⟩
  · exact anyError_of_unlessErrors h
  rcases except_bind_eq_error.1 h with h | ⟨s, -, h⟩
  · exact (selectModule_ne_diagnostics h).elim
  rcases except_bind_eq_error.1 h with h | ⟨code, -, h⟩
  · exact anyError_of_unlessErrors h
  rcases except_bind_eq_error.1 h with h | ⟨text, -, h⟩
  · exact (assemble_ne_diagnostics h).elim
  · cases h

theorem anyError_of_dump (h : dump t moduleName p = .error (.diagnostics ds)) :
    Diagnostic.anyError ds = true := by
  rcases except_bind_eq_error.1 h with h | ⟨o, -, h⟩
  · exact (lower_ne_diagnostics h).elim
  rcases except_bind_eq_error.1 h with h | ⟨m, -, h⟩
  · exact anyError_of_unlessErrors h
  · cases h

/-- An error ends the compilation just when it is among the first diagnostics. -/
theorem errors_reported_tfae (h : p.lowerUncapped t.entryPoint moduleName = .ok o) :
    List.TFAE [
      ∃ d ∈ o.diagnostics.take diagnosticLimit, d.isError = true,
      ∃ c, lower t moduleName p = .ok c ∧ c.hasErrors = true,
      ∃ e, compile t moduleName p = .error e ∧
        e = .diagnostics (cap o.diagnostics) ∧ e.exitCode = 1,
      ∃ e, dump t moduleName p = .error e ∧
        e = .diagnostics (cap o.diagnostics) ∧ e.exitCode = 1] := by
  have hfirst : (∃ d ∈ o.diagnostics.take diagnosticLimit, d.isError = true) ↔
      Diagnostic.anyError (cap o.diagnostics) = true := by
    rw [anyError_cap, Diagnostic.anyError, List.any_eq_true]
  tfae_have 1 ↔ 2 := by
    rw [hfirst, lower_eq_ok h]
    constructor
    · intro he
      exact ⟨_, rfl, he⟩
    · rintro ⟨c, hc, he⟩
      cases hc
      exact he
  tfae_have 1 → 3 := by
    rw [hfirst]
    exact fun he => ⟨_, (after_lower h).trans (if_pos he), rfl, rfl⟩
  tfae_have 3 → 1 := by
    rintro ⟨e, hc, rfl, -⟩
    exact hfirst.2 (anyError_of_compile hc)
  tfae_have 1 → 4 := by
    rw [hfirst]
    exact fun he => ⟨_, (after_lower h).trans (if_pos he), rfl, rfl⟩
  tfae_have 4 → 1 := by
    rintro ⟨e, hc, rfl, -⟩
    exact hfirst.2 (anyError_of_dump hc)
  tfae_finish

/-- `func name() { first return; last }` -/
def procedure (name : String) (first last : List Source.Stmt) : Source.Item :=
  .fn ⟨⟨name, .nowhere⟩, [], none, first ++ .ret none .nowhere :: last⟩

/-- The use of a name that is not declared. -/
def unresolved : Source.Stmt := .eval (.name "x" .nowhere) .nowhere

def earlyError : Program := [procedure "f" [] [unresolved], procedure "main" [unresolved] []]

theorem errors_reported_earlyError :
    ∃ o, earlyError.lowerUncapped "main" "m" = .ok o ∧ o.diagnostics.length = 2 ∧
      compile .darwin "m" earlyError = .error (.diagnostics (cap o.diagnostics)) := by
  have heval : (earlyError.lowerUncapped "main" "m").toOption.map
      (fun o => (Diagnostic.anyError (o.diagnostics.take diagnosticLimit), o.diagnostics.length)) =
        some (true, 2) := by
    decide +kernel
  obtain ⟨o, ho, hds⟩ := exists_ok_of_toOption heval
  rw [Prod.mk.injEq, Diagnostic.anyError, List.any_eq_true] at hds
  obtain ⟨e, hcompile, rfl, -⟩ := ((errors_reported_tfae (t := .darwin) ho).out 0 2).1 hds.1
  exact ⟨o, ho, hds.2, hcompile⟩

/-- An unreachable statement in as many procedures as diagnostics are kept, and then an error. -/
def lateError : Program :=
  (List.range diagnosticLimit).map
      (fun i => procedure ("f" ++ toString i) [] [unresolved]) ++
    [procedure "main" [unresolved] []]

/-- The error after too many warnings is dropped with them, and there is assembly. -/
theorem late_error_dropped :
    ∃ o c out text, lateError.lowerUncapped "main" "m" = .ok o ∧ o.hasErrors = true ∧
      lower .darwin "m" lateError = .ok c ∧ c.hasErrors = false ∧
      compile .darwin "m" lateError = .ok out ∧ dump .darwin "m" lateError = .ok text := by
  have heval : (lateError.lowerUncapped "main" "m").toOption.map (fun o => (o.hasErrors,
      Diagnostic.anyError (o.diagnostics.take diagnosticLimit),
      (do let s ← selectModule .darwin o.code
          let code ← s.result
          assemble .darwin code).toOption.map fun _ => ())) = some (true, false, some ()) := by
    decide +kernel
  obtain ⟨o, ho, hfacts⟩ := exists_ok_of_toOption heval
  rw [Prod.mk.injEq, Prod.mk.injEq, ← anyError_cap] at hfacts
  obtain ⟨herr, hkept, hrest⟩ := hfacts
  have hgo : ¬ Diagnostic.anyError (cap o.diagnostics) = true := by simp [hkept]
  obtain ⟨out, hout⟩ : ∃ out, compile .darwin "m" lateError = .ok out := by
    obtain ⟨assembly, h, -⟩ := exists_ok_of_toOption hrest
    obtain ⟨s, hs, h⟩ := except_bind_eq_ok.1 h
    obtain ⟨code, hcode, h⟩ := except_bind_eq_ok.1 h
    refine ⟨⟨assembly, (cap o.diagnostics).filter (!·.isError)⟩,
      (after_lower (t := .darwin) ho).trans ((if_neg hgo).trans ?_)⟩
    refine except_bind_eq_ok.2 ⟨s, hs, except_bind_eq_ok.2 ⟨code, hcode, ?_⟩⟩
    exact except_bind_eq_ok.2 ⟨assembly, h, rfl⟩
  have hdump : dump .darwin "m" lateError = .ok o.code.text :=
    (after_lower (t := .darwin) ho).trans (if_neg hgo)
  exact ⟨o, _, out, _, ho, herr, lower_eq_ok (t := .darwin) ho, hkept, hout, hdump⟩

end Straightline
