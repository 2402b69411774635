import Straightline.Proofs.Lowering.Blame
import Straightline.Proofs.Lowering.Modules
import Straightline.Proofs.Lowering.Origin
import Straightline.Proofs.Semantics.Program

/-!
Which definition a name stands for. A module keeps the first definition of every name and each later
one is reported; what callers are told about a name is what the function under it returns, wherever
it is defined.
-/
namespace Straightline

open IR Source

namespace IR.Module

variable {m : Module} {f : Func}

theorem add_of_not_mem (h : f.name ∉ m.functions.map (·.name)) :
    m.add f = .ok (m.append f h) := by
  unfold add
  split
  next hsome => cases (find?_eq_none.2 h).symm.trans hsome
  next => rfl

theorem add_of_mem (h : f.name ∈ m.functions.map (·.name)) :
    m.add f = .error (.duplicateFunction f.name) := by
  unfold add
  split
  next => rfl
  next hnone => exact absurd h (find?_eq_none.1 hnone)

/-- A function is found under its name. -/
theorem find?_of_mem (hf : f ∈ m.functions) : m.find? f.name = some f := by
  cases hfind : m.find? f.name with
  | none => exact absurd (List.mem_map_of_mem hf) (find?_eq_none.1 hfind)
  | some g =>
    have hname : g.name = f.name := by simpa using List.find?_some hfind
    rw [List.inj_on_of_nodup_map m.nodup (List.mem_of_find?_eq_some hfind) hf hname]

end IR.Module

namespace Lowering

variable {m : Module} {f : Func} {ds : List Diagnostic} {rest : List (Option Func × List Diagnostic)}

theorem collect_new (h : f.name ∉ m.functions.map (·.name)) :
    collect m ((some f, ds) :: rest) =
      ⟨(collect (m.append f h) rest).code,
        ds ++ (collect (m.append f h) rest).diagnostics⟩ := by
  rw [collect, Module.add_of_not_mem h]

/-- A function whose name is taken is dropped and reported. -/
theorem collect_taken (h : f.name ∈ m.functions.map (·.name)) :
    collect m ((some f, ds) :: rest) = ⟨(collect m rest).code,
      ds ++ (Problem.redefined f.name).diagnostic f.span :: (collect m rest).diagnostics⟩ := by
  rw [collect, Module.add_of_mem h]

end Lowering

namespace Source

open Lowering

namespace FnDef

/-- The first definition of each name that is not among `seen`. -/
def firsts (seen : List String) : List FnDef → List FnDef
  | [] => []
  | d :: rest =>
    if d.name.val ∈ seen then firsts seen rest else d :: firsts (d.name.val :: seen) rest

/-- The definitions of names that are among `seen` or were defined before. -/
def repeats (seen : List String) : List FnDef → List FnDef
  | [] => []
  | d :: rest =>
    if d.name.val ∈ seen then d :: repeats seen rest else repeats (d.name.val :: seen) rest

/-- The complaint about a definition whose name is taken. -/
def redefinition (d : FnDef) : Diagnostic := (Problem.redefined d.name.val).diagnostic d.name.span

theorem redefinition_of_lower {entryPoint : String} {results : List (String × Ty)} {d : FnDef}
    {f : Func} {ds : List Diagnostic} (h : d.lower entryPoint results = .ok (f, ds)) :
    (Problem.redefined f.name).diagnostic f.span = d.redefinition := by
  obtain ⟨r, builder, -, -, rfl, -⟩ := lower_eq_ok h
  rfl

theorem find?_firsts (seen : List String) (defs : List FnDef) (name : String) :
    (firsts seen defs).find? (·.name.val = name) =
      if name ∈ seen then none else defs.find? (·.name.val = name) := by
  induction defs generalizing seen with
  | nil => simp [firsts]
  | cons d rest ih =>
    rw [firsts]
    by_cases hname : d.name.val = name
    · subst hname
      split
      next hseen => rw [ih, if_pos hseen]
      next => simp
    · have hskip : (d :: rest).find? (·.name.val = name) = rest.find? (·.name.val = name) :=
        List.find?_cons_of_neg (by simpa using hname)
      split
      next => rw [ih, hskip]
      next =>
        rw [List.find?_cons_of_neg (by simpa using hname), ih, hskip]
        simp [Ne.symm hname]

end FnDef

variable {entryPoint moduleName : String} {results : List (String × Ty)} {p : Program} {o : Outcome}

/-- The function is what the definition is lowered to. -/
def FnDef.Yields (entryPoint : String) (results : List (String × Ty)) (d : FnDef) (f : Func) :
    Prop := ∃ ds, d.lower entryPoint results = .ok (f, ds)

/-- The first definitions are added one after the other, and each of the others is reported. -/
theorem collect_firsts {items : List (Option Func × List Diagnostic)}
    (hitems : List.Forall₂ (fun i r => Item.lower entryPoint results i = .ok r) p items)
    {m : Module} {seen : List String} (hseen : ∀ x, x ∈ seen ↔ x ∈ m.functions.map (·.name)) :
    (∃ fs, (collect m items).code.functions = m.functions ++ fs ∧
      List.Forall₂ (FnDef.Yields entryPoint results) (FnDef.firsts seen p.definitions) fs) ∧
    (collect m items).diagnostics.filter (·.isRedefinition) =
      (FnDef.repeats seen p.definitions).map (·.redefinition) := by
  induction hitems generalizing m seen with
  | nil => exact ⟨⟨[], by simp [collect], .nil⟩, rfl⟩
  | @cons i r p items hi _ ih =>
    cases i with
    | stmt s span =>
      cases hi
      obtain ⟨hfs, hds⟩ := ih hseen
      refine ⟨hfs, ?_⟩
      rw [collect, List.singleton_append, List.filter_cons_of_neg, hds]
      · rfl
      · simp [isRedefinition_outsideFunction]
    | fn d =>
      obtain ⟨⟨f, ds⟩, hd, hr⟩ := except_bind_eq_ok.1 hi
      cases hr
      have hname := FnDef.name_of_lower hd
      have hquiet : ds.filter (·.isRedefinition) = [] := by
        simpa using isRedefinition_of_lower hd
      change (∃ fs, _ = _ ∧ List.Forall₂ _ (FnDef.firsts seen (d :: Program.definitions p)) fs) ∧
        _ = (FnDef.repeats seen (d :: Program.definitions p)).map _
      rw [FnDef.firsts, FnDef.repeats]
      by_cases hmem : d.name.val ∈ seen
      · obtain ⟨hfs, hds⟩ := ih hseen
        rw [collect_taken (by rw [hname]; exact (hseen _).1 hmem), if_pos hmem, if_pos hmem]
        refine ⟨hfs, ?_⟩
        have hred : d.redefinition.isRedefinition = true := Problem.isRedefinition_redefined _ _
        rw [List.filter_append, hquiet, List.nil_append, FnDef.redefinition_of_lower hd,
          List.filter_cons_of_pos hred, hds, List.map_cons]
      · have hnew : f.name ∉ m.functions.map (·.name) := by
          rw [hname]
          exact fun h => hmem ((hseen _).2 h)
        have hseen' : ∀ x, x ∈ d.name.val :: seen ↔ x ∈ (m.functions ++ [f]).map (·.name) := by
          intro x
          simp [hseen x, hname, or_comm]
        obtain ⟨⟨fs, hfuns, hfs⟩, hds⟩ := ih (m := m.append f hnew) hseen'
        rw [collect_new hnew, if_neg hmem, if_neg hmem]
        refine ⟨⟨f :: fs, by rw [hfuns, Module.append_functions, List.append_assoc]; rfl,
          .cons ⟨ds, hd⟩ hfs⟩, ?_⟩
        rw [List.filter_append, hquiet, List.nil_append, hds]

namespace Program

/-- The functions of a module are the first definitions, and the others are reported. -/
theorem functions_firsts (h : p.lowerUncapped entryPoint moduleName = .ok o) :
    List.Forall₂ (FnDef.Yields entryPoint (p.resultTypes entryPoint))
        (FnDef.firsts [] p.definitions) o.code.functions ∧
      o.diagnostics.filter (·.isRedefinition) =
        (FnDef.repeats [] p.definitions).map (·.redefinition) := by
  obtain ⟨items, hitems, h⟩ := except_bind_eq_ok.1 h
  have hseen : ∀ x, x ∈ [] ↔ x ∈ ([] : List Func).map (·.name) := by simp
  obtain ⟨⟨fs, hfuns, hfs⟩, hds⟩ :=
    collect_firsts (m := { name := moduleName }) (mapM_eq_ok_iff.1 hitems) hseen
  dsimp only [gather] at h
  split at h
  next hempty =>
    cases h
    rw [Bool.and_eq_true, List.isEmpty_iff, List.isEmpty_iff] at hempty
    have hhead : "program defines no functions".toList.head? = some 'p' := rfl
    have hquiet : (Problem.noFunctions.diagnostic .nowhere).isRedefinition = false :=
      isRedefinition_eq_false (c := 'p') hhead (by decide)
    refine ⟨by rwa [hfuns], ?_⟩
    rw [← hds, hempty.2, List.filter_cons_of_neg (by simp [hquiet])]
  next =>
    cases h
    exact ⟨by rwa [hfuns], hds⟩

/-- A name stands for the same definition in the program and in its module. -/
theorem find?_of_definition? (h : p.lowerUncapped entryPoint moduleName = .ok o) (name : String) :
    Option.Rel (FnDef.Yields entryPoint (p.resultTypes entryPoint)) (p.definition? name)
      (o.code.find? name) := by
  have hfs := (functions_firsts h).1
  have hfirst : p.definition? name =
      (FnDef.firsts [] p.definitions).find? (·.name.val = name) := by
    simp [FnDef.find?_firsts, definition?]
  rw [hfirst, Module.find?]
  generalize FnDef.firsts [] p.definitions = defs at hfs
  generalize o.code.functions = fs at hfs
  clear hfirst
  induction hfs with
  | nil => exact .none
  | @cons d f defs fs hd _ ih =>
    obtain ⟨ds, hlower⟩ := id hd
    rw [List.find?_cons, List.find?_cons, FnDef.name_of_lower hlower]
    split
    · exact .some hd
    · exact ih

theorem find?_eq_some (h : p.lowerUncapped entryPoint moduleName = .ok o) {d : FnDef} {f : Func}
    {ds : List Diagnostic} (hd : p.definition? d.name.val = some d)
    (hlower : d.lower entryPoint (p.resultTypes entryPoint) = .ok (f, ds)) :
    o.code.find? d.name.val = some f := by
  have hrel := find?_of_definition? h d.name.val
  rw [hd] at hrel
  generalize o.code.find? d.name.val = function at hrel
  cases hrel with
  | some hyields =>
    obtain ⟨ds', hlower'⟩ := hyields
    cases hlower.symm.trans hlower'
    rfl

/-- What was recorded for a name is what the function under it returns. -/
theorem lookup_eq_result (h : p.lowerUncapped entryPoint moduleName = .ok o) (name : String) :
    (p.resultTypes entryPoint).lookup name = (o.code.find? name).map (·.result) := by
  have hrel := find?_of_definition? h name
  rw [lookup_resultTypes]
  generalize p.definition? name = definition at hrel
  generalize o.code.find? name = function at hrel
  cases hrel with
  | none => rfl
  | some hyields =>
    obtain ⟨ds, hd⟩ := hyields
    obtain ⟨r, builder, -, -, rfl, -⟩ := FnDef.lower_eq_ok hd
    rfl

/-- A call in the code of a module has the result that its callee returns. -/
theorem call_answers (h : p.lowerUncapped entryPoint moduleName = .ok o) {f : Func}
    (hf : f ∈ o.code.functions) {i : Located Instruction} (hi : i ∈ f.instructions)
    {t : Option Temporary} {g : String} {args : List Value} (hcall : i.val = .op (.call t g args)) :
    t.map (·.ty) = ((o.code.find? g).map (·.result)).filter (· ≠ .nil) := by
  obtain ⟨d, -, ds, hd⟩ := exists_definition h hf
  obtain ⟨b, hb, -, hops, -⟩ := FnDef.stems_of_lower hd
  rw [Func.instructions, hb, List.flatMap_singleton] at hi
  rcases List.mem_append.1 hi with hi | hi
  · obtain ⟨op, hop, rfl⟩ := List.mem_map.1 hi
    have hstems := hops op hop
    rw [Instruction.op.inj hcall] at hstems
    cases hstems with
    | call _ ht _ =>
      rw [ht, Context.resultOf, lookup_eq_result h]
      cases o.code.find? g with
      | none => rfl
      | some callee => by_cases hnil : callee.result = .nil <;> simp [hnil, Option.filter]
  · obtain ⟨r, -, rfl⟩ := List.mem_map.1 hi
    cases hcall

/-- Call sites and definitions agree. The functions of a module are the first definitions of each name,
in order, and each later one is reported; what was recorded for a name before is what its function
returns; and a call has a result just when the module defines its callee with one, and of that type. -/
theorem calls_match_definitions (entryPoint moduleName : String) (p : Program) :
    ∃ o, p.lowerUncapped entryPoint moduleName = .ok o ∧
      p.lower entryPoint moduleName = .ok ⟨o.code, cap o.diagnostics⟩ ∧
      List.Forall₂ (fun d f => f.name = d.name.val ∧
          ∃ ds, d.lower entryPoint (p.resultTypes entryPoint) = .ok (f, ds))
        (FnDef.firsts [] p.definitions) o.code.functions ∧
      o.diagnostics.filter (·.isRedefinition) =
        (FnDef.repeats [] p.definitions).map
          (fun d => (Problem.redefined d.name.val).diagnostic d.name.span) ∧
      (∀ f ∈ o.code.functions, (p.resultTypes entryPoint).lookup f.name = some f.result) ∧
      ∀ f ∈ o.code.functions, ∀ i ∈ f.instructions, ∀ t g args, i.val = .op (.call t g args) →
        (t.isSome = true ↔ ∃ callee, o.code.find? g = some callee ∧ callee.result ≠ .nil) ∧
          ∀ u callee, t = some u → o.code.find? g = some callee → u.ty = callee.result := by
  obtain ⟨o, ho⟩ := p.exists_lowerUncapped entryPoint moduleName
  obtain ⟨hfs, hds⟩ := functions_firsts ho
  refine ⟨o, ho, lower_eq_ok_iff.2 ⟨o, ho, rfl⟩, hfs.imp ?_, hds, ?_, ?_⟩
  · rintro d f ⟨ds, hd⟩
    exact ⟨FnDef.name_of_lower hd, ds, hd⟩
  · intro f hf
    rw [lookup_eq_result ho, Module.find?_of_mem hf]
    rfl
  · intro f hf i hi t g args hcall
    have hanswers := call_answers ho hf hi hcall
    cases hfind : o.code.find? g with
    | none =>
      rw [hfind] at hanswers
      cases t with
      | none => simp
      | some u => cases hanswers
    | some callee =>
      rw [hfind] at hanswers
      by_cases hnil : callee.result = .nil <;> cases t <;> simp_all [Option.filter]

/-- `func main() { return g(p()) }`, then `func g(a: int): int { p(); return main() + g(a) }`,
`func p() {}`, and once more `func g(): string {}`. -/
def redefining : Program := [
  .fn ⟨⟨"main", .nowhere⟩, [], none,
    [.ret (some (.call (.name "g" .nowhere) [.call (.name "p" .nowhere) [] .nowhere] .nowhere))
      .nowhere]⟩,
  .fn ⟨⟨"g", .nowhere⟩, [⟨"a", ⟨"int", .nowhere⟩⟩], some ⟨"int", .nowhere⟩,
    [.eval (.call (.name "p" .nowhere) [] .nowhere) .nowhere,
      .ret (some (.binary "+" (.call (.name "main" .nowhere) [] .nowhere)
        (.call (.name "g" .nowhere) [.name "a" .nowhere] .nowhere) .nowhere)) .nowhere]⟩,
  .fn ⟨⟨"p", .nowhere⟩, [], none, []⟩,
  .fn ⟨⟨"g", ⟨0, 70, 71⟩⟩, [], some ⟨"string", .nowhere⟩, []⟩]

theorem calls_match_definitions_redefining :
    ∃ o, redefining.lowerUncapped "main" "m" = .ok o ∧
      o.code.functions.map (fun f => (f.name, f.result)) =
        [("main", .int), ("g", .int), ("p", .nil)] ∧
      o.code.functions.map (fun f => f.instructions.filterMap fun i => match i.val with
        | .op (.call t g _) => some (g, t.map (·.ty))
        | _ => none) = [[("p", none)], [("p", none), ("main", some .int), ("g", some .int)], []] ∧
      o.diagnostics.filter (·.isRedefinition) =
        [(Problem.redefined "g").diagnostic ⟨0, 70, 71⟩] ∧
      ∀ f ∈ o.code.functions, ∀ i ∈ f.instructions, ∀ t g args, i.val = .op (.call t g args) →
        (t.isSome = true ↔ ∃ callee, o.code.find? g = some callee ∧ callee.result ≠ .nil) := by
  obtain ⟨o, ho, -, -, hds, -, hcalls⟩ := calls_match_definitions "main" "m" redefining
  have heval : (redefining.lowerUncapped "main" "m").toOption.map (fun o =>
      (o.code.functions.map (fun f => (f.name, f.result)),
        o.code.functions.map (fun f => f.instructions.filterMap fun i => match i.val with
          | .op (.call t g _) => some (g, t.map (·.ty))
          | _ => none))) = some ([("main", .int), ("g", .int), ("p", .nil)],
            [[("p", none)], [("p", none), ("main", some .int), ("g", some .int)], []]) := by
    decide +kernel
  rw [ho] at heval
  obtain ⟨hfunctions, htypes⟩ := Prod.mk.inj (Option.some.inj heval)
  refine ⟨o, ho, hfunctions, htypes, hds, ?_⟩
  intro f hf i hi t g args hcall
  exact (hcalls f hf i hi t g args hcall).1

end Program

end Source

end Straightline
