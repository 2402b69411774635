import Straightline.Lowering.Body

/-!
Whole programs as modules. Each item is lowered on its own, given what every function returns; the
diagnostics come out in source order.
-/
namespace Straightline

open IR Lowering

namespace Lowering

/-- The type that an annotation names, or the complaint that there is none of that name. -/
def resolve (t : Located String) : Except Diagnostic Ty :=
  match Ty.ofName? t.val with
  | some ty => .ok ty
  | none => .error ((Problem.unknownType t.val).diagnostic t.span)

/-- The complaint about an annotation that names no type. -/
def annotationProblem? (t : Located String) : Option Diagnostic :=
  match resolve t with
  | .ok _ => none
  | .error d => some d

theorem annotationProblem?_eq_none {t : Located String} :
    annotationProblem? t = none ↔ ∃ ty, Ty.ofName? t.val = some ty := by
  unfold annotationProblem? resolve
  cases Ty.ofName? t.val <;> simp

theorem annotationProblem?_eq_some {t : Located String} {d : Diagnostic}
    (h : annotationProblem? t = some d) : d = (Problem.unknownType t.val).diagnostic t.span := by
  unfold annotationProblem? resolve at h
  cases hty : Ty.ofName? t.val with
  | some ty =>
    rw [hty] at h
    cases h
  | none =>
    rw [hty] at h
    exact (Option.some.inj h).symm

end Lowering

namespace Source

namespace FnDef

variable (entryPoint : String) (d : FnDef)

/-- What callers are told that a definition returns, before it is looked at any closer. The entry
point returns an integer, whatever it is annotated with; a missing or unknown annotation means no
result. -/
def announcedTy : Ty :=
  if d.name.val = entryPoint then .int
  else (d.result.bind fun t => Ty.ofName? t.val).getD .nil

/-- The result type of the function that a definition stands for. An annotation that cannot be
resolved is complained about, and the function goes on without a result. -/
def resultTy : Ty :=
  if d.name.val = entryPoint then .int
  else match d.result with
    | some t => match resolve t with
      | .ok ty => ty
      | .error _ => .nil
    | none => .nil

/-- Callers are told what the function returns. -/
theorem announcedTy_eq_resultTy : d.announcedTy entryPoint = d.resultTy entryPoint := by
  unfold announcedTy resultTy
  split
  · rfl
  · cases d.result with
    | none => rfl
    | some t =>
      simp only [Option.bind_some, resolve]
      cases Ty.ofName? t.val <;> rfl

/-- The parameters whose types are known. -/
def typedParams : List Variable :=
  d.params.filterMap fun p => (Ty.ofName? p.ty.val).map (⟨p.name, ·⟩)

/-- What is in scope where the body begins. -/
def scope : Scope := d.params.foldl (fun s p => s.setParam p.name (Ty.ofName? p.ty.val)) []

/-- The complaints about the parameters and then the result; the entry point's annotation is not
looked at. -/
def headerProblems : List Diagnostic :=
  d.params.filterMap (annotationProblem? ·.ty)
    ++ if d.name.val = entryPoint then [] else (d.result.bind annotationProblem?).toList

/-- The return at the end of a body that has none: zero from the entry point, else nothing. -/
def implicitReturn : Build Unit := do
  Builder.setSpan .nowhere
  Builder.ret (if d.name.val = entryPoint then some (.const (.int 0)) else none)

/-- The function with the body that was built. Only one without errors gets an implicit return. -/
def close (clean : Bool) (builder : Builder) : Except BuildError Func := do
  let builder ←
    if clean && !builder.isTerminated then
      match d.implicitReturn entryPoint builder with
      | .ok () builder => .ok builder
      | .error e _ => .error e
    else .ok builder
  return { name := d.name.val, params := d.typedParams, result := d.resultTy entryPoint
           span := d.name.span, blocks := builder.block.toList }

/-- Where the body begins. -/
def start : Body := ⟨{ block := some { name := Block.entryName } }, d.scope⟩

/-- The function that a definition stands for. -/
def lower (results : List (String × Ty)) : Except BuildError (Func × List Diagnostic) := do
  let header := d.headerProblems entryPoint
  let body ← lowerBody ⟨d.name.val, results⟩ d.body d.start
  let f ← d.close entryPoint (header.isEmpty && body.clean) body.builder
  return (f, header ++ body.diagnostics)

end FnDef

/-- An item gives a function unless it is a stray statement. -/
def Item.lower (entryPoint : String) (results : List (String × Ty)) :
    Item → Except BuildError (Option Func × List Diagnostic)
  | .fn d => do
    let (f, ds) ← d.lower entryPoint results
    return (some f, ds)
  | .stmt s span => return (none, [(Problem.outsideFunction s.describe).diagnostic span])

end Source

namespace Lowering

/-- A program lowered as far as possible. -/
structure Outcome where
  code : Module
  diagnostics : List Diagnostic

def Outcome.hasErrors (o : Outcome) : Bool := Diagnostic.anyError o.diagnostics

/-- Adds the functions of the items to a module; a name that is taken is reported and skipped. -/
def collect (m : Module) : List (Option Func × List Diagnostic) → Outcome
  | [] => ⟨m, []⟩
  | (none, ds) :: rest =>
    let o := collect m rest
    { o with diagnostics := ds ++ o.diagnostics }
  | (some f, ds) :: rest => match m.add f with
    | .ok m =>
      let o := collect m rest
      { o with diagnostics := ds ++ o.diagnostics }
    | .error _ =>
      let o := collect m rest
      { o with diagnostics := ds ++ (Problem.redefined f.name).diagnostic f.span :: o.diagnostics }

/-- The module of all items; a program without functions is reported, if nothing else is. -/
def gather (moduleName : String) (items : List (Option Func × List Diagnostic)) : Outcome :=
  let o := collect { name := moduleName } items
  if o.code.functions.isEmpty && o.diagnostics.isEmpty then
    { o with diagnostics := [Problem.noFunctions.diagnostic .nowhere] }
  else o

/-- No more diagnostics than this are passed on. -/
def diagnosticLimit : Nat := 100

/-- Keeps the first diagnostics, and notes on the last one kept how many were dropped. -/
def cap (ds : List Diagnostic) : List Diagnostic :=
  if ds.length ≤ diagnosticLimit then ds
  else
    let note := s!"{ds.length - diagnosticLimit} further diagnostic(s) suppressed"
    ds.take (diagnosticLimit - 1) ++ (ds[diagnosticLimit - 1]?.map (·.addNote note)).toList

end Lowering

namespace Source.Program

variable (entryPoint : String) (moduleName : String) (p : Program)

/-- What each function returns; of several definitions the first counts. -/
def resultTypes : List (String × Ty) :=
  p.definitions.map fun d => (d.name.val, d.announcedTy entryPoint)

/-- Lowers a program and reports everything there is to say about it. -/
def lowerUncapped : Except BuildError Outcome := do
  let items ← p.mapM (Item.lower entryPoint (p.resultTypes entryPoint))
  return gather moduleName items

/-- Lowers a program; at most `diagnosticLimit` diagnostics come with it. -/
def lower : Except BuildError Outcome := do
  let o ← p.lowerUncapped entryPoint moduleName
  return { o with diagnostics := cap o.diagnostics }

/-- Lowers a program with a task for each item. What the tasks give is put together in the order of
the items, whichever is done first. -/
def lowerParallel : Except BuildError Outcome := do
  let results := p.resultTypes entryPoint
  let tasks := p.map fun i => Task.spawn fun _ => i.lower entryPoint results
  let o := gather moduleName (← tasks.mapM (·.get))
  return { o with diagnostics := cap o.diagnostics }

/-- Tasks change nothing about the result. -/
theorem lowerParallel_eq_lower :
    p.lowerParallel entryPoint moduleName = p.lower entryPoint moduleName := by
  have htasks (results : List (String × Ty)) :
      (p.map fun i => Task.spawn fun _ => i.lower entryPoint results).mapM (·.get) =
        p.mapM (Item.lower entryPoint results) := List.mapM_map
  unfold lowerParallel lower lowerUncapped
  dsimp only
  rw [htasks, bind_assoc]
  rfl

end Source.Program

end Straightline
