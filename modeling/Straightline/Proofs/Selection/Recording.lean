import Straightline.Compile

/-!
Selection with a log. Code is selected for a function until it is all there or a limit is met, which is
at the end of a list by then; code and lists of all functions are put one after the other. Main
statement: with the log, modules have the same code and the same diagnostics as without it.
-/
namespace Straightline.Selection

open IR
open Machine (Instr)

/-- Code under selection, with what has been reported. -/
structure Log where
  state : State
  diagnostics : List Diagnostic := []

/-- How the selection of a function ended early. -/
inductive Halt
  /-- The limit that was met is in the log. -/
  | reported
  | fault (c : Fault.Cause)

/-- A step at `span` as one that appends the limit that it meets and then stops. -/
def recorded (f : Func) (span : Span) (x : Select Unit) : EStateM Halt Log Unit := fun l =>
  match x l.state with
  | .ok () s => .ok () { l with state := s }
  | .error (.limit m) s => .error .reported ⟨s, l.diagnostics ++ [m.diagnostic f.name span]⟩
  | .error (.fault c) s => .error (.fault c) { l with state := s }

def recordAll (cx : Context) : List (Located Instruction) → EStateM Halt Log Unit
  | [] => return
  | i :: rest => do
    recorded cx.function (i.span.orElse cx.function.span) (codeOf cx i.val)
    recordAll cx rest

def record (cx : Context) : EStateM Halt Log Unit := do
  recorded cx.function cx.function.span (prologue cx)
  recordAll cx cx.function.instructions

/-- The code and the diagnostics of a function; a limit is no reason not to have them. -/
def taken (f : Func) : EStateM.Result Halt Log Unit → Except Fault Selected
  | .ok () l | .error .reported l => .ok ⟨l.state.code, l.diagnostics⟩
  | .error (.fault c) _ => .error ⟨f.name, c⟩

/-- Appends what a function has to what the functions before it have. -/
def recordFunc (t : Target) (out : Selected) (f : Func) : Except Fault Selected := do
  let s ← taken f (record ⟨t, f⟩ { state := { pending := reads f } })
  return ⟨out.code ++ s.code, out.diagnostics ++ s.diagnostics⟩

def recordModule (t : Target) (m : Module) : Except Failure Selected :=
  if m.isComplete then
    match m.functions.foldlM (recordFunc t) ⟨[], []⟩ with
    | .ok s => .ok s
    | .error e => .error (.internal (.selection e))
  else .error (.incomplete m.incomplete)

variable {t : Target} {f : Func} {ds : List Diagnostic}

/-- A segment after other diagnostics. -/
def Segment.after (ds : List Diagnostic) (seg : Segment) : Selected :=
  ⟨seg.code, ds ++ seg.diagnostic.toList⟩

/-- One step: the log is read off where the selection ends. -/
theorem taken_recorded {span : Span} {x : Select Unit} {k : EStateM Halt Log Unit}
    {next : State → Except Fault Segment}
    (hk : ∀ s, taken f (k ⟨s, ds⟩) = Segment.after ds <$> next s) (s : State) :
    taken f ((do recorded f span x; k) ⟨s, ds⟩) =
      Segment.after ds <$> proceed f span (x s) next := by
  change taken f (EStateM.bind (recorded f span x) (fun _ => k) ⟨s, ds⟩) = _
  unfold EStateM.bind recorded
  cases h : x s with
  | ok u s' => simpa only [h, proceed] using hk s'
  | error stop s' => cases stop <;> rfl

theorem taken_recordAll (cx : Context) (is : List (Located Instruction)) (s : State) :
    taken cx.function (recordAll cx is ⟨s, ds⟩) = Segment.after ds <$> codeOfAll cx is s := by
  induction is generalizing s with
  | nil => exact congrArg (fun l => Except.ok (⟨s.code, l⟩ : Selected)) (List.append_nil ds).symm
  | cons i rest ih => exact taken_recorded ih s

theorem recordFunc_eq (out : Selected) (f : Func) : recordFunc t out f =
    (fun seg => ⟨out.code ++ seg.code, out.diagnostics ++ seg.diagnostic.toList⟩) <$>
      codeOfFunc t f := by
  have htaken : taken f (record ⟨t, f⟩ { state := { pending := reads f } }) =
      Segment.after [] <$> codeOfFunc t f :=
    taken_recorded (fun s => taken_recordAll ⟨t, f⟩ f.instructions s) _
  rw [recordFunc, htaken, bind_map_left]
  rfl

theorem foldlM_recordFunc (fs : List Func) (out : Selected) : fs.foldlM (recordFunc t) out =
    (fun segs => ⟨out.code ++ segs.flatMap (·.code),
      out.diagnostics ++ segs.filterMap (·.diagnostic)⟩) <$> fs.mapM (codeOfFunc t) := by
  induction fs generalizing out with
  | nil => simp
  | cons f fs ih =>
    rw [List.foldlM_cons, List.mapM_cons, recordFunc_eq, bind_map_left]
    simp only [ih, map_bind, bind_pure_comp, Functor.map_map]
    refine bind_congr fun seg => congrArg (· <$> _) (funext fun segs => ?_)
    cases hd : seg.diagnostic <;> simp [hd]

/-- Modules have the same code and the same diagnostics with and without the log. -/
theorem recordModule_eq_selectModule (t : Target) (m : Module) :
    recordModule t m = selectModule t m := by
  unfold recordModule selectModule
  rw [foldlM_recordFunc]
  cases m.functions.mapM (codeOfFunc t) <;> rfl

end Straightline.Selection
