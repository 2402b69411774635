import Straightline.Proofs.Lowering.Attempt

/-!
Lowering with a log. What there is to say about a construct is put at the end of a list before the
construct is abandoned, so whoever goes on after it need not be told why. Main statement: with the log,
definitions have the same functions and the same diagnostics as without it.
-/
namespace Straightline

open IR Source

namespace Lowering

/-- A body under construction, with what has been reported. -/
structure Log where
  body : Body
  diagnostics : List Diagnostic

/-- How a construct was abandoned. -/
inductive Abort
  /-- What there is to report about it is in the log. -/
  | reported
  | fault (e : BuildError)

abbrev Record := EStateM Abort Log

namespace Record

variable {α : Type}

def report (p : Problem) (span : Span) : Record α := do
  modify fun l => { l with diagnostics := l.diagnostics ++ [p.diagnostic span] }
  throw .reported

def build (x : Build α) : Record α := fun l =>
  match x l.body.builder with
  | .ok a builder => .ok a { l with body.builder := builder }
  | .error e builder => .error (.fault e) { l with body.builder := builder }

def buildAt (span : Span) (x : Build α) : Record α := do
  build (Builder.setSpan span)
  build x

def declare (name : String) (binding : Binding) : Record Unit :=
  modify fun l => { l with body.scope := l.body.scope.set name binding }

/-- If `x` is abandoned, the name counts as one whose declaration failed. -/
def declaring (name : String) (x : Record α) : Record α :=
  tryCatch x fun abort => do
    declare name .failed
    throw abort

/-- A name whose declaration failed has been reported there. -/
def read (cx : Context) (name : String) (span : Span) : Record Temporary := do
  match (← get).body.scope.find? name with
  | some .failed => throw .reported
  | none => report (.unresolved name cx.function) span
  | some (.typed ty) => buildAt span (Builder.load (.var ⟨name, ty⟩))

def literal (span : Span) : Literal → Record Constant
  | .int text => match Numeral.int64? text.toList with
    | some n => return .int n
    | none => report (.integerTooWide text) span
  | .float text => match Numeral.Binary64.ofText? text.toList with
    | some x => return .float x
    | none => report (.malformedFloat text) span
  | .string s => return .string s
  | .bool b => return .bool b

def functionName : Expr → Record String
  | .name f _ => return f
  | e => report (.notCallable e.describe) e.span

mutual

def expr (cx : Context) : Expr → Record Value
  | .literal l span => .const <$> literal span l
  | .name n span => .temp <$> read cx n span
  | .binary op lhs rhs span => do
    match BinOp.ofSymbol? op with
    | none => report (.unknownOperator op) span
    | some binOp =>
      let l ← expr cx lhs
      let r ← expr cx rhs
      if l.ty = r.ty then .temp <$> buildAt span (Builder.binary binOp l r)
      else report (.operandTypes op l.ty r.ty) span
  | .call callee args span => do
    let f ← functionName callee
    let values ← exprs cx args
    match ← buildAt span (Builder.call f values (cx.resultOf f)) with
    | some t => return .temp t
    | none => report .voidValue span

def exprs (cx : Context) : List Expr → Record (List Value)
  | [] => return []
  | e :: rest => do
    let v ← expr cx e
    let vs ← exprs cx rest
    return v :: vs

end

def effect (cx : Context) : Expr → Record Unit
  | .call callee args span => do
    let f ← functionName callee
    let values ← exprs cx args
    discard <| buildAt span (Builder.call f values (cx.resultOf f))
  | e => discard <| expr cx e

def stmt (cx : Context) : Stmt → Record Unit
  | .bind name init span => do
    let value ← declaring name (expr cx init)
    let v ← buildAt span (Builder.alloc name value.ty)
    build (Builder.store (.var v) value)
    declare name (.typed value.ty)
  | .ret none span => buildAt span (Builder.ret none)
  | .ret (some e) span => do
    let value ← expr cx e
    buildAt span (Builder.ret (some value))
  | .eval e _ => effect cx e
  | .assign name _ span => report (.assignment name) span

/-- Statements in order; the answer says whether all of them went through. -/
def body (cx : Context) : List Stmt → Log → Except BuildError (Bool × Log)
  | [], l => .ok (true, l)
  | s :: rest, l =>
    if l.body.builder.isTerminated then
      .ok (true, { l with
        diagnostics := l.diagnostics ++ [Problem.unreachable.diagnostic s.span] })
    else match stmt cx s l with
      | .ok () l => body cx rest l
      | .error .reported l => do
        let r ← body cx rest l
        return (false, r.2)
      | .error (.fault e) _ => .error e

/-- The function that a definition stands for, and the log at its end. -/
def definition (entryPoint : String) (d : FnDef) (results : List (String × Ty)) :
    Except BuildError (Func × List Diagnostic) := do
  let header := d.headerProblems entryPoint
  let r ← body ⟨d.name.val, results⟩ d.body ⟨d.start, header⟩
  let f ← d.close entryPoint (header.isEmpty && r.1) r.2.body.builder
  return (f, r.2.diagnostics)

end Record

/-! ## Steps -/

def Stop.abort : Stop → Abort
  | .fault e => .fault e
  | .problem .. | .tainted => .reported

/-- A step that carries its report out, as one that has put it into the log. -/
def recorded {α : Type} (x : Lower α) : Record α := fun l =>
  match x l.body with
  | .ok a b => .ok a { l with body := b }
  | .error stop b => .error stop.abort ⟨b, l.diagnostics ++ stop.diagnostics⟩

variable {α β : Type} {x : Lower α} {cx : Context}

theorem recorded_bind (f : α → Lower β) :
    recorded (x >>= f) = recorded x >>= fun a => recorded (f a) := by
  funext l
  change recorded (EStateM.bind x f) l = EStateM.bind (recorded x) (fun a => recorded (f a)) l
  cases h : x l.body <;> simp only [recorded, EStateM.bind, h]

theorem recorded_pure (a : α) : recorded (pure a) = pure a := rfl

theorem recorded_map (f : α → β) : recorded (f <$> x) = f <$> recorded x := by
  rw [map_eq_pure_bind, map_eq_pure_bind, recorded_bind]
  rfl

theorem recorded_discard : recorded (discard x) = discard (recorded x) :=
  recorded_map (Function.const α PUnit.unit)

/-- Stopping with a problem is reporting it and then stopping. -/
theorem recorded_fail (p : Problem) (span : Span) :
    recorded (fail p span : Lower α) = Record.report p span := rfl

/-- What was reported before is not reported again. -/
theorem recorded_tainted : recorded (throw .tainted : Lower α) = throw .reported := by
  funext l
  change EStateM.Result.error Abort.reported (⟨l.body, l.diagnostics ++ []⟩ : Log) = .error _ l
  rw [List.append_nil]

theorem recorded_build (y : Build α) : recorded (build y) = Record.build y := by
  funext l
  cases h : y l.body.builder <;> simp [recorded, build, Record.build, h, Stop.abort, Stop.diagnostics]

theorem recorded_buildAt (span : Span) (y : Build α) :
    recorded (buildAt span y) = Record.buildAt span y := by
  simp only [buildAt, Record.buildAt, recorded_bind, recorded_build]

theorem recorded_declaring (name : String) :
    recorded (declaring name x) = Record.declaring name (recorded x) := by
  funext l
  change _ = EStateM.tryCatch (recorded x) _ l
  cases h : x l.body with
  | ok a b => simp only [recorded, declaring, EStateM.tryCatch, h]
  | error stop b =>
    simp only [recorded, declaring, EStateM.tryCatch, h]
    rfl

theorem recorded_read (name : String) (span : Span) :
    recorded (read cx name span) = Record.read cx name span := by
  funext l
  rw [recorded, read_apply]
  change _ = (match l.body.scope.find? name with
    | some .failed => throw Abort.reported
    | none => Record.report (.unresolved name cx.function) span
    | some (.typed ty) => Record.buildAt span (Builder.load (.var ⟨name, ty⟩)) : Record Temporary) l
  cases l.body.scope.find? name with
  | none => rfl
  | some binding =>
    cases binding with
    | failed => exact congrFun recorded_tainted l
    | typed ty => exact congrFun (recorded_buildAt span (Builder.load (.var ⟨name, ty⟩))) l

theorem recorded_literal (l : Literal) (span : Span) :
    recorded (l.lower span) = Record.literal span l := by
  cases l with
  | int text =>
    rw [Literal.lower, Record.literal]
    cases Numeral.int64? text.toList <;> rfl
  | float text =>
    rw [Literal.lower, Record.literal]
    cases Numeral.Binary64.ofText? text.toList <;> rfl
  | string | bool => rfl

theorem recorded_functionName (e : Expr) : recorded e.functionName = Record.functionName e := by
  cases e <;> rfl

theorem recorded_lowerAll {es : List Expr} (h : ∀ e ∈ es, recorded (e.lower cx) = Record.expr cx e) :
    recorded (Expr.lowerAll cx es) = Record.exprs cx es := by
  induction es with
  | nil => rfl
  | cons e es ih =>
    obtain ⟨he, hes⟩ := List.forall_mem_cons.1 h
    simp only [Expr.lowerAll, Record.exprs, recorded_bind, recorded_pure, he, ih hes]

theorem recorded_expr (e : Expr) : recorded (e.lower cx) = Record.expr cx e := by
  induction e using Expr.induction with
  | literal l span => rw [Expr.lower, Record.expr, recorded_map, recorded_literal]
  | name n span => rw [Expr.lower, Record.expr, recorded_map, recorded_read]
  | binary op lhs rhs span ihl ihr =>
    rw [Expr.lower, Record.expr]
    cases BinOp.ofSymbol? op with
    | none => exact recorded_fail ..
    | some binOp =>
      simp only [recorded_bind, ihl, ihr]
      refine bind_congr fun l => bind_congr fun r => ?_
      split
      · rw [recorded_map, recorded_buildAt]
      · exact recorded_fail ..
  | call callee args span ih =>
    rw [Expr.lower, Record.expr]
    simp only [recorded_bind, recorded_functionName, recorded_lowerAll ih, recorded_buildAt]
    refine bind_congr fun f => bind_congr fun values => bind_congr fun t => ?_
    cases t <;> rfl

theorem recorded_effect (e : Expr) : recorded (e.lowerEffect cx) = Record.effect cx e := by
  cases e with
  | call callee args span =>
    have hargs : recorded (Expr.lowerAll cx args) = Record.exprs cx args :=
      recorded_lowerAll fun e _ => recorded_expr e
    simp only [Expr.lowerEffect, Record.effect, recorded_bind, recorded_functionName, hargs,
      recorded_discard, recorded_buildAt]
  | literal | name | binary =>
    simp only [Expr.lowerEffect, Record.effect, recorded_discard, recorded_expr]

theorem recorded_stmt (s : Stmt) : recorded (s.lower cx) = Record.stmt cx s := by
  match s with
  | .bind name init span =>
    simp only [Stmt.lower, Record.stmt, recorded_bind, recorded_declaring, recorded_expr,
      recorded_buildAt, recorded_build]
    rfl
  | .ret none span => exact recorded_buildAt ..
  | .ret (some e) span =>
    simp only [Stmt.lower, Record.stmt, recorded_bind, recorded_expr, recorded_buildAt]
  | .eval e span => exact recorded_effect e
  | .assign name e span => exact recorded_fail ..

/-! ## Bodies -/

/-- What is left of a body at its end. -/
def outcome (r : Bool × Log) : BodyOutcome := ⟨r.2.body.builder, r.2.diagnostics, r.1⟩

/-- A body after other diagnostics. -/
def BodyOutcome.after (ds : List Diagnostic) (r : BodyOutcome) : BodyOutcome :=
  { r with diagnostics := ds ++ r.diagnostics }

/-- The log at the end of a body is the one at its beginning with the body's diagnostics after it. -/
theorem outcome_body (stmts : List Stmt) (l : Log) : outcome <$> Record.body cx stmts l =
    BodyOutcome.after l.diagnostics <$> lowerBody cx stmts l.body := by
  induction stmts generalizing l with
  | nil => simp [Record.body, lowerBody, outcome, BodyOutcome.after]
  | cons s rest ih =>
    rw [Record.body, lowerBody, ← recorded_stmt, recorded]
    split
    · rfl
    · cases hs : s.lower cx l.body with
      | ok u b => exact ih _
      | error stop b =>
        have hrest : outcome <$> (do
              let r ← Record.body cx rest ⟨b, l.diagnostics ++ stop.diagnostics⟩
              return (false, r.2)) =
            BodyOutcome.after l.diagnostics <$> (do
              let r ← lowerBody cx rest b
              return ⟨r.builder, stop.diagnostics ++ r.diagnostics, false⟩) := by
          have h := congrArg (Functor.map fun r : BodyOutcome => { r with clean := false })
            (ih ⟨b, l.diagnostics ++ stop.diagnostics⟩)
          simpa [outcome, BodyOutcome.after] using h
        cases stop with
        | fault e => rfl
        | tainted => exact hrest
        | problem p span => exact hrest

/-- Definitions are lowered the same with and without the log. -/
theorem definition_eq_lower (entryPoint : String) (d : FnDef) (results : List (String × Ty)) :
    Record.definition entryPoint d results = d.lower entryPoint results := by
  let header := d.headerProblems entryPoint
  let cx : Context := ⟨d.name.val, results⟩
  let finish (r : BodyOutcome) : Except BuildError (Func × List Diagnostic) := do
    let f ← d.close entryPoint (header.isEmpty && r.clean) r.builder
    return (f, r.diagnostics)
  calc Record.definition entryPoint d results
    _ = outcome <$> Record.body cx d.body ⟨d.start, header⟩ >>= finish := by
      rw [bind_map_left]
      rfl
    _ = BodyOutcome.after header <$> lowerBody cx d.body d.start >>= finish := by
      rw [outcome_body]
    _ = d.lower entryPoint results := by
      rw [bind_map_left]
      rfl

end Lowering

end Straightline
