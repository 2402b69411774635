import Straightline.Proofs.Lowering.Ledger

/-!
The instructions of a definition, read off its syntax: which ones, in which order, and where each stands
in the source. There is no builder and no current span here. A temporary's number is the number of
temporaries that the source before it fills. Lowering that reports no error gives just these.
-/
namespace Straightline

open IR Lowering

namespace Lowering.Context

/-- A call of the expression has no value. -/
def isVoid (cx : Context) (callee : Source.Expr) : Bool :=
  callee.name?.all (cx.resultOf · = .nil)

end Lowering.Context

namespace Source

namespace Expr

section

variable (cx : Context)

mutual

/-- How many temporaries an expression fills. -/
def temporaries : Expr → Nat
  | .literal .. => 0
  | .name .. => 1
  | .binary _ lhs rhs _ => lhs.temporaries + rhs.temporaries + 1
  | .call callee args _ => temporariesAll args + if cx.isVoid callee then 0 else 1

def temporariesAll : List Expr → Nat
  | [] => 0
  | e :: rest => e.temporaries + temporariesAll rest

end

variable (vars : List Variable)

mutual

/-- The instructions of an expression, and its value unless it is a void call: what its operands
contribute from left to right, then its own. Temporaries are numbered from `n`. -/
def flatten? (n : Nat) : Expr → Option (List (Located Instruction) × Option Value)
  | .literal l _ => do return ([], some (.const (← l.constant?)))
  | .name x span => do
    let t : Temporary := ⟨n, ← latestTy? vars x⟩
    return ([⟨.op (.load t (.var ⟨x, t.ty⟩)), span⟩], some (.temp t))
  | .binary op lhs rhs span => do
    let b ← BinOp.ofSymbol? op
    let (ls, some l) ← lhs.flatten? n | none
    let (rs, some r) ← rhs.flatten? (n + lhs.temporaries cx) | none
    let t : Temporary := ⟨n + lhs.temporaries cx + rhs.temporaries cx, l.ty⟩
    return (ls ++ rs ++ [⟨.op (.binary b t l r), span⟩], some (.temp t))
  | .call callee args span => do
    let f ← callee.name?
    let (is, values) ← flattenAll? n args
    let t : Option Temporary :=
      if cx.isVoid callee then none else some ⟨n + temporariesAll cx args, cx.resultOf f⟩
    return (is ++ [⟨.op (.call t f values), span⟩], t.map .temp)

/-- What several expressions contribute, and their values. -/
def flattenAll? (n : Nat) : List Expr → Option (List (Located Instruction) × List Value)
  | [] => some ([], [])
  | e :: rest => do
    let (is, some v) ← e.flatten? n | none
    let (more, vs) ← flattenAll? (n + e.temporaries cx) rest
    return (is ++ more, v :: vs)

end

end

end Expr

/-- The instructions of a body up to its first return, or up to one that gives back `atEnd`. -/
def flattenBody? (cx : Context) (atEnd : Option Value) :
    List Variable → Nat → List Stmt → Option (List (Located Instruction))
  | _, _, [] => some [⟨.ret atEnd, .nowhere⟩]
  | _, _, .ret none span :: _ => some [⟨.ret none, span⟩]
  | vars, n, .ret (some e) span :: _ => do
    let (is, some v) ← e.flatten? cx vars n | none
    return is ++ [⟨.ret (some v), span⟩]
  | vars, n, .bind x init span :: rest => do
    let (is, some v) ← init.flatten? cx vars n | none
    let more ← flattenBody? cx atEnd (vars ++ [⟨x, v.ty⟩]) (n + init.temporaries cx) rest
    return is ++ [⟨.op (.alloc ⟨x, v.ty⟩), span⟩, ⟨.op (.store (.var ⟨x, v.ty⟩) v), span⟩] ++ more
  | vars, n, .eval e _ :: rest => do
    let (is, _) ← e.flatten? cx vars n
    let more ← flattenBody? cx atEnd vars (n + e.temporaries cx) rest
    return is ++ more
  | _, _, .assign .. :: _ => none

/-- The instructions of a definition. The entry point gives back zero unless it says otherwise. -/
def FnDef.flatten? (entryPoint : String) (d : FnDef) (results : List (String × Ty)) :
    Option (List (Located Instruction)) :=
  flattenBody? ⟨d.name.val, results⟩
    (if d.name.val = entryPoint then some (.const (.int 0)) else none) d.typedParams 0 d.body

end Source

namespace Lowering

open Source

variable {cx : Context} {sc sc' : Scope} {vars : List Variable} {n m : Nat} {e : Expr}
  {es rest : List Expr} {ops : List (Located Op)} {vs : List Value} {v : Value}

theorem flattenAll?_cons_eq_some {is : List (Located Instruction)} :
    Expr.flattenAll? cx vars n (e :: rest) = some (is, vs) ↔
      ∃ new v more ws, e.flatten? cx vars n = some (new, some v) ∧
        Expr.flattenAll? cx vars (n + e.temporaries cx) rest = some (more, ws) ∧
        is = new ++ more ∧ vs = v :: ws := by
  constructor
  · intro h
    rw [Expr.flattenAll?] at h
    obtain ⟨⟨new, w⟩, hnew, h⟩ := Option.bind_eq_some_iff.1 h
    cases w with
    | none => cases h
    | some v =>
      obtain ⟨⟨more, ws⟩, hmore, h⟩ := Option.bind_eq_some_iff.1 h
      cases h
      exact ⟨new, v, more, ws, hnew, hmore, rfl, rfl⟩
  · rintro ⟨new, v, more, ws, hnew, hmore, rfl, rfl⟩
    simp [Expr.flattenAll?, hnew, hmore]

/-- The operation that computes an expression is its own instruction. -/
theorem OpFor.flatten?_eq {args : List Expr} {values : List Value} {k : Nat} {ty : Ty} {o : Op}
    {is : List (Located Instruction)} (h : OpFor cx e args values ⟨k, ty⟩ o)
    (hargs : Expr.flattenAll? cx vars n args = some (is, values))
    (hk : k = n + Expr.temporariesAll cx args) :
    e.flatten? cx vars n = some (is ++ [⟨.op o, e.span⟩], some (.temp ⟨k, ty⟩)) ∧
      e.temporaries cx = Expr.temporariesAll cx args + 1 := by
  cases h with
  | binary hop hty =>
    obtain ⟨ls, l, more, ws, hl, hmore, rfl, hvs⟩ := flattenAll?_cons_eq_some.1 hargs
    obtain ⟨rs, r, more, ws, hr, hnil, rfl, rfl⟩ := flattenAll?_cons_eq_some.1 hmore
    cases hnil
    cases hvs
    simp only [Expr.temporariesAll, Nat.add_zero] at hk
    refine ⟨?_, by simp [Expr.temporaries, Expr.temporariesAll]⟩
    simp [Expr.flatten?, hop, hl, hr, hk, Nat.add_assoc, Expr.span]
  | @call f fspan span args values k hty =>
    have hvoid : cx.isVoid (.name f fspan) = false := by
      simpa [Context.isVoid, Expr.name?] using hty
    refine ⟨?_, by simp [Expr.temporaries, hvoid]⟩
    simp [Expr.flatten?, Expr.name?, hargs, hvoid, hk, Expr.span]

/-- The operations of expressions are those that their syntax says. -/
theorem Flattens.flattenAll?_eq (h : Flattens cx sc es n ops vs m) (hsc : sc.Agrees vars) :
    Expr.flattenAll? cx vars n es = some (ops.map fun o => ⟨.op o.val, o.span⟩, vs) ∧
      m = n + Expr.temporariesAll cx es := by
  induction h with
  | nil => exact ⟨rfl, rfl⟩
  | @literal l c span rest n m ops vs hc _ ih =>
    obtain ⟨hrest, rfl⟩ := ih
    have hnew : Expr.flatten? cx vars n (.literal l span) = some ([], some (.const c)) := by
      simp [Expr.flatten?, hc]
    refine ⟨flattenAll?_cons_eq_some.2 ⟨_, _, _, _, hnew, hrest, rfl, rfl⟩, ?_⟩
    rw [Expr.temporariesAll, Expr.temporaries, Nat.zero_add]
  | @name x ty span rest n m ops vs hx _ ih =>
    obtain ⟨hrest, rfl⟩ := ih
    have hnew : Expr.flatten? cx vars n (.name x span) =
        some ([⟨.op (.load ⟨n, ty⟩ (.var ⟨x, ty⟩)), span⟩], some (.temp ⟨n, ty⟩)) := by
      simp [Expr.flatten?, hsc x ty hx]
    refine ⟨flattenAll?_cons_eq_some.2 ⟨_, _, _, _, hnew, hrest, rfl, rfl⟩, ?_⟩
    rw [Expr.temporariesAll, Expr.temporaries, Nat.add_assoc]
  | computed _ he _ ihargs ih =>
    obtain ⟨hargs, rfl⟩ := ihargs
    obtain ⟨hrest, rfl⟩ := ih
    obtain ⟨hnew, hcount⟩ := he.flatten?_eq hargs rfl
    rw [Nat.add_assoc, ← hcount] at hrest
    refine ⟨flattenAll?_cons_eq_some.2 ⟨_, _, _, _, hnew, hrest, by simp, rfl⟩, ?_⟩
    rw [Expr.temporariesAll, hcount]
    omega

theorem Flattens.flatten?_eq (h : Flattens cx sc [e] n ops [v] m) (hsc : sc.Agrees vars) :
    e.flatten? cx vars n = some (ops.map fun o => ⟨.op o.val, o.span⟩, some v) ∧
      m = n + e.temporaries cx := by
  obtain ⟨hall, rfl⟩ := h.flattenAll?_eq hsc
  obtain ⟨new, w, more, ws, hnew, hnil, hops, hv⟩ := flattenAll?_cons_eq_some.1 hall
  cases hnil
  cases hv
  exact ⟨by rw [hops, hnew, List.append_nil], by simp [Expr.temporariesAll]⟩

/-- The code of a body is what its syntax says. -/
theorem BodyFlattens.flattenBody?_eq {atEnd t : Located (Option Value)} {stmts : List Stmt}
    (h : BodyFlattens cx atEnd sc n stmts ops t) (hsc : sc.Agrees vars)
    (hend : atEnd.span = .nowhere) :
    flattenBody? cx atEnd.val vars n stmts =
      some (Block.instructions ⟨Block.entryName, ops, some t⟩) := by
  induction h generalizing vars with
  | nil => simp [flattenBody?, Block.instructions, hend]
  | step hs _ ih =>
    cases hs with
    | @bind x init span m ops v hinit =>
      obtain ⟨hnew, rfl⟩ := hinit.flatten?_eq hsc
      have hrest := ih (hsc.set_typed ⟨x, v.ty⟩)
      simp [flattenBody?, hnew, hrest, Block.instructions]
    | eval he =>
      obtain ⟨hnew, rfl⟩ := he.flatten?_eq hsc
      simp [flattenBody?, hnew, ih hsc, Block.instructions]
    | @evalVoid f args fspan cspan span m ops values hargs hty =>
      obtain ⟨hnew, rfl⟩ := hargs.flattenAll?_eq hsc
      have hvoid : cx.isVoid (.name f fspan) = true := by simpa [Context.isVoid, Expr.name?] using hty
      simp [flattenBody?, Expr.flatten?, Expr.temporaries, Expr.name?, hvoid, hnew, ih hsc,
        Block.instructions]
  | ret hs =>
    cases hs with
    | none => simp [flattenBody?, Block.instructions]
    | value he =>
      obtain ⟨hnew, -⟩ := he.flatten?_eq hsc
      simp [flattenBody?, hnew, Block.instructions]

end Lowering

/-- Emission order and source positions follow the source. The code of a definition without errors is
one block, whose instructions with their spans are those that the syntax says. -/
theorem lower_follows_source (entryPoint : String) (d : Source.FnDef) (results : List (String × Ty)) :
    ∃ f ds, d.lower entryPoint results = .ok (f, ds) ∧
      (Diagnostic.anyError ds = false → ∃ b, f.blocks = [b] ∧ b.name = Block.entryName ∧
        d.flatten? entryPoint results = some b.instructions) := by
  obtain ⟨f, ds, -, -, h, -⟩ := Source.FnDef.lower_leaves entryPoint d results
  refine ⟨f, ds, h, fun hds => ?_⟩
  obtain ⟨-, ops, t, hbody, rfl⟩ := Source.FnDef.flattens_of_lower h hds
  exact ⟨_, rfl, rfl, hbody.flattenBody?_eq d.scope_agrees rfl⟩

/-- A body that declares a parameter's name once more, drops a call that returns nothing, and goes on
after its return. -/
def redeclaringDefinition : Source.FnDef where
  name := ⟨"scale", ⟨0, 5, 10⟩⟩
  params := [⟨"x", ⟨"int", ⟨0, 14, 17⟩⟩⟩]
  result := some ⟨"int", ⟨0, 22, 25⟩⟩
  body := [
    .bind "x" (.binary "+" (.call (.name "f" ⟨0, 36, 37⟩) [.literal (.int "1") ⟨0, 38, 39⟩] ⟨0, 36, 40⟩)
      (.name "x" ⟨0, 43, 44⟩) ⟨0, 36, 44⟩) ⟨0, 28, 45⟩,
    .eval (.call (.name "g" ⟨0, 46, 47⟩) [.name "x" ⟨0, 48, 49⟩] ⟨0, 46, 50⟩) ⟨0, 46, 51⟩,
    .ret (some (.name "x" ⟨0, 59, 60⟩)) ⟨0, 52, 61⟩,
    .eval (.name "x" ⟨0, 62, 63⟩) ⟨0, 62, 64⟩]

theorem lower_follows_source_redeclaring :
    ∃ f ds b, redeclaringDefinition.lower "main" [("f", .int), ("g", .nil)] = .ok (f, ds) ∧
      Diagnostic.anyError ds = false ∧ ds.length = 1 ∧ f.blocks = [b] ∧ b.instructions = [
        ⟨.op (.call (some ⟨0, .int⟩) "f" [.const (.int 1)]), ⟨0, 36, 40⟩⟩,
        ⟨.op (.load ⟨1, .int⟩ (.var ⟨"x", .int⟩)), ⟨0, 43, 44⟩⟩,
        ⟨.op (.binary .add ⟨2, .int⟩ (.temp ⟨0, .int⟩) (.temp ⟨1, .int⟩)), ⟨0, 36, 44⟩⟩,
        ⟨.op (.alloc ⟨"x", .int⟩), ⟨0, 28, 45⟩⟩,
        ⟨.op (.store (.var ⟨"x", .int⟩) (.temp ⟨2, .int⟩)), ⟨0, 28, 45⟩⟩,
        ⟨.op (.load ⟨3, .int⟩ (.var ⟨"x", .int⟩)), ⟨0, 48, 49⟩⟩,
        ⟨.op (.call none "g" [.temp ⟨3, .int⟩]), ⟨0, 46, 50⟩⟩,
        ⟨.op (.load ⟨4, .int⟩ (.var ⟨"x", .int⟩)), ⟨0, 59, 60⟩⟩,
        ⟨.ret (some (.temp ⟨4, .int⟩)), ⟨0, 52, 61⟩⟩] := by
  obtain ⟨f, ds, h, hclean⟩ :=
    lower_follows_source "main" redeclaringDefinition [("f", .int), ("g", .nil)]
  have hds : Diagnostic.anyError ds = false ∧ ds.length = 1 := by
    have heval : (redeclaringDefinition.lower "main" [("f", .int), ("g", .nil)]).toOption.all
        (fun r => !Diagnostic.anyError r.2 && r.2.length == 1) = true := by decide +kernel
    simpa [h, Except.toOption] using heval
  obtain ⟨b, hb, -, hflat⟩ := hclean hds.1
  refine ⟨f, ds, b, h, hds.1, hds.2, hb, Option.some.inj (hflat.symm.trans ?_)⟩
  decide +kernel

end Straightline
