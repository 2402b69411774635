import Straightline.Proofs.Lowering.Attempt

/-!
The reads of a statement. A read stops its statement if the name is not in scope, which is reported, or
if its declaration failed, which has been reported by then. In scope are the names that were declared,
whether or not that went through.
-/
namespace Straightline

open IR Source

/-- The expressions that a statement computes; an assignment is rejected as it stands. -/
def Source.Stmt.computed : Stmt → List Expr
  | .bind _ e _ | .eval e _ => [e]
  | .ret e _ => e.toList
  | .assign .. => []

namespace Lowering

/-- Lowering the expressions from a body gets to the read of `x` at `span`: nothing before it stops. -/
inductive Reaches (cx : Context) (x : String) (span : Span) : List Expr → Body → Prop
  | here {rest : List Expr} {b : Body} : Reaches cx x span (.name x span :: rest) b
  | operand {op : String} {o : BinOp} {lhs rhs : Expr} {bspan : Span} {rest : List Expr} {b : Body}
      (hop : BinOp.ofSymbol? op = some o) (h : Reaches cx x span [lhs, rhs] b) :
      Reaches cx x span (.binary op lhs rhs bspan :: rest) b
  | arg {f : String} {args : List Expr} {fspan cspan : Span} {rest : List Expr} {b : Body}
      (h : Reaches cx x span args b) : Reaches cx x span (.call (.name f fspan) args cspan :: rest) b
  | later {e : Expr} {rest : List Expr} {v : Value} {b b' : Body} (he : e.lower cx b = .ok v b')
      (h : Reaches cx x span rest b') : Reaches cx x span (e :: rest) b

variable {cx : Context} {x : String} {span span₀ : Span} {es : List Expr} {n : Nat}
  {ops : List (Located Op)} {sc : Scope} {stop : Stop} {b b' : Body} {s : Stmt}

/-! ## Where a read stops -/

theorem read_unresolved (hx : b.scope.find? x = none) :
    read cx x span b = .error (.problem (.unresolved x cx.function) span) b := by
  rw [read_apply, hx]
  rfl

theorem read_tainted (hx : b.scope.find? x = some .failed) : read cx x span b = .error .tainted b := by
  rw [read_apply, hx]
  rfl

theorem lower_binary_of_lowerAll {op : String} {o : BinOp} {lhs rhs : Expr} {bspan : Span}
    (hop : BinOp.ofSymbol? op = some o) (h : Expr.lowerAll cx [lhs, rhs] b = .error stop b') :
    (Expr.binary op lhs rhs bspan).lower cx b = .error stop b' := by
  simp only [Expr.lower, hop]
  rcases lowerAll_cons_eq_error.1 h with h | ⟨l, b₁, hl, h⟩
  · exact bind_eq_error.2 (.inl h)
  rcases lowerAll_cons_eq_error.1 h with h | ⟨r, b₂, -, h⟩
  · exact bind_eq_error.2 (.inr ⟨l, b₁, hl, bind_eq_error.2 (.inl h)⟩)
  · cases h

theorem lower_call_of_lowerAll {f : String} {fspan cspan : Span} {args : List Expr}
    (h : Expr.lowerAll cx args b = .error stop b') :
    (Expr.call (.name f fspan) args cspan).lower cx b = .error stop b' := by
  simp only [Expr.lower]
  exact bind_eq_error.2 (.inr ⟨f, b, rfl, bind_eq_error.2 (.inl h)⟩)

/-- Expressions stop at a read that is reached and does not go through. -/
theorem Reaches.stops (h : Reaches cx x span es b) (hb : b = .filling n ops span₀ sc)
    (hread : ∀ {b}, b.scope = sc → read cx x span b = .error stop b) :
    ∃ b', Expr.lowerAll cx es b = .error stop b' := by
  induction h generalizing n ops span₀ with
  | here =>
    subst hb
    refine ⟨.filling n ops span₀ sc, lowerAll_cons_eq_error.2 (.inl ?_)⟩
    simp only [Expr.lower]
    exact map_eq_error.2 (hread rfl)
  | operand hop _ ih =>
    obtain ⟨b', hb'⟩ := ih hb
    exact ⟨b', lowerAll_cons_eq_error.2 (.inl (lower_binary_of_lowerAll hop hb'))⟩
  | arg _ ih =>
    obtain ⟨b', hb'⟩ := ih hb
    exact ⟨b', lowerAll_cons_eq_error.2 (.inl (lower_call_of_lowerAll hb'))⟩
  | later he _ ih =>
    subst hb
    obtain ⟨new, m, span', -, hb⟩ := flattens_of_lower he
    obtain ⟨b', hb'⟩ := ih hb
    exact ⟨b', lowerAll_cons_eq_error.2 (.inr ⟨_, _, he, hb'⟩)⟩

theorem literal_ne_unresolved {l : Literal} {lspan : Span} {f : String} :
    l.lower lspan b ≠ .error (.problem (.unresolved x f) span) b' := by
  cases l with
  | int text =>
    simp only [Literal.lower]
    cases Numeral.int64? text.toList <;> intro h <;> cases h
  | float text =>
    simp only [Literal.lower]
    cases Numeral.Binary64.ofText? text.toList <;> intro h <;> cases h
  | string | bool =>
    intro h
    cases h

theorem functionName_ne_unresolved {e : Expr} {f : String} :
    e.functionName b ≠ .error (.problem (.unresolved x f) span) b' := by
  cases e <;> exact nofun

/-- In the function `f`, lowering the expressions gets to a read of a name that is not in scope. -/
structure Misses (cx : Context) (f x : String) (span : Span) (es : List Expr) (b : Body) : Prop where
  function : f = cx.function
  unknown : b.scope.find? x = none
  reached : Reaches cx x span es b

/-- An unresolved identifier is one that is read and not in scope. -/
theorem misses_of_unresolved {f : String}
    (h : Expr.lowerAll cx es (.filling n ops span₀ sc) = .error (.problem (.unresolved x f) span) b) :
    Misses cx f x span es (.filling n ops span₀ sc) := by
  refine lowerAll_error_induction
    (motive := fun es n ops span₀ _ => Misses cx f x span es (.filling n ops span₀ sc)) ?_ ?_ ?_ ?_ ?_ h
  · intro l lspan rest n ops span₀ b hl
    exact (literal_ne_unresolved hl).elim
  · intro y yspan rest n ops span₀ b hy
    cases hfind : sc.find? y with
    | none =>
      rw [read_unresolved hfind] at hy
      cases hy
      exact ⟨rfl, hfind, .here⟩
    | some binding =>
      rw [read_apply, show (Body.filling n ops span₀ sc).scope = sc from rfl, hfind] at hy
      cases binding <;> cases hy
  · intro op lhs rhs bspan rest n ops span₀ b ih hb
    rcases lower_binary_eq_error hb with ⟨-, hstop, -⟩ | ⟨o, hop, hargs | ⟨l, r, -, -, hstop⟩⟩
    · cases hstop
    · obtain ⟨hf, hx, hreach⟩ := ih hargs
      exact ⟨hf, hx, .operand hop hreach⟩
    · cases hstop
  · intro callee args cspan rest n ops span₀ b ih hb
    rcases lower_call_eq_error hb with
      hf | ⟨g, fspan, rfl, hargs | ⟨values, m, ops', span', -, -, hstop, -⟩⟩
    · exact (functionName_ne_unresolved hf).elim
    · obtain ⟨hf, hx, hreach⟩ := ih hargs
      exact ⟨hf, hx, .arg hreach⟩
    · cases hstop
  · rintro e rest v new n m ops span₀ span' b hv - ⟨hf, hx, hreach⟩
    exact ⟨hf, hx, .later hv hreach⟩

/-! ## Statements -/

theorem lowerAll_singleton_eq_error {e : Expr} :
    Expr.lowerAll cx [e] b = .error stop b' ↔ e.lower cx b = .error stop b' := by
  refine lowerAll_cons_eq_error.trans ⟨?_, .inl⟩
  rintro (h | ⟨v, b₁, -, h⟩)
  · exact h
  · cases h

/-- The reads of a statement stop it as they stop the expressions that it computes. -/
theorem lower_eq_error_iff (hvoid : ∀ vspan, stop ≠ .problem .voidValue vspan)
    (hassign : ∀ y aspan, stop ≠ .problem (.assignment y) aspan) :
    (∃ b', s.lower cx (.filling n ops span₀ sc) = .error stop b') ↔
      ∃ b', Expr.lowerAll cx s.computed (.filling n ops span₀ sc) = .error stop b' := by
  match s with
  | .bind y init sspan =>
    simp only [bind_lower_eq_error, Stmt.computed, lowerAll_singleton_eq_error]
    constructor
    · rintro ⟨-, b', h, -⟩
      exact ⟨b', h⟩
    · rintro ⟨b', h⟩
      exact ⟨_, b', h, rfl⟩
  | .ret none sspan =>
    constructor <;> rintro ⟨b', h⟩ <;> cases h
  | .ret (some e) sspan =>
    simp only [ret_lower_eq_error, Stmt.computed, Option.toList, lowerAll_singleton_eq_error]
  | .eval (.call callee args cspan) sspan =>
    simp only [Stmt.lower, lowerEffect_call_eq_error, Stmt.computed, lowerAll_singleton_eq_error]
    refine exists_congr fun b' => ⟨?_, fun h => ?_⟩
    · rintro (hf | ⟨f, fspan, rfl, hargs⟩)
      · simp only [Expr.lower]
        exact bind_eq_error.2 (.inl hf)
      · exact lower_call_of_lowerAll hargs
    · rcases lower_call_eq_error h with
        hf | ⟨f, fspan, rfl, hargs | ⟨values, m, ops', span', -, -, hstop, -⟩⟩
      · exact .inl hf
      · exact .inr ⟨f, fspan, rfl, hargs⟩
      · exact (hvoid cspan hstop).elim
  | .eval (.literal ..) _ | .eval (.name ..) _ | .eval (.binary ..) _ =>
    simp only [Stmt.computed, lowerAll_singleton_eq_error]
    exact exists_congr fun _ => map_eq_error
  | .assign y e sspan =>
    constructor
    · rintro ⟨b', h⟩
      cases h
      exact (hassign y sspan rfl).elim
    · rintro ⟨b', h⟩
      cases h

/-- A statement is stopped by an unresolved identifier just where it reads a name not in scope. -/
theorem unresolved_iff {f : String} :
    (∃ b', s.lower cx (.filling n ops span₀ sc) = .error (.problem (.unresolved x f) span) b') ↔
      Misses cx f x span s.computed (.filling n ops span₀ sc) := by
  refine (lower_eq_error_iff (by simp) (by simp)).trans ⟨?_, ?_⟩
  · rintro ⟨b', h⟩
    exact misses_of_unresolved h
  · rintro ⟨rfl, hx, hreach⟩
    exact hreach.stops rfl fun hsc => read_unresolved (hsc ▸ hx)

/-- A statement that reads a name whose declaration failed is abandoned without a report. -/
theorem tainted_of_reaches (h : Reaches cx x span s.computed (.filling n ops span₀ sc))
    (hx : sc.find? x = some .failed) :
    ∃ b', s.lower cx (.filling n ops span₀ sc) = .error .tainted b' :=
  (lower_eq_error_iff (by simp) (by simp)).2 (h.stops rfl fun hsc => read_tainted (hsc ▸ hx))

/-! ## Names in scope -/

/-- The scope knows what it did before, and the names. -/
structure Scope.Extends (sc : Scope) (names : List String) (sc' : Scope) : Prop where
  known : ∀ x ∈ names, sc'.find? x ≠ none
  kept : ∀ x ∉ names, sc'.find? x = sc.find? x

namespace Scope.Extends

variable {sc' sc'' : Scope} {names more : List String}

theorem refl (sc : Scope) : sc.Extends [] sc := ⟨nofun, fun _ _ => rfl⟩

theorem set (sc : Scope) (x : String) (binding : Binding) : sc.Extends [x] (sc.set x binding) := by
  refine ⟨List.forall_mem_singleton.2 (by simp), fun y hy => ?_⟩
  exact find?_set_of_ne sc binding (List.mem_singleton.not.1 hy)

theorem trans (h : sc.Extends names sc') (h' : sc'.Extends more sc'') :
    sc.Extends (names ++ more) sc'' := by
  constructor
  · intro x hx
    by_cases hmore : x ∈ more
    · exact h'.known x hmore
    · rw [h'.kept x hmore]
      exact h.known x ((List.mem_append.1 hx).resolve_right hmore)
  · intro x hx
    rw [List.mem_append, not_or] at hx
    rw [h'.kept x hx.2, h.kept x hx.1]

theorem setParam (sc : Scope) (x : String) (ty : Option Ty) : sc.Extends [x] (sc.setParam x ty) := by
  cases ty with
  | none => exact set sc x .failed
  | some ty =>
    change sc.Extends [x] (if sc.find? x = some .failed then sc else sc.set x (.typed ty))
    split
    next hfailed => exact ⟨List.forall_mem_singleton.2 (by simp [hfailed]), fun _ _ => rfl⟩
    next => exact set sc x (.typed ty)

/-- A statement declares its name, whether or not it goes through. -/
theorem attempt (cx : Context) (s : Stmt) (n : Nat) (ops : List (Located Op)) (span : Span)
    (sc : Scope) : (attempt cx s (.filling n ops span sc)).2.builder.isTerminated = true ∨
      ∃ m ops' span' sc', (Lowering.attempt cx s (.filling n ops span sc)).2 =
        .filling m ops' span' sc' ∧ sc.Extends s.declared?.toList sc' := by
  cases h : s.lower cx (.filling n ops span sc) with
  | ok u b' =>
    rw [attempt_ok rfl h]
    rcases flattens_of_stmt h with ⟨new, sc', m, span', hnew, rfl⟩ | ⟨new, t, m, span', -, rfl⟩
    · refine .inr ⟨m, _, span', sc', rfl, ?_⟩
      cases hnew with
      | bind => exact set ..
      | eval | evalVoid => exact refl _
    · exact .inl rfl
  | error stop b' =>
    rw [attempt_error rfl h]
    obtain ⟨-, new, sc', m, span', hnew, rfl⟩ := abandons_of_stmt h
    refine .inr ⟨m, _, span', sc', rfl, ?_⟩
    cases hnew with
    | bind => exact set ..
    | ret | eval | evalCallee | evalArgs | assign => exact refl _

theorem attemptAll (cx : Context) (stmts : List Stmt) (n : Nat) (ops : List (Located Op))
    (span : Span) (sc : Scope) :
    (attemptAll cx stmts (.filling n ops span sc)).2.builder.isTerminated = true ∨
      ∃ m ops' span' sc', (Lowering.attemptAll cx stmts (.filling n ops span sc)).2 =
        .filling m ops' span' sc' ∧ sc.Extends (stmts.filterMap Stmt.declared?) sc' := by
  induction stmts generalizing n ops span sc with
  | nil => exact .inr ⟨n, ops, span, sc, rfl, refl sc⟩
  | cons s rest ih =>
    rw [attemptAll_cons]
    rcases attempt cx s n ops span sc with hdone | ⟨m, ops₁, span₁, sc₁, hs, hsc₁⟩
    · left
      rw [attemptAll_terminated _ hdone]
      exact hdone
    · rw [hs]
      refine (ih m ops₁ span₁ sc₁).imp_right ?_
      rintro ⟨k, ops₂, span₂, sc₂, hrest, hsc₂⟩
      refine ⟨k, ops₂, span₂, sc₂, hrest, ?_⟩
      have hnames : (s :: rest).filterMap Stmt.declared? =
          s.declared?.toList ++ rest.filterMap Stmt.declared? := by
        rw [List.filterMap_cons]
        cases s.declared? <;> rfl
      rw [hnames]
      exact hsc₁.trans hsc₂

theorem params (d : FnDef) : Scope.Extends [] (d.params.map (·.name)) d.scope := by
  unfold FnDef.scope
  generalize ([] : Scope) = sc
  induction d.params generalizing sc with
  | nil => exact refl sc
  | cons p ps ih => exact (setParam sc p.name _).trans (ih _)

end Scope.Extends

end Lowering

end Straightline
