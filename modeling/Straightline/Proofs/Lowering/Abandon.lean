import Straightline.Proofs.Lowering.Clean

/-!
What lowering leaves behind where it gives up. An abandoned statement keeps the code it had come to,
the name it was to declare counts as failed, and the next statement is tried. So every definition has
a function, whatever is wrong with it.
-/
namespace Straightline

open IR Source

namespace Lowering

/-- With temporaries numbered from `n`, the expressions are given up after the operations; `m` is the
next number. -/
inductive Abandons (cx : Context) (sc : Scope) :
    List Expr → Nat → List (Located Op) → Nat → Prop
  | literal {l : Literal} {span : Span} {rest : List Expr} {n : Nat} (hl : l.constant? = none) :
      Abandons cx sc (.literal l span :: rest) n [] n
  | name {x : String} {span : Span} {rest : List Expr} {n : Nat}
      (hx : ∀ ty, sc.find? x ≠ some (.typed ty)) : Abandons cx sc (.name x span :: rest) n [] n
  | operator {op : String} {lhs rhs : Expr} {span : Span} {rest : List Expr} {n : Nat}
      (hop : BinOp.ofSymbol? op = none) : Abandons cx sc (.binary op lhs rhs span :: rest) n [] n
  | callee {callee : Expr} {args : List Expr} {span : Span} {rest : List Expr} {n : Nat}
      (hf : callee.name? = none) : Abandons cx sc (.call callee args span :: rest) n [] n
  | operands {op : String} {b : BinOp} {lhs rhs : Expr} {span : Span} {rest : List Expr} {n m : Nat}
      {ops : List (Located Op)} (hop : BinOp.ofSymbol? op = some b)
      (h : Abandons cx sc [lhs, rhs] n ops m) :
      Abandons cx sc (.binary op lhs rhs span :: rest) n ops m
  | args {f : String} {fspan span : Span} {args rest : List Expr} {n m : Nat}
      {ops : List (Located Op)} (h : Abandons cx sc args n ops m) :
      Abandons cx sc (.call (.name f fspan) args span :: rest) n ops m
  /-- The operands have different types. -/
  | types {op : String} {b : BinOp} {lhs rhs : Expr} {span : Span} {rest : List Expr} {n m : Nat}
      {ops : List (Located Op)} {l r : Value} (hop : BinOp.ofSymbol? op = some b)
      (h : Flattens cx sc [lhs, rhs] n ops [l, r] m) (hty : l.ty ≠ r.ty) :
      Abandons cx sc (.binary op lhs rhs span :: rest) n ops m
  /-- The call is there, but it has no value. -/
  | void {f : String} {fspan span : Span} {args rest : List Expr} {n m : Nat}
      {ops : List (Located Op)} {values : List Value} (h : Flattens cx sc args n ops values m)
      (hty : cx.resultOf f = .nil) :
      Abandons cx sc (.call (.name f fspan) args span :: rest) n
        (ops ++ [⟨.call none f values, span⟩]) m
  | later {e : Expr} {rest : List Expr} {n k m : Nat} {ops more : List (Located Op)} {v : Value}
      (h : Flattens cx sc [e] n ops [v] k) (hrest : Abandons cx sc rest k more m) :
      Abandons cx sc (e :: rest) n (ops ++ more) m

/-- A statement is abandoned after the operations and leaves a scope and the next number. -/
inductive StmtAbandons (cx : Context) (sc : Scope) (n : Nat) :
    Stmt → List (Located Op) → Scope → Nat → Prop
  | bind {x : String} {init : Expr} {span : Span} {m : Nat} {ops : List (Located Op)}
      (h : Abandons cx sc [init] n ops m) :
      StmtAbandons cx sc n (.bind x init span) ops (sc.set x .failed) m
  | ret {e : Expr} {span : Span} {m : Nat} {ops : List (Located Op)}
      (h : Abandons cx sc [e] n ops m) : StmtAbandons cx sc n (.ret (some e) span) ops sc m
  | eval {e : Expr} {span : Span} {m : Nat} {ops : List (Located Op)}
      (he : ∀ callee args cspan, e ≠ .call callee args cspan) (h : Abandons cx sc [e] n ops m) :
      StmtAbandons cx sc n (.eval e span) ops sc m
  | evalCallee {callee : Expr} {args : List Expr} {cspan span : Span} (hf : callee.name? = none) :
      StmtAbandons cx sc n (.eval (.call callee args cspan) span) [] sc n
  | evalArgs {f : String} {fspan cspan span : Span} {args : List Expr} {m : Nat}
      {ops : List (Located Op)} (h : Abandons cx sc args n ops m) :
      StmtAbandons cx sc n (.eval (.call (.name f fspan) args cspan) span) ops sc m
  | assign {x : String} {e : Expr} {span : Span} : StmtAbandons cx sc n (.assign x e span) [] sc n

/-- What is left of a body: the operations, and the first return that was not abandoned. -/
inductive BodyLeaves (cx : Context) :
    Scope → Nat → List Stmt → List (Located Op) → Option (Located (Option Value)) → Prop
  | nil {sc : Scope} {n : Nat} : BodyLeaves cx sc n [] [] none
  | step {sc sc' : Scope} {n m : Nat} {s : Stmt} {rest : List Stmt} {new ops : List (Located Op)}
      {t : Option (Located (Option Value))} (hs : StmtFlattens cx sc n s new sc' m)
      (hrest : BodyLeaves cx sc' m rest ops t) : BodyLeaves cx sc n (s :: rest) (new ++ ops) t
  | abandoned {sc sc' : Scope} {n m : Nat} {s : Stmt} {rest : List Stmt}
      {new ops : List (Located Op)} {t : Option (Located (Option Value))}
      (hs : StmtAbandons cx sc n s new sc' m) (hrest : BodyLeaves cx sc' m rest ops t) :
      BodyLeaves cx sc n (s :: rest) (new ++ ops) t
  | ret {sc : Scope} {n : Nat} {s : Stmt} {rest : List Stmt} {ops : List (Located Op)}
      {t : Located (Option Value)} (hs : StmtReturns cx sc n s ops t) :
      BodyLeaves cx sc n (s :: rest) ops (some t)

variable {cx : Context} {sc : Scope} {n m : Nat} {ops : List (Located Op)} {span : Span}
  {b b' : Body} {stop : Stop}

/-- The step stopped because of what the source says, not because code was put together wrongly. -/
def Stop.Ordinary (stop : Stop) : Prop := ∀ e, stop ≠ .fault e

theorem fail_eq_error {α : Type} {p : Problem} (h : (fail p span : Lower α) b = .error stop b') :
    stop.Ordinary ∧ b' = b := by
  cases h
  exact ⟨nofun, rfl⟩

theorem literal_lower_eq_error {l : Literal} (h : l.lower span b = .error stop b') :
    l.constant? = none ∧ stop.Ordinary ∧ b' = b := by
  cases l with
  | int text =>
    simp only [Literal.lower, Literal.constant?] at h ⊢
    cases hn : Numeral.int64? text.toList with
    | none =>
      rw [hn] at h
      exact ⟨rfl, fail_eq_error h⟩
    | some k =>
      rw [hn] at h
      cases h
  | float text =>
    simp only [Literal.lower, Literal.constant?] at h ⊢
    cases hx : Numeral.Binary64.ofText? text.toList with
    | none =>
      rw [hx] at h
      exact ⟨rfl, fail_eq_error h⟩
    | some x =>
      rw [hx] at h
      cases h
  | string | bool => cases h

theorem functionName_eq_error {e : Expr} (h : e.functionName b = .error stop b') :
    e.name? = none ∧ stop.Ordinary ∧ b' = b := by
  cases e with
  | name => cases h
  | literal | binary | call => exact ⟨rfl, fail_eq_error h⟩

theorem read_eq_error {x : String} {span₀ : Span}
    (h : read cx x span (.filling n ops span₀ sc) = .error stop b) :
    (∀ ty, sc.find? x ≠ some (.typed ty)) ∧ stop.Ordinary ∧ b = .filling n ops span₀ sc := by
  rw [read_apply, show (Body.filling n ops span₀ sc).scope = sc from rfl] at h
  cases hx : sc.find? x with
  | none =>
    rw [hx] at h
    exact ⟨by simp, fail_eq_error h⟩
  | some binding =>
    rw [hx] at h
    cases binding with
    | failed =>
      cases h
      exact ⟨by simp, nofun, rfl⟩
    | typed ty => cases h

theorem lowerAll_cons_eq_error {e : Expr} {rest : List Expr} :
    Expr.lowerAll cx (e :: rest) b = .error stop b' ↔ e.lower cx b = .error stop b' ∨
      ∃ v b₁, e.lower cx b = .ok v b₁ ∧ Expr.lowerAll cx rest b₁ = .error stop b' := by
  simp only [Expr.lowerAll, bind_eq_error]
  constructor
  · rintro (h | ⟨v, b₁, hv, h | ⟨ws, b₂, -, h⟩⟩)
    · exact .inl h
    · exact .inr ⟨v, b₁, hv, h⟩
    · cases h
  · rintro (h | ⟨v, b₁, hv, h⟩)
    · exact .inl h
    · exact .inr ⟨v, b₁, hv, .inl h⟩

/-- One operand is given up, and so the pair is. -/
theorem lowerAll_pair_eq_error {lhs rhs : Expr} (h : lhs.lower cx b = .error stop b' ∨
      ∃ v b₁, lhs.lower cx b = .ok v b₁ ∧ rhs.lower cx b₁ = .error stop b') :
    Expr.lowerAll cx [lhs, rhs] b = .error stop b' := by
  rw [lowerAll_cons_eq_error]
  rcases h with h | ⟨v, b₁, hv, h⟩
  · exact .inl h
  · exact .inr ⟨v, b₁, hv, lowerAll_cons_eq_error.2 (.inl h)⟩

/-- An operator is given up if it is unknown, with one of its operands, or if their types differ. -/
theorem lower_binary_eq_error {op : String} {lhs rhs : Expr} {bspan : Span}
    (h : (Expr.binary op lhs rhs bspan).lower cx (.filling n ops span sc) = .error stop b) :
    (BinOp.ofSymbol? op = none ∧ stop = .problem (.unknownOperator op) bspan ∧
        b = .filling n ops span sc) ∨
      ∃ o, BinOp.ofSymbol? op = some o ∧
        (Expr.lowerAll cx [lhs, rhs] (.filling n ops span sc) = .error stop b ∨
          ∃ l r, Expr.lowerAll cx [lhs, rhs] (.filling n ops span sc) = .ok [l, r] b ∧ l.ty ≠ r.ty ∧
            stop = .problem (.operandTypes op l.ty r.ty) bspan) := by
  simp only [Expr.lower] at h
  cases hop : BinOp.ofSymbol? op with
  | none =>
    rw [hop] at h
    cases h
    exact .inl ⟨rfl, rfl, rfl⟩
  | some o =>
    rw [hop] at h
    refine .inr ⟨o, rfl, ?_⟩
    rcases bind_eq_error.1 h with h | ⟨l, b₁, hl, h⟩
    · exact .inl (lowerAll_pair_eq_error (.inl h))
    rcases bind_eq_error.1 h with h | ⟨r, b₂, hr, h⟩
    · exact .inl (lowerAll_pair_eq_error (.inr ⟨l, b₁, hl, h⟩))
    have hpair := lowerAll_pair hl hr
    obtain ⟨new, k, span₁, -, rfl⟩ := flattens_of_lowerAll hpair
    split at h
    next => cases h
    next hty =>
      cases h
      exact .inr ⟨l, r, hpair, hty, rfl⟩

/-- A call is given up if its target is no name, with one of its arguments, or if it has no value. -/
theorem lower_call_eq_error {callee : Expr} {args : List Expr} {cspan : Span}
    (h : (Expr.call callee args cspan).lower cx (.filling n ops span sc) = .error stop b) :
    callee.functionName (.filling n ops span sc) = .error stop b ∨
      ∃ f fspan, callee = .name f fspan ∧
        (Expr.lowerAll cx args (.filling n ops span sc) = .error stop b ∨
          ∃ values m ops' span', Expr.lowerAll cx args (.filling n ops span sc) =
              .ok values (.filling m ops' span' sc) ∧ cx.resultOf f = .nil ∧
            stop = .problem .voidValue cspan ∧
            b = .filling m (ops' ++ [⟨.call none f values, cspan⟩]) cspan sc) := by
  simp only [Expr.lower] at h
  rcases bind_eq_error.1 h with hf | ⟨f, b₁, hf, hrest⟩
  · exact .inl hf
  obtain ⟨hname, rfl⟩ := functionName_eq_ok.1 hf
  obtain ⟨fspan, rfl⟩ := name?_eq_some hname
  refine .inr ⟨f, fspan, rfl, ?_⟩
  rcases bind_eq_error.1 hrest with hargs | ⟨values, b₂, hvalues, h⟩
  · exact .inl hargs
  obtain ⟨new, k, span₁, -, rfl⟩ := flattens_of_lowerAll hvalues
  rw [bind_eq_error, buildAt_call] at h
  split at h
  next hty =>
    rcases h with h | ⟨t, b₃, ht, h⟩
    · cases h
    · cases ht
      cases h
      exact .inr ⟨values, k, _, span₁, hvalues, hty, rfl, rfl⟩
  next =>
    rcases h with h | ⟨t, b₃, ht, h⟩
    · cases h
    · cases ht
      cases h

theorem abandons_of_binary {op : String} {lhs rhs : Expr} {bspan : Span} {rest : List Expr}
    (ih : ∀ {b}, Expr.lowerAll cx [lhs, rhs] (.filling n ops span sc) = .error stop b →
      stop.Ordinary ∧ ∃ new m span', Abandons cx sc [lhs, rhs] n new m ∧
        b = .filling m (ops ++ new) span' sc)
    (h : (Expr.binary op lhs rhs bspan).lower cx (.filling n ops span sc) = .error stop b) :
    stop.Ordinary ∧ ∃ new m span', Abandons cx sc (.binary op lhs rhs bspan :: rest) n new m ∧
      b = .filling m (ops ++ new) span' sc := by
  rcases lower_binary_eq_error h with ⟨hop, rfl, rfl⟩ | ⟨o, hop, h | ⟨l, r, hpair, hty, rfl⟩⟩
  · exact ⟨nofun, [], n, span, .operator hop, by simp⟩
  · obtain ⟨hstop, new, m, span', hnew, hb⟩ := ih h
    exact ⟨hstop, new, m, span', .operands hop hnew, hb⟩
  · obtain ⟨new, k, span₁, hnew, rfl⟩ := flattens_of_lowerAll hpair
    exact ⟨nofun, new, k, span₁, .types hop hnew hty, rfl⟩

theorem abandons_of_call {callee : Expr} {args : List Expr} {cspan : Span} {rest : List Expr}
    (ih : ∀ {b}, Expr.lowerAll cx args (.filling n ops span sc) = .error stop b →
      stop.Ordinary ∧ ∃ new m span', Abandons cx sc args n new m ∧
        b = .filling m (ops ++ new) span' sc)
    (h : (Expr.call callee args cspan).lower cx (.filling n ops span sc) = .error stop b) :
    stop.Ordinary ∧ ∃ new m span', Abandons cx sc (.call callee args cspan :: rest) n new m ∧
      b = .filling m (ops ++ new) span' sc := by
  rcases lower_call_eq_error h with
    hf | ⟨f, fspan, rfl, h | ⟨values, m, ops', span', hvalues, hty, rfl, rfl⟩⟩
  · obtain ⟨hname, hstop, rfl⟩ := functionName_eq_error hf
    exact ⟨hstop, [], n, span, .callee hname, by simp⟩
  · obtain ⟨hstop, new, m, span', hnew, hb⟩ := ih h
    exact ⟨hstop, new, m, span', .args hnew, hb⟩
  · obtain ⟨new, k, span₁, hnew, hb⟩ := flattens_of_lowerAll hvalues
    cases hb
    exact ⟨nofun, _, _, cspan, .void hnew hty, by simp⟩

/-- Where expressions are given up: at the first of them, or after it at one of the others. -/
theorem lowerAll_error_induction {motive : List Expr → Nat → List (Located Op) → Span → Body → Prop}
    (literal : ∀ {l lspan rest n ops span b}, l.lower lspan (.filling n ops span sc) = .error stop b →
      motive (.literal l lspan :: rest) n ops span b)
    (name : ∀ {x xspan rest n ops span b},
      read cx x xspan (.filling n ops span sc) = .error stop b →
      motive (.name x xspan :: rest) n ops span b)
    (binary : ∀ {op lhs rhs bspan rest n ops span b},
      (∀ {b}, Expr.lowerAll cx [lhs, rhs] (.filling n ops span sc) = .error stop b →
        motive [lhs, rhs] n ops span b) →
      (Expr.binary op lhs rhs bspan).lower cx (.filling n ops span sc) = .error stop b →
      motive (.binary op lhs rhs bspan :: rest) n ops span b)
    (call : ∀ {callee args cspan rest n ops span b},
      (∀ {b}, Expr.lowerAll cx args (.filling n ops span sc) = .error stop b →
        motive args n ops span b) →
      (Expr.call callee args cspan).lower cx (.filling n ops span sc) = .error stop b →
      motive (.call callee args cspan :: rest) n ops span b)
    (later : ∀ {e rest v new n m ops span span' b},
      e.lower cx (.filling n ops span sc) = .ok v (.filling m (ops ++ new) span' sc) →
      Flattens cx sc [e] n new [v] m → motive rest m (ops ++ new) span' b →
      motive (e :: rest) n ops span b)
    {es : List Expr} (h : Expr.lowerAll cx es (.filling n ops span sc) = .error stop b) :
    motive es n ops span b := by
  have step : ∀ {e rest n ops span b},
      (∀ {n ops span b}, Expr.lowerAll cx rest (.filling n ops span sc) = .error stop b →
        motive rest n ops span b) →
      (e.lower cx (.filling n ops span sc) = .error stop b → motive (e :: rest) n ops span b) →
      Expr.lowerAll cx (e :: rest) (.filling n ops span sc) = .error stop b →
      motive (e :: rest) n ops span b := by
    intro e rest n ops span b ih head h
    rcases lowerAll_cons_eq_error.1 h with h | ⟨v, b₁, hv, h⟩
    · exact head h
    · obtain ⟨new, m, span', hnew, rfl⟩ := flattens_of_lower hv
      exact later hv hnew (ih h)
  induction es using Expr.list_induction generalizing n ops span b with
  | nil => cases h
  | literal l lspan rest ih =>
    refine step ih (fun hl => ?_) h
    simp only [Expr.lower] at hl
    exact literal (map_eq_error.1 hl)
  | name x xspan rest ih =>
    refine step ih (fun hx => ?_) h
    simp only [Expr.lower] at hx
    exact name (map_eq_error.1 hx)
  | binary op lhs rhs bspan rest ihargs ih => exact step ih (binary ihargs) h
  | call callee args cspan rest ihargs ih => exact step ih (call ihargs) h

/-- Where lowering gives up on expressions, it leaves what they were lowered to by then. -/
theorem abandons_of_lowerAll {es : List Expr}
    (h : Expr.lowerAll cx es (.filling n ops span sc) = .error stop b) :
    stop.Ordinary ∧ ∃ new m span', Abandons cx sc es n new m ∧
      b = .filling m (ops ++ new) span' sc := by
  refine lowerAll_error_induction (motive := fun es n ops _ b => stop.Ordinary ∧
    ∃ new m span', Abandons cx sc es n new m ∧ b = .filling m (ops ++ new) span' sc)
    ?_ ?_ abandons_of_binary abandons_of_call ?_ h
  · intro l lspan rest n ops span b hl
    obtain ⟨hnone, hstop, rfl⟩ := literal_lower_eq_error hl
    exact ⟨hstop, [], n, span, .literal hnone, by simp⟩
  · intro x xspan rest n ops span b hx
    obtain ⟨hnone, hstop, rfl⟩ := read_eq_error hx
    exact ⟨hstop, [], n, span, .name hnone, by simp⟩
  · rintro e rest v new n m ops span span' b - hnew ⟨hstop, more, k, span₂, hmore, rfl⟩
    exact ⟨hstop, new ++ more, k, span₂, .later hnew hmore, by simp⟩

theorem abandons_of_lower {e : Expr}
    (h : e.lower cx (.filling n ops span sc) = .error stop b) :
    stop.Ordinary ∧ ∃ new m span', Abandons cx sc [e] n new m ∧
      b = .filling m (ops ++ new) span' sc :=
  abandons_of_lowerAll (lowerAll_cons_eq_error.2 (.inl h))

/-- In statement position a call need not have a value. -/
theorem lowerEffect_call_eq_error {callee : Expr} {args : List Expr} {cspan : Span} :
    (Expr.call callee args cspan).lowerEffect cx (.filling n ops span sc) = .error stop b ↔
      callee.functionName (.filling n ops span sc) = .error stop b ∨
        ∃ f fspan, callee = .name f fspan ∧
          Expr.lowerAll cx args (.filling n ops span sc) = .error stop b := by
  refine bind_eq_error.trans (or_congr_right ?_)
  constructor
  · rintro ⟨f, b₁, hf, hrest⟩
    obtain ⟨hname, rfl⟩ := functionName_eq_ok.1 hf
    obtain ⟨fspan, rfl⟩ := name?_eq_some hname
    rcases bind_eq_error.1 hrest with hargs | ⟨values, b₂, hvalues, h⟩
    · exact ⟨f, fspan, rfl, hargs⟩
    -- The call itself can always be appended.
    obtain ⟨new, k, span₁, -, rfl⟩ := flattens_of_lowerAll hvalues
    have hcall := map_eq_error.1 h
    rw [buildAt_call] at hcall
    split at hcall <;> cases hcall
  · rintro ⟨f, fspan, rfl, hargs⟩
    exact ⟨f, _, rfl, bind_eq_error.2 (.inl hargs)⟩

theorem abandons_of_lowerEffect {e : Expr} {espan : Span}
    (h : e.lowerEffect cx (.filling n ops span sc) = .error stop b) :
    stop.Ordinary ∧ ∃ new m span', StmtAbandons cx sc n (.eval e espan) new sc m ∧
      b = .filling m (ops ++ new) span' sc := by
  cases e with
  | literal | name | binary =>
    obtain ⟨hstop, new, m, span', hnew, hb⟩ := abandons_of_lower (map_eq_error.1 h)
    exact ⟨hstop, new, m, span', .eval nofun hnew, hb⟩
  | call callee args cspan =>
    rcases lowerEffect_call_eq_error.1 h with hf | ⟨f, fspan, rfl, hargs⟩
    · obtain ⟨hname, hstop, rfl⟩ := functionName_eq_error hf
      exact ⟨hstop, [], n, span, .evalCallee hname, by simp⟩
    · obtain ⟨hstop, new, m, span', hnew, hb⟩ := abandons_of_lowerAll hargs
      exact ⟨hstop, new, m, span', .evalArgs hnew, hb⟩

/-- What follows the initial value of a variable cannot stop. -/
theorem bind_lower_eq_error {x : String} {init : Expr} {sspan : Span} :
    (Stmt.bind x init sspan).lower cx (.filling n ops span sc) = .error stop b ↔
      ∃ b₁, init.lower cx (.filling n ops span sc) = .error stop b₁ ∧
        b = { b₁ with scope := b₁.scope.set x .failed } := by
  have hdeclaring : (∃ b₁, init.lower cx (.filling n ops span sc) = .error stop b₁ ∧
      b = { b₁ with scope := b₁.scope.set x .failed }) ↔
      declaring x (init.lower cx) (.filling n ops span sc) = .error stop b := by
    unfold declaring
    cases init.lower cx (.filling n ops span sc) <;> simp [eq_comm]
  rw [hdeclaring]
  refine bind_eq_error.trans ⟨?_, .inl⟩
  rintro (h | ⟨v, b₁, hv, h⟩)
  · exact h
  · unfold declaring at hv
    cases hinit : init.lower cx (.filling n ops span sc) with
    | error stop' b₂ => simp [hinit] at hv
    | ok v' b₂ =>
      simp only [hinit] at hv
      cases hv
      obtain ⟨new, m, span', -, rfl⟩ := flattens_of_lower hinit
      cases h

theorem ret_lower_eq_error {e : Expr} {sspan : Span} :
    (Stmt.ret (some e) sspan).lower cx (.filling n ops span sc) = .error stop b ↔
      e.lower cx (.filling n ops span sc) = .error stop b := by
  refine bind_eq_error.trans ⟨?_, .inl⟩
  rintro (h | ⟨v, b₁, hv, h⟩)
  · exact h
  · obtain ⟨new, m, span', -, rfl⟩ := flattens_of_lower hv
    cases h

theorem abandons_of_stmt {s : Stmt} (h : s.lower cx (.filling n ops span sc) = .error stop b) :
    stop.Ordinary ∧ ∃ new sc' m span', StmtAbandons cx sc n s new sc' m ∧
      b = .filling m (ops ++ new) span' sc' := by
  match s with
  | .bind x init sspan =>
    obtain ⟨b₁, hinit, rfl⟩ := bind_lower_eq_error.1 h
    obtain ⟨hstop, new, m, span', hnew, rfl⟩ := abandons_of_lower hinit
    exact ⟨hstop, new, _, m, span', .bind hnew, rfl⟩
  | .ret none sspan => cases h
  | .ret (some e) sspan =>
    obtain ⟨hstop, new, m, span', hnew, hb⟩ := abandons_of_lower (ret_lower_eq_error.1 h)
    exact ⟨hstop, new, sc, m, span', .ret hnew, hb⟩
  | .eval e sspan =>
    obtain ⟨hstop, new, m, span', hnew, hb⟩ := abandons_of_lowerEffect h
    exact ⟨hstop, new, sc, m, span', hnew, hb⟩
  | .assign x e sspan =>
    obtain ⟨hstop, rfl⟩ := fail_eq_error h
    exact ⟨hstop, [], sc, n, span, .assign, by simp⟩

/-- Some return goes through when the statements are lowered one after the other. -/
def returns (cx : Context) : List Stmt → Body → Bool
  | [], _ => false
  | s :: rest, b => match s.lower cx b with
    | .ok () b => s.isReturn || returns cx rest b
    | .error _ b => returns cx rest b

/-- Lowering a body never fails; it leaves what the statements leave. -/
theorem leaves_of_lowerBody (cx : Context) (stmts : List Stmt) (n : Nat) (ops : List (Located Op))
    (span : Span) (sc : Scope) : ∃ r new t,
    lowerBody cx stmts (.filling n ops span sc) = .ok r ∧ BodyLeaves cx sc n stmts new t ∧
      r.builder.block = some ⟨Block.entryName, ops ++ new, t⟩ ∧
      returns cx stmts (.filling n ops span sc) = t.isSome := by
  induction stmts generalizing n ops span sc with
  | nil => exact ⟨_, [], none, rfl, .nil, by simp [Body.filling], rfl⟩
  | cons s rest ih =>
    rw [lowerBody_filling, returns]
    cases hs : s.lower cx (.filling n ops span sc) with
    | ok u b =>
      rcases flattens_of_stmt hs with
        ⟨new, sc', m, span', hnew, rfl⟩ | ⟨new, t, m, span', hnew, rfl⟩
      · obtain ⟨r, more, t, hr, hmore, hblock, hret⟩ := ih m (ops ++ new) span' sc'
        refine ⟨r, new ++ more, t, hr, .step hnew hmore, by rw [hblock, List.append_assoc], ?_⟩
        simp [hnew.isReturn, hret]
      · obtain ⟨ds, hended⟩ := lowerBody_ended rest t
        exact ⟨_, new, some t, hended, .ret hnew, rfl, by simp [hnew.isReturn]⟩
    | error stop b =>
      obtain ⟨hstop, new, sc', m, span', hnew, rfl⟩ := abandons_of_stmt hs
      obtain ⟨r, more, t, hr, hmore, hblock, hret⟩ := ih m (ops ++ new) span' sc'
      rw [List.append_assoc] at hblock
      cases stop with
      | fault e => exact (hstop e rfl).elim
      | tainted =>
        refine ⟨{ r with clean := false }, new ++ more, t, ?_, .abandoned hnew hmore, hblock, hret⟩
        simp only [hr]
        rfl
      | problem p pspan =>
        refine ⟨{ r with diagnostics := p.diagnostic pspan :: r.diagnostics, clean := false },
          new ++ more, t, ?_, .abandoned hnew hmore, hblock, hret⟩
        simp only [hr]
        rfl

/-- Only an abandoned statement draws an error. -/
theorem anyError_of_clean {stmts : List Stmt} {r : BodyOutcome} (h : lowerBody cx stmts b = .ok r)
    (hclean : r.clean = true) : Diagnostic.anyError r.diagnostics = false := by
  induction stmts generalizing b r with
  | nil =>
    cases h
    rfl
  | cons s rest ih =>
    rw [lowerBody] at h
    split at h
    · cases h
      rfl
    split at h
    · exact ih h hclean
    · cases h
    · obtain ⟨r', -, h⟩ := except_bind_eq_ok.1 h
      cases h
      cases hclean
    · obtain ⟨r', -, h⟩ := except_bind_eq_ok.1 h
      cases h
      cases hclean

end Lowering

namespace Source.FnDef

open Lowering

variable {entryPoint : String} {d : FnDef} {results : List (String × Ty)}

theorem lower_of_lowerBody (entryPoint : String) (builder : Builder) {r : BodyOutcome}
    (hr : lowerBody ⟨d.name.val, results⟩ d.body (.filling 0 [] .nowhere d.scope) = .ok r)
    (hret : if (d.headerProblems entryPoint).isEmpty && r.clean && !r.builder.isTerminated
      then d.implicitReturn entryPoint r.builder = .ok () builder else builder = r.builder) :
    d.lower entryPoint results = .ok (⟨d.name.val, d.typedParams, d.resultTy entryPoint,
      d.name.span, builder.block.toList⟩, d.headerProblems entryPoint ++ r.diagnostics) := by
  refine except_bind_eq_ok.2 ⟨r, hr, except_bind_eq_ok.2 ⟨_, ?_, rfl⟩⟩
  unfold close
  split
  next hc =>
    rw [if_pos hc] at hret
    rw [hret]
    rfl
  next hc =>
    rw [if_neg hc] at hret
    rw [hret]
    rfl

/-- An error among the diagnostics of a definition means that it failed somewhere. -/
theorem anyError_eq_false_iff (entryPoint : String) {r : BodyOutcome}
    (hr : lowerBody ⟨d.name.val, results⟩ d.body (.filling 0 [] .nowhere d.scope) = .ok r) :
    Diagnostic.anyError (d.headerProblems entryPoint ++ r.diagnostics) = false ↔
      d.headerProblems entryPoint = [] ∧ r.clean = true := by
  constructor
  · intro he
    simp only [Diagnostic.anyError, List.any_append, Bool.or_eq_false_iff] at he
    have hheader : d.headerProblems entryPoint = [] := by
      rw [List.eq_nil_iff_forall_not_mem]
      intro x hx
      exact List.any_eq_false.1 he.1 x hx (isError_headerProblems hx)
    exact ⟨hheader, (flattens_of_lowerBody (scope_sound hheader) hr he.2 (d.atEnd entryPoint)).1⟩
  · rintro ⟨hheader, hclean⟩
    rw [hheader, List.nil_append]
    exact anyError_of_clean hr hclean

/-- Some return of the definition goes through. -/
def returns (d : FnDef) (results : List (String × Ty)) : Bool :=
  Lowering.returns ⟨d.name.val, results⟩ d.body (.filling 0 [] .nowhere d.scope)

/-- Every definition has a function of one block. It ends in the first return that was not abandoned;
if there is none, an implicit return stands there unless an error was found. -/
theorem lower_leaves (entryPoint : String) (d : FnDef) (results : List (String × Ty)) :
    ∃ f ds ops t, d.lower entryPoint results = .ok (f, ds) ∧
      BodyLeaves ⟨d.name.val, results⟩ d.scope 0 d.body ops t ∧ d.returns results = t.isSome ∧
      f = ⟨d.name.val, d.typedParams, d.resultTy entryPoint, d.name.span,
        [⟨Block.entryName, ops,
          t.or (if Diagnostic.anyError ds then none else some (d.atEnd entryPoint))⟩]⟩ := by
  obtain ⟨r, ops, t, hr, hleaves, hblock, hreturns⟩ :=
    leaves_of_lowerBody ⟨d.name.val, results⟩ d.body 0 [] .nowhere d.scope
  rw [List.nil_append] at hblock
  have hdone : r.builder.isTerminated = t.isSome := by
    simp [Builder.isTerminated, hblock, Block.isComplete]
  have hds := anyError_eq_false_iff entryPoint hr
  cases t with
  | some t =>
    refine ⟨_, _, ops, some t, lower_of_lowerBody entryPoint r.builder hr ?_, hleaves, hreturns, ?_⟩
    · simp [hdone]
    · simp [hblock]
  | none =>
    by_cases he : Diagnostic.anyError (d.headerProblems entryPoint ++ r.diagnostics) = false
    · obtain ⟨hheader, hclean⟩ := hds.1 he
      obtain ⟨builder, hret, hend⟩ := implicitReturn_eq_ok entryPoint d hblock
      refine ⟨_, _, ops, none, lower_of_lowerBody entryPoint builder hr ?_, hleaves, hreturns, ?_⟩
      · simpa [hheader, hclean, hdone] using hret
      · simp [hend, he]
    · have hfailed : ¬ (d.headerProblems entryPoint = [] ∧ r.clean = true) := fun h => he (hds.2 h)
      refine ⟨_, _, ops, none, lower_of_lowerBody entryPoint r.builder hr ?_, hleaves, hreturns, ?_⟩
      · rw [if_neg]
        simpa [hdone] using hfailed
      · simp [hblock, he]

end Source.FnDef

end Straightline
