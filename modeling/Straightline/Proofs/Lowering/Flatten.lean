import Straightline.Proofs.Fragment.Syntax
import Straightline.Proofs.Results

/-!
The code that expressions and bodies flatten to, said without a builder: operands from left to right,
then the instruction itself, with temporaries numbered as they come. Lowering that succeeds produces
just this code.
-/
namespace Straightline

open IR

namespace Source.Expr

/-- Expressions are taken apart as lists: an operator's operands are a list like a call's. -/
@[elab_as_elim]
theorem list_induction {motive : List Expr → Prop} (nil : motive [])
    (literal : ∀ l span rest, motive rest → motive (.literal l span :: rest))
    (name : ∀ x span rest, motive rest → motive (.name x span :: rest))
    (binary : ∀ op lhs rhs span rest, motive [lhs, rhs] → motive rest →
      motive (.binary op lhs rhs span :: rest))
    (call : ∀ callee args span rest, motive args → motive rest →
      motive (.call callee args span :: rest)) (es : List Expr) : motive es :=
  all es
where
  cons (e : Expr) (rest : List Expr) (h : motive rest) : motive (e :: rest) :=
    match e with
    | .literal l span => literal l span rest h
    | .name x span => name x span rest h
    | .binary op lhs rhs span => binary op lhs rhs span rest (cons lhs [rhs] (cons rhs [] nil)) h
    | .call callee args span => call callee args span rest (all args) h
  all (es : List Expr) : motive es :=
    match es with
    | [] => nil
    | e :: rest => cons e rest (all rest)

@[elab_as_elim]
theorem induction {motive : Expr → Prop} (literal : ∀ l span, motive (.literal l span))
    (name : ∀ x span, motive (.name x span))
    (binary : ∀ op lhs rhs span, motive lhs → motive rhs → motive (.binary op lhs rhs span))
    (call : ∀ callee args span, (∀ e ∈ args, motive e) → motive (.call callee args span))
    (e : Expr) : motive e := by
  have hall : ∀ e' ∈ [e], motive e' := by
    induction [e] using list_induction with
    | nil => simp
    | literal l span rest ih => exact List.forall_mem_cons.2 ⟨literal l span, ih⟩
    | name x span rest ih => exact List.forall_mem_cons.2 ⟨name x span, ih⟩
    | binary op lhs rhs span rest ihargs ih =>
      have hargs : motive lhs ∧ motive rhs := by simpa using ihargs
      exact List.forall_mem_cons.2 ⟨binary op lhs rhs span hargs.1 hargs.2, ih⟩
    | call callee args span rest ihargs ih =>
      exact List.forall_mem_cons.2 ⟨call callee args span ihargs, ih⟩
  exact hall e (List.mem_singleton_self e)

end Source.Expr

namespace Lowering

open Source

/-- The operation computes the expression into the temporary from the values of its operands. -/
inductive OpFor (cx : Context) : Expr → List Expr → List Value → Temporary → Op → Prop
  | binary {op : String} {b : BinOp} {lhs rhs : Expr} {span : Span} {l r : Value} {k : Nat}
      (hop : BinOp.ofSymbol? op = some b) (hty : l.ty = r.ty) :
      OpFor cx (.binary op lhs rhs span) [lhs, rhs] [l, r] ⟨k, l.ty⟩ (.binary b ⟨k, l.ty⟩ l r)
  | call {f : String} {fspan span : Span} {args : List Expr} {values : List Value} {k : Nat}
      (hty : cx.resultOf f ≠ .nil) :
      OpFor cx (.call (.name f fspan) args span) args values ⟨k, cx.resultOf f⟩
        (.call (some ⟨k, cx.resultOf f⟩) f values)

/-- With temporaries numbered from `n`, the expressions flatten to the operations, which leave their
values where the list of values says; `m` is the next number. -/
inductive Flattens (cx : Context) (sc : Scope) :
    List Expr → Nat → List (Located Op) → List Value → Nat → Prop
  | nil {n : Nat} : Flattens cx sc [] n [] [] n
  | literal {l : Literal} {c : Constant} {span : Span} {rest : List Expr} {n m : Nat}
      {ops : List (Located Op)} {vs : List Value} (hc : l.constant? = some c)
      (hrest : Flattens cx sc rest n ops vs m) :
      Flattens cx sc (.literal l span :: rest) n ops (.const c :: vs) m
  | name {x : String} {ty : Ty} {span : Span} {rest : List Expr} {n m : Nat}
      {ops : List (Located Op)} {vs : List Value} (hx : sc.find? x = some (.typed ty))
      (hrest : Flattens cx sc rest (n + 1) ops vs m) :
      Flattens cx sc (.name x span :: rest) n (⟨.load ⟨n, ty⟩ (.var ⟨x, ty⟩), span⟩ :: ops)
        (.temp ⟨n, ty⟩ :: vs) m
  | computed {e : Expr} {args rest : List Expr} {n k m : Nat} {opsₗ ops : List (Located Op)}
      {values vs : List Value} {ty : Ty} {o : Op} (hargs : Flattens cx sc args n opsₗ values k)
      (he : OpFor cx e args values ⟨k, ty⟩ o) (hrest : Flattens cx sc rest (k + 1) ops vs m) :
      Flattens cx sc (e :: rest) n (opsₗ ++ ⟨o, e.span⟩ :: ops) (.temp ⟨k, ty⟩ :: vs) m

/-- A statement that goes on flattens to the operations and leaves a scope and the next number. -/
inductive StmtFlattens (cx : Context) (sc : Scope) (n : Nat) :
    Stmt → List (Located Op) → Scope → Nat → Prop
  | bind {x : String} {init : Expr} {span : Span} {m : Nat} {ops : List (Located Op)} {v : Value}
      (hinit : Flattens cx sc [init] n ops [v] m) :
      StmtFlattens cx sc n (.bind x init span)
        (ops ++ [⟨.alloc ⟨x, v.ty⟩, span⟩, ⟨.store (.var ⟨x, v.ty⟩) v, span⟩])
        (sc.set x (.typed v.ty)) m
  | eval {e : Expr} {span : Span} {m : Nat} {ops : List (Located Op)} {v : Value}
      (he : Flattens cx sc [e] n ops [v] m) : StmtFlattens cx sc n (.eval e span) ops sc m
  | evalVoid {f : String} {args : List Expr} {fspan cspan span : Span} {m : Nat}
      {ops : List (Located Op)} {values : List Value} (hargs : Flattens cx sc args n ops values m)
      (hty : cx.resultOf f = .nil) :
      StmtFlattens cx sc n (.eval (.call (.name f fspan) args cspan) span)
        (ops ++ [⟨.call none f values, cspan⟩]) sc m

/-- A return flattens to the operations that compute its value, and itself. -/
inductive StmtReturns (cx : Context) (sc : Scope) (n : Nat) :
    Stmt → List (Located Op) → Located (Option Value) → Prop
  | none {span : Span} : StmtReturns cx sc n (.ret none span) [] ⟨none, span⟩
  | value {e : Expr} {span : Span} {m : Nat} {ops : List (Located Op)} {v : Value}
      (he : Flattens cx sc [e] n ops [v] m) :
      StmtReturns cx sc n (.ret (some e) span) ops ⟨some v, span⟩

theorem StmtFlattens.isReturn {cx : Context} {sc sc' : Scope} {n m : Nat} {s : Stmt}
    {ops : List (Located Op)} (h : StmtFlattens cx sc n s ops sc' m) : s.isReturn = false := by
  cases h <;> rfl

theorem StmtReturns.isReturn {cx : Context} {sc : Scope} {n : Nat} {s : Stmt}
    {ops : List (Located Op)} {t : Located (Option Value)} (h : StmtReturns cx sc n s ops t) :
    s.isReturn = true := by
  cases h <;> rfl

/-- The statements up to the first return flatten to the operations and that return. If there is
none, the body ends in `atEnd`. -/
inductive BodyFlattens (cx : Context) (atEnd : Located (Option Value)) :
    Scope → Nat → List Stmt → List (Located Op) → Located (Option Value) → Prop
  | nil {sc : Scope} {n : Nat} : BodyFlattens cx atEnd sc n [] [] atEnd
  | step {sc sc' : Scope} {n m : Nat} {s : Stmt} {rest : List Stmt} {new ops : List (Located Op)}
      {t : Located (Option Value)} (hs : StmtFlattens cx sc n s new sc' m)
      (hrest : BodyFlattens cx atEnd sc' m rest ops t) :
      BodyFlattens cx atEnd sc n (s :: rest) (new ++ ops) t
  | ret {sc : Scope} {n : Nat} {s : Stmt} {rest : List Stmt} {ops : List (Located Op)}
      {t : Located (Option Value)} (hs : StmtReturns cx sc n s ops t) :
      BodyFlattens cx atEnd sc n (s :: rest) ops t

/-- A body that is still being filled. -/
def Body.filling (n : Nat) (ops : List (Located Op)) (span : Span) (sc : Scope) : Body :=
  ⟨⟨n, some { name := Block.entryName, body := ops }, span⟩, sc⟩

variable {cx : Context} {sc : Scope} {n m : Nat} {ops : List (Located Op)} {span : Span}
  {b b' : Body} {v : Value}

theorem Flattens.le {es : List Expr} {vs : List Value} (h : Flattens cx sc es n ops vs m) :
    n ≤ m := by
  induction h with
  | nil => exact Nat.le_refl _
  | literal _ _ ih => exact ih
  | name _ _ ih => omega
  | computed _ _ _ ihargs ih => omega

theorem Flattens.length_eq {es : List Expr} {vs : List Value} (h : Flattens cx sc es n ops vs m) :
    vs.length = es.length := by
  induction h with
  | nil => rfl
  | literal _ _ ih | name _ _ ih | computed _ _ _ _ ih => simp [ih]

theorem OpFor.operands_eq {e : Expr} {args : List Expr} {values : List Value} {t : Temporary}
    {o : Op} (h : OpFor cx e args values t o) : e.operands = args := by
  cases h <;> rfl

theorem literal_lower_eq_ok {l : Literal} {c : Constant} :
    l.lower span b = .ok c b' ↔ l.constant? = some c ∧ b' = b := by
  cases l with
  | int text =>
    simp only [Literal.lower, Literal.constant?]
    cases Numeral.int64? text.toList <;> simp [pure_eq_ok, fail, throw_eq_ok, eq_comm (a := b)]
  | float text =>
    simp only [Literal.lower, Literal.constant?]
    cases Numeral.Binary64.ofText? text.toList <;>
      simp [pure_eq_ok, fail, throw_eq_ok, eq_comm (a := b)]
  | string | bool => simp [Literal.lower, Literal.constant?, pure_eq_ok, eq_comm (a := b)]

theorem name?_eq_some {e : Expr} {f : String} (h : e.name? = some f) :
    ∃ span, e = .name f span := by
  cases e with
  | name x span =>
    obtain rfl := Option.some.inj h
    exact ⟨span, rfl⟩
  | literal | binary | call => cases h

theorem functionName_eq_ok {e : Expr} {f : String} :
    e.functionName b = .ok f b' ↔ e.name? = some f ∧ b' = b := by
  cases e <;> simp [Expr.functionName, Expr.name?, pure_eq_ok, fail, throw_eq_ok, eq_comm (a := b)]

theorem read_apply (x : String) : read cx x span b = (match b.scope.find? x with
    | some .failed => throw Stop.tainted
    | none => fail (.unresolved x cx.function) span
    | some (.typed ty) => buildAt span (Builder.load (.var ⟨x, ty⟩)) : Lower Temporary) b := rfl

theorem read_eq_ok {x : String} {t : Temporary} {span₀ : Span}
    (h : read cx x span (.filling n ops span₀ sc) = .ok t b) :
    ∃ ty, sc.find? x = some (.typed ty) ∧ t = ⟨n, ty⟩ ∧
      b = .filling (n + 1) (ops ++ [⟨.load ⟨n, ty⟩ (.var ⟨x, ty⟩), span⟩]) span sc := by
  rw [read_apply, show (Body.filling n ops span₀ sc).scope = sc from rfl] at h
  cases hx : sc.find? x with
  | none =>
    rw [hx] at h
    exact (throw_eq_ok.1 h).elim
  | some binding =>
    rw [hx] at h
    cases binding with
    | failed => exact (throw_eq_ok.1 h).elim
    | typed ty =>
      cases h
      exact ⟨ty, rfl, rfl, rfl⟩

theorem buildAt_call {f : String} {values : List Value} {ty : Ty} {span₀ : Span} :
    buildAt span (Builder.call f values ty) (.filling n ops span₀ sc) =
      if ty = .nil then .ok none (.filling n (ops ++ [⟨.call none f values, span⟩]) span sc)
      else .ok (some ⟨n, ty⟩)
        (.filling (n + 1) (ops ++ [⟨.call (some ⟨n, ty⟩) f values, span⟩]) span sc) := by
  cases ty <;> rfl

theorem lowerAll_cons_eq_ok {e : Expr} {rest : List Expr} {vs : List Value} :
    Expr.lowerAll cx (e :: rest) b = .ok vs b' ↔ ∃ v ws b₁, e.lower cx b = .ok v b₁ ∧
      Expr.lowerAll cx rest b₁ = .ok ws b' ∧ vs = v :: ws := by
  simp only [Expr.lowerAll, bind_eq_ok, pure_eq_ok]
  constructor
  · rintro ⟨v, b₁, hv, ws, b₂, hws, rfl, rfl⟩
    exact ⟨v, ws, b₁, hv, hws, rfl⟩
  · rintro ⟨v, ws, b₁, hv, hws, rfl⟩
    exact ⟨v, b₁, hv, ws, b', hws, rfl, rfl⟩

theorem lowerAll_pair {lhs rhs : Expr} {l r : Value} {b₁ b₂ : Body} (hl : lhs.lower cx b = .ok l b₁)
    (hr : rhs.lower cx b₁ = .ok r b₂) : Expr.lowerAll cx [lhs, rhs] b = .ok [l, r] b₂ := by
  refine lowerAll_cons_eq_ok.2 ⟨l, [r], b₁, hl, ?_, rfl⟩
  exact lowerAll_cons_eq_ok.2 ⟨r, [], b₂, hr, rfl, rfl⟩

/-- Whatever lowering makes of expressions is what they flatten to. -/
theorem flattens_of_lowerAll {es : List Expr} {vs : List Value}
    (h : Expr.lowerAll cx es (.filling n ops span sc) = .ok vs b) :
    ∃ new m span', Flattens cx sc es n new vs m ∧ b = .filling m (ops ++ new) span' sc := by
  induction es using Expr.list_induction generalizing n ops span vs b with
  | nil =>
    obtain ⟨rfl, rfl⟩ := pure_eq_ok.1 h
    exact ⟨[], n, span, .nil, by simp⟩
  | literal l lspan rest ih =>
    obtain ⟨v, vs, b₁, hv, hrest, rfl⟩ := lowerAll_cons_eq_ok.1 h
    simp only [Expr.lower] at hv
    obtain ⟨c, hl, rfl⟩ := map_eq_ok.1 hv
    obtain ⟨hc, rfl⟩ := literal_lower_eq_ok.1 hl
    obtain ⟨new, m, span', hnew, hb⟩ := ih hrest
    exact ⟨new, m, span', .literal hc hnew, hb⟩
  | name x xspan rest ih =>
    obtain ⟨v, vs, b₁, hv, hrest, rfl⟩ := lowerAll_cons_eq_ok.1 h
    simp only [Expr.lower] at hv
    obtain ⟨t, ht, rfl⟩ := map_eq_ok.1 hv
    obtain ⟨ty, hx, rfl, rfl⟩ := read_eq_ok ht
    obtain ⟨new, m, span', hnew, hb⟩ := ih hrest
    exact ⟨_, m, span', .name hx hnew, by simp [hb]⟩
  | binary op lhs rhs bspan rest ihargs ih =>
    obtain ⟨v, vs, b₁, hv, hrest, rfl⟩ := lowerAll_cons_eq_ok.1 h
    simp only [Expr.lower] at hv
    cases hop : BinOp.ofSymbol? op with
    | none =>
      rw [hop] at hv
      exact (throw_eq_ok.1 hv).elim
    | some o =>
      rw [hop] at hv
      obtain ⟨l, b₃, hl, hv⟩ := bind_eq_ok.1 hv
      obtain ⟨r, b₄, hr, hv⟩ := bind_eq_ok.1 hv
      obtain ⟨newₗ, k, span₁, hargs, rfl⟩ := ihargs (lowerAll_pair hl hr)
      by_cases hty : l.ty = r.ty
      · rw [if_pos hty] at hv
        cases hv
        obtain ⟨new, m, span', hnew, hb⟩ := ih hrest
        exact ⟨_, m, span', .computed hargs (.binary hop hty) hnew, by simp [hb, Expr.span]⟩
      · rw [if_neg hty] at hv
        exact (throw_eq_ok.1 hv).elim
  | call callee args cspan rest ihargs ih =>
    obtain ⟨v, vs, b₁, hv, hrest, rfl⟩ := lowerAll_cons_eq_ok.1 h
    simp only [Expr.lower] at hv
    obtain ⟨f, b₃, hcallee, hv⟩ := bind_eq_ok.1 hv
    obtain ⟨values, b₄, hvalues, hv⟩ := bind_eq_ok.1 hv
    obtain ⟨hf, rfl⟩ := functionName_eq_ok.1 hcallee
    obtain ⟨fspan, rfl⟩ := name?_eq_some hf
    obtain ⟨newₗ, k, span₁, hargs, rfl⟩ := ihargs hvalues
    obtain ⟨t, b₅, ht, hv⟩ := bind_eq_ok.1 hv
    rw [buildAt_call] at ht
    split at ht
    next =>
      cases ht
      exact (throw_eq_ok.1 hv).elim
    next hty =>
      cases ht
      cases hv
      obtain ⟨new, m, span', hnew, hb⟩ := ih hrest
      exact ⟨_, m, span', .computed hargs (.call hty) hnew, by simp [hb, Expr.span]⟩

theorem flattens_of_lower {e : Expr} (h : e.lower cx (.filling n ops span sc) = .ok v b) :
    ∃ new m span', Flattens cx sc [e] n new [v] m ∧ b = .filling m (ops ++ new) span' sc :=
  flattens_of_lowerAll (lowerAll_cons_eq_ok.2 ⟨v, [], b, h, rfl, rfl⟩)

/-- In statement position a call may return nothing. -/
theorem flattens_of_lowerEffect {e : Expr} {espan : Span} {u : Unit}
    (h : e.lowerEffect cx (.filling n ops span sc) = .ok u b) :
    ∃ new m span', StmtFlattens cx sc n (.eval e espan) new sc m ∧
      b = .filling m (ops ++ new) span' sc := by
  cases e with
  | literal | name | binary =>
    obtain ⟨v, hv, -⟩ := map_eq_ok.1 h
    obtain ⟨new, m, span', hnew, hb⟩ := flattens_of_lower hv
    exact ⟨new, m, span', .eval hnew, hb⟩
  | call callee args cspan =>
    obtain ⟨f, b₁, hcallee, h⟩ := bind_eq_ok.1 h
    obtain ⟨values, b₂, hvalues, h⟩ := bind_eq_ok.1 h
    obtain ⟨hf, rfl⟩ := functionName_eq_ok.1 hcallee
    obtain ⟨fspan, rfl⟩ := name?_eq_some hf
    obtain ⟨new, m, span', hnew, rfl⟩ := flattens_of_lowerAll hvalues
    obtain ⟨t, ht, -⟩ := map_eq_ok.1 h
    rw [buildAt_call] at ht
    split at ht
    next hty =>
      cases ht
      exact ⟨_, m, cspan, .evalVoid hnew hty, by simp⟩
    next hty =>
      cases ht
      exact ⟨_, _, cspan, .eval (.computed hnew (.call hty) .nil), by simp [Expr.span]⟩

/-- A body that a return has ended. -/
def Body.ended (n : Nat) (ops : List (Located Op)) (t : Located (Option Value)) (span : Span)
    (sc : Scope) : Body :=
  ⟨⟨n, some ⟨Block.entryName, ops, some t⟩, span⟩, sc⟩

/-- A statement that is not abandoned either goes on or ends the body. -/
theorem flattens_of_stmt {s : Stmt} {u : Unit}
    (h : s.lower cx (.filling n ops span sc) = .ok u b) :
    (∃ new sc' m span', StmtFlattens cx sc n s new sc' m ∧ b = .filling m (ops ++ new) span' sc') ∨
    (∃ new t m span', StmtReturns cx sc n s new t ∧ b = .ended m (ops ++ new) t span' sc) := by
  match s with
  | .bind x init sspan =>
    obtain ⟨v, b₁, hv, h⟩ := bind_eq_ok.1 h
    unfold declaring at hv
    cases hinit : init.lower cx (.filling n ops span sc) with
    | error stop b₂ => simp [hinit] at hv
    | ok v' b₂ =>
      simp only [hinit] at hv
      cases hv
      obtain ⟨new, m, span', hnew, rfl⟩ := flattens_of_lower hinit
      cases h
      exact .inl ⟨_, _, m, sspan, .bind hnew, by simp [Body.filling]⟩
  | .ret none sspan =>
    cases h
    exact .inr ⟨[], ⟨none, sspan⟩, n, sspan, .none, by simp [Body.ended, Body.filling]⟩
  | .ret (some e) sspan =>
    obtain ⟨v, b₁, hv, h⟩ := bind_eq_ok.1 h
    obtain ⟨new, m, span', hnew, rfl⟩ := flattens_of_lower hv
    cases h
    exact .inr ⟨new, ⟨some v, sspan⟩, m, sspan, .value hnew, rfl⟩
  | .eval e sspan =>
    obtain ⟨new, m, span', hnew, hb⟩ := flattens_of_lowerEffect h
    exact .inl ⟨new, sc, m, span', hnew, hb⟩
  | .assign x e sspan => exact (throw_eq_ok.1 h).elim

end Lowering

end Straightline
