import Straightline.Proofs.Lowering.Order

/-!
Where operations come from, also where lowering gave up: every name in the code is declared in the
source, every constant is a literal of the source, and every call is written there and has a result
just when what it calls returns one.
-/
namespace Straightline

open IR Source

namespace Lowering

/-- A value that one of the expressions can have: its own if it is a literal, or a computed one. -/
def Within (parts : List Expr) : Value → Prop
  | .const c => ∃ l span, .literal l span ∈ parts ∧ l.constant? = some c
  | .var _ => False
  | .temp _ => True

/-- The result of a call has the type that its callee returns, and there is none if that is `nil`. -/
def Context.Answers (cx : Context) (f : String) (t : Option Temporary) : Prop :=
  t.map (·.ty) = if cx.resultOf f = .nil then none else some (cx.resultOf f)

/-- The operation stems from a body with the declared names and the given parts. -/
inductive Stems (cx : Context) (names : List String) (parts : List Expr) : Op → Prop
  | alloc {x : Variable} (hx : x.name ∈ names) : Stems cx names parts (.alloc x)
  | store {x : Variable} {v : Value} (hx : x.name ∈ names) (hv : Within parts v) :
      Stems cx names parts (.store (.var x) v)
  | load {t : Temporary} {x : Variable} (hx : x.name ∈ names) :
      Stems cx names parts (.load t (.var x))
  | binary {b : BinOp} {t : Temporary} {l r : Value} (hl : Within parts l) (hr : Within parts r) :
      Stems cx names parts (.binary b t l r)
  | call {t : Option Temporary} {f : String} {fspan span : Span} {args : List Expr}
      {values : List Value} (hf : .call (.name f fspan) args span ∈ parts) (ht : cx.Answers f t)
      (hvalues : ∀ v ∈ values, Within parts v) : Stems cx names parts (.call t f values)

variable {cx : Context} {sc sc' : Scope} {es parts : List Expr} {n m : Nat} {names : List String}
  {ops : List (Located Op)} {vs : List Value} {s : Stmt}

theorem Scope.Declared.set_mem (hsc : sc.Declared names) {x : String} (hx : x ∈ names) (ty : Ty) :
    (sc.set x (.typed ty)).Declared names := by
  intro y ty' hy
  rcases List.mem_cons.1 (hsc.set_typed x ty y ty' hy) with rfl | hy
  · exact hx
  · exact hy

theorem OpFor.stems {e : Expr} {args : List Expr} {values : List Value} {t : Temporary} {o : Op}
    (ho : OpFor cx e args values t o) (he : e ∈ parts) (hvalues : ∀ v ∈ values, Within parts v) :
    Stems cx names parts o := by
  cases ho with
  | binary hop hty => exact .binary (hvalues _ (by simp)) (hvalues _ (by simp))
  | call hty => exact .call he (by simp [Context.Answers, hty]) hvalues

/-- The code of expressions stems from their parts, and so do their values. -/
theorem Flattens.stems (h : Flattens cx sc es n ops vs m) (hsc : sc.Declared names)
    (hes : ∀ e ∈ Expr.partsAll es, e ∈ parts) :
    (∀ o ∈ ops, Stems cx names parts o.val) ∧ ∀ v ∈ vs, Within parts v := by
  induction h with
  | nil => exact ⟨List.forall_mem_nil _, List.forall_mem_nil _⟩
  | literal hc _ ih =>
    obtain ⟨⟨hl, -⟩, hrest⟩ := Expr.forall_mem_partsAll_cons.1 hes
    obtain ⟨hops, hvs⟩ := ih hrest
    exact ⟨hops, List.forall_mem_cons.2 ⟨⟨_, _, hl, hc⟩, hvs⟩⟩
  | name hx _ ih =>
    obtain ⟨hops, hvs⟩ := ih (Expr.forall_mem_partsAll_cons.1 hes).2
    exact ⟨List.forall_mem_cons.2 ⟨.load (hsc _ _ hx), hops⟩,
      List.forall_mem_cons.2 ⟨trivial, hvs⟩⟩
  | computed _ ho _ ihargs ih =>
    obtain ⟨⟨he, hargs⟩, hrest⟩ := Expr.forall_mem_partsAll_cons.1 hes
    rw [ho.operands_eq] at hargs
    obtain ⟨hopsₗ, hvalues⟩ := ihargs hargs
    obtain ⟨hops, hvs⟩ := ih hrest
    refine ⟨?_, List.forall_mem_cons.2 ⟨trivial, hvs⟩⟩
    exact List.forall_mem_append.2 ⟨hopsₗ, List.forall_mem_cons.2 ⟨ho.stems he hvalues, hops⟩⟩

/-- A call that returns nothing stems from the parts with its arguments. -/
theorem Flattens.stems_void {f : String} {fspan span : Span} (h : Flattens cx sc es n ops vs m)
    (hsc : sc.Declared names) (hf : .call (.name f fspan) es span ∈ parts)
    (hes : ∀ e ∈ Expr.partsAll es, e ∈ parts) (hty : cx.resultOf f = .nil) :
    ∀ o ∈ ops ++ [⟨.call none f vs, span⟩], Stems cx names parts o.val := by
  obtain ⟨hops, hvs⟩ := h.stems hsc hes
  refine List.forall_mem_append.2 ⟨hops, List.forall_mem_singleton.2 ?_⟩
  exact .call hf (by simp [Context.Answers, hty]) hvs

theorem Abandons.stems (h : Abandons cx sc es n ops m) (hsc : sc.Declared names)
    (hes : ∀ e ∈ Expr.partsAll es, e ∈ parts) : ∀ o ∈ ops, Stems cx names parts o.val := by
  induction h with
  | literal | name | operator | callee => exact List.forall_mem_nil _
  | operands _ _ ih | args _ ih => exact ih (Expr.forall_mem_partsAll_cons.1 hes).1.2
  | types _ hflat _ => exact (hflat.stems hsc (Expr.forall_mem_partsAll_cons.1 hes).1.2).1
  | void hflat hty =>
    obtain ⟨⟨hf, hargs⟩, -⟩ := Expr.forall_mem_partsAll_cons.1 hes
    exact hflat.stems_void hsc hf hargs hty
  | @later e _ _ _ _ _ _ _ hflat _ ih =>
    obtain ⟨he, hrest⟩ := Expr.forall_mem_partsAll_cons.1 hes
    have hfirst : ∀ e' ∈ Expr.partsAll [e], e' ∈ parts :=
      Expr.forall_mem_partsAll_cons.2 ⟨he, List.forall_mem_nil _⟩
    exact List.forall_mem_append.2 ⟨(hflat.stems hsc hfirst).1, ih hrest⟩

theorem StmtFlattens.stems (h : StmtFlattens cx sc n s ops sc' m) (hsc : sc.Declared names)
    (hs : ∀ e ∈ Expr.partsAll s.exprs, e ∈ parts) (hx : ∀ x ∈ s.declared?, x ∈ names) :
    sc'.Declared names ∧ ∀ o ∈ ops, Stems cx names parts o.val := by
  cases h with
  | @bind x init span m ops v hinit =>
    obtain ⟨hops, hv⟩ := hinit.stems hsc hs
    have hmem : x ∈ names := hx x rfl
    refine ⟨hsc.set_mem hmem v.ty, List.forall_mem_append.2 ⟨hops, ?_⟩⟩
    have hstore : Stems cx names parts (.store (.var ⟨x, v.ty⟩) v) := .store hmem (hv v (by simp))
    exact List.forall_mem_cons.2 ⟨.alloc hmem, List.forall_mem_singleton.2 hstore⟩
  | eval he => exact ⟨hsc, (he.stems hsc hs).1⟩
  | evalVoid hargs hty =>
    obtain ⟨⟨hf, hparts⟩, -⟩ := Expr.forall_mem_partsAll_cons.1 hs
    exact ⟨hsc, hargs.stems_void hsc hf hparts hty⟩

theorem StmtAbandons.stems (h : StmtAbandons cx sc n s ops sc' m) (hsc : sc.Declared names)
    (hs : ∀ e ∈ Expr.partsAll s.exprs, e ∈ parts) :
    sc'.Declared names ∧ ∀ o ∈ ops, Stems cx names parts o.val := by
  cases h with
  | @bind x _ _ _ _ h => exact ⟨hsc.set_failed x, h.stems hsc hs⟩
  | ret h | eval _ h => exact ⟨hsc, h.stems hsc hs⟩
  | evalArgs h => exact ⟨hsc, h.stems hsc (Expr.forall_mem_partsAll_cons.1 hs).1.2⟩
  | evalCallee | assign => exact ⟨hsc, List.forall_mem_nil _⟩

/-- What is left of a body stems from its statements, and so does what it returns. -/
theorem BodyLeaves.stems {stmts : List Stmt} {t : Option (Located (Option Value))}
    (h : BodyLeaves cx sc n stmts ops t) (hsc : sc.Declared names)
    (hs : ∀ s ∈ stmts, (∀ e ∈ Expr.partsAll s.exprs, e ∈ parts) ∧ ∀ x ∈ s.declared?, x ∈ names) :
    (∀ o ∈ ops, Stems cx names parts o.val) ∧ ∀ r ∈ t, ∀ v ∈ r.val, Within parts v := by
  induction h with
  | nil => exact ⟨List.forall_mem_nil _, nofun⟩
  | step hstep _ ih =>
    obtain ⟨⟨hparts, hx⟩, hrest⟩ := List.forall_mem_cons.1 hs
    obtain ⟨hsc', hnew⟩ := hstep.stems hsc hparts hx
    obtain ⟨hops, ht⟩ := ih hsc' hrest
    exact ⟨List.forall_mem_append.2 ⟨hnew, hops⟩, ht⟩
  | abandoned hstep _ ih =>
    obtain ⟨⟨hparts, -⟩, hrest⟩ := List.forall_mem_cons.1 hs
    obtain ⟨hsc', hnew⟩ := hstep.stems hsc hparts
    obtain ⟨hops, ht⟩ := ih hsc' hrest
    exact ⟨List.forall_mem_append.2 ⟨hnew, hops⟩, ht⟩
  | ret hret =>
    obtain ⟨⟨hparts, -⟩, -⟩ := List.forall_mem_cons.1 hs
    cases hret with
    | none =>
      refine ⟨List.forall_mem_nil _, ?_⟩
      rintro _ ⟨⟩ v hv
      cases hv
    | value he =>
      obtain ⟨hops, hv⟩ := he.stems hsc hparts
      refine ⟨hops, ?_⟩
      rintro _ ⟨⟩ _ ⟨⟩
      exact hv _ (by simp)

end Lowering

namespace Source.FnDef

open Lowering

variable {entryPoint : String} {d : FnDef} {results : List (String × Ty)}

/-- All expressions in the body of a definition. -/
def parts (d : FnDef) : List Expr := d.body.flatMap fun s => Expr.partsAll s.exprs

/-- The names that a definition declares: its parameters and what its statements bind. -/
def declared (d : FnDef) : List String :=
  d.params.map (·.name) ++ d.body.filterMap Stmt.declared?

theorem scope_declared_params (d : FnDef) : d.scope.Declared d.declared := by
  intro x ty hx
  obtain ⟨p, hp, rfl, -⟩ := param_of_scope hx
  exact List.mem_append_left _ (List.mem_map_of_mem hp)

/-- The one block of a definition's function holds what stems from the definition. -/
theorem stems_of_lower {f : Func} {ds : List Diagnostic}
    (h : d.lower entryPoint results = .ok (f, ds)) :
    ∃ b, f.blocks = [b] ∧ b.name = Block.entryName ∧
      (∀ o ∈ b.body, Stems ⟨d.name.val, results⟩ d.declared d.parts o.val) ∧
      ∀ t ∈ b.terminator, ∀ v ∈ t.val, Within d.parts v ∨ v = .const (.int 0) := by
  obtain ⟨f', ds', ops, t, h', hleaves, -, hf⟩ := lower_leaves entryPoint d results
  cases h.symm.trans h'
  have hs : ∀ s ∈ d.body, (∀ e ∈ Expr.partsAll s.exprs, e ∈ d.parts) ∧
      ∀ x ∈ s.declared?, x ∈ d.declared := by
    intro s hs
    refine ⟨fun e he => List.mem_flatMap.2 ⟨s, hs, he⟩, fun x hx => ?_⟩
    exact List.mem_append_right _ (List.mem_filterMap.2 ⟨s, hs, hx⟩)
  obtain ⟨hops, hret⟩ := hleaves.stems d.scope_declared_params hs
  refine ⟨_, by rw [hf], rfl, hops, ?_⟩
  intro r hr v hv
  cases t with
  | some t => exact .inl (hret r hr v hv)
  | none =>
    rw [Option.none_or] at hr
    split at hr
    · cases hr
    · cases hr
      unfold atEnd at hv
      split at hv <;> cases hv
      exact .inr rfl

end Source.FnDef

end Straightline
