import Straightline.Proofs.Lowering.Flatten

/-!
Lowering without errors: a statement is never abandoned in silence, so a definition that draws no
error has all of its code.
-/
namespace Straightline

open IR Source

namespace Lowering

/-- No name in scope stands for a declaration that failed. -/
def Scope.Sound (sc : Scope) : Prop := ∀ x, sc.find? x ≠ some .failed

theorem Scope.Sound.set {sc : Scope} (h : sc.Sound) (x : String) (ty : Ty) :
    (sc.set x (.typed ty)).Sound := by
  intro y
  by_cases hy : y = x
  · subst hy
    simp
  · rw [find?_set_of_ne _ _ hy]
    exact h y

/-- Whoever stopped reports an error. -/
def Stop.IsError : Stop → Prop
  | .problem p _ => p.kind.severity = .error
  | .tainted => False
  | .fault _ => True

/-- Where no declaration has failed, the step does not stop without an error; where it does not
stop, none has failed after it either. -/
def Reports {α : Type} (x : Lower α) : Prop := ∀ b : Body, b.scope.Sound → match x b with
  | .ok _ b' => b'.scope.Sound
  | .error stop _ => stop.IsError

namespace Reports

variable {α β : Type} {x : Lower α} {cx : Context}

theorem pure (a : α) : Reports (pure a : Lower α) := fun _ h => h

theorem fail {p : Problem} (hp : p.kind.severity = .error) (span : Span) :
    Reports (fail p span : Lower α) := fun _ _ => hp

theorem bind {f : α → Lower β} (hx : Reports x) (hf : ∀ a, Reports (f a)) :
    Reports (x >>= f) := by
  intro b hb
  have hxb := hx b hb
  change match EStateM.bind x f b with
    | .ok _ b' => b'.scope.Sound
    | .error stop _ => stop.IsError
  unfold EStateM.bind
  cases h : x b with
  | ok a b' =>
    rw [h] at hxb
    exact hf a b' hxb
  | error stop b' =>
    rw [h] at hxb
    exact hxb

theorem map {f : α → β} (hx : Reports x) : Reports (f <$> x) := by
  rw [map_eq_pure_bind]
  exact hx.bind fun _ => pure _

theorem build (y : Build α) : Reports (build y) := by
  intro b hb
  unfold Lowering.build
  cases h : y b.builder with
  | ok a builder => exact hb
  | error e builder => trivial

theorem buildAt (span : Span) (y : Build α) : Reports (buildAt span y) :=
  (build _).bind fun _ => build y

theorem declaring (x : String) {y : Lower α} (hy : Reports y) : Reports (declaring x y) := by
  intro b hb
  have hyb := hy b hb
  unfold Lowering.declaring
  cases h : y b with
  | ok a b' =>
    rw [h] at hyb
    exact hyb
  | error stop b' =>
    rw [h] at hyb
    exact hyb

theorem declare (x : String) (ty : Ty) : Reports (declare x ty) := fun _ hb => hb.set x ty

theorem read (x : String) (span : Span) : Reports (read cx x span) := by
  intro b hb
  rw [read_apply]
  cases hx : b.scope.find? x with
  | none => exact rfl
  | some binding =>
    cases binding with
    | failed => exact (hb x hx).elim
    | typed ty => exact buildAt span _ b hb

theorem literal (l : Literal) (span : Span) : Reports (l.lower span) := by
  unfold Literal.lower
  split
  · split
    · exact pure _
    · exact fail rfl span
  · split
    · exact pure _
    · exact fail rfl span
  · exact pure _
  · exact pure _

theorem functionName (e : Expr) : Reports e.functionName := by
  cases e with
  | name => exact pure _
  | literal | binary | call => exact fail rfl _

theorem lowerAll {es : List Expr} (h : ∀ e ∈ es, Reports (e.lower cx)) :
    Reports (Expr.lowerAll cx es) := by
  induction es with
  | nil => exact pure _
  | cons e es ih =>
    obtain ⟨he, hes⟩ := List.forall_mem_cons.1 h
    exact he.bind fun _ => (ih hes).bind fun _ => pure _

theorem lower (e : Expr) : Reports (e.lower cx) := by
  induction e using Expr.induction with
  | literal l span => exact (literal l span).map
  | name x span => exact (read x span).map
  | binary op lhs rhs span ihl ihr =>
    unfold Expr.lower
    split
    · exact fail rfl span
    · refine ihl.bind fun l => ihr.bind fun r => ?_
      split
      · exact (buildAt span _).map
      · exact fail rfl span
  | call callee args span ih =>
    unfold Expr.lower
    refine (functionName callee).bind fun f => (lowerAll ih).bind fun values => ?_
    refine (buildAt span _).bind fun t => ?_
    cases t with
    | none => exact fail rfl span
    | some t => exact pure _

theorem lowerEffect (e : Expr) : Reports (e.lowerEffect cx) := by
  cases e with
  | call callee args span =>
    refine (functionName callee).bind fun f => (lowerAll fun e _ => lower e).bind fun values => ?_
    exact (buildAt span _).map
  | literal | name | binary => exact (lower _).map

theorem stmt (cx : Context) (s : Stmt) : Reports (s.lower cx) := by
  match s with
  | .bind x init span =>
    refine (declaring x (lower init)).bind fun value => (buildAt span _).bind fun v => ?_
    exact (build _).bind fun _ => declare x _
  | .ret none span => exact buildAt span _
  | .ret (some e) span => exact (lower e).bind fun _ => buildAt span _
  | .eval e _ => exact lowerEffect e
  | .assign _ _ span => exact fail rfl span

end Reports

variable {cx : Context} {sc : Scope} {n : Nat} {ops : List (Located Op)} {span : Span}

/-- After a return there is at most a warning to come. -/
theorem lowerBody_ended (stmts : List Stmt) (t : Located (Option Value)) :
    ∃ ds, lowerBody cx stmts (.ended n ops t span sc) =
      .ok ⟨(Body.ended n ops t span sc).builder, ds, true⟩ := by
  cases stmts with
  | nil => exact ⟨_, rfl⟩
  | cons s rest => exact ⟨_, rfl⟩

theorem isError_diagnostic {p : Problem} (h : p.kind.severity = .error) (span : Span) :
    (p.diagnostic span).isError = true := decide_eq_true h

theorem lowerBody_filling (s : Stmt) (rest : List Stmt) :
    lowerBody cx (s :: rest) (.filling n ops span sc) =
      match s.lower cx (.filling n ops span sc) with
      | .ok () b => lowerBody cx rest b
      | .error (.fault e) _ => .error e
      | .error .tainted b => do
        let r ← lowerBody cx rest b
        return { r with clean := false }
      | .error (.problem p span) b => do
        let r ← lowerBody cx rest b
        return { r with diagnostics := p.diagnostic span :: r.diagnostics, clean := false } := rfl

/-- Without an error, no statement up to the first return was abandoned. -/
theorem flattens_of_lowerBody {stmts : List Stmt} {r : BodyOutcome} (hsc : sc.Sound)
    (h : lowerBody cx stmts (.filling n ops span sc) = .ok r)
    (hds : Diagnostic.anyError r.diagnostics = false) (atEnd : Located (Option Value)) :
    r.clean = true ∧ ∃ new t, BodyFlattens cx atEnd sc n stmts new t ∧
      (r.builder.block = some ⟨Block.entryName, ops ++ new, some t⟩ ∨
        t = atEnd ∧ r.builder.block = some ⟨Block.entryName, ops ++ new, none⟩) := by
  induction stmts generalizing n ops span sc with
  | nil =>
    cases h
    exact ⟨rfl, [], atEnd, .nil, .inr ⟨rfl, by simp [Body.filling]⟩⟩
  | cons s rest ih =>
    have hreports := Reports.stmt cx s (.filling n ops span sc) hsc
    rw [lowerBody_filling] at h
    cases hs : s.lower cx (.filling n ops span sc) with
    | error stop b =>
      rw [hs] at h hreports
      cases stop with
      | fault e => cases h
      | tainted => exact hreports.elim
      | problem p pspan =>
        obtain ⟨r', -, h⟩ := except_bind_eq_ok.1 h
        cases h
        simp [Diagnostic.anyError, isError_diagnostic hreports] at hds
    | ok u b =>
      rw [hs] at h hreports
      rcases flattens_of_stmt hs with
        ⟨new, sc', m, span', hnew, rfl⟩ | ⟨new, t, m, span', hnew, rfl⟩
      · obtain ⟨hclean, more, t, hmore, hblock⟩ := ih hreports h
        rw [List.append_assoc] at hblock
        exact ⟨hclean, new ++ more, t, .step hnew hmore, hblock⟩
      · obtain ⟨ds, hended⟩ := lowerBody_ended rest t
        cases h.symm.trans hended
        exact ⟨rfl, new, t, .ret hnew, .inl rfl⟩

end Lowering

namespace Source.FnDef

open Lowering

variable {d : FnDef} {entryPoint : String}

/-- The return that ends a body without one. -/
def atEnd (d : FnDef) (entryPoint : String) : Located (Option Value) :=
  ⟨if d.name.val = entryPoint then some (.const (.int 0)) else none, .nowhere⟩

theorem isError_annotationProblem? {t : Located String} {x : Diagnostic}
    (h : annotationProblem? t = some x) : x.isError = true := by
  obtain rfl := annotationProblem?_eq_some h
  exact isError_diagnostic rfl _

/-- A complaint about the header is always an error. -/
theorem isError_headerProblems {x : Diagnostic} (h : x ∈ d.headerProblems entryPoint) :
    x.isError = true := by
  rcases List.mem_append.1 h with h | h
  · obtain ⟨p, -, hp⟩ := List.mem_filterMap.1 h
    exact isError_annotationProblem? hp
  · split at h
    · cases h
    · obtain ⟨t, -, ht⟩ := Option.bind_eq_some_iff.1 (Option.mem_toList.1 h)
      exact isError_annotationProblem? ht

theorem typed_of_headerProblems (h : d.headerProblems entryPoint = []) :
    ∀ p ∈ d.params, ∃ ty, Ty.ofName? p.ty.val = some ty := by
  intro p hp
  exact annotationProblem?_eq_none.1
    (List.filterMap_eq_nil_iff.1 (List.append_eq_nil_iff.1 h).1 p hp)

/-- A name that can be read after a parameter was bound could be read before, or is the parameter. -/
theorem typed_of_setParam {sc : Scope} {x y : String} {ty? : Option Ty} {ty : Ty}
    (h : (sc.setParam x ty?).find? y = some (.typed ty)) :
    sc.find? y = some (.typed ty) ∨ x = y ∧ ty? = some ty := by
  by_cases hxy : y = x
  · subst hxy
    cases ty? with
    | none => simp [Scope.setParam] at h
    | some ty' =>
      simp only [Scope.setParam] at h
      split at h
      · exact .inl h
      · rw [Scope.find?_set_self] at h
        cases h
        exact .inr ⟨rfl, rfl⟩
  · left
    cases ty? with
    | none => rwa [Scope.setParam, Scope.find?_set_of_ne _ _ hxy] at h
    | some ty' =>
      simp only [Scope.setParam] at h
      split at h
      · exact h
      · rwa [Scope.find?_set_of_ne _ _ hxy] at h

theorem param_of_foldl {ps : List Param} {sc : Scope} {x : String} {ty : Ty}
    (h : (ps.foldl (fun s p => s.setParam p.name (Ty.ofName? p.ty.val)) sc).find? x =
      some (.typed ty)) :
    sc.find? x = some (.typed ty) ∨ ∃ p ∈ ps, p.name = x ∧ Ty.ofName? p.ty.val = some ty := by
  induction ps generalizing sc with
  | nil => exact .inl h
  | cons p ps ih =>
    rcases ih h with h | ⟨q, hq, hqx⟩
    · exact (typed_of_setParam h).imp_right fun hp => ⟨p, List.mem_cons_self, hp⟩
    · exact .inr ⟨q, List.mem_cons_of_mem _ hq, hqx⟩

/-- What can be read where the body begins is a parameter. -/
theorem param_of_scope {x : String} {ty : Ty} (hx : d.scope.find? x = some (.typed ty)) :
    ∃ p ∈ d.params, p.name = x ∧ Ty.ofName? p.ty.val = some ty := by
  rcases param_of_foldl hx with hx | hp
  · cases hx
  · exact hp

theorem foldl_setParam_sound {ps : List Param}
    (hps : ∀ p ∈ ps, ∃ ty, Ty.ofName? p.ty.val = some ty) {sc : Scope} (hsc : sc.Sound) :
    (ps.foldl (fun s p => s.setParam p.name (Ty.ofName? p.ty.val)) sc).Sound := by
  induction ps generalizing sc with
  | nil => exact hsc
  | cons p ps ih =>
    obtain ⟨⟨ty, hty⟩, hps⟩ := List.forall_mem_cons.1 hps
    have hset : sc.setParam p.name (Ty.ofName? p.ty.val) = sc.set p.name (.typed ty) := by
      rw [hty]
      exact if_neg (hsc p.name)
    rw [List.foldl_cons, hset]
    exact ih hps (hsc.set p.name ty)

theorem scope_sound (h : d.headerProblems entryPoint = []) : d.scope.Sound :=
  foldl_setParam_sound (typed_of_headerProblems h) fun x => by simp

theorem typedParams_names (h : d.headerProblems entryPoint = []) :
    d.typedParams.map (·.name) = d.params.map (·.name) := by
  have htyped := typed_of_headerProblems h
  unfold typedParams
  generalize d.params = ps at htyped
  induction ps with
  | nil => rfl
  | cons p ps ih =>
    obtain ⟨⟨ty, hty⟩, hps⟩ := List.forall_mem_cons.1 htyped
    simp [hty, ih hps]

theorem lower_eq_ok {results : List (String × Ty)} {f : Func} {ds : List Diagnostic}
    (h : d.lower entryPoint results = .ok (f, ds)) :
    ∃ r builder, lowerBody ⟨d.name.val, results⟩ d.body (.filling 0 [] .nowhere d.scope) = .ok r ∧
      (if (d.headerProblems entryPoint).isEmpty && r.clean && !r.builder.isTerminated
        then d.implicitReturn entryPoint r.builder = .ok () builder else builder = r.builder) ∧
      f = ⟨d.name.val, d.typedParams, d.resultTy entryPoint, d.name.span, builder.block.toList⟩ ∧
      ds = d.headerProblems entryPoint ++ r.diagnostics := by
  obtain ⟨r, hr, h⟩ := except_bind_eq_ok.1 h
  obtain ⟨g, hclose, h⟩ := except_bind_eq_ok.1 h
  cases h
  refine ⟨r, ?_⟩
  unfold close at hclose
  split at hclose
  next hc =>
    split at hclose
    next builder hret =>
      cases hclose
      exact ⟨builder, hr, by rwa [if_pos hc], rfl, rfl⟩
    next => cases hclose
  next hc =>
    cases hclose
    exact ⟨r.builder, hr, by rw [if_neg hc], rfl, rfl⟩

theorem name_of_lower {results : List (String × Ty)} {f : Func} {ds : List Diagnostic}
    (h : d.lower entryPoint results = .ok (f, ds)) : f.name = d.name.val := by
  obtain ⟨r, builder, -, -, rfl, -⟩ := lower_eq_ok h
  rfl

theorem implicitReturn_eq_ok (entryPoint : String) (d : FnDef) {builder : Builder}
    {ops : List (Located Op)}
    (hblock : builder.block = some ⟨Block.entryName, ops, none⟩) :
    ∃ builder', d.implicitReturn entryPoint builder = .ok () builder' ∧
      builder'.block = some ⟨Block.entryName, ops, some (d.atEnd entryPoint)⟩ := by
  obtain ⟨n, block, span⟩ := builder
  obtain rfl : block = _ := hblock
  exact ⟨_, rfl, rfl⟩

/-- A definition without errors has all of its code. -/
theorem flattens_of_lower {results : List (String × Ty)} {f : Func} {ds : List Diagnostic}
    (h : d.lower entryPoint results = .ok (f, ds)) (hds : Diagnostic.anyError ds = false) :
    d.headerProblems entryPoint = [] ∧ ∃ ops t,
      BodyFlattens ⟨d.name.val, results⟩ (d.atEnd entryPoint) d.scope 0 d.body ops t ∧
      f = ⟨d.name.val, d.typedParams, d.resultTy entryPoint, d.name.span,
        [⟨Block.entryName, ops, some t⟩]⟩ := by
  obtain ⟨r, builder, hr, hret, rfl, rfl⟩ := lower_eq_ok h
  simp only [Diagnostic.anyError, List.any_append, Bool.or_eq_false_iff] at hds
  have hheader : d.headerProblems entryPoint = [] := by
    rw [List.eq_nil_iff_forall_not_mem]
    intro x hx
    exact List.any_eq_false.1 hds.1 x hx (isError_headerProblems hx)
  obtain ⟨hclean, ops, t, hflat, hblock⟩ :=
    flattens_of_lowerBody (scope_sound hheader) hr hds.2 (d.atEnd entryPoint)
  refine ⟨hheader, ops, t, hflat, ?_⟩
  simp only [hheader, hclean, List.isEmpty_nil, Bool.true_and, Builder.isTerminated] at hret
  rcases hblock with hblock | ⟨rfl, hblock⟩
  · have hdone : builder = r.builder := by simpa [hblock, Block.isComplete] using hret
    simp [hdone, hblock]
  · have hopen : d.implicitReturn entryPoint r.builder = .ok () builder := by
      simpa [hblock, Block.isComplete] using hret
    obtain ⟨builder', hret, hblock⟩ := implicitReturn_eq_ok entryPoint d hblock
    cases hopen.symm.trans hret
    simp [hblock]

theorem isComplete_of_lower {results : List (String × Ty)} {f : Func} {ds : List Diagnostic}
    (h : d.lower entryPoint results = .ok (f, ds)) (hds : Diagnostic.anyError ds = false) :
    f.isComplete = true := by
  obtain ⟨-, ops, t, -, rfl⟩ := flattens_of_lower h hds
  rfl

end Source.FnDef

namespace Lowering

/-- The function is what the definition is lowered to, and no error came with it. -/
def LowersTo (entryPoint : String) (results : List (String × Ty)) (d : FnDef) (f : Func) : Prop :=
  ∃ ds, d.lower entryPoint results = .ok (f, ds) ∧ Diagnostic.anyError ds = false

variable {entryPoint : String} {results : List (String × Ty)}

/-- Without errors, every item is a definition and its function is in the module. -/
theorem functions_collect {p : Program} {items : List (Option Func × List Diagnostic)}
    (hitems : List.Forall₂ (fun i r => Item.lower entryPoint results i = .ok r) p items)
    {m : Module} (he : Diagnostic.anyError (collect m items).diagnostics = false) :
    ∃ fs, List.Forall₂ (LowersTo entryPoint results) p.definitions fs ∧
      (collect m items).code.functions = m.functions ++ fs ∧
      (fs = [] → (collect m items).diagnostics = []) := by
  induction hitems generalizing m with
  | nil => exact ⟨[], .nil, by simp [collect], fun _ => rfl⟩
  | @cons i r p items hi _ ih =>
    cases i with
    | stmt s span =>
      cases hi
      simp [collect, Diagnostic.anyError, isError_diagnostic (p := .outsideFunction s.describe) rfl]
        at he
    | fn d =>
      obtain ⟨⟨f, ds⟩, hd, hr⟩ := except_bind_eq_ok.1 hi
      cases hr
      cases hadd : m.add f with
      | error e =>
        simp [collect, hadd, Diagnostic.anyError, isError_diagnostic (p := .redefined f.name) rfl]
          at he
      | ok m' =>
        simp only [collect, hadd, Diagnostic.anyError, List.any_append, Bool.or_eq_false_iff] at he
        obtain ⟨fs, hfs, hfuns, -⟩ := ih he.2
        refine ⟨f :: fs, .cons ⟨ds, hd, he.1⟩ hfs, ?_, nofun⟩
        simp [collect, hadd, hfuns, Module.functions_add hadd]

/-- A program without errors has just the functions that it defines, and at least one. -/
theorem functions_of_lowerUncapped {p : Program} {moduleName : String} {o : Outcome}
    (h : p.lowerUncapped entryPoint moduleName = .ok o) (he : o.hasErrors = false) :
    List.Forall₂ (LowersTo entryPoint (p.resultTypes entryPoint)) p.definitions o.code.functions ∧
      o.code.isComplete = true := by
  obtain ⟨items, hitems, h⟩ := except_bind_eq_ok.1 h
  dsimp only [gather] at h
  split at h
  next =>
    cases h
    cases he
  next hne =>
    cases h
    obtain ⟨fs, hfs, hfuns, hnil⟩ := functions_collect (mapM_eq_ok_iff.1 hitems) he
    rw [List.nil_append] at hfuns
    have hsome : fs ≠ [] := by
      intro hfs₀
      exact hne (by simp [hfuns, hfs₀, hnil hfs₀])
    have hall : ∀ f ∈ fs, f.isComplete = true := by
      intro f hf
      obtain ⟨i, hi, rfl⟩ := List.getElem_of_mem hf
      obtain ⟨ds, hd, hds⟩ := hfs.get (hfs.length_eq ▸ hi) hi
      exact FnDef.isComplete_of_lower hd hds
    rw [hfuns]
    refine ⟨hfs, ?_⟩
    simpa [Module.isComplete, hfuns, hsome] using hall

end Lowering

end Straightline
