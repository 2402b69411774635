import Straightline.Proofs.Lowering.Abandon

/-!
Lowering statement by statement. A statement that fails is abandoned and the next one is tried, until a
return goes through. What is reported on the way stays in front of what is reported later, and at an
abandoned statement there is always an error by then; so without errors nothing is missing.
-/
namespace Straightline

open IR Source

namespace Lowering

/-- What is reported where lowering stops. -/
def Stop.diagnostics : Stop → List Diagnostic
  | .problem p span => [p.diagnostic span]
  | .tainted | .fault _ => []

/-- Tries a statement: what is reported about it, and the body after it. Nothing happens after a
return. -/
def attempt (cx : Context) (s : Stmt) (b : Body) : List Diagnostic × Body :=
  if b.builder.isTerminated then ([], b)
  else match s.lower cx b with
    | .ok () b' => ([], b')
    | .error stop b' => (stop.diagnostics, b')

/-- Tries the statements in order. -/
def attemptAll (cx : Context) : List Stmt → Body → List Diagnostic × Body
  | [], b => ([], b)
  | s :: rest, b =>
    let (ds, b) := attempt cx s b
    let (more, b) := attemptAll cx rest b
    (ds ++ more, b)

/-- What has been reported so far has an error, or no declaration has failed; or a return has gone
through. -/
def Told (ds : List Diagnostic) (b : Body) : Prop :=
  b.builder.isTerminated = true ∨ ∃ n ops span sc, b = .filling n ops span sc ∧
    (Diagnostic.anyError ds = true ∨ sc.Sound)

/-- The terminator is what the return is lowered to in the body. -/
def ReturnsAs (cx : Context) (b : Body) : Stmt → Located (Option Value) → Prop
  | .ret none span, t => t = ⟨none, span⟩
  | .ret (some e) span, t => ∃ v b', e.lower cx b = .ok v b' ∧ t = ⟨some v, span⟩
  | _, _ => False

variable {cx : Context} {b b' : Body} {s : Stmt} {stop : Stop} {ds : List Diagnostic} {n : Nat}
  {ops : List (Located Op)} {span : Span} {sc : Scope}

theorem attempt_terminated (h : b.builder.isTerminated = true) : attempt cx s b = ([], b) :=
  if_pos h

theorem attempt_ok (hopen : b.builder.isTerminated = false) (h : s.lower cx b = .ok () b') :
    attempt cx s b = ([], b') := by
  simp [attempt, hopen, h]

theorem attempt_error (hopen : b.builder.isTerminated = false) (h : s.lower cx b = .error stop b') :
    attempt cx s b = (stop.diagnostics, b') := by
  simp [attempt, hopen, h]

theorem attemptAll_cons (s : Stmt) (rest : List Stmt) (b : Body) :
    attemptAll cx (s :: rest) b = ((attempt cx s b).1 ++ (attemptAll cx rest (attempt cx s b).2).1,
      (attemptAll cx rest (attempt cx s b).2).2) := rfl

theorem attemptAll_terminated (stmts : List Stmt) (h : b.builder.isTerminated = true) :
    attemptAll cx stmts b = ([], b) := by
  induction stmts with
  | nil => rfl
  | cons s rest ih => rw [attemptAll_cons, attempt_terminated h, ih]; rfl

/-- A body that is open has been open before. -/
theorem open_of_attemptAll {stmts : List Stmt}
    (h : (attemptAll cx stmts b).2.builder.isTerminated = false) : b.builder.isTerminated = false := by
  by_contra hdone
  rw [attemptAll_terminated _ (by simpa using hdone)] at h
  exact hdone h

theorem attemptAll_append (pre post : List Stmt) (b : Body) :
    (attemptAll cx (pre ++ post) b).2 = (attemptAll cx post (attemptAll cx pre b).2).2 := by
  induction pre generalizing b with
  | nil => rfl
  | cons s pre ih => exact ih _

theorem anyError_append (ds more : List Diagnostic) :
    Diagnostic.anyError (ds ++ more) = (Diagnostic.anyError ds || Diagnostic.anyError more) :=
  List.any_append

/-- A statement is never abandoned in silence: an error is reported by then. -/
theorem Told.abandoned (h : Told ds b) (hopen : b.builder.isTerminated = false)
    (hs : s.lower cx b = .error stop b') : Diagnostic.anyError (ds ++ stop.diagnostics) = true := by
  rcases h with hdone | ⟨n, ops, span, sc, rfl, herr | hsc⟩
  · cases hopen.symm.trans hdone
  · rw [anyError_append, herr, Bool.true_or]
  · -- No name in scope is tainted, so the statement itself is reported.
    have hreports := Reports.stmt cx s (.filling n ops span sc) hsc
    rw [hs] at hreports
    cases stop with
    | problem p pspan =>
      have hp : Diagnostic.anyError [p.diagnostic pspan] = true := by
        simp [Diagnostic.anyError, isError_diagnostic hreports]
      rw [anyError_append, Stop.diagnostics, hp, Bool.or_true]
    | tainted => exact hreports.elim
    | fault e => exact ((abandons_of_stmt hs).1 e rfl).elim

theorem Told.step (cx : Context) (h : Told ds b) (s : Stmt) :
    Told (ds ++ (attempt cx s b).1) (attempt cx s b).2 := by
  by_cases hdone : b.builder.isTerminated = true
  · rw [attempt_terminated hdone]
    exact .inl hdone
  rcases id h with hdone' | ⟨n, ops, span, sc, rfl, hsound⟩
  · exact (hdone hdone').elim
  cases hs : s.lower cx (.filling n ops span sc) with
  | error stop b' =>
    have herr := h.abandoned rfl hs
    obtain ⟨-, new, sc', m, span', -, rfl⟩ := abandons_of_stmt hs
    rw [attempt_error rfl hs]
    exact .inr ⟨m, _, span', sc', rfl, .inl herr⟩
  | ok u b' =>
    rw [attempt_ok rfl hs]
    rcases flattens_of_stmt hs with ⟨new, sc', m, span', -, rfl⟩ | ⟨new, t, m, span', -, rfl⟩
    · refine .inr ⟨m, _, span', sc', rfl, ?_⟩
      rw [List.append_nil]
      refine hsound.imp_right fun hsc => ?_
      have hreports := Reports.stmt cx s (.filling n ops span sc) hsc
      rw [hs] at hreports
      exact hreports
    · exact .inl rfl

theorem Told.run (cx : Context) (h : Told ds b) (stmts : List Stmt) :
    Told (ds ++ (attemptAll cx stmts b).1) (attemptAll cx stmts b).2 := by
  induction stmts generalizing ds b with
  | nil =>
    rw [attemptAll, List.append_nil]
    exact h
  | cons s rest ih =>
    rw [attemptAll_cons, ← List.append_assoc]
    exact ih (h.step cx s)

/-- Only a return can end the body. -/
theorem attempt_filling (hs : s.isReturn = false) : ∃ ds m ops' span' sc',
    attempt cx s (.filling n ops span sc) = (ds, .filling m ops' span' sc') := by
  cases h : s.lower cx (.filling n ops span sc) with
  | error stop b' =>
    obtain ⟨-, new, sc', m, span', -, rfl⟩ := abandons_of_stmt h
    exact ⟨_, m, _, span', sc', attempt_error rfl h⟩
  | ok u b' =>
    rcases flattens_of_stmt h with ⟨new, sc', m, span', -, rfl⟩ | ⟨new, t, m, span', hret, -⟩
    · exact ⟨_, m, _, span', sc', attempt_ok rfl h⟩
    · cases hs.symm.trans hret.isReturn

theorem attemptAll_filling {stmts : List Stmt} (h : ∀ s ∈ stmts, s.isReturn = false) :
    ∃ ds m ops' span' sc',
      attemptAll cx stmts (.filling n ops span sc) = (ds, .filling m ops' span' sc') := by
  induction stmts generalizing n ops span sc with
  | nil => exact ⟨[], n, ops, span, sc, rfl⟩
  | cons s rest ih =>
    obtain ⟨hs, hrest⟩ := List.forall_mem_cons.1 h
    obtain ⟨ds, k, ops₁, span₁, sc₁, hstep⟩ := attempt_filling hs
    obtain ⟨more, m, ops₂, span₂, sc₂, hmore⟩ := ih hrest
    refine ⟨ds ++ more, m, ops₂, span₂, sc₂, ?_⟩
    rw [attemptAll_cons, hstep, hmore]

/-- Lowering a body goes through its statements one by one, as long as none of them ends it. -/
theorem lowerBody_append {pre rest : List Stmt} {r : BodyOutcome}
    (h : lowerBody cx (pre ++ rest) b = .ok r)
    (hopen : (attemptAll cx pre b).2.builder.isTerminated = false) :
    ∃ r', lowerBody cx rest (attemptAll cx pre b).2 = .ok r' ∧ r.builder = r'.builder ∧
      r.diagnostics = (attemptAll cx pre b).1 ++ r'.diagnostics := by
  induction pre generalizing b r with
  | nil => exact ⟨r, h, rfl, rfl⟩
  | cons s pre ih =>
    have hopen₀ := open_of_attemptAll hopen
    rw [attemptAll_cons] at hopen ⊢
    rw [List.cons_append, lowerBody, if_neg (by simp [hopen₀])] at h
    cases hs : s.lower cx b with
    | ok u b' =>
      rw [attempt_ok hopen₀ hs] at hopen ⊢
      rw [hs] at h
      exact ih h hopen
    | error stop b' =>
      rw [attempt_error hopen₀ hs] at hopen ⊢
      rw [hs] at h
      cases stop with
      | fault e => cases h
      | tainted =>
        obtain ⟨r₁, hr₁, h⟩ := except_bind_eq_ok.1 h
        cases h
        obtain ⟨r', hr', hbuilder, hds⟩ := ih hr₁ hopen
        exact ⟨r', hr', hbuilder, hds⟩
      | problem p pspan =>
        obtain ⟨r₁, hr₁, h⟩ := except_bind_eq_ok.1 h
        cases h
        obtain ⟨r', hr', hbuilder, hds⟩ := ih hr₁ hopen
        exact ⟨r', hr', hbuilder, by rw [hds]; rfl⟩

/-- A return that goes through ends the body with its value. -/
theorem returnsAs_of_lower (hret : s.isReturn = true)
    (h : s.lower cx (.filling n ops span sc) = .ok () b) :
    ∃ m new t span', b = .ended m (ops ++ new) t span' sc ∧
      ReturnsAs cx (.filling n ops span sc) s t := by
  match s with
  | .ret none rspan =>
    cases h
    exact ⟨n, [], ⟨none, rspan⟩, rspan, by rw [List.append_nil]; rfl, rfl⟩
  | .ret (some e) rspan =>
    obtain ⟨v, b', he, h⟩ := bind_eq_ok.1 h
    obtain ⟨new, m, span', -, rfl⟩ := flattens_of_lower he
    cases h
    exact ⟨m, new, ⟨some v, rspan⟩, rspan, rfl, v, _, he, rfl⟩

/-- Without a return, a body ends as it is told to. -/
theorem BodyFlattens.eq_atEnd {atEnd t : Located (Option Value)} {stmts : List Stmt}
    (h : BodyFlattens cx atEnd sc n stmts ops t) (hs : ∀ s ∈ stmts, s.isReturn = false) :
    t = atEnd := by
  induction h with
  | nil => rfl
  | step _ _ ih => exact ih (List.forall_mem_cons.1 hs).2
  | ret hret => cases (hs _ (.head _)).symm.trans hret.isReturn

end Lowering

namespace Source.FnDef

open Lowering

variable {entryPoint : String} {d : FnDef} {results : List (String × Ty)} {f : Func}
  {ds : List Diagnostic} {pre post : List Stmt} {s : Stmt}

theorem told_start (entryPoint : String) (d : FnDef) :
    Told (d.headerProblems entryPoint) d.start := by
  refine .inr ⟨0, [], .nowhere, d.scope, rfl, ?_⟩
  cases h : d.headerProblems entryPoint with
  | nil => exact .inr (scope_sound h)
  | cons x rest =>
    have hx := isError_headerProblems (h ▸ List.mem_cons_self : x ∈ d.headerProblems entryPoint)
    left
    simp [Diagnostic.anyError, hx]

/-- What is reported up to an abandoned statement has an error in it and comes first of all that is
reported about the definition. -/
theorem raised_of_abandoned (h : d.lower entryPoint results = .ok (f, ds))
    (hbody : d.body = pre ++ s :: post) {stop : Stop} {b b' : Body} {raised : List Diagnostic}
    (hpre : attemptAll ⟨d.name.val, results⟩ pre d.start = (raised, b))
    (hopen : b.builder.isTerminated = false)
    (hs : s.lower ⟨d.name.val, results⟩ b = .error stop b') :
    Diagnostic.anyError (d.headerProblems entryPoint ++ raised ++ stop.diagnostics) = true ∧
      d.headerProblems entryPoint ++ raised ++ stop.diagnostics <+: ds := by
  have htold := (told_start entryPoint d).run ⟨d.name.val, results⟩ pre
  rw [hpre] at htold
  refine ⟨htold.abandoned hopen hs, ?_⟩
  obtain ⟨r, -, hr, -, -, rfl⟩ := lower_eq_ok h
  rw [hbody] at hr
  obtain ⟨r₁, hr₁, -, hds⟩ := lowerBody_append (b := d.start) hr (by rw [hpre]; exact hopen)
  -- The statement leaves the body open, so the rest of it is lowered from there.
  have hstep : attemptAll ⟨d.name.val, results⟩ [s] b = (stop.diagnostics, b') := by
    rw [attemptAll_cons, attempt_error hopen hs, attemptAll, List.append_nil]
  have hopen' : b'.builder.isTerminated = false := by
    rcases htold with hdone | ⟨n, ops, span, sc, rfl, -⟩
    · cases hopen.symm.trans hdone
    · obtain ⟨-, new, sc', m, span', -, rfl⟩ := abandons_of_stmt hs
      rfl
  rw [hpre] at hr₁ hds
  have hr₁ : lowerBody ⟨d.name.val, results⟩ ([s] ++ post) b = .ok r₁ := hr₁
  obtain ⟨r₂, -, -, hds₁⟩ := lowerBody_append hr₁ (by rw [hstep]; exact hopen')
  rw [hds, hds₁, hstep]
  exact ⟨r₂.diagnostics, by simp⟩

/-- Without errors, the block ends in the first return. -/
theorem returnsAs_of_lower (h : d.lower entryPoint results = .ok (f, ds))
    (hds : Diagnostic.anyError ds = false) (hbody : d.body = pre ++ s :: post)
    (hpre : ∀ s' ∈ pre, s'.isReturn = false) (hs : s.isReturn = true) :
    ∃ ops t, f.blocks = [⟨Block.entryName, ops, some t⟩] ∧
      ReturnsAs ⟨d.name.val, results⟩ (attemptAll ⟨d.name.val, results⟩ pre d.start).2 s t := by
  obtain ⟨raised, m, ops, span, sc, hb⟩ : ∃ raised m ops span sc,
      attemptAll ⟨d.name.val, results⟩ pre d.start = (raised, .filling m ops span sc) :=
    attemptAll_filling hpre
  rw [hb]
  cases hlow : s.lower ⟨d.name.val, results⟩ (.filling m ops span sc) with
  | error stop b' =>
    obtain ⟨herr, more, rfl⟩ := raised_of_abandoned h hbody hb rfl hlow
    rw [anyError_append, herr] at hds
    cases hds
  | ok u b' =>
    obtain ⟨k, new, t, span', rfl, ht⟩ := Lowering.returnsAs_of_lower hs hlow
    obtain ⟨r, builder, hr, hret, rfl, rfl⟩ := lower_eq_ok h
    rw [hbody] at hr
    obtain ⟨r', hr', hbuilder, -⟩ := lowerBody_append (b := d.start) hr (by rw [hb]; rfl)
    rw [hb, lowerBody_filling, hlow] at hr'
    obtain ⟨ds, hended⟩ := lowerBody_ended post t
    cases hr'.symm.trans hended
    have hdone : builder = r.builder := by
      rw [hbuilder] at hret ⊢
      simpa [Builder.isTerminated, Body.ended, Block.isComplete] using hret
    refine ⟨ops ++ new, t, ?_, ht⟩
    rw [hdone, hbuilder]
    rfl

/-- Lowering without errors is complete. Every definition has a function; if no error is reported about
it, the function is one block that ends in the first return of the body, or in the implicit return if
there is none. And where a statement is abandoned, an error was reported at it or before. -/
theorem complete_without_errors (entryPoint : String) (d : FnDef) (results : List (String × Ty)) :
    ∃ f ds, d.lower entryPoint results = .ok (f, ds) ∧
      (Diagnostic.anyError ds = false → ∃ b t, f.blocks = [b] ∧ b.name = "entry" ∧
        b.terminator = some t ∧
        (∀ pre s post, d.body = pre ++ s :: post → (∀ s' ∈ pre, s'.isReturn = false) →
          s.isReturn = true →
          ReturnsAs ⟨d.name.val, results⟩ (attemptAll ⟨d.name.val, results⟩ pre d.start).2 s t) ∧
        ((∀ s ∈ d.body, s.isReturn = false) → t.span = .nowhere ∧
          t.val = if d.name.val = entryPoint then some (.const (.int 0)) else none)) ∧
      ∀ pre s post raised b, d.body = pre ++ s :: post →
        attemptAll ⟨d.name.val, results⟩ pre d.start = (raised, b) →
        b.builder.isTerminated = false →
        ∀ stop b', s.lower ⟨d.name.val, results⟩ b = .error stop b' →
          Diagnostic.anyError (d.headerProblems entryPoint ++ raised ++ stop.diagnostics) = true ∧
          d.headerProblems entryPoint ++ raised ++ stop.diagnostics <+: ds := by
  obtain ⟨f, ds, -, -, h, -⟩ := d.lower_leaves entryPoint results
  refine ⟨f, ds, h, ?_, ?_⟩
  · intro hds
    obtain ⟨-, ops, t, hflat, hf⟩ := flattens_of_lower h hds
    refine ⟨⟨Block.entryName, ops, some t⟩, t, by rw [hf], rfl, rfl, ?_, ?_⟩
    · intro pre s post hbody hpre hs
      obtain ⟨ops', t', hblocks, ht'⟩ := returnsAs_of_lower h hds hbody hpre hs
      rw [hf] at hblocks
      cases hblocks
      exact ht'
    · intro hreturns
      rw [hflat.eq_atEnd hreturns]
      exact ⟨rfl, rfl⟩
  · intro pre s post raised b hbody hpre hopen stop b' hs
    exact raised_of_abandoned h hbody hpre hopen hs

/-- `func main() { let a = 1; return a; return 2 }` -/
def returningTwice : FnDef :=
  ⟨⟨"main", .nowhere⟩, [], none, [.bind "a" (.literal (.int "1") .nowhere) .nowhere,
    .ret (some (.name "a" .nowhere)) ⟨0, 28, 36⟩,
    .ret (some (.literal (.int "2") .nowhere)) ⟨0, 38, 46⟩]⟩

/-- `func g() { let a = y; a }`, where only the first statement is reported, though both are
abandoned. -/
def usingFailed : FnDef :=
  ⟨⟨"g", .nowhere⟩, [], none, [.bind "a" (.name "y" .nowhere) .nowhere,
    .eval (.name "a" .nowhere) .nowhere]⟩

theorem complete_without_errors_sample :
    (∃ f ds b t, returningTwice.lower "main" [] = .ok (f, ds) ∧ Diagnostic.anyError ds = false ∧
      f.blocks = [b] ∧ b.terminator = some t ∧ t.val.isSome = true ∧ t.span = ⟨0, 28, 36⟩) ∧
    ∃ f ds b, usingFailed.lower "main" [] = .ok (f, ds) ∧
      attemptAll ⟨"g", []⟩ [.bind "a" (.name "y" .nowhere) .nowhere] usingFailed.start =
        ([(Problem.unresolved "y" "g").diagnostic .nowhere], b) ∧
      (Stmt.eval (.name "a" .nowhere) .nowhere).lower ⟨"g", []⟩ b = .error .tainted b ∧
      Diagnostic.anyError [(Problem.unresolved "y" "g").diagnostic .nowhere] = true ∧
      [(Problem.unresolved "y" "g").diagnostic .nowhere] <+: ds := by
  constructor
  · obtain ⟨f, ds, h, hclean, -⟩ := complete_without_errors "main" returningTwice []
    have heval : (returningTwice.lower "main" []).toOption.map (fun r => Diagnostic.anyError r.2) =
        some false := by
      decide +kernel
    rw [h] at heval
    have hds := Option.some.inj heval
    obtain ⟨b, t, hb, -, ht, hfirst, -⟩ := hclean hds
    obtain ⟨v, b', -, rfl⟩ := hfirst [_] _ [_] rfl (by simp [Stmt.isReturn]) rfl
    exact ⟨f, ds, b, _, h, hds, hb, ht, rfl, rfl⟩
  · obtain ⟨f, ds, h, -, habandoned⟩ := complete_without_errors "main" usingFailed []
    have hpre : attemptAll ⟨"g", []⟩ [.bind "a" (.name "y" .nowhere) .nowhere] usingFailed.start =
        ([(Problem.unresolved "y" "g").diagnostic .nowhere],
          .filling 0 [] .nowhere (usingFailed.scope.set "a" .failed)) := rfl
    have hraised := habandoned [_] _ [] _ _ rfl hpre rfl .tainted _ rfl
    exact ⟨f, ds, _, h, hpre, rfl, hraised⟩

end Source.FnDef

end Straightline
