import Straightline.Proofs.Lowering.Abandon

/-!
What statements can be told off for. Redefinitions are found when a module is put together, so nothing
that is reported about a body, a header or a stray statement is one of them.
-/
namespace Straightline

open IR Source

/-- The diagnostic says that a function is defined more than once. -/
def Diagnostic.isRedefinition (d : Diagnostic) : Bool :=
  "function `".toList.isPrefixOf d.message.toList &&
    "` is defined more than once".toList.isSuffixOf d.message.toList

namespace Lowering

theorem isRedefinition_eq_false {d : Diagnostic} {c : Char} (h : d.message.toList.head? = some c)
    (hc : 'f' ≠ c) : d.isRedefinition = false := by
  obtain ⟨rest, hm⟩ := List.head?_eq_some_iff.1 h
  have hpre : "function `".toList.isPrefixOf d.message.toList = false := by
    rw [hm, show "function `".toList = 'f' :: "unction `".toList from rfl,
      List.isPrefixOf_cons_cons, beq_false_of_ne hc, Bool.false_and]
  rw [Diagnostic.isRedefinition, hpre, Bool.false_and]

theorem head?_append {s t : String} {c : Char} (h : s.toList.head? = some c) :
    (s ++ t).toList.head? = some c := by
  rw [String.toList_append, List.head?_append, h, Option.some_or]

namespace Problem

/-- The problem is one that a statement can have. -/
def isOfBody : Problem → Bool
  | .unknownType _ | .outsideFunction _ | .redefined _ | .noFunctions | .unreachable => false
  | _ => true

theorem isRedefinition_of_isOfBody {q : Problem} (h : q.isOfBody = true) (span : Span) :
    (q.diagnostic span).isRedefinition = false := by
  cases q with
  | integerTooWide => exact isRedefinition_eq_false (c := 'i') (head?_append (head?_append rfl)) nofun
  | malformedFloat => exact isRedefinition_eq_false (c := 'm') (head?_append (head?_append rfl)) nofun
  | unresolved => exact isRedefinition_eq_false (c := 'u') (head?_append (head?_append rfl)) nofun
  | unknownOperator => exact isRedefinition_eq_false (c := 'u') (head?_append (head?_append rfl)) nofun
  | operandTypes op =>
    have hop : (s!"operands of `{op}` have different types: ").toList.head? = some 'o' :=
      head?_append (head?_append rfl)
    exact isRedefinition_eq_false (head?_append (head?_append (head?_append hop))) nofun
  | notCallable => exact isRedefinition_eq_false (c := 'c') (head?_append rfl) nofun
  | voidValue =>
    have hvoid : "a void call cannot be used as a value".toList.head? = some 'a' := rfl
    exact isRedefinition_eq_false hvoid nofun
  | assignment => exact isRedefinition_eq_false (c := 'c') (head?_append (head?_append rfl)) nofun
  | unknownType | outsideFunction | redefined | noFunctions | unreachable => cases h

theorem isRedefinition_redefined (f : String) (span : Span) :
    ((redefined f).diagnostic span).isRedefinition = true := by
  have htext : ((redefined f).diagnostic span).message.toList =
      "function `".toList ++ f.toList ++ "` is defined more than once".toList :=
    String.toList_append.trans (congrArg (· ++ _) String.toList_append)
  rw [Diagnostic.isRedefinition, Bool.and_eq_true, List.isPrefixOf_iff_prefix,
    List.isSuffixOf_iff_suffix, htext]
  exact ⟨⟨_, (List.append_assoc ..).symm⟩, ⟨_, rfl⟩⟩

end Problem

/-- If a problem stops the step, it is one that a statement can have. -/
def Blames {α : Type} (x : Lower α) : Prop :=
  ∀ ⦃b q span b'⦄, x b = .error (.problem q span) b' → q.isOfBody = true

namespace Blames

variable {α β : Type} {x : Lower α} {cx : Context}

theorem pure (a : α) : Blames (pure a : Lower α) := by
  rintro b _ _ _ ⟨⟩

theorem fail {q : Problem} (hq : q.isOfBody = true) (span : Span) : Blames (fail q span : Lower α) := by
  rintro b _ _ _ ⟨⟩
  exact hq

theorem bind {f : α → Lower β} (hx : Blames x) (hf : ∀ a, Blames (f a)) : Blames (x >>= f) := by
  intro b q span b' h
  rcases bind_eq_error.1 h with h | ⟨a, b₁, -, h⟩
  · exact hx h
  · exact hf a h

theorem map {f : α → β} (hx : Blames x) : Blames (f <$> x) :=
  fun _ _ _ _ h => hx (map_eq_error.1 h)

theorem build (y : Build α) : Blames (build y) := by
  intro b q span b' h
  unfold Lowering.build at h
  split at h <;> cases h

theorem buildAt (span : Span) (y : Build α) : Blames (buildAt span y) :=
  (build _).bind fun _ => build y

theorem declaring (x : String) {y : Lower α} (hy : Blames y) : Blames (declaring x y) := by
  intro b q span b' h
  unfold Lowering.declaring at h
  split at h
  next => cases h
  next stop b₁ hstop =>
    cases h
    exact hy hstop

theorem read (x : String) (span : Span) : Blames (read cx x span) := by
  intro b
  rw [read_apply]
  cases b.scope.find? x with
  | none => exact @fail _ _ rfl span b
  | some binding =>
    cases binding with
    | failed => rintro _ _ _ ⟨⟩
    | typed ty => exact @buildAt _ span _ b

theorem literal (l : Literal) (span : Span) : Blames (l.lower span) := by
  unfold Literal.lower
  split
  · split
    · exact pure _
    · exact fail rfl span
  · split
    · exact pure _
    · exact fail rfl span
  · exact pure _
  · exact pure _

theorem functionName (e : Expr) : Blames e.functionName := by
  cases e with
  | name => exact pure _
  | literal | binary | call => exact fail rfl _

theorem lowerAll {es : List Expr} (h : ∀ e ∈ es, Blames (e.lower cx)) :
    Blames (Expr.lowerAll cx es) := by
  induction es with
  | nil => exact pure _
  | cons e es ih =>
    obtain ⟨he, hes⟩ := List.forall_mem_cons.1 h
    exact he.bind fun _ => (ih hes).bind fun _ => pure _

theorem lower (e : Expr) : Blames (e.lower cx) := by
  induction e using Expr.induction with
  | literal l span => exact (literal l span).map
  | name x span => exact (read x span).map
  | binary op lhs rhs span ihl ihr =>
    unfold Expr.lower
    split
    · exact fail rfl span
    · refine ihl.bind fun l => ihr.bind fun r => ?_
      split
      · exact (buildAt span _).map
      · exact fail rfl span
  | call callee args span ih =>
    unfold Expr.lower
    refine (functionName callee).bind fun f => (lowerAll ih).bind fun values => ?_
    refine (buildAt span _).bind fun t => ?_
    cases t with
    | none => exact fail rfl span
    | some t => exact pure _

theorem stmt (cx : Context) (s : Stmt) : Blames (s.lower cx) := by
  match s with
  | .bind x init span =>
    refine (declaring x (lower init)).bind fun value => (buildAt span _).bind fun v => ?_
    exact (build _).bind fun _ => by rintro b _ _ _ ⟨⟩
  | .ret none span => exact buildAt span _
  | .ret (some e) span => exact (lower e).bind fun _ => buildAt span _
  | .eval (.call callee args span) _ =>
    refine (functionName callee).bind fun f => (lowerAll fun e _ => lower e).bind fun values => ?_
    exact (buildAt span _).map
  | .eval (.literal ..) _ | .eval (.name ..) _ | .eval (.binary ..) _ => exact (lower _).map
  | .assign _ _ span => exact fail rfl span

end Blames

variable {cx : Context} {entryPoint moduleName : String} {results : List (String × Ty)} {d : FnDef}
  {f : Func} {ds : List Diagnostic}

/-- No statement is told off for a redefinition. -/
theorem isRedefinition_of_lowerBody {stmts : List Stmt} {b : Body} {r : BodyOutcome}
    (h : lowerBody cx stmts b = .ok r) : ∀ x ∈ r.diagnostics, x.isRedefinition = false := by
  induction stmts generalizing b r with
  | nil =>
    cases h
    exact List.forall_mem_nil _
  | cons s rest ih =>
    rw [lowerBody] at h
    split at h
    · cases h
      have hunreachable : "unreachable statement after `return`".toList.head? = some 'u' := rfl
      exact List.forall_mem_singleton.2 (isRedefinition_eq_false hunreachable (by decide))
    split at h
    · exact ih h
    · cases h
    · obtain ⟨r', hr', h⟩ := except_bind_eq_ok.1 h
      have hrest := ih hr'
      cases h
      exact hrest
    · next q qspan b₁ hs =>
      obtain ⟨r', hr', h⟩ := except_bind_eq_ok.1 h
      have hrest := ih hr'
      cases h
      have hq := Problem.isRedefinition_of_isOfBody (Blames.stmt cx s hs) qspan
      exact List.forall_mem_cons.2 ⟨hq, hrest⟩

theorem isRedefinition_of_lower (h : d.lower entryPoint results = .ok (f, ds)) :
    ∀ x ∈ ds, x.isRedefinition = false := by
  obtain ⟨r, builder, hr, -, -, rfl⟩ := FnDef.lower_eq_ok h
  have hannotation : ∀ {t : Located String} {x : Diagnostic}, annotationProblem? t = some x →
      x.isRedefinition = false := by
    intro t x hx
    obtain rfl := annotationProblem?_eq_some hx
    exact isRedefinition_eq_false (c := 'u') (head?_append (head?_append rfl)) nofun
  refine List.forall_mem_append.2 ⟨?_, isRedefinition_of_lowerBody hr⟩
  intro x hx
  rcases List.mem_append.1 hx with hx | hx
  · obtain ⟨p, -, hp⟩ := List.mem_filterMap.1 hx
    exact hannotation hp
  · split at hx
    · cases hx
    · obtain ⟨t, -, ht⟩ := Option.bind_eq_some_iff.1 (Option.mem_toList.1 hx)
      exact hannotation ht

theorem isRedefinition_outsideFunction (s : Stmt) (span : Span) :
    ((Problem.outsideFunction s.describe).diagnostic span).isRedefinition = false := by
  have hnoun : ∃ c, s.describe.toList.head? = some c ∧ 'f' ≠ c := by
    cases s with
    | bind => exact ⟨'l', (rfl : "let statement".toList.head? = _), nofun⟩
    | assign => exact ⟨'a', (rfl : "assignment".toList.head? = _), nofun⟩
    | ret => exact ⟨'r', (rfl : "return statement".toList.head? = _), nofun⟩
    | eval => exact ⟨'e', (rfl : "expression statement".toList.head? = _), nofun⟩
  obtain ⟨c, hhead, hc⟩ := hnoun
  exact isRedefinition_eq_false (head?_append hhead) hc

end Lowering

end Straightline
