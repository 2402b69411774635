import Straightline.Proofs.Lowering.Blame
import Straightline.Proofs.Lowering.Reads

/-!
What each statement of a body contributes to what is reported about it: at most one diagnostic, and an
unresolved identifier just where a name is read that nothing before declares.
-/
namespace Straightline

open IR Source

namespace Lowering

variable {cx : Context} {x : String} {b : Body} {s : Stmt}

/-! ## Messages -/

theorem opening_append {s t : String} {c : List Char} (h : c <+: s.toList) :
    c <+: (s ++ t).toList := by
  rw [String.toList_append]
  exact h.trans (List.prefix_append _ _)

theorem ne_unresolved {m : String} {c : List Char} (hm : c <+: m.toList) (hlen : c.length = 5)
    (hc : c ≠ ['u', 'n', 'r', 'e', 's']) (x : String) :
    m ≠ "unresolved identifier `" ++ x ++ "`" := by
  rintro rfl
  have h : ['u', 'n', 'r', 'e', 's'] <+: ("unresolved identifier `" ++ x ++ "`").toList :=
    opening_append (opening_append ⟨_, rfl⟩)
  exact hc ((List.prefix_of_prefix_length_le hm h (by simp [hlen])).eq_of_length hlen)

/-- No other problem of a statement is worded as an unresolved identifier. -/
theorem Problem.eq_unresolved {q : Problem} (hq : q.isOfBody = true)
    (h : q.message = "unresolved identifier `" ++ x ++ "`") : ∃ f, q = .unresolved x f := by
  have hne {c : List Char} (hm : c <+: q.message.toList) (hlen : c.length = 5)
      (hc : c ≠ ['u', 'n', 'r', 'e', 's']) : ∃ f, q = .unresolved x f :=
    (ne_unresolved hm hlen hc x h).elim
  cases q with
  | unresolved y f =>
    have hy : "unresolved identifier `" ++ y ++ "`" = "unresolved identifier `" ++ x ++ "`" := h
    rw [String.append_left_inj, String.append_right_inj] at hy
    exact ⟨f, by rw [hy]⟩
  | integerTooWide =>
    exact hne (c := ['i', 'n', 't', 'e', 'g']) (opening_append (opening_append ⟨_, rfl⟩)) rfl nofun
  | malformedFloat =>
    exact hne (c := ['m', 'a', 'l', 'f', 'o']) (opening_append (opening_append ⟨_, rfl⟩)) rfl nofun
  | unknownOperator =>
    exact hne (c := ['u', 'n', 's', 'u', 'p']) (opening_append (opening_append ⟨_, rfl⟩)) rfl nofun
  | operandTypes op =>
    have hop : ['o', 'p', 'e', 'r', 'a'] <+: (s!"operands of `{op}` have different types: ").toList :=
      opening_append (opening_append ⟨_, rfl⟩)
    exact hne (opening_append (opening_append (opening_append hop))) rfl nofun
  | notCallable => exact hne (c := ['c', 'a', 'n', 'n', 'o']) (opening_append ⟨_, rfl⟩) rfl nofun
  | voidValue => exact hne (c := ['a', ' ', 'v', 'o', 'i']) ⟨_, rfl⟩ rfl nofun
  | assignment =>
    exact hne (c := ['c', 'a', 'n', 'n', 'o']) (opening_append (opening_append ⟨_, rfl⟩)) rfl nofun
  | unknownType | outsideFunction | redefined | noFunctions | unreachable => cases hq

/-! ## What each statement contributes -/

/-- What is reported about each statement: its problem, if it has one, or that it follows a return. -/
def contributions (cx : Context) : List Stmt → Body → List (List Diagnostic)
  | [], _ => []
  | s :: rest, b =>
    if b.builder.isTerminated then [Problem.unreachable.diagnostic s.span] :: rest.map fun _ => []
    else (attempt cx s b).1 :: contributions cx rest (attempt cx s b).2

theorem length_contributions (stmts : List Stmt) (b : Body) :
    (contributions cx stmts b).length = stmts.length := by
  induction stmts generalizing b with
  | nil => rfl
  | cons s rest ih =>
    rw [contributions]
    split
    · simp
    · rw [List.length_cons, ih, List.length_cons]

theorem length_attempt_le (s : Stmt) (b : Body) : (attempt cx s b).1.length ≤ 1 := by
  unfold attempt
  split
  · exact Nat.zero_le 1
  split
  · exact Nat.zero_le 1
  next stop b' _ => cases stop <;> simp [Stop.diagnostics]

/-- Only a problem that stops a statement is reported. -/
theorem problem_of_mem_attempt {y : Diagnostic} (h : y ∈ (attempt cx s b).1) :
    ∃ q span b', s.lower cx b = .error (.problem q span) b' ∧ y = q.diagnostic span := by
  unfold attempt at h
  split at h
  · cases h
  split at h
  · cases h
  next stop b' hs =>
    cases stop with
    | problem q span => exact ⟨q, span, b', hs, List.mem_singleton.1 h⟩
    | tainted | fault => cases h

/-- One failure, one diagnostic. -/
theorem length_le_of_mem_contributions {stmts : List Stmt} {part : List Diagnostic}
    (h : part ∈ contributions cx stmts b) : part.length ≤ 1 := by
  induction stmts generalizing b with
  | nil => cases h
  | cons s rest ih =>
    rw [contributions] at h
    split at h
    · rcases List.mem_cons.1 h with rfl | h
      · exact Nat.le_refl 1
      · obtain ⟨-, -, rfl⟩ := List.mem_map.1 h
        exact Nat.zero_le 1
    · rcases List.mem_cons.1 h with rfl | h
      · exact length_attempt_le s b
      · exact ih h

/-- What is reported about some first statements is what they contribute. -/
theorem lowerBody_take {stmts : List Stmt} {k : Nat} {r : BodyOutcome}
    (h : lowerBody cx (stmts.take k) b = .ok r) :
    r.diagnostics = ((contributions cx stmts b).take k).flatten := by
  induction stmts generalizing b k r with
  | nil =>
    rw [List.take_nil] at h
    cases h
    simp [contributions]
  | cons s rest ih =>
    cases k with
    | zero =>
      cases h
      rfl
    | succ k =>
      rw [List.take_succ_cons, lowerBody] at h
      rw [contributions]
      split at h
      next hdone =>
        cases h
        have hnil : ((rest.map fun _ => ([] : List Diagnostic)).take k).flatten = [] := by
          simp
        rw [if_pos hdone, List.take_succ_cons, List.flatten_cons, hnil, List.append_nil]
      next hopen =>
        rw [if_neg hopen, List.take_succ_cons, List.flatten_cons]
        have hopen := Bool.eq_false_of_not_eq_true hopen
        split at h
        next b' hs =>
          rw [attempt_ok hopen hs]
          exact ih h
        next => cases h
        next b' hs =>
          obtain ⟨r', hr', h⟩ := except_bind_eq_ok.1 h
          cases h
          have hrest := ih hr'
          rw [attempt_error hopen hs]
          exact hrest
        next q qspan b' hs =>
          obtain ⟨r', hr', h⟩ := except_bind_eq_ok.1 h
          cases h
          rw [attempt_error hopen hs]
          exact congrArg (_ :: ·) (ih hr')

/-- A statement contributes what trying it after the others reports, or that it follows a return. -/
theorem contribution_cases {pre post : List Stmt} {part : List Diagnostic}
    (h : (contributions cx (pre ++ s :: post) b)[pre.length]? = some part) :
    ((attemptAll cx pre b).2.builder.isTerminated = false ∧
        part = (attempt cx s (attemptAll cx pre b).2).1) ∨
      ((attemptAll cx pre b).2.builder.isTerminated = true ∧
        ∀ y ∈ part, y = Problem.unreachable.diagnostic s.span) := by
  induction pre generalizing b with
  | nil =>
    rw [List.nil_append, contributions] at h
    split at h
    next hdone =>
      cases h
      exact .inr ⟨hdone, by simp⟩
    next hopen =>
      cases h
      exact .inl ⟨Bool.eq_false_of_not_eq_true hopen, rfl⟩
  | cons p pre ih =>
    rw [List.cons_append, contributions] at h
    rw [attemptAll_cons]
    split at h
    next hdone =>
      rw [attempt_terminated hdone, attemptAll_terminated pre hdone]
      refine .inr ⟨hdone, ?_⟩
      rw [List.length_cons, List.getElem?_cons_succ, List.getElem?_map] at h
      obtain ⟨-, -, rfl⟩ := Option.map_eq_some_iff.1 h
      exact nofun
    next => exact ih h

end Lowering

namespace Source.FnDef

open Lowering

variable (d : FnDef) (results : List (String × Ty)) (pre : List Stmt)

/-- The body as the statements leave it. -/
def after : Body := (attemptAll ⟨d.name.val, results⟩ pre d.start).2

/-- The names that the parameters and the statements declare, whether or not they are lowered. -/
def declaredBy : List String := d.params.map (·.name) ++ pre.filterMap Stmt.declared?

/-- Lowering the body gets past the statements `pre` to the read of `x` at `span` in the next one. -/
def ReachesRead (s : Stmt) (x : String) (span : Span) : Prop :=
  (d.after results pre).builder.isTerminated = false ∧
    Reaches ⟨d.name.val, results⟩ x span s.computed (d.after results pre)

/-- The last of the statements that declare `x` is abandoned. -/
def LatestFailed (x : String) : Prop :=
  ∃ before init span between, pre = before ++ .bind x init span :: between ∧
    x ∉ between.filterMap Stmt.declared? ∧
    ∃ stop b, (Stmt.bind x init span).lower ⟨d.name.val, results⟩ (d.after results before) =
      .error stop b

variable {d results pre}

/-- While the body is open, the names in scope are those that are declared. -/
theorem after_eq_filling (hopen : (d.after results pre).builder.isTerminated = false) :
    ∃ n ops span sc, d.after results pre = .filling n ops span sc ∧
      ∀ x, sc.find? x = none ↔ x ∉ d.declaredBy pre := by
  rcases Scope.Extends.attemptAll ⟨d.name.val, results⟩ pre 0 [] .nowhere d.scope with
    hdone | ⟨n, ops, span, sc, hb, hsc⟩
  · cases hopen.symm.trans hdone
  · refine ⟨n, ops, span, sc, hb, fun x => ?_⟩
    have hall := (Scope.Extends.params d).trans hsc
    exact ⟨fun hx hmem => hall.known x hmem hx, fun hx => hall.kept x hx⟩

theorem find?_of_latestFailed {x : String} {n : Nat} {ops : List (Located Op)} {span : Span} {sc : Scope}
    (h : d.LatestFailed results pre x) (hb : d.after results pre = .filling n ops span sc) :
    sc.find? x = some .failed := by
  obtain ⟨before, init, lspan, between, rfl, hx, stop, b₁, hs⟩ := h
  have hrest : (attemptAll ⟨d.name.val, results⟩ (.bind x init lspan :: between)
      (d.after results before)).2 = .filling n ops span sc := by
    rw [← hb, after, after, attemptAll_append]
  have hopen : (d.after results before).builder.isTerminated = false :=
    open_of_attemptAll (congrArg (·.builder.isTerminated) hrest)
  obtain ⟨n₀, ops₀, span₀, sc₀, hb₀, -⟩ := after_eq_filling hopen
  rw [hb₀] at hs hrest
  rw [attemptAll_cons, attempt_error rfl hs] at hrest
  obtain ⟨b₂, hinit, rfl⟩ := bind_lower_eq_error.1 hs
  obtain ⟨-, new, m, span₁, -, rfl⟩ := abandons_of_lower hinit
  -- From there on the name is not declared again.
  rcases Scope.Extends.attemptAll ⟨d.name.val, results⟩ between m (ops₀ ++ new) span₁
    (sc₀.set x .failed) with hdone | ⟨_, _, _, sc', hb', hsc⟩
  · cases (congrArg (·.builder.isTerminated) hrest).symm.trans hdone
  · cases hrest.symm.trans hb'
    rw [hsc.kept x hx, Scope.find?_set_self]

variable (d results pre) in
/-- What is reported about the statement `s` after the statements `pre`. -/
structure Reported (s : Stmt) (part : List Diagnostic) : Prop where
  /-- An unresolved identifier is one that is not declared, at a read that is reached. -/
  unresolved : ∀ x span, part = [(Problem.unresolved x d.name.val).diagnostic span] ↔
    d.ReachesRead results pre s x span ∧ x ∉ d.declaredBy pre
  /-- A name that is declared is not unresolved. -/
  declared : ∀ x ∈ d.declaredBy pre, ∀ y ∈ part,
    y.message ≠ "unresolved identifier `" ++ x ++ "`"
  /-- A read of a name whose declaration failed ends its statement in silence. -/
  tainted : ∀ x span, d.ReachesRead results pre s x span → d.LatestFailed results pre x →
    part = [] ∧ ∃ stop b, s.lower ⟨d.name.val, results⟩ (d.after results pre) = .error stop b

theorem reported_unreachable {s : Stmt} {part : List Diagnostic}
    (hdone : (d.after results pre).builder.isTerminated = true)
    (hpart : ∀ y ∈ part, y = Problem.unreachable.diagnostic s.span) :
    d.Reported results pre s part := by
  have hreaches : ∀ x span, ¬ d.ReachesRead results pre s x span := by
    rintro x span ⟨hopen, -⟩
    cases hopen.symm.trans hdone
  refine ⟨fun x span => ⟨?_, fun h => (hreaches x span h.1).elim⟩, ?_,
    fun x span h => (hreaches x span h).elim⟩
  · rintro rfl
    cases hpart _ (List.mem_singleton_self _)
  · intro x _ y hy
    rw [hpart y hy]
    have hopening : ['u', 'n', 'r', 'e', 'a'] <+: "unreachable statement after `return`".toList :=
      ⟨_, rfl⟩
    exact ne_unresolved hopening rfl nofun x

theorem reported_attempt {s : Stmt} (hopen : (d.after results pre).builder.isTerminated = false) :
    d.Reported results pre s (attempt ⟨d.name.val, results⟩ s (d.after results pre)).1 := by
  obtain ⟨n, ops, span₀, sc, hb, hsc⟩ := after_eq_filling hopen
  -- Whatever is worded as an unresolved identifier is one.
  have hblame : ∀ {x y}, y ∈ (attempt ⟨d.name.val, results⟩ s (d.after results pre)).1 →
      y.message = "unresolved identifier `" ++ x ++ "`" →
      d.ReachesRead results pre s x y.span ∧ x ∉ d.declaredBy pre := by
    intro x y hy hmessage
    obtain ⟨q, span, b', hs, rfl⟩ := problem_of_mem_attempt hy
    obtain ⟨f, rfl⟩ := Problem.eq_unresolved (Blames.stmt _ s hs) hmessage
    rw [hb] at hs
    obtain ⟨-, hunknown, hreach⟩ := unresolved_iff.1 ⟨b', hs⟩
    exact ⟨⟨hopen, hb ▸ hreach⟩, (hsc x).1 hunknown⟩
  refine ⟨fun x span => ⟨fun hpart => ?_, ?_⟩, fun x hx y hy hmessage => (hblame hy hmessage).2 hx, ?_⟩
  · have hmem : (Problem.unresolved x d.name.val).diagnostic span ∈
        (attempt ⟨d.name.val, results⟩ s (d.after results pre)).1 := by simp [hpart]
    exact hblame hmem rfl
  · rintro ⟨⟨-, hreach⟩, hx⟩
    rw [hb] at hreach ⊢
    obtain ⟨b', hs⟩ := unresolved_iff.2 ⟨rfl, (hsc x).2 hx, hreach⟩
    rw [attempt_error rfl hs]
    rfl
  · rintro x span ⟨-, hreach⟩ hfailed
    have hx := find?_of_latestFailed hfailed hb
    rw [hb] at hreach ⊢
    obtain ⟨b', hs⟩ := tainted_of_reaches hreach hx
    rw [attempt_error rfl hs]
    exact ⟨rfl, _, b', hs⟩

/-- One failure, one diagnostic. After the header's problems come those of the statements in order, at
most one from each, whatever follows it. An unresolved identifier is reported just where a read of it is
reached that no parameter and no statement before declares. -/
theorem one_diagnostic_per_failure (entryPoint : String) (d : FnDef) (results : List (String × Ty)) :
    ∃ parts : List (List Diagnostic), parts.length = d.body.length ∧
      (∀ part ∈ parts, part.length ≤ 1) ∧
      (∀ k, ∃ f, ({ d with body := d.body.take k } : FnDef).lower entryPoint results =
        .ok (f, d.headerProblems entryPoint ++ (parts.take k).flatten)) ∧
      ∀ pre s post part, d.body = pre ++ s :: post → parts[pre.length]? = some part →
        d.Reported results pre s part := by
  refine ⟨contributions ⟨d.name.val, results⟩ d.body d.start, length_contributions _ _,
    fun part hpart => length_le_of_mem_contributions hpart, ?_, ?_⟩
  · intro k
    obtain ⟨f, ds, -, -, h, -⟩ := lower_leaves entryPoint { d with body := d.body.take k } results
    obtain ⟨r, -, hr, -, -, rfl⟩ := lower_eq_ok h
    have hr : lowerBody ⟨d.name.val, results⟩ (d.body.take k) d.start = .ok r := hr
    exact ⟨f, by rw [← lowerBody_take hr]; exact h⟩
  · intro pre s post part hbody hpart
    rw [hbody] at hpart
    rcases contribution_cases hpart with ⟨hopen, rfl⟩ | ⟨hdone, hunreachable⟩
    · exact reported_attempt hopen
    · exact reported_unreachable hdone hunreachable

/-- The first statement reads what is not declared; the second reads what the first fails to declare. -/
theorem one_diagnostic_per_failure_sample :
    usingFailed.ReachesRead [] [] (.bind "a" (.name "y" .nowhere) .nowhere) "y" .nowhere ∧
    usingFailed.ReachesRead [] [.bind "a" (.name "y" .nowhere) .nowhere]
      (.eval (.name "a" .nowhere) .nowhere) "a" .nowhere ∧
    usingFailed.LatestFailed [] [.bind "a" (.name "y" .nowhere) .nowhere] "a" ∧
    ∃ f, usingFailed.lower "main" [] = .ok (f, [(Problem.unresolved "y" "g").diagnostic .nowhere]) := by
  have hy : usingFailed.ReachesRead [] [] (.bind "a" (.name "y" .nowhere) .nowhere) "y" .nowhere :=
    ⟨rfl, .here⟩
  have ha : usingFailed.ReachesRead [] [.bind "a" (.name "y" .nowhere) .nowhere]
      (.eval (.name "a" .nowhere) .nowhere) "a" .nowhere := ⟨rfl, .here⟩
  have hfailed : usingFailed.LatestFailed [] [.bind "a" (.name "y" .nowhere) .nowhere] "a" :=
    ⟨[], _, _, [], rfl, nofun, _, _, rfl⟩
  obtain ⟨parts, hlen, -, hlower, hreported⟩ := one_diagnostic_per_failure "main" usingFailed []
  obtain ⟨first, second, rfl⟩ := List.length_eq_two.1 hlen
  have hfirst := ((hreported [] _ _ first rfl rfl).unresolved "y" .nowhere).2 ⟨hy, nofun⟩
  have hsecond := ((hreported [_] _ _ second rfl rfl).tainted "a" .nowhere ha hfailed).1
  obtain ⟨f, hf⟩ := hlower 2
  rw [hfirst, hsecond] at hf
  exact ⟨hy, ha, hfailed, f, hf⟩

end Source.FnDef

end Straightline
