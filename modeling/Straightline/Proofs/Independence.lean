import Straightline.Proofs.Lowering.Signatures
import Straightline.Proofs.Selection.Emission

/-!
Functions are compiled independently of one another. All that lowering a body learns about the rest of
its program is what the functions it calls return, and selection looks at one function at a time; so
a definition has the same code and the same diagnostics in every program that agrees on those types.
-/
namespace Straightline

open IR Source

namespace Lowering

/-- Both contexts are those of one function, and they agree on what the functions that `parts` call
return. -/
structure Context.Alike (cx cx' : Context) (parts : List Expr) : Prop where
  function : cx.function = cx'.function
  results : ∀ e ∈ parts, ∀ site ∈ e.site?, cx.resultOf site.1 = cx'.resultOf site.1

variable {cx cx' : Context}

theorem Context.Alike.mono {parts more : List Expr} (h : cx.Alike cx' more) (hsub : parts ⊆ more) :
    cx.Alike cx' parts := ⟨h.function, fun e he => h.results e (hsub he)⟩

theorem read_congr (h : cx.function = cx'.function) (x : String) (span : Span) :
    read cx x span = read cx' x span := by
  unfold read
  rw [h]

theorem lowerAll_congr {es : List Expr} (h : ∀ e ∈ es, e.lower cx = e.lower cx') :
    Expr.lowerAll cx es = Expr.lowerAll cx' es := by
  induction es with
  | nil => rfl
  | cons e es ih =>
    obtain ⟨he, hes⟩ := List.forall_mem_cons.1 h
    rw [Expr.lowerAll, Expr.lowerAll, he, ih hes]

theorem parts_subset_partsAll {e : Expr} {es : List Expr} (he : e ∈ es) :
    e.parts ⊆ Expr.partsAll es := by
  induction es with
  | nil => cases he
  | cons e' es ih =>
    rw [Expr.partsAll]
    rcases List.mem_cons.1 he with rfl | he
    · exact List.subset_append_left _ _
    · exact List.subset_append_of_subset_right _ (ih he)

/-- Where something other than a name is called, lowering does not come to the call. -/
theorem call_congr {callee : Expr} {args : List Expr} {span : Span} {α : Type}
    {next : Option Temporary → Lower α}
    (h : cx.Alike cx' (Expr.call callee args span).parts)
    (hargs : Expr.lowerAll cx args = Expr.lowerAll cx' args) :
    (do let f ← callee.functionName
        let values ← Expr.lowerAll cx args
        let t ← buildAt span (Builder.call f values (cx.resultOf f))
        next t) =
      (do let f ← callee.functionName
          let values ← Expr.lowerAll cx' args
          let t ← buildAt span (Builder.call f values (cx'.resultOf f))
          next t) := by
  cases callee with
  | literal | binary | call => rfl
  | name f fspan =>
    have hf := h.results _ (by rw [Expr.parts_eq]; exact .head _) (f, args.length) rfl
    change (Expr.lowerAll cx args >>= fun values =>
        buildAt span (Builder.call f values (cx.resultOf f)) >>= next) =
      (Expr.lowerAll cx' args >>= fun values =>
        buildAt span (Builder.call f values (cx'.resultOf f)) >>= next)
    rw [hargs, hf]

/-- Lowering learns of its context only what the called functions return. -/
theorem lower_congr (e : Expr) (h : cx.Alike cx' e.parts) : e.lower cx = e.lower cx' := by
  induction e using Expr.induction with
  | literal l span => rfl
  | name x span => rw [Expr.lower, Expr.lower, read_congr h.function]
  | binary op lhs rhs span ihl ihr =>
    rw [Expr.parts] at h
    have hl : lhs.parts ⊆ .binary op lhs rhs span :: (lhs.parts ++ rhs.parts) :=
      fun _ he => .tail _ (List.mem_append_left _ he)
    have hr : rhs.parts ⊆ .binary op lhs rhs span :: (lhs.parts ++ rhs.parts) :=
      fun _ he => .tail _ (List.mem_append_right _ he)
    rw [Expr.lower, Expr.lower, ihl (h.mono hl), ihr (h.mono hr)]
  | call callee args span ih =>
    have hargs : Expr.lowerAll cx args = Expr.lowerAll cx' args := by
      refine lowerAll_congr fun e he => ih e he (h.mono ?_)
      intro e' he'
      rw [Expr.parts]
      exact .tail _ (parts_subset_partsAll he he')
    rw [Expr.lower, Expr.lower]
    exact call_congr h hargs

theorem stmt_congr (s : Stmt) (h : cx.Alike cx' (Expr.partsAll s.exprs)) :
    s.lower cx = s.lower cx' := by
  have hexpr : ∀ e ∈ s.exprs, e.lower cx = e.lower cx' :=
    fun e he => lower_congr e (h.mono (parts_subset_partsAll he))
  match s with
  | .bind x init span => rw [Stmt.lower, Stmt.lower, hexpr init (.head _)]
  | .ret none span => rfl
  | .ret (some e) span => rw [Stmt.lower, Stmt.lower, hexpr e (.head _)]
  | .assign .. => rfl
  | .eval (.literal ..) _ | .eval (.name ..) _ | .eval (.binary ..) _ =>
    exact congrArg discard (hexpr _ (.head _))
  | .eval (.call callee args span) _ =>
    have hcall : (Expr.call callee args span).parts ⊆ Expr.partsAll [.call callee args span] :=
      parts_subset_partsAll (.head _)
    have hargs : Expr.lowerAll cx args = Expr.lowerAll cx' args := by
      refine lowerAll_congr fun e he => lower_congr e (h.mono ?_)
      intro e' he'
      apply hcall
      rw [Expr.parts]
      exact .tail _ (parts_subset_partsAll he he')
    rw [Stmt.lower, Stmt.lower, Expr.lowerEffect, Expr.lowerEffect]
    exact call_congr (h.mono hcall) hargs

theorem lowerBody_congr {stmts : List Stmt} (h : ∀ s ∈ stmts, s.lower cx = s.lower cx') (b : Body) :
    lowerBody cx stmts b = lowerBody cx' stmts b := by
  induction stmts generalizing b with
  | nil => rfl
  | cons s rest ih =>
    obtain ⟨hs, hrest⟩ := List.forall_mem_cons.1 h
    simp only [lowerBody, hs, ih hrest]

theorem collect_append (m : Module) (xs ys : List (Option Func × List Diagnostic)) :
    collect m (xs ++ ys) = ⟨(collect (collect m xs).code ys).code,
      (collect m xs).diagnostics ++ (collect (collect m xs).code ys).diagnostics⟩ := by
  induction xs generalizing m with
  | nil => rfl
  | cons x xs ih =>
    obtain ⟨_ | f, ds⟩ := x
    · simp [collect, ih]
    · simp only [List.cons_append, collect]
      split <;> simp [ih]

end Lowering

namespace Source

open Lowering

variable {entryPoint moduleName : String} {results : List (String × Ty)} {p : Program} {o : Outcome}
  {d : FnDef} {f : Func} {ds : List Diagnostic}

/-- The type that calls of a name have in a program. -/
def Program.returnTy (p : Program) (entryPoint name : String) : Ty :=
  ((p.resultTypes entryPoint).lookup name).getD .nil

/-- A definition is lowered to the same function, with the same diagnostics, wherever the functions
that it calls return the same. -/
theorem FnDef.lower_congr {p q : Program} (d : FnDef)
    (h : ∀ g ∈ d.sites.map (·.1), p.returnTy entryPoint g = q.returnTy entryPoint g) :
    d.lower entryPoint (p.resultTypes entryPoint) =
      d.lower entryPoint (q.resultTypes entryPoint) := by
  have hbody : ∀ s ∈ d.body, s.lower ⟨d.name.val, p.resultTypes entryPoint⟩ =
      s.lower ⟨d.name.val, q.resultTypes entryPoint⟩ := by
    intro s hs
    refine stmt_congr s ⟨rfl, ?_⟩
    intro e he site hsite
    have hmem : site ∈ d.sites :=
      List.mem_filterMap.2 ⟨e, List.mem_flatMap.2 ⟨s, hs, he⟩, hsite⟩
    exact h site.1 (List.mem_map_of_mem hmem)
  simp only [lower, lowerBody_congr hbody]

/-- In the outcome of a program the definition has become the function `f`, and `ds` are the
diagnostics about it. Both come right after those of the items before the definition. -/
structure Includes (entryPoint moduleName : String) (p : Program) (o : Outcome) (d : FnDef)
    (f : Func) (ds : List Diagnostic) : Prop where
  lowered : d.lower entryPoint (p.resultTypes entryPoint) = .ok (f, ds)
  /-- It does not matter in which order the items are lowered. -/
  anyOrder : ∀ order, order.Perm p →
    ∃ rs, order.mapM (Item.lower entryPoint (p.resultTypes entryPoint)) = .ok rs ∧
      List.Forall₂ (fun i r => i = .fn d → r = (some f, ds)) order rs
  placed : ∃ pre post items fs rest, p = pre ++ .fn d :: post ∧
    pre.mapM (Item.lower entryPoint (p.resultTypes entryPoint)) = .ok items ∧
    o.code.functions = (collect { name := moduleName } items).code.functions ++ f :: fs ∧
    o.diagnostics = (collect { name := moduleName } items).diagnostics ++ (ds ++ rest)

theorem Item.lower_fn (h : d.lower entryPoint results = .ok (f, ds)) :
    Item.lower entryPoint results (.fn d) = .ok (some f, ds) :=
  except_bind_eq_ok.2 ⟨(f, ds), h, rfl⟩

namespace Program

/-- A definition that is the first of its name stands after items that do not define the name. -/
theorem exists_split (h : p.definition? d.name.val = some d) :
    ∃ pre post, p = pre ++ .fn d :: post ∧
      d.name.val ∉ (definitions pre).map (·.name.val) := by
  induction p with
  | nil => cases h
  | cons i rest ih =>
    cases i with
    | stmt s span =>
      obtain ⟨pre, post, rfl, hpre⟩ := ih h
      exact ⟨.stmt s span :: pre, post, rfl, hpre⟩
    | fn g =>
      change List.find? _ (g :: definitions rest) = _ at h
      by_cases hname : g.name.val = d.name.val
      · rw [List.find?_cons_of_pos (by simpa using hname)] at h
        cases h
        exact ⟨[], rest, rfl, List.not_mem_nil⟩
      · rw [List.find?_cons_of_neg (by simpa using hname)] at h
        obtain ⟨pre, post, rfl, hpre⟩ := ih h
        refine ⟨.fn g :: pre, post, rfl, ?_⟩
        change d.name.val ∉ g.name.val :: (definitions pre).map (·.name.val)
        simpa [Ne.symm hname] using hpre

/-- The functions that items are lowered to have the names of their definitions. -/
theorem name_of_collect {pre : Program} {items : List (Option Func × List Diagnostic)}
    (hitems : List.Forall₂ (fun i r => Item.lower entryPoint results i = .ok r) pre items)
    (hf : f ∈ (collect { name := moduleName } items).code.functions) :
    f.name ∈ (definitions pre).map (·.name.val) := by
  rcases mem_collect hf with hf | ⟨ds, hf⟩
  · cases hf
  · obtain ⟨d, hd, hlower⟩ := definition_of_item hitems hf
    exact List.mem_map.2 ⟨d, hd, (FnDef.name_of_lower hlower).symm⟩

/-- A function that is new comes right after what the items before it give. -/
theorem collect_of_new {post : Program} {before after : List (Option Func × List Diagnostic)}
    (hafter : List.Forall₂ (fun i r => Item.lower entryPoint results i = .ok r) post after)
    (hnew : f.name ∉ (collect { name := moduleName } before).code.functions.map (·.name)) :
    ∃ fs rest, (collect { name := moduleName } (before ++ (some f, ds) :: after)).code.functions =
        (collect { name := moduleName } before).code.functions ++ f :: fs ∧
      (collect { name := moduleName } (before ++ (some f, ds) :: after)).diagnostics =
        (collect { name := moduleName } before).diagnostics ++ (ds ++ rest) := by
  rw [collect_append, collect_new hnew]
  generalize collect { name := moduleName } before = o at hnew ⊢
  obtain ⟨⟨fs, hfs, -⟩, -⟩ :=
    collect_firsts hafter (m := o.code.append f hnew) fun _ => Iff.rfl
  refine ⟨fs, _, ?_, rfl⟩
  rw [hfs, Module.append_functions, List.append_assoc]
  rfl

theorem includes_of_definition? (ho : p.lowerUncapped entryPoint moduleName = .ok o)
    (hd : p.definition? d.name.val = some d) :
    ∃ f ds, Includes entryPoint moduleName p o d f ds := by
  obtain ⟨f, ds, -, -, hlower, -⟩ := d.lower_leaves entryPoint (p.resultTypes entryPoint)
  refine ⟨f, ds, hlower, ?_, ?_⟩
  · intro order _
    obtain ⟨rs, hrs⟩ := exists_items entryPoint (p.resultTypes entryPoint) order
    refine ⟨rs, mapM_eq_ok_iff.2 hrs, hrs.imp ?_⟩
    rintro i r hr rfl
    exact Except.ok.inj (hr.symm.trans (Item.lower_fn hlower))
  · obtain ⟨pre, post, hsplit, hfirst⟩ := exists_split hd
    obtain ⟨before, hbefore⟩ := exists_items entryPoint (p.resultTypes entryPoint) pre
    obtain ⟨after, hafter⟩ := exists_items entryPoint (p.resultTypes entryPoint) post
    have hnew : f.name ∉ (collect { name := moduleName } before).code.functions.map (·.name) := by
      intro hmem
      obtain ⟨g, hg, hname⟩ := List.mem_map.1 hmem
      rw [FnDef.name_of_lower hlower] at hname
      exact hfirst (hname ▸ name_of_collect hbefore hg)
    have hall : List.Forall₂ (fun i r => Item.lower entryPoint (p.resultTypes entryPoint) i = .ok r)
        (pre ++ .fn d :: post) (before ++ (some f, ds) :: after) :=
      List.rel_append hbefore (.cons (Item.lower_fn hlower) hafter)
    have hmem : f ∈ o.code.functions := List.mem_of_find?_eq_some (find?_eq_some ho hd hlower)
    obtain ⟨items, hitems, rfl⟩ := lowerUncapped_collect ho hmem
    obtain rfl : items = before ++ (some f, ds) :: after := by
      rw [← hsplit, ← mapM_eq_ok_iff] at hall
      exact Except.ok.inj ((mapM_eq_ok_iff.2 hitems).symm.trans hall)
    obtain ⟨fs, rest, hfs, hrest⟩ := collect_of_new hafter hnew
    exact ⟨pre, post, before, fs, rest, hsplit, mapM_eq_ok_iff.2 hbefore, hfs, hrest⟩

end Program

end Source

namespace Selection

/-- The code that was selected for a module has the part `seg`, which is that of the function `f`; the
other parts are those of the functions before and after it. -/
def Includes (t : Target) (m : Module) (s : Selected) (f : Func) (seg : Segment) : Prop :=
  codeOfFunc t f = .ok seg ∧ ∃ fs gs before after, m.functions = fs ++ f :: gs ∧
    List.Forall₂ (codeOfFunc t · = .ok ·) fs before ∧
    List.Forall₂ (codeOfFunc t · = .ok ·) gs after ∧
    s.code = before.flatMap (·.code) ++ (seg.code ++ after.flatMap (·.code)) ∧
    s.diagnostics = before.filterMap (·.diagnostic) ++
      (seg.diagnostic.toList ++ after.filterMap (·.diagnostic))

variable {t : Target} {m : Module} {s : Selected} {f : Func}

theorem exists_includes (hs : selectModule t m = .ok s) (hf : f ∈ m.functions) :
    ∃ seg, Includes t m s f seg := by
  obtain ⟨-, segs, hsegs, rfl⟩ := selectModule_eq_ok.1 hs
  obtain ⟨fs, gs, seg, before, after, hsplit, rfl, hbefore, hseg, hafter⟩ := forall₂_split hsegs hf
  refine ⟨seg, hseg, fs, gs, before, after, hsplit, hbefore, hafter, by simp, ?_⟩
  cases hd : seg.diagnostic <;> simp [hd]

end Selection

open Source

/-- Functions are compiled independently of one another. If a definition is the first of its name in two
programs, and what it calls returns the same in both, then it becomes the same function with the same
diagnostics in both; and where code was selected for both modules, it has the same part in both. -/
theorem definitions_independent {t : Target} {p q : Program} {d : FnDef}
    (hp : p.definition? d.name.val = some d) (hq : q.definition? d.name.val = some d)
    (hcalls : ∀ g ∈ d.sites.map (·.1), p.returnTy t.entryPoint g = q.returnTy t.entryPoint g)
    (pname qname : String) :
    ∃ op oq f ds, p.lowerUncapped t.entryPoint pname = .ok op ∧
      q.lowerUncapped t.entryPoint qname = .ok oq ∧
      Includes t.entryPoint pname p op d f ds ∧ Includes t.entryPoint qname q oq d f ds ∧
      ∀ sp sq, selectModule t op.code = .ok sp → selectModule t oq.code = .ok sq →
        ∃ seg, Selection.Includes t op.code sp f seg ∧ Selection.Includes t oq.code sq f seg := by
  obtain ⟨op, hop⟩ := p.exists_lowerUncapped t.entryPoint pname
  obtain ⟨oq, hoq⟩ := q.exists_lowerUncapped t.entryPoint qname
  obtain ⟨f, ds, hinp⟩ := Program.includes_of_definition? hop hp
  obtain ⟨f', ds', hinq⟩ := Program.includes_of_definition? hoq hq
  -- What the definition is lowered to is the same in both programs.
  have hsame := hinp.lowered.symm.trans ((d.lower_congr hcalls).trans hinq.lowered)
  obtain ⟨rfl, rfl⟩ := Prod.mk.inj (Except.ok.inj hsame)
  refine ⟨op, oq, f, ds, hop, hoq, hinp, hinq, ?_⟩
  intro sp sq hsp hsq
  have hmemp := List.mem_of_find?_eq_some (Program.find?_eq_some hop hp hinp.lowered)
  have hmemq := List.mem_of_find?_eq_some (Program.find?_eq_some hoq hq hinq.lowered)
  obtain ⟨seg, hsegp⟩ := Selection.exists_includes hsp hmemp
  obtain ⟨seg', hsegq⟩ := Selection.exists_includes hsq hmemq
  obtain rfl : seg = seg' := Except.ok.inj (hsegp.1.symm.trans hsegq.1)
  exact ⟨seg, hsegp, hsegq⟩

/-- `func odd(a: int) -> int { let b = half(a); let s = "two"; return b; b }`, with a statement that is
not reached and a string, for which there is no code. -/
def odd : FnDef :=
  ⟨⟨"odd", .nowhere⟩, [⟨"a", ⟨"int", .nowhere⟩⟩], some ⟨"int", .nowhere⟩,
    [.bind "b" (.call (.name "half" .nowhere) [.name "a" .nowhere] .nowhere) .nowhere,
      .bind "s" (.literal (.string "two") .nowhere) .nowhere,
      .ret (some (.name "b" .nowhere)) .nowhere, .eval (.name "b" .nowhere) .nowhere]⟩

/-- A function of one integer with the given body. -/
def intFunction (name : String) (body : List Stmt) : Item :=
  .fn ⟨⟨name, .nowhere⟩, [⟨"a", ⟨"int", .nowhere⟩⟩], some ⟨"int", .nowhere⟩, body⟩

/-- The definition between its callee and a second definition of its name. -/
def oddAmong : Program :=
  [intFunction "half" [.ret (some (.binary "/" (.name "a" .nowhere) (.literal (.int "2") .nowhere)
    .nowhere)) .nowhere], .fn odd, intFunction "odd" []]

/-- The definition before its callee, in which there is an error, and after a stray statement. -/
def oddFirst : Program :=
  [.stmt (.ret none .nowhere) .nowhere, .fn odd,
    intFunction "half" [.eval (.name "x" .nowhere) .nowhere, .ret (some (.name "a" .nowhere)) .nowhere]]

theorem definitions_independent_odd :
    ∃ op oq f ds sp sq seg, oddAmong.lowerUncapped "main" "m" = .ok op ∧
      oddFirst.lowerUncapped "main" "n" = .ok oq ∧ ds.length = 1 ∧
      Includes "main" "m" oddAmong op odd f ds ∧ Includes "main" "n" oddFirst oq odd f ds ∧
      selectModule .darwin op.code = .ok sp ∧ selectModule .darwin oq.code = .ok sq ∧
      seg.diagnostic.isSome = true ∧
      Selection.Includes .darwin op.code sp f seg ∧ Selection.Includes .darwin oq.code sq f seg := by
  have hdefined : oddAmong.definition? odd.name.val = some odd ∧
      oddFirst.definition? odd.name.val = some odd := by
    simp [Program.definition?, Program.definitions, oddAmong, oddFirst, intFunction, odd]
  obtain ⟨op, oq, f, ds, hop, hoq, hinp, hinq, hseg⟩ :=
    definitions_independent (t := .darwin) hdefined.1 hdefined.2 (by decide +kernel) "m" "n"
  have hlower : (odd.lower Target.darwin.entryPoint
      (oddAmong.resultTypes Target.darwin.entryPoint)).toOption.map (fun r => (r.2.length,
        (Selection.codeOfFunc .darwin r.1).toOption.map (·.diagnostic.isSome))) = some (1, some true) := by
    decide +kernel
  have hamong : (oddAmong.lowerUncapped Target.darwin.entryPoint "m").toOption.map (fun o =>
      (selectModule .darwin o.code).toOption.map fun _ => ()) = some (some ()) := by
    decide +kernel
  have hfirst : (oddFirst.lowerUncapped Target.darwin.entryPoint "n").toOption.map (fun o =>
      (selectModule .darwin o.code).toOption.map fun _ => ()) = some (some ()) := by
    decide +kernel
  rw [hinp.lowered] at hlower
  obtain ⟨hlength, hcode⟩ := Prod.mk.inj (Option.some.inj hlower)
  rw [hop] at hamong
  rw [hoq] at hfirst
  obtain ⟨sp, hsp, -⟩ := exists_ok_of_toOption (Option.some.inj hamong)
  obtain ⟨sq, hsq, -⟩ := exists_ok_of_toOption (Option.some.inj hfirst)
  obtain ⟨seg, hsegp, hsegq⟩ := hseg sp sq hsp hsq
  rw [hsegp.1] at hcode
  exact ⟨op, oq, f, ds, sp, sq, seg, hop, hoq, hlength, hinp, hinq, hsp, hsq, Option.some.inj hcode,
    hsegp, hsegq⟩

end Straightline
