import Straightline.Proofs.Lowering.Clean
import Straightline.Proofs.Semantics.Machine

/-!
Lowering preserves meaning. The cells of the running code are the environment of the source, and a
temporary keeps its value because later code only defines higher numbers.
-/
namespace Straightline

open IR Source

variable {V : Type} {M : Meaning V} {O : Oracle V}

section Source

variable {env : String → Option V} {calls calls' : List (Call V)}

theorem evalAll_cons_eq_some {e : Expr} {rest : List Expr} {vs : List V} :
    Expr.evalAll M O env (e :: rest) calls = some (vs, calls') ↔
      ∃ w calls₁ ws, e.eval M O env calls = some (w, calls₁) ∧
        Expr.evalAll M O env rest calls₁ = some (ws, calls') ∧ vs = w :: ws := by
  simp only [Expr.evalAll, Option.bind_eq_bind, Option.bind_eq_some_iff, Option.pure_def,
    Option.some.injEq, Prod.mk.injEq]
  constructor
  · rintro ⟨⟨w, calls₁⟩, he, ⟨ws, calls₂⟩, hrest, rfl, rfl⟩
    exact ⟨w, calls₁, ws, he, hrest, rfl⟩
  · rintro ⟨w, calls₁, ws, he, hrest, rfl⟩
    exact ⟨(w, calls₁), he, (ws, calls'), hrest, rfl, rfl⟩

theorem evalAll_singleton {e : Expr} {w : V} :
    Expr.evalAll M O env [e] calls = some ([w], calls') ↔
      e.eval M O env calls = some (w, calls') := by
  constructor
  · intro h
    obtain ⟨_, calls₁, _, he, hnil, h⟩ := evalAll_cons_eq_some.1 h
    cases hnil
    cases h
    exact he
  · intro he
    exact evalAll_cons_eq_some.2 ⟨w, calls', [], he, rfl, rfl⟩

/-- The operands of an operator are evaluated like the arguments of a call. -/
theorem eval_binary_eq_some {op : String} {lhs rhs : Expr} {span : Span} {w : V} :
    (Expr.binary op lhs rhs span).eval M O env calls = some (w, calls') ↔
      ∃ b l r, BinOp.ofSymbol? op = some b ∧
        Expr.evalAll M O env [lhs, rhs] calls = some ([l, r], calls') ∧ w = M.binary b l r := by
  simp only [Expr.eval, Option.bind_eq_bind, Option.bind_eq_some_iff, Option.pure_def,
    Option.some.injEq, Prod.mk.injEq]
  constructor
  · rintro ⟨b, hop, ⟨l, calls₁⟩, hl, ⟨r, _⟩, hr, rfl, rfl⟩
    exact ⟨b, l, r, hop,
      evalAll_cons_eq_some.2 ⟨l, calls₁, [r], hl, evalAll_singleton.2 hr, rfl⟩, rfl⟩
  · rintro ⟨b, l, r, hop, hargs, rfl⟩
    obtain ⟨_, calls₁, _, hl, hrest, h⟩ := evalAll_cons_eq_some.1 hargs
    cases h
    exact ⟨b, hop, (l, calls₁), hl, (r, calls'), evalAll_singleton.1 hrest, rfl, rfl⟩

theorem eval_call_eq_some {f : String} {args : List Expr} {fspan span : Span} {w : V} :
    (Expr.call (.name f fspan) args span).eval M O env calls = some (w, calls') ↔
      ∃ ws calls₁, Expr.evalAll M O env args calls = some (ws, calls₁) ∧
        w = O calls₁ ⟨f, ws⟩ ∧ calls' = calls₁ ++ [⟨f, ws⟩] := by
  simp only [Expr.eval, Expr.name?, Option.bind_eq_bind, Option.bind_eq_some_iff, Option.pure_def,
    Option.some.injEq, Prod.mk.injEq, Option.bind_some]
  constructor
  · rintro ⟨⟨ws, calls₁⟩, h, rfl, rfl⟩
    exact ⟨ws, calls₁, h, rfl, rfl⟩
  · rintro ⟨ws, calls₁, h, rfl, rfl⟩
    exact ⟨(ws, calls₁), h, rfl, rfl⟩

theorem length_evalAll {es : List Expr} {ws : List V}
    (h : Expr.evalAll M O env es calls = some (ws, calls')) : ws.length = es.length := by
  induction es generalizing calls ws with
  | nil =>
    cases h
    rfl
  | cons e rest ih =>
    obtain ⟨w, calls₁, ws, -, hrest, rfl⟩ := evalAll_cons_eq_some.1 h
    simp [ih hrest]

end Source

namespace Lowering

variable {cx : Context} {sc sc' : Scope} {es : List Expr} {n m : Nat} {ops : List (Located Op)}
  {vs : List Value} {st st' : Store V}

/-- Every name in scope has a value. -/
def Scope.Bound (sc : Scope) (cells : String → Option V) : Prop :=
  ∀ x ty, sc.find? x = some (.typed ty) → ∃ w, cells x = some w

/-- What was computed before the temporary `n` is still there. -/
structure Kept (n : Nat) (st st' : Store V) : Prop where
  cells : st'.cells = st.cells
  temps : ∀ id < n, st'.temps id = st.temps id

theorem Kept.refl : Kept n st st := ⟨rfl, fun _ _ => rfl⟩

theorem Kept.trans {st'' : Store V} (h : Kept n st st') (hle : n ≤ m) (h' : Kept m st' st'') :
    Kept n st st'' :=
  ⟨h'.cells.trans h.cells, fun id hid => (h'.temps id (by omega)).trans (h.temps id hid)⟩

/-- Run from `st`, the operations do what the expressions do and end in `st'`, where the expressions'
values `ws` are found in `vs`. -/
structure Computes (M : Meaning V) (O : Oracle V) (es : List Expr) (n : Nat)
    (ops : List (Located Op)) (vs : List Value) (st st' : Store V) (ws : List V) : Prop where
  exec : execAll M O ops st = some st'
  kept : Kept n st st'
  eval : Expr.evalAll M O st.cells es st.calls = some (ws, st'.calls)
  values : vs.mapM (·.eval M st') = some ws

/-- An expression's own instruction comes after the code for its operands and gives the next
temporary its value. -/
theorem Computes.define {args rest : List Expr} {opsₗ : List (Located Op)} {values : List Value}
    {wargs ws : List V} {e : Expr} {o : Located Op} {k : Nat} {w : V} {st₁ st₂ : Store V}
    (hargs : Computes M O args n opsₗ values st st₁ wargs) (hle : n ≤ k)
    (ho : o.val.exec M O st₁ = some st₂) (hkept : Kept k st₁ st₂) (hw : st₂.temps k = some w)
    (he : e.eval M O st.cells st.calls = some (w, st₂.calls)) (ty : Ty)
    (hrest : Computes M O rest (k + 1) ops vs st₂ st' ws) :
    Computes M O (e :: rest) n (opsₗ ++ o :: ops) (.temp ⟨k, ty⟩ :: vs) st st' (w :: ws) := by
  have hkept' := hargs.kept.trans hle hkept
  refine ⟨?_, hkept'.trans (by omega) hrest.kept, ?_, ?_⟩
  · rw [execAll_append, hargs.exec, Option.bind_some, execAll, ho]
    exact hrest.exec
  · have heval := hrest.eval
    rw [hkept'.cells] at heval
    exact evalAll_cons_eq_some.2 ⟨w, st₂.calls, ws, he, heval, rfl⟩
  · have hv : (Value.temp ⟨k, ty⟩).eval M st' = some w :=
      (hrest.kept.temps k (by omega)).trans hw
    simp [hv, hrest.values]

theorem Kept.setTemp_self (k : Nat) (w : V) : Kept k st (st.setTemp k w) := by
  refine ⟨rfl, ?_⟩
  intro id hid
  exact Function.update_of_ne (by omega) _ _

/-- The operation gives its temporary the value of the expression. -/
theorem OpFor.computes {e : Expr} {args : List Expr} {values : List Value} {k : Nat} {ty : Ty}
    {o : Op} {wargs : List V} (h : OpFor cx e args values ⟨k, ty⟩ o)
    (hargs : Computes M O args n ops values st st' wargs) :
    ∃ st₂ w, o.exec M O st' = some st₂ ∧ Kept k st' st₂ ∧ st₂.temps k = some w ∧
      e.eval M O st.cells st.calls = some (w, st₂.calls) := by
  cases h with
  | binary hop hty =>
    cases mapM_eq_some_iff.1 hargs.values with
    | @cons _ wl _ _ hl hrest =>
      cases hrest with
      | @cons _ wr _ _ hr hnil =>
        cases hnil
        exact ⟨_, _, exec_binary_eq_some.2 ⟨wl, wr, hl, hr, rfl⟩, .setTemp_self k _,
          Function.update_self .., eval_binary_eq_some.2 ⟨_, _, _, hop, hargs.eval, rfl⟩⟩
  | @call f fspan span _ _ _ hty =>
    exact ⟨_, _, exec_call_eq_some.2 ⟨wargs, hargs.values, rfl⟩,
      ⟨rfl, (Kept.setTemp_self k _).temps⟩, Function.update_self ..,
      eval_call_eq_some.2 ⟨wargs, _, hargs.eval, rfl, rfl⟩⟩

/-- Code that expressions flatten to computes them. -/
theorem Flattens.computes (h : Flattens cx sc es n ops vs m) (st : Store V)
    (hst : sc.Bound st.cells) : ∃ st' ws, Computes M O es n ops vs st st' ws := by
  induction h generalizing st with
  | nil => exact ⟨st, [], rfl, .refl, rfl, rfl⟩
  | @literal l c span rest n m ops vs hc _ ih =>
    obtain ⟨st', ws, hrest⟩ := ih st hst
    refine ⟨st', M.const c :: ws, hrest.exec, hrest.kept, ?_, ?_⟩
    · refine evalAll_cons_eq_some.2 ⟨M.const c, st.calls, ws, ?_, hrest.eval, rfl⟩
      simp [Expr.eval, hc]
    · have hv : (Value.const c).eval M st' = some (M.const c) := rfl
      simp [hv, hrest.values]
  | @name x ty span rest n m ops vs hx _ ih =>
    obtain ⟨w, hw⟩ := hst x ty hx
    obtain ⟨st', ws, hrest⟩ := ih (st.setTemp n w) hst
    have hnone : Computes M O [] n [] [] st st [] := ⟨rfl, .refl, rfl, rfl⟩
    have heval : (Expr.name x span).eval M O st.cells st.calls =
        some (w, (st.setTemp n w).calls) := by
      simp [Expr.eval, hw, Store.setTemp]
    exact ⟨st', w :: ws, hnone.define (Nat.le_refl n) (exec_load_eq_some.2 ⟨w, hw, rfl⟩)
      (.setTemp_self n w) (Function.update_self ..) heval ty hrest⟩
  | @computed e args rest n k m opsₗ ops values vs ty o hargs he _ ihargs ih =>
    obtain ⟨st₁, wargs, hcomp⟩ := ihargs st hst
    obtain ⟨st₂, w, ho, hkept, hw, heval⟩ := he.computes hcomp
    have hbound : sc.Bound st₂.cells := by
      rw [hkept.cells, hcomp.kept.cells]
      exact hst
    obtain ⟨st', ws, hrest⟩ := ih st₂ hbound
    exact ⟨st', w :: ws, hcomp.define hargs.le ho hkept hw heval ty hrest⟩

theorem Flattens.computes_one {e : Expr} {v : Value} (h : Flattens cx sc [e] n ops [v] m)
    (st : Store V) (hst : sc.Bound st.cells) :
    ∃ st' w, execAll M O ops st = some st' ∧ st'.cells = st.cells ∧ v.eval M st' = some w ∧
      e.eval M O st.cells st.calls = some (w, st'.calls) := by
  obtain ⟨st', ws, hcomp⟩ := h.computes st hst
  cases mapM_eq_some_iff.1 hcomp.values with
  | cons hv hnil =>
    cases hnil
    exact ⟨st', _, hcomp.exec, hcomp.kept.cells, hv, evalAll_singleton.1 hcomp.eval⟩

theorem Scope.Bound.set {cells : String → Option V} (h : sc.Bound cells) (x : String) (ty : Ty)
    (w : V) : (sc.set x (.typed ty)).Bound (Function.update cells x (some w)) := by
  intro y ty' hy
  by_cases hxy : y = x
  · subst hxy
    exact ⟨w, Function.update_self ..⟩
  · rw [find?_set_of_ne _ _ hxy] at hy
    rw [Function.update_of_ne hxy]
    exact h y ty' hy

variable {s : Stmt} {rest : List Stmt} {t : Located (Option Value)}

/-- A statement that goes on leaves its code and the source in step. -/
theorem StmtFlattens.runs (h : StmtFlattens cx sc n s ops sc' m) (st : Store V)
    (hst : sc.Bound st.cells) :
    ∃ st', execAll M O ops st = some st' ∧ sc'.Bound st'.cells ∧ ∀ rest atEnd,
      Stmt.evalBody M O atEnd (s :: rest) st.cells st.calls =
        Stmt.evalBody M O atEnd rest st'.cells st'.calls := by
  cases h with
  | @bind x init span m ops v hinit =>
    obtain ⟨st₁, w, hexec, hcells, hv, heval⟩ := hinit.computes_one st hst
    refine ⟨st₁.setCell x w, ?_, ?_, ?_⟩
    · rw [execAll_append, hexec]
      simp [execAll, Op.exec, hv]
    · rw [← hcells] at hst
      exact hst.set x v.ty w
    · intro rest atEnd
      simp [Stmt.evalBody, heval, Store.setCell, hcells]
  | eval he =>
    obtain ⟨st₁, w, hexec, hcells, -, heval⟩ := he.computes_one st hst
    refine ⟨st₁, hexec, by rwa [hcells], ?_⟩
    intro rest atEnd
    simp [Stmt.evalBody, heval, hcells]
  | @evalVoid f args fspan cspan span m ops values hargs hty =>
    obtain ⟨st₁, ws, hcomp⟩ := hargs.computes (M := M) (O := O) st hst
    have hcells := hcomp.kept.cells
    refine ⟨st₁.perform O none ⟨f, ws⟩, ?_, by rwa [← hcells] at hst, ?_⟩
    · rw [execAll_append, hcomp.exec]
      simp [execAll, Op.exec, hcomp.values]
    · intro rest atEnd
      have heval : (Expr.call (.name f fspan) args cspan).eval M O st.cells st.calls = _ :=
        eval_call_eq_some.2 ⟨ws, _, hcomp.eval, rfl, rfl⟩
      simp [Stmt.evalBody, heval, Store.perform, hcells]

theorem StmtReturns.runs (h : StmtReturns cx sc n s ops t) (st : Store V)
    (hst : sc.Bound st.cells) :
    ∃ st' b, execAll M O ops st = some st' ∧ returned M st' t.val = some b ∧
      ∀ rest atEnd, Stmt.evalBody M O atEnd (s :: rest) st.cells st.calls = some b := by
  cases h with
  | none => exact ⟨st, _, rfl, rfl, fun _ _ => rfl⟩
  | value he =>
    obtain ⟨st₁, w, hexec, hcells, hv, heval⟩ := he.computes_one st hst
    refine ⟨st₁, ⟨st₁.calls, some w⟩, hexec, by simp [returned, hv], ?_⟩
    intro rest atEnd
    simp [Stmt.evalBody, heval]

/-- A body does the same before and after it is flattened. -/
theorem BodyFlattens.runs {stmts : List Stmt} {atEnd : Located (Option Value)} {w : Option V}
    (h : BodyFlattens cx atEnd sc n stmts ops t)
    (hend : ∀ st : Store V, returned M st atEnd.val = some ⟨st.calls, w⟩) (st : Store V)
    (hst : sc.Bound st.cells) :
    ∃ st' b, execAll M O ops st = some st' ∧ returned M st' t.val = some b ∧
      Stmt.evalBody M O w stmts st.cells st.calls = some b := by
  induction h generalizing st with
  | nil => exact ⟨st, _, rfl, hend st, rfl⟩
  | step hs _ ih =>
    obtain ⟨st₁, hexec₁, hbound, hsource⟩ := hs.runs st hst
    obtain ⟨st', b, hexec, hret, heval⟩ := ih st₁ hbound
    refine ⟨st', b, ?_, hret, (hsource _ _).trans heval⟩
    rw [execAll_append, hexec₁]
    exact hexec
  | ret hs =>
    obtain ⟨st', b, hexec, hret, hsource⟩ := hs.runs st hst
    exact ⟨st', b, hexec, hret, hsource _ _⟩

/-- A name that is given a value has one. -/
theorem setCells_isSome {x : String} {bindings : List (String × V)} {cells : String → Option V}
    (h : (∃ w, cells x = some w) ∨ x ∈ bindings.map (·.1)) :
    ∃ w, setCells cells bindings x = some w := by
  induction bindings generalizing cells with
  | nil => simpa [setCells] using h
  | cons b bs ih =>
    have hnext : (∃ w, Function.update cells b.1 (some b.2) x = some w) ∨ x ∈ bs.map (·.1) := by
      by_cases hx : x = b.1
      · subst hx
        exact .inl ⟨b.2, Function.update_self ..⟩
      · rw [Function.update_of_ne hx]
        simpa [hx] using h
    exact ih hnext

end Lowering

namespace Source.FnDef

open Lowering

variable {d : FnDef} {entryPoint : String}

theorem scope_bound {args : List V} (hlen : args.length = d.params.length) :
    d.scope.Bound (cellsOf ((d.params.map (·.name)).zip args)) := by
  intro x ty hx
  obtain ⟨p, hp, rfl, -⟩ := param_of_scope hx
  apply setCells_isSome
  rw [List.map_fst_zip (by simp [hlen])]
  exact .inr (List.mem_map_of_mem hp)

theorem returned_atEnd (st : Store V) : returned M st (d.atEnd entryPoint).val =
    some ⟨st.calls, if d.name.val = entryPoint then some (M.const (.int 0)) else none⟩ := by
  unfold atEnd
  split <;> rfl

/-- Lowering preserves meaning: a definition that draws no error and the function made from it make
the same calls and return the same value, whatever constants, operators and callees do. -/
theorem lowered_code_behaves {p : Program} {f : Func} {ds : List Diagnostic} {args : List V}
    (h : d.lower entryPoint (p.resultTypes entryPoint) = .ok (f, ds))
    (hds : Diagnostic.anyError ds = false) (hlen : args.length = d.params.length)
    (history : List (Call V)) :
    ∃ b, d.eval M O entryPoint args history = some b ∧ f.run M O args history = some b := by
  obtain ⟨hheader, ops, t, hflat, hf⟩ := flattens_of_lower h hds
  have hcells : (f.start args history).cells = cellsOf ((d.params.map (·.name)).zip args) := by
    rw [hf, ← typedParams_names hheader]
    rfl
  have hbound : d.scope.Bound (f.start args history).cells := by
    rw [hcells]
    exact scope_bound hlen
  obtain ⟨st', b, hexec, hret, heval⟩ := hflat.runs returned_atEnd (f.start args history) hbound
  rw [hcells] at heval
  refine ⟨b, heval, ?_⟩
  have hblock : f.blocks.head? = some ⟨Block.entryName, ops, some t⟩ := by rw [hf, List.head?_cons]
  simp [Func.run, hblock, Block.run, hexec, hret]

/-- `func f(a: int, b: int): int { let a = g(a - 1, b); h(a); return a * b; b; }` -/
def sampleDefinition : FnDef where
  name := ⟨"f", .nowhere⟩
  params := [⟨"a", ⟨"int", .nowhere⟩⟩, ⟨"b", ⟨"int", .nowhere⟩⟩]
  result := some ⟨"int", .nowhere⟩
  body := [
    .bind "a" (.call (.name "g" .nowhere) [.binary "-" (.name "a" .nowhere)
      (.literal (.int "1") .nowhere) .nowhere, .name "b" .nowhere] .nowhere) .nowhere,
    .eval (.call (.name "h" .nowhere) [.name "a" .nowhere] .nowhere) .nowhere,
    .ret (some (.binary "*" (.name "a" .nowhere) (.name "b" .nowhere) .nowhere)) .nowhere,
    .eval (.name "b" .nowhere) .nowhere]

def sampleProgram : Program := [.fn sampleDefinition,
  .fn ⟨⟨"g", .nowhere⟩, [], some ⟨"int", .nowhere⟩, []⟩]

/-- Every call returns seven more than the calls before it. -/
def sampleOracle : Oracle Machine.Word := fun calls _ => BitVec.ofNat 64 calls.length + 7

theorem lowered_code_behaves_sample :
    sampleDefinition.eval Machine.words sampleOracle "main" [4, 6] [] =
        some ⟨[⟨"g", [3, 6]⟩, ⟨"h", [7]⟩], some 42⟩ ∧
      ∃ f ds, sampleDefinition.lower "main" (sampleProgram.resultTypes "main") = .ok (f, ds) ∧
        f.run Machine.words sampleOracle [4, 6] [] =
          some ⟨[⟨"g", [3, 6]⟩, ⟨"h", [7]⟩], some 42⟩ := by
  have hsource : sampleDefinition.eval Machine.words sampleOracle "main" [4, 6] [] =
      some ⟨[⟨"g", [3, 6]⟩, ⟨"h", [7]⟩], some 42⟩ := by
    decide +kernel
  have hclean : ((sampleDefinition.lower "main" (sampleProgram.resultTypes "main")).toOption.map
      fun r => Diagnostic.anyError r.2) = some false := by
    decide +kernel
  obtain ⟨⟨f, ds⟩, hf, hds⟩ := exists_ok_of_toOption hclean
  obtain ⟨b, hb, hrun⟩ := lowered_code_behaves (M := Machine.words) (O := sampleOracle) hf hds
    (show [4, 6].length = 2 from rfl) []
  cases hsource.symm.trans hb
  exact ⟨hsource, f, ds, hf, hrun⟩

end Source.FnDef

end Straightline
