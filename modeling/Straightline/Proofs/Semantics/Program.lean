import Mathlib.Logic.Relation
import Straightline.Proofs.Fragment.Syntax
import Straightline.Target.Basic

/-!
What a whole program does. A call of a function that the program defines is evaluated where it
stands, and so on as deep as calls are nested; calls of other names are the events of the program.
-/
namespace Straightline

open IR

variable {V : Type}

/-- The behaviour once the given calls have been made before it. -/
def Behaviour.following (b : Behaviour V) (calls : List (Call V)) : Behaviour V :=
  ⟨calls ++ b.calls, b.value⟩

namespace Source

section Evaluation

variable (M : Meaning V) (answer : Call V → Option (Behaviour V)) (env : String → Option V)

mutual

/-- What an expression does, given what calls do. -/
def Expr.perform : Expr → Option (Behaviour V)
  | .literal l _ => do
    let c ← l.constant?
    return ⟨[], some (M.const c)⟩
  | .name n _ => do
    let w ← env n
    return ⟨[], some w⟩
  | .binary op lhs rhs _ => do
    let b ← BinOp.ofSymbol? op
    let l ← lhs.perform
    let r ← rhs.perform
    let wl ← l.value
    let wr ← r.value
    return ⟨l.calls ++ r.calls, some (M.binary b wl wr)⟩
  | .call callee args _ => do
    let f ← callee.name?
    let (ws, calls) ← performAll args
    let b ← answer ⟨f, ws⟩
    return b.following calls

/-- The values of several expressions, each of which has to have one, and the events. -/
def Expr.performAll : List Expr → Option (List V × List (Call V))
  | [] => some ([], [])
  | e :: rest => do
    let b ← e.perform
    let w ← b.value
    let (ws, calls) ← performAll rest
    return (w :: ws, b.calls ++ calls)

end

/-- Statements up to the first return; `bare` is what comes back where nothing is returned. -/
def Stmt.performBody (bare : Option V) : List Stmt → (String → Option V) → Option (Behaviour V)
  | [], _ => some ⟨[], bare⟩
  | .bind name init _ :: rest, env => do
    let b ← init.perform M answer env
    let w ← b.value
    let after ← performBody bare rest (Function.update env name (some w))
    return after.following b.calls
  | .eval e _ :: rest, env => do
    let b ← e.perform M answer env
    let after ← performBody bare rest env
    return after.following b.calls
  | .ret none _ :: _, _ => some ⟨[], bare⟩
  | .ret (some e) _ :: _, env => do
    let b ← e.perform M answer env
    let w ← b.value
    return ⟨b.calls, some w⟩
  | .assign .. :: _, _ => none

/-- What comes back from a function that returns nothing: zero from the entry point. -/
def FnDef.bare (entryPoint : String) (d : FnDef) : Option V :=
  if d.name.val = entryPoint then some (M.const (.int 0)) else none

/-- A function binds its parameters and runs its body. -/
def FnDef.perform (entryPoint : String) (d : FnDef) (args : List V) : Option (Behaviour V) :=
  Stmt.performBody M answer (d.bare M entryPoint) d.body
    (cellsOf ((d.params.map (·.name)).zip args))

end Evaluation

namespace Program

variable (p : Program)

/-- The definition of a name; of several the first counts. -/
def definition? (name : String) : Option FnDef := p.definitions.find? (·.name.val = name)

/-- What a call does, where functions of the program call each other no more than `depth` deep. A call
of anything else is an event and gives no value. -/
def answer (M : Meaning V) (entryPoint : String) : Nat → Call V → Option (Behaviour V)
  | depth, c => match p.definition? c.callee, depth with
    | none, _ => some ⟨[c], none⟩
    | some _, 0 => none
    | some d, depth + 1 => d.perform M (answer M entryPoint depth) entryPoint c.args

variable {p} {d : FnDef} {M : Meaning V} {entryPoint : String} {depth : Nat} {c : Call V}

theorem definition?_eq_none_iff {name : String} :
    p.definition? name = none ↔ name ∉ p.definitions.map (·.name.val) := by
  simp [definition?]

theorem mem_of_definition? {name : String} (h : p.definition? name = some d) :
    d ∈ p.definitions ∧ d.name.val = name :=
  ⟨List.mem_of_find?_eq_some h, by simpa using List.find?_some h⟩

theorem definition?_name (hnames : (p.definitions.map (·.name.val)).Nodup)
    (hd : d ∈ p.definitions) : p.definition? d.name.val = some d := by
  cases hdef : p.definition? d.name.val with
  | none => exact (definition?_eq_none_iff.1 hdef (List.mem_map_of_mem hd)).elim
  | some g =>
    obtain ⟨hg, hname⟩ := mem_of_definition? hdef
    rw [List.inj_on_of_nodup_map hnames hg hd hname]

theorem lookup_resultTypes (entryPoint name : String) :
    (p.resultTypes entryPoint).lookup name =
      (p.definition? name).map (·.resultTy entryPoint) := by
  unfold resultTypes definition?
  generalize p.definitions = defs
  induction defs with
  | nil => rfl
  | cons d defs ih =>
    by_cases hname : d.name.val = name
    · simp [hname, FnDef.announcedTy_eq_resultTy]
    · rw [List.map_cons, List.lookup_cons, beq_false_of_ne (Ne.symm hname), ih,
        List.find?_cons_of_neg (by simpa using hname)]

/-- A call returns what the definition declares, and nothing if there is none. -/
theorem resultOf_eq (function name : String) :
    (⟨function, p.resultTypes entryPoint⟩ : Lowering.Context).resultOf name =
      ((p.definition? name).map (·.resultTy entryPoint)).getD .nil := by
  rw [Lowering.Context.resultOf, lookup_resultTypes]

theorem answer_foreign (h : p.definition? c.callee = none) :
    p.answer M entryPoint depth c = some ⟨[c], none⟩ := by
  unfold answer
  rw [h]

theorem answer_declared (h : p.definition? c.callee = some d) :
    p.answer M entryPoint (depth + 1) c =
      d.perform M (p.answer M entryPoint depth) entryPoint c.args := by
  unfold answer
  rw [h]

end Program

/-- The function that an expression calls, and with how many arguments. -/
def Expr.site? : Expr → Option (String × Nat)
  | .call callee args _ => callee.name?.map (·, args.length)
  | _ => none

/-- The calls in a function's body. -/
def FnDef.sites (d : FnDef) : List (String × Nat) :=
  (d.body.flatMap fun s => Expr.partsAll s.exprs).filterMap Expr.site?

/-- In the fragment a call returns an integer or nothing. -/
theorem FnDef.InFragment.resultOf {d : FnDef} {results : List (String × Ty)} {limit : Nat}
    (h : d.InFragment results limit) {s : Stmt} (hs : s ∈ Stmt.reached d.body) {e : Expr}
    (he : e ∈ Expr.partsAll s.exprs) {site : String × Nat} (hsite : site ∈ e.site?) :
    (⟨d.name.val, results⟩ : Lowering.Context).resultOf site.1 = .int ∨
      (⟨d.name.val, results⟩ : Lowering.Context).resultOf site.1 = .nil := by
  have hfits := ((h.body s hs).parts e he).call
  cases e with
  | literal | name | binary => cases hsite
  | call callee args span =>
    obtain ⟨f, hf, rfl⟩ := Option.map_eq_some_iff.1 hsite
    exact hfits.2 f hf

end Source

theorem Target.callee_eq_self {t : Target} {name : String}
    (h : ∀ e ∈ t.builtins.entries, e.1 ≠ name) : t.callee name = name := by
  have hnone : t.builtins.find? name = none := by
    rw [Builtins.find?, List.lookup_eq_none_iff]
    intro e he
    simpa using (h e he).symm
  rw [callee, hnone, Option.getD_none]

theorem Target.callee_eq_or (t : Target) (name : String) :
    t.callee name = name ∨ ∃ e ∈ t.builtins.entries, e.2 = t.callee name := by
  unfold callee
  cases hfind : t.builtins.find? name with
  | none => exact .inl rfl
  | some symbol =>
    obtain ⟨xs, ys, hentries, -⟩ := List.lookup_eq_some_iff.1 hfind
    exact .inr ⟨(name, symbol), by simp [hentries], rfl⟩

namespace Source.Program

variable (t : Target) (p : Program)

/-- Functions of the program, of which the first has a call of the second. -/
def Calls (f g : String) : Prop :=
  g ∈ p.definitions.map (·.name.val) ∧
    ∃ d ∈ p.definitions, d.name.val = f ∧ g ∈ d.sites.map (·.1)

/-- The program can be started, it calls its functions as they are declared and never in a circle,
those that are to return an integer do, and the target has no other use for their names. -/
structure Runnable : Prop where
  entry : ∃ d ∈ p.definitions, d.name.val = t.entryPoint ∧ d.params = []
  arity : ∀ d ∈ p.definitions, ∀ site ∈ d.sites, ∀ g ∈ p.definitions, g.name.val = site.1 →
    g.params.length = site.2
  returns : ∀ d ∈ p.definitions, d.name.val ≠ t.entryPoint → d.resultTy t.entryPoint = .int →
    ∃ e span, d.body.find? Stmt.isReturn = some (.ret (some e) span)
  acyclic : ∀ f, ¬ Relation.TransGen p.Calls f f
  apart : ∀ d ∈ p.definitions, ∀ e ∈ t.builtins.entries, e.1 ≠ d.name.val ∧ e.2 ≠ d.name.val

/-- Where calls do not go round in circles, functions have ranks such that they call lower ones. -/
theorem exists_rank {p : Program} (h : ∀ f, ¬ Relation.TransGen p.Calls f f) :
    ∃ rank : String → Nat, (∀ f g, p.Calls f g → rank g < rank f) ∧
      ∀ d ∈ p.definitions, rank d.name.val < p.definitions.length := by
  classical
  -- How many functions come to be called from a function.
  let names := (p.definitions.map (·.name.val)).toFinset
  let below := fun f => names.filter (Relation.TransGen p.Calls f)
  refine ⟨fun f => (below f).card, ?_, ?_⟩
  · intro f g hcall
    apply Finset.card_lt_card
    refine Finset.ssubset_iff_of_subset ?_ |>.2 ⟨g, ?_, ?_⟩
    · intro x hx
      obtain ⟨hname, hx⟩ := Finset.mem_filter.1 hx
      exact Finset.mem_filter.2 ⟨hname, .head hcall hx⟩
    · exact Finset.mem_filter.2 ⟨List.mem_toFinset.2 hcall.1, .single hcall⟩
    · intro hg
      exact h g (Finset.mem_filter.1 hg).2
  · intro d hd
    have hname : d.name.val ∈ names := List.mem_toFinset.2 (List.mem_map_of_mem hd)
    have hlt : (below d.name.val).card < names.card := by
      apply Finset.card_lt_card
      refine Finset.filter_ssubset.2 ⟨d.name.val, hname, h d.name.val⟩
    have hle : names.card ≤ p.definitions.length := by
      simpa [names] using List.toFinset_card_le (p.definitions.map (·.name.val))
    exact hlt.trans_le hle

theorem acyclic_of_rank {p : Program} (rank : String → Nat)
    (h : ∀ d ∈ p.definitions, ∀ g ∈ d.sites.map (·.1), g ∈ p.definitions.map (·.name.val) →
      rank g < rank d.name.val) : ∀ f, ¬ Relation.TransGen p.Calls f f := by
  have hlt : ∀ f g, Relation.TransGen p.Calls f g → rank g < rank f := by
    intro f g hcalls
    induction hcalls with
    | single hcall =>
      obtain ⟨hg, d, hd, rfl, hsite⟩ := hcall
      exact h d hd _ hsite hg
    | tail _ hcall ih =>
      obtain ⟨hg, d, hd, rfl, hsite⟩ := hcall
      exact (h d hd _ hsite hg).trans ih
  intro f hf
  exact Nat.lt_irrefl _ (hlt f f hf)

variable {t p} {d : FnDef}

/-- What a call reaches: a function of the program under its own name, or something else that has
none of their names. -/
inductive Resolves (t : Target) (p : Program) (d : FnDef) (site : String × Nat) : Prop
  | declared {g : FnDef} (hdef : p.definition? site.1 = some g)
      (hparams : g.params.length = site.2) (hcalls : p.Calls d.name.val g.name.val)
      (hcallee : t.callee site.1 = site.1)
  | foreign (hdef : p.definition? site.1 = none)
      (hcallee : t.callee site.1 ∉ p.definitions.map (·.name.val))

theorem Runnable.resolves (hp : p.Runnable t) (hd : d ∈ p.definitions) {site : String × Nat}
    (hsite : site ∈ d.sites) : Resolves t p d site := by
  cases hdef : p.definition? site.1 with
  | none =>
    refine .foreign hdef ?_
    intro hmem
    obtain ⟨g, hg, hname⟩ := List.mem_map.1 hmem
    rcases t.callee_eq_or site.1 with hself | ⟨e, he, hcallee⟩
    · rw [hself] at hmem
      exact definition?_eq_none_iff.1 hdef hmem
    · exact (hp.apart g hg e he).2 (hcallee.trans hname.symm)
  | some g =>
    obtain ⟨hg, hname⟩ := mem_of_definition? hdef
    refine .declared hdef (hp.arity d hd site hsite g hg hname) ?_ ?_
    · exact ⟨List.mem_map_of_mem hg, d, hd, rfl, hname ▸ List.mem_map_of_mem hsite⟩
    · apply Target.callee_eq_self
      intro e he
      rw [← hname]
      exact (hp.apart g hg e he).1

end Source.Program

end Straightline
