import Straightline.Proofs.Lowering.Abandon

/-!
The order in what lowering leaves, also where it gave up: names are declared before they are used,
temporaries are numbered as they come and read after that, and nothing that was there before a store
is read after it.
-/
namespace Straightline

namespace IR

/-- The value is a constant or one of the temporaries from `n` up to `m`. -/
def Value.Between (n m : Nat) : Value → Prop
  | .const _ => True
  | .var _ => False
  | .temp t => n ≤ t.id ∧ t.id < m

theorem Value.Between.mono {n n' m m' : Nat} {v : Value} (h : v.Between n m) (hn : n' ≤ n)
    (hm : m ≤ m') : v.Between n' m' := by
  cases v with
  | const c => trivial
  | var x => exact h
  | temp t => exact ⟨Nat.le_trans hn h.1, Nat.lt_of_lt_of_le h.2 hm⟩

/-- What code may refer to at some point: the names declared by then, and the temporaries from
`since` up to `next`. -/
structure Horizon where
  names : List String
  since : Nat
  next : Nat

namespace Horizon

def Readable (h : Horizon) (v : Value) : Prop := v.Between h.since h.next

/-- An operation that may stand where `h` is known, and what is known after it. What was computed
before a store is done with. -/
inductive Admits (h : Horizon) : Op → Horizon → Prop
  | alloc (v : Variable) : Admits h (.alloc v) { h with names := v.name :: h.names }
  | store {x : Variable} {v : Value} (hx : x.name ∈ h.names) (hv : h.Readable v) :
      Admits h (.store (.var x) v) { h with since := h.next }
  | load {x : Variable} (ty : Ty) (hx : x.name ∈ h.names) :
      Admits h (.load ⟨h.next, ty⟩ (.var x)) { h with next := h.next + 1 }
  | binary {b : BinOp} {l r : Value} (ty : Ty) (hl : h.Readable l) (hr : h.Readable r) :
      Admits h (.binary b ⟨h.next, ty⟩ l r) { h with next := h.next + 1 }
  | call {f : String} {args : List Value} (ty : Ty) (hargs : ∀ v ∈ args, h.Readable v) :
      Admits h (.call (some ⟨h.next, ty⟩) f args) { h with next := h.next + 1 }
  | callVoid {f : String} {args : List Value} (hargs : ∀ v ∈ args, h.Readable v) :
      Admits h (.call none f args) h

/-- Operations that may stand one after the other. -/
inductive AdmitsAll : Horizon → List (Located Op) → Horizon → Prop
  | nil {h : Horizon} : AdmitsAll h [] h
  | cons {h h' h'' : Horizon} {o : Located Op} {ops : List (Located Op)} (ho : h.Admits o.val h')
      (hops : AdmitsAll h' ops h'') : AdmitsAll h (o :: ops) h''

theorem AdmitsAll.append {h h' h'' : Horizon} {ops more : List (Located Op)}
    (hops : h.AdmitsAll ops h') (hmore : h'.AdmitsAll more h'') : h.AdmitsAll (ops ++ more) h'' := by
  induction hops with
  | nil => exact hmore
  | cons ho _ ih => exact .cons ho (ih hmore)

end Horizon

/-- The code of a function is in order from its parameters on, and so is what it returns. -/
def Func.InOrder (f : Func) : Prop := ∃ b h, f.blocks = [b] ∧
  Horizon.AdmitsAll ⟨f.params.map (·.name), 0, 0⟩ b.body h ∧
  ∀ t ∈ b.terminator, ∀ v ∈ t.val, h.Readable v

end IR

open IR Source

namespace Lowering

variable {cx : Context} {sc sc' : Scope} {es : List Expr} {n m since : Nat} {names : List String}
  {ops : List (Located Op)} {vs : List Value} {s : Stmt}

/-- Every name in scope that can be read is declared. -/
def Scope.Declared (sc : Scope) (names : List String) : Prop :=
  ∀ x ty, sc.find? x = some (.typed ty) → x ∈ names

theorem Scope.Declared.set_failed (hsc : sc.Declared names) (x : String) :
    (sc.set x .failed).Declared names := by
  intro y ty hy
  by_cases hxy : y = x
  · subst hxy
    simp at hy
  · rw [find?_set_of_ne _ _ hxy] at hy
    exact hsc y ty hy

theorem Scope.Declared.set_typed (hsc : sc.Declared names) (x : String) (ty : Ty) :
    (sc.set x (.typed ty)).Declared (x :: names) := by
  intro y ty' hy
  by_cases hxy : y = x
  · subst hxy
    exact List.mem_cons_self
  · rw [find?_set_of_ne _ _ hxy] at hy
    exact List.mem_cons_of_mem _ (hsc y ty' hy)

theorem OpFor.admits {e : Expr} {args : List Expr} {values : List Value} {k : Nat} {ty : Ty} {o : Op}
    (ho : OpFor cx e args values ⟨k, ty⟩ o) (hvalues : ∀ v ∈ values, v.Between since k)
    (names : List String) :
    Horizon.Admits ⟨names, since, k⟩ o ⟨names, since, k + 1⟩ := by
  cases ho with
  | binary hop hty => exact .binary _ (hvalues _ (by simp)) (hvalues _ (by simp))
  | call hty => exact .call _ hvalues

/-- The code of expressions is in order, and their values are temporaries of their own. -/
theorem Flattens.admits (h : Flattens cx sc es n ops vs m) (hsc : sc.Declared names)
    (hle : since ≤ n) :
    Horizon.AdmitsAll ⟨names, since, n⟩ ops ⟨names, since, m⟩ ∧ ∀ v ∈ vs, v.Between n m := by
  induction h with
  | nil => exact ⟨.nil, by simp⟩
  | literal hc _ ih =>
    obtain ⟨hops, hvs⟩ := ih hle
    exact ⟨hops, List.forall_mem_cons.2 ⟨trivial, hvs⟩⟩
  | @name x ty span rest n m ops vs hx hrest ih =>
    obtain ⟨hops, hvs⟩ := ih (by omega)
    have hm := hrest.le
    refine ⟨.cons (.load ty (hsc x ty hx)) hops, List.forall_mem_cons.2 ⟨⟨by simp, hm⟩, ?_⟩⟩
    intro v hv
    exact (hvs v hv).mono (by omega) (Nat.le_refl m)
  | @computed e args rest n k m opsₗ ops values vs ty o hargs he hrest ihargs ih =>
    have hk := hargs.le
    have hm := hrest.le
    obtain ⟨hopsₗ, hvalues⟩ := ihargs hle
    obtain ⟨hops, hvs⟩ := ih (by omega)
    have ho := he.admits (fun v hv => (hvalues v hv).mono hle (Nat.le_refl k)) names
    refine ⟨hopsₗ.append (.cons ho hops), List.forall_mem_cons.2 ⟨⟨hk, hm⟩, ?_⟩⟩
    intro v hv
    exact (hvs v hv).mono (by omega) (Nat.le_refl m)

/-- What is left of expressions that were given up is in order too. -/
theorem Abandons.admits (h : Abandons cx sc es n ops m) (hsc : sc.Declared names)
    (hle : since ≤ n) :
    n ≤ m ∧ Horizon.AdmitsAll ⟨names, since, n⟩ ops ⟨names, since, m⟩ := by
  induction h with
  | literal | name | operator | callee => exact ⟨Nat.le_refl _, .nil⟩
  | operands _ _ ih | args _ ih => exact ih hle
  | types _ hflat _ => exact ⟨hflat.le, (hflat.admits hsc hle).1⟩
  | void hflat _ =>
    obtain ⟨hops, hvalues⟩ := hflat.admits hsc hle
    refine ⟨hflat.le, hops.append (.cons (.callVoid ?_) .nil)⟩
    intro v hv
    exact (hvalues v hv).mono hle (Nat.le_refl _)
  | later hflat _ ih =>
    have hk := hflat.le
    obtain ⟨hm, hmore⟩ := ih (by omega)
    exact ⟨by omega, (hflat.admits hsc hle).1.append hmore⟩

theorem StmtFlattens.admits (h : StmtFlattens cx sc n s ops sc' m) (hsc : sc.Declared names)
    (hle : since ≤ n) : ∃ names' since', since' ≤ m ∧ sc'.Declared names' ∧
      Horizon.AdmitsAll ⟨names, since, n⟩ ops ⟨names', since', m⟩ := by
  cases h with
  | @bind x init span m ops v hinit =>
    obtain ⟨hops, hv⟩ := hinit.admits hsc hle
    refine ⟨x :: names, m, Nat.le_refl m, hsc.set_typed x v.ty, hops.append ?_⟩
    refine .cons (.alloc ⟨x, v.ty⟩) (.cons (.store List.mem_cons_self ?_) .nil)
    exact (hv v (by simp)).mono hle (Nat.le_refl m)
  | eval he =>
    have hm := he.le
    exact ⟨names, since, by omega, hsc, (he.admits hsc hle).1⟩
  | evalVoid hargs _ =>
    have hm := hargs.le
    obtain ⟨hops, hvalues⟩ := hargs.admits hsc hle
    refine ⟨names, since, by omega, hsc, hops.append (.cons (.callVoid ?_) .nil)⟩
    intro v hv
    exact (hvalues v hv).mono hle (Nat.le_refl m)

theorem StmtAbandons.admits (h : StmtAbandons cx sc n s ops sc' m) (hsc : sc.Declared names)
    (hle : since ≤ n) : since ≤ m ∧ sc'.Declared names ∧
      Horizon.AdmitsAll ⟨names, since, n⟩ ops ⟨names, since, m⟩ := by
  cases h with
  | @bind x _ _ _ _ h =>
    obtain ⟨hm, hops⟩ := h.admits hsc hle
    exact ⟨by omega, hsc.set_failed x, hops⟩
  | ret h | eval _ h | evalArgs h =>
    obtain ⟨hm, hops⟩ := h.admits hsc hle
    exact ⟨by omega, hsc, hops⟩
  | evalCallee | assign => exact ⟨hle, hsc, .nil⟩

/-- What is left of a body is in order. -/
theorem BodyLeaves.admits {stmts : List Stmt} {t : Option (Located (Option Value))}
    (h : BodyLeaves cx sc n stmts ops t) (hsc : sc.Declared names) (hle : since ≤ n) :
    ∃ h', Horizon.AdmitsAll ⟨names, since, n⟩ ops h' ∧
      ∀ r ∈ t, ∀ v ∈ r.val, h'.Readable v := by
  induction h generalizing names since with
  | nil => exact ⟨_, .nil, nofun⟩
  | step hs _ ih =>
    obtain ⟨names', since', hle', hsc', hnew⟩ := hs.admits hsc hle
    obtain ⟨h', hops, ht⟩ := ih hsc' hle'
    exact ⟨h', hnew.append hops, ht⟩
  | abandoned hs _ ih =>
    obtain ⟨hle', hsc', hnew⟩ := hs.admits hsc hle
    obtain ⟨h', hops, ht⟩ := ih hsc' hle'
    exact ⟨h', hnew.append hops, ht⟩
  | ret hs =>
    cases hs with
    | none =>
      refine ⟨_, .nil, ?_⟩
      rintro _ ⟨⟩ v hv
      cases hv
    | value he =>
      obtain ⟨hops, hv⟩ := he.admits hsc hle
      refine ⟨_, hops, ?_⟩
      rintro _ ⟨⟩ _ ⟨⟩
      exact (hv _ (by simp)).mono hle (Nat.le_refl _)

end Lowering

namespace Source.FnDef

open Lowering

variable {entryPoint : String} {d : FnDef} {results : List (String × Ty)}

theorem scope_declared (d : FnDef) : d.scope.Declared (d.typedParams.map (·.name)) := by
  intro x ty hx
  obtain ⟨p, hp, rfl, hty⟩ := param_of_scope hx
  refine List.mem_map.2 ⟨⟨p.name, ty⟩, List.mem_filterMap.2 ⟨p, hp, ?_⟩, rfl⟩
  rw [hty]
  rfl

/-- Whatever is wrong with a definition, its function is in order. -/
theorem inOrder_of_lower {f : Func} {ds : List Diagnostic}
    (h : d.lower entryPoint results = .ok (f, ds)) : f.InOrder := by
  obtain ⟨f', ds', ops, t, h', hleaves, -, hf⟩ := lower_leaves entryPoint d results
  cases h.symm.trans h'
  obtain ⟨h', hops, ht⟩ := hleaves.admits d.scope_declared (Nat.le_refl 0)
  refine ⟨_, h', by rw [hf], by rw [hf]; exact hops, ?_⟩
  intro r hr v hv
  cases t with
  | some t => exact ht r hr v hv
  | none =>
    rw [Option.none_or] at hr
    split at hr
    · cases hr
    · cases hr
      unfold atEnd at hv
      split at hv <;> cases hv
      trivial

end Source.FnDef

end Straightline
