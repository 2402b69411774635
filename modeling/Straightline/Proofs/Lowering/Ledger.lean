import Straightline.Proofs.Lowering.Modules

/-!
The books that lowered code keeps, also where lowering gave up. Temporaries are numbered as they come
and read at most once, a variable has its first value as soon as it is declared, and a name that is
read has the type of its latest declaration.
-/
namespace Straightline

namespace IR

/-- The temporaries among some values, as often as they occur. -/
def temps (vs : List Value) : List Temporary := vs.filterMap Value.temp?

theorem mem_temps {vs : List Value} {t : Temporary} : t ∈ temps vs ↔ .temp t ∈ vs := by
  constructor
  · intro ht
    obtain ⟨v, hv, hvt⟩ := List.mem_filterMap.1 ht
    cases v with
    | temp u =>
      obtain rfl := Option.some.inj hvt
      exact hv
    | const | var => cases hvt
  · intro ht
    exact List.mem_filterMap.2 ⟨.temp t, ht, rfl⟩

/-- The type that the last variable of a name has. -/
def latestTy? (vs : List Variable) (name : String) : Option Ty :=
  (vs.reverse.find? (·.name = name)).map (·.ty)

theorem latestTy?_append (vs ws : List Variable) (name : String) :
    latestTy? (vs ++ ws) name = (latestTy? ws name).or (latestTy? vs name) := by
  rw [latestTy?, List.reverse_append, List.find?_append, Option.map_or]
  rfl

theorem latestTy?_concat_self (vs : List Variable) (x : Variable) :
    latestTy? (vs ++ [x]) x.name = some x.ty := by
  simp [latestTy?]

theorem latestTy?_concat_of_ne {x : Variable} {name : String} (h : name ≠ x.name)
    (vs : List Variable) : latestTy? (vs ++ [x]) name = latestTy? vs name := by
  simp [latestTy?, Ne.symm h]

namespace Op

def reads (o : Op) : List Temporary := temps o.operands

def defines (o : Op) : List Temporary := temps o.result?.toList

/-- The variable that an operation makes room for. -/
def declared? : Op → Option Variable
  | alloc x => some x
  | _ => none

end Op

/-- What is on record at some point of the code: the variables declared so far, the one declared just
now, the next number, and the temporaries that were not read yet, the latest first. -/
structure Ledger where
  vars : List Variable
  fresh : Option Variable
  next : Nat
  unread : List Temporary

namespace Ledger

/-- The types in an operation agree with each other and with what is on record. -/
def Types (l : Ledger) : Op → Prop
  | .alloc _ | .call .. => True
  | .store dest v => ∃ x, dest = .var x ∧ l.fresh = some x ∧ v.ty = x.ty
  | .load t source => ∃ x, source = .var x ∧ t.ty = x.ty ∧ latestTy? l.vars x.name = some x.ty
  | .binary _ t lhs rhs => lhs.ty = t.ty ∧ rhs.ty = t.ty

/-- An operation that may stand where `l` is on record, and what is on record after it. What it reads
are the latest of the temporaries that were not read. -/
structure Enters (l : Ledger) (o : Op) (l' : Ledger) : Prop where
  types : l.Types o
  vars : l'.vars = l.vars ++ o.declared?.toList
  fresh : l'.fresh = o.declared?
  numbers : o.defines.map (·.id) = List.range' l.next o.defines.length
  next : l'.next = l.next + o.defines.length
  unread : ∃ rest, l.unread = o.reads.reverse ++ rest ∧ l'.unread = o.defines ++ rest

/-- Operations that may stand one after the other. -/
inductive EntersAll : Ledger → List (Located Op) → Ledger → Prop
  | nil {l : Ledger} : EntersAll l [] l
  | cons {l l' l'' : Ledger} {o : Located Op} {ops : List (Located Op)} (ho : l.Enters o.val l')
      (hops : EntersAll l' ops l'') : EntersAll l (o :: ops) l''

variable {l l' l'' : Ledger} {ops more pre post : List (Located Op)} {o : Located Op}

theorem EntersAll.append (h : l.EntersAll ops l') (hmore : l'.EntersAll more l'') :
    l.EntersAll (ops ++ more) l'' := by
  induction h with
  | nil => exact hmore
  | cons ho _ ih => exact .cons ho (ih hmore)

/-- Each operation has what was on record before it. -/
theorem EntersAll.at (h : l.EntersAll (pre ++ o :: post) l'') :
    ∃ l₁ l₂, l.EntersAll pre l₁ ∧ l₁.Enters o.val l₂ := by
  induction pre generalizing l with
  | nil =>
    cases h with
    | cons ho _ => exact ⟨l, _, .nil, ho⟩
  | cons p pre ih =>
    cases h with
    | cons hp h =>
      obtain ⟨l₁, l₂, hpre, ho⟩ := ih h
      exact ⟨l₁, l₂, .cons hp hpre, ho⟩

theorem EntersAll.vars (h : l.EntersAll ops l') :
    l'.vars = l.vars ++ ops.filterMap (·.val.declared?) := by
  induction h with
  | nil => simp
  | cons ho _ ih =>
    rw [ih, ho.vars, List.append_assoc, List.filterMap_cons]
    cases Op.declared? _ <;> rfl

/-- The variable declared just now is what the last operation makes room for. -/
theorem EntersAll.fresh (h : l.EntersAll (ops ++ [o]) l') : l'.fresh = o.val.declared? := by
  induction ops generalizing l with
  | nil =>
    cases h with
    | cons ho hnil =>
      cases hnil
      exact ho.fresh
  | cons p ops ih =>
    cases h with
    | cons _ h => exact ih h

/-- Temporaries are numbered as they come. -/
theorem EntersAll.numbers (h : l.EntersAll ops l') :
    (ops.flatMap (·.val.defines)).map (·.id) =
      List.range' l.next (ops.flatMap (·.val.defines)).length := by
  induction h with
  | nil => rfl
  | cons ho _ ih =>
    rw [List.flatMap_cons, List.map_append, ih, ho.numbers, ho.next, List.length_append,
      List.range'_append_1]

/-- What was defined was read once or is still unread. -/
theorem EntersAll.unread (h : l.EntersAll ops l') :
    (l.unread ++ ops.flatMap (·.val.defines)).Perm (ops.flatMap (·.val.reads) ++ l'.unread) := by
  induction h with
  | nil => simp
  | @cons l l' l'' o ops ho _ ih =>
    obtain ⟨rest, hl, hl'⟩ := ho.unread
    rw [hl', List.append_assoc] at ih
    rw [hl, List.flatMap_cons, List.flatMap_cons, List.append_assoc, List.append_assoc]
    exact (List.reverse_perm _).append ((List.perm_append_comm_assoc ..).trans ih)

end Ledger

end IR

open IR Source

namespace Lowering

variable {cx : Context} {sc sc' : Scope} {es : List Expr} {n m : Nat} {vars : List Variable}
  {ops : List (Located Op)} {vs : List Value} {s : Stmt}

/-- Every name in scope that can be read has the type of its latest declaration. -/
def Scope.Agrees (sc : Scope) (vars : List Variable) : Prop :=
  ∀ x ty, sc.find? x = some (.typed ty) → latestTy? vars x = some ty

theorem Scope.Agrees.set_failed (hsc : sc.Agrees vars) (x : String) :
    (sc.set x .failed).Agrees vars := by
  intro y ty hy
  by_cases hxy : y = x
  · subst hxy
    simp at hy
  · rw [find?_set_of_ne _ _ hxy] at hy
    exact hsc y ty hy

theorem Scope.Agrees.set_typed (hsc : sc.Agrees vars) (x : Variable) :
    (sc.set x.name (.typed x.ty)).Agrees (vars ++ [x]) := by
  intro y ty hy
  by_cases hxy : y = x.name
  · subst hxy
    rw [find?_set_self] at hy
    cases hy
    exact latestTy?_concat_self vars x
  · rw [find?_set_of_ne _ _ hxy] at hy
    rw [latestTy?_concat_of_ne hxy]
    exact hsc y ty hy

/-- The books between two statements: no variable waits for its value. -/
def books (vars : List Variable) (n : Nat) (unread : List Temporary) : Ledger :=
  ⟨vars, none, n, unread⟩

variable (vars) in
/-- An operation that declares nothing takes what it reads and adds what it defines. -/
theorem enters_books {o : Op} (unread : List Temporary) (hdecl : o.declared? = none)
    (hdef : o.defines.map (·.id) = List.range' n o.defines.length)
    (htypes : (books vars n (o.reads.reverse ++ unread)).Types o) :
    (books vars n (o.reads.reverse ++ unread)).Enters o
      (books vars (n + o.defines.length) (o.defines ++ unread)) where
  types := htypes
  vars := by simp [books, hdecl]
  fresh := by simp [books, hdecl]
  numbers := hdef
  next := rfl
  unread := ⟨unread, rfl, rfl⟩

theorem OpFor.enters {e : Expr} {args : List Expr} {values : List Value} {k : Nat} {ty : Ty} {o : Op}
    (ho : OpFor cx e args values ⟨k, ty⟩ o) (vars : List Variable) (unread : List Temporary) :
    (books vars k ((temps values).reverse ++ unread)).Enters o
      (books vars (k + 1) (⟨k, ty⟩ :: unread)) := by
  cases ho with
  | @binary _ b _ _ _ l r _ hop hty =>
    exact enters_books vars (o := .binary b ⟨k, l.ty⟩ l r) unread rfl rfl ⟨rfl, hty.symm⟩
  | @call f _ _ _ _ _ hty =>
    exact enters_books vars (o := .call (some ⟨k, _⟩) f values) unread rfl rfl trivial

/-- The code of expressions leaves their values unread. -/
theorem Flattens.enters (h : Flattens cx sc es n ops vs m) (hsc : sc.Agrees vars)
    (unread : List Temporary) :
    (books vars n unread).EntersAll ops (books vars m ((temps vs).reverse ++ unread)) := by
  have hcons : ∀ (t : Temporary) (vs : List Value) (unread : List Temporary),
      (temps (.temp t :: vs)).reverse ++ unread = (temps vs).reverse ++ t :: unread := by
    intro t vs unread
    rw [show temps (.temp t :: vs) = t :: temps vs from rfl, List.reverse_cons, List.append_assoc]
    rfl
  induction h generalizing unread with
  | nil => exact .nil
  | literal hc _ ih => exact ih unread
  | @name x ty span rest n m ops vs hx hrest ih =>
    rw [hcons]
    have hload := enters_books vars (o := .load ⟨n, ty⟩ (.var ⟨x, ty⟩)) unread rfl rfl
      ⟨⟨x, ty⟩, rfl, rfl, hsc x ty hx⟩
    exact .cons hload (ih _)
  | computed hargs he hrest ihargs ih =>
    rw [hcons]
    exact (ihargs unread).append (.cons (he.enters vars unread) (ih _))

theorem Flattens.enters_void (h : Flattens cx sc es n ops vs m) (hsc : sc.Agrees vars)
    (unread : List Temporary) (f : String) (span : Span) :
    (books vars n unread).EntersAll (ops ++ [⟨.call none f vs, span⟩]) (books vars m unread) := by
  have hcall : (books vars m _).Enters (.call none f vs) _ :=
    enters_books vars unread rfl rfl trivial
  exact (h.enters hsc unread).append (.cons hcall .nil)

/-- What is left of expressions that were given up keeps the books too. -/
theorem Abandons.enters (h : Abandons cx sc es n ops m) (hsc : sc.Agrees vars)
    (unread : List Temporary) :
    ∃ unread', (books vars n unread).EntersAll ops (books vars m unread') := by
  induction h generalizing unread with
  | literal | name | operator | callee => exact ⟨unread, .nil⟩
  | operands _ _ ih | args _ ih => exact ih unread
  | types _ hflat _ => exact ⟨_, hflat.enters hsc unread⟩
  | void hflat _ => exact ⟨unread, hflat.enters_void hsc unread _ _⟩
  | later hflat _ ih =>
    obtain ⟨unread', hmore⟩ := ih _
    exact ⟨unread', (hflat.enters hsc unread).append hmore⟩

theorem StmtFlattens.enters (h : StmtFlattens cx sc n s ops sc' m) (hsc : sc.Agrees vars)
    (unread : List Temporary) : ∃ vars' unread', sc'.Agrees vars' ∧
      (books vars n unread).EntersAll ops (books vars' m unread') := by
  cases h with
  | @bind x init span m ops v hinit =>
    refine ⟨vars ++ [⟨x, v.ty⟩], unread, hsc.set_typed ⟨x, v.ty⟩, ?_⟩
    let declared : Ledger := ⟨vars ++ [⟨x, v.ty⟩], some ⟨x, v.ty⟩, m, (temps [v]).reverse ++ unread⟩
    have halloc : (books vars m ((temps [v]).reverse ++ unread)).Enters (.alloc ⟨x, v.ty⟩) declared :=
      ⟨trivial, rfl, rfl, rfl, rfl, _, rfl, rfl⟩
    have hstore : declared.Enters (.store (.var ⟨x, v.ty⟩) v) (books (vars ++ [⟨x, v.ty⟩]) m unread) :=
      ⟨⟨_, rfl, rfl, rfl⟩, by simp [books, declared, Op.declared?], rfl, rfl, rfl, unread, rfl, rfl⟩
    exact (hinit.enters hsc unread).append (.cons halloc (.cons hstore .nil))
  | eval he => exact ⟨vars, _, hsc, he.enters hsc unread⟩
  | evalVoid hargs _ => exact ⟨vars, unread, hsc, hargs.enters_void hsc unread _ _⟩

theorem StmtAbandons.enters (h : StmtAbandons cx sc n s ops sc' m) (hsc : sc.Agrees vars)
    (unread : List Temporary) : sc'.Agrees vars ∧
      ∃ unread', (books vars n unread).EntersAll ops (books vars m unread') := by
  cases h with
  | @bind x _ _ _ _ h => exact ⟨hsc.set_failed x, h.enters hsc unread⟩
  | ret h | eval _ h | evalArgs h => exact ⟨hsc, h.enters hsc unread⟩
  | evalCallee | assign => exact ⟨hsc, unread, .nil⟩

/-- What is left of a body keeps the books, and its return reads what is unread. -/
theorem BodyLeaves.enters {stmts : List Stmt} {t : Option (Located (Option Value))}
    (h : BodyLeaves cx sc n stmts ops t) (hsc : sc.Agrees vars) (unread : List Temporary) :
    ∃ l, (books vars n unread).EntersAll ops l ∧
      ∀ r ∈ t, temps r.val.toList <+: l.unread := by
  induction h generalizing vars unread with
  | nil => exact ⟨_, .nil, nofun⟩
  | step hs _ ih =>
    obtain ⟨vars', unread', hsc', hnew⟩ := hs.enters hsc unread
    obtain ⟨l, hops, ht⟩ := ih hsc' unread'
    exact ⟨l, hnew.append hops, ht⟩
  | abandoned hs _ ih =>
    obtain ⟨hsc', unread', hnew⟩ := hs.enters hsc unread
    obtain ⟨l, hops, ht⟩ := ih hsc' unread'
    exact ⟨l, hnew.append hops, ht⟩
  | ret hs =>
    cases hs with
    | none =>
      refine ⟨_, .nil, ?_⟩
      rintro _ ⟨⟩
      exact List.nil_prefix
    | @value _ _ _ _ v he =>
      refine ⟨_, he.enters hsc unread, ?_⟩
      rintro _ ⟨⟩
      cases v with
      | temp t => exact ⟨unread, rfl⟩
      | const | var => exact List.nil_prefix

end Lowering

/-- The code of a function keeps the books from its parameters on, and its return reads what is
unread. -/
def IR.Func.KeepsBooks (f : Func) : Prop := ∃ b l, f.blocks = [b] ∧
  Ledger.EntersAll (Lowering.books f.params 0 []) b.body l ∧
  ∀ t ∈ b.terminator, temps t.val.toList <+: l.unread

namespace Source.FnDef

open Lowering

variable {entryPoint : String} {d : FnDef} {results : List (String × Ty)}

theorem foldl_setParam_agrees {ps : List Param} {sc : Scope} {vars : List Variable}
    (hsc : sc.Agrees vars) :
    (ps.foldl (fun s p => s.setParam p.name (Ty.ofName? p.ty.val)) sc).Agrees
      (vars ++ ps.filterMap fun p => (Ty.ofName? p.ty.val).map (⟨p.name, ·⟩)) := by
  induction ps generalizing sc vars with
  | nil => simpa using hsc
  | cons p ps ih =>
    rw [List.foldl_cons, List.filterMap_cons]
    cases hty : Ty.ofName? p.ty.val with
    | none => exact ih (hsc.set_failed p.name)
    | some ty =>
      change Scope.Agrees _ (vars ++ ⟨p.name, ty⟩ :: _)
      rw [List.append_cons]
      apply ih
      by_cases hfailed : sc.find? p.name = some .failed
      · -- A failed parameter of the name decides, so the name cannot be read.
        rw [Scope.setParam, if_pos hfailed]
        intro x ty' hx
        have hne : x ≠ p.name := by
          rintro rfl
          cases hfailed.symm.trans hx
        rw [latestTy?_concat_of_ne hne]
        exact hsc x ty' hx
      · rw [Scope.setParam, if_neg hfailed]
        exact hsc.set_typed ⟨p.name, ty⟩

theorem scope_agrees (d : FnDef) : d.scope.Agrees d.typedParams := by
  have hnil : Scope.Agrees [] [] := nofun
  exact foldl_setParam_agrees hnil

/-- Whatever is wrong with a definition, its function keeps the books. -/
theorem keepsBooks_of_lower {f : Func} {ds : List Diagnostic}
    (h : d.lower entryPoint results = .ok (f, ds)) : f.KeepsBooks := by
  obtain ⟨f', ds', ops, t, h', hleaves, -, hf⟩ := lower_leaves entryPoint d results
  cases h.symm.trans h'
  obtain ⟨l, hops, ht⟩ := hleaves.enters d.scope_agrees []
  refine ⟨_, l, by rw [hf], by rw [hf]; exact hops, ?_⟩
  intro r hr
  cases t with
  | some t => exact ht r hr
  | none =>
    rw [Option.none_or] at hr
    split at hr
    · cases hr
    · cases hr
      unfold atEnd
      split <;> exact List.nil_prefix

end Source.FnDef

end Straightline
