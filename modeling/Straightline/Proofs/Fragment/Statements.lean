import Straightline.Proofs.Fragment.Expressions

/-!
Code for statements and bodies. Between two statements nothing that is awaited has a place yet, so
each statement is judged on its own.
-/
namespace Straightline.Lowering

open IR Source
open Selection (Selects State Place WellPlaced opReads touched ids codeOfOp codeOfReturn fetch)
open Machine (Register)

variable {lx : Context} {cx : Selection.Context} {sc sc' : Scope} {n m : Nat}
  {ops : List (Located Op)} {s s' : State} {rest : List Nat} {st : Stmt}

/-- Nothing that is still to be read has been put anywhere. -/
structure Between (cx : Selection.Context) (s : State) : Prop where
  placed : WellPlaced cx s
  fresh : ∀ id ∈ s.pending, s.place? id = none

namespace Between

theorem free (h : Between cx s) (r : Register) : s.Free r := by
  intro id hid
  rw [h.fresh id hid]
  simp

theorem idle (h : Between cx s) : s.Idle s.pending := fun id hid r => h.free r id hid

/-- What no operation touches has no place after them either. -/
theorem place?_eq_none (h : Between cx s) (hsel : Selects cx ops s s') {id : Nat}
    (hid : id ∈ s.pending) (hout : ∀ o ∈ ops, id ∉ touched o.val) : s'.place? id = none :=
  (hsel.place?_eq hout).trans (h.fresh id hid)

theorem after (h : Between cx s) (hsel : Selects cx ops s s')
    (hp : s.pending.Perm (opReads ops ++ rest))
    (hout : ∀ id ∈ rest, ∀ o ∈ ops, id ∉ touched o.val) : Between cx s' := by
  refine ⟨hsel.wellPlaced h.placed, ?_⟩
  intro id hid
  have hid := (hsel.perm h.placed hp).mem_iff.1 hid
  exact h.place?_eq_none hsel (hp.mem_iff.2 (List.mem_append_right _ hid)) (hout id hid)

end Between

/-- What is read only after the expressions has no place once there is code for them. -/
theorem Flattens.place?_eq_none {es : List Expr} {vs : List Value}
    (h : Flattens lx sc es n ops vs m) (hb : Between cx s)
    (hp : s.pending.Perm (opReads ops ++ (ids vs ++ rest))) (hout : ∀ id ∈ rest, m ≤ id)
    (hsel : Selects cx ops s s') : ∀ id ∈ rest, s'.place? id = none := by
  intro id hid
  have hpend : id ∈ s.pending :=
    hp.mem_iff.2 (List.mem_append_right _ (List.mem_append_right _ hid))
  exact hb.place?_eq_none hsel hpend (h.not_touched (.inr (hout id hid)))

section Value

variable {e : Expr} {v : Value} (h : Flattens lx sc [e] n ops [v] m) (hb : Between cx s)
  (hp : s.pending.Perm (opReads ops ++ (ids [v] ++ rest))) (hout : ∀ id ∈ rest, m ≤ id)
include h hb hp hout

/-- Once the value of an expression is fetched, all that is awaited is still to come. -/
theorem Flattens.between_fetch {s₁ s₂ : State} (hsel : Selects cx ops s s₁)
    (hf : fetch cx v .r0 s₁ = .ok () s₂) : Between cx s₂ ∧ s₂.pending.Perm rest := by
  have hp₁ := hsel.perm hb.placed hp
  have hp₂ : s₂.pending.Perm rest := Selection.fetch_perm hf hp₁
  refine ⟨⟨(hsel.wellPlaced hb.placed).fetch (by decide) hf, ?_⟩, hp₂⟩
  intro id hid
  have hid := hp₂.mem_iff.1 hid
  have hv : id ∉ ids [v] := by
    intro hmem
    have := h.bounds.2 id hmem
    have := hout id hid
    omega
  rw [Selection.fetch_place? hf hv]
  exact h.place?_eq_none hb hp hout hsel id hid

/-- The value of an expression can be fetched just when it is in the fragment and an integer. -/
theorem Flattens.fetch_iff (hsc : Slotted cx sc) :
    (∃ s₁ s₂, Selects cx ops s s₁ ∧ fetch cx v .r0 s₁ = .ok () s₂) ↔
      (∀ e' ∈ Expr.partsAll [e], e'.Fits lx cx.maxArgs) ∧ e.isForeign = false := by
  constructor
  · rintro ⟨s₁, s₂, hsel, hf⟩
    obtain ⟨p, hloc, -⟩ := Selection.fetch_eq_ok.1 hf
    refine ⟨h.fits_of_selects hsel hb.placed hp, h.not_foreign ?_ e List.mem_cons_self⟩
    simpa using Selection.ty_of_locate hloc
  · rintro ⟨hfit, hlit⟩
    have hout' : ∀ id ∈ ids [v] ++ rest, id ∈ ids [v] ∨ id < n ∨ m ≤ id := by
      intro id hid
      exact (List.mem_append.1 hid).imp_right fun hid => .inr (hout id hid)
    have hone : [e].countP Expr.isComputed ≤ 1 := List.countP_le_length
    obtain ⟨s₁, hsel⟩ := h.selects hsc hfit hone hb.placed hp hout' hb.idle
    have hplaced := h.placed hsc hfit (by simpa using hlit) hsel
    obtain ⟨p, hloc, -⟩ := (List.forall₂_cons.1 hplaced).1
    have hfree : (s₁.spent v).Free .r0 := by
      apply Selection.State.free_of_perm (Selection.spent_perm (hsel.perm hb.placed hp))
      intro id hid
      rw [State.spent_place?, h.place?_eq_none hb hp hout hsel id hid]
      simp
    obtain ⟨s₂, hf⟩ := Selection.fetch_succeeds hloc (.inr hfree)
    exact ⟨s₁, s₂, hsel, hf⟩

end Value

theorem StmtFlattens.le (h : StmtFlattens lx sc n st ops sc' m) : n ≤ m := by
  cases h with
  | bind h | eval h | evalVoid h => exact h.le

/-- A statement only touches the temporaries that are numbered for it. -/
theorem StmtFlattens.bounds (h : StmtFlattens lx sc n st ops sc' m) :
    ∀ o ∈ ops, ∀ id ∈ touched o.val, n ≤ id ∧ id < m := by
  cases h with
  | bind h =>
    refine List.forall_mem_append.2 ⟨h.bounds.1, ?_⟩
    intro o ho id hid
    simp only [List.mem_cons, List.not_mem_nil, or_false] at ho
    rcases ho with rfl | rfl
    · cases hid
    · rw [touched, Op.operands, Op.result?, Option.toList_none, List.append_nil, Selection.ids_cons]
        at hid
      exact h.bounds.2 id hid
  | eval h => exact h.bounds.1
  | evalVoid h =>
    refine List.forall_mem_append.2 ⟨h.bounds.1, ?_⟩
    intro o ho id hid
    rw [List.mem_singleton] at ho
    subst ho
    rw [touched, Op.operands, Op.result?, Option.map_none, Option.toList_none, List.append_nil]
      at hid
    exact h.bounds.2 id hid

/-- Only integers are bound, or there is no code. -/
theorem StmtFlattens.slotted (h : StmtFlattens lx sc n st ops sc' m) (hsc : Slotted cx sc)
    (hsel : Selects cx ops s s') : Slotted cx sc' := by
  cases h with
  | @bind x init span m ops v h =>
    obtain ⟨s₁, -, h₂⟩ := Selects.append_iff.1 hsel
    cases h₂ with
    | cons halloc h₂ =>
      cases h₂ with
      | cons hstore _ =>
        obtain ⟨o, s₂, ho, hf, -⟩ := Selection.store_eq_ok.1 hstore
        obtain ⟨p, hloc, -⟩ := Selection.fetch_eq_ok.1 hf
        intro y ty hy
        by_cases hyx : y = x
        · subst hyx
          rw [Scope.find?_set_self] at hy
          cases hy
          exact ⟨Selection.ty_of_locate hloc, o, ho⟩
        · rw [Scope.find?_set_of_ne _ _ hyx] at hy
          exact hsc y ty hy
  | eval | evalVoid => exact hsc

theorem selects_singleton {o : Located Op} :
    Selects cx [o] s s' ↔ codeOfOp cx o.val s = .ok () s' := by
  constructor
  · intro h
    cases h with
    | cons ho hnil =>
      cases hnil
      exact ho
  · exact fun h => .cons h .nil

theorem opReads_bind (x : Variable) (v : Value) (aspan sspan : Span) :
    opReads [⟨.alloc x, aspan⟩, ⟨.store (.var x) v, sspan⟩] = ids [v] := by
  rw [Selection.opReads_cons, Selection.opReads_cons]
  exact List.append_nil _

theorem opReads_call (f : String) (values : List Value) (span : Span) :
    opReads [⟨.call none f values, span⟩] = ids values := by
  rw [Selection.opReads_cons]
  exact List.append_nil _

section Statement

variable (hsc : Slotted cx sc) (hb : Between cx s) (hout : ∀ id ∈ rest, m ≤ id)
include hsc hb hout

theorem Flattens.bind_iff {e : Expr} {v : Value} (h : Flattens lx sc [e] n ops [v] m)
    {x : Variable} {o : Int} (ho : cx.frame.offset? x.name = some o) {aspan sspan : Span}
    (hp : s.pending.Perm (opReads ops ++ (ids [v] ++ rest))) :
    (∃ s', Selects cx (ops ++ [⟨.alloc x, aspan⟩, ⟨.store (.var x) v, sspan⟩]) s s') ↔
      (∀ e' ∈ Expr.partsAll [e], e'.Fits lx cx.maxArgs) ∧ e.isForeign = false := by
  rw [← h.fetch_iff hb hp hout hsc]
  constructor
  · rintro ⟨s', hsel⟩
    obtain ⟨s₁, h₁, h₂⟩ := Selects.append_iff.1 hsel
    cases h₂ with
    | cons halloc h₂ =>
      cases halloc
      obtain ⟨_, s₂, -, hf, -⟩ := Selection.store_eq_ok.1 (selects_singleton.1 h₂)
      exact ⟨s₁, s₂, h₁, hf⟩
  · rintro ⟨s₁, s₂, h₁, hf⟩
    obtain ⟨hb₂, -⟩ := h.between_fetch hb hp hout h₁ hf
    have hstale : ∀ id ∈ s₂.pending, s₂.place? id ≠ some (.slot o) := by
      intro id hid
      rw [hb₂.fresh id hid]
      simp
    have hstore : codeOfOp cx (.store (.var x) v) s₁ = .ok () _ :=
      Selection.store_eq_ok.2 ⟨o, s₂, ho, hf, hstale, rfl⟩
    exact ⟨_, Selects.append_iff.2 ⟨s₁, h₁, .cons rfl (selects_singleton.2 hstore)⟩⟩

theorem Flattens.call_iff {args : List Expr} {values : List Value} {f : String}
    {fspan cspan span : Span} (h : Flattens lx sc args n ops values m) (hnil : lx.resultOf f = .nil)
    (hp : s.pending.Perm (opReads ops ++ (ids values ++ rest))) :
    (∃ s', Selects cx (ops ++ [⟨.call none f values, span⟩]) s s') ↔
      ∀ e ∈ Expr.partsAll [.call (.name f fspan) args cspan], e.Fits lx cx.maxArgs := by
  rw [Expr.forall_mem_partsAll_cons]
  constructor
  · rintro ⟨s', hsel⟩
    obtain ⟨s₁, h₁, h₂⟩ := Selects.append_iff.1 hsel
    have ho := selects_singleton.1 h₂
    obtain ⟨hlit, hone⟩ := h.operands_of_selects h₁ hb.placed hp rfl rfl ho
    have hcall : Selection.codeOfCall cx none f values s₁ = .ok () s' := ho
    obtain ⟨-, -, -, -, hmax, -⟩ := Selection.codeOfCall_eq_ok.1 hcall
    rw [h.length_eq] at hmax
    refine ⟨⟨⟨⟨hmax, ?_⟩, hlit, hone⟩, h.fits_of_selects h₁ hb.placed hp⟩, by simp [Expr.partsAll]⟩
    intro f' hf
    cases hf
    exact .inr hnil
  · rintro ⟨⟨hfit, hfitₗ⟩, -⟩
    have hout' : ∀ id ∈ ids values ++ rest, id ∈ ids values ∨ id < n ∨ m ≤ id := by
      intro id hid
      exact (List.mem_append.1 hid).imp_right fun hid => .inr (hout id hid)
    obtain ⟨s₁, h₁⟩ := h.selects hsc hfitₗ hfit.nesting hb.placed hp hout' hb.idle
    have hidle : s₁.Idle rest := by
      intro id hid r
      rw [h.place?_eq_none hb hp hout h₁ id hid]
      simp
    have hplaced := h.placed hsc hfitₗ hfit.literals h₁
    have hres : ∀ t ∈ (none : Option Temporary), t.ty = .int := by simp
    obtain ⟨s', ho⟩ :=
      call_succeeds hplaced hfit.call.1 hfit.nesting hres (h₁.perm hb.placed hp) hidle
    exact ⟨s', Selects.append_iff.2 ⟨s₁, h₁, selects_singleton.2 ho⟩⟩

/-- There is code for a statement just when it is in the fragment. -/
theorem StmtFlattens.selects_iff (h : StmtFlattens lx sc n st ops sc' m)
    (hx : ∀ x ∈ st.declared?, ∃ o, cx.frame.offset? x = some o)
    (hp : s.pending.Perm (opReads ops ++ rest)) :
    (∃ s', Selects cx ops s s') ↔ st.Fits lx cx.maxArgs := by
  cases h with
  | @bind x init span m ops v h =>
    obtain ⟨o, ho⟩ := hx x rfl
    rw [Selection.opReads_append, opReads_bind, List.append_assoc] at hp
    have ho : cx.frame.offset? (⟨x, v.ty⟩ : Variable).name = some o := ho
    rw [h.bind_iff hsc hb hout ho hp]
    constructor
    · rintro ⟨hfit, hlit⟩
      exact ⟨hfit, by simpa [Stmt.used] using hlit⟩
    · intro hfit
      exact ⟨hfit.parts, hfit.literals init List.mem_cons_self⟩
  | @eval e span m ops v h =>
    constructor
    · rintro ⟨s', hsel⟩
      exact ⟨h.fits_of_selects hsel hb.placed hp, by simp [Stmt.used]⟩
    · intro hfit
      have hone : [e].countP Expr.isComputed ≤ 1 := List.countP_le_length
      have hout' : ∀ id ∈ rest, id ∈ ids [v] ∨ id < n ∨ m ≤ id :=
        fun id hid => .inr (.inr (hout id hid))
      exact h.selects hsc hfit.parts hone hb.placed hp hout' hb.idle
  | evalVoid h hnil =>
    rw [Selection.opReads_append, opReads_call, List.append_assoc] at hp
    rw [h.call_iff hsc hb hout hnil hp]
    constructor
    · exact fun hfit => ⟨hfit, by simp [Stmt.used]⟩
    · exact fun hfit => hfit.parts

end Statement

theorem codeOfReturn_succeeds {value : Option Value} (h : ∀ v ∈ value, v = .const (.int 0))
    (hb : Between cx s) : ∃ s', codeOfReturn cx value s = .ok () s' := by
  cases value with
  | none =>
    exact ⟨_, Selection.codeOfReturn_none_eq_ok.2 ⟨fun _ => hb.free .r0, fun _ => hb.free .sp, rfl⟩⟩
  | some v =>
    obtain rfl := h v rfl
    have hf : fetch cx (.const (.int 0)) .r0 s = .ok () (s.issued (.moveImm .r0 0)) :=
      Selection.fetch_eq_ok.2 ⟨.imm 0, rfl, .inr ⟨nofun, hb.free .r0, rfl⟩⟩
    exact ⟨_, Selection.codeOfReturn_some_eq_ok.2 ⟨_, hf, fun _ => hb.free .sp, rfl⟩⟩

/-- There is code for a return just when it is in the fragment. -/
theorem StmtReturns.selects_iff {t : Located (Option Value)} (h : StmtReturns lx sc n st ops t)
    (hsc : Slotted cx sc) (hb : Between cx s)
    (hp : s.pending.Perm (opReads ops ++ ids t.val.toList)) :
    (∃ s₁ s₂, Selects cx ops s s₁ ∧ codeOfReturn cx t.val s₁ = .ok () s₂) ↔
      st.Fits lx cx.maxArgs := by
  cases h with
  | none =>
    have hnone : ∀ v ∈ (Option.none : Option Value), v = .const (.int 0) := by simp
    obtain ⟨s', hret⟩ := codeOfReturn_succeeds hnone hb
    refine iff_of_true ⟨s, s', .nil, hret⟩ ⟨?_, ?_⟩
    · simp [Stmt.exprs, Expr.partsAll]
    · simp [Stmt.used]
  | @value e span m ops v h =>
    have hp : s.pending.Perm (opReads ops ++ (ids [v] ++ [])) := by rwa [List.append_nil]
    have hout : ∀ id ∈ ([] : List Nat), m ≤ id := by simp
    have hfetch := h.fetch_iff hb hp hout hsc
    constructor
    · rintro ⟨s₁, s₂, hsel, hret⟩
      obtain ⟨s₃, hf, -⟩ := Selection.codeOfReturn_some_eq_ok.1 hret
      obtain ⟨hfit, hlit⟩ := hfetch.1 ⟨s₁, s₃, hsel, hf⟩
      exact ⟨hfit, by simpa [Stmt.used] using hlit⟩
    · intro hfit
      obtain ⟨s₁, s₂, hsel, hf⟩ := hfetch.2 ⟨hfit.parts, hfit.literals e List.mem_cons_self⟩
      obtain ⟨hb₂, -⟩ := h.between_fetch hb hp hout hsel hf
      exact ⟨s₁, _, hsel, Selection.codeOfReturn_some_eq_ok.2 ⟨s₂, hf, fun _ => hb₂.free .sp, rfl⟩⟩

section Body

variable {atEnd t : Located (Option Value)} {stmts : List Stmt}

/-- A body reads no temporaries that were numbered before it. -/
theorem BodyFlattens.le_of_mem (h : BodyFlattens lx atEnd sc n stmts ops t)
    (hend : ids atEnd.val.toList = []) : ∀ id ∈ opReads ops ++ ids t.val.toList, n ≤ id := by
  induction h with
  | nil =>
    rw [hend]
    simp [opReads]
  | @step sc sc' n m st rest new ops t hs hrest ih =>
    intro id hid
    rw [Selection.opReads_append, List.append_assoc] at hid
    rcases List.mem_append.1 hid with hid | hid
    · obtain ⟨o, ho, hid⟩ := List.mem_flatMap.1 hid
      exact (hs.bounds o ho id (Selection.mem_touched hid)).1
    · have := ih id hid
      have := hs.le
      omega
  | @ret sc n st rest ops t hs =>
    intro id hid
    cases hs with
    | none => cases hid
    | value h =>
      rcases List.mem_append.1 hid with hid | hid
      · obtain ⟨o, ho, hid⟩ := List.mem_flatMap.1 hid
        exact (h.bounds.1 o ho id (Selection.mem_touched hid)).1
      · exact (h.bounds.2 id hid).1

/-- There is code for a body just when every statement that is reached is in the fragment. -/
theorem BodyFlattens.selects_iff (h : BodyFlattens lx atEnd sc n stmts ops t)
    (hend : ∀ v ∈ atEnd.val, v = .const (.int 0)) (hsc : Slotted cx sc)
    (hx : ∀ x ∈ (Stmt.reached stmts).filterMap Stmt.declared?, ∃ o, cx.frame.offset? x = some o)
    (hb : Between cx s) (hp : s.pending.Perm (opReads ops ++ ids t.val.toList)) :
    (∃ s₁ s₂, Selects cx ops s s₁ ∧ codeOfReturn cx t.val s₁ = .ok () s₂) ↔
      ∀ st ∈ Stmt.reached stmts, st.Fits lx cx.maxArgs := by
  have hids : ids atEnd.val.toList = [] := by
    cases hval : atEnd.val with
    | none => rfl
    | some v =>
      obtain rfl := hend v hval
      rfl
  induction h generalizing s with
  | nil =>
    refine iff_of_true ?_ (by simp [Stmt.reached])
    obtain ⟨s', hret⟩ := codeOfReturn_succeeds hend hb
    exact ⟨s, s', .nil, hret⟩
  | @step sc sc' n m st rest new ops t hs hrest ih =>
    rw [Stmt.reached_cons hs.isReturn] at hx ⊢
    rw [List.forall_mem_cons]
    rw [Selection.opReads_append, List.append_assoc] at hp
    have hout := hrest.le_of_mem hids
    have hx₀ : ∀ x ∈ st.declared?, ∃ o, cx.frame.offset? x = some o :=
      fun x hmem => hx x (List.mem_filterMap.2 ⟨st, List.mem_cons_self, hmem⟩)
    have hx' : ∀ x ∈ (Stmt.reached rest).filterMap Stmt.declared?,
        ∃ o, cx.frame.offset? x = some o := by
      intro x hmem
      obtain ⟨st', hst', hmem⟩ := List.mem_filterMap.1 hmem
      exact hx x (List.mem_filterMap.2 ⟨st', List.mem_cons_of_mem _ hst', hmem⟩)
    have hstmt := hs.selects_iff hsc hb hout hx₀ hp
    have hnext : ∀ s₀, Selects cx new s s₀ →
        ((∃ s₁ s₂, Selects cx ops s₀ s₁ ∧ codeOfReturn cx t.val s₁ = .ok () s₂) ↔
          ∀ st ∈ Stmt.reached rest, st.Fits lx cx.maxArgs) := by
      intro s₀ h₀
      refine ih (hs.slotted hsc h₀) hx' (hb.after h₀ hp ?_) (h₀.perm hb.placed hp)
      intro id hid o ho hmem
      have := hs.bounds o ho id hmem
      have := hout id hid
      omega
    constructor
    · rintro ⟨s₁, s₂, hsel, hret⟩
      obtain ⟨s₀, h₀, h₁⟩ := Selects.append_iff.1 hsel
      exact ⟨hstmt.1 ⟨s₀, h₀⟩, (hnext s₀ h₀).1 ⟨s₁, s₂, h₁, hret⟩⟩
    · rintro ⟨hfit, hfit'⟩
      obtain ⟨s₀, h₀⟩ := hstmt.2 hfit
      obtain ⟨s₁, s₂, h₁, hret⟩ := (hnext s₀ h₀).2 hfit'
      exact ⟨s₁, s₂, Selects.append_iff.2 ⟨s₀, h₀, h₁⟩, hret⟩
  | @ret sc n st rest ops t hs =>
    have hreached : Stmt.reached (st :: rest) = [st] := by
      cases hs <;> simp [Stmt.reached, Stmt.isReturn]
    rw [hreached, List.forall_mem_singleton]
    exact hs.selects_iff hsc hb hp

end Body

end Straightline.Lowering
