import Straightline.Proofs.Fragment.Syntax
import Straightline.Proofs.Lowering.Flatten
import Straightline.Proofs.Selection.Occupancy

/-!
Code for expressions. A computed value waits in the result register until it is read, and nothing
else can be computed meanwhile; so code is found just for expressions in the fragment.
-/
namespace Straightline.Lowering

open IR Source
open Selection (Selects State Place WellPlaced opReads touched ids codeOfOp isComputation)
open Machine (Register)

variable {lx : Context} {cx : Selection.Context} {sc : Scope} {es : List Expr} {n m : Nat}
  {ops : List (Located Op)} {vs : List Value} {s s' : State} {rest : List Nat} {limit : Nat}

section OpFor

variable {e : Expr} {args : List Expr} {values : List Value} {t : Temporary} {o : Op}
  (h : OpFor lx e args values t o)
include h

theorem OpFor.isComputed : e.isComputed = true := by cases h <;> rfl

theorem OpFor.isForeign : e.isForeign = false := by cases h <;> rfl

theorem OpFor.values_eq : o.operands = values := by cases h <;> rfl

theorem OpFor.result?_eq : o.result? = some (.temp t) := by cases h <;> rfl

theorem OpFor.isComputation : isComputation o = true := by cases h <;> rfl

theorem OpFor.touched_eq : touched o = ids values ++ [t.id] := by
  rw [touched, h.result?_eq, h.values_eq, Selection.ids_append]
  rfl

end OpFor

/-- Expressions only touch the temporaries that are numbered for them. -/
theorem Flattens.bounds (h : Flattens lx sc es n ops vs m) :
    (∀ o ∈ ops, ∀ id ∈ touched o.val, n ≤ id ∧ id < m) ∧ ∀ id ∈ ids vs, n ≤ id ∧ id < m := by
  induction h with
  | nil => simp [ids]
  | literal _ _ ih => exact ih
  | @name x ty span es n m ops vs _ hrest ih =>
    have hle := hrest.le
    have hn : ∀ id ∈ [n], n ≤ id ∧ id < m := by
      intro id hid
      rw [List.mem_singleton] at hid
      omega
    refine ⟨List.forall_mem_cons.2 ⟨hn, ?_⟩, List.forall_mem_cons.2 ⟨hn n (by simp), ?_⟩⟩
    · intro o ho id hid
      have := ih.1 o ho id hid
      omega
    · intro id hid
      have := ih.2 id hid
      omega
  | @computed e args es n k m opsₗ ops values vs ty o hargs he hrest ihargs ih =>
    have hle := hargs.le
    have hle' := hrest.le
    refine ⟨?_, List.forall_mem_cons.2 ⟨⟨hle, hle'⟩, ?_⟩⟩
    · rw [List.forall_mem_append, List.forall_mem_cons]
      refine ⟨?_, ?_, ?_⟩
      · intro o' ho id hid
        have := ihargs.1 o' ho id hid
        omega
      · intro id hid
        rw [he.touched_eq, List.mem_append, List.mem_singleton] at hid
        rcases hid with hid | rfl
        · have := ihargs.2 id hid
          omega
        · omega
      · intro o' ho id hid
        have := ih.1 o' ho id hid
        omega
    · intro id hid
      have := ih.2 id hid
      omega

theorem Flattens.not_touched (h : Flattens lx sc es n ops vs m) {id : Nat} (hid : id < n ∨ m ≤ id) :
    ∀ o ∈ ops, id ∉ touched o.val := by
  intro o ho hmem
  have := h.bounds.1 o ho id hmem
  omega

/-- What is read by the code of a computed expression and then by all that follows it. -/
theorem OpFor.opReads_eq {e : Expr} {args : List Expr} {values : List Value} {t : Temporary}
    {o : Op} (h : OpFor lx e args values t o) (opsₗ : List (Located Op)) (span : Span) :
    opReads (opsₗ ++ ⟨o, span⟩ :: ops) ++ rest =
      opReads opsₗ ++ (ids values ++ (opReads ops ++ rest)) := by
  rw [Selection.opReads_append, Selection.opReads_cons, h.values_eq]
  simp only [List.append_assoc]

section Necessary

/-- While a computed value is awaited, nothing else is computed. -/
theorem Flattens.not_computed_of_busy (h : Flattens lx sc es n ops vs m)
    (hsel : Selects cx ops s s') (hs : WellPlaced cx s) (hp : s.pending.Perm (opReads ops ++ rest))
    {id : Nat} (hid : id ∈ rest) (hlt : id < n) (hbusy : s.place? id = some (.reg .r0)) :
    ∀ e ∈ es, e.isComputed = false := by
  induction h generalizing s with
  | nil => simp
  | literal _ _ ih => exact List.forall_mem_cons.2 ⟨rfl, ih hsel hs hp hlt hbusy⟩
  | @name x ty span es n m ops vs _ _ ih =>
    cases hsel with
    | cons ho hsel =>
      have hid' : id ∉ [n] := by
        rw [List.mem_singleton]
        omega
      have hkeep := Selection.codeOfOp_place? ho hid'
      exact List.forall_mem_cons.2 ⟨rfl, ih hsel (hs.codeOfOp ho) (Selection.codeOfOp_perm hs ho hp)
        (by omega) (hkeep.trans hbusy)⟩
  | @computed e args es n k m opsₗ ops values vs ty o hargs he hrest ihargs ih =>
    obtain ⟨s₁, h₁, h₂⟩ := Selects.append_iff.1 hsel
    rw [he.opReads_eq] at hp
    have hle := hargs.le
    have hp₁ := h₁.perm hs hp
    rw [← he.values_eq] at hp₁
    cases h₂ with
    | cons ho _ =>
      -- The operation itself would overwrite the result register.
      refine (Selection.place?_ne_of_computation (h₁.wellPlaced hs) he.isComputation ho hp₁
        (List.mem_append_right _ hid) ?_ ?_).elim
      · rw [he.touched_eq, List.mem_append, List.mem_singleton]
        rintro (hmem | rfl)
        · have := hargs.bounds.2 id hmem
          omega
        · omega
      · exact (h₁.place?_eq (hargs.not_touched (.inl hlt))).trans hbusy

/-- Of expressions whose values are all awaited at the end, at most one is computed. -/
theorem Flattens.countP_le_one (h : Flattens lx sc es n ops vs m) (hsel : Selects cx ops s s')
    (hs : WellPlaced cx s) (hp : s.pending.Perm (opReads ops ++ rest))
    (hvs : ∀ id ∈ ids vs, id ∈ rest) : es.countP Expr.isComputed ≤ 1 := by
  induction h generalizing s with
  | nil => simp
  | literal _ _ ih => exact ih hsel hs hp hvs
  | name _ _ ih =>
    cases hsel with
    | cons ho hsel =>
      exact ih hsel (hs.codeOfOp ho) (Selection.codeOfOp_perm hs ho hp)
        (List.forall_mem_cons.1 hvs).2
  | @computed e args es n k m opsₗ ops values vs ty o hargs he hrest ihargs ih =>
    obtain ⟨s₁, h₁, h₂⟩ := Selects.append_iff.1 hsel
    rw [he.opReads_eq] at hp
    have hp₁ := h₁.perm hs hp
    rw [← he.values_eq] at hp₁
    cases h₂ with
    | cons ho h₂ =>
      have hs₁ := h₁.wellPlaced hs
      have hnone : ∀ e' ∈ es, e'.isComputed = false :=
        hrest.not_computed_of_busy h₂ (hs₁.codeOfOp ho) (Selection.codeOfOp_perm hs₁ ho hp₁)
          (hvs k (by simp [ids, Value.temp?])) (Nat.lt_succ_self k)
          (Selection.place?_of_computation he.isComputation ho he.result?_eq)
      have hzero : es.countP Expr.isComputed = 0 := by
        rw [List.countP_eq_zero]
        intro e' he'
        simp [hnone e' he']
      rw [List.countP_cons, hzero]
      split <;> omega

theorem Flattens.not_foreign (h : Flattens lx sc es n ops vs m) (hty : ∀ v ∈ vs, v.ty = .int) :
    ∀ e ∈ es, e.isForeign = false := by
  induction h with
  | nil => simp
  | @literal l c span es n m ops vs hc _ ih =>
    obtain ⟨hc', hty⟩ := List.forall_mem_cons.1 hty
    refine List.forall_mem_cons.2 ⟨?_, ih hty⟩
    cases l with
    | int text => rfl
    | float text =>
      obtain ⟨x, -, rfl⟩ := Option.map_eq_some_iff.1 hc
      cases hc'
    | string | bool =>
      cases hc
      cases hc'
  | name _ _ ih => exact List.forall_mem_cons.2 ⟨rfl, ih (List.forall_mem_cons.1 hty).2⟩
  | computed _ he _ _ ih =>
    exact List.forall_mem_cons.2 ⟨he.isForeign, ih (List.forall_mem_cons.1 hty).2⟩

/-- The operands of an operation with code are integers, and at most one of them is computed. -/
theorem Flattens.operands_of_selects (h : Flattens lx sc es n ops vs m) (hsel : Selects cx ops s s')
    (hs : WellPlaced cx s) (hp : s.pending.Perm (opReads ops ++ (ids vs ++ rest))) {o : Op}
    {s'' : State} (hcomp : isComputation o = true) (hvals : o.operands = vs)
    (ho : codeOfOp cx o s' = .ok () s'') :
    (∀ e ∈ es, e.isForeign = false) ∧ es.countP Expr.isComputed ≤ 1 := by
  refine ⟨h.not_foreign ?_, h.countP_le_one hsel hs hp fun id hid => List.mem_append_left _ hid⟩
  rw [← hvals]
  exact Selection.ty_of_computation hcomp ho

theorem OpFor.callFits_of_ok {e : Expr} {args : List Expr} {values : List Value} {t : Temporary}
    {o : Op} (h : OpFor lx e args values t o) (ho : codeOfOp cx o s = .ok () s')
    (hlen : values.length = args.length) : e.CallFits lx cx.maxArgs := by
  cases h with
  | binary => trivial
  | @call f fspan span args values k hty =>
    have ho : Selection.codeOfCall cx (some ⟨k, lx.resultOf f⟩) f values s = .ok () s' := ho
    obtain ⟨places, s₂, s₃, hint, hmax, -⟩ := Selection.codeOfCall_eq_ok.1 ho
    refine ⟨by omega, ?_⟩
    rintro f' hf
    cases hf
    exact .inl (hint _ rfl)

/-- Code for the expressions is only found if they are in the fragment. -/
theorem Flattens.fits_of_selects (h : Flattens lx sc es n ops vs m) (hsel : Selects cx ops s s')
    (hs : WellPlaced cx s) (hp : s.pending.Perm (opReads ops ++ rest)) :
    ∀ e ∈ Expr.partsAll es, e.Fits lx cx.maxArgs := by
  induction h generalizing s s' rest with
  | nil => simp [Expr.partsAll]
  | literal _ _ ih =>
    refine Expr.forall_mem_partsAll_cons.2 ⟨⟨⟨trivial, ?_, ?_⟩, ?_⟩, ih hsel hs hp⟩
    all_goals simp [Expr.operands, Expr.partsAll]
  | name _ _ ih =>
    cases hsel with
    | cons ho hsel =>
      refine Expr.forall_mem_partsAll_cons.2 ⟨⟨⟨trivial, ?_, ?_⟩, ?_⟩,
        ih hsel (hs.codeOfOp ho) (Selection.codeOfOp_perm hs ho hp)⟩
      all_goals simp [Expr.operands, Expr.partsAll]
  | @computed e args es n k m opsₗ ops values vs ty o hargs he hrest ihargs ih =>
    obtain ⟨s₁, h₁, h₂⟩ := Selects.append_iff.1 hsel
    rw [he.opReads_eq] at hp
    have hs₁ := h₁.wellPlaced hs
    have hp₁ := h₁.perm hs hp
    rw [← he.values_eq] at hp₁
    cases h₂ with
    | cons ho h₂ =>
      obtain ⟨hlit, hone⟩ := hargs.operands_of_selects h₁ hs hp he.isComputation he.values_eq ho
      have hfitₗ := ihargs h₁ hs hp
      rw [← he.operands_eq] at hlit hone hfitₗ
      have hcall := he.callFits_of_ok ho hargs.length_eq
      exact Expr.forall_mem_partsAll_cons.2 ⟨⟨⟨hcall, hlit, hone⟩, hfitₗ⟩,
        ih h₂ (hs₁.codeOfOp ho) (Selection.codeOfOp_perm hs₁ ho hp₁)⟩

end Necessary

section Sufficient

/-- Every name in scope is an integer and has a slot. -/
def Slotted (cx : Selection.Context) (sc : Scope) : Prop :=
  ∀ x ty, sc.find? x = some (.typed ty) → ty = .int ∧ ∃ o, cx.frame.offset? x = some o

/-- What is computed is in the result register, and all else in no register. -/
def RestsIn (e : Expr) (p : Place) : Prop :=
  if e.isComputed then p = .reg .r0 else p.isReg = false

/-- The value of an expression is where it rests until it is read. -/
def Placed (cx : Selection.Context) (s : State) (e : Expr) (v : Value) : Prop :=
  ∃ p, cx.locate s v = some p ∧ RestsIn e p

theorem RestsIn.isReg_eq {e : Expr} {p : Place} (h : RestsIn e p) : p.isReg = e.isComputed := by
  unfold RestsIn at h
  split at h
  next he => rw [h, he]; rfl
  next he => simp [h, he]

theorem RestsIn.ne_reg {e : Expr} {p : Place} (h : RestsIn e p) (he : e.isComputed = false)
    (r : Register) : p ≠ .reg r := by
  rintro rfl
  cases h.isReg_eq.trans he

theorem RestsIn.eq_r0 {e : Expr} {r : Register} (h : RestsIn e (.reg r)) : r = .r0 := by
  unfold RestsIn at h
  split at h
  · exact Place.reg.inj h
  · cases h

theorem ty_of_placed (h : List.Forall₂ (Placed cx s) es vs) : ∀ v ∈ vs, v.ty = .int := by
  induction h with
  | nil => simp
  | cons hv _ ih =>
    obtain ⟨p, hp, -⟩ := hv
    exact List.forall_mem_cons.2 ⟨Selection.ty_of_locate hp, ih⟩

theorem places_of_placed (h : List.Forall₂ (Placed cx s) es vs) :
    ∃ places, vs.mapM (cx.locate s) = some places ∧
      places.countP Place.isReg = es.countP Expr.isComputed := by
  induction h with
  | nil => exact ⟨[], rfl, rfl⟩
  | cons hv _ ih =>
    obtain ⟨p, hp, hrest⟩ := hv
    obtain ⟨places, hplaces, hcount⟩ := ih
    refine ⟨p :: places, by simp [hp, hplaces], ?_⟩
    rw [List.countP_cons, List.countP_cons, hcount, hrest.isReg_eq]

theorem OpFor.ty_eq_int {e : Expr} {args : List Expr} {values : List Value} {t : Temporary} {o : Op}
    (h : OpFor lx e args values t o) (hcall : e.CallFits lx limit)
    (hty : ∀ v ∈ values, v.ty = .int) : t.ty = .int := by
  cases h with
  | binary => exact hty _ List.mem_cons_self
  | call hnil => exact (hcall.2 _ rfl).resolve_right hnil

theorem opcode?_of_symbol {op : String} {b : BinOp} (h : BinOp.ofSymbol? op = some b) :
    ∃ c, Selection.opcode? b = some c := by
  unfold BinOp.ofSymbol? at h
  split_ifs at h <;> cases h <;> exact ⟨_, rfl⟩

/-- There is code for a call once its arguments are placed, if no more than one is computed. -/
theorem call_succeeds {result : Option Temporary} {f : String}
    (hvals : List.Forall₂ (Placed cx s) es vs) (hmax : es.length ≤ cx.maxArgs)
    (hone : es.countP Expr.isComputed ≤ 1) (hres : ∀ t ∈ result, t.ty = .int)
    (hp : s.pending.Perm (ids vs ++ rest)) (hidle : s.Idle rest) :
    ∃ s', codeOfOp cx (.call result f vs) s = .ok () s' := by
  obtain ⟨places, hplaces, hcount⟩ := places_of_placed hvals
  rw [hvals.length_eq] at hmax
  rw [← hcount] at hone
  exact Selection.codeOfCall_succeeds hres hmax hplaces hone hp hidle f

/-- There is code for an operation once its operands are placed, if no more than one is computed. -/
theorem OpFor.succeeds {e : Expr} {args : List Expr} {values : List Value} {t : Temporary} {o : Op}
    (h : OpFor lx e args values t o) (hfit : e.Fits lx cx.maxArgs)
    (hvals : List.Forall₂ (Placed cx s) args values) (hp : s.pending.Perm (ids values ++ rest))
    (hidle : s.Idle rest) : ∃ s', codeOfOp cx o s = .ok () s' := by
  have hone := hfit.nesting
  rw [h.operands_eq] at hone
  cases h with
  | @binary _ b lhs rhs _ l r _ hop _ =>
    obtain ⟨c, hc⟩ := opcode?_of_symbol hop
    cases hvals with
    | cons hl hvals =>
      cases hvals with
      | cons hr _ =>
        obtain ⟨p, hl, hpl⟩ := hl
        obtain ⟨q, hr, hqr⟩ := hr
        by_cases hcomp : rhs.isComputed = true
        · have hlhs : lhs.isComputed = false := by
            rw [Bool.eq_false_iff]
            intro hcomp'
            simp [hcomp, hcomp'] at hone
          rw [RestsIn, if_pos hcomp] at hqr
          subst hqr
          exact Selection.codeOfBinary_succeeds_right hc hl hr (hpl.ne_reg hlhs) hp hidle
        · have hq := hqr.ne_reg (Bool.eq_false_iff.2 hcomp)
          refine Selection.codeOfBinary_succeeds_left hc hl hr ?_ hq hp hidle
          rintro r rfl
          exact hpl.eq_r0
  | @call f _ _ args values k hnil =>
    refine call_succeeds hvals hfit.call.1 hone ?_ hp hidle
    intro t ht
    cases ht
    exact (hfit.call.2 _ rfl).resolve_right hnil

/-- Once there is code for the expressions, their values are where they rest. -/
theorem Flattens.placed (h : Flattens lx sc es n ops vs m) (hsc : Slotted cx sc)
    (hfit : ∀ e ∈ Expr.partsAll es, e.Fits lx limit) (hlit : ∀ e ∈ es, e.isForeign = false)
    (hsel : Selects cx ops s s') : List.Forall₂ (Placed cx s') es vs := by
  induction h generalizing s s' with
  | nil => exact .nil
  | @literal l c span es n m ops vs hc _ ih =>
    obtain ⟨hl, hlit⟩ := List.forall_mem_cons.1 hlit
    refine .cons ?_ (ih (Expr.forall_mem_partsAll_cons.1 hfit).2 hlit hsel)
    cases l with
    | int text =>
      obtain ⟨k, -, rfl⟩ := Option.map_eq_some_iff.1 hc
      exact ⟨.imm k, rfl, rfl⟩
    | float | string | bool => cases hl
  | @name x ty span es n m ops vs hx hrest ih =>
    obtain ⟨-, hlit⟩ := List.forall_mem_cons.1 hlit
    obtain ⟨rfl, -⟩ := hsc x ty hx
    cases hsel with
    | cons ho hsel =>
      refine .cons ?_ (ih (Expr.forall_mem_partsAll_cons.1 hfit).2 hlit hsel)
      obtain ⟨o, -, rfl⟩ := Selection.load_eq_ok.1 ho
      refine ⟨.slot o, ?_, rfl⟩
      have hkeep := hsel.place?_eq (hrest.not_touched (.inl (Nat.lt_succ_self n)))
      exact hkeep.trans ((State.settled_place? ..).trans (if_pos rfl))
  | @computed e args es n k m opsₗ ops values vs ty o hargs he hrest ihargs ih =>
    obtain ⟨-, hlit⟩ := List.forall_mem_cons.1 hlit
    obtain ⟨⟨hfit, hfitₗ⟩, hfit'⟩ := Expr.forall_mem_partsAll_cons.1 hfit
    obtain ⟨s₁, h₁, h₂⟩ := Selects.append_iff.1 hsel
    rw [he.operands_eq] at hfitₗ
    have hlitₗ := hfit.literals
    rw [he.operands_eq] at hlitₗ
    obtain rfl := he.ty_eq_int hfit.call (ty_of_placed (ihargs hfitₗ hlitₗ h₁))
    cases h₂ with
    | cons ho h₂ =>
      refine .cons ⟨.reg .r0, ?_, ?_⟩ (ih hfit' hlit h₂)
      · have hkeep := h₂.place?_eq (hrest.not_touched (.inl (Nat.lt_succ_self k)))
        exact hkeep.trans (Selection.place?_of_computation he.isComputation ho he.result?_eq)
      · rw [RestsIn, if_pos he.isComputed]

theorem Flattens.selects_of_not_computed (h : Flattens lx sc es n ops vs m) (hsc : Slotted cx sc)
    (hnone : ∀ e ∈ es, e.isComputed = false) (s : State) : ∃ s', Selects cx ops s s' := by
  induction h generalizing s with
  | nil => exact ⟨s, .nil⟩
  | literal _ _ ih => exact ih (List.forall_mem_cons.1 hnone).2 s
  | @name x ty span es n m ops vs hx _ ih =>
    obtain ⟨-, o, ho⟩ := hsc x ty hx
    obtain ⟨s', hsel⟩ := ih (List.forall_mem_cons.1 hnone).2 (s.settled (.temp ⟨n, ty⟩) (.slot o))
    exact ⟨s', .cons (Selection.load_eq_ok.2 ⟨o, ho, rfl⟩) hsel⟩
  | computed _ he _ _ _ =>
    have := (List.forall_mem_cons.1 hnone).1
    simp [he.isComputed] at this

/-- For expressions in the fragment there is code, if at most one of them is computed and nothing
that is awaited is in a register. -/
theorem Flattens.selects (h : Flattens lx sc es n ops vs m) (hsc : Slotted cx sc)
    (hfit : ∀ e ∈ Expr.partsAll es, e.Fits lx cx.maxArgs) (hone : es.countP Expr.isComputed ≤ 1)
    (hs : WellPlaced cx s) (hp : s.pending.Perm (opReads ops ++ rest))
    (hout : ∀ id ∈ rest, id ∈ ids vs ∨ id < n ∨ m ≤ id) (hidle : s.Idle s.pending) :
    ∃ s', Selects cx ops s s' := by
  induction h generalizing s rest with
  | nil => exact ⟨s, .nil⟩
  | literal _ _ ih =>
    exact ih (Expr.forall_mem_partsAll_cons.1 hfit).2 hone hs hp hout hidle
  | @name x ty span es n m ops vs hx _ ih =>
    obtain ⟨-, o, ho⟩ := hsc x ty hx
    have hload : codeOfOp cx (.load ⟨n, ty⟩ (.var ⟨x, ty⟩)) s =
        .ok () (s.settled (.temp ⟨n, ty⟩) (.slot o)) := Selection.load_eq_ok.2 ⟨o, ho, rfl⟩
    have hout' : ∀ id ∈ rest, id ∈ ids vs ∨ id < n + 1 ∨ m ≤ id := by
      intro id hid
      rcases hout id hid with hmem | hlt
      · rcases List.mem_cons.1 hmem with rfl | hmem
        · exact .inr (.inl (Nat.lt_succ_self _))
        · exact .inl hmem
      · exact .inr (by omega)
    have hidle' : (s.settled (.temp ⟨n, ty⟩) (.slot o)).Idle s.pending := by
      intro id hid r
      rw [State.settled_place?]
      split
      · simp
      · exact hidle id hid r
    obtain ⟨s', hsel⟩ := ih (Expr.forall_mem_partsAll_cons.1 hfit).2 hone (hs.codeOfOp hload)
      (Selection.codeOfOp_perm hs hload hp) hout' hidle'
    exact ⟨s', .cons hload hsel⟩
  | @computed e args es n k m opsₗ ops values vs ty o hargs he hrest ihargs ih =>
    obtain ⟨⟨hfite, hfitₗ⟩, -⟩ := Expr.forall_mem_partsAll_cons.1 hfit
    have hlitₗ := hfite.literals
    have honeₗ := hfite.nesting
    rw [he.operands_eq] at hfitₗ hlitₗ honeₗ
    rw [he.opReads_eq] at hp
    have hle := hargs.le
    have hle' := hrest.le
    -- What comes after the operands reads nothing that they number.
    have hlater : ∀ id ∈ opReads ops ++ rest, id < n ∨ k ≤ id := by
      intro id hid
      rcases List.mem_append.1 hid with hid | hid
      · obtain ⟨o', ho', hid⟩ := List.mem_flatMap.1 hid
        have := hrest.bounds.1 o' ho' id (Selection.mem_touched hid)
        omega
      · rcases hout id hid with hmem | hlt
        · rcases List.mem_cons.1 hmem with rfl | hmem
          · exact .inr (Nat.le_refl _)
          · have := hrest.bounds.2 id hmem
            omega
        · omega
    have hout' : ∀ id ∈ ids values ++ (opReads ops ++ rest), id ∈ ids values ∨ id < n ∨ k ≤ id := by
      intro id hid
      exact (List.mem_append.1 hid).imp_right (hlater id)
    obtain ⟨s₁, h₁⟩ := ihargs hfitₗ honeₗ hs hp hout' hidle
    have hidle₁ : s₁.Idle (opReads ops ++ rest) := by
      intro id hid r
      rw [h₁.place?_eq (hargs.not_touched (hlater id hid))]
      apply hidle
      rw [hp.mem_iff]
      exact List.mem_append_right _ (List.mem_append_right _ hid)
    have hplaced := hargs.placed hsc hfitₗ hlitₗ h₁
    obtain ⟨s₂, ho⟩ := he.succeeds hfite hplaced (h₁.perm hs hp) hidle₁
    have hnone : ∀ e' ∈ es, e'.isComputed = false := by
      simpa [List.countP_cons, he.isComputed] using hone
    obtain ⟨s', h₂⟩ := hrest.selects_of_not_computed hsc hnone s₂
    exact ⟨s', Selects.append_iff.2 ⟨s₁, h₁, .cons ho h₂⟩⟩

end Sufficient

end Straightline.Lowering
