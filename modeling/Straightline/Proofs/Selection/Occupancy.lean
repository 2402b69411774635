import Straightline.Proofs.Selection.Bookkeeping

/-!
Where values are while code is selected, and when a step succeeds: nothing moves but the operands of
an instruction, and an instruction that computes something needs the result register for itself.
-/
namespace Straightline.Selection

open IR
open Machine (Instr Opcode Operand Register)

variable {cx : Context} {s s' : State} {v : Value} {p q : Place} {dst : Register} {id : Nat}
  {rest : List Nat} {u : Unit}

theorem ty_of_locate (h : cx.locate s v = some p) : v.ty = .int := by
  cases v with
  | const c =>
    cases c with
    | int n => rfl
    | float | string | bool => cases h
  | var x | temp x =>
    simp only [Context.locate] at h
    split at h
    next hty => exact hty
    next => cases h

theorem locate_congr (h : ∀ id ∈ ids [v], s'.place? id = s.place? id) :
    cx.locate s' v = cx.locate s v := by
  cases v with
  | temp t => simp only [Context.locate, h t.id (by simp [ids, Value.temp?])]
  | const c => cases c <;> rfl
  | var x => rfl

theorem settled_place?_of_not_mem (h : id ∉ ids [v]) (p : Place) :
    (s.settled v p).place? id = s.place? id := by
  cases v with
  | temp t =>
    have hne : id ≠ t.id := by simpa [ids, Value.temp?] using h
    rw [State.settled_place?, if_neg hne]
  | const | var => rfl

theorem moved_place?_of_not_mem (h : id ∉ ids [v]) (p : Place) (dst : Register) :
    (s.moved v p dst).place? id = s.place? id := by
  cases p with
  | reg r => exact settled_place?_of_not_mem h _
  | imm | slot => rfl

theorem moved_place?_of_mem (h : id ∈ ids [v]) (r dst : Register) :
    (s.moved v (.reg r) dst).place? id = some (.reg dst) := by
  obtain ⟨ty, rfl⟩ := mem_ids_singleton h
  exact (State.settled_place? ..).trans (if_pos rfl)

theorem fetch_place? (h : fetch cx v dst s = .ok u s') (hid : id ∉ ids [v]) :
    s'.place? id = s.place? id := by
  obtain ⟨p, -, ⟨-, rfl⟩ | ⟨-, -, rfl⟩⟩ := fetch_eq_ok.1 h
  · exact State.spent_place? ..
  · exact (moved_place?_of_not_mem hid _ _).trans (State.spent_place? ..)

theorem fetchArgs_place? {which : Place → Bool} {ms : List ((Value × Place) × Register)}
    (h : fetchArgs cx which ms s = .ok u s') (hid : id ∉ ids (ms.map (·.1.1))) :
    s'.place? id = s.place? id := by
  induction ms generalizing s with
  | nil =>
    obtain ⟨-, rfl⟩ := pure_eq_ok.1 h
    rfl
  | cons m ms ih =>
    obtain ⟨⟨v, p⟩, r⟩ := m
    rw [List.map_cons, ids_cons, List.mem_append, not_or] at hid
    have h := fetchArgs_cons_eq_ok.1 h
    split at h
    · obtain ⟨s₁, hf, h⟩ := h
      exact (ih h hid.2).trans (fetch_place? hf hid.1)
    · exact ih h hid.2

theorem codeOfBinary_place? {b : BinOp} {t : Temporary} {lhs rhs : Value}
    (h : codeOfBinary cx b t lhs rhs s = .ok u s') (hid : id ∉ ids [lhs, rhs]) (ht : id ≠ t.id) :
    s'.place? id = s.place? id := by
  obtain ⟨op, p, q, s₁, x, s₂, -, -, hq, hx, -, rfl⟩ := codeOfBinary_eq_ok.1 h
  rw [ids_cons, List.mem_append, not_or] at hid
  obtain ⟨s₃, hl, hright⟩ := fetchOperands_eq_ok.1 hx
  have h₁ : s₁.place? id = s.place? id := by
    obtain ⟨-, -, -, rfl⟩ | ⟨-, -, rfl⟩ := stepAside_eq_ok.1 hq
    · exact moved_place?_of_not_mem hid.2 _ _
    · rfl
  have h₂ : s₂.place? id = s₃.place? id := by
    obtain ⟨r, -, rfl, -⟩ | ⟨n, -, -, rfl, -⟩ | ⟨-, -, hr, -⟩ := hright
    · exact State.spent_place? ..
    · rfl
    · exact (fetch_place? hr hid.2).trans (State.issued_place? ..)
  rw [State.settled_place?, if_neg ht, State.issued_place?, h₂, fetch_place? hl hid.1, h₁]

theorem codeOfCall_place? {result : Option Temporary} {callee : String} {args : List Value}
    (h : codeOfCall cx result callee args s = .ok u s') (hid : id ∉ ids args)
    (ht : ∀ t ∈ result, id ≠ t.id) : s'.place? id = s.place? id := by
  obtain ⟨places, s₁, s₂, -, hmax, hplaces, h₁, h₂, -, rfl⟩ := codeOfCall_eq_ok.1 h
  have hmax : args.length ≤ Register.arguments.length := Nat.le_trans hmax (Nat.min_le_right _ _)
  rw [← Context.moves_values (mapM_eq_some_iff.1 hplaces).length_eq.symm hmax] at hid
  have h₂ : s₂.place? id = s.place? id := (fetchArgs_place? h₂ hid).trans (fetchArgs_place? h₁ hid)
  cases result with
  | none => exact h₂
  | some t =>
    rw [← h₂]
    exact (State.settled_place? ..).trans (if_neg (ht t rfl))

/-- The temporaries that an operation reads or defines. -/
def touched (o : Op) : List Nat := ids (o.operands ++ o.result?.toList)

theorem not_mem_touched {o : Op} (h : id ∉ touched o) :
    id ∉ ids o.operands ∧ ∀ t, o.result? = some (.temp t) → id ≠ t.id := by
  rw [touched, ids_append, List.mem_append, not_or] at h
  refine ⟨h.1, ?_⟩
  rintro t ht rfl
  rw [ht] at h
  exact h.2 (by simp [ids, Value.temp?])

theorem mem_touched {o : Op} (h : id ∈ ids o.operands) : id ∈ touched o := by
  rw [touched, ids_append]
  exact List.mem_append_left _ h

/-- Only the operands of an operation move, and only its result is put anywhere new. -/
theorem codeOfOp_place? {o : Op} (h : codeOfOp cx o s = .ok u s') (hid : id ∉ touched o) :
    s'.place? id = s.place? id := by
  obtain ⟨hid, ht⟩ := not_mem_touched hid
  match o with
  | .alloc _ =>
    obtain ⟨-, rfl⟩ := pure_eq_ok.1 h
    rfl
  | .store (.var x) v =>
    obtain ⟨o, s₁, -, hf, -, rfl⟩ := store_eq_ok.1 h
    exact (State.issued_place? ..).trans (fetch_place? hf hid)
  | .load t (.var x) =>
    obtain ⟨o, -, rfl⟩ := load_eq_ok.1 h
    rw [State.settled_place?, if_neg (ht t rfl)]
  | .store (.const _) _ | .store (.temp _) _ | .load _ (.const _) | .load _ (.temp _) =>
    exact (throw_eq_ok.1 h).elim
  | .binary b t lhs rhs => exact codeOfBinary_place? h hid (ht t rfl)
  | .call t f args =>
    apply codeOfCall_place? h hid
    rintro t' rfl
    exact ht t' rfl

/-- The operation computes something, so it is not just a load or a store. -/
def isComputation : Op → Bool
  | .binary .. | .call .. => true
  | _ => false

/-- A computation succeeds only if nothing but its operands is awaited in the result register. -/
theorem place?_ne_of_computation {o : Op} (hs : WellPlaced cx s) (ho : isComputation o = true)
    (h : codeOfOp cx o s = .ok u s') (hp : s.pending.Perm (ids o.operands ++ rest))
    (hid : id ∈ rest) (ht : id ∉ touched o) : s.place? id ≠ some (.reg .r0) := by
  have hpend : id ∈ s'.pending := (codeOfOp_perm hs h hp).mem_iff.2 hid
  rw [← codeOfOp_place? h ht]
  obtain ⟨-, ht⟩ := not_mem_touched ht
  match o with
  | .binary b t lhs rhs =>
    obtain ⟨op, p, q, s₁, x, s₂, -, -, -, -, hfree, rfl⟩ := codeOfBinary_eq_ok.1 h
    rw [State.settled_pending, State.issued_pending] at hpend
    rw [State.settled_place?, if_neg (ht t rfl), State.issued_place?]
    exact hfree id hpend
  | .call result f args =>
    obtain ⟨places, s₁, s₂, -, -, -, -, -, hfree, rfl⟩ := codeOfCall_eq_ok.1 h
    rw [State.answered_pending, State.issued_pending] at hpend
    have hfree := hfree .r0 (by decide) id hpend
    cases result with
    | none => exact hfree
    | some t =>
      change ((s₂.issued _).settled (.temp t) _).place? id ≠ _
      rw [State.settled_place?, if_neg (ht t rfl), State.issued_place?]
      exact hfree

/-- What was computed is in the result register. -/
theorem place?_of_computation {o : Op} {t : Temporary} (ho : isComputation o = true)
    (h : codeOfOp cx o s = .ok u s') (ht : o.result? = some (.temp t)) :
    s'.place? t.id = some (.reg .r0) := by
  match o with
  | .binary b t' lhs rhs =>
    obtain ⟨op, p, q, s₁, x, s₂, -, -, -, -, -, rfl⟩ := codeOfBinary_eq_ok.1 h
    cases ht
    exact (State.settled_place? ..).trans (if_pos rfl)
  | .call result f args =>
    obtain ⟨places, s₁, s₂, -, -, -, -, -, -, rfl⟩ := codeOfCall_eq_ok.1 h
    obtain ⟨t', rfl, ht⟩ := Option.map_eq_some_iff.1 ht
    cases ht
    exact (State.settled_place? ..).trans (if_pos rfl)

/-- The operands of a computation are integers. -/
theorem ty_of_computation {o : Op} (ho : isComputation o = true)
    (h : codeOfOp cx o s = .ok u s') : ∀ v ∈ o.operands, v.ty = .int := by
  match o with
  | .binary b t lhs rhs =>
    obtain ⟨op, p, q, s₁, x, s₂, -, hr, -, hx, -, -⟩ := codeOfBinary_eq_ok.1 h
    obtain ⟨s₃, hl, -⟩ := fetchOperands_eq_ok.1 hx
    obtain ⟨p', hl, -⟩ := fetch_eq_ok.1 hl
    simp [Op.operands, ty_of_locate hl, ty_of_locate hr]
  | .call result f args =>
    obtain ⟨places, s₁, s₂, -, -, hplaces, -⟩ := codeOfCall_eq_ok.1 h
    intro v hv
    obtain ⟨i, hi, rfl⟩ := List.getElem_of_mem hv
    have hall := mapM_eq_some_iff.1 hplaces
    exact ty_of_locate (hall.get hi (hall.length_eq ▸ hi))

/-- None of these temporaries is in a register. -/
def State.Idle (s : State) (l : List Nat) : Prop := ∀ id ∈ l, ∀ r, s.place? id ≠ some (.reg r)

theorem State.free_of_perm {l : List Nat} (hp : s.pending.Perm l)
    (h : ∀ id ∈ l, s.place? id ≠ some (.reg dst)) : s.Free dst :=
  fun id hid => h id (hp.mem_iff.1 hid)

/-- A value goes to a register that is free, or stays in the one it is in. -/
theorem fetch_succeeds (hp : cx.locate s v = some p)
    (hfree : p = .reg dst ∨ (s.spent v).Free dst) : ∃ s', fetch cx v dst s = .ok () s' := by
  by_cases hr : p = .reg dst
  · exact ⟨_, fetch_eq_ok.2 ⟨p, hp, .inl ⟨hr, rfl⟩⟩⟩
  · exact ⟨_, fetch_eq_ok.2 ⟨p, hp, .inr ⟨hr, hfree.resolve_left hr, rfl⟩⟩⟩

/-- Nothing moves when a value is read from elsewhere than another register. -/
theorem fetch_place?_eq (hp : cx.locate s v = some p) (hr : ∀ r, p = .reg r → r = dst)
    (h : fetch cx v dst s = .ok u s') (id : Nat) : s'.place? id = s.place? id := by
  obtain ⟨p', hp', ⟨-, rfl⟩ | ⟨hne, -, rfl⟩⟩ := fetch_eq_ok.1 h
  · exact State.spent_place? ..
  · obtain rfl : p = p' := Option.some.inj (hp.symm.trans hp')
    cases p with
    | reg r => exact (hne (by rw [hr r rfl])).elim
    | imm | slot => exact State.spent_place? ..

theorem place?_of_locate (h : cx.locate s v = some p) : ∀ id ∈ ids [v], s.place? id = some p := by
  intro id hid
  obtain ⟨ty, rfl⟩ := mem_ids_singleton hid
  simp only [Context.locate] at h
  split at h
  · exact h
  · cases h

/-- A value that is elsewhere does not make a register busy. -/
theorem idle_cons {vs : List Value} (hp : cx.locate s v = some p) (hr : ∀ r, p ≠ .reg r)
    (hvs : s.Idle (ids vs ++ rest)) : s.Idle (ids (v :: vs) ++ rest) := by
  intro id hid r
  rw [ids_cons, List.append_assoc] at hid
  rcases List.mem_append.1 hid with hid | hid
  · rw [place?_of_locate hp id hid]
    simpa using hr r
  · exact hvs id hid r

theorem State.Idle.congr {l : List Nat} (h : s.Idle l)
    (hplace : ∀ id ∈ l, s'.place? id = s.place? id) : s'.Idle l := by
  intro id hid r
  rw [hplace id hid]
  exact h id hid r

theorem State.Idle.free {l : List Nat} (h : s.Idle l) (hp : s.pending.Perm l) (r : Register) :
    s.Free r := fun id hid => h id (hp.mem_iff.1 hid) r

section Binary

variable {b : BinOp} {op : Opcode} {t : Temporary} {lhs rhs : Value}

/-- The right operand is in the result register and has to step aside. -/
theorem codeOfBinary_succeeds_right (hop : opcode? b = some op) (hl : cx.locate s lhs = some p)
    (hr : cx.locate s rhs = some (.reg .r0)) (hpreg : ∀ r, p ≠ .reg r)
    (hp : s.pending.Perm (ids [lhs, rhs] ++ rest)) (hidle : s.Idle rest) :
    ∃ s', codeOfBinary cx b t lhs rhs s = .ok () s' := by
  have hlhs : ∀ id ∈ ids [lhs], id ∉ ids [rhs] := by
    intro id hid hid'
    have hsame := (place?_of_locate hl id hid).symm.trans (place?_of_locate hr id hid')
    exact hpreg .r0 (Option.some.inj hsame)
  have hrest : ∀ id ∈ rest, id ∉ ids [rhs] :=
    fun id hid hid' => hidle id hid .r0 (place?_of_locate hr id hid')
  let s₁ := s.moved rhs (.reg .r0) .r2
  have hkeep : ∀ id, id ∉ ids [rhs] → s₁.place? id = s.place? id :=
    fun id hid => moved_place?_of_not_mem hid _ _
  have hfree₂ : s.Free .r2 := by
    apply State.free_of_perm hp
    intro id hid
    rw [ids_cons] at hid
    simp only [List.append_assoc, List.mem_append] at hid
    rcases hid with hid | hid | hid
    · rw [place?_of_locate hl id hid]
      simpa using hpreg .r2
    · rw [place?_of_locate hr id hid]
      simp
    · exact hidle id hid .r2
  have haside : stepAside rhs (.reg .r0) s = .ok (.reg .r2) s₁ :=
    stepAside_eq_ok.2 (.inl ⟨rfl, hfree₂, rfl, rfl⟩)
  have hl₁ : cx.locate s₁ lhs = some p :=
    (locate_congr fun id hid => hkeep id (hlhs id hid)).trans hl
  have hp₁ : s₁.pending.Perm (ids [lhs, rhs] ++ rest) := by rwa [State.moved_pending]
  have hidle₁ : s₁.Idle rest := hidle.congr fun id hid => hkeep id (hrest id hid)
  have hfree₀ : (s₁.spent lhs).Free .r0 := by
    apply State.free_of_perm (spent_perm hp₁)
    intro id hid
    rw [State.spent_place?]
    rcases List.mem_append.1 hid with hid | hid
    · rw [moved_place?_of_mem hid]
      simp
    · exact hidle₁ id hid .r0
  obtain ⟨s₂, hf⟩ := fetch_succeeds hl₁ (.inr hfree₀)
  have hkeep₂ := fetch_place?_eq hl₁ (fun r h => (hpreg r h).elim) hf
  have hfinal : (s₂.spent rhs).Free .r0 := by
    refine State.Idle.free ?_ (spent_perm (fetch_perm hf hp₁)) .r0
    exact hidle₁.congr fun id _ => (State.spent_place? ..).trans (hkeep₂ id)
  exact ⟨_, codeOfBinary_eq_ok.2 ⟨op, _, _, s₁, _, _, hop, hr, haside,
    fetchOperands_eq_ok.2 ⟨s₂, hf, .inl ⟨.r2, rfl, rfl, rfl⟩⟩, hfinal, rfl⟩⟩

/-- The right operand is a constant or in a slot. -/
theorem codeOfBinary_succeeds_left (hop : opcode? b = some op) (hl : cx.locate s lhs = some p)
    (hr : cx.locate s rhs = some q) (hp₀ : ∀ r, p = .reg r → r = .r0) (hqreg : ∀ r, q ≠ .reg r)
    (hp : s.pending.Perm (ids [lhs, rhs] ++ rest)) (hidle : s.Idle rest) :
    ∃ s', codeOfBinary cx b t lhs rhs s = .ok () s' := by
  have haside : stepAside rhs q s = .ok q s := stepAside_eq_ok.2 (.inr ⟨hqreg .r0, rfl, rfl⟩)
  have hidle' : s.Idle (ids [rhs] ++ rest) := idle_cons hr hqreg hidle
  have hfree₀ : p = .reg .r0 ∨ (s.spent lhs).Free .r0 := by
    refine .inr (State.Idle.free ?_ (spent_perm hp) .r0)
    exact hidle'.congr fun id _ => State.spent_place? ..
  obtain ⟨s₁, hf⟩ := fetch_succeeds hl hfree₀
  have hkeep := fetch_place?_eq hl hp₀ hf
  have hp₁ : s₁.pending.Perm (ids [rhs] ++ rest) := fetch_perm hf hp
  have hfree₁ : ∀ r, s₁.Free r := (hidle'.congr fun id _ => hkeep id).free hp₁
  by_cases hdirect : ∃ n, q = .imm n ∧ isDirect op n = true
  · obtain ⟨n, rfl, hn⟩ := hdirect
    exact ⟨_, codeOfBinary_eq_ok.2 ⟨op, _, _, s, _, _, hop, hr, haside,
      fetchOperands_eq_ok.2 ⟨s₁, hf, .inr (.inl ⟨n, rfl, hn, rfl, rfl⟩)⟩, hfree₁ .r0, rfl⟩⟩
  · have hdetours : q.Detours op := by
      cases q with
      | imm n => exact Bool.eq_false_iff.2 fun hn => hdirect ⟨n, rfl, hn⟩
      | slot o => trivial
      | reg r => exact (hqreg r rfl).elim
    let s₂ := s₁.issued (.move .r1 .r0)
    have hp₂ : s₂.pending.Perm (ids [rhs] ++ rest) := hp₁
    have hr₂ : cx.locate s₂ rhs = some q := (locate_congr fun id _ => hkeep id).trans hr
    have hidle₂ : (s₂.spent rhs).Idle rest :=
      hidle.congr fun id _ => (State.spent_place? ..).trans (hkeep id)
    obtain ⟨s₃, hf'⟩ := fetch_succeeds hr₂ (.inr (hidle₂.free (spent_perm hp₂) .r0))
    have hkeep₃ := fetch_place?_eq hr₂ (fun r h => (hqreg r h).elim) hf'
    have hp₃ : s₃.pending.Perm (ids [] ++ rest) := fetch_perm hf' hp₂
    have hfinal : s₃.Free .r0 :=
      (hidle.congr fun id _ => (hkeep₃ id).trans (hkeep id)).free hp₃ .r0
    exact ⟨_, codeOfBinary_eq_ok.2 ⟨op, _, _, s, _, _, hop, hr, haside,
      fetchOperands_eq_ok.2 ⟨s₁, hf, .inr (.inr ⟨hdetours, hfree₁ .r1, hf', rfl⟩)⟩, hfinal, rfl⟩⟩

end Binary

section Call

variable {ms : List ((Value × Place) × Register)}

theorem fetchArgs_of_none {which : Place → Bool} (h : ∀ m ∈ ms, which m.1.2 = false) :
    fetchArgs cx which ms s = .ok () s := by
  induction ms with
  | nil => rfl
  | cons m ms ih =>
    obtain ⟨hm, hms⟩ := List.forall_mem_cons.1 h
    refine fetchArgs_cons_eq_ok.2 ?_
    rw [hm, if_neg Bool.false_ne_true]
    exact ih hms

/-- The one argument that is in a register moves to its place. -/
theorem fetchArgs_isReg_succeeds (hms : ∀ m ∈ ms, cx.locate s m.1.1 = some m.1.2)
    (hone : ms.countP (·.1.2.isReg) ≤ 1)
    (hp : s.pending.Perm (ids ((ms.filter (·.1.2.isReg)).map (·.1.1)) ++ rest))
    (hidle : s.Idle rest) :
    ∃ s', fetchArgs cx Place.isReg ms s = .ok () s' ∧ ∀ id ∈ rest, s'.place? id = s.place? id := by
  induction ms with
  | nil => exact ⟨s, rfl, fun _ _ => rfl⟩
  | cons m ms ih =>
    obtain ⟨⟨v, p⟩, r⟩ := m
    obtain ⟨hv, hms⟩ := List.forall_mem_cons.1 hms
    by_cases hreg : p.isReg = true
    · have hnone : ∀ m ∈ ms, m.1.2.isReg = false := by
        simpa [List.countP_cons, hreg] using hone
      have hfilter : ms.filter (·.1.2.isReg) = [] := by simpa using hnone
      rw [List.filter_cons, if_pos hreg, hfilter] at hp
      have hfree : (s.spent v).Free r :=
        (hidle.congr fun id _ => State.spent_place? ..).free (spent_perm hp) r
      obtain ⟨s', hf⟩ := fetch_succeeds hv (.inr hfree)
      refine ⟨s', ?_, ?_⟩
      · refine fetchArgs_cons_eq_ok.2 ?_
        rw [if_pos hreg]
        exact ⟨s', hf, fetchArgs_of_none hnone⟩
      · intro id hid
        apply fetch_place? hf
        intro hid'
        cases p with
        | reg r' => exact hidle id hid r' (place?_of_locate hv id hid')
        | imm | slot => cases hreg
    · rw [List.countP_cons, if_neg hreg, Nat.add_zero] at hone
      rw [List.filter_cons, if_neg hreg] at hp
      obtain ⟨s', hf, hkeep⟩ := ih hms hone hp
      refine ⟨s', fetchArgs_cons_eq_ok.2 ?_, hkeep⟩
      rwa [if_neg hreg]

/-- Arguments that are elsewhere go to their registers when none of these is awaited. -/
theorem fetchArgs_succeeds (hms : ∀ m ∈ ms, (!m.1.2.isReg) = true → cx.locate s m.1.1 = some m.1.2)
    (hp : s.pending.Perm (ids ((ms.filter (!·.1.2.isReg)).map (·.1.1)) ++ rest))
    (hidle : s.Idle s.pending) :
    ∃ s', fetchArgs cx (!·.isReg) ms s = .ok () s' ∧ ∀ id, s'.place? id = s.place? id := by
  induction ms generalizing s with
  | nil => exact ⟨s, rfl, fun _ => rfl⟩
  | cons m ms ih =>
    obtain ⟨⟨v, p⟩, r⟩ := m
    obtain ⟨hv, hms⟩ := List.forall_mem_cons.1 hms
    by_cases hreg : (!p.isReg) = true
    · have hpreg : ∀ r, p ≠ .reg r := by
        rintro r rfl
        cases hreg
      rw [List.filter_cons, if_pos hreg, List.map_cons] at hp
      have hfree : (s.spent v).Free r := by
        intro id hid
        rw [State.spent_place?]
        exact hidle id (State.mem_of_mem_spent hid) r
      obtain ⟨s₁, hf⟩ := fetch_succeeds (hv hreg) (.inr hfree)
      have hkeep := fetch_place?_eq (hv hreg) (fun r h => (hpreg r h).elim) hf
      have hp₁ := fetch_perm hf hp
      have hidle₁ : s₁.Idle s₁.pending := by
        intro id hid r
        rw [hkeep id]
        apply hidle id
        rw [hp.mem_iff, ids_cons, List.append_assoc]
        exact List.mem_append_right _ (hp₁.mem_iff.1 hid)
      have hms₁ : ∀ m ∈ ms, (!m.1.2.isReg) = true → cx.locate s₁ m.1.1 = some m.1.2 :=
        fun m hm h => (locate_congr fun id _ => hkeep id).trans (hms m hm h)
      obtain ⟨s', hf', hkeep'⟩ := ih hms₁ hp₁ hidle₁
      refine ⟨s', fetchArgs_cons_eq_ok.2 ?_, fun id => (hkeep' id).trans (hkeep id)⟩
      rw [if_pos hreg]
      exact ⟨s₁, hf, hf'⟩
    · rw [List.filter_cons, if_neg hreg] at hp
      obtain ⟨s', hf, hkeep⟩ := ih hms hp hidle
      refine ⟨s', fetchArgs_cons_eq_ok.2 ?_, hkeep⟩
      rwa [if_neg hreg]

/-- With at most one argument in a register, there is code for a call. -/
theorem codeOfCall_succeeds {result : Option Temporary} {args : List Value} {places : List Place}
    (hres : ∀ t ∈ result, t.ty = .int) (hmax : args.length ≤ cx.maxArgs)
    (hplaces : args.mapM (cx.locate s) = some places) (hone : places.countP Place.isReg ≤ 1)
    (hp : s.pending.Perm (ids args ++ rest)) (hidle : s.Idle rest) (callee : String) :
    ∃ s', codeOfCall cx result callee args s = .ok () s' := by
  obtain ⟨hlen, hzip⟩ := List.forall₂_iff_zip.1 (mapM_eq_some_iff.1 hplaces)
  have hmoves : ∀ m ∈ Context.moves args places, cx.locate s m.1.1 = some m.1.2 :=
    fun m hm => hzip (List.of_mem_zip hm).1
  have hone' : (Context.moves args places).countP (·.1.2.isReg) ≤ 1 := by
    rw [← Context.moves_places hlen.symm (Nat.le_trans hmax (Nat.min_le_right _ _)),
      List.countP_map] at hone
    exact hone
  have hp₁ := pending_perm_moves Place.isReg hplaces hmax hp
  have hidle₁ : s.Idle
      (ids (((Context.moves args places).filter (!·.1.2.isReg)).map (·.1.1)) ++ rest) := by
    intro id hid r
    rcases List.mem_append.1 hid with hid | hid
    · obtain ⟨v, hv, hid⟩ := mem_ids.1 hid
      obtain ⟨m, hm, rfl⟩ := List.mem_map.1 hv
      obtain ⟨hm, hreg⟩ := List.mem_filter.1 hm
      rw [place?_of_locate (hmoves m hm) id hid]
      intro he
      rw [Option.some.inj he] at hreg
      cases hreg
    · exact hidle id hid r
  -- The first go empties the registers, so that in the second nothing is in the way.
  obtain ⟨s₁, h₁, hkeep₁⟩ := fetchArgs_isReg_succeeds hmoves hone' hp₁ hidle₁
  have hp₂ := fetchArgs_perm h₁ hp₁
  have hmoves₁ : ∀ m ∈ Context.moves args places, (!m.1.2.isReg) = true →
      cx.locate s₁ m.1.1 = some m.1.2 := by
    intro m hm hreg
    refine (locate_congr fun id hid => hkeep₁ id ?_).trans (hmoves m hm)
    refine List.mem_append_left _ (mem_ids.2 ⟨m.1.1, ?_, hid⟩)
    exact List.mem_map_of_mem (List.mem_filter.2 ⟨hm, hreg⟩)
  have hidle₂ : s₁.Idle s₁.pending := by
    intro id hid r
    have hid := hp₂.mem_iff.1 hid
    rw [hkeep₁ id hid]
    exact hidle₁ id hid r
  obtain ⟨s₂, h₂, hkeep₂⟩ := fetchArgs_succeeds hmoves₁ hp₂ hidle₂
  have hfree : ∀ r ∈ Register.arguments, s₂.Free r := by
    intro r _
    refine State.Idle.free ?_ (fetchArgs_perm h₂ hp₂) r
    exact hidle.congr fun id hid => (hkeep₂ id).trans (hkeep₁ id (List.mem_append_right _ hid))
  exact ⟨_, codeOfCall_eq_ok.2 ⟨places, s₁, s₂, hres, hmax, hplaces, h₁, h₂, hfree, rfl⟩⟩

end Call

/-- Code was selected for the operations, one after another. -/
inductive Selects (cx : Context) : List (Located Op) → State → State → Prop
  | nil {s : State} : Selects cx [] s s
  | cons {o : Located Op} {ops : List (Located Op)} {s s₁ s' : State}
      (ho : codeOfOp cx o.val s = .ok () s₁) (hrest : Selects cx ops s₁ s') :
      Selects cx (o :: ops) s s'

/-- The temporaries that the operations read, as often as they do. -/
def opReads (ops : List (Located Op)) : List Nat := ops.flatMap fun o => ids o.val.operands

theorem opReads_cons (o : Located Op) (ops : List (Located Op)) :
    opReads (o :: ops) = ids o.val.operands ++ opReads ops := List.flatMap_cons

theorem opReads_append (ops ops' : List (Located Op)) :
    opReads (ops ++ ops') = opReads ops ++ opReads ops' := List.flatMap_append

namespace Selects

variable {ops ops' : List (Located Op)}

theorem append_iff : Selects cx (ops ++ ops') s s' ↔
    ∃ s₁, Selects cx ops s s₁ ∧ Selects cx ops' s₁ s' := by
  induction ops generalizing s with
  | nil =>
    constructor
    · exact fun h => ⟨s, .nil, h⟩
    · rintro ⟨s₁, hnil, h⟩
      cases hnil
      exact h
  | cons o ops ih =>
    constructor
    · intro h
      cases h with
      | cons ho hrest =>
        obtain ⟨s₁, h₁, h₂⟩ := ih.1 hrest
        exact ⟨s₁, .cons ho h₁, h₂⟩
    · rintro ⟨s₁, h₁, h₂⟩
      cases h₁ with
      | cons ho h₁ => exact .cons ho (ih.2 ⟨s₁, h₁, h₂⟩)

theorem wellPlaced (h : Selects cx ops s s') (hs : WellPlaced cx s) : WellPlaced cx s' := by
  induction h with
  | nil => exact hs
  | cons ho _ ih => exact ih (hs.codeOfOp ho)

theorem perm (h : Selects cx ops s s') (hs : WellPlaced cx s)
    (hp : s.pending.Perm (opReads ops ++ rest)) : s'.pending.Perm rest := by
  induction h with
  | nil => exact hp
  | @cons o ops s s₁ s' ho _ ih =>
    rw [opReads_cons, List.append_assoc] at hp
    exact ih (hs.codeOfOp ho) (codeOfOp_perm hs ho hp)

theorem place?_eq (h : Selects cx ops s s') (hid : ∀ o ∈ ops, id ∉ touched o.val) :
    s'.place? id = s.place? id := by
  induction h with
  | nil => rfl
  | cons ho _ ih =>
    obtain ⟨hid, hrest⟩ := List.forall_mem_cons.1 hid
    exact (ih hrest).trans (codeOfOp_place? ho hid)

end Selects

end Straightline.Selection
