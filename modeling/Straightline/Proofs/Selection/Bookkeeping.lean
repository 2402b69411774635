import Straightline.Proofs.Selection.Entry

/-!
What selection keeps true of its own records: temporaries are only ever put into slots and argument
registers, and every instruction spends the reads of its own operands, each of them once.
-/
namespace Straightline.Selection

open IR
open Machine (Instr Opcode Operand Register)

/-- The temporaries among some values, as often as they occur. -/
def ids (vs : List Value) : List Nat := vs.filterMap fun v => v.temp?.map (·.id)

/-- The temporaries that instructions read. -/
def readsOf (is : List (Located Instruction)) : List Nat := is.flatMap fun i => ids i.val.operands

variable {cx : Context} {s s' : State} {v : Value} {vs ws : List Value}
  {rest : List Nat} {u : Unit}

theorem ids_cons : ids (v :: vs) = ids [v] ++ ids vs := by
  cases v <;> rfl

theorem ids_append : ids (vs ++ ws) = ids vs ++ ids ws := List.filterMap_append

theorem ids_perm (h : vs.Perm ws) : (ids vs).Perm (ids ws) := h.filterMap _

theorem mem_ids {id : Nat} : id ∈ ids vs ↔ ∃ v ∈ vs, id ∈ ids [v] := by
  simp [ids, List.mem_filterMap, Option.map_eq_some_iff]

theorem mem_ids_singleton {id : Nat} (h : id ∈ ids [v]) : ∃ ty, v = .temp ⟨id, ty⟩ := by
  cases v with
  | temp t =>
    obtain rfl : id = t.id := by simpa [ids, Value.temp?] using h
    exact ⟨t.ty, rfl⟩
  | const | var => simp [ids, Value.temp?] at h

theorem spent_perm (h : s.pending.Perm (ids (v :: vs) ++ rest)) :
    (s.spent v).pending.Perm (ids vs ++ rest) := by
  cases v with
  | temp t =>
    have he := h.erase t.id
    change (s.pending.erase t.id).Perm _ at he
    rwa [show ids (.temp t :: vs) = t.id :: ids vs from rfl, List.cons_append,
      List.erase_cons_head] at he
  | const | var => exact h

theorem fetch_perm {dst : Register} (h : fetch cx v dst s = .ok u s')
    (hp : s.pending.Perm (ids (v :: vs) ++ rest)) : s'.pending.Perm (ids vs ++ rest) := by
  obtain ⟨p, -, ⟨-, rfl⟩ | ⟨-, -, rfl⟩⟩ := fetch_eq_ok.1 h
  · exact spent_perm hp
  · rw [State.moved_pending]
    exact spent_perm hp

theorem stepAside_pending {p q : Place} (h : stepAside v p s = .ok q s') :
    s'.pending = s.pending := by
  obtain ⟨-, -, -, rfl⟩ | ⟨-, -, rfl⟩ := stepAside_eq_ok.1 h
  · exact State.moved_pending ..
  · rfl

/-- A place that a temporary can be put into. -/
def Place.Usable (cx : Context) : Place → Prop
  | .imm _ => False
  | .slot o => ∃ x, cx.frame.offset? x = some o
  | .reg r => r ∈ Register.arguments

theorem Place.usable_reg {r : Register} (h : r ∈ Register.arguments) : (Place.reg r).Usable cx := h

def WellPlaced (cx : Context) (s : State) : Prop :=
  ∀ id p, s.place? id = some p → p.Usable cx

section WellPlaced

variable {p q : Place} {dst : Register} (hs : WellPlaced cx s)
include hs

theorem WellPlaced.spent (v : Value) : WellPlaced cx (s.spent v) := by
  intro id p h
  rw [State.spent_place?] at h
  exact hs id p h

theorem WellPlaced.issued (i : Instr) : WellPlaced cx (s.issued i) := hs

theorem WellPlaced.extended (c : List Instr) : WellPlaced cx (s.extended c) := hs

theorem WellPlaced.settled (v : Value) (hp : p.Usable cx) : WellPlaced cx (s.settled v p) := by
  cases v with
  | temp t =>
    intro id q h
    rw [State.settled_place?] at h
    split at h
    · obtain rfl := Option.some.inj h
      exact hp
    · exact hs id q h
  | const | var => exact hs

theorem WellPlaced.moved (v : Value) (p : Place) (hd : dst ∈ Register.arguments) :
    WellPlaced cx (s.moved v p dst) := by
  cases p with
  | reg r => exact (hs.issued _).settled v hd
  | imm | slot => exact hs.issued _

theorem WellPlaced.fetch (hd : dst ∈ Register.arguments) (h : fetch cx v dst s = .ok u s') :
    WellPlaced cx s' := by
  obtain ⟨p, -, ⟨-, rfl⟩ | ⟨-, -, rfl⟩⟩ := fetch_eq_ok.1 h
  · exact hs.spent v
  · exact (hs.spent v).moved v p hd

theorem WellPlaced.stepAside (h : stepAside v p s = .ok q s') : WellPlaced cx s' := by
  obtain ⟨-, -, -, rfl⟩ | ⟨-, -, rfl⟩ := stepAside_eq_ok.1 h
  · exact hs.moved v p (by decide)
  · exact hs

theorem WellPlaced.fetchOperands {op : Opcode} {lhs rhs : Value} {x : Register × Operand}
    (h : fetchOperands cx op lhs rhs p s = .ok x s') : WellPlaced cx s' := by
  obtain ⟨s₁, hl, ⟨r, -, rfl, -⟩ | ⟨n, -, -, rfl, -⟩ | ⟨-, -, hr, -⟩⟩ := fetchOperands_eq_ok.1 h
  · exact (hs.fetch (by decide) hl).spent rhs
  · exact hs.fetch (by decide) hl
  · exact ((hs.fetch (by decide) hl).issued _).fetch (by decide) hr

theorem WellPlaced.fetchArgs {which : Place → Bool} {ms : List ((Value × Place) × Register)}
    (hr : ∀ m ∈ ms, m.2 ∈ Register.arguments) (h : fetchArgs cx which ms s = .ok u s') :
    WellPlaced cx s' := by
  induction ms generalizing s with
  | nil =>
    obtain ⟨-, rfl⟩ := pure_eq_ok.1 h
    exact hs
  | cons m rest ih =>
    obtain ⟨⟨v, p⟩, r⟩ := m
    have h := fetchArgs_cons_eq_ok.1 h
    have hrest : ∀ m ∈ rest, m.2 ∈ Register.arguments := fun m hm => hr m (.tail _ hm)
    split at h
    · obtain ⟨s₁, hf, h⟩ := h
      exact ih (hs.fetch (hr _ (.head _)) hf) hrest h
    · exact ih hs hrest h

theorem WellPlaced.answered (t : Option Temporary) : WellPlaced cx (s.answered t) := by
  cases t with
  | none => exact hs
  | some t => exact hs.settled (.temp t) (Place.usable_reg (by decide))

theorem WellPlaced.codeOfOp {o : Op} (h : codeOfOp cx o s = .ok u s') : WellPlaced cx s' := by
  match o with
  | .alloc _ =>
    obtain ⟨-, rfl⟩ := pure_eq_ok.1 h
    exact hs
  | .store (.var x) v =>
    obtain ⟨o, s₁, -, hf, -, rfl⟩ := store_eq_ok.1 h
    exact (hs.fetch (by decide) hf).issued _
  | .store (.const _) _ | .store (.temp _) _ => exact (throw_eq_ok.1 h).elim
  | .load t (.var x) =>
    obtain ⟨o, ho, rfl⟩ := load_eq_ok.1 h
    exact hs.settled _ ⟨x.name, ho⟩
  | .load _ (.const _) | .load _ (.temp _) => exact (throw_eq_ok.1 h).elim
  | .binary b t lhs rhs =>
    obtain ⟨op, p, q, s₁, x, s₂, -, -, hq, hx, -, rfl⟩ := codeOfBinary_eq_ok.1 h
    exact (((hs.stepAside hq).fetchOperands hx).issued _).settled _
      (Place.usable_reg (by decide))
  | .call t f args =>
    obtain ⟨places, s₁, s₂, -, -, -, h₁, h₂, -, rfl⟩ := codeOfCall_eq_ok.1 h
    have hr : ∀ m ∈ Context.moves args places, m.2 ∈ Register.arguments :=
      fun m hm => (List.of_mem_zip hm).2
    exact (((hs.fetchArgs hr h₁).fetchArgs hr h₂).issued _).answered t

theorem WellPlaced.codeOf {i : Instruction} (h : codeOf cx i s = .ok u s') : WellPlaced cx s' := by
  match i with
  | .op o => exact hs.codeOfOp h
  | .ret (some v) =>
    obtain ⟨s₁, hf, -, rfl⟩ := codeOfReturn_some_eq_ok.1 h
    exact (hs.fetch (by decide) hf).extended _
  | .ret none =>
    obtain ⟨-, -, rfl⟩ := codeOfReturn_none_eq_ok.1 h
    exact hs.extended _

end WellPlaced

/-- Before the body nothing was put anywhere. -/
theorem wellPlaced_of_prologue {pending : List Nat}
    (h : prologue cx { pending } = .ok u s') : WellPlaced cx s' := by
  obtain ⟨-, -, -, -, c, -, rfl⟩ := prologue_eq_ok.1 h
  intro id p hp
  cases hp

/-- A value that is found as an immediate is no temporary. -/
theorem WellPlaced.ids_of_locate_imm {n : Int64} (hs : WellPlaced cx s)
    (h : cx.locate s v = some (.imm n)) : ids [v] = [] := by
  cases v with
  | temp t =>
    simp only [Context.locate] at h
    split at h
    · exact (hs _ _ h).elim
    · cases h
  | const | var => rfl

theorem fetchArgs_perm {which : Place → Bool} {ms : List ((Value × Place) × Register)}
    (h : fetchArgs cx which ms s = .ok u s')
    (hp : s.pending.Perm (ids ((ms.filter (which ·.1.2)).map (·.1.1)) ++ rest)) :
    s'.pending.Perm rest := by
  induction ms generalizing s with
  | nil =>
    obtain ⟨-, rfl⟩ := pure_eq_ok.1 h
    exact hp
  | cons m ms ih =>
    obtain ⟨⟨v, p⟩, r⟩ := m
    have h := fetchArgs_cons_eq_ok.1 h
    by_cases hw : which p = true
    · simp only [hw, if_true] at h
      obtain ⟨s₁, hf, h⟩ := h
      apply ih h
      apply fetch_perm hf
      simpa [List.filter_cons, hw] using hp
    · simp only [hw, Bool.false_eq_true, if_false] at h
      apply ih h
      simpa [List.filter_cons, hw] using hp

theorem codeOfBinary_perm {b : BinOp} {t : Temporary} {lhs rhs : Value} (hs : WellPlaced cx s)
    (h : codeOfBinary cx b t lhs rhs s = .ok u s')
    (hp : s.pending.Perm (ids [lhs, rhs] ++ rest)) : s'.pending.Perm rest := by
  obtain ⟨op, p, q, s₁, x, s₂, -, hloc, hq, hx, -, rfl⟩ := codeOfBinary_eq_ok.1 h
  obtain ⟨s₃, hl, hright⟩ := fetchOperands_eq_ok.1 hx
  have h₃ : s₃.pending.Perm (ids [rhs] ++ rest) := by
    apply fetch_perm hl
    rwa [stepAside_pending hq]
  rw [State.settled_pending, State.issued_pending]
  obtain ⟨r, -, rfl, -⟩ | ⟨n, rfl, -, rfl, -⟩ | ⟨-, -, hr, -⟩ := hright
  · exact spent_perm h₃
  · -- The immediate is where the right operand was found, so there is nothing to spend.
    obtain ⟨-, -, h, -⟩ | ⟨-, rfl, -⟩ := stepAside_eq_ok.1 hq
    · cases h
    · rwa [hs.ids_of_locate_imm hloc] at h₃
  · exact fetch_perm hr h₃

section Moves

variable {args : List Value} {places : List Place} (hlen : places.length = args.length)
  (hmax : args.length ≤ Register.arguments.length)
include hlen hmax

theorem Context.moves_fst : (Context.moves args places).map (·.1) = args.zip places := by
  apply List.map_fst_zip
  simpa [hlen] using hmax

theorem Context.moves_values : (Context.moves args places).map (·.1.1) = args := by
  calc (Context.moves args places).map (·.1.1)
      = ((Context.moves args places).map (·.1)).map (·.1) := by
        simp [List.map_map, Function.comp_def]
    _ = (args.zip places).map (·.1) := by rw [Context.moves_fst hlen hmax]
    _ = args := List.map_fst_zip (by omega)

theorem Context.moves_places : (Context.moves args places).map (·.1.2) = places := by
  calc (Context.moves args places).map (·.1.2)
      = ((Context.moves args places).map (·.1)).map (·.2) := by
        simp [List.map_map, Function.comp_def]
    _ = (args.zip places).map (·.2) := by rw [Context.moves_fst hlen hmax]
    _ = places := List.map_snd_zip (by omega)

end Moves

/-- The arguments of a call are read in two goes. -/
theorem pending_perm_moves {args : List Value} {places : List Place} (which : Place → Bool)
    (hplaces : args.mapM (cx.locate s) = some places) (hmax : args.length ≤ cx.maxArgs)
    (hp : s.pending.Perm (ids args ++ rest)) :
    s.pending.Perm (ids (((Context.moves args places).filter (which ·.1.2)).map (·.1.1)) ++
      (ids (((Context.moves args places).filter (!which ·.1.2)).map (·.1.1)) ++ rest)) := by
  have hmax : args.length ≤ Register.arguments.length := Nat.le_trans hmax (Nat.min_le_right _ _)
  have hvals := Context.moves_values (mapM_eq_some_iff.1 hplaces).length_eq.symm hmax
  rw [← List.append_assoc, ← ids_append, ← List.map_append]
  refine hp.trans (List.Perm.append_right _ (ids_perm ?_))
  nth_rewrite 1 [← hvals]
  exact (List.filter_append_perm _ _).symm.map _

theorem codeOfCall_perm {result : Option Temporary} {callee : String} {args : List Value}
    (h : codeOfCall cx result callee args s = .ok u s')
    (hp : s.pending.Perm (ids args ++ rest)) : s'.pending.Perm rest := by
  obtain ⟨places, s₁, s₂, -, hmax, hplaces, h₁, h₂, -, rfl⟩ := codeOfCall_eq_ok.1 h
  rw [State.answered_pending, State.issued_pending]
  apply fetchArgs_perm h₂
  apply fetchArgs_perm h₁
  exact pending_perm_moves _ hplaces hmax hp

theorem codeOfOp_perm {o : Op} (hs : WellPlaced cx s) (h : codeOfOp cx o s = .ok u s')
    (hp : s.pending.Perm (ids o.operands ++ rest)) : s'.pending.Perm rest := by
  match o with
  | .alloc _ =>
    obtain ⟨-, rfl⟩ := pure_eq_ok.1 h
    exact hp
  | .store (.var x) v =>
    obtain ⟨o, s₁, -, hf, -, rfl⟩ := store_eq_ok.1 h
    rw [State.issued_pending]
    exact fetch_perm hf hp
  | .store (.const _) _ | .store (.temp _) _ => exact (throw_eq_ok.1 h).elim
  | .load t (.var x) =>
    obtain ⟨o, -, rfl⟩ := load_eq_ok.1 h
    exact hp
  | .load _ (.const _) | .load _ (.temp _) => exact (throw_eq_ok.1 h).elim
  | .binary b t lhs rhs => exact codeOfBinary_perm hs h hp
  | .call t f args => exact codeOfCall_perm h hp

end Straightline.Selection
