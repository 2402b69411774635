import Straightline.Proofs.Selection.Bookkeeping

/-!
The records that selection keeps while it goes through a function. Between two instructions the
counted reads are those of the code still to come, no register holds two values that are still to be
read, and such values are only in the result register and where a right operand steps aside to.
-/
namespace Straightline.Selection

open IR
open Machine (Instr Opcode Operand Register)

variable {cx : Context} {s s' : State} {v : Value} {p q : Place} {dst : Register} {u : Unit}

/-- The values still to be read that are in registers have one each, of the two where values rest
between instructions. -/
structure State.Orderly (s : State) : Prop where
  apart : ∀ {a b r}, a ∈ s.pending → b ∈ s.pending →
    s.place? a = some (.reg r) → s.place? b = some (.reg r) → a = b
  resting : ∀ {a r}, a ∈ s.pending → s.place? a = some (.reg r) → r = .r0 ∨ r = .r2

/-- Reads that are done and places that are left alone disturb nothing. -/
theorem State.Orderly.of_le (hs : s.Orderly) (hpending : ∀ id ∈ s'.pending, id ∈ s.pending)
    (hplace : ∀ id, s'.place? id = s.place? id) : s'.Orderly where
  apart ha hb hra hrb := by
    rw [hplace] at hra hrb
    exact hs.apart (hpending _ ha) (hpending _ hb) hra hrb
  resting ha hr := by
    rw [hplace] at hr
    exact hs.resting (hpending _ ha) hr

/-- Where nothing that is still to be read is in a register, there is nothing to keep apart. -/
theorem State.orderly_of_free (hs : WellPlaced cx s) (hfree : ∀ r ∈ Register.arguments, s.Free r) :
    s.Orderly := by
  have hnone : ∀ {a r}, a ∈ s.pending → s.place? a ≠ some (.reg r) :=
    fun ha hr => hfree _ (hs _ _ hr) _ ha hr
  exact ⟨fun ha _ hra _ => (hnone ha hra).elim, fun ha hr => (hnone ha hr).elim⟩

section Orderly

variable (hs : s.Orderly)
include hs

theorem State.Orderly.spent (v : Value) : (s.spent v).Orderly :=
  hs.of_le (fun _ h => State.mem_of_mem_spent h) fun _ => State.spent_place? ..

theorem State.Orderly.issued (i : Instr) : (s.issued i).Orderly :=
  hs.of_le (fun _ h => h) fun _ => rfl

theorem State.Orderly.extended (c : List Instr) : (s.extended c).Orderly :=
  hs.of_le (fun _ h => h) fun _ => rfl

/-- A value can be put into a free register where values rest. -/
theorem State.Orderly.settled_reg (v : Value) (hfree : s.Free dst) (hdst : dst = .r0 ∨ dst = .r2) :
    (s.settled v (.reg dst)).Orderly := by
  cases v with
  | const | var => exact hs
  | temp t =>
    -- A value that is now in the register is the one that was put there.
    have hcases : ∀ {a r}, a ∈ s.pending →
        (s.settled (.temp t) (.reg dst)).place? a = some (.reg r) →
        a = t.id ∧ r = dst ∨ r ≠ dst ∧ s.place? a = some (.reg r) := by
      intro a r ha h
      rw [State.settled_place?] at h
      split at h
      next heq =>
        cases h
        exact .inl ⟨heq, rfl⟩
      next =>
        refine .inr ⟨?_, h⟩
        rintro rfl
        exact hfree a ha h
    refine ⟨?_, ?_⟩
    · intro a b r ha hb hra hrb
      rw [State.settled_pending] at ha hb
      rcases hcases ha hra with ⟨rfl, hr⟩ | ⟨hr, hra⟩
      · rcases hcases hb hrb with ⟨rfl, -⟩ | ⟨hne, -⟩
        · rfl
        · exact (hne hr).elim
      · rcases hcases hb hrb with ⟨-, heq⟩ | ⟨-, hrb⟩
        · exact (hr heq).elim
        · exact hs.apart ha hb hra hrb
    · intro a r ha h
      rw [State.settled_pending] at ha
      rcases hcases ha h with ⟨-, rfl⟩ | ⟨-, h⟩
      · exact hdst
      · exact hs.resting ha h

theorem State.Orderly.settled_slot (t : Temporary) (o : Int) :
    (s.settled (.temp t) (.slot o)).Orderly := by
  have hplace : ∀ {a r}, (s.settled (.temp t) (.slot o)).place? a = some (.reg r) →
      s.place? a = some (.reg r) := by
    intro a r h
    rw [State.settled_place?] at h
    split at h
    · cases h
    · exact h
  exact ⟨fun ha hb hra hrb => hs.apart ha hb (hplace hra) (hplace hrb),
    fun ha h => hs.resting ha (hplace h)⟩

theorem State.Orderly.moved (v : Value) (p : Place) (hfree : s.Free dst)
    (hdst : dst = .r0 ∨ dst = .r2) : (s.moved v p dst).Orderly := by
  cases p with
  | reg r => exact (hs.issued _).settled_reg v hfree hdst
  | imm | slot => exact hs.issued _

theorem State.Orderly.fetch (h : fetch cx v .r0 s = .ok u s') : s'.Orderly := by
  obtain ⟨p, -, ⟨-, rfl⟩ | ⟨-, hfree, rfl⟩⟩ := fetch_eq_ok.1 h
  · exact hs.spent v
  · exact (hs.spent v).moved v p hfree (.inl rfl)

theorem State.Orderly.stepAside (h : stepAside v p s = .ok q s') : s'.Orderly := by
  obtain ⟨-, hfree, -, rfl⟩ | ⟨-, -, rfl⟩ := stepAside_eq_ok.1 h
  · exact hs.moved v p hfree (.inr rfl)
  · exact hs

theorem State.Orderly.fetchOperands {op : Opcode} {lhs rhs : Value} {x : Register × Operand}
    (h : fetchOperands cx op lhs rhs p s = .ok x s') : s'.Orderly := by
  obtain ⟨s₁, hl, ⟨r, -, rfl, -⟩ | ⟨n, -, -, rfl, -⟩ | ⟨-, -, hr, -⟩⟩ := fetchOperands_eq_ok.1 h
  · exact (hs.fetch hl).spent rhs
  · exact hs.fetch hl
  · exact ((hs.fetch hl).issued _).fetch hr

theorem State.Orderly.codeOfBinary {op : BinOp} {t : Temporary} {lhs rhs : Value}
    (h : codeOfBinary cx op t lhs rhs s = .ok u s') : s'.Orderly := by
  obtain ⟨op, p, q, s₁, x, s₂, -, -, hq, hx, hfree, rfl⟩ := codeOfBinary_eq_ok.1 h
  exact (((hs.stepAside hq).fetchOperands hx).issued _).settled_reg _ hfree (.inl rfl)

end Orderly

/-- Arguments may pass through any register, but a call leaves nothing there that is still to be
read, so its result is alone. -/
theorem State.orderly_of_codeOfCall {result : Option Temporary} {callee : String}
    {args : List Value} (hs : WellPlaced cx s) (h : codeOfCall cx result callee args s = .ok u s') :
    s'.Orderly := by
  obtain ⟨places, s₁, s₂, -, -, -, h₁, h₂, hfree, rfl⟩ := codeOfCall_eq_ok.1 h
  have hargs : ∀ m ∈ Context.moves args places, m.2 ∈ Register.arguments :=
    fun m hm => (List.of_mem_zip hm).2
  have hplaced : WellPlaced cx s₂ := (hs.fetchArgs hargs h₁).fetchArgs hargs h₂
  have horderly := (State.orderly_of_free hplaced hfree).issued
    (.call (cx.target.callee callee) (Register.arguments.take args.length))
  cases result with
  | none => exact horderly
  | some t => exact horderly.settled_reg (.temp t) (hfree .r0 (by decide)) (.inl rfl)

theorem State.Orderly.codeOfOp {o : Op} (hs : s.Orderly) (hplaced : WellPlaced cx s)
    (h : codeOfOp cx o s = .ok u s') : s'.Orderly := by
  match o with
  | .alloc _ =>
    obtain ⟨-, rfl⟩ := pure_eq_ok.1 h
    exact hs
  | .store (.var x) v =>
    obtain ⟨o, s₁, -, hf, -, rfl⟩ := store_eq_ok.1 h
    exact (hs.fetch hf).issued _
  | .store (.const _) _ | .store (.temp _) _ => exact (throw_eq_ok.1 h).elim
  | .load t (.var x) =>
    obtain ⟨o, -, rfl⟩ := load_eq_ok.1 h
    exact hs.settled_slot t o
  | .load _ (.const _) | .load _ (.temp _) => exact (throw_eq_ok.1 h).elim
  | .binary op t lhs rhs => exact hs.codeOfBinary h
  | .call t f args => exact State.orderly_of_codeOfCall hplaced h

theorem State.Orderly.codeOf {i : Instruction} (hs : s.Orderly) (hplaced : WellPlaced cx s)
    (h : codeOf cx i s = .ok u s') : s'.Orderly := by
  match i with
  | .op o => exact hs.codeOfOp hplaced h
  | .ret (some v) =>
    obtain ⟨s₁, hf, -, rfl⟩ := codeOfReturn_some_eq_ok.1 h
    exact (hs.fetch hf).extended _
  | .ret none =>
    obtain ⟨-, -, rfl⟩ := codeOfReturn_none_eq_ok.1 h
    exact hs.extended _

/-- An instruction counts the reads of its own operands as done, and no others. -/
theorem codeOf_perm {i : Instruction} {rest : List Nat} (hs : WellPlaced cx s)
    (h : codeOf cx i s = .ok u s') (hp : s.pending.Perm (ids i.operands ++ rest)) :
    s'.pending.Perm rest := by
  match i with
  | .op o => exact codeOfOp_perm hs h hp
  | .ret (some v) =>
    obtain ⟨s₁, hf, -, rfl⟩ := codeOfReturn_some_eq_ok.1 h
    rw [State.extended_pending]
    exact fetch_perm hf hp
  | .ret none =>
    obtain ⟨-, -, rfl⟩ := codeOfReturn_none_eq_ok.1 h
    exact hp

/-- The state in which selection is after the prologue and the instructions `done`. -/
inductive Underway (cx : Context) : List (Located Instruction) → State → Prop
  | entered {s : State} (h : prologue cx { pending := reads cx.function } = .ok () s) :
      Underway cx [] s
  | selected {done : List (Located Instruction)} {i : Located Instruction} {s s' : State}
      (hs : Underway cx done s) (h : codeOf cx i.val s = .ok () s') : Underway cx (done ++ [i]) s'

namespace Underway

variable {done rest : List (Located Instruction)}

theorem wellPlaced (h : Underway cx done s) : WellPlaced cx s := by
  induction h with
  | entered h => exact wellPlaced_of_prologue h
  | selected _ h ih => exact ih.codeOf h

theorem orderly (h : Underway cx done s) : s.Orderly := by
  induction h with
  | entered h =>
    obtain ⟨-, -, -, -, c, -, rfl⟩ := prologue_eq_ok.1 h
    exact ⟨fun _ _ hra => (nomatch hra), fun _ hr => (nomatch hr)⟩
  | selected hs h ih => exact ih.codeOf hs.wellPlaced h

theorem perm (h : Underway cx done s) (hf : cx.function.instructions = done ++ rest) :
    s.pending.Perm (readsOf rest) := by
  induction h generalizing rest with
  | entered h =>
    obtain ⟨-, -, -, -, c, -, rfl⟩ := prologue_eq_ok.1 h
    have hreads : reads cx.function = readsOf rest := by
      rw [show rest = cx.function.instructions from hf.symm]
      rfl
    exact List.Perm.of_eq hreads
  | @selected done i s s' hs h ih =>
    have hsplit : cx.function.instructions = done ++ i :: rest := by simpa using hf
    have hbefore := ih hsplit
    rw [readsOf, List.flatMap_cons] at hbefore
    exact codeOf_perm hs.wellPlaced h hbefore

/-- Selection goes on from there with the instructions that are left. -/
theorem codeOfFunc_eq (h : Underway cx done s) (hf : cx.function.instructions = done ++ rest) :
    codeOfFunc cx.target cx.function = codeOfAll cx rest s := by
  induction h generalizing rest with
  | entered h =>
    obtain rfl : cx.function.instructions = rest := hf
    simp only [codeOfFunc, h, proceed]
  | @selected done i s s' hs h ih =>
    have hsplit : cx.function.instructions = done ++ i :: rest := by simpa using hf
    rw [ih hsplit, codeOfAll, h]
    rfl

end Underway

/-- Selection keeps its records straight. Wherever it is in a function, the reads it counts as still
to come are those of the instructions to come; of the temporaries to be read no two are in one
register, and none is in a register where values do not rest. -/
theorem registers_accounted {t : Target} {f : Func} {done rest : List (Located Instruction)}
    (hf : f.instructions = done ++ rest) (h : Underway ⟨t, f⟩ done s) :
    codeOfFunc t f = codeOfAll ⟨t, f⟩ rest s ∧
      (∀ id, s.pending.count id = (readsOf rest).count id) ∧
      (∀ a ∈ s.pending, ∀ b ∈ s.pending, ∀ r,
        s.place? a = some (.reg r) → s.place? b = some (.reg r) → a = b) ∧
      ∀ a ∈ s.pending, ∀ r, s.place? a = some (.reg r) → r = .r0 ∨ r = .r2 :=
  ⟨h.codeOfFunc_eq hf, fun id => (h.perm hf).count_eq id,
    fun _ ha _ hb _ hra hrb => h.orderly.apart ha hb hra hrb,
    fun _ ha _ hr => h.orderly.resting ha hr⟩

/-- A right operand that is read again: it rests aside while the difference is in use. -/
def restingOperand : Func where
  name := "f"
  params := [⟨"a", .int⟩]
  result := .int
  span := .nowhere
  blocks := [{
    name := Block.entryName
    body := [.call (some ⟨0, .int⟩) "g" [],
      .binary .subtract ⟨1, .int⟩ (.var ⟨"a", .int⟩) (.temp ⟨0, .int⟩),
      .store (.var ⟨"a", .int⟩) (.temp ⟨1, .int⟩),
      .binary .multiply ⟨2, .int⟩ (.temp ⟨0, .int⟩) (.temp ⟨0, .int⟩)].map (⟨·, .nowhere⟩)
    terminator := some ⟨some (.temp ⟨2, .int⟩), .nowhere⟩ }]

theorem registers_accounted_resting :
    ∃ s, Underway ⟨.darwin, restingOperand⟩ (restingOperand.instructions.take 2) s ∧
      s.place? 0 = some (.reg .r2) ∧ s.place? 1 = some (.reg .r0) ∧ s.pending.count 0 = 2 ∧
      s.pending.count 1 = 1 ∧
      ∀ a ∈ s.pending, ∀ b ∈ s.pending, ∀ r,
        s.place? a = some (.reg r) → s.place? b = some (.reg r) → a = b := by
  have hstate : Underway ⟨.darwin, restingOperand⟩ (restingOperand.instructions.take 2) _ :=
    .selected (.selected (.entered rfl) rfl) rfl
  obtain ⟨-, hcount, hapart, -⟩ := registers_accounted (t := .darwin)
    (List.take_append_drop 2 restingOperand.instructions).symm hstate
  exact ⟨_, hstate, rfl, rfl, hcount 0, hcount 1, hapart⟩

end Straightline.Selection
