import Straightline.Proofs.Selection.Steps

/-! The code around a function's own: what it emits on entry and before it returns. -/
namespace Straightline.Selection

open IR
open Machine (Instr Opcode Operand Register)

variable {cx : Context} {s s' : State} {u : Unit}

/-- Only the entry point is known outside. -/
def Context.exported (cx : Context) : List Instr :=
  if cx.isEntry then [.global cx.function.name] else []

/-- The code that sets up the frame. -/
def Context.enter (cx : Context) : List Instr :=
  [.label cx.function.name, .remark "Function prologue", .storePair .fp .lr .sp (-16),
    .move .fp .sp] ++
    if 0 < cx.frame.size then [.arith .subtract .sp .sp (.imm (Int64.ofNat cx.frame.size))] else []

/-- The code that takes the frame down and returns. -/
def Context.leave (cx : Context) : List Instr :=
  [.remark "Function epilogue"] ++
    (if 0 < cx.frame.size then [.move .sp .fp] else []) ++ [.loadPair .fp .lr .sp 16, .ret]

/-- The same without the return. -/
def Context.takeDown (cx : Context) : List Instr :=
  [.remark "Function epilogue"] ++ (if 0 < cx.frame.size then [.move .sp .fp] else []) ++
    [.loadPair .fp .lr .sp 16]

theorem Context.leave_eq (cx : Context) : cx.leave = cx.takeDown ++ [.ret] := by
  simp [leave, takeDown]

/-- The instruction stores an incoming parameter in its slot. -/
def StoresParam (cx : Context) (p : Variable × Register) (i : Instr) : Prop :=
  p.1.ty = .int ∧ ∃ o, cx.frame.offset? p.1.name = some o ∧ i = .store p.2 .fp o

theorem storeParams_eq_ok {ps : List (Variable × Register)} :
    storeParams cx ps s = .ok u s' ↔
      ∃ c, List.Forall₂ (StoresParam cx) ps c ∧ s' = s.extended c := by
  induction ps generalizing s with
  | nil => simp [storeParams, pure_eq_ok, State.extended, eq_comm]
  | cons p rest ih =>
    simp only [storeParams, bind_eq_ok, demandInt_eq_ok, offsetOf_eq_ok, ih]
    constructor
    · rintro ⟨_, _, ⟨hty, rfl⟩, o, _, ⟨ho, rfl⟩, _, _, hi, c, hc, rfl⟩
      obtain ⟨-, rfl⟩ := issue_eq_ok.1 hi
      refine ⟨.store p.2 .fp o :: c, .cons ⟨hty, o, ho, rfl⟩ hc, ?_⟩
      rw [State.issued_eq_extended, State.extended_extended]
      rfl
    · rintro ⟨c, hc, rfl⟩
      cases hc with
      | @cons _ i _ c hi hc =>
        obtain ⟨hty, o, ho, rfl⟩ := hi
        refine ⟨(), s, ⟨hty, rfl⟩, o, s, ⟨ho, rfl⟩, (), _,
          issue_eq_ok.2 ⟨by rintro _ ⟨⟩, rfl⟩, c, hc, ?_⟩
        rw [State.issued_eq_extended, State.extended_extended]
        rfl

variable {c : Prop} [Decidable c] {i : Instr} {k : Select Unit}

theorem issue_when_eq_ok : (if c then (do issue i; k) else k) s = .ok u s' ↔
    (c → ∀ r ∈ i.writes, s.Free r) ∧ k (s.extended (if c then [i] else [])) = .ok u s' := by
  by_cases hc : c
  · simp only [hc, if_true, seq_eq_ok, issue_eq_ok, forall_const]
    constructor
    · rintro ⟨_, ⟨hf, rfl⟩, h⟩
      exact ⟨hf, h⟩
    · rintro ⟨hf, h⟩
      exact ⟨_, ⟨hf, rfl⟩, h⟩
  · simp [hc, State.extended]

theorem reject_when_eq_ok {l : Limit} :
    (if c then (do reject l; k) else k) s = .ok u s' ↔ ¬ c ∧ k s = .ok u s' := by
  by_cases hc : c
  · simp [hc, bind_eq_ok, reject, throw_eq_ok]
  · simp [hc]

theorem issue_seq_eq_ok :
    (do issue i; k) s = .ok u s' ↔ (∀ r ∈ i.writes, s.Free r) ∧ k (s.extended [i]) = .ok u s' := by
  simpa using issue_when_eq_ok (c := True)

theorem prologue_eq_ok : prologue cx s = .ok u s' ↔ s.Free .fp ∧ (0 < cx.frame.size → s.Free .sp) ∧
    cx.frame.size ≤ Frame.maxSize ∧ cx.function.params.length ≤ cx.maxArgs ∧
    ∃ c, List.Forall₂ (StoresParam cx) (cx.function.params.zip Register.arguments) c ∧
      s' = s.extended (cx.exported ++ cx.enter ++ c) := by
  unfold prologue
  simp only [issue_when_eq_ok, reject_when_eq_ok, issue_seq_eq_ok, storeParams_eq_ok,
    State.extended_extended, State.extended_free, Nat.not_lt]
  simp only [Instr.writes, Instr.label, Instr.global, Instr.remark, Instr.storePair, Instr.move,
    Instr.arith, List.not_mem_nil, List.mem_singleton, forall_eq, false_imp_iff, implies_true,
    true_and, and_left_comm, Context.exported, Context.enter, List.append_assoc, List.cons_append,
    List.nil_append]

theorem epilogue_eq_ok : epilogue cx s = .ok u s' ↔
    (0 < cx.frame.size → s.Free .sp) ∧ s' = s.extended cx.leave := by
  unfold epilogue
  simp only [issue_when_eq_ok, issue_seq_eq_ok, issue_eq_ok, State.issued_eq_extended,
    State.extended_extended, State.extended_free]
  simp only [Instr.writes, Instr.loadPair, Instr.ret, Instr.remark, Instr.move, List.not_mem_nil,
    List.mem_singleton, forall_eq, false_imp_iff, implies_true, true_and, Context.leave,
    List.append_assoc, List.cons_append, List.nil_append]

theorem codeOfReturn_some_eq_ok {v : Value} : codeOfReturn cx (some v) s = .ok u s' ↔
    ∃ s₁, fetch cx v .r0 s = .ok () s₁ ∧ (0 < cx.frame.size → s₁.Free .sp) ∧
      s' = s₁.extended cx.leave := by
  simp only [codeOfReturn, seq_eq_ok, epilogue_eq_ok]
  exact Iff.rfl

theorem codeOfReturn_none_eq_ok : codeOfReturn cx none s = .ok u s' ↔
    (cx.isEntry = true → s.Free .r0) ∧ (0 < cx.frame.size → s.Free .sp) ∧
      s' = s.extended ((if cx.isEntry = true then [.moveImm .r0 0] else []) ++ cx.leave) := by
  simp only [codeOfReturn, issue_when_eq_ok, epilogue_eq_ok, State.extended_extended,
    State.extended_free, Instr.writes, Instr.moveImm, List.mem_singleton, forall_eq, Register.result]

end Straightline.Selection
