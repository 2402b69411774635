import Straightline.Proofs.Results
import Straightline.Selection.Select

/-! What each selection step requires of the state and makes of it, said without the monad. -/
namespace Straightline.Selection

open IR
open Machine (Instr Opcode Operand Register)

/-- The instruction that reads a place into a register. -/
def Place.into (dst : Register) : Place → Instr
  | .imm n => .moveImm dst n
  | .slot offset => .load dst .fp offset
  | .reg r => .move dst r

theorem Place.writes_into (dst : Register) (p : Place) : (p.into dst).writes = [dst] := by
  cases p <;> rfl

namespace State

/-- The state after an instruction was appended. -/
def issued (s : State) (i : Instr) : State := { s with code := s.code ++ [i] }

/-- The state after several instructions were appended. -/
def extended (s : State) (c : List Instr) : State := { s with code := s.code ++ c }

/-- The state after one read of a value. -/
def spent (s : State) : Value → State
  | .temp t => { s with pending := s.pending.erase t.id }
  | _ => s

/-- The state after a value was put somewhere. -/
def settled (s : State) (v : Value) (p : Place) : State :=
  match v with
  | .temp t => { s with places := (t.id, p) :: s.places }
  | _ => s

/-- The state after a value was read from a place into a register that it was not in. -/
def moved (s : State) (v : Value) (p : Place) (dst : Register) : State :=
  match p with
  | .reg r => (s.issued (.move dst r)).settled v (.reg dst)
  | p => s.issued (p.into dst)

/-- The state after a call whose result goes to `result`. -/
def answered (s : State) : Option Temporary → State
  | some t => s.settled (.temp t) (.reg Register.result)
  | none => s

/-- No read is to come of anything in the register. -/
def Free (s : State) (r : Register) : Prop := ∀ id ∈ s.pending, s.place? id ≠ some (.reg r)

variable (s : State) (v : Value) (p : Place) (i : Instr) (id : Nat) (dst : Register)

@[simp] theorem issued_pending : (s.issued i).pending = s.pending := rfl
@[simp] theorem issued_place? : (s.issued i).place? id = s.place? id := rfl
@[simp] theorem issued_code : (s.issued i).code = s.code ++ [i] := rfl

@[simp] theorem extended_pending (c : List Instr) : (s.extended c).pending = s.pending := rfl
@[simp] theorem extended_code (c : List Instr) : (s.extended c).code = s.code ++ c := rfl

theorem issued_eq_extended : s.issued i = s.extended [i] := rfl

theorem extended_extended (c d : List Instr) : (s.extended c).extended d = s.extended (c ++ d) := by
  simp [extended, List.append_assoc]

@[simp] theorem extended_free {r : Register} (c : List Instr) : (s.extended c).Free r ↔ s.Free r :=
  Iff.rfl

@[simp] theorem settled_pending : (s.settled v p).pending = s.pending := by
  cases v <;> rfl

@[simp] theorem settled_code : (s.settled v p).code = s.code := by
  cases v <;> rfl

@[simp] theorem moved_pending : (s.moved v p dst).pending = s.pending := by
  cases p <;> simp [moved]

@[simp] theorem answered_code (t : Option Temporary) : (s.answered t).code = s.code := by
  cases t <;> simp [answered]

@[simp] theorem answered_pending (t : Option Temporary) : (s.answered t).pending = s.pending := by
  cases t <;> simp [answered]

@[simp] theorem spent_place? : (s.spent v).place? id = s.place? id := by
  cases v <;> rfl

@[simp] theorem spent_code : (s.spent v).code = s.code := by
  cases v <;> rfl

theorem settled_place? (t : Temporary) :
    (s.settled (.temp t) p).place? id = if id = t.id then some p else s.place? id := by
  simp only [settled, place?, List.lookup_cons]
  by_cases h : id = t.id
  · simp [h]
  · rw [beq_false_of_ne h, if_neg h]

variable {s v p i id}

theorem mem_of_mem_spent (h : id ∈ (s.spent v).pending) : id ∈ s.pending := by
  cases v with
  | temp t => exact List.mem_of_mem_erase h
  | const | var => exact h

theorem permits_iff : s.permits i = true ↔ ∀ r ∈ i.writes, s.Free r := by
  simp [permits, isAwaited, Free]

theorem isAwaited_eq_false_iff : s.isAwaited p = false ↔ ∀ id ∈ s.pending, s.place? id ≠ some p := by
  simp [isAwaited]

end State

/-- Where a value can be read; none for what has no machine representation. -/
def Context.locate (cx : Context) (s : State) : Value → Option Place
  | .const (.int n) => some (.imm n)
  | .const _ => none
  | .var v => if v.ty = .int then (cx.frame.offset? v.name).map .slot else none
  | .temp t => if t.ty = .int then s.place? t.id else none

variable {cx : Context} {s s' : State} {v : Value} {p : Place} {dst r : Register}

variable {u : Unit}

theorem spend_eq_ok : spend v s = .ok u s' ↔ s' = s.spent v := by
  cases v with
  | temp t => exact modify_eq_ok.trans eq_comm
  | const | var => simp [spend, pure_eq_ok, State.spent, eq_comm]

theorem settle_eq_ok : settle v p s = .ok u s' ↔ s' = s.settled v p := by
  cases v with
  | temp t => exact modify_eq_ok.trans eq_comm
  | const | var => simp [settle, pure_eq_ok, State.settled, eq_comm]

theorem issue_eq_ok {i : Instr} :
    issue i s = .ok u s' ↔ (∀ r ∈ i.writes, s.Free r) ∧ s' = s.issued i :=
  issue_eq_ok_iff.trans (and_congr_left' State.permits_iff)

theorem demandInt_eq_ok {subject : Subject} {ty : Ty} :
    demandInt subject ty s = .ok u s' ↔ ty = .int ∧ s' = s := by
  unfold demandInt
  split
  next h => simp [h, pure_eq_ok, eq_comm]
  next h => simp [h, reject, throw_eq_ok]

theorem offsetOf_eq_ok {name : String} {o : Int} :
    offsetOf cx name s = .ok o s' ↔ cx.frame.offset? name = some o ∧ s' = s := by
  unfold offsetOf
  cases cx.frame.offset? name with
  | some o' => simp [pure_eq_ok, eq_comm (a := s)]
  | none => simp [fault, throw_eq_ok]

theorem find_eq_ok : find cx v s = .ok p s' ↔ cx.locate s v = some p ∧ s' = s := by
  match v with
  | .const (.int n) => simp [find, Context.locate, pure_eq_ok, eq_comm (a := s)]
  | .const (.float _) | .const (.string _) | .const (.bool _) =>
    simp [find, Context.locate, reject, throw_eq_ok]
  | .var x =>
    simp only [find, Context.locate, bind_eq_ok, map_eq_ok, demandInt_eq_ok, offsetOf_eq_ok]
    by_cases hty : x.ty = .int
    · simp only [hty, if_true, Option.map_eq_some_iff]
      constructor
      · rintro ⟨-, t, ⟨-, rfl⟩, o, ⟨ho, rfl⟩, rfl⟩
        exact ⟨⟨o, ho, rfl⟩, rfl⟩
      · rintro ⟨⟨o, ho, rfl⟩, rfl⟩
        exact ⟨(), s', ⟨trivial, rfl⟩, o, ⟨ho, rfl⟩, rfl⟩
    · simp [hty]
  | .temp t =>
    simp only [find, Context.locate, bind_eq_ok, demandInt_eq_ok, get_eq_ok]
    by_cases hty : t.ty = .int
    · simp only [hty, if_true]
      constructor
      · rintro ⟨-, u, ⟨-, rfl⟩, _, _, ⟨rfl, rfl⟩, h⟩
        cases hq : u.place? t.id with
        | none =>
          simp only [hq] at h
          exact (throw_eq_ok.1 h).elim
        | some q =>
          simp only [hq] at h
          obtain ⟨rfl, rfl⟩ := pure_eq_ok.1 h
          exact ⟨rfl, rfl⟩
      · rintro ⟨hp, rfl⟩
        refine ⟨(), s', ⟨trivial, rfl⟩, s', s', ⟨rfl, rfl⟩, ?_⟩
        rw [hp]
        rfl
    · simp [hty]

theorem issue_into_eq_ok :
    issue (p.into dst) s = .ok u s' ↔ s.Free dst ∧ s' = s.issued (p.into dst) := by
  simp [issue_eq_ok, Place.writes_into]

theorem fetch_eq_ok : fetch cx v dst s = .ok u s' ↔ ∃ p, cx.locate s v = some p ∧
    (p = .reg dst ∧ s' = s.spent v ∨
      p ≠ .reg dst ∧ (s.spent v).Free dst ∧ s' = (s.spent v).moved v p dst) := by
  simp only [fetch, bind_eq_ok, find_eq_ok, spend_eq_ok]
  constructor
  · rintro ⟨p, _, ⟨hp, rfl⟩, _, _, rfl, h⟩
    refine ⟨p, hp, ?_⟩
    cases p with
    | imm n => exact .inr ⟨by simp, issue_into_eq_ok.1 h⟩
    | slot o => exact .inr ⟨by simp, issue_into_eq_ok.1 h⟩
    | reg r =>
      by_cases hr : r = dst
      · simp only [hr, if_true] at h
        exact .inl ⟨by rw [hr], (pure_eq_ok.1 h).2.symm⟩
      · simp only [hr, if_false, bind_eq_ok, settle_eq_ok] at h
        obtain ⟨_, _, h, rfl⟩ := h
        obtain ⟨hf, rfl⟩ := issue_into_eq_ok (p := .reg r).1 h
        exact .inr ⟨by simpa using hr, hf, rfl⟩
  · rintro ⟨p, hp, h⟩
    refine ⟨p, s, ⟨hp, rfl⟩, (), s.spent v, rfl, ?_⟩
    obtain ⟨rfl, rfl⟩ | ⟨hne, hf, rfl⟩ := h
    · simp [pure_eq_ok]
    · cases p with
      | imm n => exact issue_into_eq_ok (p := .imm n).2 ⟨hf, rfl⟩
      | slot o => exact issue_into_eq_ok (p := .slot o).2 ⟨hf, rfl⟩
      | reg r =>
        have hr : r ≠ dst := by simpa using hne
        simp only [hr, if_false, bind_eq_ok, settle_eq_ok]
        exact ⟨(), _, issue_into_eq_ok (p := .reg r).2 ⟨hf, rfl⟩, rfl⟩

theorem stepAside_eq_ok {q : Place} : stepAside v p s = .ok q s' ↔
    (p = .reg .r0 ∧ s.Free .r2 ∧ q = .reg .r2 ∧ s' = s.moved v p .r2) ∨
    (p ≠ .reg .r0 ∧ q = p ∧ s' = s) := by
  unfold stepAside
  by_cases h : p = .reg .r0
  · simp only [h, if_true, bind_eq_ok, settle_eq_ok, pure_eq_ok]
    constructor
    · rintro ⟨_, _, hi, _, _, rfl, rfl, rfl⟩
      obtain ⟨hf, rfl⟩ := issue_into_eq_ok (p := .reg .r0).1 hi
      exact .inl ⟨trivial, hf, rfl, rfl⟩
    · rintro (⟨-, hf, rfl, rfl⟩ | ⟨h, -⟩)
      · exact ⟨(), _, issue_into_eq_ok (p := .reg .r0).2 ⟨hf, rfl⟩, (), _, rfl, rfl, rfl⟩
      · exact (h rfl).elim
  · simp [h, pure_eq_ok, eq_comm (a := p), eq_comm (a := s)]

/-- The right operand has to come through the result register. -/
def Place.Detours (op : Opcode) : Place → Prop
  | .imm n => isDirect op n = false
  | .slot _ => True
  | .reg _ => False

theorem detour_eq_ok {rhs : Value} {x : Register × Operand} :
    (do issue (.move .r1 .r0); fetch cx rhs .r0; return (.r1, .reg .r0) : Select _) s = .ok x s' ↔
      s.Free .r1 ∧ fetch cx rhs .r0 (s.issued (.move .r1 .r0)) = .ok () s' ∧
        x = (.r1, .reg .r0) := by
  simp only [bind_eq_ok, pure_eq_ok]
  constructor
  · rintro ⟨_, _, hi, _, _, hf, rfl, rfl⟩
    obtain ⟨hfree, rfl⟩ := issue_into_eq_ok (p := .reg .r0).1 hi
    exact ⟨hfree, hf, rfl⟩
  · rintro ⟨hfree, hf, rfl⟩
    exact ⟨(), _, issue_into_eq_ok (p := .reg .r0).2 ⟨hfree, rfl⟩, (), _, hf, rfl, rfl⟩

theorem fetchOperands_eq_ok {op : Opcode} {lhs rhs : Value} {x : Register × Operand} :
    fetchOperands cx op lhs rhs p s = .ok x s' ↔ ∃ s₁, fetch cx lhs .r0 s = .ok () s₁ ∧
      ((∃ r, p = .reg r ∧ s' = s₁.spent rhs ∧ x = (.r0, .reg r)) ∨
        (∃ n, p = .imm n ∧ isDirect op n = true ∧ s' = s₁ ∧ x = (.r0, .imm n)) ∨
        (p.Detours op ∧ s₁.Free .r1 ∧
          fetch cx rhs .r0 (s₁.issued (.move .r1 .r0)) = .ok () s' ∧ x = (.r1, .reg .r0))) := by
  unfold fetchOperands
  rw [seq_eq_ok]
  refine exists_congr fun s₁ => and_congr_right fun _ => ?_
  cases p with
  | reg r =>
    simp only [seq_eq_ok, spend_eq_ok, pure_eq_ok, Place.Detours]
    constructor
    · rintro ⟨_, rfl, rfl, rfl⟩
      exact .inl ⟨r, rfl, rfl, rfl⟩
    · rintro (⟨_, h, rfl, rfl⟩ | ⟨_, h, -⟩ | ⟨h, -⟩) <;> cases h
      exact ⟨_, rfl, rfl, rfl⟩
  | imm n =>
    cases hd : isDirect op n with
    | true =>
      simp only [if_true, pure_eq_ok, Place.Detours, hd]
      constructor
      · rintro ⟨rfl, rfl⟩
        exact .inr (.inl ⟨n, rfl, hd, rfl, rfl⟩)
      · rintro (⟨_, h, -⟩ | ⟨_, h, -, rfl, rfl⟩ | ⟨h, -⟩) <;> cases h
        exact ⟨rfl, rfl⟩
    | false =>
      simp only [if_false, detour_eq_ok, Place.Detours, hd, Bool.false_eq_true]
      constructor
      · rintro ⟨hf, h, rfl⟩
        exact .inr (.inr ⟨trivial, hf, h, rfl⟩)
      · rintro (⟨_, h, -⟩ | ⟨m, h, hm, -⟩ | ⟨-, h⟩)
        · cases h
        · cases h
          simp [hd] at hm
        · exact h
  | slot o =>
    simp only [detour_eq_ok, Place.Detours, true_and]
    constructor
    · exact fun h => .inr (.inr h)
    · rintro (⟨_, h, -⟩ | ⟨_, h, -⟩ | h)
      · cases h
      · cases h
      · exact h

theorem writes_arith {b : BinOp} {op : Opcode} (h : opcode? b = some op) (dst lhs : Register)
    (src : Operand) : (Instr.arith op dst lhs src).writes = [dst] := by
  cases b <;> cases h <;> rfl

theorem codeOfBinary_eq_ok {b : BinOp} {t : Temporary} {lhs rhs : Value} :
    codeOfBinary cx b t lhs rhs s = .ok u s' ↔ ∃ op p q s₁ x s₂, opcode? b = some op ∧
      cx.locate s rhs = some p ∧ stepAside rhs p s = .ok q s₁ ∧
      fetchOperands cx op lhs rhs q s₁ = .ok x s₂ ∧ s₂.Free .r0 ∧
      s' = (s₂.issued (.arith op .r0 x.1 x.2)).settled (.temp t) (.reg .r0) := by
  unfold codeOfBinary
  cases hop : opcode? b with
  | none => simp [reject, throw_eq_ok]
  | some op =>
    simp only [bind_eq_ok, find_eq_ok, issue_eq_ok, settle_eq_ok, writes_arith hop,
      List.mem_singleton, forall_eq]
    constructor
    · rintro ⟨p, _, ⟨hp, rfl⟩, q, s₁, hq, x, s₂, hx, _, _, ⟨hf, rfl⟩, rfl⟩
      exact ⟨op, p, q, s₁, x, s₂, rfl, hp, hq, hx, hf, rfl⟩
    · rintro ⟨_, p, q, s₁, x, s₂, h, hp, hq, hx, hf, rfl⟩
      cases h
      exact ⟨p, s, ⟨hp, rfl⟩, q, s₁, hq, x, s₂, hx, (), _, ⟨hf, rfl⟩, rfl⟩

theorem mapM_find_eq_ok {args : List Value} {places : List Place} :
    args.mapM (find cx) s = .ok places s' ↔ args.mapM (cx.locate s) = some places ∧ s' = s := by
  induction args generalizing places with
  | nil => simp [pure_eq_ok, eq_comm (a := s)]
  | cons v rest ih =>
    simp only [List.mapM_cons, bind_eq_ok, find_eq_ok, pure_eq_ok, Option.bind_eq_bind,
      Option.bind_eq_some_iff, Option.pure_def, Option.some.injEq]
    constructor
    · rintro ⟨p, _, ⟨hp, rfl⟩, ps, _, hps, rfl, rfl⟩
      obtain ⟨hps, rfl⟩ := ih.1 hps
      exact ⟨⟨p, hp, ps, hps, rfl⟩, rfl⟩
    · rintro ⟨⟨p, hp, ps, hps, rfl⟩, rfl⟩
      exact ⟨p, s', ⟨hp, rfl⟩, ps, s', ih.2 ⟨hps, rfl⟩, rfl, rfl⟩

theorem fetchArgs_cons_eq_ok {which : Place → Bool} {rest : List ((Value × Place) × Register)} :
    fetchArgs cx which (((v, p), r) :: rest) s = .ok u s' ↔
      if which p then ∃ s₁, fetch cx v r s = .ok () s₁ ∧ fetchArgs cx which rest s₁ = .ok () s'
      else fetchArgs cx which rest s = .ok () s' := by
  rw [fetchArgs]
  split
  · exact seq_eq_ok
  · exact Iff.rfl

/-- What the arguments of a call are, where they are found, and where they have to go. -/
def Context.moves (args : List Value) (places : List Place) : List ((Value × Place) × Register) :=
  (args.zip places).zip Register.arguments

theorem codeOfCall_eq_ok {result : Option Temporary} {callee : String} {args : List Value} :
    codeOfCall cx result callee args s = .ok u s' ↔ ∃ places s₁ s₂,
      (∀ t ∈ result, t.ty = .int) ∧ args.length ≤ cx.maxArgs ∧
      args.mapM (cx.locate s) = some places ∧
      fetchArgs cx Place.isReg (Context.moves args places) s = .ok () s₁ ∧
      fetchArgs cx (!·.isReg) (Context.moves args places) s₁ = .ok () s₂ ∧
      (∀ r ∈ Register.arguments, s₂.Free r) ∧
      s' = (s₂.issued (.call (cx.target.callee callee)
        (Register.arguments.take args.length))).answered result := by
  unfold codeOfCall
  by_cases hlen : cx.maxArgs < args.length
  · have hlen' : ¬ args.length ≤ cx.maxArgs := Nat.not_le.2 hlen
    cases result <;> simp [hlen, hlen', bind_eq_ok, reject, throw_eq_ok]
  · have hlen' : args.length ≤ cx.maxArgs := Nat.not_lt.1 hlen
    cases result with
    | none =>
      simp only [hlen, if_false, bind_eq_ok, mapM_find_eq_ok, issue_eq_ok, pure_eq_ok]
      constructor
      · rintro ⟨places, _, ⟨hp, rfl⟩, _, s₁, h₁, _, s₂, h₂, _, _, ⟨hf, rfl⟩, -, rfl⟩
        exact ⟨places, s₁, s₂, by simp, hlen', hp, h₁, h₂, hf, rfl⟩
      · rintro ⟨places, s₁, s₂, -, -, hp, h₁, h₂, hf, rfl⟩
        exact ⟨places, s, ⟨hp, rfl⟩, (), s₁, h₁, (), s₂, h₂, (), _, ⟨hf, rfl⟩, trivial, rfl⟩
    | some t =>
      simp only [hlen, if_false, bind_eq_ok, demandInt_eq_ok, mapM_find_eq_ok, issue_eq_ok,
        settle_eq_ok]
      constructor
      · rintro ⟨_, _, ⟨hty, rfl⟩, places, _, ⟨hp, rfl⟩, _, s₁, h₁, _, s₂, h₂, _, _, ⟨hf, rfl⟩, rfl⟩
        exact ⟨places, s₁, s₂, by simpa using hty, hlen', hp, h₁, h₂, hf, rfl⟩
      · rintro ⟨places, s₁, s₂, hty, -, hp, h₁, h₂, hf, rfl⟩
        exact ⟨(), s, ⟨hty t rfl, rfl⟩, places, s, ⟨hp, rfl⟩, (), s₁, h₁, (), s₂, h₂, (), _,
          ⟨hf, rfl⟩, rfl⟩

theorem store_eq_ok {x : Variable} : codeOfOp cx (.store (.var x) v) s = .ok u s' ↔ ∃ o s₁,
    cx.frame.offset? x.name = some o ∧ fetch cx v .r0 s = .ok () s₁ ∧
    (∀ id ∈ s₁.pending, s₁.place? id ≠ some (.slot o)) ∧ s' = s₁.issued (.store .r0 .fp o) := by
  simp only [codeOfOp, bind_eq_ok, offsetOf_eq_ok, get_eq_ok]
  constructor
  · rintro ⟨o, _, ⟨ho, rfl⟩, _, s₁, hf, _, _, ⟨rfl, rfl⟩, h⟩
    refine ⟨o, s₁, ho, hf, ?_⟩
    cases hw : s₁.isAwaited (.slot o) with
    | true =>
      simp only [hw, if_true, fault, throw_eq_ok] at h
    | false =>
      simp only [hw, Bool.false_eq_true, if_false, issue_eq_ok] at h
      exact ⟨State.isAwaited_eq_false_iff.1 hw, h.2⟩
  · rintro ⟨o, s₁, ho, hf, hw, rfl⟩
    refine ⟨o, s, ⟨ho, rfl⟩, (), s₁, hf, s₁, s₁, ⟨rfl, rfl⟩, ?_⟩
    rw [State.isAwaited_eq_false_iff.2 hw]
    exact issue_eq_ok (i := .store .r0 .fp o).2 ⟨fun r hr => (nomatch hr), rfl⟩

theorem load_eq_ok {t : Temporary} {x : Variable} :
    codeOfOp cx (.load t (.var x)) s = .ok u s' ↔ ∃ o, cx.frame.offset? x.name = some o ∧
      s' = s.settled (.temp t) (.slot o) := by
  simp only [codeOfOp, bind_eq_ok, offsetOf_eq_ok, settle_eq_ok]
  constructor
  · rintro ⟨o, _, ⟨ho, rfl⟩, rfl⟩
    exact ⟨o, ho, rfl⟩
  · rintro ⟨o, ho, rfl⟩
    exact ⟨o, s, ⟨ho, rfl⟩, rfl⟩

end Straightline.Selection
