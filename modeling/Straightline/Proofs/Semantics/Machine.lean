import Mathlib.Algebra.Group.Nat.Defs
import Straightline.Machine.Instr
import Straightline.Proofs.Semantics.Code

/-!
What machine code does: registers of 64 bits, memory of bytes with wrapping addresses, and callees
that keep the calling convention. Operands that do not suit their opcode stop the machine.
-/
namespace Straightline.Machine

abbrev Word := BitVec 64

abbrev Memory := Word → BitVec 8

namespace Memory

/-- The word at an address, its lowest byte first. -/
def word (m : Memory) (a : Word) : Word :=
  let byte (k : Nat) := m (a + BitVec.ofNat 64 k)
  byte 7 ++ byte 6 ++ byte 5 ++ byte 4 ++ byte 3 ++ byte 2 ++ byte 1 ++ byte 0

def setWord (m : Memory) (a w : Word) : Memory := fun b =>
  if (b - a).toNat < 8 then w.extractLsb' (8 * (b - a).toNat) 8 else m b

theorem word_congr {m m' : Memory} {a : Word}
    (h : ∀ k < 8, m (a + BitVec.ofNat 64 k) = m' (a + BitVec.ofNat 64 k)) :
    m.word a = m'.word a := by
  simp only [word]
  rw [h 7 (by decide), h 6 (by decide), h 5 (by decide), h 4 (by decide), h 3 (by decide),
    h 2 (by decide), h 1 (by decide), h 0 (by decide)]

theorem word_eq_of_bytes {m : Memory} {a w : Word}
    (h : ∀ k < 8, m (a + BitVec.ofNat 64 k) = w.extractLsb' (8 * k) 8) : m.word a = w := by
  simp only [word]
  rw [h 7 (by decide), h 6 (by decide), h 5 (by decide), h 4 (by decide), h 3 (by decide),
    h 2 (by decide), h 1 (by decide), h 0 (by decide)]
  ext i hi
  simp only [BitVec.getElem_append, BitVec.getElem_extractLsb']
  rw [← BitVec.getLsbD_eq_getElem]
  repeat' split
  all_goals exact congrArg w.getLsbD (by omega)

@[simp] theorem word_setWord_self (m : Memory) (a w : Word) : (m.setWord a w).word a = w := by
  apply word_eq_of_bytes
  intro k hk
  have h : (a + BitVec.ofNat 64 k - a).toNat = k := by bv_omega
  simp only [setWord, h, hk, if_true]

theorem setWord_of_ge {m : Memory} {a b w : Word} (h : 8 ≤ (b - a).toNat) :
    m.setWord a w b = m b := by
  simp only [setWord, Nat.not_lt.2 h, if_false]

theorem word_setWord_of_disjoint {m : Memory} {a b w : Word} (h : 8 ≤ (a - b).toNat)
    (h' : (a - b).toNat + 8 ≤ 2 ^ 64) : (m.setWord b w).word a = m.word a := by
  apply word_congr
  intro k hk
  exact setWord_of_ge (by bv_omega)

theorem word_setWord_next (m : Memory) (a x y : Word) :
    ((m.setWord a x).setWord (a + 8) y).word a = x := by
  refine (word_setWord_of_disjoint ?_ ?_).trans (word_setWord_self ..)
  all_goals bv_omega

end Memory

/-- The machine, with the calls it has made. -/
structure State where
  regs : Register → Word
  mem : Memory
  calls : List (Call Word)

namespace State

def setReg (σ : State) (r : Register) (w : Word) : State :=
  { σ with regs := Function.update σ.regs r w }

def setWord (σ : State) (a w : Word) : State := { σ with mem := σ.mem.setWord a w }

variable (σ : State) (r q : Register) (a w : Word)

@[simp] theorem setReg_mem : (σ.setReg r w).mem = σ.mem := rfl
@[simp] theorem setReg_calls : (σ.setReg r w).calls = σ.calls := rfl
@[simp] theorem setWord_regs : (σ.setWord a w).regs = σ.regs := rfl
@[simp] theorem setWord_mem : (σ.setWord a w).mem = σ.mem.setWord a w := rfl
@[simp] theorem setWord_calls : (σ.setWord a w).calls = σ.calls := rfl

theorem setReg_regs : (σ.setReg r w).regs q = if q = r then w else σ.regs q :=
  Function.update_apply ..

@[simp] theorem setReg_regs_self : (σ.setReg r w).regs r = w := by
  simp [setReg_regs]

variable {r q} in
theorem setReg_regs_of_ne (h : q ≠ r) : (σ.setReg r w).regs q = σ.regs q := by
  simp [setReg_regs, h]

@[simp] theorem setReg_regs_eq : σ.setReg r (σ.regs r) = σ := by
  simp [setReg]

end State

/-- The calling convention, from a call in `σ` to the state `τ` in which its callee is back: it has
returned what the oracle says and kept the frame pointer, the stack pointer and the memory from there
on up. The other registers are the callee's own, and so is the memory below. -/
structure Answered (O : Oracle Word) (c : Call Word) (σ τ : State) : Prop where
  result : τ.regs Register.result = O σ.calls c
  fp : τ.regs .fp = σ.regs .fp
  sp : τ.regs .sp = σ.regs .sp
  mem : ∀ a, σ.regs .sp ≤ a → τ.mem a = σ.mem a
  calls : τ.calls = σ.calls ++ [c]

/-- Callees that keep the convention wherever they have enough stack. -/
structure Callees (O : Oracle Word) where
  after : Call Word → State → State
  /-- How many bytes below the stack pointer callees need. -/
  room : Nat
  answered (c : Call Word) (σ : State) : room ≤ (σ.regs .sp).toNat → Answered O c σ (after c σ)

/-- A function that was entered at `σ` has returned at `τ`: its caller finds the registers for the
frame, the stack and the return address as they were, and its own part of the memory. -/
structure Restored (σ τ : State) : Prop where
  sp : τ.regs .sp = σ.regs .sp
  fp : τ.regs .fp = σ.regs .fp
  lr : τ.regs .lr = σ.regs .lr
  mem : ∀ a, σ.regs .sp ≤ a → τ.mem a = σ.mem a

/-- All that a function needs of a callee that it called in `σ` and that is back in `τ`, the value
apart: its frame is where it was, and what it has on the stack is as it was. -/
structure Intact (σ τ : State) : Prop where
  fp : τ.regs .fp = σ.regs .fp
  sp : τ.regs .sp = σ.regs .sp
  mem : ∀ a, σ.regs .sp ≤ a → τ.mem a = σ.mem a

theorem Answered.intact {O : Oracle Word} {c : Call Word} {σ τ : State} (h : Answered O c σ τ) :
    Intact σ τ := ⟨h.fp, h.sp, h.mem⟩

def Operand.value (σ : State) : Operand → Option Word
  | reg r => some (σ.regs r)
  | imm n => some n.toBitVec
  | label _ | mem .. => none

/-- The address of a memory operand. -/
def address (σ : State) (base : Register) (offset : Int) : Word :=
  σ.regs base + BitVec.ofInt 64 offset

/-- Arithmetic wraps; division goes toward zero, and by zero it gives zero. -/
def Opcode.compute? : Opcode → Option (Word → Word → Word)
  | add => some (· + ·)
  | subtract => some (· - ·)
  | multiply => some (· * ·)
  | divide => some BitVec.sdiv
  | _ => none

/-- Words as the values of block code: arithmetic is the machine's. There is no code for constants
other than integers, nor for the remainder, so what these stand for does not matter. -/
def words : Meaning Word where
  const
    | .int n => n.toBitVec
    | _ => 0
  binary
    | .add => (· + ·)
    | .subtract => (· - ·)
    | .multiply => (· * ·)
    | .divide => BitVec.sdiv
    | .modulo => BitVec.srem

variable {O : Oracle Word} (C : Callees O)

/-- Every instruction but the return goes on with the next one. -/
def Instr.exec (σ : State) (i : Instr) : Option State :=
  match i.opcode, i.operands with
  | .move, [.reg dst, src] => (src.value σ).map (σ.setReg dst)
  | .load, [.reg dst, .mem base offset] =>
    some (σ.setReg dst (σ.mem.word (address σ base offset)))
  | .store, [.reg src, .mem base offset] =>
    some (σ.setWord (address σ base offset) (σ.regs src))
  | .storePair, [.reg x, .reg y, .mem base offset] =>
    let a := address σ base offset
    some (((σ.setWord a (σ.regs x)).setWord (a + 8) (σ.regs y)).setReg base a)
  | .loadPair, [.reg x, .reg y, .mem base offset] =>
    let a := σ.regs base
    some (((σ.setReg base (address σ base offset)).setReg x (σ.mem.word a)).setReg y
      (σ.mem.word (a + 8)))
  | .call, .label symbol :: args => do
    let ws ← args.mapM (·.value σ)
    return C.after ⟨symbol, ws⟩ σ
  | .defineLabel, [.label _] | .global, [.label _] | .comment, [] => some σ
  | op, [.reg dst, .reg lhs, src] => do
    let f ← op.compute?
    let w ← src.value σ
    return σ.setReg dst (f (σ.regs lhs) w)
  | _, _ => none

/-- Instructions one after the other. -/
def execAll : List Instr → State → Option State
  | [], σ => some σ
  | i :: rest, σ => (i.exec C σ).bind (execAll rest)

/-- Runs code up to its first return. -/
def run : List Instr → State → Option State
  | [], _ => none
  | i :: rest, σ => if i = .ret then some σ else (i.exec C σ).bind (run rest)

/-- The code that begins at a label. -/
def codeAt (name : String) (code : List Instr) : List Instr :=
  code.dropWhile (· ≠ .label name)

variable {C} {xs ys : List Instr} {σ τ υ : State}

theorem execAll_append : execAll C (xs ++ ys) σ = (execAll C xs σ).bind (execAll C ys) := by
  induction xs generalizing σ with
  | nil => rfl
  | cons i rest ih =>
    simp only [List.cons_append, execAll]
    cases i.exec C σ with
    | none => rfl
    | some τ => exact ih

theorem execAll_trans (h : execAll C xs σ = some τ) (h' : execAll C ys τ = some υ) :
    execAll C (xs ++ ys) σ = some υ := by
  rw [execAll_append, h]
  exact h'

theorem execAll_singleton (i : Instr) : execAll C [i] σ = i.exec C σ := by
  simp only [execAll]
  cases i.exec C σ <;> rfl

/-- Code that goes through has no return in it. -/
theorem run_append_of_execAll (h : execAll C xs σ = some τ) :
    run C (xs ++ ys) σ = run C ys τ := by
  induction xs generalizing σ with
  | nil =>
    obtain rfl := Option.some.inj h
    rfl
  | cons i rest ih =>
    simp only [execAll] at h
    obtain ⟨υ, hi, hrest⟩ := Option.bind_eq_some_iff.1 h
    have hne : i ≠ .ret := by
      rintro rfl
      cases hi
    simp only [List.cons_append, run, hne, if_false, hi]
    exact ih hrest

theorem run_ret (rest : List Instr) : run C (.ret :: rest) σ = some σ := by
  rw [run, if_pos rfl]

@[simp] theorem exec_move (dst src : Register) :
    (Instr.move dst src).exec C σ = some (σ.setReg dst (σ.regs src)) := rfl

@[simp] theorem exec_moveImm (dst : Register) (n : Int64) :
    (Instr.moveImm dst n).exec C σ = some (σ.setReg dst n.toBitVec) := rfl

@[simp] theorem exec_load (dst base : Register) (offset : Int) :
    (Instr.load dst base offset).exec C σ =
      some (σ.setReg dst (σ.mem.word (address σ base offset))) := rfl

@[simp] theorem exec_store (src base : Register) (offset : Int) :
    (Instr.store src base offset).exec C σ =
      some (σ.setWord (address σ base offset) (σ.regs src)) := rfl

@[simp] theorem exec_storePair (x y base : Register) (offset : Int) :
    (Instr.storePair x y base offset).exec C σ =
      some (((σ.setWord (address σ base offset) (σ.regs x)).setWord
        (address σ base offset + 8) (σ.regs y)).setReg base (address σ base offset)) := rfl

@[simp] theorem exec_loadPair (x y base : Register) (offset : Int) :
    (Instr.loadPair x y base offset).exec C σ =
      some (((σ.setReg base (address σ base offset)).setReg x (σ.mem.word (σ.regs base))).setReg y
        (σ.mem.word (σ.regs base + 8))) := rfl

@[simp] theorem exec_label (name : String) : (Instr.label name).exec C σ = some σ := rfl

@[simp] theorem exec_global (name : String) : (Instr.global name).exec C σ = some σ := rfl

@[simp] theorem exec_remark (text : String) : (Instr.remark text).exec C σ = some σ := rfl

theorem exec_arith {op : Opcode} {f : Word → Word → Word} (hf : op.compute? = some f)
    {dst lhs : Register} {src : Operand} {w : Word} (hw : src.value σ = some w) :
    (Instr.arith op dst lhs src).exec C σ = some (σ.setReg dst (f (σ.regs lhs) w)) := by
  cases op <;> simp only [Opcode.compute?, reduceCtorEq] at hf <;> cases src <;>
    simp only [Operand.value, reduceCtorEq] at hw <;>
    simp_all [Instr.arith, Instr.exec, Opcode.compute?, Operand.value]

theorem exec_call (symbol : String) (args : List Register) :
    (Instr.call symbol args).exec C σ = some (C.after ⟨symbol, args.map σ.regs⟩ σ) := by
  have h : (args.map Operand.reg).mapM (·.value σ) = some (args.map σ.regs) := by
    induction args with
    | nil => rfl
    | cons r rest ih =>
      rw [List.map_cons, List.mapM_cons, ih]
      rfl
  simp [Instr.call, Instr.exec, h]

end Straightline.Machine
