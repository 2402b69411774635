import Mathlib.Logic.Relation
import Straightline.Proofs.Semantics.Machine

/-!
What code does once it is in memory and its symbols are linked. A call of a symbol that the code
defines goes there and leaves the return address in the link register, and a return goes where that
register says. All other calls are left to callees.
-/
namespace Straightline.Machine

/-- The symbol that an instruction with the opcode is about. -/
def Instr.symbol? (op : Opcode) (i : Instr) : Option String :=
  match i.operands with
  | .label l :: _ => if i.opcode = op then some l else none
  | _ => none

/-- The symbols that the instructions with the opcode are about, in order. -/
def symbols (op : Opcode) (code : List Instr) : List String := code.filterMap (Instr.symbol? op)

@[simp] theorem symbols_append (op : Opcode) (c d : List Instr) :
    symbols op (c ++ d) = symbols op c ++ symbols op d := List.filterMap_append

/-- Code in memory, with an address for each instruction. -/
structure Image where
  code : List Instr
  addr : Nat → Word
  addr_inj : ∀ i < code.length, ∀ j < code.length, addr i = addr j → i = j

/-- The machine with the address of the instruction that is next. -/
structure Config where
  pc : Word
  state : State

namespace Image

variable (M : Image)

/-- The place in the code of the instruction at an address. -/
def position? (pc : Word) : Option Nat := (List.range M.code.length).find? (M.addr · = pc)

/-- The place in the code where a symbol is defined. -/
def label? (symbol : String) : Option Nat := M.code.idxOf? (.label symbol)

/-- The place in the code that an instruction calls. -/
def target? (i : Instr) : Option Nat := (i.symbol? .call).bind M.label?

/-- One instruction. The machine stops at an address that holds none. -/
def step {O : Oracle Word} (C : Callees O) (κ : Config) : Option Config := do
  let k ← M.position? κ.pc
  let i ← M.code[k]?
  if i = .ret then return ⟨κ.state.regs .lr, κ.state⟩
  else match M.target? i with
    | some j => return ⟨M.addr j, κ.state.setReg .lr (M.addr (k + 1))⟩
    | none => return ⟨M.addr (k + 1), ← i.exec C κ.state⟩

/-- Any number of instructions. -/
def Steps {O : Oracle Word} (C : Callees O) : Config → Config → Prop :=
  Relation.ReflTransGen fun κ κ' => M.step C κ = some κ'

/-- From the address on, the memory holds the code and nothing else. -/
def Holds (pc : Word) (c : List Instr) : Prop := ∃ k, M.addr k = pc ∧ M.code.drop k = c

variable {M} {O : Oracle Word} {C : Callees O} {pc : Word} {c rest : List Instr} {i : Instr}
  {σ τ : State}

theorem Holds.fetch (h : M.Holds pc (i :: rest)) :
    ∃ k, M.position? pc = some k ∧ M.code[k]? = some i ∧ M.Holds (M.addr (k + 1)) rest := by
  obtain ⟨k, rfl, hk⟩ := h
  have hget : M.code[k]? = some i := by
    rw [← List.head?_drop, hk]
    rfl
  obtain ⟨hlt, -⟩ := List.getElem?_eq_some_iff.1 hget
  refine ⟨k, ?_, hget, k + 1, rfl, ?_⟩
  · rw [position?, List.find?_range_eq_some]
    refine ⟨by simp, List.mem_range.2 hlt, ?_⟩
    intro j hj
    have hne : M.addr j ≠ M.addr k := by
      intro he
      have := M.addr_inj j (by omega) k hlt he
      omega
    simpa using hne
  · rw [← List.tail_drop, hk]
    rfl

theorem step_ret (h : M.Holds pc (.ret :: rest)) (σ : State) :
    M.step C ⟨pc, σ⟩ = some ⟨σ.regs .lr, σ⟩ := by
  obtain ⟨k, hk, hi, -⟩ := h.fetch
  simp [step, hk, hi]

/-- A call goes to the symbol's definition and remembers what comes after it. -/
theorem step_call {j : Nat} (h : M.Holds pc (i :: rest)) (hi : M.target? i = some j) (σ : State) :
    ∃ pc', M.Holds pc' rest ∧ M.step C ⟨pc, σ⟩ = some ⟨M.addr j, σ.setReg .lr pc'⟩ := by
  obtain ⟨k, hk, hget, hrest⟩ := h.fetch
  have hne : i ≠ .ret := by
    rintro rfl
    cases hi
  exact ⟨_, hrest, by simp [step, hk, hget, hne, hi]⟩

theorem step_exec (h : M.Holds pc (i :: rest)) (hi : M.target? i = none)
    (hexec : i.exec C σ = some τ) :
    ∃ pc', M.Holds pc' rest ∧ M.step C ⟨pc, σ⟩ = some ⟨pc', τ⟩ := by
  obtain ⟨k, hk, hget, hrest⟩ := h.fetch
  have hne : i ≠ .ret := by
    rintro rfl
    cases hexec
  exact ⟨_, hrest, by simp [step, hk, hget, hne, hi, hexec]⟩

/-- Code that calls nothing in the image runs through. -/
theorem steps_of_execAll (h : M.Holds pc (c ++ rest)) (hc : ∀ i ∈ c, M.target? i = none)
    (hexec : execAll C c σ = some τ) :
    ∃ pc', M.Holds pc' rest ∧ M.Steps C ⟨pc, σ⟩ ⟨pc', τ⟩ := by
  induction c generalizing pc σ with
  | nil =>
    obtain rfl := Option.some.inj hexec
    exact ⟨pc, h, .refl⟩
  | cons i c ih =>
    obtain ⟨hi, hc⟩ := List.forall_mem_cons.1 hc
    obtain ⟨υ, hυ, hexec⟩ := Option.bind_eq_some_iff.1 hexec
    obtain ⟨pc₁, h₁, hstep⟩ := step_exec h hi hυ
    obtain ⟨pc', h', hsteps⟩ := ih h₁ hc hexec
    exact ⟨pc', h', .head hstep hsteps⟩

theorem label?_eq_none {l : String} (h : l ∉ symbols .defineLabel M.code) : M.label? l = none := by
  rw [label?, List.idxOf?_eq_none_iff]
  intro hmem
  exact h (List.mem_filterMap.2 ⟨_, hmem, rfl⟩)

/-- Calls of symbols that the image does not define leave it. -/
theorem target?_eq_none (h : ∀ l ∈ symbols .call c, l ∉ symbols .defineLabel M.code) :
    ∀ i ∈ c, M.target? i = none := by
  intro i hi
  rw [target?, Option.bind_eq_none_iff]
  intro l hl
  exact label?_eq_none (h l (List.mem_filterMap.2 ⟨i, hi, hl⟩))

theorem drop_idxOf? {l : String} {code : List Instr} (h : codeAt l code ≠ []) :
    ∃ k, code.idxOf? (.label l) = some k ∧ code.drop k = codeAt l code := by
  induction code with
  | nil => exact (h rfl).elim
  | cons i code ih =>
    by_cases hi : i = .label l
    · exact ⟨0, by simp [List.idxOf?_cons, hi], by simp [codeAt, hi]⟩
    · have hcode : codeAt l (i :: code) = codeAt l code := by simp [codeAt, hi]
      rw [hcode] at h ⊢
      obtain ⟨k, hk, hdrop⟩ := ih h
      exact ⟨k + 1, by simp [List.idxOf?_cons, hi, hk], hdrop⟩

/-- At a symbol that is defined there is the code that begins with its label. -/
theorem holds_codeAt {l : String} (h : codeAt l M.code ≠ []) :
    ∃ k, M.label? l = some k ∧ M.Holds (M.addr k) (codeAt l M.code) := by
  obtain ⟨k, hk, hdrop⟩ := drop_idxOf? h
  exact ⟨k, hk, k, rfl, hdrop⟩

end Image

end Straightline.Machine
