import Straightline.Proofs.Selection.Emission
import Straightline.Proofs.Selection.Layout

/-!
Whatever is selected can be written down: the assembler takes every instruction, and immediates and
offsets are in reach of the instruction set. That includes the code of functions that met a limit.
-/
namespace Straightline

open IR
open Machine (Instr Operand)
open Selection

/-- The operands are in reach of their opcode, for a function with the frame `fr`. -/
def Encodable (fr : Frame) (i : Instr) : Prop :=
  match i.opcode with
  | .add | .subtract => ∀ n, .imm n ∈ i.operands → 0 ≤ n.toInt ∧ n.toInt ≤ 4095
  | .multiply | .divide => ∀ n, .imm n ∉ i.operands
  | .load | .store => ∀ base o, .mem base o ∈ i.operands →
      base = .fp ∧ 8 ∣ o ∧ -256 ≤ o ∧ o ≤ -8 ∧ -(fr.size : Int) ≤ o
  | _ => True

namespace Assembly

variable {t : Target} {code : List Instr}

theorem exists_program_eq_ok (h : ∀ i ∈ code, ∃ lines, encode t i = .ok lines) :
    ∃ text, program t code = .ok text := by
  have hall : ∃ texts, code.mapM (instruction t) = .ok texts := by
    induction code with
    | nil => exact ⟨[], rfl⟩
    | cons i code ih =>
      obtain ⟨⟨lines, hi⟩, hcode⟩ := List.forall_mem_cons.1 h
      obtain ⟨texts, htexts⟩ := ih hcode
      have hinstr : instruction t i = .ok _ := except_bind_eq_ok.2 ⟨lines, hi, rfl⟩
      exact ⟨_, mapM_eq_ok_iff.2 (.cons hinstr (mapM_eq_ok_iff.1 htexts))⟩
  obtain ⟨texts, htexts⟩ := hall
  exact ⟨_, except_bind_eq_ok.2 ⟨texts, htexts, rfl⟩⟩

end Assembly

namespace Selection

variable {cx : Context} {i : Instr}

theorem Plain.exists_encode (h : Plain cx i) (t : Target) :
    ∃ lines, Assembly.encode t i = .ok lines := by
  cases h with
  | @read p => cases p <;> exact ⟨_, rfl⟩
  | store | remark => exact ⟨_, rfl⟩
  | @compute b _ _ hop hsrc =>
    cases hsrc with
    | reg => cases b <;> cases hop <;> exact ⟨_, rfl⟩
    | imm hn =>
      -- Multiplication and division take no immediate.
      cases b <;> cases hop
      · exact ⟨_, rfl⟩
      · exact ⟨_, rfl⟩
      · cases hn
      · cases hn
  | call symbol args =>
    refine ⟨_, if_pos ?_⟩
    simp

theorem Emitted.exists_encode (h : Emitted cx i) (t : Target) :
    ∃ lines, Assembly.encode t i = .ok lines := by
  cases h with
  | plain _ h => exact h.exists_encode t
  | global | label | remark | push | point | reserve | release | pop | ret => exact ⟨_, rfl⟩

/-- Slots are reached from the frame pointer. -/
theorem offset?_reach (hsize : cx.frame.size ≤ Frame.maxSize) {x : String} {o : Int}
    (ho : cx.frame.offset? x = some o) :
    8 ∣ o ∧ -256 ≤ o ∧ o ≤ -8 ∧ -(cx.frame.size : Int) ≤ o := by
  obtain ⟨k, hk, rfl⟩ := Frame.offset?_bounds ho
  unfold Frame.maxSize at hsize
  refine ⟨⟨-(k + 1), ?_⟩, ?_, ?_, ?_⟩ <;> omega

theorem Direct.reach {op : Machine.Opcode} {n : Int64} (h : Direct op (.imm n)) :
    (op = .add ∨ op = .subtract) ∧ 0 ≤ n.toInt ∧ n.toInt ≤ 4095 := by
  cases h with
  | imm h => simpa [isDirect, and_assoc] using h

theorem Plain.encodable (h : Plain cx i) (hsize : cx.frame.size ≤ Frame.maxSize) :
    Encodable cx.frame i := by
  cases h with
  | call | remark => trivial
  | @read p dst hp =>
    cases p with
    | imm | reg => trivial
    | slot o =>
      intro base o' hmem
      obtain ⟨x, ho⟩ := hp o rfl
      obtain ⟨rfl, rfl⟩ : base = .fp ∧ o' = o := by simpa [Place.into, Instr.load] using hmem
      exact ⟨rfl, offset?_reach hsize ho⟩
  | @store x o ho src =>
    intro base o' hmem
    obtain ⟨rfl, rfl⟩ : base = .fp ∧ o' = o := by simpa [Instr.store] using hmem
    exact ⟨rfl, offset?_reach hsize ho⟩
  | @compute b op src hop hsrc lhs =>
    have hmem : ∀ n, .imm n ∈ (Instr.arith op .r0 lhs src).operands → src = .imm n := by
      intro n hn
      simpa [Instr.arith, eq_comm] using hn
    cases b <;> cases hop
    all_goals
      intro n hn
      obtain rfl := hmem n hn
    · exact hsrc.reach.2
    · exact hsrc.reach.2
    · simpa using hsrc.reach.1
    · simpa using hsrc.reach.1

theorem Emitted.encodable (h : Emitted cx i) : Encodable cx.frame i := by
  cases h with
  | plain hsize h => exact h.encodable hsize
  | reserve hsize =>
    intro n hn
    obtain rfl : n = Int64.ofNat cx.frame.size := by simpa [Instr.arith] using hn
    unfold Frame.maxSize at hsize
    rw [Int64.toInt_ofNat_of_lt (by omega)]
    omega
  | global | label | remark | push | point | release | pop | ret => trivial

end Selection

/-- The code of a module can be written as assembly for every target, and function by function its
operands are in reach, whether or not the function met a limit. -/
theorem selected_code_encodable {t : Target} {m : Module} {s : Selected}
    (hs : selectModule t m = .ok s) :
    (∀ t', ∃ text, Assembly.program t' s.code = .ok text) ∧
      ∃ segs, List.Forall₂ (fun f seg => codeOfFunc t f = .ok seg ∧
        ∀ i ∈ seg.code, Encodable (.ofFunc f) i) m.functions segs ∧
        s.code = segs.flatMap (·.code) := by
  obtain ⟨-, segs, hsegs, rfl⟩ := selectModule_eq_ok.1 hs
  have hemitted : List.Forall₂ (fun f seg => codeOfFunc t f = .ok seg ∧
      ∀ i ∈ seg.code, Emitted ⟨t, f⟩ i) m.functions segs :=
    hsegs.imp fun f seg hseg => ⟨hseg, codeOfFunc_code hseg⟩
  refine ⟨?_, segs, hemitted.imp fun f seg h => ⟨h.1, fun i hi => (h.2 i hi).encodable⟩, rfl⟩
  intro t'
  apply Assembly.exists_program_eq_ok
  intro i hi
  obtain ⟨seg, hseg, hi⟩ := List.mem_flatMap.1 hi
  obtain ⟨k, hk, rfl⟩ := List.getElem_of_mem hseg
  have hlen := hemitted.length_eq
  exact ((hemitted.get (by omega) hk).2 i hi).exists_encode t'

/-- There is code for a sum and its store, and then no code for a remainder. -/
def remainderModule : Module where
  name := "sample"
  functions := [{
    name := "f"
    params := [⟨"a", .int⟩]
    result := .int
    span := .nowhere
    blocks := [{
      name := Block.entryName
      body := [.alloc ⟨"x", .int⟩,
        .load ⟨0, .int⟩ (.var ⟨"a", .int⟩),
        .binary .add ⟨1, .int⟩ (.temp ⟨0, .int⟩) (.const (.int 4095)),
        .store (.var ⟨"x", .int⟩) (.temp ⟨1, .int⟩),
        .binary .modulo ⟨2, .int⟩ (.var ⟨"x", .int⟩) (.const (.int 4096))].map (⟨·, .nowhere⟩)
      terminator := some ⟨some (.temp ⟨2, .int⟩), .nowhere⟩ }] }]

theorem selected_code_encodable_remainder :
    ∃ s, selectModule .darwin remainderModule = .ok s ∧ s.hasErrors = true ∧
      .arith .add .r0 .r0 (.imm 4095) ∈ s.code ∧ .store .r0 .fp (-16) ∈ s.code ∧
      (∀ t', ∃ text, Assembly.program t' s.code = .ok text) ∧
      ∃ segs, List.Forall₂ (fun f seg => codeOfFunc .darwin f = .ok seg ∧
        ∀ i ∈ seg.code, Encodable (.ofFunc f) i) remainderModule.functions segs ∧
        s.code = segs.flatMap (·.code) :=
  ⟨_, rfl, by decide, by decide, by decide, selected_code_encodable rfl⟩

end Straightline
