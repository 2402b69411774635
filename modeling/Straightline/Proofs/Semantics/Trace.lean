import Straightline.Proofs.Semantics.Machine

/-!
A run from within: the instructions that it executes, the states that these find, and the bytes that
they write.
-/
namespace Straightline.Machine

/-- The `n` bytes from an address on. -/
def bytes (a : Word) (n : Nat) : List Word := (List.range n).map fun k => a + BitVec.ofNat 64 k

theorem mem_bytes {a b : Word} {n : Nat} (hn : n ≤ 2 ^ 64) : b ∈ bytes a n ↔ (b - a).toNat < n := by
  rw [bytes, List.mem_map]
  constructor
  · rintro ⟨k, hk, rfl⟩
    have := List.mem_range.1 hk
    bv_omega
  · intro h
    refine ⟨(b - a).toNat, List.mem_range.2 h, ?_⟩
    rw [BitVec.ofNat_toNat, BitVec.setWidth_eq, BitVec.add_comm, BitVec.sub_add_cancel]

/-- The bytes that an instruction writes when it is executed in `σ`. What a callee writes is not the
call's own. -/
def Instr.written (σ : State) (i : Instr) : List Word :=
  match i.opcode, i.operands with
  | .store, [.reg _, .mem base offset] => bytes (address σ base offset) 8
  | .storePair, [.reg _, .reg _, .mem base offset] => bytes (address σ base offset) 16
  | _, _ => []

variable {O : Oracle Word} (C : Callees O)

/-- The instructions that a run executes, the return included, each with the state that it finds. -/
def trace : List Instr → State → Option (List (Instr × State))
  | [], _ => none
  | i :: rest, σ =>
    if i = .ret then some [(i, σ)]
    else (i.exec C σ).bind fun τ => (trace rest τ).map ((i, σ) :: ·)

/-- The code runs up to its return, and `G` holds of all that is executed. -/
def RunsWith (G : Instr → State → Prop) (code : List Instr) (σ : State) : Prop :=
  ∃ tr, trace C code σ = some tr ∧ ∀ v ∈ tr, G v.1 v.2

variable {C} {σ τ : State} {i : Instr} {xs ys : List Instr} {G : Instr → State → Prop}

/-- Outside of what it writes an instruction leaves the memory as it was. -/
theorem exec_mem_of_notMem {a : Word} (h : i.exec C σ = some τ) (hi : i.opcode ≠ .call)
    (ha : a ∉ i.written σ) : τ.mem a = σ.mem a := by
  obtain ⟨op, operands, comment⟩ := i
  simp only [Instr.exec] at h
  split at h
  next =>
    obtain ⟨w, -, rfl⟩ := Option.map_eq_some_iff.1 h
    rfl
  next =>
    obtain rfl := Option.some.inj h
    rfl
  next =>
    -- A store.
    obtain rfl := Option.some.inj h
    exact Memory.setWord_of_ge (Nat.not_lt.1 (mt (mem_bytes (by decide)).2 ha))
  next base offset =>
    -- A pair of them: what is not in the 16 bytes is in neither of the words.
    obtain rfl := Option.some.inj h
    have hfar : ¬ (a - address σ base offset).toNat < 16 := mt (mem_bytes (by decide)).2 ha
    refine (Memory.setWord_of_ge ?_).trans (Memory.setWord_of_ge ?_) <;> bv_omega
  next =>
    obtain rfl := Option.some.inj h
    rfl
  next => exact (hi rfl).elim
  iterate 3
    next =>
      obtain rfl := Option.some.inj h
      rfl
  next =>
    obtain ⟨f, -, h⟩ := Option.bind_eq_some_iff.1 h
    obtain ⟨w, -, h⟩ := Option.bind_eq_some_iff.1 h
    obtain rfl := Option.some.inj h
    rfl
  next => cases h

namespace RunsWith

theorem ret (hG : G .ret σ) : RunsWith C G (.ret :: xs) σ :=
  ⟨[(.ret, σ)], if_pos rfl, by simpa using hG⟩

theorem cons (hG : G i σ) (hi : i.exec C σ = some τ) (hxs : RunsWith C G xs τ) :
    RunsWith C G (i :: xs) σ := by
  obtain ⟨tr, htr, hall⟩ := hxs
  have hne : i ≠ .ret := by
    rintro rfl
    cases hi
  refine ⟨(i, σ) :: tr, ?_, List.forall_mem_cons.2 ⟨hG, hall⟩⟩
  rw [trace, if_neg hne, hi, Option.bind_some, htr, Option.map_some]

/-- Code runs through if each of its instructions keeps an invariant. -/
theorem append {I : State → Prop}
    (hstep : ∀ i ∈ xs, ∀ σ, I σ → G i σ ∧ ∃ τ, i.exec C σ = some τ ∧ I τ)
    (hys : ∀ σ, I σ → RunsWith C G ys σ) (hσ : I σ) : RunsWith C G (xs ++ ys) σ := by
  induction xs generalizing σ with
  | nil => exact hys σ hσ
  | cons i xs ih =>
    obtain ⟨hi, hxs⟩ := List.forall_mem_cons.1 hstep
    obtain ⟨hG, τ, hexec, hτ⟩ := hi σ hσ
    exact cons hG hexec (ih hxs hτ)

end RunsWith

end Straightline.Machine
