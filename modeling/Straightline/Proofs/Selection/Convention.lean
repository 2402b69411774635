import Straightline.Proofs.Selection.Function
import Straightline.Proofs.Semantics.Trace

/-!
The stack and the calling convention. A function writes nothing but its own frame, calls with the
stack aligned and all of its slots above it, and returns with the registers of its caller.
-/
namespace Straightline.Selection

open IR
open Machine (Instr Operand Register Word Callees Intact RunsWith address bytes codeAt trace)

/-- How far an address lies below the stack pointer of `σ₀`. -/
def depth (σ₀ : Machine.State) (a : Word) : Nat := (σ₀.regs .sp - a).toNat

/-- What the convention asks of an instruction that finds `σ`, in a function with the frame `fr` that
was entered at `σ₀`. -/
structure Conforms (fr : Frame) (σ₀ : Machine.State) (i : Instr) (σ : Machine.State) : Prop where
  writes : ∀ a ∈ i.written σ, 0 < depth σ₀ a ∧ depth σ₀ a ≤ 16 + fr.size
  /-- The caller's registers are kept in the uppermost 16 bytes, -/
  pair : i.opcode = .storePair → ∀ a ∈ i.written σ, depth σ₀ a ≤ 16
  /-- and what is stored in slots goes below. -/
  slot : i.opcode = .store → ∀ a ∈ i.written σ, 16 < depth σ₀ a
  call : i.opcode = .call → 16 ∣ (σ.regs .sp).toNat ∧
    ∀ x o, fr.offset? x = some o → depth σ₀ (address σ .fp o) ≤ depth σ₀ (σ.regs .sp)
  ret : i.opcode = .ret → σ.regs .sp = σ₀.regs .sp

/-- A return finds the two registers that the caller had saved for it. -/
def Restores (σ₀ : Machine.State) (i : Instr) (σ : Machine.State) : Prop :=
  i.opcode = .ret → σ.regs .fp = σ₀.regs .fp ∧ σ.regs .lr = σ₀.regs .lr

/-- Both together. A frame that reaches below address zero is not above the stack pointer any more,
so callees may overwrite what was saved there. -/
structure Kept (fr : Frame) (σ₀ : Machine.State) (i : Instr) (σ : Machine.State) : Prop extends
    Conforms fr σ₀ i σ where
  restores : 16 + fr.size ≤ (σ₀.regs .sp).toNat → Restores σ₀ i σ

/-- The machine is inside the frame of a function that was entered at `σ₀`. -/
structure Framed (cx : Context) (σ₀ σ : Machine.State) : Prop where
  fp : σ.regs .fp = σ₀.regs .sp - 16
  sp : σ.regs .sp = σ₀.regs .sp - 16 - BitVec.ofNat 64 cx.frame.size
  saved : 16 + cx.frame.size ≤ (σ₀.regs .sp).toNat →
    σ.mem.word (σ₀.regs .sp - 16) = σ₀.regs .fp ∧ σ.mem.word (σ₀.regs .sp - 16 + 8) = σ₀.regs .lr

variable {O : Oracle Word} {C : Callees O} {cx : Context} {i : Instr} {σ₀ σ τ : Machine.State}

/-- Before the return nothing has to be restored. -/
theorem Conforms.kept {fr : Frame} (h : Conforms fr σ₀ i σ) (hret : i.opcode ≠ .ret) :
    Kept fr σ₀ i σ := ⟨h, fun _ hi => (hret hi).elim⟩

theorem Kept.of_quiet {fr : Frame} (hwritten : i.written σ = []) (hcall : i.opcode ≠ .call)
    (hret : i.opcode ≠ .ret) : Kept fr σ₀ i σ :=
  Conforms.kept {
    writes := by simp [hwritten]
    pair := by simp [hwritten]
    slot := by simp [hwritten]
    call := fun h => (hcall h).elim
    ret := fun h => (hret h).elim } hret

namespace Framed

/-- The invariant rests on two registers and on the uppermost 16 bytes of the frame. -/
theorem of_eq (h : Framed cx σ₀ σ) (hfp : τ.regs .fp = σ.regs .fp) (hsp : τ.regs .sp = σ.regs .sp)
    (hmem : 16 + cx.frame.size ≤ (σ₀.regs .sp).toNat →
      ∀ a, 0 < depth σ₀ a → depth σ₀ a ≤ 16 → τ.mem a = σ.mem a) : Framed cx σ₀ τ where
  fp := hfp.trans h.fp
  sp := hsp.trans h.sp
  saved := by
    intro hfits
    rw [← (h.saved hfits).1, ← (h.saved hfits).2]
    constructor <;> refine Machine.Memory.word_congr fun k hk => hmem hfits _ ?_ ?_
    all_goals
      unfold depth
      bv_omega

theorem setReg {dst : Register} {w : Word} (h : Framed cx σ₀ σ) (hdst : dst ∈ Register.arguments) :
    Framed cx σ₀ (σ.setReg dst w) :=
  h.of_eq (Machine.State.setReg_regs_of_ne _ _ (ne_fp_of_mem_arguments hdst))
    (Machine.State.setReg_regs_of_ne _ _ (ne_sp_of_mem_arguments hdst)) fun _ _ _ _ => rfl

/-- What is written to a slot is below the caller's registers and within the frame. -/
theorem depth_slot (h : Framed cx σ₀ σ) (hsize : cx.frame.size ≤ Frame.maxSize) {x : String} {o : Int}
    (ho : cx.frame.offset? x = some o) {a : Word} (ha : a ∈ bytes (address σ .fp o) 8) :
    16 < depth σ₀ a ∧ depth σ₀ a ≤ 16 + cx.frame.size := by
  obtain ⟨k, hk, hslot⟩ := Frame.slot_eq ho (σ.regs .fp)
  have ha := (Machine.mem_bytes (by decide)).1 ha
  rw [address, hslot, h.fp] at ha
  unfold depth
  unfold Frame.maxSize at hsize
  constructor <;> bv_omega

theorem slot_le_sp (h : Framed cx σ₀ σ) (hsize : cx.frame.size ≤ Frame.maxSize) {x : String} {o : Int}
    (ho : cx.frame.offset? x = some o) :
    depth σ₀ (address σ .fp o) ≤ depth σ₀ (σ.regs .sp) := by
  obtain ⟨k, hk, hslot⟩ := Frame.slot_eq ho (σ.regs .fp)
  rw [address, hslot, h.fp, h.sp]
  unfold depth
  unfold Frame.maxSize at hsize
  bv_omega

theorem aligned (h : Framed cx σ₀ σ) (halign : 16 ∣ (σ₀.regs .sp).toNat) :
    16 ∣ (σ.regs .sp).toNat := by
  have hsize : 16 ∣ cx.frame.size := Nat.dvd_mul_left ..
  rw [h.sp]
  bv_omega

theorem after (h : Framed cx σ₀ σ) (hτ : Intact σ τ) : Framed cx σ₀ τ := by
  refine h.of_eq hτ.fp hτ.sp fun hfits a hpos hle => hτ.mem a ?_
  rw [h.sp]
  unfold depth at hpos hle
  bv_omega

end Framed

theorem Direct.exists_value {op : Machine.Opcode} {src : Operand} (h : Direct op src)
    (σ : Machine.State) : ∃ w, src.value σ = some w := by
  cases h with
  | reg | imm => exact ⟨_, rfl⟩

/-- Each instruction of the body conforms and leaves the frame standing. -/
theorem Framed.step (h : Framed cx σ₀ σ) (hi : Plain cx i) (hsize : cx.frame.size ≤ Frame.maxSize)
    (halign : 16 ∣ (σ₀.regs .sp).toNat)
    (hintact : ∀ c υ, Intact υ (C.after c υ)) :
    Kept cx.frame σ₀ i σ ∧ ∃ τ, i.exec C σ = some τ ∧ Framed cx σ₀ τ := by
  cases hi with
  | @read p dst _ hdst =>
    refine ⟨?_, _, Place.exec_into, h.setReg hdst⟩
    cases p <;> exact .of_quiet rfl nofun nofun
  | @store x o ho src =>
    have hslot := fun a => h.depth_slot hsize ho (a := a)
    refine ⟨Conforms.kept ⟨?_, nofun, ?_, nofun, nofun⟩ nofun, _, rfl, ?_⟩
    · intro a ha
      have := hslot a ha
      omega
    · intro _ a ha
      exact (hslot a ha).1
    · refine h.of_eq rfl rfl fun _ a _ hle => ?_
      -- The caller's registers are not where the slot is.
      apply Machine.exec_mem_of_notMem (C := C) (i := .store src .fp o) rfl nofun
      intro ha
      have := hslot a ha
      omega
  | @compute b op src hop hsrc lhs =>
    obtain ⟨w, hw⟩ := hsrc.exists_value σ
    refine ⟨?_, _, Machine.exec_arith (compute?_of_opcode? hop) hw, h.setReg (by decide)⟩
    cases b <;> cases hop <;> exact .of_quiet rfl nofun nofun
  | call symbol args =>
    refine ⟨Conforms.kept ⟨nofun, nofun, nofun, ?_, nofun⟩ nofun, _, Machine.exec_call symbol args,
      h.after (hintact _ _)⟩
    exact fun _ => ⟨h.aligned halign, fun x o ho => h.slot_le_sp hsize ho⟩
  | remark text => exact ⟨.of_quiet rfl nofun nofun, σ, rfl, h⟩

theorem Framed.of_pushed (hfp : σ.regs .fp = σ₀.regs .sp - 16)
    (hsp : σ.regs .sp = σ₀.regs .sp - 16 - BitVec.ofNat 64 cx.frame.size)
    (hmem : σ.mem = (σ₀.mem.setWord (σ₀.regs .sp - 16) (σ₀.regs .fp)).setWord
      (σ₀.regs .sp - 16 + 8) (σ₀.regs .lr)) : Framed cx σ₀ σ := by
  refine ⟨hfp, hsp, fun _ => ?_⟩
  rw [hmem]
  exact ⟨Machine.Memory.word_setWord_next .., Machine.Memory.word_setWord_self ..⟩

variable {code : List Instr}

/-- Entry saves the caller's registers and makes room for the slots. -/
theorem runsWith_enter (hcode : ∀ τ, Framed cx σ τ → RunsWith C (Kept cx.frame σ) code τ) :
    RunsWith C (Kept cx.frame σ) (cx.enter ++ code) σ := by
  have haddr : address σ .sp (-16) = σ.regs .sp - 16 := by
    change σ.regs .sp + -16 = _
    bv_omega
  have hpair : ∀ a ∈ (Instr.storePair .fp .lr .sp (-16)).written σ,
      0 < depth σ a ∧ depth σ a ≤ 16 := by
    intro a ha
    have ha := (Machine.mem_bytes (by decide)).1 ha
    rw [haddr] at ha
    unfold depth
    constructor <;> bv_omega
  have hpush : Kept cx.frame σ (.storePair .fp .lr .sp (-16)) σ := by
    refine Conforms.kept ⟨?_, ?_, nofun, nofun, nofun⟩ nofun
    · intro a ha
      have := hpair a ha
      omega
    · intro _ a ha
      exact (hpair a ha).2
  unfold Context.enter
  refine .cons (.of_quiet rfl nofun nofun) rfl (.cons (.of_quiet rfl nofun nofun) rfl ?_)
  refine .cons hpush (Machine.exec_storePair ..) ?_
  refine .cons (.of_quiet rfl nofun nofun) (Machine.exec_move ..) ?_
  by_cases hpos : 0 < cx.frame.size
  · simp only [hpos, if_true]
    refine .cons (.of_quiet rfl nofun nofun) (Machine.exec_arith rfl rfl) (hcode _ ?_)
    apply Framed.of_pushed
    · simp [Machine.State.setReg_regs, haddr]
    · simp [Machine.State.setReg_regs, haddr]
    · simp [haddr]
  · have hzero : cx.frame.size = 0 := by omega
    simp only [hpos, if_false]
    refine hcode _ (.of_pushed ?_ ?_ ?_)
    · simp [haddr]
    · simp [Machine.State.setReg_regs, haddr, hzero]
    · simp [haddr]

/-- The caller's registers come back when the stack pointer is at them. -/
theorem Framed.runsWith_pop (h : Framed cx σ₀ σ) (hsp : τ.regs .sp = σ₀.regs .sp - 16)
    (hmem : τ.mem = σ.mem) :
    RunsWith C (Kept cx.frame σ₀) (.loadPair .fp .lr .sp 16 :: .ret :: code) τ := by
  obtain ⟨υ, hυ, hsp', hfp, hlr, -⟩ := exec_loadPair_sp (C := C) hsp
  rw [hmem] at hfp hlr
  have hret : Conforms cx.frame σ₀ .ret υ := ⟨nofun, nofun, nofun, nofun, fun _ => hsp'⟩
  refine .cons (.of_quiet rfl nofun nofun) hυ (.ret ⟨hret, ?_⟩)
  intro hfits _
  exact ⟨hfp.trans (h.saved hfits).1, hlr.trans (h.saved hfits).2⟩

theorem Framed.runsWith_takeDown (h : Framed cx σ₀ σ) :
    RunsWith C (Kept cx.frame σ₀) (cx.takeDown ++ .ret :: code) σ := by
  unfold Context.takeDown
  refine .cons (.of_quiet rfl nofun nofun) rfl ?_
  by_cases hpos : 0 < cx.frame.size
  · simp only [hpos, if_true]
    refine .cons (.of_quiet rfl nofun nofun) (Machine.exec_move ..) (h.runsWith_pop ?_ rfl)
    exact (Machine.State.setReg_regs_self ..).trans h.fp
  · have hzero : cx.frame.size = 0 := by omega
    simp only [hpos, if_false]
    exact h.runsWith_pop (h.sp.trans (by simp [hzero])) rfl

section Layout

variable {s s' : State} {seg : Segment} {u : Unit}

/-- The code of operations is that of the body's instructions. -/
theorem plain_of_codeOfAll {ops : List (Located Op)} {is : List (Located Instruction)}
    (hs : WellPlaced cx s)
    (h : codeOfAll cx (ops.map (fun o => ⟨.op o.val, o.span⟩) ++ is) s = .ok seg)
    (hd : seg.diagnostic = none) :
    ∃ s' c, s'.code = s.code ++ c ∧ (∀ i ∈ c, Plain cx i) ∧ WellPlaced cx s' ∧
      codeOfAll cx is s' = .ok seg := by
  induction ops generalizing s with
  | nil => exact ⟨s, [], by simp, by simp, hs, h⟩
  | cons o ops ih =>
    obtain ⟨s₁, hs₁, h, -⟩ := proceed_eq_ok.1 ⟨h, hd⟩
    obtain ⟨c₁, hc₁, hplain₁⟩ := (Appends.codeOfOp hs o.val).of_ok hs₁
    obtain ⟨s₂, c₂, hc₂, hplain₂, hs₂, h⟩ := ih (hs.codeOfOp hs₁) h
    exact ⟨s₂, c₁ ++ c₂, by rw [hc₂, hc₁, List.append_assoc],
      List.forall_mem_append.2 ⟨hplain₁, hplain₂⟩, hs₂, h⟩

theorem StoresParam.plain {p : Variable × Register} (h : StoresParam cx p i) : Plain cx i := by
  obtain ⟨-, o, ho, rfl⟩ := h
  exact .store ho p.2

/-- How the code of a function is laid out, up to its first return. -/
theorem codeOfFunc_layout {t : Target} {f : Func} (hf : f.isComplete = true)
    (hseg : codeOfFunc t f = .ok seg) (hd : seg.diagnostic = none) :
    (Context.frame ⟨t, f⟩).size ≤ Frame.maxSize ∧ ∃ c rest,
      seg.code = Context.exported ⟨t, f⟩ ++ Context.enter ⟨t, f⟩ ++
        (c ++ (Context.takeDown ⟨t, f⟩ ++ .ret :: rest)) ∧ ∀ i ∈ c, Plain ⟨t, f⟩ i := by
  obtain ⟨s₁, hs₁, hcode, -⟩ := proceed_eq_ok.1 ⟨hseg, hd⟩
  have hplaced : WellPlaced ⟨t, f⟩ s₁ := wellPlaced_of_prologue hs₁
  obtain ⟨-, -, hsize, -, c₁, hc₁, rfl⟩ := prologue_eq_ok.1 hs₁
  have hparams : ∀ i ∈ c₁, Plain ⟨t, f⟩ i := by
    intro i hi
    obtain ⟨k, hk, rfl⟩ := List.getElem_of_mem hi
    exact (hc₁.get (by rw [hc₁.length_eq]; exact hk) hk).plain
  -- The first block is complete, and its return is the first.
  obtain ⟨blk, blks, hblks⟩ : ∃ blk blks, f.blocks = blk :: blks := by
    cases h : f.blocks with
    | nil => simp [Func.isComplete, h] at hf
    | cons blk blks => exact ⟨blk, blks, rfl⟩
  obtain ⟨r, hr⟩ : ∃ r, blk.terminator = some r := by
    apply Option.isSome_iff_exists.1
    simp only [Func.isComplete, hblks, List.all_cons, Bool.and_eq_true] at hf
    exact hf.2.1
  have hinstrs : f.instructions = blk.body.map (fun o => ⟨.op o.val, o.span⟩) ++
      (⟨.ret r.val, r.span⟩ :: blks.flatMap (·.instructions)) := by
    simp [Func.instructions, hblks, Block.instructions, hr]
  rw [hinstrs] at hcode
  obtain ⟨s₂, c₂, hc₂, hplain₂, hs₂, hcode⟩ := plain_of_codeOfAll hplaced hcode hd
  obtain ⟨s₃, hs₃, hcode, -⟩ := proceed_eq_ok.1 ⟨hcode, hd⟩
  obtain ⟨c₃, hc₃, hplain₃⟩ := plain_of_codeOf_ret hs₂ hs₃
  obtain ⟨rest, hrest, -⟩ := codeOfAll_code (hs₂.codeOf hs₃) hsize hcode
  refine ⟨hsize, c₁ ++ c₂ ++ c₃, rest, ?_, ?_⟩
  · simp [hrest, hc₃, hc₂]
  · exact List.forall_mem_append.2 ⟨List.forall_mem_append.2 ⟨hparams, hplain₂⟩, hplain₃⟩

end Layout

/-- Functions keep the stack and the calling convention. Entered at its label with the stack aligned,
whatever is in the registers and whatever its callees do otherwise, the code of a function runs up to
a return, and all that it executes on the way conforms; with room for the frame on the stack, the
caller's registers come back. -/
theorem convention_kept {t : Target} {m : Module} {s : Selected} {f : Func}
    (hs : selectModule t m = .ok s) (hf : f ∈ m.functions)
    (hcode : codeOfFunc t f = .ok ⟨code, none⟩) (halign : 16 ∣ (σ.regs .sp).toNat)
    (hintact : ∀ c υ, Intact υ (C.after c υ)) :
    ∃ before after, s.code = before ++ (code ++ after) ∧
      ∃ tr, trace C (codeAt f.name (code ++ after)) σ = some tr ∧
        (∀ v ∈ tr, Conforms (.ofFunc f) σ v.1 v.2) ∧
        (16 + (Frame.ofFunc f).size ≤ (σ.regs .sp).toNat → ∀ v ∈ tr, Restores σ v.1 v.2) := by
  obtain ⟨hm, segs, hsegs, rfl⟩ := selectModule_eq_ok.1 hs
  have hcomplete : f.isComplete = true := by
    simp only [Module.isComplete, Bool.and_eq_true, List.all_eq_true] at hm
    exact hm.2 f hf
  obtain ⟨hsize, c, rest, rfl, hplain⟩ := codeOfFunc_layout hcomplete hcode rfl
  obtain ⟨before, after, happend, -⟩ := exists_append_of_mem hsegs hf hcode
  refine ⟨before, after, happend, ?_⟩
  rw [List.append_assoc, codeAt_enter ⟨t, f⟩, List.append_assoc c, List.append_assoc]
  have hruns : RunsWith C (Kept (.ofFunc f) σ) (Context.enter ⟨t, f⟩ ++
      (c ++ (Context.takeDown ⟨t, f⟩ ++ .ret :: (rest ++ after)))) σ := by
    refine runsWith_enter fun τ hτ => RunsWith.append (I := Framed ⟨t, f⟩ σ) ?_ ?_ hτ
    · intro i hi υ hυ
      exact hυ.step (hplain i hi) hsize halign hintact
    · intro υ hυ
      exact hυ.runsWith_takeDown
  obtain ⟨tr, htr, hall⟩ := hruns
  exact ⟨tr, htr, fun v hv => (hall v hv).toConforms, fun hfits v hv => (hall v hv).restores hfits⟩

/-- Callees that wipe all registers and all memory that they may. -/
def wipingCallees : Callees fun _ _ => 0 where
  after c σ := {
    regs := fun r => if r = .fp ∨ r = .sp then σ.regs r else 0
    mem := fun a => if σ.regs .sp ≤ a then σ.mem a else 0
    calls := σ.calls ++ [c] }
  room := 0
  answered _ _ _ := ⟨rfl, rfl, rfl, fun _ ha => if_pos ha, rfl⟩

theorem convention_kept_sample :
    ∃ s code before after tr, selectModule .darwin sampleModule = .ok s ∧
      codeOfFunc .darwin sampleFunction = .ok ⟨code, none⟩ ∧ s.code = before ++ (code ++ after) ∧
      trace wipingCallees (codeAt "f" (code ++ after)) sampleState = some tr ∧
      ∀ v ∈ tr, Conforms (.ofFunc sampleFunction) sampleState v.1 v.2 ∧
        Restores sampleState v.1 v.2 := by
  obtain ⟨before, after, hs, tr, htr, hall, hback⟩ := convention_kept (C := wipingCallees)
    (t := .darwin) (m := sampleModule) (σ := sampleState) rfl (List.mem_singleton_self _) rfl
    (by decide) fun c υ => (wipingCallees.answered c υ (Nat.zero_le _)).intact
  have hroom : 16 + (Frame.ofFunc sampleFunction).size ≤ (sampleState.regs .sp).toNat := by decide
  exact ⟨_, _, before, after, tr, rfl, rfl, hs, htr, fun v hv => ⟨hall v hv, hback hroom v hv⟩⟩

end Straightline.Selection
