import Straightline.Proofs.Selection.Emission
import Straightline.Proofs.Selection.Simulation

/-!
Whole functions: entry sets up the frame that the simulation of the body starts from, and the return
takes it down again.
-/
namespace Straightline.Selection

open IR
open Machine (Instr Operand Register Word Callees Restored words codeAt)

variable {O : Oracle Word} {C : Callees O} {room : Nat} {X : Outside} {cx : Context} {s s' : State}
  {σ₀ σ τ : Machine.State} {st st' : Store Word} {seg : Segment}

theorem InFrame.of_pushed (hsize : cx.frame.size ≤ Frame.maxSize)
    (hroom : room + 16 + cx.frame.size ≤ (σ₀.regs .sp).toNat)
    (hfp : σ.regs .fp = σ₀.regs .sp - 16)
    (hsp : σ.regs .sp = σ₀.regs .sp - 16 - BitVec.ofNat 64 cx.frame.size)
    (hmem : σ.mem = (σ₀.mem.setWord (σ₀.regs .sp - 16) (σ₀.regs .fp)).setWord
      (σ₀.regs .sp - 16 + 8) (σ₀.regs .lr)) : InFrame room cx σ₀ σ := by
  refine ⟨hsize, hroom, hfp, hsp, ?_, ?_, ?_⟩
  · rw [hmem]
    exact Machine.Memory.word_setWord_next ..
  · rw [hmem]
    exact Machine.Memory.word_setWord_self ..
  · intro a ha
    rw [hmem]
    refine (Machine.Memory.setWord_of_ge ?_).trans (Machine.Memory.setWord_of_ge ?_)
    all_goals bv_omega

/-- The registers of the caller go to the stack, and below them there is room for the slots. -/
theorem exec_enter (hsize : cx.frame.size ≤ Frame.maxSize)
    (hroom : room + 16 + cx.frame.size ≤ (σ.regs .sp).toNat) :
    ∃ τ, Machine.execAll C cx.enter σ = some τ ∧ InFrame room cx σ τ ∧
      (∀ r ∈ Register.arguments, τ.regs r = σ.regs r) ∧ τ.calls = σ.calls := by
  have haddr : Machine.address σ .sp (-16) = σ.regs .sp - 16 := by
    change σ.regs .sp + -16 = _
    bv_omega
  -- The state once the pair is on the stack and the frame pointer at it.
  let pushed := (((σ.setWord (σ.regs .sp - 16) (σ.regs .fp)).setWord (σ.regs .sp - 16 + 8)
    (σ.regs .lr)).setReg .sp (σ.regs .sp - 16)).setReg .fp (σ.regs .sp - 16)
  have hpush : Machine.execAll C [.label cx.function.name, .remark "Function prologue",
      .storePair .fp .lr .sp (-16), .move .fp .sp] σ = some pushed := by
    simp [Machine.execAll, haddr, pushed]
  have hregs : ∀ r ∈ Register.arguments, pushed.regs r = σ.regs r := by
    intro r hr
    simp only [pushed]
    rw [Machine.State.setReg_regs_of_ne _ _ (ne_fp_of_mem_arguments hr).symm,
      Machine.State.setReg_regs_of_ne _ _ (ne_sp_of_mem_arguments hr).symm]
    rfl
  by_cases hpos : 0 < cx.frame.size
  · refine ⟨pushed.setReg .sp (σ.regs .sp - 16 - BitVec.ofNat 64 cx.frame.size), ?_, ?_, ?_, rfl⟩
    · simp only [Context.enter, hpos, if_true]
      refine Machine.execAll_trans hpush ?_
      rw [Machine.execAll_singleton, Machine.exec_arith rfl rfl]
      simp [pushed, Machine.State.setReg_regs]
    · apply InFrame.of_pushed hsize hroom _ _ rfl
      · simp [pushed, Machine.State.setReg_regs]
      · simp
    · intro r hr
      rw [Machine.State.setReg_regs_of_ne _ _ (ne_sp_of_mem_arguments hr).symm, hregs r hr]
  · have hzero : cx.frame.size = 0 := by omega
    refine ⟨pushed, ?_, ?_, hregs, rfl⟩
    · simpa only [Context.enter, hpos, if_false, List.append_nil] using hpush
    · apply InFrame.of_pushed hsize hroom _ _ rfl
      · simp [pushed]
      · simp [pushed, Machine.State.setReg_regs, hzero]

/-- What is on top of the stack goes to the registers for the frame and the return address. -/
theorem exec_loadPair_sp {a : Word} (hsp : τ.regs .sp = a - 16) :
    ∃ υ, (Instr.loadPair .fp .lr .sp 16).exec C τ = some υ ∧ υ.regs .sp = a ∧
      υ.regs .fp = τ.mem.word (a - 16) ∧ υ.regs .lr = τ.mem.word (a - 16 + 8) ∧ υ.mem = τ.mem ∧
      υ.regs .r0 = τ.regs .r0 ∧ υ.calls = τ.calls := by
  have haddr : Machine.address τ .sp 16 = a := by
    change τ.regs .sp + 16 = _
    rw [hsp]
    bv_omega
  refine ⟨_, Machine.exec_loadPair .., ?_, ?_, ?_, rfl, ?_, rfl⟩
  · simp [Machine.State.setReg_regs, haddr]
  · rw [Machine.State.setReg_regs_of_ne _ _ (by decide), Machine.State.setReg_regs_self, hsp]
  · rw [Machine.State.setReg_regs_self, hsp]
  · simp [Machine.State.setReg_regs]

theorem exec_pop (h : InFrame room cx σ₀ σ) (hsp : τ.regs .sp = σ₀.regs .sp - 16)
    (hmem : τ.mem = σ.mem) :
    ∃ υ, Machine.execAll C [.loadPair .fp .lr .sp 16] τ = some υ ∧ Restored σ₀ υ ∧
      υ.regs .r0 = τ.regs .r0 ∧ υ.calls = τ.calls := by
  obtain ⟨υ, hυ, hsp', hfp, hlr, hmem', hrest⟩ := exec_loadPair_sp (C := C) hsp
  rw [hmem] at hfp hlr hmem'
  refine ⟨υ, (Machine.execAll_singleton _).trans hυ, ⟨hsp', hfp.trans h.saved_fp,
    hlr.trans h.saved_lr, ?_⟩, hrest⟩
  intro a ha
  exact (congrFun hmem' a).trans (h.above a ha)

/-- The frame is taken down and the caller's registers are back. -/
theorem exec_takeDown (h : InFrame room cx σ₀ σ) :
    ∃ τ, Machine.execAll C cx.takeDown σ = some τ ∧ Restored σ₀ τ ∧
      τ.regs .r0 = σ.regs .r0 ∧ τ.calls = σ.calls := by
  have hremark : Machine.execAll C [.remark "Function epilogue"] σ = some σ := by
    rw [Machine.execAll_singleton, Machine.exec_remark]
  simp only [Context.takeDown]
  by_cases hpos : 0 < cx.frame.size
  · have hmove : Machine.execAll C [.move .sp .fp] σ = some (σ.setReg .sp (σ.regs .fp)) := by
      rw [Machine.execAll_singleton, Machine.exec_move]
    simp only [hpos, if_true]
    obtain ⟨τ, hpop, hback⟩ :=
      exec_pop (C := C) h ((Machine.State.setReg_regs_self σ .sp _).trans h.fp) rfl
    exact ⟨τ, Machine.execAll_trans (Machine.execAll_trans hremark hmove) hpop, hback⟩
  · have hzero : cx.frame.size = 0 := by omega
    simp only [hpos, if_false, List.append_nil]
    obtain ⟨τ, hpop, hback⟩ := exec_pop (C := C) h (h.sp.trans (by simp [hzero])) rfl
    exact ⟨τ, Machine.execAll_trans hremark hpop, hback⟩

theorem Sim.storeParams {ps : List (Variable × Register)} {c : List Instr}
    (h : Sim X cx σ₀ st s σ) (hnone : ∀ id, s.place? id = none)
    (hc : List.Forall₂ (StoresParam cx) ps c) :
    ∃ τ, Machine.execAll C c σ = some τ ∧ Sim X cx σ₀
      { st with cells := setCells st.cells (ps.map fun p => (p.1.name, σ.regs p.2)) } s τ := by
  induction hc generalizing st σ with
  | nil => exact ⟨σ, rfl, h⟩
  | @cons p i ps c hi _ ih =>
    obtain ⟨-, o, ho, rfl⟩ := hi
    have hstored := h.setCell ho (fun id _ => by simp [hnone id]) (σ.regs p.2)
    obtain ⟨τ, hτ, hsim⟩ := ih hstored
    exact ⟨τ, hτ, hsim⟩

/-- The parameters arrive in the argument registers. -/
theorem zip_args {params : List Variable} {args : List Word}
    (hlen : args.length = params.length) (hmax : params.length ≤ Register.arguments.length)
    (hargs : (Register.arguments.take args.length).map σ.regs = args) :
    (params.map (·.name)).zip args =
      (params.zip Register.arguments).map fun p => (p.1.name, σ.regs p.2) := by
  apply List.ext_getElem
  · simp
    omega
  · intro i h₁ h₂
    simp only [List.length_zip, List.length_map] at h₁
    have hi : args[i] = σ.regs Register.arguments[i] := by
      have hget := congrArg (·[i]?) hargs
      simp only [List.getElem?_map, List.getElem?_take] at hget
      rw [if_pos (by omega), List.getElem?_eq_getElem (by omega), List.getElem?_eq_getElem (by omega)]
        at hget
      exact (Option.some.inj hget).symm
    simp [hi]

/-- What reaches the body is the machine with the parameters in their slots. -/
theorem exec_prologue (cx : Context) {args : List Word} {history : List (Call Word)} {u : Unit}
    (hs : prologue cx s = .ok u s') (hcode : s.code = []) (hnone : ∀ id, s.place? id = none)
    (hroom : X.room + 16 + cx.frame.size ≤ (σ.regs .sp).toNat)
    (hlen : args.length = cx.function.params.length)
    (hargs : (Register.arguments.take args.length).map σ.regs = args)
    (hcalls : σ.calls = X.record history) :
    s'.pending = s.pending ∧ ∃ c τ, s'.code = cx.exported ++ cx.enter ++ c ∧
      Machine.execAll C (cx.enter ++ c) σ = some τ ∧
      Sim X cx σ (cx.function.start args history) s' τ := by
  obtain ⟨-, -, hsize, hmax, c, hc, rfl⟩ := prologue_eq_ok.1 hs
  have hmax : cx.function.params.length ≤ Register.arguments.length :=
    Nat.le_trans hmax (Nat.min_le_right _ _)
  obtain ⟨σ₁, hσ₁, hframe, hregs, hcalls₁⟩ := exec_enter hsize hroom
  have hstart : Sim X cx σ { cells := fun _ => none, calls := history } s σ₁ := by
    refine ⟨hframe, hcalls₁.trans hcalls, ?_, ?_, ?_⟩
    · intro x w hx
      cases hx
    · intro id _ p w hp
      simp [hnone id] at hp
    · intro id p hp
      simp [hnone id] at hp
  obtain ⟨τ, hτ, hsim⟩ := hstart.storeParams hnone hc
  refine ⟨rfl, c, τ, by simp [hcode], Machine.execAll_trans hσ₁ hτ, ?_⟩
  have hargs₁ : (Register.arguments.take args.length).map σ₁.regs = args := by
    refine (List.map_congr_left ?_).trans hargs
    intro r hr
    exact hregs r (List.mem_of_mem_take hr)
  rw [Func.start, zip_args hlen hmax hargs₁]
  exact hsim.extended _

/-- The operation is matched wherever it stands in the code of a function; `A` says of a point in the
code and a machine that this is where the machine has come to. -/
def Matched (X : Outside) (cx : Context) (σ₀ : Machine.State) (seg : Segment) (P : Oracle Word)
    (A : State → Machine.State → Prop) (o : Op) : Prop :=
  ∀ st st' s s' σ rest is, Sim X cx σ₀ st s σ → A s σ → codeOfOp cx o s = .ok () s' →
    o.exec words P st = some st' → s.pending.Perm (ids o.operands ++ rest) →
    codeOfAll cx is s' = .ok seg → ∃ τ, A s' τ ∧ Sim X cx σ₀ st' s' τ

/-- A run of the body is matched step by step. -/
theorem Sim.body {P : Oracle Word} {A : State → Machine.State → Prop} {ops : List (Located Op)}
    {is : List (Located Instruction)} (h : Sim X cx σ₀ st s σ) (hA : A s σ)
    (hstep : ∀ o ∈ ops, Matched X cx σ₀ seg P A o.val)
    (hexec : IR.execAll words P ops st = some st')
    (hcode : codeOfAll cx (ops.map (fun o => ⟨.op o.val, o.span⟩) ++ is) s = .ok seg)
    (hd : seg.diagnostic = none)
    (hp : s.pending.Perm (readsOf (ops.map (fun o => ⟨.op o.val, o.span⟩) ++ is))) :
    ∃ s' τ, A s' τ ∧ Sim X cx σ₀ st' s' τ ∧
      codeOfAll cx is s' = .ok seg ∧ s'.pending.Perm (readsOf is) := by
  induction ops generalizing st s σ with
  | nil =>
    obtain rfl := Option.some.inj hexec
    exact ⟨s, σ, hA, h, hcode, hp⟩
  | cons o ops ih =>
    obtain ⟨st₁, ho, hexec⟩ := Option.bind_eq_some_iff.1 hexec
    obtain ⟨s₁, hs₁, hcode, -⟩ := proceed_eq_ok.1 ⟨hcode, hd⟩
    obtain ⟨hown, hstep⟩ := List.forall_mem_cons.1 hstep
    obtain ⟨σ₁, hA₁, hsim₁⟩ := hown _ _ _ _ _ _ _ h hA hs₁ ho hp hcode
    exact ih hsim₁ hA₁ hstep hexec hcode (codeOfOp_perm h.placed hs₁ hp)

/-- A function entered at `σ` has returned at `τ` as the behaviour `b` has it. An entry point that
returns nothing returns zero. -/
structure Finished (cx : Context) (b : Behaviour Word) (σ τ : Machine.State) : Prop where
  restored : Restored σ τ
  calls : τ.calls = b.calls.map (·.rename cx.target.callee)
  value : ∀ w, b.value = some w → τ.regs Register.result = w
  zero : b.value = none → cx.isEntry = true → τ.regs Register.result = 0

/-- The code of a return leaves the value in the result register and the frame taken down. -/
theorem Sim.ret {v : Option Value} {b : Behaviour Word} {rest : List Nat} {u : Unit}
    (h : Sim X cx σ₀ st s σ) (hs : codeOf cx (.ret v) s = .ok u s')
    (hb : returned words st v = some b) (hp : s.pending.Perm (ids v.toList ++ rest)) :
    ∃ c τ, s'.code = s.code ++ (c ++ [.ret]) ∧ Machine.execAll C c σ = some τ ∧ Restored σ₀ τ ∧
      τ.calls = X.record b.calls ∧ (∀ w, b.value = some w → τ.regs Register.result = w) ∧
      (b.value = none → cx.isEntry = true → τ.regs Register.result = 0) := by
  cases v with
  | some v =>
    obtain ⟨w, hw, hb⟩ := Option.bind_eq_some_iff.1 hb
    obtain rfl := Option.some.inj hb
    obtain ⟨s₁, hf, -, rfl⟩ := codeOfReturn_some_eq_ok.1 hs
    obtain ⟨⟨c, hc, hrun⟩, hsim⟩ := h.fetch (C := C) (by decide) hf hw (mem_pending hp)
    obtain ⟨τ, hτ, hback, hr, hcalls⟩ := exec_takeDown (C := C) hsim.frame
    refine ⟨c ++ cx.takeDown, τ, by simp [hc, Context.leave_eq], Machine.execAll_trans hrun hτ,
      hback, hcalls.trans hsim.calls, ?_, nofun⟩
    rintro _ ⟨⟩
    exact hr.trans (Machine.State.setReg_regs_self ..)
  | none =>
    obtain rfl := Option.some.inj hb
    obtain ⟨hfree, -, rfl⟩ := codeOfReturn_none_eq_ok.1 hs
    by_cases hentry : cx.isEntry = true
    · have hzero : Machine.execAll C [.moveImm .r0 0] σ = some (σ.setReg .r0 0) :=
        Machine.execAll_singleton _
      have hsim := h.setReg (w := 0) (by decide) (hfree hentry)
      obtain ⟨τ, hτ, hback, hr, hcalls⟩ := exec_takeDown (C := C) hsim.frame
      exact ⟨[.moveImm .r0 0] ++ cx.takeDown, τ, by simp [hentry, Context.leave_eq],
        Machine.execAll_trans hzero hτ, hback, hcalls.trans h.calls, nofun, fun _ _ => hr⟩
    · obtain ⟨τ, hτ, hback, -, hcalls⟩ := exec_takeDown (C := C) h.frame
      exact ⟨cx.takeDown, τ, by simp [hentry, Context.leave_eq], hτ, hback,
        hcalls.trans h.calls, nofun, fun _ he => (hentry he).elim⟩

theorem codeAt_enter (cx : Context) (rest : List Instr) :
    codeAt cx.function.name (cx.exported ++ cx.enter ++ rest) = cx.enter ++ rest := by
  have hexported : ∀ i ∈ cx.exported, i ≠ .label cx.function.name := by
    rintro i hi rfl
    unfold Context.exported at hi
    split at hi <;> simp [Instr.label, Instr.global] at hi
  rw [List.append_assoc, codeAt_append hexported]
  simp [codeAt, Context.enter]

/-- The code of a function, run from its label, behaves as the function does. -/
theorem run_codeOfFunc {t : Target} {f : Func} {args : List Word} {history : List (Call Word)}
    {b : Behaviour Word} (hseg : codeOfFunc t f = .ok seg) (hd : seg.diagnostic = none)
    (hroom : C.room + 16 + (Frame.ofFunc f).size ≤ (σ.regs .sp).toNat)
    (hlen : args.length = f.params.length)
    (hargs : (Register.arguments.take args.length).map σ.regs = args)
    (hcalls : σ.calls = history.map (·.rename t.callee))
    (hb : f.run words (O.under t.callee) args history = some b) (k : List Instr) :
    ∃ τ, Machine.run C (codeAt f.name (seg.code ++ k)) σ = some τ ∧ Finished ⟨t, f⟩ b σ τ := by
  obtain ⟨s₁, hs₁, hcode, -⟩ := proceed_eq_ok.1 ⟨hseg, hd⟩
  obtain ⟨hpend, c₁, σ₁, hc₁, hrun₁, hsim₁⟩ :=
    exec_prologue (C := C) (X := .of C t) ⟨t, f⟩ hs₁ rfl (fun _ => rfl) hroom hlen hargs hcalls
  -- The first block is run, and its return is the last thing that is.
  obtain ⟨blk, hblk, hb⟩ := Option.bind_eq_some_iff.1 hb
  obtain ⟨blks, hblks⟩ := List.head?_eq_some_iff.1 hblk
  obtain ⟨tm, htm, hb⟩ := Option.bind_eq_some_iff.1 hb
  obtain ⟨st₂, hexec, hret⟩ := Option.bind_eq_some_iff.1 hb
  have hinstrs : f.instructions = blk.body.map (fun o => ⟨.op o.val, o.span⟩) ++
      (⟨.ret tm.val, tm.span⟩ :: blks.flatMap (·.instructions)) := by
    simp [Func.instructions, hblks, Block.instructions, htm]
  have hp : s₁.pending.Perm (readsOf f.instructions) := by
    rw [hpend]
    exact .refl _
  rw [hinstrs] at hcode hp
  have hstep : ∀ o ∈ blk.body, Matched (.of C t) ⟨t, f⟩ σ seg (O.under t.callee)
      (Emits C s₁ · σ₁ ·) o.val := by
    intro o _ st st' s s' σ' rest is hsim hemits hs ho hp _
    obtain ⟨τ, hrun, hsim⟩ := hsim.step hs ho hp
    exact ⟨τ, hemits.trans hrun, hsim⟩
  obtain ⟨s₂, σ₂, ⟨c₂, hc₂, hrun₂⟩, hsim₂, hcode, hp⟩ :=
    hsim₁.body (.refl rfl) hstep hexec hcode hd hp
  obtain ⟨s₃, hs₃, hcode, -⟩ := proceed_eq_ok.1 ⟨hcode, hd⟩
  obtain ⟨c₃, τ, hc₃, hrun₃, hback, hcalls, hvalue, hzero⟩ := hsim₂.ret (C := C) hs₃ hret hp
  obtain ⟨c₄, hc₄, -⟩ := codeOfAll_code (hsim₂.placed.codeOf hs₃) hsim₂.frame.size_le hcode
  refine ⟨τ, ?_, hback, hcalls, hvalue, hzero⟩
  have hall : seg.code ++ k = Context.exported ⟨t, f⟩ ++ Context.enter ⟨t, f⟩ ++
      (c₁ ++ (c₂ ++ (c₃ ++ (.ret :: (c₄ ++ k))))) := by
    simp [hc₄, hc₃, hc₂, hc₁]
  rw [hall, codeAt_enter ⟨t, f⟩, ← List.append_assoc, Machine.run_append_of_execAll hrun₁,
    Machine.run_append_of_execAll hrun₂, Machine.run_append_of_execAll hrun₃, Machine.run_ret]

/-- Code generation preserves meaning: wherever a function of a module has code and its block code
goes through, the module's code, entered at the function's label, makes the same calls and returns
the same value to the same place. -/
theorem selected_code_behaves {t : Target} {m : Module} {s : Selected} {f : Func}
    {code : List Instr} {args : List Word} {history : List (Call Word)} {b : Behaviour Word}
    (hs : selectModule t m = .ok s) (hf : f ∈ m.functions)
    (hcode : codeOfFunc t f = .ok ⟨code, none⟩)
    (hroom : C.room + 16 + (Frame.ofFunc f).size ≤ (σ.regs .sp).toNat)
    (hlen : args.length = f.params.length)
    (hargs : (Register.arguments.take args.length).map σ.regs = args)
    (hcalls : σ.calls = history.map (·.rename t.callee))
    (hb : f.run words (O.under t.callee) args history = some b) :
    ∃ τ, Machine.run C (codeAt f.name s.code) σ = some τ ∧ Finished ⟨t, f⟩ b σ τ := by
  obtain ⟨k, hk⟩ := codeAt_selectModule hs hf hcode
  rw [hk]
  exact run_codeOfFunc hcode rfl hroom hlen hargs hcalls hb k

/-- Callees that change the result register only. -/
def quietCallees (O : Oracle Word) : Callees O where
  after c σ := ⟨(σ.setReg Register.result (O σ.calls c)).regs, σ.mem, σ.calls ++ [c]⟩
  room := 0
  answered c σ _ := ⟨by simp, rfl, rfl, fun _ _ => rfl, rfl⟩

/-- The square of what `a` exceeds the result of a call by. -/
def sampleFunction : Func where
  name := "f"
  params := [⟨"a", .int⟩, ⟨"b", .int⟩]
  result := .int
  span := .nowhere
  blocks := [{
    name := Block.entryName
    body := [.alloc ⟨"x", .int⟩,
      .load ⟨0, .int⟩ (.var ⟨"b", .int⟩),
      .call (some ⟨1, .int⟩) "print" [.temp ⟨0, .int⟩, .const (.int 5)],
      .store (.var ⟨"x", .int⟩) (.temp ⟨1, .int⟩),
      .load ⟨2, .int⟩ (.var ⟨"a", .int⟩),
      .load ⟨3, .int⟩ (.var ⟨"x", .int⟩),
      .binary .subtract ⟨4, .int⟩ (.temp ⟨2, .int⟩) (.temp ⟨3, .int⟩),
      .binary .multiply ⟨5, .int⟩ (.temp ⟨4, .int⟩) (.temp ⟨4, .int⟩)].map (⟨·, .nowhere⟩)
    terminator := some ⟨some (.temp ⟨5, .int⟩), .nowhere⟩ }]

def sampleState : Machine.State where
  regs
    | .r0 => 4
    | .r1 => 6
    | .sp => 4096
    | _ => 0
  mem := fun _ => 0
  calls := []

def sampleModule : Module where
  name := "sample"
  functions := [sampleFunction]

theorem selected_code_behaves_sample :
    ∃ s τ, selectModule .darwin sampleModule = .ok s ∧
      Machine.run (quietCallees fun _ _ => 7) (codeAt "f" s.code) sampleState = some τ ∧
      Finished ⟨.darwin, sampleFunction⟩ ⟨[⟨"print", [6, 5]⟩], some 9⟩ sampleState τ := by
  obtain ⟨τ, hτ⟩ := selected_code_behaves (C := quietCallees fun _ _ => 7) (t := .darwin)
    (m := sampleModule) (σ := sampleState) rfl (List.mem_singleton_self _) rfl (by decide) rfl rfl rfl
    (show sampleFunction.run words _ [4, 6] [] = _ by rfl)
  exact ⟨_, τ, rfl, hτ⟩

end Straightline.Selection
