import Straightline.Proofs.Lowering.Nesting
import Straightline.Proofs.Selection.Function
import Straightline.Proofs.Selection.Linking

/-!
A function's code in memory, with other functions beside it. While it runs, its calls go to these or
leave the image; if each of them is handled as its behaviour says, so is a call of the function.
-/
namespace Straightline.Selection

open IR
open Machine (Instr Register Word Callees Image Restored words codeAt symbols)

variable {O : Oracle Word}

/-- A call of the function that goes to its label with `room` on the stack comes back to the caller,
with the events of the behaviour under the target's names for them and with its value. -/
def Serves (C : Callees O) (M : Image) (t : Target) (room : Nat) (c : Call Word)
    (b : Behaviour Word) : Prop :=
  ∃ k, M.label? c.callee = some k ∧ ∀ σ : Machine.State, room ≤ (σ.regs .sp).toNat →
    (Register.arguments.take c.args.length).map σ.regs = c.args →
    ∃ τ, M.Steps C ⟨M.addr k, σ⟩ ⟨σ.regs .lr, τ⟩ ∧ Restored σ τ ∧
      τ.calls = σ.calls ++ b.calls.map (·.rename t.callee) ∧
      ∀ w, b.value = some w → τ.regs Register.result = w

/-- Someone takes the call: a function in the image, which returns a value if one is wanted, or
callees outside. -/
inductive Handled (C : Callees O) (M : Image) (t : Target) (room : Nat)
    (answer : Call Word → Option (Behaviour Word)) (result : Option Temporary) (c : Call Word) : Prop
  | inside {b : Behaviour Word} (hb : answer c = some b) (hname : t.callee c.callee = c.callee)
      (hserves : Serves C M t room c b) (hvalue : result ≠ none → ∃ w, b.value = some w)
  | outside (hb : answer c = some ⟨[c], none⟩)
      (hlabel : t.callee c.callee ∉ symbols .defineLabel M.code) (hresult : result = none)

/-- Calls show as their events, after those that were made before the function was entered. -/
def Outside.within (room : Nat) (t : Target) (answer : Call Word → Option (Behaviour Word))
    (before : List (Call Word)) : Outside :=
  ⟨room, fun calls => before ++ (events answer calls).map (·.rename t.callee)⟩

/-- The machine is at the point of the code up to which it was selected in `s`. -/
def Along (M : Image) (whole : List Instr) (s : State) (pc : Word) : Prop :=
  ∃ k, whole = s.code ++ k ∧ M.Holds pc k

variable {C : Callees O} {M : Image} {whole : List Instr} {s s' : State} {pc : Word}
  {σ₀ σ τ : Machine.State} {cx : Context} {st st' : Store Word} {room : Nat}
  {answer : Call Word → Option (Behaviour Word)} {before : List (Call Word)}

/-- The machine runs through code whose calls leave the image. -/
theorem Along.emits {ls : List String} (h : Along M whole s pc) (he : Emits C s s' σ τ)
    (hwhole : s'.code <+: whole) (hsymbols : symbols .call s'.code = symbols .call s.code ++ ls)
    (hls : ∀ l ∈ ls, l ∉ symbols .defineLabel M.code) :
    ∃ pc', Along M whole s' pc' ∧ M.Steps C ⟨pc, σ⟩ ⟨pc', τ⟩ := by
  obtain ⟨k, rfl, hpc⟩ := h
  obtain ⟨c, hc, hexec⟩ := he
  obtain ⟨k', hk'⟩ := hwhole
  rw [hc, List.append_assoc, List.append_cancel_left_eq] at hk'
  subst hk'
  rw [hc, Machine.symbols_append, List.append_cancel_left_eq] at hsymbols
  rw [← hsymbols] at hls
  obtain ⟨pc', hpc', hsteps⟩ := Image.steps_of_execAll hpc (Image.target?_eq_none hls) hexec
  exact ⟨pc', ⟨k', by simp [hc], hpc'⟩, hsteps⟩

/-- A call instruction for a function in the image goes there and comes back. -/
theorem Serves.call {t : Target} {c : Call Word} {b : Behaviour Word} {rs : List Register}
    {rest : List Instr} (h : Serves C M t room c b)
    (hpc : M.Holds pc (.call c.callee rs :: rest)) (hsp : room ≤ (σ.regs .sp).toNat)
    (hargs : (Register.arguments.take c.args.length).map σ.regs = c.args) :
    ∃ pc' τ, M.Holds pc' rest ∧ M.Steps C ⟨pc, σ⟩ ⟨pc', τ⟩ ∧ Machine.Intact σ τ ∧
      τ.calls = σ.calls ++ b.calls.map (·.rename t.callee) ∧
      ∀ w, b.value = some w → τ.regs Register.result = w := by
  obtain ⟨j, hj, hrun⟩ := h
  obtain ⟨pc', hpc', hstep⟩ := Image.step_call (C := C) hpc (show M.target? _ = some j from hj) σ
  -- The link register is none of those that carry arguments.
  have hlr : ∀ r ∈ Register.arguments, r ≠ .lr := by decide
  have hargs' : (Register.arguments.take c.args.length).map (σ.setReg .lr pc').regs = c.args := by
    refine (List.map_congr_left ?_).trans hargs
    intro r hr
    exact Machine.State.setReg_regs_of_ne _ _ (hlr r (List.mem_of_mem_take hr))
  obtain ⟨τ, hsteps, hback, hcalls, hvalue⟩ := hrun (σ.setReg .lr pc') hsp hargs'
  rw [Machine.State.setReg_regs_self] at hsteps
  exact ⟨pc', τ, hpc', .head hstep hsteps, ⟨hback.fp, hback.sp, hback.mem⟩, hcalls, hvalue⟩

variable {o : Op} {rest : List Nat} {u : Unit}

/-- Each operation is matched by its code in the image. -/
theorem Sim.stepIn (h : Sim (.within room cx.target answer before) cx σ₀ st s σ)
    (hs : codeOfOp cx o s = .ok u s')
    (ho : o.exec words (.ofAnswers words answer) st = some st')
    (hp : s.pending.Perm (ids o.operands ++ rest)) (hroom : C.room ≤ room)
    (hhandled : ∀ result g args, o = .call result g args → ∀ ws, ws.length = args.length →
      Handled C M cx.target room answer result ⟨g, ws⟩)
    (halong : Along M whole s pc) (hwhole : s'.code <+: whole) :
    ∃ pc' τ, Along M whole s' pc' ∧ M.Steps C ⟨pc, σ⟩ ⟨pc', τ⟩ ∧
      Sim (.within room cx.target answer before) cx σ₀ st' s' τ := by
  have hsymbols : symbols .call s'.code = _ := symbols_codeOfOp hs
  cases o with
  | call result g args =>
    obtain ⟨ws, hws, rfl⟩ := exec_call_eq_some.1 ho
    have hlen : ws.length = args.length := (mapM_eq_some_iff.1 hws).length_eq.symm
    cases hhandled result g args rfl ws hlen with
    | outside hb hlabel hresult =>
      have hevents : (Outside.within room cx.target answer before).record
          (st.calls ++ [⟨g, ws⟩]) = (Outside.within room cx.target answer before).record st.calls ++
            [⟨cx.target.callee g, ws⟩] := by
        simp [Outside.within, events_singleton hb, Call.rename]
      obtain ⟨τ, hemits, hsim⟩ := h.call (C := C) (P := .ofAnswers words answer) hroom hs hws hp
        hevents (by simp [hresult])
      obtain ⟨pc', hpc', hsteps⟩ := halong.emits hemits hwhole hsymbols
        (by simpa [Op.callee?] using hlabel)
      exact ⟨pc', τ, hpc', hsteps, hsim⟩
    | @inside b hb hname hserves hvalue =>
      -- Once the arguments are in place, the callee has the registers and the stack below the frame.
      obtain ⟨s₁, σ₁, hemits, hsim, hfree, hpassed, rfl⟩ := h.passArgs (C := C) hs hws hp
      simp only [State.answered_code, State.issued_code, hname] at hwhole hsymbols
      have hpassing : symbols .call s₁.code = symbols .call s.code ++ [] := by
        simpa [symbols, Instr.symbol?, Instr.call, Op.callee?, hname] using hsymbols
      obtain ⟨pc₁, ⟨k, rfl, hpc₁⟩, hsteps₁⟩ :=
        halong.emits hemits (List.IsPrefix.trans ⟨_, rfl⟩ hwhole) hpassing (List.forall_mem_nil _)
      obtain ⟨k, hk⟩ := hwhole
      rw [List.append_assoc, List.append_cancel_left_eq] at hk
      subst hk
      rw [← hlen] at hpassed
      obtain ⟨pc', τ, hpc', hsteps, hintact, hcalls, hresult⟩ :=
        hserves.call hpc₁ hsim.frame.room_le hpassed
      refine ⟨pc', τ, ⟨k, by simp [hname], hpc'⟩, hsteps₁.trans hsteps, ?_⟩
      apply (hsim.extended [_]).answered hfree ⟨g, ws⟩ result hintact
      · rw [hcalls, hsim.calls]
        simp [Outside.within, events_singleton hb]
      · rintro t rfl
        obtain ⟨w, hw⟩ := hvalue (by simp)
        rw [hresult w hw, Oracle.ofAnswers_eq hb hw]
  | alloc | store | load | binary =>
    obtain ⟨τ, hemits, hsim⟩ := h.op (C := C) hs ho hp (by rintro _ _ _ ⟨⟩)
    obtain ⟨pc', hpc', hsteps⟩ := halong.emits hemits hwhole hsymbols (by simp [Op.callee?])
    exact ⟨pc', τ, hpc', hsteps, hsim⟩

variable {seg : Segment} {post : List Instr} {ops : List (Located Op)}

theorem prefix_codeOfAll {is : List (Located Instruction)} (hs : WellPlaced cx s)
    (hsize : cx.frame.size ≤ Frame.maxSize) (h : codeOfAll cx is s = .ok seg) (post : List Instr) :
    s.code <+: seg.code ++ post := by
  obtain ⟨c, hc, -⟩ := codeOfAll_code hs hsize h
  exact ⟨c ++ post, by simp [hc]⟩

/-- The code of a return goes back to where the function was called from. -/
theorem Sim.retIn {X : Outside} {v : Option Value} {b : Behaviour Word}
    (h : Sim X cx σ₀ st s σ) (hs : codeOf cx (.ret v) s = .ok u s')
    (hb : returned words st v = some b) (hp : s.pending.Perm (ids v.toList ++ rest))
    (halong : Along M whole s pc) (hwhole : s'.code <+: whole) :
    ∃ τ, M.Steps C ⟨pc, σ⟩ ⟨σ₀.regs .lr, τ⟩ ∧ Restored σ₀ τ ∧ τ.calls = X.record b.calls ∧
      (∀ w, b.value = some w → τ.regs Register.result = w) ∧
      (b.value = none → cx.isEntry = true → τ.regs Register.result = 0) := by
  have hsymbols : symbols .call s'.code = symbols .call s.code := symbols_codeOfReturn hs
  obtain ⟨c, τ, hc, hexec, hback, hrest⟩ := h.ret (C := C) hs hb hp
  obtain ⟨k, rfl, hpc⟩ := halong
  obtain ⟨k', hk'⟩ := hwhole
  rw [hc, List.append_assoc, List.append_cancel_left_eq, List.append_assoc] at hk'
  subst hk'
  have hnone : symbols .call c = [] := by
    simp only [hc, Machine.symbols_append, List.append_right_eq_self, List.append_eq_nil_iff]
      at hsymbols
    exact hsymbols.1
  have htargets : ∀ i ∈ c, M.target? i = none := Image.target?_eq_none (by simp [hnone])
  obtain ⟨pc', hpc', hsteps⟩ := Image.steps_of_execAll hpc htargets hexec
  have hreturn := Image.step_ret (C := C) hpc' τ
  rw [hback.lr] at hreturn
  exact ⟨τ, hsteps.tail hreturn, hback, hrest⟩

/-- Whoever calls a function comes to its body, with the arguments in their slots. -/
theorem enters {args : List Word} (hs : prologue cx s = .ok u s') (hcode : s.code = [])
    (hnone : ∀ id, s.place? id = none)
    (hat : codeAt cx.function.name M.code = codeAt cx.function.name whole)
    (hwhole : s'.code <+: whole) (hlen : args.length = cx.function.params.length) :
    ∃ k, M.label? cx.function.name = some k ∧ ∀ (X : Outside) (σ : Machine.State),
      X.room + (16 + Frame.maxSize) ≤ (σ.regs .sp).toNat →
      (Register.arguments.take args.length).map σ.regs = args → σ.calls = X.record [] →
      ∃ pc τ, Along M whole s' pc ∧ M.Steps C ⟨M.addr k, σ⟩ ⟨pc, τ⟩ ∧
        Sim X cx σ (cx.function.start args []) s' τ := by
  obtain ⟨-, -, hsize, -, c, hc, hs'⟩ := prologue_eq_ok.1 hs
  have hcode' : s'.code = cx.exported ++ cx.enter ++ c := by simp [hs', hcode]
  obtain ⟨k', rfl⟩ := hwhole
  have henter : codeAt cx.function.name (s'.code ++ k') = cx.enter ++ c ++ k' := by
    rw [hcode', List.append_assoc, codeAt_enter, List.append_assoc]
  rw [henter] at hat
  obtain ⟨k, hk, hholds⟩ := Image.holds_codeAt (M := M) (l := cx.function.name)
    (by simp [hat, Context.enter])
  rw [hat] at hholds
  have hcalls : symbols .call (cx.enter ++ c) = [] := by
    simp [symbols_enter, symbols_storesParams hc]
  refine ⟨k, hk, ?_⟩
  intro X σ hroom hargs hcalls₀
  obtain ⟨-, c', τ, hc', hexec, hsim⟩ :=
    exec_prologue (C := C) cx hs hcode hnone (by omega) hlen hargs hcalls₀
  obtain rfl : c' = c := by simpa [hcode'] using hc'.symm
  obtain ⟨pc, hpc, hsteps⟩ :=
    Image.steps_of_execAll hholds (Image.target?_eq_none (by simp [hcalls])) hexec
  exact ⟨pc, τ, ⟨k', rfl, hpc⟩, hsteps, hsim⟩

/-- A call of a function is served if its code gets through and all calls that it makes are
handled. -/
theorem serves_codeOfFunc {t : Target} {f : Func} {name : String} {r : Located (Option Value)}
    {args : List Word} {b : Behaviour Word} (hblocks : f.blocks = [⟨name, ops, some r⟩])
    (hseg : codeOfFunc t f = .ok seg) (hd : seg.diagnostic = none)
    (hat : codeAt f.name M.code = codeAt f.name (seg.code ++ post)) (hroom : C.room ≤ room)
    (hhandled : ∀ o ∈ ops, ∀ result g args, o.val = .call result g args → ∀ ws,
      ws.length = args.length → Handled C M t room answer result ⟨g, ws⟩)
    (hlen : args.length = f.params.length)
    (hexec : IR.execAll words (.ofAnswers words answer) ops (f.start args []) = some st)
    (hret : returned words st r.val = some b) :
    Serves C M t (room + (16 + Frame.maxSize)) ⟨f.name, args⟩ ⟨events answer b.calls,
      b.value.or (if f.name = t.entryPoint then some 0 else none)⟩ := by
  have hinstrs : f.instructions =
      ops.map (fun o => ⟨.op o.val, o.span⟩) ++ [⟨.ret r.val, r.span⟩] := by
    simp [Func.instructions, hblocks, Block.instructions]
  obtain ⟨s₁, hs₁, hcode, -⟩ := proceed_eq_ok.1 ⟨hseg, hd⟩
  obtain ⟨-, -, hsize, -⟩ := prologue_eq_ok.1 hs₁
  obtain ⟨k, hk, henters⟩ := enters (C := C) hs₁ rfl (fun _ => rfl) hat
    (prefix_codeOfAll (wellPlaced_of_prologue hs₁) hsize hcode post) hlen
  refine ⟨k, hk, ?_⟩
  intro σ hsp hargs
  obtain ⟨pc₁, σ₁, halong₁, hsteps₁, hsim₁⟩ :=
    henters (.within room t answer σ.calls) σ hsp hargs (by simp [Outside.within, events])
  have hp : s₁.pending.Perm (readsOf f.instructions) := by
    obtain ⟨-, -, -, -, c, -, rfl⟩ := prologue_eq_ok.1 hs₁
    exact .refl _
  rw [hinstrs] at hcode hp
  have hstep : ∀ o ∈ ops, Matched (.within room t answer σ.calls) ⟨t, f⟩ σ seg
      (.ofAnswers words answer) (fun s τ => ∃ pc, Along M (seg.code ++ post) s pc ∧
        M.Steps C ⟨M.addr k, σ⟩ ⟨pc, τ⟩) o.val := by
    rintro o ho st st' s s' σ' rest is hsim ⟨pc, halong, hsteps⟩ hs hexec hp hcode
    obtain ⟨pc', τ, halong', hsteps', hsim'⟩ :=
      hsim.stepIn hs hexec hp hroom (hhandled o ho) halong
        (prefix_codeOfAll (hsim.placed.codeOfOp hs) hsize hcode post)
    exact ⟨τ, ⟨pc', halong', hsteps.trans hsteps'⟩, hsim'⟩
  obtain ⟨s₂, σ₂, ⟨pc₂, halong₂, hsteps₂⟩, hsim₂, hcode, hp⟩ :=
    hsim₁.body ⟨pc₁, halong₁, hsteps₁⟩ hstep hexec hcode hd hp
  obtain ⟨s₃, hs₃, hcode, -⟩ := proceed_eq_ok.1 ⟨hcode, hd⟩
  obtain ⟨τ, hsteps₃, hback, hcalls, hvalue, hzero⟩ :=
    hsim₂.retIn (C := C) hs₃ hret hp halong₂
      (prefix_codeOfAll (hsim₂.placed.codeOf hs₃) hsize hcode post)
  refine ⟨τ, hsteps₂.trans hsteps₃, hback, hcalls, ?_⟩
  intro w hw
  cases hb : b.value with
  | some v =>
    obtain rfl : v = w := by simpa [hb] using hw
    exact hvalue v hb
  | none =>
    rw [hb, Option.none_or] at hw
    split at hw
    next he =>
      cases hw
      exact hzero hb (by simp [Context.isEntry, Target.isEntryPoint, he])
    next => cases hw

end Straightline.Selection
