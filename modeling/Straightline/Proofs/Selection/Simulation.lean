import Straightline.Proofs.Selection.Bookkeeping
import Straightline.Proofs.Selection.Layout

/-!
Selected code does what block code does. The invariant ties the cells of a running function to
slots and its temporaries, while reads of them are to come, to where selection put them.
-/
namespace Straightline.Selection

open IR
open Machine (Instr Opcode Operand Register Word Callees Intact words)

/-- What is found at a place. -/
def Place.read (σ : Machine.State) : Place → Word
  | .imm n => n.toBitVec
  | .slot o => σ.mem.word (Machine.address σ .fp o)
  | .reg r => σ.regs r

/-- The machine `σ` is inside the frame of a function that was entered at `σ₀`; below the frame there
is `room` for callees. -/
structure InFrame (room : Nat) (cx : Context) (σ₀ σ : Machine.State) : Prop where
  size_le : cx.frame.size ≤ Frame.maxSize
  room : room + 16 + cx.frame.size ≤ (σ₀.regs .sp).toNat
  fp : σ.regs .fp = σ₀.regs .sp - 16
  sp : σ.regs .sp = σ₀.regs .sp - 16 - BitVec.ofNat 64 cx.frame.size
  saved_fp : σ.mem.word (σ₀.regs .sp - 16) = σ₀.regs .fp
  saved_lr : σ.mem.word (σ₀.regs .sp - 16 + 8) = σ₀.regs .lr
  /-- What the caller has on the stack is as it was. -/
  above : ∀ a, σ₀.regs .sp ≤ a → σ.mem a = σ₀.mem a

/-- What a function relies on from outside: how much stack its callees need, and how its calls show
in the machine's record of calls. -/
structure Outside where
  room : Nat
  record : List (Call Word) → List (Call Word)

/-- The machine `σ` holds what the running function `st` has computed, where the records of
selection say that it is. -/
structure Sim (X : Outside) (cx : Context) (σ₀ : Machine.State) (st : Store Word) (s : State)
    (σ : Machine.State) : Prop where
  frame : InFrame X.room cx σ₀ σ
  calls : σ.calls = X.record st.calls
  cells : ∀ x w, st.cells x = some w → ∃ o, cx.frame.offset? x = some o ∧ (Place.slot o).read σ = w
  temps : ∀ id ∈ s.pending, ∀ p w, s.place? id = some p → st.temps id = some w → p.read σ = w
  placed : WellPlaced cx s

variable {O : Oracle Word} (C : Callees O)

/-- Between the states `s` and `s'` code was selected that takes the machine from `σ` to `τ`. -/
def Emits (s s' : State) (σ τ : Machine.State) : Prop :=
  ∃ c, s'.code = s.code ++ c ∧ Machine.execAll C c σ = some τ

variable {C} {room : Nat} {X : Outside} {cx : Context} {s s' s'' : State}
  {σ₀ σ τ υ : Machine.State} {st : Store Word} {v : Value} {p : Place} {dst : Register} {w : Word}
  {u : Unit}

theorem Emits.refl (h : s'.code = s.code) : Emits C s s' σ σ := ⟨[], by simp [h], rfl⟩

theorem Emits.of_exec {i : Instr} (h : s'.code = s.code ++ [i]) (hi : i.exec C σ = some τ) :
    Emits C s s' σ τ := ⟨[i], h, by rw [Machine.execAll_singleton, hi]⟩

theorem Emits.trans (h : Emits C s s' σ τ) (h' : Emits C s' s'' τ υ) : Emits C s s'' σ υ := by
  obtain ⟨c, hc, hτ⟩ := h
  obtain ⟨d, hd, hυ⟩ := h'
  exact ⟨c ++ d, by rw [hd, hc, List.append_assoc], Machine.execAll_trans hτ hυ⟩

theorem ne_fp_of_mem_arguments (h : dst ∈ Register.arguments) : Register.fp ≠ dst := by
  rintro rfl
  simp [Register.arguments] at h

theorem ne_sp_of_mem_arguments (h : dst ∈ Register.arguments) : Register.sp ≠ dst := by
  rintro rfl
  simp [Register.arguments] at h

theorem Place.read_setReg (hp : p ≠ .reg dst) (hd : dst ∈ Register.arguments) :
    p.read (σ.setReg dst w) = p.read σ := by
  cases p with
  | imm n => rfl
  | slot o => simp only [read, Machine.address, Machine.State.setReg_mem,
      Machine.State.setReg_regs_of_ne _ _ (ne_fp_of_mem_arguments hd)]
  | reg r =>
    have hr : r ≠ dst := by simpa using hp
    exact Machine.State.setReg_regs_of_ne _ _ hr

theorem Place.exec_into : (p.into dst).exec C σ = some (σ.setReg dst (p.read σ)) := by
  cases p <;> rfl

theorem InFrame.setReg (h : InFrame room cx σ₀ σ) (hd : dst ∈ Register.arguments) :
    InFrame room cx σ₀ (σ.setReg dst w) where
  size_le := h.size_le
  room := h.room
  fp := (Machine.State.setReg_regs_of_ne _ _ (ne_fp_of_mem_arguments hd)).trans h.fp
  sp := (Machine.State.setReg_regs_of_ne _ _ (ne_sp_of_mem_arguments hd)).trans h.sp
  saved_fp := h.saved_fp
  saved_lr := h.saved_lr
  above := h.above

/-- A register that nothing is awaited from may be overwritten. -/
theorem Sim.setReg (h : Sim X cx σ₀ st s σ) (hd : dst ∈ Register.arguments) (hf : s.Free dst) :
    Sim X cx σ₀ st s (σ.setReg dst w) where
  frame := h.frame.setReg hd
  calls := h.calls
  cells := by
    intro x w hx
    obtain ⟨o, ho, hw⟩ := h.cells x w hx
    exact ⟨o, ho, (Place.read_setReg (by simp) hd).trans hw⟩
  temps := by
    intro id hid p w hp hw
    have hne : p ≠ .reg dst := by
      rintro rfl
      exact hf id hid hp
    exact (Place.read_setReg hne hd).trans (h.temps id hid p w hp hw)
  placed := h.placed

theorem Sim.extended (h : Sim X cx σ₀ st s σ) (c : List Instr) : Sim X cx σ₀ st (s.extended c) σ :=
  ⟨h.frame, h.calls, h.cells, h.temps, h.placed⟩

theorem Sim.spent (h : Sim X cx σ₀ st s σ) (v : Value) : Sim X cx σ₀ st (s.spent v) σ where
  frame := h.frame
  calls := h.calls
  cells := h.cells
  temps := by
    intro id hid p w hp hw
    rw [State.spent_place?] at hp
    exact h.temps id (State.mem_of_mem_spent hid) p w hp hw
  placed := h.placed.spent v

/-- A value may be recorded anywhere it can be read. -/
theorem Sim.settled (h : Sim X cx σ₀ st s σ) (hp : p.Usable cx)
    (hv : ∀ w, v.eval words st = some w → p.read σ = w) : Sim X cx σ₀ st (s.settled v p) σ where
  frame := h.frame
  calls := h.calls
  cells := h.cells
  temps := by
    intro id hid q w hq hw
    rw [State.settled_pending] at hid
    cases v with
    | temp t =>
      rw [State.settled_place?] at hq
      split at hq
      next he =>
        obtain rfl := Option.some.inj hq
        exact hv w (by rw [← hw, he]; rfl)
      next => exact h.temps id hid q w hq hw
    | const | var => exact h.temps id hid q w hq hw
  placed := h.placed.settled v hp

/-- A value is where it is found. -/
theorem Sim.locate (h : Sim X cx σ₀ st s σ) (hp : cx.locate s v = some p)
    (hw : v.eval words st = some w) (hid : ∀ id ∈ ids [v], id ∈ s.pending) : p.read σ = w := by
  cases v with
  | const c =>
    cases c with
    | int n =>
      obtain rfl := Option.some.inj hp
      exact Option.some.inj hw
    | float | string | bool => cases hp
  | var x =>
    simp only [Context.locate] at hp
    split at hp
    · obtain ⟨o, ho, rfl⟩ := Option.map_eq_some_iff.1 hp
      obtain ⟨o', ho', hread⟩ := h.cells x.name w hw
      obtain rfl : o' = o := Option.some.inj (ho'.symm.trans ho)
      exact hread
    · cases hp
  | temp t =>
    simp only [Context.locate] at hp
    split at hp
    · exact h.temps t.id (hid t.id (by simp [ids, Value.temp?])) p w hp hw
    · cases hp

/-- A value that is moved can be read where it was moved to. -/
theorem Sim.moved (h : Sim X cx σ₀ st s σ) (hd : dst ∈ Register.arguments) (hf : s.Free dst)
    (hread : p.read σ = w) (hw : v.eval words st = some w) :
    Emits C s (s.moved v p dst) σ (σ.setReg dst w) ∧
      Sim X cx σ₀ st (s.moved v p dst) (σ.setReg dst w) := by
  have hσ := h.setReg (w := w) hd hf
  have hexec : (p.into dst).exec C σ = some (σ.setReg dst w) := by rw [Place.exec_into, hread]
  cases p with
  | imm | slot => exact ⟨Emits.of_exec rfl hexec, hσ.extended _⟩
  | reg r =>
    refine ⟨Emits.of_exec (State.settled_code ..) hexec, ?_⟩
    apply (hσ.extended [_]).settled (Place.usable_reg hd)
    intro w' hw'
    obtain rfl : w = w' := Option.some.inj (hw.symm.trans hw')
    exact Machine.State.setReg_regs_self ..

/-- Reading a value into a register sets that register and no other. -/
theorem Sim.fetch (h : Sim X cx σ₀ st s σ) (hd : dst ∈ Register.arguments)
    (hf : fetch cx v dst s = .ok u s') (hw : v.eval words st = some w)
    (hid : ∀ id ∈ ids [v], id ∈ s.pending) :
    Emits C s s' σ (σ.setReg dst w) ∧ Sim X cx σ₀ st s' (σ.setReg dst w) := by
  obtain ⟨p, hp, hcase⟩ := fetch_eq_ok.1 hf
  have hread := h.locate hp hw hid
  have hspent : Emits C s (s.spent v) σ σ := Emits.refl (State.spent_code ..)
  obtain ⟨rfl, rfl⟩ | ⟨-, hfree, rfl⟩ := hcase
  · have hσ : σ.setReg dst w = σ := by
      rw [← hread]
      exact Machine.State.setReg_regs_eq σ dst
    rw [hσ]
    exact ⟨hspent, h.spent v⟩
  · obtain ⟨hrun, hsim⟩ := (h.spent v).moved hd hfree hread hw
    exact ⟨hspent.trans hrun, hsim⟩

variable {q : Place} {lhs rhs : Value} {wl wr : Word} {vs : List Value} {rest : List Nat}

theorem mem_pending (hp : s.pending.Perm (ids (v :: vs) ++ rest)) :
    ∀ id ∈ ids [v], id ∈ s.pending := by
  intro id hid
  rw [hp.mem_iff, ids_cons]
  exact List.mem_append_left _ (List.mem_append_left _ hid)

theorem Sim.stepAside (h : Sim X cx σ₀ st s σ) (hp : cx.locate s v = some p)
    (hs : stepAside v p s = .ok q s') (hw : v.eval words st = some w)
    (hid : ∀ id ∈ ids [v], id ∈ s.pending) :
    ∃ τ, Emits C s s' σ τ ∧ Sim X cx σ₀ st s' τ ∧ q.read τ = w ∧ q ≠ .reg .r0 := by
  have hread := h.locate hp hw hid
  obtain ⟨rfl, hfree, rfl, rfl⟩ | ⟨hne, rfl, rfl⟩ := stepAside_eq_ok.1 hs
  · obtain ⟨hrun, hsim⟩ := h.moved (by decide) hfree hread hw
    exact ⟨_, hrun, hsim, Machine.State.setReg_regs_self .., by decide⟩
  · exact ⟨σ, Emits.refl rfl, h, hread, hne⟩

theorem Sim.fetchOperands {op : Opcode} {x : Register × Operand} (h : Sim X cx σ₀ st s σ)
    (hx : fetchOperands cx op lhs rhs q s = .ok x s') (hl : lhs.eval words st = some wl)
    (hr : rhs.eval words st = some wr) (hq : q.read σ = wr) (hne : q ≠ .reg .r0)
    (hp : s.pending.Perm (ids [lhs, rhs] ++ rest)) :
    ∃ τ, Emits C s s' σ τ ∧ Sim X cx σ₀ st s' τ ∧ τ.regs x.1 = wl ∧ x.2.value τ = some wr := by
  obtain ⟨s₁, hf, hright⟩ := fetchOperands_eq_ok.1 hx
  obtain ⟨hrun, hsim⟩ := h.fetch (C := C) (by decide) hf hl (mem_pending hp)
  -- The right operand is still where it was, unless it has to be read now.
  have hq' : q.read (σ.setReg .r0 wl) = wr := (Place.read_setReg hne (by decide)).trans hq
  have hleft : (σ.setReg .r0 wl).regs .r0 = wl := Machine.State.setReg_regs_self ..
  obtain ⟨r, rfl, rfl, rfl⟩ | ⟨n, rfl, -, rfl, rfl⟩ | ⟨-, hfree, hf', rfl⟩ := hright
  · exact ⟨_, hrun.trans (Emits.refl (State.spent_code ..)), hsim.spent rhs, hleft, congrArg some hq'⟩
  · exact ⟨_, hrun, hsim, hleft, congrArg some hq'⟩
  · have hmove : Emits C s₁ (s₁.issued (.move .r1 .r0)) (σ.setReg .r0 wl)
        ((σ.setReg .r0 wl).setReg .r1 wl) := Emits.of_exec rfl (by simp)
    have hsim' := (hsim.setReg (w := wl) (by decide) hfree).extended [.move .r1 .r0]
    have hp' : s₁.pending.Perm (ids [rhs] ++ rest) := fetch_perm hf hp
    obtain ⟨hrun', hsim''⟩ := hsim'.fetch (C := C) (by decide) hf' hr (mem_pending hp')
    exact ⟨_, (hrun.trans hmove).trans hrun', hsim'', by simp [Machine.State.setReg_regs],
      by simp [Operand.value]⟩

/-- What was computed into a place is a temporary's from then on. -/
theorem Sim.define (h : Sim X cx σ₀ st s σ) (t : Temporary) (hp : p.Usable cx)
    (hread : p.read σ = w) : Sim X cx σ₀ (st.setTemp t.id w) (s.settled (.temp t) p) σ where
  frame := h.frame
  calls := h.calls
  cells := h.cells
  temps := by
    intro id hid q w' hq hw
    rw [State.settled_place?] at hq
    simp only [Store.setTemp, Function.update_apply] at hw
    split at hq
    next he =>
      rw [if_pos he] at hw
      obtain rfl := Option.some.inj hq
      exact hread.trans (Option.some.inj hw)
    next he =>
      rw [if_neg he] at hw
      exact h.temps id hid q w' hq hw
  placed := h.placed.settled _ hp

theorem compute?_of_opcode? {b : BinOp} {op : Opcode} (h : opcode? b = some op) :
    op.compute? = some (words.binary b) := by
  cases b <;> cases h <;> rfl

theorem Sim.binary {b : BinOp} {t : Temporary} (h : Sim X cx σ₀ st s σ)
    (hb : codeOfBinary cx b t lhs rhs s = .ok u s') (hl : lhs.eval words st = some wl)
    (hr : rhs.eval words st = some wr) (hp : s.pending.Perm (ids [lhs, rhs] ++ rest)) :
    ∃ τ, Emits C s s' σ τ ∧ Sim X cx σ₀ (st.setTemp t.id (words.binary b wl wr)) s' τ := by
  obtain ⟨op, p, q, s₁, x, s₂, hop, hloc, hq, hx, hfree, rfl⟩ := codeOfBinary_eq_ok.1 hb
  have hswap : s.pending.Perm (ids [rhs, lhs] ++ rest) :=
    hp.trans ((ids_perm (.swap rhs lhs [])).append_right rest)
  obtain ⟨σ₁, hrun₁, hsim₁, hread, hne⟩ := h.stepAside hloc hq hr (mem_pending hswap)
  rw [← stepAside_pending hq] at hp
  obtain ⟨σ₂, hrun₂, hsim₂, hx₁, hx₂⟩ := hsim₁.fetchOperands hx hl hr hread hne hp
  have hexec : (Instr.arith op .r0 x.1 x.2).exec C σ₂ =
      some (σ₂.setReg .r0 (words.binary b wl wr)) := by
    rw [Machine.exec_arith (compute?_of_opcode? hop) hx₂, hx₁]
  have hrun₃ : Emits C s₂ ((s₂.issued (.arith op .r0 x.1 x.2)).settled (.temp t) (.reg .r0)) σ₂ _ :=
    Emits.of_exec rfl hexec
  refine ⟨_, (hrun₁.trans hrun₂).trans hrun₃, ?_⟩
  exact ((hsim₂.setReg (by decide) hfree).extended [_]).define t
    (Place.usable_reg (by decide)) (Machine.State.setReg_regs_self ..)

/-- The word that an argument register has to hold when a call passes `ws`. -/
def passed (ws : List Word) (r : Register) : Word := ws.getD (Register.arguments.idxOf r) 0

theorem passed_getElem {ws : List Word} {i : Nat} (hi : i < Register.arguments.length)
    (hw : i < ws.length) : passed ws Register.arguments[i] = ws[i] := by
  have hidx : Register.arguments.idxOf Register.arguments[i] = i :=
    List.Nodup.idxOf_getElem (by decide) i hi
  rw [passed, hidx, List.getD_eq_getElem?_getD, List.getElem?_eq_getElem hw, Option.getD_some]

/-- Each argument that is read goes where it has to, and none of the others is overwritten. -/
theorem Sim.fetchArgs {which : Place → Bool} {ms : List ((Value × Place) × Register)}
    {want : Register → Word} (h : Sim X cx σ₀ st s σ) (hf : fetchArgs cx which ms s = .ok u s')
    (hms : ∀ m ∈ ms, m.2 ∈ Register.arguments ∧ m.1.1.eval words st = some (want m.2))
    (hp : s.pending.Perm (ids ((ms.filter (which ·.1.2)).map (·.1.1)) ++ rest)) :
    ∃ τ, Emits C s s' σ τ ∧ Sim X cx σ₀ st s' τ ∧
      (∀ m ∈ ms, which m.1.2 = true → τ.regs m.2 = want m.2) ∧
      (∀ r, σ.regs r = want r → τ.regs r = want r) := by
  induction ms generalizing s σ with
  | nil =>
    obtain ⟨-, rfl⟩ := pure_eq_ok.1 hf
    exact ⟨σ, Emits.refl rfl, h, by simp, by simp⟩
  | cons m ms ih =>
    obtain ⟨⟨v, p⟩, r⟩ := m
    obtain ⟨⟨hr, hw⟩, hms⟩ := List.forall_mem_cons.1 hms
    have hf := fetchArgs_cons_eq_ok.1 hf
    by_cases hwhich : which p = true
    · simp only [hwhich, if_true] at hf
      obtain ⟨s₁, hf, hrest⟩ := hf
      have hp : s.pending.Perm (ids (v :: (ms.filter (which ·.1.2)).map (·.1.1)) ++ rest) := by
        simpa [List.filter_cons, hwhich] using hp
      obtain ⟨hrun, hsim⟩ := h.fetch hr hf hw (mem_pending hp)
      obtain ⟨τ, hrun', hsim', hset, hkeep⟩ := ih hsim hrest hms (fetch_perm hf hp)
      refine ⟨τ, hrun.trans hrun', hsim', ?_, ?_⟩
      · rw [List.forall_mem_cons]
        exact ⟨fun _ => hkeep r (Machine.State.setReg_regs_self ..), hset⟩
      · intro r' hr'
        apply hkeep
        rw [Machine.State.setReg_regs]
        split
        next he => rw [he]
        next => exact hr'
    · simp only [hwhich, Bool.false_eq_true, if_false] at hf
      have hp : s.pending.Perm (ids ((ms.filter (which ·.1.2)).map (·.1.1)) ++ rest) := by
        simpa [List.filter_cons, hwhich] using hp
      obtain ⟨τ, hrun, hsim, hset, hkeep⟩ := ih h hf hms hp
      refine ⟨τ, hrun, hsim, ?_, hkeep⟩
      rw [List.forall_mem_cons]
      exact ⟨fun hp => (hwhich hp).elim, hset⟩

/-- A callee leaves the frame of its caller alone. -/
theorem InFrame.after (h : InFrame room cx σ₀ σ) (hτ : Intact σ τ) : InFrame room cx σ₀ τ := by
  have hroom := h.room
  have hkeep := hτ.mem
  rw [h.sp] at hkeep
  refine ⟨h.size_le, h.room, hτ.fp.trans h.fp, hτ.sp.trans h.sp, ?_, ?_, ?_⟩
  · refine (Machine.Memory.word_congr fun k hk => hkeep _ ?_).trans h.saved_fp
    bv_omega
  · refine (Machine.Memory.word_congr fun k hk => hkeep _ ?_).trans h.saved_lr
    bv_omega
  · intro a ha
    refine (hkeep a ?_).trans (h.above a ha)
    bv_omega

/-- Slots are above the stack pointer, so callees leave them alone. -/
theorem InFrame.read_slot_after (h : InFrame room cx σ₀ σ) {x : String} {o : Int}
    (ho : cx.frame.offset? x = some o) (hτ : Intact σ τ) :
    (Place.slot o).read τ = (Place.slot o).read σ := by
  have hroom := h.room
  simp only [Place.read, Machine.address, hτ.fp]
  apply Machine.Memory.word_congr
  intro k hk
  apply hτ.mem
  obtain ⟨j, hj, ha⟩ := Frame.slot_eq ho (σ.regs .fp)
  rw [ha, h.fp, h.sp]
  bv_omega

/-- When nothing is awaited from the argument registers a callee may have them. -/
theorem Sim.after (h : Sim X cx σ₀ st s σ) (hfree : ∀ r ∈ Register.arguments, s.Free r)
    (c : Call Word) (hτ : Intact σ τ) (hcalls : τ.calls = X.record (st.calls ++ [c])) :
    Sim X cx σ₀ { st with calls := st.calls ++ [c] } s τ where
  frame := h.frame.after hτ
  calls := hcalls
  cells := by
    intro x w hx
    obtain ⟨o, ho, hw⟩ := h.cells x w hx
    exact ⟨o, ho, (h.frame.read_slot_after ho hτ).trans hw⟩
  temps := by
    intro id hid p w hp hw
    rw [← h.temps id hid p w hp hw]
    have husable := h.placed id p hp
    cases p with
    | imm n => rfl
    | slot o =>
      obtain ⟨x, ho⟩ := husable
      exact h.frame.read_slot_after ho hτ
    | reg r => exact (hfree r husable id hid hp).elim
  placed := h.placed

/-- A callee that is back has answered the call; its value matters only if it is wanted. -/
theorem Sim.answered {P : Oracle Word} (h : Sim X cx σ₀ st s σ)
    (hfree : ∀ r ∈ Register.arguments, s.Free r) (c : Call Word) (result : Option Temporary)
    (hτ : Intact σ τ) (hcalls : τ.calls = X.record (st.calls ++ [c]))
    (hvalue : ∀ t ∈ result, τ.regs Register.result = P st.calls c) :
    Sim X cx σ₀ (st.perform P result c) (s.answered result) τ := by
  have hsim := h.after hfree c hτ hcalls
  cases result with
  | none => exact hsim
  | some t => exact hsim.define t (Place.usable_reg (r := .r0) (by decide)) (hvalue t rfl)

theorem eval_moves {args : List Value} {places : List Place} {ws : List Word}
    (hws : args.mapM (·.eval words st) = some ws) :
    ∀ m ∈ Context.moves args places,
      m.2 ∈ Register.arguments ∧ m.1.1.eval words st = some (passed ws m.2) := by
  intro m hm
  obtain ⟨i, hi, rfl⟩ := List.getElem_of_mem hm
  have hall := mapM_eq_some_iff.1 hws
  have hlen := hall.length_eq
  simp only [Context.moves, List.length_zip] at hi
  have hw : i < ws.length := by omega
  simp only [Context.moves, List.getElem_zip]
  refine ⟨List.getElem_mem _, ?_⟩
  rw [passed_getElem (by omega) hw]
  exact hall.get (by omega) hw

/-- The code before a call puts the arguments where they have to be and leaves nothing in the way. -/
theorem Sim.passArgs {result : Option Temporary} {callee : String} {args : List Value}
    {ws : List Word} (h : Sim X cx σ₀ st s σ)
    (hc : codeOfCall cx result callee args s = .ok u s')
    (hws : args.mapM (·.eval words st) = some ws) (hp : s.pending.Perm (ids args ++ rest)) :
    ∃ s₁ τ, Emits C s s₁ σ τ ∧ Sim X cx σ₀ st s₁ τ ∧ (∀ r ∈ Register.arguments, s₁.Free r) ∧
      (Register.arguments.take args.length).map τ.regs = ws ∧
      s' = (s₁.issued (.call (cx.target.callee callee)
        (Register.arguments.take args.length))).answered result := by
  obtain ⟨places, s₁, s₂, -, hmax, hplaces, h₁, h₂, hfree, rfl⟩ := codeOfCall_eq_ok.1 hc
  have hp₁ := pending_perm_moves Place.isReg hplaces hmax hp
  obtain ⟨σ₁, hrun₁, hsim₁, hset₁, -⟩ := h.fetchArgs h₁ (eval_moves hws) hp₁
  have hp₂ := fetchArgs_perm h₁ hp₁
  obtain ⟨σ₂, hrun₂, hsim₂, hset₂, hkeep⟩ := hsim₁.fetchArgs h₂ (eval_moves hws) hp₂
  have hlen : places.length = args.length := (mapM_eq_some_iff.1 hplaces).length_eq.symm
  have hwlen : ws.length = args.length := (mapM_eq_some_iff.1 hws).length_eq.symm
  have hmax : args.length ≤ Register.arguments.length := Nat.le_trans hmax (Nat.min_le_right _ _)
  refine ⟨s₂, σ₂, hrun₁.trans hrun₂, hsim₂, hfree, ?_, rfl⟩
  apply List.ext_getElem (by simp; omega)
  intro i hi hw
  have hi' : i < (Context.moves args places).length := by
    simp only [Context.moves, List.length_zip]
    omega
  have hm := List.getElem_mem hi'
  have hreg : (Context.moves args places)[i].2 = Register.arguments[i] := by
    simp only [Context.moves, List.getElem_zip]
  rw [List.getElem_map, List.getElem_take, ← passed_getElem (by omega) hw, ← hreg]
  cases hwhich : (Context.moves args places)[i].1.2.isReg with
  | true => exact hkeep _ (hset₁ _ hm hwhich)
  | false => exact hset₂ _ hm (by rw [hwhich]; rfl)

/-- There is room below a frame. -/
theorem InFrame.room_le (h : InFrame room cx σ₀ σ) : room ≤ (σ.regs .sp).toNat := by
  have := h.room
  rw [h.sp]
  bv_omega

/-- A call that is left to callees. -/
theorem Sim.call {P : Oracle Word} {result : Option Temporary} {callee : String} {args : List Value}
    {ws : List Word} (h : Sim X cx σ₀ st s σ) (hroom : C.room ≤ X.room)
    (hc : codeOfCall cx result callee args s = .ok u s')
    (hws : args.mapM (·.eval words st) = some ws) (hp : s.pending.Perm (ids args ++ rest))
    (hrecord : X.record (st.calls ++ [⟨callee, ws⟩]) =
      X.record st.calls ++ [⟨cx.target.callee callee, ws⟩])
    (hvalue : ∀ t ∈ result, O (X.record st.calls) ⟨cx.target.callee callee, ws⟩ =
      P st.calls ⟨callee, ws⟩) :
    ∃ τ, Emits C s s' σ τ ∧ Sim X cx σ₀ (st.perform P result ⟨callee, ws⟩) s' τ := by
  obtain ⟨s₁, σ₁, hrun, hsim, hfree, hpassed, rfl⟩ := h.passArgs (C := C) hc hws hp
  have hexec := Machine.exec_call (C := C) (σ := σ₁) (cx.target.callee callee)
    (Register.arguments.take args.length)
  rw [hpassed] at hexec
  have hanswered := C.answered ⟨cx.target.callee callee, ws⟩ σ₁
    (Nat.le_trans hroom hsim.frame.room_le)
  refine ⟨_, hrun.trans (Emits.of_exec (State.answered_code ..) hexec), ?_⟩
  apply (hsim.extended [_]).answered hfree ⟨callee, ws⟩ result hanswered.intact
  · rw [hanswered.calls, hsim.calls]
    exact hrecord.symm
  · intro t ht
    rw [hanswered.result, hsim.calls]
    exact hvalue t ht

theorem InFrame.setSlot (h : InFrame room cx σ₀ σ) {x : String} {o : Int}
    (ho : cx.frame.offset? x = some o) (w : Word) :
    InFrame room cx σ₀ (σ.setWord (Machine.address σ .fp o) w) := by
  have hroom := h.room
  obtain ⟨k, hk, ha⟩ := Frame.slot_eq ho (σ.regs .fp)
  rw [Machine.address, ha, h.fp]
  refine ⟨h.size_le, h.room, h.fp, h.sp, ?_, ?_, ?_⟩
  · refine (Machine.Memory.word_setWord_of_disjoint ?_ ?_).trans h.saved_fp <;> bv_omega
  · refine (Machine.Memory.word_setWord_of_disjoint ?_ ?_).trans h.saved_lr <;> bv_omega
  · intro a hab
    refine (Machine.Memory.setWord_of_ge ?_).trans (h.above a hab)
    bv_omega

/-- A slot that is written is the only place that changes. -/
theorem Place.read_setSlot (hsize : cx.frame.size ≤ Frame.maxSize) (hp : p.Usable cx) {x : String}
    {o : Int} (ho : cx.frame.offset? x = some o) (hne : p ≠ .slot o) :
    p.read (σ.setWord (Machine.address σ .fp o) w) = p.read σ := by
  cases p with
  | imm n => rfl
  | reg r => rfl
  | slot o' =>
    obtain ⟨y, hy⟩ := hp
    have hne' : o' ≠ o := by simpa using hne
    obtain ⟨h₁, h₂⟩ := Frame.slots_disjoint hsize hy ho hne' (σ.regs .fp)
    exact Machine.Memory.word_setWord_of_disjoint h₁ h₂

theorem Sim.setCell (h : Sim X cx σ₀ st s σ) {x : String} {o : Int}
    (ho : cx.frame.offset? x = some o) (hfree : ∀ id ∈ s.pending, s.place? id ≠ some (.slot o))
    (w : Word) : Sim X cx σ₀ (st.setCell x w) s (σ.setWord (Machine.address σ .fp o) w) where
  frame := h.frame.setSlot ho w
  calls := h.calls
  cells := by
    intro y w' hy
    simp only [Store.setCell, Function.update_apply] at hy
    split at hy
    next he =>
      obtain rfl := Option.some.inj hy
      exact ⟨o, he ▸ ho, Machine.Memory.word_setWord_self ..⟩
    next he =>
      obtain ⟨o', ho', hw⟩ := h.cells y w' hy
      have hne : Place.slot o' ≠ .slot o := by
        intro heq
        cases heq
        exact he (Frame.eq_of_offset?_eq ho' ho)
      have husable : (Place.slot o').Usable cx := ⟨y, ho'⟩
      exact ⟨o', ho', (Place.read_setSlot h.frame.size_le husable ho hne).trans hw⟩
  temps := by
    intro id hid p w' hp hw
    have hne : p ≠ .slot o := by
      rintro rfl
      exact hfree id hid hp
    exact (Place.read_setSlot h.frame.size_le (h.placed id p hp) ho hne).trans
      (h.temps id hid p w' hp hw)
  placed := h.placed

variable {P : Oracle Word} {o : Op} {st' : Store Word}

/-- Each operation but a call is matched by the code selected for it. -/
theorem Sim.op (h : Sim X cx σ₀ st s σ) (hs : codeOfOp cx o s = .ok u s')
    (ho : o.exec words P st = some st') (hp : s.pending.Perm (ids o.operands ++ rest))
    (hcall : ∀ result callee args, o ≠ .call result callee args) :
    ∃ τ, Emits C s s' σ τ ∧ Sim X cx σ₀ st' s' τ := by
  match o with
  | .alloc _ =>
    obtain ⟨-, rfl⟩ := pure_eq_ok.1 hs
    obtain rfl := Option.some.inj ho
    exact ⟨σ, Emits.refl rfl, h⟩
  | .store (.var x) v =>
    obtain ⟨o, s₁, hoff, hf, hfree, rfl⟩ := store_eq_ok.1 hs
    obtain ⟨w, hw, rfl⟩ := exec_store_eq_some.1 ho
    obtain ⟨hrun, hsim⟩ := h.fetch (by decide) hf hw (mem_pending hp)
    have hstore := Machine.exec_store (C := C) (σ := σ.setReg .r0 w) .r0 .fp o
    rw [Machine.State.setReg_regs_self] at hstore
    exact ⟨_, hrun.trans (Emits.of_exec rfl hstore), (hsim.setCell hoff hfree w).extended [_]⟩
  | .load t (.var x) =>
    obtain ⟨o, hoff, rfl⟩ := load_eq_ok.1 hs
    obtain ⟨w, hw, rfl⟩ := exec_load_eq_some.1 ho
    obtain ⟨o', hoff', hread⟩ := h.cells x.name w hw
    obtain rfl : o' = o := Option.some.inj (hoff'.symm.trans hoff)
    exact ⟨σ, Emits.refl rfl, h.define t ⟨x.name, hoff⟩ hread⟩
  | .store (.const _) _ | .store (.temp _) _ | .load _ (.const _) | .load _ (.temp _) =>
    exact (throw_eq_ok.1 hs).elim
  | .binary b t lhs rhs =>
    obtain ⟨wl, wr, hl, hr, rfl⟩ := exec_binary_eq_some.1 ho
    exact h.binary hs hl hr hp
  | .call t f args => exact (hcall t f args rfl).elim

/-- All calls are left to callees, who know the functions under the target's names for them. -/
def Outside.of (C : Callees O) (t : Target) : Outside := ⟨C.room, List.map (·.rename t.callee)⟩

/-- Each operation is matched by the code selected for it. -/
theorem Sim.step (h : Sim (.of C cx.target) cx σ₀ st s σ) (hs : codeOfOp cx o s = .ok u s')
    (ho : o.exec words (O.under cx.target.callee) st = some st')
    (hp : s.pending.Perm (ids o.operands ++ rest)) :
    ∃ τ, Emits C s s' σ τ ∧ Sim (.of C cx.target) cx σ₀ st' s' τ := by
  cases o with
  | call result callee args =>
    obtain ⟨ws, hws, rfl⟩ := exec_call_eq_some.1 ho
    exact h.call (Nat.le_refl _) hs hws hp List.map_append fun _ _ => rfl
  | alloc | store | load | binary => exact h.op hs ho hp nofun

end Straightline.Selection
