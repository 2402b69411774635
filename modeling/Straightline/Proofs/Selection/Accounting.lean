import Straightline.Proofs.Selection.Emission

/-!
What is reported accounts for what is missing. A step that meets a limit has not issued its return, so
a function that is given up has fewer returns than blocks, and only such a function has a diagnostic.
-/
namespace Straightline

open IR
open Machine (Instr Opcode)

namespace Selection

variable {α β : Type} {P : Instr → Prop} {cx : Context} {s s' : State} {i : Instr}

/-- How often code returns. -/
def returns (code : List Instr) : Nat := code.countP (·.opcode = .ret)

theorem returns_append (c d : List Instr) : returns (c ++ d) = returns c + returns d :=
  List.countP_append

theorem returns_eq_zero {c : List Instr} (h : ∀ i ∈ c, i.opcode ≠ .ret) : returns c = 0 :=
  List.countP_eq_zero.2 (by simpa using h)

/-- If the step stops, it has appended nothing but instructions with the property `P`. -/
def StopsAfter (P : Instr → Prop) (x : Select α) (s : State) : Prop :=
  ∀ stop s', x s = .error stop s' → ∃ c, s'.code = s.code ++ c ∧ ∀ i ∈ c, P i

namespace StopsAfter

theorem of_appends {x : Select α} (h : Appends P x s) : StopsAfter P x s := by
  intro stop s' hx
  unfold Appends at h
  rw [hx] at h
  exact h

theorem bind {x : Select α} {f : α → Select β} (hx : Appends P x s)
    (hf : ∀ a t, x s = .ok a t → StopsAfter P (f a) t) : StopsAfter P (x >>= f) s := by
  intro stop s' h
  rcases bind_eq_error.1 h with h | ⟨a, t, ht, h⟩
  · exact of_appends hx stop s' h
  · obtain ⟨c, hc, hP⟩ := hx.of_ok ht
    obtain ⟨d, hd, hQ⟩ := hf a t ht stop s' h
    exact ⟨c ++ d, by rw [hd, hc, List.append_assoc], List.forall_mem_append.2 ⟨hP, hQ⟩⟩

/-- An instruction that is refused is not there. -/
theorem issue (i : Instr) : StopsAfter P (issue i) s := by
  intro stop s' h
  unfold Selection.issue at h
  split at h
  · cases h
  · cases h
    exact ⟨[], by simp, by simp⟩

theorem epilogue (cx : Context) (s : State) :
    StopsAfter (·.opcode ≠ .ret) (epilogue cx) s := by
  have hpop : ∀ s, StopsAfter (·.opcode ≠ .ret)
      (do Selection.issue (.loadPair .fp .lr .sp 16); Selection.issue .ret) s :=
    fun s => bind (Appends.issue (by decide)) fun _ _ _ => issue _
  refine bind (Appends.issue (by decide)) fun _ t _ => ?_
  change StopsAfter _ (if 0 < cx.frame.size then _ else _) t
  split
  · exact bind (Appends.issue (by decide)) fun _ t _ => hpop t
  · exact hpop t

theorem codeOf (hs : WellPlaced cx s) (i : Instruction) :
    StopsAfter (·.opcode ≠ .ret) (codeOf cx i) s := by
  have hplain : ∀ i, Plain cx i → i.opcode ≠ .ret := fun i hi => hi.opcode_ne.2.2
  match i with
  | .op o => exact of_appends ((Appends.codeOfOp hs o).imp hplain)
  | .ret (some v) =>
    exact bind ((Appends.fetch hs v (by decide)).imp hplain) fun _ t _ => epilogue cx t
  | .ret none =>
    change StopsAfter _ (if cx.isEntry then _ else _) s
    split
    · exact bind (Appends.issue (by decide)) fun _ t _ => epilogue cx t
    · exact epilogue cx s

end StopsAfter

section Steps

/-- An instruction that is selected returns just if it is a return. -/
theorem returns_codeOf {i : Instruction} {u : Unit} (hs : WellPlaced cx s)
    (h : codeOf cx i s = .ok u s') :
    returns s'.code = returns s.code + if i.isReturn then 1 else 0 := by
  cases i with
  | op o =>
    obtain ⟨c, hc, hplain⟩ := (Appends.codeOfOp hs o).of_ok h
    rw [hc, returns_append, returns_eq_zero fun i hi => (hplain i hi).opcode_ne.2.2]
    rfl
  | ret v =>
    obtain ⟨c, hc, hplain⟩ := plain_of_codeOf_ret hs h
    have hleave : returns cx.takeDown = 0 := by
      unfold Context.takeDown
      split <;> rfl
    rw [hc, returns_append, returns_append, returns_append,
      returns_eq_zero fun i hi => (hplain i hi).opcode_ne.2.2, hleave]
    rfl

theorem returns_codeOf_error {i : Instruction} {stop : Stop} (hs : WellPlaced cx s)
    (h : codeOf cx i s = .error stop s') : returns s'.code = returns s.code := by
  obtain ⟨c, hc, hret⟩ := StopsAfter.codeOf hs i stop s' h
  rw [hc, returns_append, returns_eq_zero hret, Nat.add_zero]

end Steps

/-- The returns among instructions. -/
def returnsIn (is : List (Located Instruction)) : Nat := is.countP (·.val.isReturn)

variable {is : List (Located Instruction)} {seg : Segment}

/-- Either all instructions are selected and their returns are there, or one of them meets a limit, and
there are the returns before it. -/
theorem codeOfAll_returns (hs : WellPlaced cx s) (h : codeOfAll cx is s = .ok seg) :
    (seg.diagnostic = none ∧ returns seg.code = returns s.code + returnsIn is) ∨
    ∃ pre i post l, is = pre ++ i :: post ∧ returns seg.code = returns s.code + returnsIn pre ∧
      seg.diagnostic =
        some (Limit.diagnostic l cx.function.name (i.span.orElse cx.function.span)) := by
  induction is generalizing s with
  | nil =>
    obtain rfl := Except.ok.inj h
    exact .inl ⟨rfl, rfl⟩
  | cons i is ih =>
    have hcons : ∀ js, returnsIn (i :: js) = returnsIn js + if i.val.isReturn then 1 else 0 :=
      fun js => List.countP_cons
    rcases proceed_cases h with ⟨s₁, hs₁, h⟩ | ⟨l, s₁, hs₁, rfl⟩
    · have hcount := returns_codeOf hs hs₁
      rcases ih (hs.codeOf hs₁) h with ⟨hd, hret⟩ | ⟨pre, j, post, l, rfl, hret, hd⟩
      · exact .inl ⟨hd, by rw [hret, hcount, hcons]; omega⟩
      · exact .inr ⟨i :: pre, j, post, l, rfl, by rw [hret, hcount, hcons]; omega, hd⟩
    · exact .inr ⟨[], i, is, l, rfl, returns_codeOf_error hs hs₁, rfl⟩

/-! ## Labels -/

/-- The instruction neither defines nor exports a symbol. -/
def Unnamed (i : Instr) : Prop := i.opcode ≠ .defineLabel ∧ i.opcode ≠ .global

instance (i : Instr) : Decidable (Unnamed i) := inferInstanceAs (Decidable (_ ∧ _))

theorem Plain.unnamed (h : Plain cx i) : Unnamed i := ⟨h.opcode_ne.1, h.opcode_ne.2.1⟩

/-- An instruction that writes no register is never refused. -/
theorem issue_when_of_writes_eq_nil {c : Prop} [Decidable c] (hi : i.writes = []) (k : Select Unit) :
    (if c then (do issue i; k) else k) s = k (s.extended (if c then [i] else [])) := by
  have hok : issue i s = .ok () (s.extended [i]) := issue_eq_ok.2 ⟨by simp [hi], rfl⟩
  split
  · change EStateM.bind (issue i) (fun _ => k) s = _
    rw [EStateM.bind, hok]
  · simp [State.extended]

theorem issue_seq_of_writes_eq_nil (hi : i.writes = []) (k : Select Unit) :
    (do issue i; k) s = k (s.extended [i]) := by
  simpa using issue_when_of_writes_eq_nil (c := True) (s := s) hi k

theorem appends_epilogue_unnamed (cx : Context) (s : State) : Appends Unnamed (epilogue cx) s :=
  .issue_seq (by decide) fun _ => .issue_when (by decide) fun _ =>
    .issue_seq (by decide) fun _ => .issue (by decide)

theorem appends_codeOf_unnamed (hs : WellPlaced cx s) (i : Instruction) :
    Appends Unnamed (codeOf cx i) s := by
  match i with
  | .op o => exact (Appends.codeOfOp hs o).imp fun _ => Plain.unnamed
  | .ret (some v) =>
    exact ((Appends.fetch hs v (by decide)).imp fun _ => Plain.unnamed).bind
      fun _ t _ => appends_epilogue_unnamed cx t
  | .ret none => exact .issue_when (by decide) (appends_epilogue_unnamed cx)

/-- On entry a function gets its name, and nothing else does. -/
theorem prologue_code (cx : Context) (s : State) :
    ∃ c, (stateOf (prologue cx s)).code = s.code ++ (cx.exported ++ .label cx.function.name :: c) ∧
      ∀ i ∈ c, Unnamed i ∧ i.opcode ≠ .ret := by
  unfold prologue
  dsimp only
  rw [issue_when_of_writes_eq_nil rfl, issue_seq_of_writes_eq_nil rfl, State.extended_extended]
  have hrest {P : Instr → Prop} {x : Select Unit} {pre : List Instr} {l : Instr}
      (h : Appends P x (s.extended (pre ++ [l]))) :
      ∃ c, (stateOf (x (s.extended (pre ++ [l])))).code = s.code ++ (pre ++ l :: c) ∧
        ∀ i ∈ c, P i := by
    obtain ⟨c, hc, hP⟩ := h
    exact ⟨c, hc.trans (by simp), hP⟩
  apply hrest
  exact .issue_seq (by decide) fun _ => .issue_seq (by decide) fun _ =>
    .issue_seq (by decide) fun _ => .reject_when fun _ =>
      .issue_when ⟨⟨nofun, nofun⟩, nofun⟩ fun _ => .reject_when fun _ =>
        (Appends.storeParams _).imp fun _ h => ⟨h.unnamed, h.opcode_ne.2.2⟩

variable {t : Target} {f : Func}

/-- The one label in a function's code is its name, which the entry point exports before. -/
theorem codeOfFunc_named (h : codeOfFunc t f = .ok seg) :
    ∃ c, seg.code = Context.exported ⟨t, f⟩ ++ .label f.name :: c ∧ ∀ i ∈ c, Unnamed i := by
  obtain ⟨c, hc, hunnamed⟩ := prologue_code ⟨t, f⟩ { pending := reads f }
  have hunnamed : ∀ i ∈ c, Unnamed i := fun i hi => (hunnamed i hi).1
  rcases proceed_cases h with ⟨s₁, hs₁, h⟩ | ⟨l, s₁, hs₁, rfl⟩
  · rw [hs₁] at hc
    obtain ⟨d, hd, hrest⟩ :=
      codeOfAll_appends (fun _ => appends_codeOf_unnamed) (wellPlaced_of_prologue hs₁) h
    refine ⟨c ++ d, ?_, List.forall_mem_append.2 ⟨hunnamed, hrest⟩⟩
    rw [hd, show s₁.code = Context.exported ⟨t, f⟩ ++ .label f.name :: c from hc]
    simp
  · rw [hs₁] at hc
    exact ⟨c, hc, hunnamed⟩

theorem returns_prologue (cx : Context) (s : State) :
    returns (stateOf (prologue cx s)).code = returns s.code := by
  obtain ⟨c, hc, hret⟩ := prologue_code cx s
  have hexported : returns cx.exported = 0 := by
    unfold Context.exported
    split <;> rfl
  have hnamed : returns (.label cx.function.name :: c) = 0 :=
    returns_eq_zero (List.forall_mem_cons.2 ⟨nofun, fun i hi => (hret i hi).2⟩)
  rw [hc, returns_append, returns_append, hexported, hnamed, Nat.add_zero]

/-! ## Functions that are given up -/

/-- A function that is given up has met one limit, and there are only the returns before it. -/
structure GivenUp (f : Func) (code : List Instr) (d : Diagnostic) : Prop where
  limit : ∃ l span, d = Limit.diagnostic l f.name span ∧
    (span = f.span ∨ ∃ i ∈ f.instructions, i.span.isNowhere = false ∧ span = i.span)
  before : ∃ pre post, f.instructions = pre ++ post ∧ post ≠ [] ∧ returns code = returnsIn pre

theorem codeOfFunc_returns (hf : f.instructions ≠ []) (h : codeOfFunc t f = .ok seg) :
    (seg.diagnostic = none ∧ returns seg.code = returnsIn f.instructions) ∨
      ∃ d, seg.diagnostic = some d ∧ GivenUp f seg.code d := by
  have hentered := returns_prologue ⟨t, f⟩ { pending := reads f }
  rcases proceed_cases h with ⟨s₁, hs₁, h⟩ | ⟨l, s₁, hs₁, rfl⟩
  · rw [hs₁] at hentered
    have hzero : returns s₁.code = 0 := hentered
    rcases codeOfAll_returns (wellPlaced_of_prologue hs₁) h with
      ⟨hd, hret⟩ | ⟨pre, i, post, l, hsplit, hret, hd⟩
    · exact .inl ⟨hd, by rw [hret, hzero, Nat.zero_add]⟩
    · refine .inr ⟨_, hd, ⟨l, _, rfl, ?_⟩, pre, i :: post, hsplit, nofun, by omega⟩
      unfold Span.orElse
      split
      · exact .inl rfl
      next hspan => exact .inr ⟨i, by rw [hsplit]; simp, by simpa using hspan, rfl⟩
  · rw [hs₁] at hentered
    exact .inr ⟨_, rfl, ⟨l, _, rfl, .inl rfl⟩, [], f.instructions, rfl, hf, hentered⟩

/-! ## Complete functions -/

theorem returnsIn_append (is js : List (Located Instruction)) :
    returnsIn (is ++ js) = returnsIn is + returnsIn js := List.countP_append

theorem instructions_of_isComplete {b : Block} (h : b.isComplete = true) :
    ∃ ops v span, b.instructions = ops ++ [⟨.ret v, span⟩] ∧ returnsIn ops = 0 := by
  obtain ⟨r, hr⟩ := Option.isSome_iff_exists.1 h
  refine ⟨b.body.map fun o => ⟨.op o.val, o.span⟩, r.val, r.span, ?_, ?_⟩
  · simp [Block.instructions, hr]
  · simp [returnsIn, List.countP_map, Function.comp_def, Instruction.isReturn]

/-- Complete blocks return once each. -/
theorem returnsIn_blocks {bs : List Block} (h : ∀ b ∈ bs, b.isComplete = true) :
    returnsIn (bs.flatMap (·.instructions)) = bs.length := by
  induction bs with
  | nil => rfl
  | cons b bs ih =>
    obtain ⟨hb, hbs⟩ := List.forall_mem_cons.1 h
    obtain ⟨ops, v, span, hops, hzero⟩ := instructions_of_isComplete hb
    rw [List.flatMap_cons, returnsIn_append, ih hbs, hops, returnsIn_append, hzero,
      List.length_cons, Nat.add_comm]
    rfl

/-- A complete function ends in a return. -/
theorem exists_instructions_eq (h : f.isComplete = true) :
    ∃ pre v span, f.instructions = pre ++ [⟨.ret v, span⟩] := by
  simp only [Func.isComplete, Bool.and_eq_true, List.all_eq_true] at h
  obtain ⟨hne, hall⟩ := h
  rcases List.eq_nil_or_concat f.blocks with hnil | ⟨bs, b, hbs⟩
  · simp [hnil] at hne
  · obtain ⟨ops, v, span, hops, -⟩ := instructions_of_isComplete (hall b (by simp [hbs]))
    exact ⟨bs.flatMap (·.instructions) ++ ops, v, span, by simp [Func.instructions, hbs, hops]⟩

/-- If no limit is met, the code of what stands last is the last code. -/
theorem codeOfAll_append (hs : WellPlaced cx s) {js : List (Located Instruction)}
    (h : codeOfAll cx (is ++ js) s = .ok seg) (hd : seg.diagnostic = none) :
    ∃ s', WellPlaced cx s' ∧ codeOfAll cx js s' = .ok seg := by
  induction is generalizing s with
  | nil => exact ⟨s, hs, h⟩
  | cons i is ih =>
    obtain ⟨s₁, hs₁, h, -⟩ := proceed_eq_ok.1 ⟨h, hd⟩
    exact ih (hs.codeOf hs₁) h

theorem getLast?_codeOfFunc (hf : f.isComplete = true) (h : codeOfFunc t f = .ok seg)
    (hd : seg.diagnostic = none) : seg.code.getLast? = some .ret := by
  obtain ⟨pre, v, span, hsplit⟩ := exists_instructions_eq hf
  obtain ⟨s₁, hs₁, h, -⟩ := proceed_eq_ok.1 ⟨h, hd⟩
  rw [hsplit] at h
  obtain ⟨s₂, hs₂, h⟩ := codeOfAll_append (wellPlaced_of_prologue hs₁) h hd
  obtain ⟨s₃, hs₃, h, -⟩ := proceed_eq_ok.1 ⟨h, hd⟩
  obtain ⟨c, hc, -⟩ := plain_of_codeOf_ret hs₂ hs₃
  obtain rfl := Except.ok.inj h
  simp [hc]

/-- The code of a function and what is reported about it account for each other. -/
structure Accounted (t : Target) (f : Func) (seg : Segment) : Prop where
  /-- The function's name is the one label, exported if the function is the entry point. -/
  named : ∃ c, seg.code =
      (if t.isEntryPoint f.name then [.global f.name] else []) ++ .label f.name :: c ∧
    ∀ i ∈ c, Unnamed i
  reported : ∀ d, seg.diagnostic = some d →
    d.kind = .unsupported ∧ d.isError = true ∧ d.notes = ["in function `" ++ f.name ++ "`"] ∧
      (d.span = f.span ∨ ∃ i ∈ f.instructions, i.span.isNowhere = false ∧ d.span = i.span)
  rejected : seg.diagnostic.isSome = true ↔ returns seg.code < f.blocks.length
  selected : seg.diagnostic = none →
    returns seg.code = f.blocks.length ∧ seg.code.getLast? = some .ret

theorem accounted (hf : f.isComplete = true) (h : codeOfFunc t f = .ok seg) : Accounted t f seg := by
  obtain ⟨pre, v, span, hsplit⟩ := exists_instructions_eq hf
  have hcount : returnsIn f.instructions = f.blocks.length := by
    simp only [Func.isComplete, Bool.and_eq_true, List.all_eq_true] at hf
    exact returnsIn_blocks hf.2
  have hlast := getLast?_codeOfFunc hf h
  rcases codeOfFunc_returns (by simp [hsplit]) h with ⟨hd, hret⟩ | ⟨d, hd, hup⟩
  · have hret : returns seg.code = f.blocks.length := hret.trans hcount
    exact ⟨codeOfFunc_named h, by simp [hd], by simp [hd, hret], fun _ => ⟨hret, hlast hd⟩⟩
  · obtain ⟨⟨l, place, rfl, hplace⟩, before, after, hparts, hne, hret⟩ := hup
    -- What is not selected ends in the last return.
    have hfewer : returns seg.code < f.blocks.length := by
      obtain ⟨after, x, rfl⟩ := (List.eq_nil_or_concat after).resolve_left hne
      rw [List.concat_eq_append] at hparts
      have hends : pre ++ [⟨.ret v, span⟩] = (before ++ after) ++ [x] := by
        rw [← hsplit, hparts, List.append_assoc]
      obtain ⟨-, hx⟩ := List.append_inj' hends rfl
      have hone : returnsIn [x] = 1 := by rw [← hx]; rfl
      rw [← hcount, hret, hparts, returnsIn_append, returnsIn_append, hone]
      omega
    refine ⟨codeOfFunc_named h, ?_, by simp [hd, hfewer], by simp [hd]⟩
    intro d hd'
    obtain rfl := Option.some.inj (hd.symm.trans hd')
    exact ⟨rfl, rfl, rfl, hplace⟩

end Selection

open Selection

/-- Diagnostics account for every function without complete code. The code of a module is that of its
functions in order, and so are the diagnostics, at most one for each. -/
theorem diagnostics_account_for_code {t : Target} {m : Module} {s : Selected}
    (h : selectModule t m = .ok s) :
    ∃ segs, s.code = segs.flatMap (·.code) ∧ s.diagnostics = segs.filterMap (·.diagnostic) ∧
      List.Forall₂ (Accounted t) m.functions segs := by
  obtain ⟨hm, segs, hsegs, rfl⟩ := selectModule_eq_ok.1 h
  simp only [Module.isComplete, Bool.and_eq_true, List.all_eq_true] at hm
  refine ⟨segs, rfl, rfl, ?_⟩
  exact ((List.forall₂_and_left m.functions segs).2 ⟨hm.2, hsegs⟩).imp fun _ _ h => accounted h.1 h.2

/-- The entry point calls a function whose second operation is a remainder. -/
def remainderCalled : Module where
  name := "sample"
  functions := [{
    name := "f"
    params := [⟨"a", .int⟩]
    result := .int
    span := ⟨0, 0, 40⟩
    blocks := [{
      name := Block.entryName
      body := [⟨.load ⟨0, .int⟩ (.var ⟨"a", .int⟩), ⟨0, 30, 31⟩⟩,
        ⟨.binary .modulo ⟨1, .int⟩ (.temp ⟨0, .int⟩) (.const (.int 2)), ⟨0, 30, 35⟩⟩]
      terminator := some ⟨some (.temp ⟨1, .int⟩), ⟨0, 23, 36⟩⟩ }] }, {
    name := "main"
    params := []
    result := .nil
    span := ⟨0, 41, 60⟩
    blocks := [{
      name := Block.entryName
      body := [⟨.call (some ⟨0, .int⟩) "f" [.const (.int 7)], ⟨0, 54, 58⟩⟩]
      terminator := some ⟨none, .nowhere⟩ }] }]

theorem diagnostics_account_for_remainder :
    ∃ s, selectModule .darwin remainderCalled = .ok s ∧
      s.diagnostics.map (·.span) = [⟨0, 30, 35⟩] ∧
      ∃ segs, s.code = segs.flatMap (·.code) ∧ s.diagnostics = segs.filterMap (·.diagnostic) ∧
        List.Forall₂ (Accounted .darwin) remainderCalled.functions segs :=
  ⟨_, rfl, by decide, diagnostics_account_for_code rfl⟩

end Straightline
