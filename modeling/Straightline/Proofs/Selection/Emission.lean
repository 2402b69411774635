import Straightline.Compile
import Straightline.Proofs.Selection.Bookkeeping
import Straightline.Proofs.Semantics.Machine

/-!
Code is only ever appended, also by a step that fails, and its instructions are of a few shapes. The
one label in a function's code is the function's name, so in the code of a module a function is found
by its label.
-/
namespace Straightline.Selection

open IR
open Machine (Instr Opcode Operand Register codeAt)

variable {α β : Type}

/-- The state that a step ends in, whether it succeeds or not. -/
def stateOf : EStateM.Result Stop State α → State
  | .ok _ s | .error _ s => s

/-- However the step ends from `s`, it has appended nothing but instructions with the property `P`. -/
def Appends (P : Instr → Prop) (x : Select α) (s : State) : Prop :=
  ∃ c, (stateOf (x s)).code = s.code ++ c ∧ ∀ i ∈ c, P i

namespace Appends

variable {P Q : Instr → Prop} {x y : Select α} {s : State}

theorem imp (h : Appends P x s) (hPQ : ∀ i, P i → Q i) : Appends Q x s := by
  obtain ⟨c, hc, hP⟩ := h
  exact ⟨c, hc, fun i hi => hPQ i (hP i hi)⟩

theorem of_ok {a : α} {s' : State} (h : Appends P x s) (hx : x s = .ok a s') :
    ∃ c, s'.code = s.code ++ c ∧ ∀ i ∈ c, P i := by
  unfold Appends at h
  rw [hx] at h
  exact h

theorem of_code_eq (h : (stateOf (x s)).code = s.code) : Appends P x s :=
  ⟨[], by simp [h], by simp⟩

theorem pure (a : α) : Appends P (pure a : Select α) s := of_code_eq rfl

theorem reject (l : Limit) : Appends P (reject l : Select α) s := of_code_eq rfl

theorem fault (c : Fault.Cause) : Appends P (fault c : Select α) s := of_code_eq rfl

theorem get : Appends P (get : Select State) s := of_code_eq rfl

/-- What follows a step is only run if the step succeeds. -/
theorem bind {f : α → Select β} (hx : Appends P x s)
    (hf : ∀ a t, x s = .ok a t → Appends P (f a) t) : Appends P (x >>= f) s := by
  obtain ⟨c, hc, hP⟩ := hx
  change ∃ d, (stateOf (EStateM.bind x f s)).code = _ ∧ _
  unfold EStateM.bind
  cases h : x s with
  | ok a t =>
    rw [h] at hc
    obtain ⟨d, hd, hQ⟩ := hf a t h
    refine ⟨c ++ d, ?_, List.forall_mem_append.2 ⟨hP, hQ⟩⟩
    change t.code = s.code ++ c at hc
    change (stateOf (f a t)).code = _
    rw [hd, hc, List.append_assoc]
  | error e t =>
    rw [h] at hc
    exact ⟨c, hc, hP⟩

theorem map {f : α → β} (hx : Appends P x s) : Appends P (f <$> x) s := by
  rw [map_eq_pure_bind]
  exact hx.bind fun _ _ _ => pure _

theorem ite {c : Prop} [Decidable c] (hx : c → Appends P x s) (hy : ¬ c → Appends P y s) :
    Appends P (if c then x else y) s := by
  split
  next h => exact hx h
  next h => exact hy h

theorem mapM {γ : Type} {f : γ → Select β} (hf : ∀ a s, Appends P (f a) s) (l : List γ) :
    Appends P (l.mapM f) s := by
  induction l generalizing s with
  | nil => exact pure _
  | cons a l ih =>
    rw [List.mapM_cons]
    exact (hf a s).bind fun _ _ _ => ih.bind fun _ _ _ => pure _

theorem issue {i : Instr} (hi : P i) : Appends P (issue i) s := by
  unfold Appends Selection.issue
  split
  · exact ⟨[i], rfl, by simpa using hi⟩
  · exact ⟨[], by simp [stateOf], by simp⟩

section Sequences

variable {c : Prop} [Decidable c] {i : Instr} {k : Select Unit}

theorem issue_seq (hi : P i) (hk : ∀ t, Appends P k t) :
    Appends P (do Selection.issue i; k) s := (issue hi).bind fun _ t _ => hk t

theorem issue_when (hi : P i) (hk : ∀ t, Appends P k t) :
    Appends P (if c then (do Selection.issue i; k) else k) s :=
  ite (fun _ => issue_seq hi hk) fun _ => hk s

theorem reject_when {l : Limit} (hk : ¬ c → Appends P k s) :
    Appends P (if c then (do Selection.reject l; k) else k) s :=
  ite (fun _ => (reject l).bind fun _ _ h => (throw_eq_ok.1 h).elim) hk

end Sequences

theorem settle (v : Value) (p : Place) : Appends P (settle v p) s := by
  apply of_code_eq
  cases v <;> rfl

theorem spend (v : Value) : Appends P (spend v) s := by
  apply of_code_eq
  cases v <;> rfl

theorem demandInt (subject : Subject) (ty : Ty) : Appends P (demandInt subject ty) s :=
  ite (fun _ => pure _) fun _ => reject _

theorem offsetOf (cx : Context) (name : String) : Appends P (offsetOf cx name) s := by
  unfold Selection.offsetOf
  split
  · exact pure _
  · exact fault _

theorem find (cx : Context) (v : Value) (s : State) : Appends P (find cx v) s := by
  unfold Selection.find
  split
  · exact pure _
  · exact reject _
  · exact (demandInt _ _).bind fun _ _ _ => (offsetOf _ _).map
  · refine (demandInt _ _).bind fun _ _ _ => get.bind fun s _ _ => ?_
    split
    · exact pure _
    · exact fault _

end Appends

/-- Where a value may be read from: if in memory, then in a slot. -/
def Place.Known (cx : Context) (p : Place) : Prop :=
  ∀ o, p = .slot o → ∃ x, cx.frame.offset? x = some o

theorem WellPlaced.known {cx : Context} {s : State} {v : Value} {p : Place} (hs : WellPlaced cx s)
    (h : cx.locate s v = some p) : p.Known cx := by
  rintro o rfl
  match v with
  | .const (.int _) | .const (.float _) | .const (.string _) | .const (.bool _) => cases h
  | .var x =>
    simp only [Context.locate] at h
    split at h
    · obtain ⟨o', ho, he⟩ := Option.map_eq_some_iff.1 h
      cases he
      exact ⟨x.name, ho⟩
    · cases h
  | .temp t =>
    simp only [Context.locate] at h
    split at h
    · exact hs _ _ h
    · cases h

/-- The source of an arithmetic instruction can be encoded with its opcode. -/
inductive Direct (op : Opcode) : Operand → Prop
  | reg (r : Register) : Direct op (.reg r)
  | imm {n : Int64} (h : isDirect op n = true) : Direct op (.imm n)

/-- The instructions of a function's body: they compute in the argument registers and touch no memory
but the slots. -/
inductive Plain (cx : Context) : Instr → Prop
  | read {p : Place} {dst : Register} (hp : p.Known cx) (hdst : dst ∈ Register.arguments) :
      Plain cx (p.into dst)
  | store {x : String} {o : Int} (ho : cx.frame.offset? x = some o) (src : Register) :
      Plain cx (.store src .fp o)
  | compute {b : BinOp} {op : Opcode} {src : Operand} (hop : opcode? b = some op)
      (hsrc : Direct op src) (lhs : Register) : Plain cx (.arith op .r0 lhs src)
  | call (symbol : String) (args : List Register) : Plain cx (.call symbol args)
  | remark (text : String) : Plain cx (.remark text)

/-- All instructions of a function: those that set up the frame and take it down and those between. A
frame that is too large has no body. -/
inductive Emitted (cx : Context) : Instr → Prop
  | global : Emitted cx (.global cx.function.name)
  | label : Emitted cx (.label cx.function.name)
  | remark (text : String) : Emitted cx (.remark text)
  | push : Emitted cx (.storePair .fp .lr .sp (-16))
  | point : Emitted cx (.move .fp .sp)
  | reserve (hsize : cx.frame.size ≤ Frame.maxSize) :
      Emitted cx (.arith .subtract .sp .sp (.imm (Int64.ofNat cx.frame.size)))
  | plain {i : Instr} (hsize : cx.frame.size ≤ Frame.maxSize) (hi : Plain cx i) : Emitted cx i
  | release : Emitted cx (.move .sp .fp)
  | pop : Emitted cx (.loadPair .fp .lr .sp 16)
  | ret : Emitted cx .ret

section Shapes

variable {cx : Context} {s s' : State} {v : Value} {dst : Register} {i : Instr}

theorem Plain.move (hdst : dst ∈ Register.arguments) (src : Register) :
    Plain cx (.move dst src) := .read (p := .reg src) nofun hdst

theorem Plain.moveImm (hdst : dst ∈ Register.arguments) (n : Int64) :
    Plain cx (.moveImm dst n) := .read (p := .imm n) nofun hdst

/-- The body's code has no label of its own and does not return. -/
theorem Plain.opcode_ne (h : Plain cx i) :
    i.opcode ≠ .defineLabel ∧ i.opcode ≠ .global ∧ i.opcode ≠ .ret := by
  cases h with
  | @read p => cases p <;> exact ⟨nofun, nofun, nofun⟩
  | @compute b _ _ hop => cases b <;> cases hop <;> exact ⟨nofun, nofun, nofun⟩
  | store | call | remark => exact ⟨nofun, nofun, nofun⟩

/-- A function's code defines no label but its name. -/
theorem Emitted.eq_label (h : Emitted cx i) (hi : i.opcode = .defineLabel) :
    i = .label cx.function.name := by
  cases h with
  | label => rfl
  | plain _ h => exact (h.opcode_ne.1 hi).elim
  | global | remark | push | point | reserve | release | pop | ret => cases hi

theorem direct_of_fetchOperands {op : Opcode} {lhs rhs : Value} {p : Place} {x : Register × Operand}
    (h : fetchOperands cx op lhs rhs p s = .ok x s') : Direct op x.2 := by
  obtain ⟨-, -, ⟨r, -, -, rfl⟩ | ⟨n, -, hn, -, rfl⟩ | ⟨-, -, -, rfl⟩⟩ := fetchOperands_eq_ok.1 h
  · exact .reg r
  · exact .imm hn
  · exact .reg .r0

end Shapes

namespace Appends

variable {cx : Context} {s : State}

theorem fetch (hs : WellPlaced cx s) (v : Value) {dst : Register} (hdst : dst ∈ Register.arguments) :
    Appends (Plain cx) (fetch cx v dst) s := by
  refine (find cx v s).bind fun p t hp => ?_
  obtain ⟨hp, rfl⟩ := find_eq_ok.1 hp
  have hread : Plain cx (p.into dst) := .read (hs.known hp) hdst
  refine (spend v).bind fun _ _ _ => ?_
  cases p with
  | imm | slot => exact issue hread
  | reg r => exact ite (fun _ => pure _) fun _ => (issue hread).bind fun _ _ _ => settle _ _

theorem stepAside (v : Value) (p : Place) : Appends (Plain cx) (stepAside v p) s := by
  refine ite (fun _ => (issue ?_).bind fun _ _ _ => (settle _ _).bind fun _ _ _ => pure _)
    fun _ => pure _
  exact .move (by decide) .r0

theorem fetchOperands (hs : WellPlaced cx s) (op : Opcode) (lhs rhs : Value) (p : Place) :
    Appends (Plain cx) (fetchOperands cx op lhs rhs p) s := by
  refine (fetch hs lhs (by decide)).bind fun _ t hl => ?_
  have ht : WellPlaced cx t := hs.fetch (by decide) hl
  have hdetour : Appends (Plain cx) (do
      Selection.issue (.move .r1 .r0)
      Selection.fetch cx rhs .r0
      return (Register.r1, Operand.reg .r0)) t := by
    refine (issue (.move (by decide) .r0)).bind fun _ u hu => ?_
    obtain ⟨-, rfl⟩ := issue_eq_ok.1 hu
    exact (fetch (ht.issued _) rhs (by decide)).bind fun _ _ _ => pure _
  cases p with
  | reg r => exact (spend _).bind fun _ _ _ => pure _
  | imm n => exact ite (fun _ => pure _) fun _ => hdetour
  | slot o => exact hdetour

theorem codeOfBinary (hs : WellPlaced cx s) (b : BinOp) (t : Temporary) (lhs rhs : Value) :
    Appends (Plain cx) (codeOfBinary cx b t lhs rhs) s := by
  unfold Selection.codeOfBinary
  cases hop : opcode? b with
  | none => exact reject _
  | some op =>
    refine (find cx rhs s).bind fun p _ hp => (stepAside rhs p).bind fun q u hq => ?_
    obtain ⟨-, rfl⟩ := find_eq_ok.1 hp
    refine (fetchOperands (hs.stepAside hq) op lhs rhs q).bind fun x _ hx => ?_
    exact (issue (.compute hop (direct_of_fetchOperands hx) x.1)).bind fun _ _ _ => settle _ _

theorem fetchArgs (hs : WellPlaced cx s) (which : Place → Bool)
    {ms : List ((Value × Place) × Register)} (hms : ∀ m ∈ ms, m.2 ∈ Register.arguments) :
    Appends (Plain cx) (fetchArgs cx which ms) s := by
  induction ms generalizing s with
  | nil => exact pure _
  | cons m ms ih =>
    obtain ⟨hm, hms⟩ := List.forall_mem_cons.1 hms
    refine ite (fun _ => (fetch hs _ hm).bind fun _ t ht => ?_) fun _ => ih hs hms
    exact ih (hs.fetch hm ht) hms

/-- Passing the arguments, the call itself, and what is done with its result. -/
theorem passArgs (hs : WellPlaced cx s) (callee : String) (args : List Value) {k : Select Unit}
    (hk : ∀ t, Appends (Plain cx) k t) :
    Appends (Plain cx) (do
      let places ← args.mapM (Selection.find cx)
      Selection.fetchArgs cx Place.isReg (Context.moves args places)
      Selection.fetchArgs cx (!·.isReg) (Context.moves args places)
      Selection.issue (.call (cx.target.callee callee) (Register.arguments.take args.length))
      k) s := by
  refine (mapM (find cx) args).bind fun places _ hplaces => ?_
  obtain ⟨-, rfl⟩ := mapM_find_eq_ok.1 hplaces
  have hms : ∀ m ∈ Context.moves args places, m.2 ∈ Register.arguments :=
    fun m hm => (List.of_mem_zip hm).2
  refine (fetchArgs hs _ hms).bind fun _ t ht => ?_
  refine (fetchArgs (hs.fetchArgs hms ht) _ hms).bind fun _ _ _ => ?_
  exact issue_seq (.call _ _) hk

theorem codeOfCall (hs : WellPlaced cx s) (result : Option Temporary) (callee : String)
    (args : List Value) : Appends (Plain cx) (codeOfCall cx result callee args) s := by
  unfold Selection.codeOfCall
  cases result with
  | none =>
    refine ite (fun _ => (issue (.remark _)).bind fun _ _ _ => reject _) fun _ => ?_
    exact passArgs hs callee args fun _ => pure _
  | some t =>
    refine (demandInt _ _).bind fun _ _ ht => ?_
    obtain ⟨-, rfl⟩ := demandInt_eq_ok.1 ht
    refine ite (fun _ => (issue (.remark _)).bind fun _ _ _ => reject _) fun _ => ?_
    exact passArgs hs callee args fun _ => settle _ _

theorem codeOfOp (hs : WellPlaced cx s) (o : Op) : Appends (Plain cx) (codeOfOp cx o) s := by
  match o with
  | .alloc _ => exact pure _
  | .store (.var x) v =>
    refine (offsetOf cx _).bind fun o _ h => ?_
    obtain ⟨ho, rfl⟩ := offsetOf_eq_ok.1 h
    refine (fetch hs v (by decide)).bind fun _ _ _ => get.bind fun _ _ _ => ?_
    exact ite (fun _ => fault _) fun _ => issue (.store ho .r0)
  | .load t (.var x) => exact (offsetOf cx _).bind fun _ _ _ => settle _ _
  | .store (.const _) _ | .store (.temp _) _ | .load _ (.const _) | .load _ (.temp _) =>
    exact fault _
  | .binary b t lhs rhs => exact codeOfBinary hs b t lhs rhs
  | .call t f args => exact codeOfCall hs t f args

variable (cx) in
theorem epilogue (s : State) : Appends (Emitted cx) (epilogue cx) s :=
  issue_seq (.remark _) fun _ => issue_when .release fun _ => issue_seq .pop fun _ => issue .ret

theorem codeOf (hs : WellPlaced cx s) (hsize : cx.frame.size ≤ Frame.maxSize) (i : Instruction) :
    Appends (Emitted cx) (codeOf cx i) s := by
  match i with
  | .op o => exact (codeOfOp hs o).imp fun _ => .plain hsize
  | .ret (some v) =>
    exact ((fetch hs v (by decide)).imp fun _ => .plain hsize).bind fun _ t _ => epilogue cx t
  | .ret none => exact issue_when (.plain hsize (.moveImm (by decide) 0)) (epilogue cx)

theorem storeParams (ps : List (Variable × Register)) :
    Appends (Plain cx) (storeParams cx ps) s := by
  induction ps generalizing s with
  | nil => exact pure _
  | cons p ps ih =>
    refine (demandInt _ _).bind fun _ _ _ => (offsetOf cx _).bind fun o _ ho => ?_
    exact issue_seq (.store (offsetOf_eq_ok.1 ho).1 _) fun _ => ih

theorem prologue : Appends (Emitted cx) (prologue cx) s := by
  refine issue_when .global fun _ => issue_seq .label fun _ => issue_seq (.remark _) fun _ => ?_
  refine issue_seq .push fun _ => issue_seq .point fun _ => reject_when fun hsize => ?_
  have hsize : cx.frame.size ≤ Frame.maxSize := Nat.not_lt.1 hsize
  refine issue_when (.reserve hsize) fun _ => reject_when fun _ => ?_
  exact (storeParams _).imp fun _ => .plain hsize

end Appends

/-- A return that succeeds ends in the code that takes the frame down. -/
theorem plain_of_codeOf_ret {cx : Context} {s s' : State} {v : Option Value} {u : Unit}
    (hs : WellPlaced cx s) (h : codeOf cx (.ret v) s = .ok u s') :
    ∃ c, s'.code = s.code ++ (c ++ (cx.takeDown ++ [.ret])) ∧ ∀ i ∈ c, Plain cx i := by
  cases v with
  | some v =>
    obtain ⟨s₁, hf, -, rfl⟩ := codeOfReturn_some_eq_ok.1 h
    obtain ⟨c, hc, hplain⟩ := (Appends.fetch hs v (by decide)).of_ok hf
    exact ⟨c, by simp [hc, Context.leave_eq], hplain⟩
  | none =>
    obtain ⟨-, -, rfl⟩ := codeOfReturn_none_eq_ok.1 h
    refine ⟨_, by rw [State.extended_code, Context.leave_eq], ?_⟩
    split
    · simpa using Plain.moveImm (by decide) 0
    · simp

variable {t : Target} {f : Func} {seg : Segment} {P : Instr → Prop}

/-- Selection goes on after a step that succeeds and ends with one that meets a limit. -/
theorem proceed_cases {span : Span} {step : EStateM.Result Stop State Unit}
    {next : State → Except Fault Segment} (h : proceed f span step next = .ok seg) :
    (∃ s, step = .ok () s ∧ next s = .ok seg) ∨
      ∃ l s, step = .error (.limit l) s ∧ seg = ⟨s.code, some (l.diagnostic f.name span)⟩ := by
  unfold proceed at h
  split at h
  next s => exact .inl ⟨s, rfl, h⟩
  next l s => exact .inr ⟨l, s, rfl, (Except.ok.inj h).symm⟩
  next => cases h

/-- A step and what is selected after it have appended to the code before. -/
theorem proceed_code {span : Span} {x : Select Unit} {s : State}
    {next : State → Except Fault Segment} (hx : Appends P x s)
    (hnext : ∀ s', x s = .ok () s' → next s' = .ok seg →
      ∃ c, seg.code = s'.code ++ c ∧ ∀ i ∈ c, P i)
    (h : proceed f span (x s) next = .ok seg) : ∃ c, seg.code = s.code ++ c ∧ ∀ i ∈ c, P i := by
  obtain ⟨c, hc, hP⟩ := hx
  rcases proceed_cases h with ⟨s₁, hs, h⟩ | ⟨l, s₁, hs, rfl⟩
  · rw [hs] at hc
    obtain ⟨d, hd, hQ⟩ := hnext s₁ hs h
    refine ⟨c ++ d, ?_, List.forall_mem_append.2 ⟨hP, hQ⟩⟩
    rw [hd, show s₁.code = s.code ++ c from hc, List.append_assoc]
  · rw [hs] at hc
    exact ⟨c, hc, hP⟩

/-- Code is found without meeting a limit just when the step succeeds and so does what follows. -/
theorem proceed_eq_ok {span : Span} {step : EStateM.Result Stop State Unit}
    {next : State → Except Fault Segment} :
    proceed f span step next = .ok seg ∧ seg.diagnostic = none ↔
      ∃ s, step = .ok () s ∧ next s = .ok seg ∧ seg.diagnostic = none := by
  constructor
  · rintro ⟨h, hd⟩
    rcases proceed_cases h with ⟨s, hs, h⟩ | ⟨l, s, -, rfl⟩
    · exact ⟨s, hs, h, hd⟩
    · cases hd
  · rintro ⟨s, rfl, h⟩
    exact h

theorem codeOfAll_appends {cx : Context} {is : List (Located Instruction)} {s : State}
    (hP : ∀ s, WellPlaced cx s → ∀ i, Appends P (codeOf cx i) s) (hs : WellPlaced cx s)
    (h : codeOfAll cx is s = .ok seg) : ∃ c, seg.code = s.code ++ c ∧ ∀ i ∈ c, P i := by
  induction is generalizing s with
  | nil =>
    obtain rfl := Except.ok.inj h
    exact ⟨[], by simp, by simp⟩
  | cons i is ih => exact proceed_code (hP s hs i.val) (fun _ hs' => ih (hs.codeOf hs')) h

theorem codeOfAll_code {cx : Context} {is : List (Located Instruction)} {s : State}
    (hs : WellPlaced cx s) (hsize : cx.frame.size ≤ Frame.maxSize)
    (h : codeOfAll cx is s = .ok seg) : ∃ c, seg.code = s.code ++ c ∧ ∀ i ∈ c, Emitted cx i :=
  codeOfAll_appends (fun _ hs i => .codeOf hs hsize i) hs h

theorem codeOfFunc_code (h : codeOfFunc t f = .ok seg) : ∀ i ∈ seg.code, Emitted ⟨t, f⟩ i := by
  have hbody : ∀ s', prologue ⟨t, f⟩ { pending := reads f } = .ok () s' →
      codeOfAll ⟨t, f⟩ f.instructions s' = .ok seg →
      ∃ c, seg.code = s'.code ++ c ∧ ∀ i ∈ c, Emitted ⟨t, f⟩ i := by
    intro s' hs'
    obtain ⟨-, -, hsize, -⟩ := prologue_eq_ok.1 hs'
    exact codeOfAll_code (wellPlaced_of_prologue hs') hsize
  obtain ⟨c, hc, hP⟩ := proceed_code Appends.prologue hbody h
  simpa [hc] using hP

theorem codeAt_append {name : String} {xs ys : List Instr} (h : ∀ i ∈ xs, i ≠ .label name) :
    codeAt name (xs ++ ys) = codeAt name ys :=
  List.dropWhile_append_of_pos (by simpa using h)

theorem selectModule_eq_ok {m : Module} {s : Selected} :
    selectModule t m = .ok s ↔ m.isComplete = true ∧
      ∃ segs, List.Forall₂ (codeOfFunc t · = .ok ·) m.functions segs ∧
        s = ⟨segs.flatMap (·.code), segs.filterMap (·.diagnostic)⟩ := by
  unfold selectModule
  by_cases hm : m.isComplete = true
  · simp only [hm, if_true, true_and, ← mapM_eq_ok_iff]
    cases m.functions.mapM (codeOfFunc t) <;> simp [eq_comm (b := s)]
  · simp [hm]

/-- The code of a function stands in that of its module as it is, and where names differ its label
does not stand before. -/
theorem exists_append_of_mem {fs : List Func} {segs : List Segment}
    (h : List.Forall₂ (codeOfFunc t · = .ok ·) fs segs) (hf : f ∈ fs)
    (hseg : codeOfFunc t f = .ok seg) :
    ∃ before after, segs.flatMap (·.code) = before ++ (seg.code ++ after) ∧
      ((fs.map (·.name)).Nodup → ∀ i ∈ before, i ≠ .label f.name) := by
  induction h with
  | nil => cases hf
  | @cons g seg' fs segs hg _ ih =>
    rcases List.mem_cons.1 hf with rfl | hf
    · obtain rfl : seg' = seg := Except.ok.inj (hg.symm.trans hseg)
      exact ⟨[], segs.flatMap (·.code), rfl, by simp⟩
    · obtain ⟨before, after, hcode, hbefore⟩ := ih hf
      refine ⟨seg'.code ++ before, after, by simp [hcode], ?_⟩
      intro hnames
      rw [List.map_cons, List.nodup_cons] at hnames
      refine List.forall_mem_append.2 ⟨?_, hbefore hnames.2⟩
      rintro i hi rfl
      -- The label would be the other function's name.
      have hlabel := (codeOfFunc_code hg _ hi).eq_label rfl
      simp only [Instr.label, Instr.mk.injEq, List.cons.injEq, Operand.label.injEq] at hlabel
      exact hnames.1 (List.mem_map.2 ⟨f, hf, hlabel.2.1.1⟩)

/-- In the code of a module, what stands at the name of a function is the function's own code. -/
theorem codeAt_selectModule {m : Module} {s : Selected} (h : selectModule t m = .ok s)
    (hf : f ∈ m.functions) (hseg : codeOfFunc t f = .ok seg) :
    ∃ rest, codeAt f.name s.code = codeAt f.name (seg.code ++ rest) := by
  obtain ⟨-, segs, hsegs, rfl⟩ := selectModule_eq_ok.1 h
  obtain ⟨before, after, hcode, hbefore⟩ := exists_append_of_mem hsegs hf hseg
  refine ⟨after, ?_⟩
  rw [hcode]
  exact codeAt_append (hbefore m.nodup)

end Straightline.Selection
