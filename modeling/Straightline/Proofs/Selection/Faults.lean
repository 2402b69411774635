import Straightline.Proofs.Lowering.Order
import Straightline.Proofs.Selection.Emission
import Straightline.Proofs.Selection.Layout
import Straightline.Proofs.Selection.Occupancy

/-!
Selection of code that is in order. It may meet a limit but never a fault: a temporary has a place
from its definition on, and at a store no load from before is awaited any more.
-/
namespace Straightline.Selection

open IR
open Machine (Instr Opcode Operand Register)

variable {α β : Type} {cx : Context} {s s' : State} {n m : Nat} {v : Value}

/-- Every temporary from `n` up to `m` has a place. -/
def State.Places (s : State) (n m : Nat) : Prop := ∀ id, n ≤ id → id < m → s.place? id ≠ none

/-- A step that does not fault where the temporaries from `n` up to `m` have places, and leaves
them some place. -/
structure Faultless (n m : Nat) (x : Select α) : Prop where
  places : ∀ {s a s'}, s.Places n m → x s = .ok a s' → s'.Places n m
  noFault : ∀ {s c s'}, s.Places n m → x s ≠ .error (.fault c) s'

namespace Faultless

variable {x y : Select α}

theorem pure (a : α) : Faultless n m (pure a : Select α) := by
  constructor
  · intro s b s' hs h
    obtain ⟨-, rfl⟩ := pure_eq_ok.1 h
    exact hs
  · intro s c s' _ h
    cases h

theorem reject (l : Limit) : Faultless n m (reject l : Select α) := by
  constructor
  · intro s a s' _ h
    exact (throw_eq_ok.1 h).elim
  · intro s c s' _ h
    cases h

theorem bind {f : α → Select β} (hx : Faultless n m x) (hf : ∀ a, Faultless n m (f a)) :
    Faultless n m (x >>= f) := by
  constructor
  · intro s b s' hs h
    obtain ⟨a, s₁, h₁, h⟩ := bind_eq_ok.1 h
    exact (hf a).places (hx.places hs h₁) h
  · intro s c s' hs h
    rcases bind_eq_error.1 h with h | ⟨a, s₁, h₁, h⟩
    · exact hx.noFault hs h
    · exact (hf a).noFault (hx.places hs h₁) h

theorem ite {c : Prop} [Decidable c] (hx : Faultless n m x) (hy : Faultless n m y) :
    Faultless n m (if c then x else y) := by
  split
  · exact hx
  · exact hy

theorem when {c : Prop} [Decidable c] {x : Select Unit} (hx : Faultless n m x)
    (hy : Faultless n m y) : Faultless n m (if c then (do x; y) else y) :=
  ite (hx.bind fun _ => hy) hy

theorem mapM {γ : Type} {f : γ → Select β} {l : List γ} (hf : ∀ a ∈ l, Faultless n m (f a)) :
    Faultless n m (l.mapM f) := by
  induction l with
  | nil => exact pure _
  | cons a l ih =>
    rw [List.mapM_cons]
    have hl := ih fun b hb => hf b (.tail _ hb)
    exact (hf a (.head _)).bind fun _ => hl.bind fun _ => pure _

theorem issue (i : Instr) : Faultless n m (issue i) := by
  constructor
  · intro s u s' hs h
    obtain ⟨-, rfl⟩ := issue_eq_ok.1 h
    exact hs
  · intro s c s' _ h
    unfold Selection.issue at h
    split at h <;> cases h

theorem spend (v : Value) : Faultless n m (spend v) := by
  constructor
  · intro s u s' hs h
    obtain rfl := spend_eq_ok.1 h
    intro id hn hm
    rw [State.spent_place?]
    exact hs id hn hm
  · intro s c s' _ h
    cases v <;> cases h

theorem settle (v : Value) (p : Place) : Faultless n m (settle v p) := by
  constructor
  · intro s u s' hs h
    obtain rfl := settle_eq_ok.1 h
    intro id hn hm
    by_cases hid : id ∈ ids [v]
    · obtain ⟨ty, rfl⟩ := mem_ids_singleton hid
      simp [State.settled_place?]
    · rw [settled_place?_of_not_mem hid]
      exact hs id hn hm
  · intro s c s' _ h
    cases v <;> cases h

theorem demandInt (subject : Subject) (ty : Ty) : Faultless n m (demandInt subject ty) :=
  ite (pure _) (reject _)

theorem offsetOf {name : String} (hname : name ∈ cx.frame.names) :
    Faultless n m (offsetOf cx name) := by
  unfold Selection.offsetOf
  split
  · exact pure _
  next h => exact (Frame.offset?_eq_none_iff.1 h hname).elim

theorem find (hv : v.Between n m) : Faultless n m (find cx v) := by
  constructor
  · intro s p s' hs h
    obtain ⟨-, rfl⟩ := find_eq_ok.1 h
    exact hs
  · intro s c s' hs h
    match v with
    | .const (.int _) | .const (.float _) | .const (.string _) | .const (.bool _) => cases h
    | .temp t =>
      rcases bind_eq_error.1 h with h | ⟨_, s₁, h₁, hrest⟩
      · exact (demandInt _ _).noFault hs h
      · obtain ⟨-, rfl⟩ := demandInt_eq_ok.1 h₁
        rcases bind_eq_error.1 hrest with hget | ⟨_, _, hget, hfound⟩
        · cases hget
        · obtain ⟨rfl, rfl⟩ := get_eq_ok.1 hget
          cases hp : s₁.place? t.id with
          | none => exact hs t.id hv.1 hv.2 hp
          | some p =>
            rw [hp] at hfound
            cases hfound

theorem fetch (hv : v.Between n m) (dst : Register) : Faultless n m (fetch cx v dst) := by
  refine (find hv).bind fun p => (spend v).bind fun _ => ?_
  cases p with
  | imm k => exact issue _
  | slot o => exact issue _
  | reg r => exact ite (pure _) ((issue _).bind fun _ => settle _ _)

theorem stepAside (v : Value) (p : Place) : Faultless n m (stepAside v p) :=
  ite ((issue _).bind fun _ => (settle _ _).bind fun _ => pure _) (pure _)

theorem fetchOperands {lhs rhs : Value} (hl : lhs.Between n m) (hr : rhs.Between n m) (op : Opcode)
    (p : Place) : Faultless n m (fetchOperands cx op lhs rhs p) := by
  have hdetour : Faultless n m (do
      Selection.issue (.move .r1 .r0)
      Selection.fetch cx rhs .r0
      return (Register.r1, Operand.reg .r0) : Select _) :=
    (issue _).bind fun _ => (fetch hr _).bind fun _ => pure _
  refine (fetch hl _).bind fun _ => ?_
  cases p with
  | reg r => exact (spend _).bind fun _ => pure _
  | imm k => exact ite (pure _) hdetour
  | slot o => exact hdetour

theorem codeOfBinary {lhs rhs : Value} (hl : lhs.Between n m) (hr : rhs.Between n m) (b : BinOp)
    (t : Temporary) : Faultless n m (codeOfBinary cx b t lhs rhs) := by
  unfold Selection.codeOfBinary
  split
  · exact reject _
  · exact (find hr).bind fun p => (stepAside _ p).bind fun q =>
      (fetchOperands hl hr _ q).bind fun _ => (issue _).bind fun _ => settle _ _

theorem fetchArgs (which : Place → Bool) {ms : List ((Value × Place) × Register)}
    (hms : ∀ x ∈ ms, x.1.1.Between n m) : Faultless n m (fetchArgs cx which ms) := by
  induction ms with
  | nil => exact pure _
  | cons x rest ih => exact when (fetch (hms x (.head _)) _) (ih fun y hy => hms y (.tail _ hy))

theorem codeOfCall {args : List Value} (hargs : ∀ v ∈ args, v.Between n m)
    (result : Option Temporary) (callee : String) :
    Faultless n m (codeOfCall cx result callee args) := by
  have hmoves : ∀ (places : List Place), ∀ x ∈ (args.zip places).zip Register.arguments,
      x.1.1.Between n m :=
    fun places x hx => hargs _ (List.of_mem_zip (List.of_mem_zip hx).1).1
  unfold Selection.codeOfCall
  cases result with
  | none =>
    refine ite ((issue _).bind fun _ => reject _) ?_
    refine (mapM fun v hv => find (hargs v hv)).bind fun places => ?_
    refine (fetchArgs _ (hmoves places)).bind fun _ => ?_
    exact (fetchArgs _ (hmoves places)).bind fun _ => (issue _).bind fun _ => pure _
  | some t =>
    refine (demandInt _ _).bind fun _ => ite ((issue _).bind fun _ => reject _) ?_
    refine (mapM fun v hv => find (hargs v hv)).bind fun places => ?_
    refine (fetchArgs _ (hmoves places)).bind fun _ => ?_
    exact (fetchArgs _ (hmoves places)).bind fun _ => (issue _).bind fun _ => settle _ _

theorem epilogue : Faultless n m (epilogue cx) :=
  (issue _).bind fun _ => when (issue _) ((issue _).bind fun _ => issue _)

theorem codeOfReturn {value : Option Value} (hv : ∀ v ∈ value, v.Between n m) :
    Faultless n m (codeOfReturn cx value) := by
  cases value with
  | some v => exact (fetch (hv v rfl) _).bind fun _ => epilogue
  | none => exact when (issue _) epilogue

theorem storeParams {ps : List (Variable × Register)} (hps : ∀ p ∈ ps, p.1.name ∈ cx.frame.names) :
    Faultless n m (storeParams cx ps) := by
  induction ps with
  | nil => exact pure _
  | cons p rest ih =>
    exact (demandInt _ _).bind fun _ => (offsetOf (hps p (.head _))).bind fun _ =>
      (issue _).bind fun _ => ih fun q hq => hps q (.tail _ hq)

theorem prologue : Faultless n m (prologue cx) := by
  have hparams : ∀ p ∈ cx.function.params.zip Register.arguments, p.1.name ∈ cx.frame.names := by
    intro p hp
    apply Frame.mem_ofFunc.2
    exact List.mem_append_left _ (List.mem_map_of_mem (List.of_mem_zip hp).1)
  unfold Selection.prologue
  refine when (issue _) ((issue _).bind fun _ => (issue _).bind fun _ => (issue _).bind fun _ =>
    (issue _).bind fun _ => when (reject _) (when (issue _) (when (reject _) ?_)))
  exact storeParams hparams

end Faultless

variable {h h' : Horizon} {o : Op} {rest : List Nat} {u : Unit}

theorem Faultless.codeOfOp (ho : h.Admits o h') (hnames : ∀ x ∈ h.names, x ∈ cx.frame.names)
    (hstore : ∀ d v, o ≠ .store d v) : Faultless h.since h.next (codeOfOp cx o) := by
  cases ho with
  | alloc x => exact pure ()
  | store hx hv => exact (hstore _ _ rfl).elim
  | load ty hx => exact (offsetOf (hnames _ hx)).bind fun _ => settle _ _
  | binary ty hl hr => exact codeOfBinary hl hr _ _
  | @call f args ty hargs => exact codeOfCall hargs (some ⟨h.next, ty⟩) f
  | @callVoid f args hargs => exact codeOfCall hargs none f

/-- The state that selection is in once it has come to where `h` is known: the names have slots, the
temporaries that may be read have places, later ones have none, and `rest` are the reads to come. -/
structure Reached (cx : Context) (h : Horizon) (rest : List Nat) (s : State) : Prop where
  names : ∀ x ∈ h.names, x ∈ cx.frame.names
  le : h.since ≤ h.next
  places : s.Places h.since h.next
  fresh : ∀ id, h.next ≤ id → s.place? id = none
  wellPlaced : WellPlaced cx s
  pending : s.pending.Perm rest

namespace Reached

/-- No load from before a store is awaited once its value is fetched. -/
theorem store_noFault {x : Variable} {c : Fault.Cause} (hs : Reached cx h (ids [v] ++ rest) s)
    (hx : x.name ∈ h.names) (hv : h.Readable v) (hrest : ∀ id ∈ rest, h.next ≤ id) :
    codeOfOp cx (.store (.var x) v) s ≠ .error (.fault c) s' := by
  intro hstore
  rcases bind_eq_error.1 hstore with hoff | ⟨o, s₁, hoff, hrun⟩
  · exact (Faultless.offsetOf (hs.names _ hx)).noFault hs.places hoff
  obtain ⟨-, rfl⟩ := offsetOf_eq_ok.1 hoff
  rcases bind_eq_error.1 hrun with hfetch | ⟨_, s₂, hfetch, hrun⟩
  · exact (Faultless.fetch hv .r0).noFault hs.places hfetch
  rcases bind_eq_error.1 hrun with hget | ⟨_, _, hget, hissue⟩
  · cases hget
  obtain ⟨rfl, rfl⟩ := get_eq_ok.1 hget
  have hplaces : s₂.Places h.since h.next := (Faultless.fetch hv .r0).places hs.places hfetch
  have hfree : s₂.isAwaited (.slot o) = false := by
    apply State.isAwaited_eq_false_iff.2
    intro id hid
    have hnext : h.next ≤ id := hrest id ((fetch_perm hfetch hs.pending).mem_iff.1 hid)
    have hnot : id ∉ ids [v] := by
      intro hmem
      obtain ⟨ty, rfl⟩ := mem_ids_singleton hmem
      exact Nat.not_lt.2 hnext hv.2
    rw [fetch_place? hfetch hnot, hs.fresh id hnext]
    exact nofun
  simp only [hfree, Bool.false_eq_true, if_false] at hissue
  exact (Faultless.issue _).noFault hplaces hissue

/-- An operation that may stand at some point draws no fault there. -/
theorem noFault {c : Fault.Cause} (hs : Reached cx h (ids o.operands ++ rest) s)
    (ho : h.Admits o h') (hrest : ∀ id ∈ rest, h'.since ≤ id) :
    codeOfOp cx o s ≠ .error (.fault c) s' := by
  cases o with
  | store d v =>
    cases ho with
    | store hx hv => exact hs.store_noFault hx hv hrest
  | alloc | load | binary | call => exact (Faultless.codeOfOp ho hs.names nofun).noFault hs.places

end Reached

section Admits

variable {id : Nat} (ho : h.Admits o h')
include ho

theorem between_of_mem_operands (hid : id ∈ ids o.operands) : h.since ≤ id ∧ id < h.next := by
  obtain ⟨v, hv, hid⟩ := mem_ids.1 hid
  obtain ⟨ty, rfl⟩ := mem_ids_singleton hid
  cases ho with
  | alloc x => cases hv
  | store hx hr =>
    obtain rfl : Value.temp ⟨id, ty⟩ = _ := by simpa [Op.operands] using hv
    exact hr
  | load ty hx => simp [Op.operands] at hv
  | binary ty hl hr =>
    rcases (by simpa [Op.operands] using hv) with rfl | rfl
    · exact hl
    · exact hr
  | call ty hargs => exact hargs _ hv
  | callVoid hargs => exact hargs _ hv

theorem next_le : h.next ≤ h'.next := by
  cases ho with
  | alloc | store | callVoid => exact Nat.le_refl _
  | load | binary | call => exact Nat.le_succ _

theorem since_le (hle : h.since ≤ h.next) : h.since ≤ h'.since ∧ h'.since ≤ h'.next := by
  have := next_le ho
  cases ho with
  | store => exact ⟨hle, Nat.le_refl _⟩
  | alloc | callVoid | load | binary | call => exact ⟨Nat.le_refl _, Nat.le_trans hle this⟩

/-- What an operation reads or defines is known once it is done. -/
theorem lt_of_mem_touched (hid : id ∈ touched o) : id < h'.next := by
  rw [touched, ids_append, List.mem_append] at hid
  rcases hid with hid | hid
  · exact Nat.lt_of_lt_of_le (between_of_mem_operands ho hid).2 (next_le ho)
  · cases ho with
    | alloc | store | callVoid => cases hid
    | load | binary | call =>
      have hid : id = h.next := by simpa [Op.result?, ids, Value.temp?] using hid
      exact Nat.lt_succ_of_le (Nat.le_of_eq hid)

end Admits

theorem State.Places.succ (hs : s.Places n m) {p : Place} (hp : s.place? m = some p) :
    s.Places n (m + 1) := by
  intro id hn hm
  by_cases hid : id = m
  · simp [hid, hp]
  · exact hs id hn (by omega)

namespace Reached

/-- The result of an operation has a place. -/
theorem places_step (hs : Reached cx h rest s) (ho : h.Admits o h')
    (hok : codeOfOp cx o s = .ok u s') : s'.Places h'.since h'.next := by
  have hkeep : (∀ d v, o ≠ .store d v) → s'.Places h.since h.next :=
    fun hstore => (Faultless.codeOfOp ho hs.names hstore).places hs.places hok
  cases ho with
  | alloc x => exact hkeep nofun
  | store hx hv =>
    intro id hn hm
    exact (Nat.not_lt.2 hn hm).elim
  | load ty hx =>
    have hplaces := hkeep nofun
    obtain ⟨o, -, rfl⟩ := load_eq_ok.1 hok
    exact hplaces.succ ((State.settled_place? ..).trans (if_pos rfl))
  | binary ty hl hr => exact (hkeep nofun).succ (place?_of_computation rfl hok rfl)
  | call ty hargs => exact (hkeep nofun).succ (place?_of_computation rfl hok rfl)
  | callVoid hargs => exact hkeep nofun

theorem step (hs : Reached cx h (ids o.operands ++ rest) s) (ho : h.Admits o h')
    (hnames : ∀ x ∈ Frame.allocated o, x ∈ cx.frame.names) (hok : codeOfOp cx o s = .ok u s') :
    Reached cx h' rest s' where
  names := by
    intro x hx
    cases ho with
    | alloc v =>
      rcases List.mem_cons.1 hx with rfl | hx
      · exact hnames _ rfl
      · exact hs.names x hx
    | store | load | binary | call | callVoid => exact hs.names x hx
  le := (since_le ho hs.le).2
  places := hs.places_step ho hok
  fresh := by
    intro id hid
    have hnot : id ∉ touched o := fun hmem => Nat.not_lt.2 hid (lt_of_mem_touched ho hmem)
    rw [codeOfOp_place? hok hnot]
    exact hs.fresh id (Nat.le_trans (next_le ho) hid)
  wellPlaced := hs.wellPlaced.codeOfOp hok
  pending := codeOfOp_perm hs.wellPlaced hok hs.pending

end Reached

/-- Code in order reads nothing from before. -/
theorem since_le_of_mem_readsOf {ops : List (Located Op)} {is : List (Located Instruction)}
    (hops : h.AdmitsAll ops h') (hle : h.since ≤ h.next) (his : ∀ id ∈ readsOf is, h'.since ≤ id) :
    ∀ id ∈ readsOf (ops.map (fun o => ⟨.op o.val, o.span⟩) ++ is), h.since ≤ id := by
  induction hops with
  | nil => exact his
  | @cons h h₁ h' o ops ho _ ih =>
    obtain ⟨hsince, hle₁⟩ := since_le ho hle
    intro id hid
    rcases List.mem_append.1 hid with hid | hid
    · exact (between_of_mem_operands ho hid).1
    · exact Nat.le_trans hsince (ih hle₁ his id hid)

/-- A step without a fault goes on or ends there. -/
theorem exists_proceed {f : Func} {span : Span} {step : EStateM.Result Stop State Unit}
    {next : State → Except Fault Segment} (hstep : ∀ c s, step ≠ .error (.fault c) s)
    (hnext : ∀ s, step = .ok () s → ∃ seg, next s = .ok seg) :
    ∃ seg, proceed f span step next = .ok seg := by
  unfold proceed
  split
  next s => exact hnext s rfl
  next => exact ⟨_, rfl⟩
  next c s => exact (hstep c s rfl).elim

/-- Selection goes through code in order, to its end or to a limit. -/
theorem exists_codeOfAll {ops : List (Located Op)} {is : List (Located Instruction)}
    (hops : h.AdmitsAll ops h')
    (hs : Reached cx h (readsOf (ops.map (fun o => ⟨.op o.val, o.span⟩) ++ is)) s)
    (hnames : ∀ o ∈ ops, ∀ x ∈ Frame.allocated o.val, x ∈ cx.frame.names)
    (his : ∀ id ∈ readsOf is, h'.since ≤ id)
    (hend : ∀ s, Reached cx h' (readsOf is) s → ∃ seg, codeOfAll cx is s = .ok seg) :
    ∃ seg, codeOfAll cx (ops.map (fun o => ⟨.op o.val, o.span⟩) ++ is) s = .ok seg := by
  induction hops generalizing s with
  | nil => exact hend s hs
  | @cons h h₁ h' o ops ho hops ih =>
    have hrest := since_le_of_mem_readsOf hops (since_le ho hs.le).2 his
    apply exists_proceed
    · intro c s'
      exact hs.noFault ho hrest
    · intro s' hok
      have hnext := hs.step ho (hnames o (.head _)) hok
      exact ih hnext (fun o ho => hnames o (.tail _ ho)) his hend

/-- At the end there is at most a return. -/
theorem exists_codeOfAll_return {r : Option (Located (Option Value))}
    (hs : s.Places h.since h.next) (hr : ∀ t ∈ r, ∀ v ∈ t.val, h.Readable v) :
    ∃ seg, codeOfAll cx (r.toList.map fun t => ⟨.ret t.val, t.span⟩) s = .ok seg := by
  cases r with
  | none => exact ⟨_, rfl⟩
  | some t =>
    apply exists_proceed
    · intro c s'
      exact (Faultless.codeOfReturn (hr t rfl)).noFault hs
    · intro s' _
      exact ⟨_, rfl⟩

theorem since_le_of_mem_return {r : Option (Located (Option Value))}
    (hr : ∀ t ∈ r, ∀ v ∈ t.val, h.Readable v) :
    ∀ id ∈ readsOf (r.toList.map fun t => ⟨.ret t.val, t.span⟩), h.since ≤ id := by
  intro id hid
  cases r with
  | none => cases hid
  | some t =>
    have hid : id ∈ ids t.val.toList := by simpa [readsOf, Instruction.operands] using hid
    obtain ⟨v, hv, hid⟩ := mem_ids.1 hid
    obtain ⟨ty, rfl⟩ := mem_ids_singleton hid
    exact (hr t rfl _ (Option.mem_toList.1 hv)).1

/-- Before the body only the parameters are known. -/
theorem reached_start (cx : Context) (hpending : s.pending = reads cx.function)
    (hplaces : ∀ id, s.place? id = none) :
    Reached cx ⟨cx.function.params.map (·.name), 0, 0⟩ (readsOf cx.function.instructions) s where
  names := fun x hx => Frame.mem_ofFunc.2 (List.mem_append_left _ hx)
  le := Nat.le_refl 0
  places := fun id _ hid => (Nat.not_lt_zero id hid).elim
  fresh := fun id _ => hplaces id
  wellPlaced := by
    intro id p hp
    simp [hplaces id] at hp
  pending := by
    rw [hpending]
    exact .refl _

/-- A function whose code is in order gets code, as far as the limits allow. -/
theorem exists_codeOfFunc (t : Target) {f : Func} (hf : f.InOrder) :
    ∃ seg, codeOfFunc t f = .ok seg := by
  obtain ⟨b, h, hblocks, hops, hret⟩ := hf
  have hinstrs : f.instructions = b.body.map (fun o => ⟨.op o.val, o.span⟩) ++
      b.terminator.toList.map (fun t => ⟨.ret t.val, t.span⟩) := by
    simp [Func.instructions, hblocks, Block.instructions]
  apply exists_proceed
  · intro c s
    exact Faultless.prologue.noFault (n := 0) (m := 0) fun id _ hid => (Nat.not_lt_zero id hid).elim
  · intro s hs
    obtain ⟨-, -, -, -, c, -, rfl⟩ := prologue_eq_ok.1 hs
    rw [hinstrs]
    apply exists_codeOfAll hops
    · rw [← hinstrs]
      exact reached_start ⟨t, f⟩ rfl fun _ => rfl
    · intro o ho x hx
      apply Frame.mem_ofFunc.2
      simp only [Frame.declared, hblocks, List.mem_append, List.mem_flatMap, List.mem_filterMap]
      exact .inr ⟨b, List.mem_singleton_self b, o, ho, hx⟩
    · exact since_le_of_mem_return hret
    · intro s hs
      exact exists_codeOfAll_return hs.places hret

end Straightline.Selection
