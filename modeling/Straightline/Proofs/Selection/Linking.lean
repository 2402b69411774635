import Straightline.Proofs.Selection.Emission
import Straightline.Proofs.Semantics.Image

/-!
The symbols in selected code: a function's code defines the function's name and nothing else, and its
calls are those of the function, in order and under the names that the target gives them.
-/
namespace Straightline

open IR
open Machine (Instr Opcode Operand Register symbols)

namespace IR

/-- The function that an operation calls. -/
def Op.callee? : Op → Option String
  | .call _ f _ => some f
  | _ => none

def Instruction.callee? : Instruction → Option String
  | .op o => o.callee?
  | .ret _ => none

/-- The functions that a function calls, in order and as often as it does. -/
def Func.callees (f : Func) : List String := f.instructions.filterMap (·.val.callee?)

end IR

namespace Selection

variable {cx : Context} {s s' : State} {v : Value} {p q : Place} {dst : Register} {u : Unit}
  {op : Opcode}

theorem symbols_moved (v : Value) (p : Place) (dst : Register) :
    symbols op (s.moved v p dst).code = symbols op s.code := by
  cases p <;> simp [State.moved, Place.into, symbols, Instr.symbol?, Instr.move, Instr.moveImm,
    Instr.load]

theorem symbols_fetch (h : fetch cx v dst s = .ok u s') :
    symbols op s'.code = symbols op s.code := by
  obtain ⟨p, -, ⟨-, rfl⟩ | ⟨-, -, rfl⟩⟩ := fetch_eq_ok.1 h
  · rw [State.spent_code]
  · rw [symbols_moved, State.spent_code]

theorem symbols_stepAside (h : stepAside v p s = .ok q s') :
    symbols op s'.code = symbols op s.code := by
  obtain ⟨-, -, -, rfl⟩ | ⟨-, -, rfl⟩ := stepAside_eq_ok.1 h
  · exact symbols_moved v p .r2
  · rfl

theorem symbols_issued_reg {op' : Opcode} {r : Register} {rest : List Operand} :
    symbols op (s.issued ⟨op', .reg r :: rest, none⟩).code = symbols op s.code := by
  simp [symbols, Instr.symbol?]

theorem symbols_fetchOperands {op' : Opcode} {lhs rhs : Value} {x : Register × Operand}
    (h : fetchOperands cx op' lhs rhs p s = .ok x s') :
    symbols op s'.code = symbols op s.code := by
  obtain ⟨s₁, hl, ⟨r, -, rfl, -⟩ | ⟨n, -, -, rfl, -⟩ | ⟨-, -, hr, -⟩⟩ := fetchOperands_eq_ok.1 h
  · rw [State.spent_code]
    exact symbols_fetch hl
  · exact symbols_fetch hl
  · exact (symbols_fetch hr).trans (symbols_issued_reg.trans (symbols_fetch hl))

theorem symbols_fetchArgs {which : Place → Bool} {ms : List ((Value × Place) × Register)}
    (h : fetchArgs cx which ms s = .ok u s') : symbols op s'.code = symbols op s.code := by
  induction ms generalizing s with
  | nil =>
    obtain ⟨-, rfl⟩ := pure_eq_ok.1 h
    rfl
  | cons m rest ih =>
    obtain ⟨⟨v, p⟩, r⟩ := m
    have h := fetchArgs_cons_eq_ok.1 h
    split at h
    · obtain ⟨s₁, hf, h⟩ := h
      exact (ih h).trans (symbols_fetch hf)
    · exact ih h

/-- The only symbol in the code of an operation is that of the function it calls. -/
theorem symbols_codeOfOp {o : Op} (h : codeOfOp cx o s = .ok u s') :
    symbols op s'.code = symbols op s.code ++
      if op = .call then (o.callee?.map cx.target.callee).toList else [] := by
  match o with
  | .alloc _ =>
    obtain ⟨-, rfl⟩ := pure_eq_ok.1 h
    simp [Op.callee?]
  | .store (.var x) v =>
    obtain ⟨o, s₁, -, hf, -, rfl⟩ := store_eq_ok.1 h
    rw [Instr.store, symbols_issued_reg, symbols_fetch hf]
    simp [Op.callee?]
  | .load t (.var x) =>
    obtain ⟨o, -, rfl⟩ := load_eq_ok.1 h
    simp [Op.callee?]
  | .store (.const _) _ | .store (.temp _) _ | .load _ (.const _) | .load _ (.temp _) =>
    exact (throw_eq_ok.1 h).elim
  | .binary b t lhs rhs =>
    obtain ⟨op', p, q, s₁, x, s₂, -, -, hq, hx, -, rfl⟩ := codeOfBinary_eq_ok.1 h
    rw [State.settled_code, Instr.arith, symbols_issued_reg, symbols_fetchOperands hx,
      symbols_stepAside hq]
    simp [Op.callee?]
  | .call result f args =>
    obtain ⟨places, s₁, s₂, -, -, -, h₁, h₂, -, rfl⟩ := codeOfCall_eq_ok.1 h
    rw [State.answered_code, State.issued_code, Machine.symbols_append, symbols_fetchArgs h₂,
      symbols_fetchArgs h₁]
    by_cases hop : op = .call
    · simp [hop, symbols, Instr.symbol?, Instr.call, Op.callee?]
    · simp [hop, symbols, Instr.symbol?, Instr.call, Ne.symm hop]

theorem symbols_leave (cx : Context) (op : Opcode) : symbols op cx.leave = [] := by
  unfold Context.leave
  split <;> rfl

theorem symbols_codeOfReturn {value : Option Value} (h : codeOfReturn cx value s = .ok u s') :
    symbols op s'.code = symbols op s.code := by
  cases value with
  | some v =>
    obtain ⟨s₁, hf, -, rfl⟩ := codeOfReturn_some_eq_ok.1 h
    simp [symbols_leave cx op, symbols_fetch hf]
  | none =>
    obtain ⟨-, -, rfl⟩ := codeOfReturn_none_eq_ok.1 h
    have hzero : symbols op (if cx.isEntry = true then [.moveImm .r0 0] else []) = [] := by
      split <;> rfl
    simp [symbols_leave cx op, hzero]

theorem symbols_codeOfAll {is : List (Located Instruction)} {seg : Segment}
    (h : codeOfAll cx is s = .ok seg) (hd : seg.diagnostic = none) :
    symbols op seg.code = symbols op s.code ++
      if op = .call then (is.filterMap (·.val.callee?)).map cx.target.callee else [] := by
  induction is generalizing s with
  | nil =>
    obtain rfl := Except.ok.inj h
    simp
  | cons i is ih =>
    obtain ⟨s₁, hs₁, hrest, -⟩ := proceed_eq_ok.1 ⟨h, hd⟩
    rw [ih hrest]
    obtain ⟨o | value, span⟩ := i
    · rw [symbols_codeOfOp hs₁]
      by_cases hop : op = .call
      · cases hc : o.callee? <;> simp [hop, Instruction.callee?, hc]
      · simp [hop]
    · rw [symbols_codeOfReturn hs₁]
      simp [Instruction.callee?]

theorem symbols_storesParams {ps : List (Variable × Register)} {c : List Instr}
    (h : List.Forall₂ (StoresParam cx) ps c) (op : Opcode) : symbols op c = [] := by
  induction h with
  | nil => rfl
  | cons hi _ ih =>
    obtain ⟨-, o, -, rfl⟩ := hi
    exact ih

theorem symbols_enter (cx : Context) (op : Opcode) :
    symbols op cx.enter = if op = .defineLabel then [cx.function.name] else [] := by
  have hsub : symbols op (if 0 < cx.frame.size then
      [.arith .subtract .sp .sp (.imm (Int64.ofNat cx.frame.size))] else []) = [] := by
    split <;> rfl
  rw [Context.enter, Machine.symbols_append, hsub]
  by_cases hop : op = .defineLabel
  · simp [hop, symbols, Instr.symbol?, Instr.label, Instr.remark, Instr.storePair, Instr.move]
  · simp [hop, symbols, Instr.symbol?, Instr.label, Instr.remark, Instr.storePair, Instr.move,
      Ne.symm hop]

theorem symbols_exported (cx : Context) (hop : op ≠ .global) : symbols op cx.exported = [] := by
  unfold Context.exported
  split
  · simp [symbols, Instr.symbol?, Instr.global, Ne.symm hop]
  · rfl

theorem symbols_prologue (h : prologue cx s = .ok u s') (hop : op ≠ .global) :
    symbols op s'.code = symbols op s.code ++
      if op = .defineLabel then [cx.function.name] else [] := by
  obtain ⟨-, -, -, -, c, hc, rfl⟩ := prologue_eq_ok.1 h
  rw [State.extended_code, Machine.symbols_append, Machine.symbols_append, Machine.symbols_append,
    symbols_exported cx hop, symbols_enter, symbols_storesParams hc, List.nil_append,
    List.append_nil]

/-- The code defines the function's name alone, and it calls what the function calls. -/
structure Links (t : Target) (f : Func) (c : List Instr) : Prop where
  defined : symbols .defineLabel c = [f.name]
  called : symbols .call c = f.callees.map t.callee

variable {t : Target} {f : Func} {seg : Segment}

theorem links_codeOfFunc (h : codeOfFunc t f = .ok seg) (hd : seg.diagnostic = none) :
    Links t f seg.code := by
  obtain ⟨s₁, hs₁, hrest, -⟩ := proceed_eq_ok.1 ⟨h, hd⟩
  have hall : ∀ op, op ≠ .global → symbols op seg.code =
      (if op = .defineLabel then [f.name] else []) ++
        if op = .call then f.callees.map t.callee else [] := by
    intro op hop
    rw [symbols_codeOfAll hrest hd, symbols_prologue hs₁ hop]
    rfl
  exact ⟨hall .defineLabel (by decide), hall .call (by decide)⟩

/-- The code of several functions defines their names. -/
theorem symbols_segments {fs : List Func} {segs : List Segment}
    (h : List.Forall₂ (fun f seg => codeOfFunc t f = .ok seg ∧ seg.diagnostic = none) fs segs) :
    symbols .defineLabel (segs.flatMap (·.code)) = fs.map (·.name) := by
  induction h with
  | nil => rfl
  | cons hseg _ ih =>
    rw [List.flatMap_cons, Machine.symbols_append, ih,
      (links_codeOfFunc hseg.1 hseg.2).defined, List.map_cons, List.singleton_append]

/-- A limit is reported as an error. -/
theorem isError_of_proceed {span : Span} {step : EStateM.Result Stop State Unit}
    {next : State → Except Fault Segment}
    (hnext : ∀ s seg, next s = .ok seg → ∀ d ∈ seg.diagnostic, d.isError = true)
    (h : proceed f span step next = .ok seg) : ∀ d ∈ seg.diagnostic, d.isError = true := by
  unfold proceed at h
  split at h
  · exact hnext _ _ h
  · cases h
    rintro _ ⟨⟩
    rfl
  · cases h

theorem isError_of_codeOfFunc (h : codeOfFunc t f = .ok seg) :
    ∀ d ∈ seg.diagnostic, d.isError = true := by
  have hall : ∀ (is : List (Located Instruction)) s seg, codeOfAll ⟨t, f⟩ is s = .ok seg →
      ∀ d ∈ seg.diagnostic, d.isError = true := by
    intro is
    induction is with
    | nil =>
      intro s seg h
      obtain rfl := Except.ok.inj h
      exact nofun
    | cons i is ih => exact fun s seg h => isError_of_proceed ih h
  exact isError_of_proceed (hall _) h

/-- Code without errors is all there: each function of the module has its part of it. -/
theorem segments_of_selectModule {m : Module} {s : Selected} (h : selectModule t m = .ok s)
    (he : s.hasErrors = false) : ∃ segs,
      List.Forall₂ (fun f seg => codeOfFunc t f = .ok seg ∧ seg.diagnostic = none) m.functions segs ∧
      s.code = segs.flatMap (·.code) := by
  obtain ⟨-, segs, hsegs, rfl⟩ := selectModule_eq_ok.1 h
  refine ⟨segs, ?_, rfl⟩
  have hnone : ∀ seg ∈ segs, ∀ d ∈ seg.diagnostic, d.isError = false := by
    intro seg hseg d hd
    simpa using List.any_eq_false.1 he d (List.mem_filterMap.2 ⟨seg, hseg, hd⟩)
  clear he h
  generalize m.functions = fs at hsegs
  induction hsegs with
  | nil => exact .nil
  | @cons f seg fs segs hseg _ ih =>
    refine .cons ⟨hseg, ?_⟩ (ih fun seg' hseg' => hnone seg' (.tail _ hseg'))
    rw [Option.eq_none_iff_forall_not_mem]
    intro d hd
    cases (isError_of_codeOfFunc hseg d hd).symm.trans (hnone seg (.head _) d hd)

end Selection

open Source (Program)

variable {t : Target} {moduleName : String} {p : Program} {out : Output}

/-- A compilation succeeds if lowering and selection find no errors and the code can be written. -/
theorem compile_eq_ok (h : compile t moduleName p = .ok out) :
    ∃ o s, lower t moduleName p = .ok o ∧ o.hasErrors = false ∧ selectModule t o.code = .ok s ∧
      s.hasErrors = false ∧ assemble t s.code = .ok out.assembly := by
  obtain ⟨o, ho, h⟩ := except_bind_eq_ok.1 h
  obtain ⟨m, hm, h⟩ := except_bind_eq_ok.1 h
  obtain ⟨s, hs, h⟩ := except_bind_eq_ok.1 h
  obtain ⟨code, hcode, h⟩ := except_bind_eq_ok.1 h
  obtain ⟨assembly, hassembly, h⟩ := except_bind_eq_ok.1 h
  cases h
  have herrors : ∀ {α : Type} {a b : α} {ds : List Diagnostic}, unlessErrors a ds = .ok b →
      Diagnostic.anyError ds = false ∧ a = b := by
    intro α a b ds h
    unfold unlessErrors at h
    split at h
    next => cases h
    next he => exact ⟨by simpa using he, Except.ok.inj h⟩
  obtain ⟨heo, rfl⟩ := herrors hm
  obtain ⟨hes, rfl⟩ := herrors hcode
  exact ⟨o, s, ho, heo, hs, hes, hassembly⟩

/-- A call of `g` that goes to the symbol `l` reaches what it names: the function `g` of the module
if there is one, and else no function of the module. -/
def Reaches (m : Module) (g l : String) : Prop :=
  (g ∈ m.functions.map (·.name) → l = g) ∧
    (g ∉ m.functions.map (·.name) → l ∉ m.functions.map (·.name))

theorem reaches_callee_iff (t : Target) (m : Module) (g : String) :
    Reaches m g (t.callee g) ↔ t.callee g = g ∨
      g ∉ m.functions.map (·.name) ∧ t.callee g ∉ m.functions.map (·.name) := by
  by_cases hg : g ∈ m.functions.map (·.name)
  · simp [Reaches, hg]
  · simp only [Reaches, hg, false_imp_iff, not_false_eq_true, forall_const, true_and]
    constructor
    · exact .inr
    · rintro (he | h)
      · rwa [he]
      · exact h

/-- In the code of a program each function defines its own name as a label, and its calls go to the
symbols that the target has for them; so a call reaches what it names unless the target renames it
and the module defines its name or its symbol. -/
theorem emitted_calls_reach (h : compile t moduleName p = .ok out) :
    ∃ o s, lower t moduleName p = .ok o ∧ selectModule t o.code = .ok s ∧
      assemble t s.code = .ok out.assembly ∧
      ∃ parts, s.code = parts.flatten ∧
        List.Forall₂ (fun f part => symbols .defineLabel part = [f.name] ∧
          List.Forall₂ (fun g l => l = t.callee g ∧
            (Reaches o.code g l ↔ t.callee g = g ∨ g ∉ o.code.functions.map (·.name) ∧
              t.callee g ∉ o.code.functions.map (·.name))) f.callees (symbols .call part))
          o.code.functions parts := by
  obtain ⟨o, s, ho, -, hs, he, hassembly⟩ := compile_eq_ok h
  obtain ⟨segs, hsegs, hcode⟩ := Selection.segments_of_selectModule hs he
  refine ⟨o, s, ho, hs, hassembly, segs.map (·.code), by rw [hcode, List.flatMap_def], ?_⟩
  rw [List.forall₂_map_right_iff]
  refine hsegs.imp ?_
  rintro f seg ⟨hseg, hd⟩
  have hlinks := Selection.links_codeOfFunc hseg hd
  refine ⟨hlinks.defined, ?_⟩
  rw [hlinks.called, List.forall₂_map_right_iff, List.forall₂_same]
  intro g _
  exact ⟨rfl, reaches_callee_iff t o.code g⟩

/-- `func g(): int { return 1 }` and then `func main() { print(g()) }`. -/
def linked : Program := [
  .fn ⟨⟨"g", .nowhere⟩, [], some ⟨"int", .nowhere⟩,
    [.ret (some (.literal (.int "1") .nowhere)) .nowhere]⟩,
  .fn ⟨⟨"main", .nowhere⟩, [], none,
    [.eval (.call (.name "print" .nowhere) [.call (.name "g" .nowhere) [] .nowhere] .nowhere)
      .nowhere]⟩]

theorem emitted_calls_reach_linked :
    ∃ out o s, ∃ parts : List (List Instr), compile .darwin "m" linked = .ok out ∧
      lower .darwin "m" linked = .ok o ∧ o.code.functions.map (·.name) = ["g", "main"] ∧
      o.code.functions.map (·.callees) = [[], ["g", "print"]] ∧
      selectModule .darwin o.code = .ok s ∧ s.code = parts.flatten ∧
      List.Forall₂ (fun f part => symbols .defineLabel part = [f.name] ∧
        List.Forall₂ (Reaches o.code) f.callees (symbols .call part)) o.code.functions parts := by
  have heval : (compile .darwin "m" linked).toOption.map (fun _ => ()) = some () := by
    decide +kernel
  obtain ⟨out, hout, -⟩ := exists_ok_of_toOption heval
  obtain ⟨o, s, ho, hs, -, parts, hparts, hlinks⟩ := emitted_calls_reach hout
  have hfunctions : (lower .darwin "m" linked).toOption.map
      (fun o => (o.code.functions.map (·.name), o.code.functions.map (·.callees))) =
        some (["g", "main"], [[], ["g", "print"]]) := by
    decide +kernel
  obtain ⟨o', ho', hfacts⟩ := exists_ok_of_toOption hfunctions
  cases ho.symm.trans ho'
  rw [Prod.mk.injEq] at hfacts
  refine ⟨out, o, s, parts, hout, ho, hfacts.1, hfacts.2, hs, hparts, hlinks.imp ?_⟩
  rintro f part ⟨hdefined, hcalled⟩
  refine ⟨hdefined, hcalled.imp ?_⟩
  rintro g l ⟨-, hreaches⟩
  apply hreaches.2
  rw [hfacts.1]
  by_cases hg : g = "print"
  · exact .inr (by subst hg; decide)
  · exact .inl (by simp [Target.callee, Target.darwin, Builtins.find?, hg])

/-- `func print(): int { return 1 }` and then `func main() { return print() }`. -/
def shadowing : Program := [
  .fn ⟨⟨"print", .nowhere⟩, [], some ⟨"int", .nowhere⟩,
    [.ret (some (.literal (.int "1") .nowhere)) .nowhere]⟩,
  .fn ⟨⟨"main", .nowhere⟩, [], none,
    [.ret (some (.call (.name "print" .nowhere) [] .nowhere)) .nowhere]⟩]

/-- The function `print` is defined and called, and the call goes elsewhere. -/
theorem shadowed_builtin_not_reached :
    ∃ out o s, compile .darwin "m" shadowing = .ok out ∧ lower .darwin "m" shadowing = .ok o ∧
      selectModule .darwin o.code = .ok s ∧ o.code.functions.flatMap (·.callees) = ["print"] ∧
      symbols .defineLabel s.code = ["print", "main"] ∧
      symbols .call s.code = ["navi_print_int"] := by
  have heval : (compile .darwin "m" shadowing).toOption.map (fun _ => ()) = some () := by
    decide +kernel
  obtain ⟨out, hout, -⟩ := exists_ok_of_toOption heval
  have hcode : (lower .darwin "m" shadowing).toOption.map (fun o =>
      (o.code.functions.flatMap (·.callees), (selectModule .darwin o.code).toOption.map fun s =>
        (symbols .defineLabel s.code, symbols .call s.code))) =
      some (["print"], some (["print", "main"], ["navi_print_int"])) := by
    decide +kernel
  obtain ⟨o, ho, hfacts⟩ := exists_ok_of_toOption hcode
  rw [Prod.mk.injEq] at hfacts
  obtain ⟨s, hs, hsymbols⟩ := exists_ok_of_toOption hfacts.2
  rw [Prod.mk.injEq] at hsymbols
  exact ⟨out, o, s, hout, ho, hs, hfacts.1, hsymbols.1, hsymbols.2⟩

end Straightline
