import Straightline.Proofs.Fragment.Statements
import Straightline.Proofs.Lowering.Clean
import Straightline.Proofs.Selection.Emission
import Straightline.Proofs.Selection.Layout

/-!
Which programs there is machine code for. A function needs room for its names and registers for its
parameters; apart from that its statements decide.
-/
namespace Straightline

open IR Source

namespace Selection

/-- Code is found for the function without meeting a limit. -/
def Accepts (t : Target) (f : Func) : Prop :=
  ∃ seg, codeOfFunc t f = .ok seg ∧ seg.diagnostic = none

variable {t : Target} {f : Func} {cx : Context} {s : State}

theorem codeOfAll_ops_iff {ops : List (Located Op)} {is : List (Located Instruction)} :
    (∃ seg, codeOfAll cx (ops.map (fun o => ⟨.op o.val, o.span⟩) ++ is) s = .ok seg ∧
        seg.diagnostic = none) ↔
      ∃ s', Selects cx ops s s' ∧ ∃ seg, codeOfAll cx is s' = .ok seg ∧ seg.diagnostic = none := by
  induction ops generalizing s with
  | nil =>
    constructor
    · exact fun h => ⟨s, .nil, h⟩
    · rintro ⟨s', hnil, h⟩
      cases hnil
      exact h
  | cons o ops ih =>
    constructor
    · rintro ⟨seg, h⟩
      obtain ⟨s₁, ho, h⟩ := proceed_eq_ok.1 h
      obtain ⟨s', hsel, h⟩ := ih.1 ⟨seg, h⟩
      exact ⟨s', .cons ho hsel, h⟩
    · rintro ⟨s', hsel, h⟩
      cases hsel with
      | cons ho hsel =>
        obtain ⟨seg, h⟩ := ih.2 ⟨s', hsel, h⟩
        exact ⟨seg, proceed_eq_ok.2 ⟨_, ho, h⟩⟩

/-- A function of one block is accepted if its entry, its operations and its return are. -/
theorem accepts_iff {name : String} {ops : List (Located Op)} {r : Located (Option Value)}
    (hf : f.blocks = [⟨name, ops, some r⟩]) :
    Accepts t f ↔ ∃ s, prologue ⟨t, f⟩ { pending := reads f } = .ok () s ∧
      ∃ s₁ s₂, Selects ⟨t, f⟩ ops s s₁ ∧ codeOfReturn ⟨t, f⟩ r.val s₁ = .ok () s₂ := by
  have hinstrs : f.instructions =
      ops.map (fun o => ⟨.op o.val, o.span⟩) ++ [⟨.ret r.val, r.span⟩] := by
    simp [Func.instructions, hf, Block.instructions]
  constructor
  · rintro ⟨seg, h⟩
    obtain ⟨s, hs, h⟩ := proceed_eq_ok.1 h
    rw [hinstrs] at h
    obtain ⟨s₁, hsel, seg', h⟩ := codeOfAll_ops_iff.1 ⟨seg, h⟩
    obtain ⟨s₂, hret, -⟩ := proceed_eq_ok.1 h
    exact ⟨s, hs, s₁, s₂, hsel, hret⟩
  · rintro ⟨s, hs, s₁, s₂, hsel, hret⟩
    have hlast : ∃ seg, codeOfAll ⟨t, f⟩ [⟨.ret r.val, r.span⟩] s₁ = .ok seg ∧
        seg.diagnostic = none := ⟨_, proceed_eq_ok.2 ⟨s₂, hret, rfl, rfl⟩⟩
    obtain ⟨seg, h⟩ := codeOfAll_ops_iff.2 ⟨s₁, hsel, hlast⟩
    rw [← hinstrs] at h
    exact ⟨seg, proceed_eq_ok.2 ⟨s, hs, h⟩⟩

/-- A module is accepted if all of its functions are. -/
theorem selectModule_accepts_iff {m : Module} (hm : m.isComplete = true) :
    (∃ s, selectModule t m = .ok s ∧ s.diagnostics = []) ↔ ∀ f ∈ m.functions, Accepts t f := by
  constructor
  · rintro ⟨s, hs, hd⟩ f hf
    obtain ⟨-, segs, hsegs, rfl⟩ := selectModule_eq_ok.1 hs
    obtain ⟨i, hi, rfl⟩ := List.getElem_of_mem hf
    have hi' : i < segs.length := hsegs.length_eq ▸ hi
    exact ⟨segs[i], hsegs.get hi hi', List.filterMap_eq_nil_iff.1 hd _ (List.getElem_mem hi')⟩
  · intro h
    have hsegs : ∃ segs, List.Forall₂ (codeOfFunc t · = .ok ·) m.functions segs ∧
        ∀ seg ∈ segs, seg.diagnostic = none := by
      generalize m.functions = fs at h
      induction fs with
      | nil => exact ⟨[], .nil, by simp⟩
      | cons f fs ih =>
        obtain ⟨⟨seg, hseg, hd⟩, hfs⟩ := List.forall_mem_cons.1 h
        obtain ⟨segs, hsegs, hds⟩ := ih hfs
        exact ⟨seg :: segs, .cons hseg hsegs, List.forall_mem_cons.2 ⟨hd, hds⟩⟩
    obtain ⟨segs, hsegs, hds⟩ := hsegs
    exact ⟨_, selectModule_eq_ok.2 ⟨hm, segs, hsegs, rfl⟩, List.filterMap_eq_nil_iff.2 hds⟩

theorem Frame.size_le_iff {fr : Frame} : fr.size ≤ Frame.maxSize ↔ fr.names.length ≤ 32 := by
  unfold Frame.size Frame.maxSize
  omega

/-- Parameters are stored just when they are integers. -/
theorem storesParams_iff {ps : List (Variable × Machine.Register)}
    (hps : ∀ p ∈ ps, ∃ o, cx.frame.offset? p.1.name = some o) :
    (∃ c, List.Forall₂ (StoresParam cx) ps c) ↔ ∀ p ∈ ps, p.1.ty = .int := by
  induction ps with
  | nil => exact iff_of_true ⟨[], .nil⟩ (by simp)
  | cons p ps ih =>
    obtain ⟨⟨o, ho⟩, hps⟩ := List.forall_mem_cons.1 hps
    rw [List.forall_mem_cons, ← ih hps]
    constructor
    · rintro ⟨_, hp | ⟨hp, hc⟩⟩
      exact ⟨hp.1, _, hc⟩
    · rintro ⟨hty, c, hc⟩
      exact ⟨_, .cons ⟨hty, o, ho, rfl⟩ hc⟩

end Selection

namespace Lowering

open Selection (Frame)

variable {lx : Context} {sc sc' : Scope} {n m : Nat} {ops : List (Located Op)}

theorem Flattens.allocated {es : List Expr} {vs : List Value} (h : Flattens lx sc es n ops vs m) :
    ops.filterMap (fun o => Frame.allocated o.val) = [] := by
  induction h with
  | nil => rfl
  | literal _ _ ih => exact ih
  | name _ _ ih => exact ih
  | computed _ he _ ihargs ih =>
    rw [List.filterMap_append, ihargs]
    cases he <;> exact ih

theorem StmtFlattens.allocated {st : Stmt} (h : StmtFlattens lx sc n st ops sc' m) :
    ops.filterMap (fun o => Frame.allocated o.val) = st.declared?.toList := by
  cases h with
  | bind h | evalVoid h =>
    rw [List.filterMap_append, h.allocated]
    rfl
  | eval h => exact h.allocated

/-- Room is made for what the statements that are reached declare. -/
theorem BodyFlattens.allocated {atEnd t : Located (Option Value)} {stmts : List Stmt}
    (h : BodyFlattens lx atEnd sc n stmts ops t) :
    ops.filterMap (fun o => Frame.allocated o.val) =
      (Stmt.reached stmts).filterMap Stmt.declared? := by
  induction h with
  | nil => rfl
  | step hs _ ih =>
    rw [List.filterMap_append, hs.allocated, ih, Stmt.reached_cons hs.isReturn, List.filterMap_cons]
    split
    next hd => simp [hd]
    next hd => simp [hd]
  | ret hs =>
    cases hs with
    | none => rfl
    | value h => exact h.allocated

end Lowering

namespace Source.FnDef

open Lowering
open Selection (Accepts Frame reads ids opReads StoresParam)

variable {d : FnDef} {entryPoint : String} {results : List (String × Ty)} {f : Func}

theorem typedParams_int_iff (h : d.headerProblems entryPoint = []) :
    (∀ v ∈ d.typedParams, v.ty = .int) ↔ ∀ p ∈ d.params, Ty.ofName? p.ty.val = some .int := by
  constructor
  · intro hint p hp
    obtain ⟨ty, hty⟩ := typed_of_headerProblems h p hp
    have hmem : (⟨p.name, ty⟩ : Variable) ∈ d.typedParams :=
      List.mem_filterMap.2 ⟨p, hp, by simp [hty]⟩
    obtain rfl : ty = .int := hint _ hmem
    exact hty
  · intro hint v hv
    obtain ⟨p, hp, hv⟩ := List.mem_filterMap.1 hv
    rw [hint p hp] at hv
    cases hv
    rfl

/-- The entry code of a definition is found just when its header is in the fragment. -/
theorem prologue_iff {t : Target} (hheader : d.headerProblems entryPoint = [])
    (hparams : f.params = d.typedParams) (hnames : Frame.declared f = d.names)
    {s : Selection.State} (hs : ∀ id, s.place? id = none) :
    (∃ s', Selection.prologue ⟨t, f⟩ s = .ok () s') ↔
      d.params.length ≤ (⟨t, f⟩ : Selection.Context).maxArgs ∧
        (∀ p ∈ d.params, Ty.ofName? p.ty.val = some .int) ∧ d.names.toFinset.card ≤ 32 := by
  have hfree : ∀ r, s.Free r := fun r id _ => by simp [hs id]
  have hlen : f.params.length = d.params.length := by
    rw [hparams, ← List.length_map (·.name), typedParams_names hheader, List.length_map]
  have hslots : ∀ p ∈ f.params.zip Machine.Register.arguments,
      ∃ o, (Frame.ofFunc f).offset? p.1.name = some o := by
    intro p hp
    apply Frame.exists_offset?
    exact List.mem_append_left _ (List.mem_map_of_mem (List.of_mem_zip hp).1)
  have hsize : (Frame.ofFunc f).size ≤ Frame.maxSize ↔ d.names.toFinset.card ≤ 32 := by
    rw [Frame.size_le_iff, Frame.length_names, hnames]
  have hint : f.params.length ≤ (⟨t, f⟩ : Selection.Context).maxArgs →
      ((∀ p ∈ f.params.zip Machine.Register.arguments, p.1.ty = .int) ↔
        ∀ p ∈ d.params, Ty.ofName? p.ty.val = some .int) := by
    intro hmax
    rw [← typedParams_int_iff hheader, ← hparams]
    have hzip : (f.params.zip Machine.Register.arguments).map (·.1) = f.params :=
      List.map_fst_zip (Nat.le_trans hmax (Nat.min_le_right _ _))
    nth_rewrite 2 [← hzip]
    rw [List.forall_mem_map]
  simp only [Selection.prologue_eq_ok]
  constructor
  · rintro ⟨s', -, -, hframe, hmax, c, hc, -⟩
    refine ⟨hlen ▸ hmax, (hint hmax).1 ?_, hsize.1 hframe⟩
    exact (Selection.storesParams_iff hslots).1 ⟨c, hc⟩
  · rintro ⟨hmax, htys, hcard⟩
    rw [← hlen] at hmax
    have hstores : ∃ c, List.Forall₂ (StoresParam ⟨t, f⟩)
        (f.params.zip Machine.Register.arguments) c :=
      (Selection.storesParams_iff hslots).2 ((hint hmax).2 htys)
    obtain ⟨c, hc⟩ := hstores
    exact ⟨_, hfree _, fun _ => hfree _, hsize.2 hcard, hmax, c, hc, rfl⟩

theorem slotted_scope {t : Target} (hnames : Frame.declared f = d.names)
    (hint : ∀ p ∈ d.params, Ty.ofName? p.ty.val = some .int) : Slotted ⟨t, f⟩ d.scope := by
  intro x ty hx
  obtain ⟨p, hp, rfl, hty⟩ := param_of_scope hx
  rw [hint p hp] at hty
  cases hty
  refine ⟨rfl, Frame.exists_offset? ?_⟩
  rw [hnames]
  exact List.mem_append_left _ (List.mem_map_of_mem hp)

theorem mem_atEnd : ∀ v ∈ (d.atEnd entryPoint).val, v = .const (.int 0) := by
  intro v hv
  unfold atEnd at hv
  split at hv
  · cases hv
    rfl
  · cases hv

/-- A definition that is lowered without errors is accepted just when it is in the fragment. -/
theorem accepts_iff_inFragment {t : Target} {ds : List Diagnostic}
    (h : d.lower t.entryPoint results = .ok (f, ds)) (hds : Diagnostic.anyError ds = false) :
    Accepts t f ↔ d.InFragment results (min t.argumentRegisters 4) := by
  obtain ⟨hheader, ops, r, hflat, rfl⟩ := flattens_of_lower h hds
  generalize hf : (⟨d.name.val, d.typedParams, d.resultTy t.entryPoint, d.name.span,
    [⟨Block.entryName, ops, some r⟩]⟩ : Func) = f
  have hblocks : f.blocks = [⟨Block.entryName, ops, some r⟩] := by rw [← hf]
  have hnames : Frame.declared f = d.names := by
    rw [← hf, names, ← hflat.allocated, ← typedParams_names hheader]
    simp [Frame.declared]
  have hreads : reads f = opReads ops ++ ids r.val.toList := by
    rw [← hf]
    simp [reads, opReads, ids, Func.instructions, Block.instructions, Instruction.operands,
      List.flatMap_map]
  have hpro := prologue_iff (t := t) (s := { pending := reads f }) hheader (by rw [← hf]) hnames
    fun _ => rfl
  have hbody : ∀ s, Selection.prologue ⟨t, f⟩ { pending := reads f } = .ok () s →
      (∀ p ∈ d.params, Ty.ofName? p.ty.val = some .int) →
      ((∃ s₁ s₂, Selection.Selects ⟨t, f⟩ ops s s₁ ∧
          Selection.codeOfReturn ⟨t, f⟩ r.val s₁ = .ok () s₂) ↔
        ∀ st ∈ Stmt.reached d.body, st.Fits ⟨d.name.val, results⟩ (min t.argumentRegisters 4)) := by
    intro s hs hint
    obtain ⟨-, -, -, -, c, -, rfl⟩ := Selection.prologue_eq_ok.1 hs
    refine hflat.selects_iff mem_atEnd (slotted_scope hnames hint) ?_
      ⟨by rintro _ _ ⟨⟩, fun _ _ => rfl⟩ ?_
    · intro x hx
      apply Frame.exists_offset?
      rw [hnames]
      exact List.mem_append_right _ hx
    · rw [← hreads]
      exact .refl _
  rw [Selection.accepts_iff hblocks]
  constructor
  · rintro ⟨s, hs, hrest⟩
    obtain ⟨hmax, hint, hcard⟩ := hpro.1 ⟨s, hs⟩
    exact ⟨hmax, hint, hcard, (hbody s hs hint).1 hrest⟩
  · intro hfrag
    obtain ⟨s, hs⟩ := hpro.2 ⟨hfrag.params_le, hfrag.params_int, hfrag.names_le⟩
    exact ⟨s, hs, (hbody s hs hfrag.params_int).2 hfrag.body⟩

end Source.FnDef

/-- Of the programs that are lowered without errors, just those in the fragment have machine code
without further complaint. -/
theorem selects_iff_inFragment {t : Target} {p : Program} {moduleName : String}
    {o : Lowering.Outcome} (h : p.lowerUncapped t.entryPoint moduleName = .ok o) (he : o.hasErrors = false) :
    (∃ s, selectModule t o.code = .ok s ∧ s.diagnostics = []) ↔
      ∀ d ∈ p.definitions,
        d.InFragment (p.resultTypes t.entryPoint) (min t.argumentRegisters 4) := by
  obtain ⟨hfuns, hcomplete⟩ := Lowering.functions_of_lowerUncapped h he
  rw [Selection.selectModule_accepts_iff hcomplete]
  generalize p.definitions = defs at hfuns ⊢
  generalize o.code.functions = fs at hfuns ⊢
  induction hfuns with
  | nil => simp
  | cons hd _ ih =>
    obtain ⟨ds, hd, hds⟩ := hd
    rw [List.forall_mem_cons, List.forall_mem_cons, ih, FnDef.accepts_iff_inFragment hd hds]

/-- `func f(a: int): int { let b = a * 2; return value; "end"; }` and a `main` that calls it. -/
def returning (value : Expr) : Program := [
  .fn { name := ⟨"f", .nowhere⟩
        params := [⟨"a", ⟨"int", .nowhere⟩⟩]
        result := some ⟨"int", .nowhere⟩
        body := [
          .bind "b" (.binary "*" (.name "a" .nowhere) (.literal (.int "2") .nowhere) .nowhere)
            .nowhere,
          .ret (some value) .nowhere,
          .eval (.literal (.string "end") .nowhere) .nowhere] },
  .fn { name := ⟨"main", .nowhere⟩
        params := []
        result := none
        body := [
          .eval (.call (.name "f" .nowhere) [.literal (.int "3") .nowhere] .nowhere) .nowhere] }]

/-- `f(a - b)` -/
def oneCall : Expr :=
  .call (.name "f" .nowhere) [.binary "-" (.name "a" .nowhere) (.name "b" .nowhere) .nowhere]
    .nowhere

/-- A call as one operand of a sum, and as both. -/
theorem selects_iff_inFragment_returning :
    (∃ o s, (returning (.binary "+" (.name "a" .nowhere) oneCall .nowhere)).lowerUncapped "main"
        "m" = .ok o ∧ selectModule .darwin o.code = .ok s ∧ s.diagnostics = []) ∧
      ∃ o, (returning (.binary "+" oneCall oneCall .nowhere)).lowerUncapped "main" "m" = .ok o ∧
        o.hasErrors = false ∧ ¬ ∃ s, selectModule .darwin o.code = .ok s ∧ s.diagnostics = [] := by
  have hone : ((returning (.binary "+" (.name "a" .nowhere) oneCall .nowhere)).lowerUncapped "main"
      "m").toOption.map (·.hasErrors) = some false := by
    decide +kernel
  have htwo : ((returning (.binary "+" oneCall oneCall .nowhere)).lowerUncapped "main"
      "m").toOption.map (·.hasErrors) = some false := by
    decide +kernel
  constructor
  · obtain ⟨o, h, he⟩ := exists_ok_of_toOption hone
    obtain ⟨s, hs⟩ := (selects_iff_inFragment (t := .darwin) h he).2 (by decide +kernel)
    exact ⟨o, s, h, hs⟩
  · obtain ⟨o, h, he⟩ := exists_ok_of_toOption htwo
    refine ⟨o, h, he, ?_⟩
    rw [selects_iff_inFragment (t := .darwin) h he]
    decide +kernel

end Straightline
