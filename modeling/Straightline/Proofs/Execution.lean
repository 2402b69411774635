import Straightline.Proofs.Fragment.Programs
import Straightline.Proofs.Lowering.Modules
import Straightline.Proofs.Selection.Activation

/-!
Whole programs. The code of a program has a part for each of its functions, and each call reaches the
function that it names; so running the code is evaluating the program, by induction over how deep the
calls are nested.
-/
namespace Straightline

open IR Source
open Machine (Instr Register Word Callees Image Restored words codeAt symbols)
open Lowering (LowersTo AnswersAll)
open Selection (codeOfFunc Frame Serves Handled)

variable {t : Target} {p : Program} {d : FnDef}

/-- The code has a part for each function of the program, and no other labels than their names. -/
structure Compiled (t : Target) (p : Program) (code : List Instr) : Prop where
  nodup : (p.definitions.map (·.name.val)).Nodup
  labels : symbols .defineLabel code = p.definitions.map (·.name.val)
  part : ∀ d ∈ p.definitions, ∃ f seg post,
    LowersTo t.entryPoint (p.resultTypes t.entryPoint) d f ∧ codeOfFunc t f = .ok seg ∧
      seg.diagnostic = none ∧ codeAt d.name.val code = codeAt d.name.val (seg.code ++ post)

theorem compiled_of_selectModule {moduleName : String} {o : Lowering.Outcome} {s : Selected}
    (h : p.lowerUncapped t.entryPoint moduleName = .ok o) (he : o.hasErrors = false)
    (hs : selectModule t o.code = .ok s) (hes : s.hasErrors = false) : Compiled t p s.code := by
  obtain ⟨hfuns, -⟩ := Lowering.functions_of_lowerUncapped h he
  obtain ⟨segs, hsegs, hcode⟩ := Selection.segments_of_selectModule hs hes
  have hname : ∀ {f d}, LowersTo t.entryPoint (p.resultTypes t.entryPoint) d f →
      f.name = d.name.val := fun ⟨_, hlower, _⟩ => FnDef.name_of_lower hlower
  have hnames : o.code.functions.map (·.name) = p.definitions.map (·.name.val) := by
    rw [← List.forall₂_eq_eq_eq, List.forall₂_map_left_iff, List.forall₂_map_right_iff]
    exact hfuns.flip.imp fun f d hd => hname hd
  refine ⟨hnames ▸ o.code.nodup, ?_, ?_⟩
  · rw [hcode, Selection.symbols_segments hsegs, hnames]
  · intro d hd
    obtain ⟨i, hi, rfl⟩ := List.getElem_of_mem hd
    have hi₁ : i < o.code.functions.length := hfuns.length_eq ▸ hi
    have hi₂ : i < segs.length := hsegs.length_eq ▸ hi₁
    have hlower := hfuns.get hi hi₁
    obtain ⟨hseg, hd⟩ := hsegs.get hi₁ hi₂
    obtain ⟨post, hpost⟩ := Selection.codeAt_selectModule hs (List.getElem_mem hi₁) hseg
    rw [List.get_eq_getElem] at hlower
    refine ⟨_, _, post, hlower, hseg, hd, ?_⟩
    rw [← hname hlower]
    exact hpost

section Source

variable {V : Type} {μ : Meaning V} {code : List Instr} {depth : Nat}

/-- Calls of the function are answered, with a value if it returns an integer. -/
def CallsAnswered (t : Target) (p : Program) (μ : Meaning V) (depth : Nat) (d : FnDef) : Prop :=
  ∀ args : List V, args.length = d.params.length →
    ∃ b, p.answer μ t.entryPoint depth ⟨d.name.val, args⟩ = some b ∧
      (d.resultTy t.entryPoint = .int → ∃ w, b.value = some w)

/-- A call that is reached is in the function's body and returns an integer or nothing. -/
theorem Compiled.site (hc : Compiled t p code) (hd : d ∈ p.definitions) {s : Stmt}
    (hs : s ∈ Stmt.reached d.body) {e : Expr} (he : e ∈ Expr.partsAll s.exprs)
    {site : String × Nat} (hsite : site ∈ e.site?) : site ∈ d.sites ∧
      ((⟨d.name.val, p.resultTypes t.entryPoint⟩ : Lowering.Context).resultOf site.1 = .int ∨
        (⟨d.name.val, p.resultTypes t.entryPoint⟩ : Lowering.Context).resultOf site.1 = .nil) := by
  obtain ⟨f, seg, -, ⟨ds, hlower, hds⟩, hseg, hnone, -⟩ := hc.part d hd
  have hfragment := (FnDef.accepts_iff_inFragment hlower hds).1 ⟨seg, hseg, hnone⟩
  refine ⟨List.mem_filterMap.2 ⟨e, List.mem_flatMap.2 ⟨s, ?_, he⟩, hsite⟩, ?_⟩
  · exact Stmt.mem_of_mem_reached hs
  · exact hfragment.resultOf hs he hsite

/-- The calls of a function are answered if all functions that it calls are. -/
theorem Compiled.answersAll (hc : Compiled t p code) (hp : p.Runnable t)
    (hd : d ∈ p.definitions)
    (ih : ∀ g ∈ p.definitions, p.Calls d.name.val g.name.val → CallsAnswered t p μ depth g) :
    ∀ s ∈ Stmt.reached d.body, AnswersAll ⟨d.name.val, p.resultTypes t.entryPoint⟩
      (p.answer μ t.entryPoint depth) s.exprs := by
  intro s hs e he site hsite ws hws
  obtain ⟨hmem, hresult⟩ := hc.site hd hs he hsite
  rw [Program.resultOf_eq] at hresult ⊢
  cases hp.resolves hd hmem with
  | foreign hdef hcallee =>
    refine ⟨_, Program.answer_foreign hdef, ?_⟩
    simp [hdef]
  | @declared g hdef hparams hcalls hcallee =>
    obtain ⟨hg, hname⟩ := Program.mem_of_definition? hdef
    obtain ⟨b, hb, hvalue⟩ := ih g hg hcalls ws (hws.trans hparams.symm)
    rw [hname] at hb
    refine ⟨b, hb, ?_⟩
    intro hne
    simp only [hdef, Option.map_some, Option.getD_some] at hresult hne
    exact hvalue (hresult.resolve_right hne)

/-- Where calls go to lower ranks, those of a function are answered at a depth above its rank. -/
theorem Compiled.answered (hc : Compiled t p code) (hp : p.Runnable t) {rank : String → Nat}
    (hrank : ∀ f g, p.Calls f g → rank g < rank f) (μ : Meaning V) (depth : Nat)
    (hd : d ∈ p.definitions) (hlt : rank d.name.val < depth) : CallsAnswered t p μ depth d := by
  induction depth generalizing d with
  | zero => omega
  | succ depth ih =>
    intro args hlen
    obtain ⟨f, -, -, ⟨ds, hlower, hds⟩, -⟩ := hc.part d hd
    obtain ⟨-, ops, r, hflat, -⟩ := FnDef.flattens_of_lower hlower hds
    -- Whatever the function calls has a lower rank, and one level less is enough for it.
    have hall := hc.answersAll (μ := μ) hp hd fun g hg hcalls => by
      have := hrank _ _ hcalls
      exact ih hg (by omega)
    obtain ⟨st, b, -, -, hperf⟩ := FnDef.performs hflat hlen hall
    have hdef := Program.definition?_name hc.nodup hd
    refine ⟨_, (Program.answer_declared hdef).trans hperf, ?_⟩
    intro hint
    by_cases hentry : d.name.val = t.entryPoint
    · cases b.value <;> simp [FnDef.bare, hentry]
    · obtain ⟨e, span, hreturn⟩ := hp.returns d hd hentry hint
      exact value_of_performBody hperf hreturn

end Source

variable {O : Oracle Word} {C : Callees O} {M : Image}

/-- How much stack a program needs in functions nested so deep. -/
def stackRoom (C : Callees O) (depth : Nat) : Nat := C.room + (16 + Frame.maxSize) * depth

theorem stackRoom_succ (C : Callees O) (depth : Nat) :
    stackRoom C (depth + 1) = stackRoom C depth + (16 + Frame.maxSize) := by
  unfold stackRoom
  rw [Nat.mul_succ, Nat.add_assoc]

/-- A call in the code of a function is handled if all functions that it calls are served. -/
theorem Compiled.handled (hc : Compiled t p M.code) (hp : p.Runnable t) (hd : d ∈ p.definitions)
    {depth : Nat}
    (ih : ∀ g ∈ p.definitions, p.Calls d.name.val g.name.val → CallsAnswered t p words depth g ∧
      ∀ args b, args.length = g.params.length →
        p.answer words t.entryPoint depth ⟨g.name.val, args⟩ = some b →
        Serves C M t (stackRoom C depth) ⟨g.name.val, args⟩ b)
    {s : Stmt} (hs : s ∈ Stmt.reached d.body) {result : Option Temporary} {g : String}
    {args : List Value}
    (ho : Lowering.Written ⟨d.name.val, p.resultTypes t.entryPoint⟩ s.exprs (.call result g args))
    {ws : List Word} (hws : ws.length = args.length) :
    Handled C M t (stackRoom C depth) (p.answer words t.entryPoint depth) result ⟨g, ws⟩ := by
  obtain ⟨⟨e, he, hsite⟩, hresult⟩ := ho result g args rfl
  obtain ⟨hmem, hint⟩ := hc.site hd hs he hsite
  rw [Program.resultOf_eq] at hint hresult
  cases hp.resolves hd hmem with
  | foreign hdef hcallee =>
    refine .outside (Program.answer_foreign hdef) ?_ ?_
    · rw [hc.labels]
      exact hcallee
    · exact hresult.2 (by simp [hdef])
  | @declared g' hdef hparams hcalls hcallee =>
    obtain ⟨hg, hname⟩ := Program.mem_of_definition? hdef
    obtain ⟨hanswered, hserves⟩ := ih g' hg hcalls
    obtain ⟨b, hb, hvalue⟩ := hanswered ws (hws.trans hparams.symm)
    have hserved := hserves ws b (hws.trans hparams.symm) hb
    rw [hname] at hb hserved
    refine .inside hb hcallee hserved ?_
    intro hne
    simp only [hdef, Option.map_some, Option.getD_some] at hint hresult
    exact hvalue (hint.resolve_right (mt hresult.2 hne))

/-- Calls of the functions of a program are served as they are answered. -/
theorem Compiled.serves (hc : Compiled t p M.code) (hp : p.Runnable t) {rank : String → Nat}
    (hrank : ∀ f g, p.Calls f g → rank g < rank f) (depth : Nat) (hd : d ∈ p.definitions)
    (hlt : rank d.name.val < depth) {args : List Word} {b : Behaviour Word}
    (hlen : args.length = d.params.length)
    (hb : p.answer words t.entryPoint depth ⟨d.name.val, args⟩ = some b) :
    Serves C M t (stackRoom C depth) ⟨d.name.val, args⟩ b := by
  induction depth generalizing d args b with
  | zero => omega
  | succ depth ih =>
    obtain ⟨f, seg, post, ⟨ds, hlower, hds⟩, hseg, hnone, hat⟩ := hc.part d hd
    obtain ⟨hheader, ops, r, hflat, hf⟩ := FnDef.flattens_of_lower hlower hds
    have hname : f.name = d.name.val := by rw [hf]
    have hstart : f.start args [] = { cells := cellsOf ((d.params.map (·.name)).zip args) } := by
      rw [hf, ← FnDef.typedParams_names hheader]
      rfl
    have hparams : args.length = f.params.length := by
      rw [hlen, hf, ← List.length_map (·.name), ← FnDef.typedParams_names hheader, List.length_map]
    have hbelow : ∀ g ∈ p.definitions, p.Calls d.name.val g.name.val →
        rank g.name.val < depth := by
      intro g _ hcalls
      have := hrank _ _ hcalls
      omega
    have hanswered : ∀ g ∈ p.definitions, p.Calls d.name.val g.name.val →
        CallsAnswered t p words depth g :=
      fun g hg hcalls => hc.answered hp hrank words depth hg (hbelow g hg hcalls)
    obtain ⟨st, b', hexec, hret, hperf⟩ :=
      FnDef.performs hflat hlen (hc.answersAll hp hd hanswered)
    rw [Program.answer_declared (Program.definition?_name hc.nodup hd), hperf] at hb
    cases hb
    rw [← hstart] at hexec
    rw [← hname] at hat
    -- The function's own frame is what one level more of stack is for.
    have hroom : C.room ≤ stackRoom C depth := Nat.le_add_right ..
    have hhandled : ∀ o ∈ ops, ∀ result g args, o.val = .call result g args → ∀ ws,
        ws.length = args.length → Handled C M t (stackRoom C depth)
          (p.answer words t.entryPoint depth) result ⟨g, ws⟩ := by
      intro o ho result g args hcall ws hws
      obtain ⟨s, hs, hwritten⟩ := hflat.written o ho
      rw [hcall] at hwritten
      refine hc.handled hp hd ?_ hs hwritten hws
      intro g hg hcalls
      exact ⟨hanswered g hg hcalls, fun _ _ => ih hg (hbelow g hg hcalls)⟩
    have hserved := Selection.serves_codeOfFunc (by rw [hf]) hseg hnone hat hroom hhandled hparams
      hexec hret
    rw [hname, ← stackRoom_succ] at hserved
    exact hserved

theorem code_of_lower {moduleName : String} {o o' : Lowering.Outcome}
    (h : lower t moduleName p = .ok o') (ho : p.lowerUncapped t.entryPoint moduleName = .ok o) :
    o'.code = o.code := by
  have hlower : p.lower t.entryPoint moduleName = .ok o' := by
    unfold lower at h
    split at h
    next o₁ h₁ =>
      cases h
      exact h₁
    next => cases h
  obtain ⟨u, hu, rfl⟩ := Program.lower_eq_ok_iff.1 hlower
  cases hu.symm.trans ho
  rfl

/-- Compilation preserves what a program does. Started at the label of the entry point, wherever the
code is in memory and whatever callees outside do, the machine makes the calls that the evaluation of
the program makes, in the same order and with the same arguments, and comes back with its value. -/
theorem compiled_program_runs {moduleName : String} {out : Output} {o : Lowering.Outcome}
    (h : compile t moduleName p = .ok out)
    (ho : p.lowerUncapped t.entryPoint moduleName = .ok o) (he : o.hasErrors = false)
    (hp : p.Runnable t) :
    ∃ s calls w, selectModule t o.code = .ok s ∧ assemble t s.code = .ok out.assembly ∧
      (∀ depth, p.definitions.length ≤ depth →
        p.answer words t.entryPoint depth ⟨t.entryPoint, []⟩ = some ⟨calls, some w⟩) ∧
      ∀ (O : Oracle Word) (C : Callees O) (M : Image), M.code = s.code →
        ∃ k, M.label? t.entryPoint = some k ∧ ∀ σ : Machine.State,
          C.room + (16 + Frame.maxSize) * p.definitions.length ≤ (σ.regs .sp).toNat →
          M.position? (σ.regs .lr) = none →
          ∃ τ, M.Steps C ⟨M.addr k, σ⟩ ⟨σ.regs .lr, τ⟩ ∧ M.step C ⟨σ.regs .lr, τ⟩ = none ∧
            τ.calls = σ.calls ++ calls.map (·.rename t.callee) ∧ τ.regs .r0 = w ∧
            Restored σ τ := by
  obtain ⟨o', s, ho', -, hs, hes, hassembly⟩ := compile_eq_ok h
  rw [code_of_lower ho' ho] at hs
  have hc := compiled_of_selectModule ho he hs hes
  obtain ⟨rank, hrank, hrank_lt⟩ := Program.exists_rank hp.acyclic
  obtain ⟨d, hd, hname, hparams⟩ := hp.entry
  have hlen : ([] : List Word).length = d.params.length := by rw [hparams]; rfl
  obtain ⟨⟨calls, value⟩, hb, hvalue⟩ := hc.answered hp hrank words _ hd (hrank_lt d hd) [] hlen
  obtain ⟨w, rfl⟩ := hvalue (by simp [FnDef.resultTy, hname])
  refine ⟨s, calls, w, hs, hassembly, ?_, ?_⟩
  · intro depth hle
    rw [hname] at hb
    exact Program.answer_mono hb hle
  · intro O C M hM
    rw [← hM] at hc
    obtain ⟨k, hk, hrun⟩ := hc.serves (C := C) hp hrank _ hd (hrank_lt d hd) hlen hb
    rw [← hname]
    refine ⟨k, hk, ?_⟩
    intro σ hroom hlr
    obtain ⟨τ, hsteps, hback, hcalls, hresult⟩ := hrun σ hroom rfl
    refine ⟨τ, hsteps, ?_, hcalls, hresult w rfl, hback⟩
    simp [Image.step, hlr]

/-- Code from address 4096 on, with four bytes for each instruction. -/
def Machine.Image.load (code : List Instr) (h : code.length ≤ 2 ^ 32) : Image where
  code := code
  addr i := BitVec.ofNat 64 (4096 + 4 * i)
  addr_inj := by
    intro i hi j hj he
    have := congrArg BitVec.toNat he
    simp only [BitVec.toNat_ofNat] at this
    omega

theorem Machine.Image.position?_load_zero (code : List Instr) (h : code.length ≤ 2 ^ 32) :
    (load code h).position? 0 = none := by
  rw [position?, List.find?_eq_none]
  intro i hi
  have hlt : i < code.length := List.mem_range.1 hi
  have hne : BitVec.ofNat 64 (4096 + 4 * i) ≠ 0 := by
    intro he
    have := congrArg BitVec.toNat he
    simp only [BitVec.toNat_ofNat, BitVec.ofNat_eq_ofNat] at this
    omega
  exact fun he => hne (of_decide_eq_true he)

/-- `func double(a: int): int { print(a); return a + a }`,
`func twice(a: int): int { let b = double(a); return double(b) }` and
`func main() { let x = twice(3); print(x); return x - 5 }`. -/
def doubling : Program := [
  .fn ⟨⟨"double", .nowhere⟩, [⟨"a", ⟨"int", .nowhere⟩⟩], some ⟨"int", .nowhere⟩,
    [.eval (.call (.name "print" .nowhere) [.name "a" .nowhere] .nowhere) .nowhere,
      .ret (some (.binary "+" (.name "a" .nowhere) (.name "a" .nowhere) .nowhere)) .nowhere]⟩,
  .fn ⟨⟨"twice", .nowhere⟩, [⟨"a", ⟨"int", .nowhere⟩⟩], some ⟨"int", .nowhere⟩,
    [.bind "b" (.call (.name "double" .nowhere) [.name "a" .nowhere] .nowhere) .nowhere,
      .ret (some (.call (.name "double" .nowhere) [.name "b" .nowhere] .nowhere)) .nowhere]⟩,
  .fn ⟨⟨"main", .nowhere⟩, [], none,
    [.bind "x" (.call (.name "twice" .nowhere) [.literal (.int "3") .nowhere] .nowhere) .nowhere,
      .eval (.call (.name "print" .nowhere) [.name "x" .nowhere] .nowhere) .nowhere,
      .ret (some (.binary "-" (.name "x" .nowhere) (.literal (.int "5") .nowhere) .nowhere))
        .nowhere]⟩]

theorem doubling_runnable : doubling.Runnable .darwin where
  entry := ⟨_, .tail _ (.tail _ (.head _)), rfl, rfl⟩
  arity := by decide +kernel
  returns := by
    intro d hd hentry _
    rcases List.mem_cons.1 hd with rfl | hd
    · exact ⟨_, _, rfl⟩
    rcases List.mem_cons.1 hd with rfl | hd
    · exact ⟨_, _, rfl⟩
    obtain rfl := List.mem_singleton.1 hd
    exact (hentry rfl).elim
  acyclic := Program.acyclic_of_rank (fun f => ["double", "twice", "main"].idxOf f)
    (by decide +kernel)
  apart := by decide +kernel

theorem compiled_program_runs_doubling :
    ∃ out, compile .darwin "m" doubling = .ok out ∧
      ∃ (s : Selected) (M : Image), assemble .darwin s.code = .ok out.assembly ∧ M.code = s.code ∧
        ∃ k τ, M.label? "main" = some k ∧
          M.Steps (Selection.quietCallees fun _ _ => 9) ⟨M.addr k, Selection.sampleState⟩ ⟨0, τ⟩ ∧
          M.step (Selection.quietCallees fun _ _ => 9) ⟨0, τ⟩ = none ∧
          τ.calls =
            [⟨"navi_print_int", [3]⟩, ⟨"navi_print_int", [6]⟩, ⟨"navi_print_int", [12]⟩] ∧
          τ.regs .r0 = 7 := by
  have hcompile : (compile .darwin "m" doubling).toOption.map (fun _ => ()) = some () := by
    decide +kernel
  obtain ⟨out, hout, -⟩ := exists_ok_of_toOption hcompile
  have hlower : (doubling.lowerUncapped "main" "m").toOption.map (fun o => (o.hasErrors,
      (selectModule .darwin o.code).toOption.map fun s => decide (s.code.length ≤ 2 ^ 32))) =
        some (false, some true) := by
    decide +kernel
  obtain ⟨o, ho, hfacts⟩ := exists_ok_of_toOption hlower
  rw [Prod.mk.injEq] at hfacts
  obtain ⟨s, calls, w, hs, hassembly, hanswer, hrun⟩ :=
    compiled_program_runs hout ho hfacts.1 doubling_runnable
  have hvalue : doubling.answer words "main" 3 ⟨"main", []⟩ =
      some ⟨[⟨"print", [3]⟩, ⟨"print", [6]⟩, ⟨"print", [12]⟩], some 7⟩ := by
    decide +kernel
  cases (hanswer 3 (by decide)).symm.trans hvalue
  obtain ⟨s', hs', hlength⟩ := exists_ok_of_toOption hfacts.2
  cases hs.symm.trans hs'
  have hlength : s.code.length ≤ 2 ^ 32 := of_decide_eq_true hlength
  obtain ⟨k, hk, hstart⟩ := hrun _ (Selection.quietCallees fun _ _ => 9) (.load s.code hlength) rfl
  obtain ⟨τ, hsteps, hstop, hcalls, hr0, -⟩ :=
    hstart Selection.sampleState (by decide) (Image.position?_load_zero _ hlength)
  exact ⟨out, hout, s, .load s.code hlength, hassembly, rfl, k, τ, hk, hsteps, hstop, hcalls, hr0⟩

end Straightline
