import Straightline.Proofs.Lowering.Ledger
import Straightline.Selection.Select

/-!
What the books say about whole functions: every temporary is defined once and read at most once, and
the types of operands, variables and results agree. It holds of every program, whatever errors it has.
-/
namespace Straightline

namespace IR

/-- The temporaries that a function defines, in order. -/
def Func.defined (f : Func) : List Temporary := temps (f.instructions.filterMap (·.val.result?))

/-- The types in an operation agree with each other and with what was declared before it, by the
operations `pre` or else as one of the parameters. A store comes right after the declaration. -/
def Op.Consistent (params : List Variable) (pre : List (Located Op)) : Op → Prop
  | .alloc _ | .call .. => True
  | .store dest v => ∃ x, dest = .var x ∧ v.ty = x.ty ∧ ∃ a, pre.getLast? = some a ∧ a.val = .alloc x
  | .load t source => ∃ x, source = .var x ∧ t.ty = x.ty ∧
      (latestTy? (pre.filterMap (·.val.declared?)) x.name).or (latestTy? params x.name) = some x.ty
  | .binary _ t lhs rhs => lhs.ty = t.ty ∧ rhs.ty = t.ty

theorem Op.eq_alloc_of_declared? {o : Op} {x : Variable} (h : o.declared? = some x) :
    o = .alloc x := by
  cases o with
  | alloc y =>
    obtain rfl := Option.some.inj h
    rfl
  | store | load | binary | call => cases h

/-- An instruction of a block is one of the body or the return at its end. -/
theorem Block.instructions_split {b : Block} {pre post : List (Located Instruction)}
    {i : Located Instruction} (h : b.instructions = pre ++ i :: post) :
    (∃ pre' o post', b.body = pre' ++ o :: post' ∧ pre = pre'.map (fun o => ⟨.op o.val, o.span⟩) ∧
      i.val = .op o.val) ∨
    (∃ t ∈ b.terminator, pre = b.body.map (fun o => ⟨.op o.val, o.span⟩) ∧ i.val = .ret t.val) := by
  have hend : ∀ rest, b.terminator.toList.map (fun t => (⟨.ret t.val, t.span⟩ : Located Instruction)) =
      rest ++ i :: post → rest = [] ∧ ∃ t ∈ b.terminator, i.val = .ret t.val := by
    intro rest hrest
    cases ht : b.terminator with
    | none => simp [ht] at hrest
    | some t =>
      rw [ht] at hrest
      cases rest with
      | nil =>
        obtain ⟨rfl, -⟩ := List.cons.inj hrest
        exact ⟨rfl, t, rfl, rfl⟩
      | cons j rest => simp at hrest
  rcases List.append_eq_append_iff.1 h with ⟨rest, hpre, hrest⟩ | ⟨rest, hbody, hrest⟩
  · obtain ⟨rfl, t, ht, hi⟩ := hend rest hrest
    exact .inr ⟨t, ht, by simpa using hpre, hi⟩
  · cases rest with
    | nil =>
      obtain ⟨-, t, ht, hi⟩ := hend [] hrest.symm
      exact .inr ⟨t, ht, by simpa using hbody.symm, hi⟩
    | cons j rest =>
      obtain ⟨rfl, -⟩ := List.cons.inj hrest
      obtain ⟨pre', post', hsplit, rfl, hpost⟩ := List.map_eq_append_iff.1 hbody
      obtain ⟨o, post'', rfl, rfl, -⟩ := List.map_eq_cons_iff.1 hpost
      exact .inl ⟨pre', o, post'', hsplit, rfl, rfl⟩

namespace Func

variable {f : Func}

theorem defined_eq {b : Block} (hb : f.blocks = [b]) :
    f.defined = b.body.flatMap (·.val.defines) := by
  have hret : ∀ t : Option (Located (Option Value)), List.filterMap
      (fun i : Located Instruction => i.val.result?) (t.toList.map fun t => ⟨.ret t.val, t.span⟩) =
        [] := by
    intro t
    cases t <;> rfl
  rw [defined, instructions, hb, List.flatMap_singleton, Block.instructions, List.filterMap_append,
    hret, List.append_nil, List.filterMap_map, List.filterMap_eq_flatMap_toList, temps,
    List.filterMap_flatMap]
  rfl

theorem reads_eq {b : Block} (hb : f.blocks = [b]) : Selection.reads f =
    (b.body.flatMap (·.val.reads) ++
      b.terminator.toList.flatMap (fun t => temps t.val.toList)).map (·.id) := by
  have hids : ∀ vs : List Value,
      vs.filterMap (fun v => v.temp?.map (·.id)) = (temps vs).map (·.id) := by
    intro vs
    rw [temps, List.map_filterMap]
  simp only [Selection.reads, instructions, hb, List.flatMap_singleton, Block.instructions,
    List.flatMap_append, List.flatMap_map, List.map_append, List.map_flatMap, Instruction.operands,
    hids]
  rfl

namespace KeepsBooks

open Lowering (books)

theorem defined_ids (h : f.KeepsBooks) :
    f.defined.map (·.id) = List.range f.defined.length := by
  obtain ⟨b, l, hb, hbody, -⟩ := h
  rw [defined_eq hb, hbody.numbers, List.range_eq_range']
  rfl

/-- What is read at some point was defined before, and what the return reads is unread by then. -/
theorem defined_before (h : f.KeepsBooks) {b : Block} (hb : b ∈ f.blocks)
    {pre post : List (Located Instruction)} {i : Located Instruction}
    (hi : b.instructions = pre ++ i :: post) {t : Temporary} (ht : .temp t ∈ i.val.operands) :
    ∃ j ∈ pre, j.val.result? = some (.temp t) := by
  obtain ⟨b', l, hb', hbody, hret⟩ := h
  obtain rfl : b = b' := by simpa [hb'] using hb
  -- Whatever is unread after some operations is the result of one of them.
  have hunread : ∀ {ops l₁}, Ledger.EntersAll (books f.params 0 []) ops l₁ → t ∈ l₁.unread →
      ∃ j ∈ ops.map (fun o => (⟨.op o.val, o.span⟩ : Located Instruction)),
        j.val.result? = some (.temp t) := by
    intro ops l₁ hops htl
    have hmem := hops.unread.mem_iff.2 (List.mem_append_right _ htl)
    obtain ⟨o, ho, hto⟩ := List.mem_flatMap.1 hmem
    refine ⟨_, List.mem_map_of_mem ho, ?_⟩
    exact Option.mem_toList.1 (mem_temps.1 hto)
  rcases Block.instructions_split hi with ⟨pre', o, post', hsplit, rfl, ho⟩ | ⟨r, hr, rfl, hir⟩
  · rw [hsplit] at hbody
    obtain ⟨l₁, l₂, hpre, hstep⟩ := hbody.at
    obtain ⟨rest, hl₁, -⟩ := hstep.unread
    apply hunread hpre
    rw [hl₁]
    apply List.mem_append_left
    rw [ho] at ht
    exact List.mem_reverse.2 (mem_temps.2 ht)
  · apply hunread hbody
    rw [hir] at ht
    exact (hret r hr).subset (mem_temps.2 ht)

/-- Nothing is read twice. -/
theorem reads_nodup (h : f.KeepsBooks) : (Selection.reads f).Nodup := by
  obtain ⟨b, l, hb, hbody, hret⟩ := id h
  have hdefined : (f.defined.map (·.id)).Nodup := by
    rw [h.defined_ids]
    exact List.nodup_range
  rw [defined_eq hb] at hdefined
  have hall : ((b.body.flatMap (·.val.reads) ++ l.unread).map (·.id)).Nodup :=
    (hbody.unread.map _).nodup hdefined
  rw [reads_eq hb]
  refine hall.sublist (List.Sublist.map _ ((List.Sublist.refl _).append ?_))
  cases ht : b.terminator with
  | none => exact List.nil_sublist _
  | some r => simpa using (hret r ht).sublist

theorem consistent (h : f.KeepsBooks) {b : Block} (hb : b ∈ f.blocks)
    {pre post : List (Located Op)} {o : Located Op} (ho : b.body = pre ++ o :: post) :
    o.val.Consistent f.params pre := by
  obtain ⟨b', l, hb', hbody, -⟩ := h
  obtain rfl : b = b' := by simpa [hb'] using hb
  rw [ho] at hbody
  obtain ⟨l₁, l₂, hpre, hstep⟩ := hbody.at
  have htypes := hstep.types
  cases hop : o.val with
  | alloc | call => trivial
  | binary op t lhs rhs =>
    rw [hop] at htypes
    exact htypes
  | load t source =>
    rw [hop] at htypes
    obtain ⟨x, rfl, hty, hlatest⟩ := htypes
    rw [hpre.vars, latestTy?_append] at hlatest
    exact ⟨x, rfl, hty, hlatest⟩
  | store dest v =>
    rw [hop] at htypes
    obtain ⟨x, rfl, hfresh, hty⟩ := htypes
    refine ⟨x, rfl, hty, ?_⟩
    rcases List.eq_nil_or_concat pre with rfl | ⟨pre', a, rfl⟩
    · -- Before the first operation nothing was declared just now.
      cases hpre
      cases hfresh
    · rw [List.concat_eq_append] at hpre ⊢
      have ha := hpre.fresh.symm.trans hfresh
      exact ⟨a, by simp, Op.eq_alloc_of_declared? ha⟩

end KeepsBooks

end Func

end IR

open IR Source

namespace Source.Program

variable (entryPoint moduleName : String) (p : Program)

/-- The functions of a module keep the books. -/
theorem exists_lower_keepsBooks : ∃ o, p.lower entryPoint moduleName = .ok o ∧
    ∀ f ∈ o.code.functions, f.KeepsBooks := by
  obtain ⟨u, hu⟩ := p.exists_lowerUncapped entryPoint moduleName
  refine ⟨_, lower_eq_ok_iff.2 ⟨u, hu, rfl⟩, ?_⟩
  intro f hf
  obtain ⟨d, -, ds, hd⟩ := exists_definition hu hf
  exact FnDef.keepsBooks_of_lower hd

/-- Lowered code is single-assignment and single-use: the temporaries of a function are numbered from
zero in the order of their definitions, each is read after its definition in the same block and with
the type it was defined with, and none is read twice. -/
theorem temporaries_used_once : ∃ o, p.lower entryPoint moduleName = .ok o ∧
    ∀ f ∈ o.code.functions, f.defined.map (·.id) = List.range f.defined.length ∧
      (∀ b ∈ f.blocks, ∀ pre i post, b.instructions = pre ++ i :: post →
        ∀ t, .temp t ∈ i.val.operands → ∃ j ∈ pre, j.val.result? = some (.temp t)) ∧
      (Selection.reads f).Nodup := by
  obtain ⟨o, ho, hbooks⟩ := p.exists_lower_keepsBooks entryPoint moduleName
  refine ⟨o, ho, ?_⟩
  intro f hf
  refine ⟨(hbooks f hf).defined_ids, ?_, (hbooks f hf).reads_nodup⟩
  intro b hb pre i post hi t ht
  exact (hbooks f hf).defined_before hb hi ht

/-- `func f(a: int, a: string): int { let x = a; let x = 1 + f(2, x); x + "s"; return x }`, where the
sum of `x` and a string is an error. -/
def redeclaringProgram : Program := [
  .fn ⟨⟨"f", .nowhere⟩, [⟨"a", ⟨"int", .nowhere⟩⟩, ⟨"a", ⟨"string", .nowhere⟩⟩],
    some ⟨"int", .nowhere⟩,
    [.bind "x" (.name "a" .nowhere) .nowhere,
      .bind "x" (.binary "+" (.literal (.int "1") .nowhere) (.call (.name "f" .nowhere)
        [.literal (.int "2") .nowhere, .name "x" .nowhere] .nowhere) .nowhere) .nowhere,
      .eval (.binary "+" (.name "x" .nowhere) (.literal (.string "s") .nowhere) .nowhere) .nowhere,
      .ret (some (.name "x" .nowhere)) .nowhere]⟩]

theorem temporaries_used_once_redeclaring :
    ∃ o f, redeclaringProgram.lower "main" "m" = .ok o ∧ o.hasErrors = true ∧ f ∈ o.code.functions ∧
      f.defined.map (·.id) = [0, 1, 2, 3, 4, 5] ∧ Selection.reads f = [0, 1, 2, 3, 5] ∧
      (∀ b ∈ f.blocks, ∀ pre i post, b.instructions = pre ++ i :: post →
        ∀ t, .temp t ∈ i.val.operands → ∃ j ∈ pre, j.val.result? = some (.temp t)) ∧
      (Selection.reads f).Nodup := by
  obtain ⟨o, ho, hall⟩ := temporaries_used_once "main" "m" redeclaringProgram
  have heval : (redeclaringProgram.lower "main" "m").toOption.map (fun o => (o.hasErrors,
      o.code.functions.map fun f => (f.defined.length, Selection.reads f))) =
        some (true, [(6, [0, 1, 2, 3, 5])]) := by
    decide +kernel
  rw [ho] at heval
  obtain ⟨herror, hfunctions⟩ := Prod.mk.inj (Option.some.inj heval)
  obtain ⟨f, hf, hfacts⟩ := List.map_eq_singleton_iff.1 hfunctions
  obtain ⟨hlength, hreads⟩ := Prod.mk.inj hfacts
  have hmem : f ∈ o.code.functions := by simp [hf]
  obtain ⟨hdefined, hrest⟩ := hall f hmem
  rw [hlength] at hdefined
  exact ⟨o, f, ho, herror, hmem, hdefined, hreads, hrest⟩

/-- Lowered code is type consistent: every operation agrees with the declarations before it. -/
theorem operations_consistent : ∃ o, p.lower entryPoint moduleName = .ok o ∧
    ∀ f ∈ o.code.functions, ∀ b ∈ f.blocks, ∀ pre op post, b.body = pre ++ op :: post →
      op.val.Consistent f.params pre := by
  obtain ⟨o, ho, hbooks⟩ := p.exists_lower_keepsBooks entryPoint moduleName
  refine ⟨o, ho, ?_⟩
  intro f hf b hb pre op post hop
  exact (hbooks f hf).consistent hb hop

theorem operations_consistent_redeclaring :
    ∃ o f b, redeclaringProgram.lower "main" "m" = .ok o ∧ o.hasErrors = true ∧ f ∈ o.code.functions ∧
      f.blocks = [b] ∧ f.params = [⟨"a", .int⟩, ⟨"a", .string⟩] ∧
      b.body.filterMap (·.val.declared?) = [⟨"x", .string⟩, ⟨"x", .int⟩] ∧
      ∀ pre op post, b.body = pre ++ op :: post → op.val.Consistent f.params pre := by
  obtain ⟨o, ho, hall⟩ := operations_consistent "main" "m" redeclaringProgram
  have heval : (redeclaringProgram.lower "main" "m").toOption.map (fun o => (o.hasErrors,
      o.code.functions.map fun f => (f.params,
        f.blocks.map fun b => b.body.filterMap (·.val.declared?)))) =
        some (true, [([⟨"a", .int⟩, ⟨"a", .string⟩], [[⟨"x", .string⟩, ⟨"x", .int⟩]])]) := by
    decide +kernel
  rw [ho] at heval
  obtain ⟨herror, hfunctions⟩ := Prod.mk.inj (Option.some.inj heval)
  obtain ⟨f, hf, hfacts⟩ := List.map_eq_singleton_iff.1 hfunctions
  obtain ⟨hparams, hblocks⟩ := Prod.mk.inj hfacts
  obtain ⟨b, hb, hdeclared⟩ := List.map_eq_singleton_iff.1 hblocks
  have hmem : f ∈ o.code.functions := by simp [hf]
  exact ⟨o, f, b, ho, herror, hmem, hb, hparams, hdeclared, hall f hmem b (by simp [hb])⟩

end Source.Program

end Straightline
