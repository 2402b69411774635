import Straightline.Proofs.Building.Steps

/-!
What the requests to a builder, with its answers, say about the blocks it fills. A block holds just
what was built while it was the insertion block, with the spans of that time; once it has ended it
changes no more; and no temporary is given out twice before a reset.
-/
namespace Straightline.IR

/-! ## Blocks -/

namespace Block

variable {block : Block}

/-- The returns among the instructions of a block: the last one, if the block is complete. -/
theorem isReturn_iff {before rest : List (Located Instruction)} {i : Located Instruction}
    (h : block.instructions = before ++ i :: rest) :
    i.val.isReturn = true ↔ rest = [] ∧ block.isComplete = true := by
  have hbody : ∀ j ∈ block.body.map fun o => (⟨.op o.val, o.span⟩ : Located Instruction),
      j.val.isReturn = false := by
    intro j hj
    obtain ⟨o, -, rfl⟩ := List.mem_map.1 hj
    rfl
  cases ht : block.terminator with
  | none =>
    rw [instructions, ht, Option.toList_none, List.map_nil, List.append_nil] at h
    have hi := hbody i (h ▸ List.mem_append_right before (.head _))
    simp [hi, isComplete, ht]
  | some t =>
    rw [instructions, ht, Option.toList_some, List.map_singleton] at h
    rcases List.eq_nil_or_concat rest with rfl | ⟨rest, j, rfl⟩
    · obtain ⟨-, hi⟩ := List.append_inj' h rfl
      obtain rfl := (List.cons.inj hi).1
      simp [Instruction.isReturn, isComplete, ht]
    · rw [List.concat_eq_append, ← List.cons_append, ← List.append_assoc] at h
      obtain ⟨hi, -⟩ := List.append_inj' h rfl
      have hi := hbody i (hi ▸ List.mem_append_right before (.head _))
      simp [hi]

theorem filterMap_op_instructions (block : Block) : block.instructions.filterMap (fun i =>
    match i.val with
    | .op o => some (⟨o, i.span⟩ : Located Op)
    | .ret _ => none) = block.body := by
  obtain ⟨name, body, _ | t⟩ := block <;> simp [instructions]

theorem filterMap_ret_instructions (block : Block) : block.instructions.filterMap (fun i =>
    match i.val with
    | .op _ => none
    | .ret value => some (⟨value, i.span⟩ : Located (Option Value))) = block.terminator.toList := by
  obtain ⟨name, body, _ | t⟩ := block <;> simp [instructions]

/-- A block is told by its name and its instructions. -/
theorem eq_of_instructions {b c : Block} (hname : b.name = c.name)
    (h : b.instructions = c.instructions) : b = c := by
  have hbody : b.body = c.body := by
    rw [← filterMap_op_instructions, h, filterMap_op_instructions]
  have hend : b.terminator = c.terminator := by
    have hlist : b.terminator.toList = c.terminator.toList := by
      rw [← filterMap_ret_instructions, h, filterMap_ret_instructions]
    simpa using congrArg List.head? hlist
  cases b
  cases c
  cases hname
  cases hbody
  cases hend
  rfl

end Block

namespace Builder

variable {b b' : Builder} {r : Request} {a : Answer} {i : Instruction} {e : Event}
  {es es' : List Event} {block : Block} {n : Nat}

/-! ## What an event shows -/

namespace Event

/-- The instruction that was built. -/
def built? : Event → Option Instruction
  | ⟨.alloc name ty, .ok _⟩ => some (.op (.alloc ⟨name, ty⟩))
  | ⟨.store dest value, .ok _⟩ => some (.op (.store dest value))
  | ⟨.load source, .ok (.temporary (some t))⟩ => some (.op (.load t source))
  | ⟨.binary op lhs rhs, .ok (.temporary (some t))⟩ => some (.op (.binary op t lhs rhs))
  | ⟨.call callee args _, .ok (.temporary t)⟩ => some (.op (.call t callee args))
  | ⟨.ret value, .ok _⟩ => some (.ret value)
  | _ => none

/-- The temporary that was given out. -/
def temporary? : Event → Option Temporary
  | ⟨_, .ok (.temporary t)⟩ => t
  | _ => none

end Event

/-- The instructions built in a history that starts with the current span `s`, each with the span
that was current when it was built. -/
def written (s : Span) : List Event → List (Located Instruction)
  | [] => []
  | e :: es => (e.built?.map (⟨·, s⟩)).toList ++ written (e.request.spanFrom s) es

/-- The current span after a history: the last one that was set since the last reset. -/
def spanAfter (es : List Event) : Span := es.foldl (fun s e => e.request.spanFrom s) .nowhere

/-- How many numbers of temporaries have been used up since the last reset. -/
def drawn (es : List Event) : Nat := es.foldl (fun n e => e.request.drawnFrom n) 0

namespace Builds

variable (h : Builds n r a i)
include h

theorem moves_eq : r.moves = false := by
  cases h <;> rfl

theorem builds_eq : r.builds = true := by
  cases h <;> rfl

theorem spanFrom_eq (s : Span) : r.spanFrom s = s := by
  cases h <;> rfl

theorem drawnFrom_eq (m : Nat) : r.drawnFrom m = m + r.draws := by
  cases h <;> rfl

theorem built?_eq : Event.built? ⟨r, .ok a⟩ = some i := by
  cases h <;> rfl

theorem temporary?_eq {t : Temporary} (ht : Event.temporary? ⟨r, .ok a⟩ = some t) :
    t.id = n ∧ r.draws = 1 := by
  cases h with
  | load | binary =>
    cases ht
    exact ⟨rfl, rfl⟩
  | call callee args hty =>
    cases ht
    exact ⟨rfl, if_neg hty⟩
  | alloc | store | voidCall | ret => cases ht

end Builds

/-! ## What a step keeps -/

namespace Step

variable (h : Step b e b')
include h

theorem span_eq : b'.span = e.request.spanFrom b.span := by
  cases h with
  | reset | setSpan | insert | take | fresh => rfl
  | dropped h | refused h | added h => exact (h.spanFrom_eq b.span).symm

theorem nextId_eq : b'.nextId = e.request.drawnFrom b.nextId := by
  cases h with
  | reset | setSpan | insert | take | fresh => rfl
  | dropped h | refused h | added h => exact (h.drawnFrom_eq b.nextId).symm

/-- While it stays the insertion block, a block takes up what is built. -/
theorem block_of_stays (hmoves : e.request.moves = false) (hb : b.block = some block) :
    ∃ new, b'.block = some new ∧ new.name = block.name ∧
      new.instructions = block.instructions ++ (e.built?.map (⟨·, b.span⟩)).toList := by
  cases h with
  | reset | insert | take => cases hmoves
  | setSpan | fresh => exact ⟨block, hb, rfl, by simp [Event.built?]⟩
  | dropped h hnone => cases hnone.symm.trans hb
  | refused h hb' hc => exact ⟨block, hb, rfl, by simp [Event.built?]⟩
  | added h hb' hc hname hnew =>
    obtain rfl := Option.some.inj (hb'.symm.trans hb)
    refine ⟨_, rfl, hname, ?_⟩
    rw [hnew, h.built?_eq]
    rfl

/-- A complete block takes up nothing more. -/
theorem block_of_complete (hmoves : e.request.moves = false) (hb : b.block = some block)
    (hc : block.isComplete = true) : b'.block = some block := by
  cases h with
  | reset | insert | take => cases hmoves
  | setSpan | fresh | dropped | refused => exact hb
  | added h hb' hopen =>
    obtain rfl := Option.some.inj (hb'.symm.trans hb)
    cases hopen.symm.trans hc

/-- An insertion block was there before, unless it has just been handed in. -/
theorem block_before (hb : b'.block = some block) :
    (∃ name, e = ⟨.insert name, .ok .done⟩) ∨
      e.request.moves = false ∧ ∃ old, b.block = some old := by
  cases h with
  | reset | take => cases hb
  | insert name => exact .inl ⟨name, rfl⟩
  | setSpan | fresh => exact .inr ⟨rfl, block, hb⟩
  | dropped h hnone => cases hnone.symm.trans hb
  | refused h hold | added h hold => exact .inr ⟨h.moves_eq, _, hold⟩

theorem block_of_error {err : BuildError} (he : e.outcome = .error err) : b'.block = b.block := by
  cases h with
  | refused => rfl
  | reset | setSpan | insert | take | fresh | dropped | added => cases he

/-- Only instructions can be refused, and just when the insertion block is complete. -/
theorem error_iff : (∃ err, e.outcome = .error err) ↔
    e.request.builds = true ∧ b.isTerminated = true := by
  cases h with
  | reset | setSpan | insert | take | fresh => simp [Request.builds]
  | dropped h hb => simp [isTerminated, hb]
  | refused h hb hc => simp [isTerminated, hb, hc, h.builds_eq]
  | added h hb hc => simp [isTerminated, hb, hc]

/-- A temporary has the next number, which is then used up. -/
theorem temporary_eq {t : Temporary} (ht : e.temporary? = some t) :
    t.id = b.nextId ∧ b'.nextId = b.nextId + 1 := by
  cases h with
  | reset | setSpan | insert | take | refused => cases ht
  | fresh =>
    cases ht
    exact ⟨rfl, rfl⟩
  | dropped h | added h =>
    obtain ⟨hid, hdraws⟩ := h.temporary?_eq ht
    exact ⟨hid, congrArg (b.nextId + ·) hdraws⟩

theorem nextId_le (hreset : e.request ≠ .reset) : b.nextId ≤ b'.nextId := by
  cases h with
  | reset => exact (hreset rfl).elim
  | setSpan | insert | take => exact Nat.le_refl _
  | fresh | dropped | refused | added => exact Nat.le_add_right ..

end Step

/-! ## What a run keeps -/

/-- The builder after several requests, one after the other. -/
def after (b : Builder) (rs : List Request) : Builder := rs.foldl (fun b r => (b.serve r).2) b

/-- The requests with their outcomes. -/
def history (b : Builder) : List Request → List Event
  | [] => []
  | r :: rs => (b.serve r).1 :: history (b.serve r).2 rs

/-- Steps one after the other, with their events. -/
inductive Runs : Builder → List Event → Builder → Prop
  | nil {b : Builder} : Runs b [] b
  | cons {b b₁ b' : Builder} {e : Event} {es : List Event} (h : Step b e b₁)
      (hrest : Runs b₁ es b') : Runs b (e :: es) b'

theorem runs_history (b : Builder) (rs : List Request) : Runs b (b.history rs) (b.after rs) := by
  induction rs generalizing b with
  | nil => exact .nil
  | cons r rs ih => exact .cons (step_serve b r) (ih (b.serve r).2)

theorem map_request_history (b : Builder) (rs : List Request) :
    (b.history rs).map Event.request = rs := by
  induction rs generalizing b with
  | nil => rfl
  | cons r rs ih =>
    rw [history, List.map_cons, request_serve, ih]

namespace Runs

/-- A run can be cut anywhere. -/
theorem exists_between (h : Runs b (es ++ es') b') : ∃ b₁, Runs b es b₁ ∧ Runs b₁ es' b' := by
  induction es generalizing b with
  | nil => exact ⟨b, .nil, h⟩
  | cons e es ih =>
    cases h with
    | cons h hrest =>
      obtain ⟨b₁, hfirst, hlast⟩ := ih hrest
      exact ⟨b₁, .cons h hfirst, hlast⟩

theorem span_eq (h : Runs b es b') :
    b'.span = es.foldl (fun s e => e.request.spanFrom s) b.span := by
  induction h with
  | nil => rfl
  | cons h _ ih => rw [ih, h.span_eq, List.foldl_cons]

theorem nextId_eq (h : Runs b es b') :
    b'.nextId = es.foldl (fun n e => e.request.drawnFrom n) b.nextId := by
  induction h with
  | nil => rfl
  | cons h _ ih => rw [ih, h.nextId_eq, List.foldl_cons]

/-- A block that stays the insertion block takes up all that is built, in order. -/
theorem block_of_stays (h : Runs b es b') (hstays : ∀ e ∈ es, e.request.moves = false)
    (hb : b.block = some block) : ∃ new, b'.block = some new ∧ new.name = block.name ∧
      new.instructions = block.instructions ++ written b.span es := by
  induction h generalizing block with
  | nil => exact ⟨block, hb, rfl, by simp [written]⟩
  | cons h _ ih =>
    obtain ⟨hmoves, hstays⟩ := List.forall_mem_cons.1 hstays
    obtain ⟨middle, hmiddle, hname, hadded⟩ := h.block_of_stays hmoves hb
    obtain ⟨new, hnew, hname', hadded'⟩ := ih hstays hmiddle
    refine ⟨new, hnew, hname'.trans hname, ?_⟩
    rw [hadded', hadded, h.span_eq, written, List.append_assoc]

theorem block_of_complete (h : Runs b es b') (hstays : ∀ e ∈ es, e.request.moves = false)
    (hb : b.block = some block) (hc : block.isComplete = true) : b'.block = some block := by
  induction h with
  | nil => exact hb
  | cons h _ ih =>
    obtain ⟨hmoves, hstays⟩ := List.forall_mem_cons.1 hstays
    exact ih hstays (h.block_of_complete hmoves hb hc)

/-- An insertion block has been there all the time, or since it was last handed in. -/
theorem exists_insertion (h : Runs b es b') (hb : b'.block = some block) :
    ((∀ e ∈ es, e.request.moves = false) ∧ ∃ old, b.block = some old) ∨
      ∃ past name during, es = past ++ ⟨.insert name, .ok .done⟩ :: during ∧
        ∀ e ∈ during, e.request.moves = false := by
  induction h with
  | nil => exact .inl ⟨by simp, block, hb⟩
  | @cons b b₁ b' e es h _ ih =>
    rcases ih hb with ⟨hstays, old, hold⟩ | ⟨past, name, during, rfl, hstays⟩
    · rcases h.block_before hold with ⟨name, rfl⟩ | ⟨hmoves, hbefore⟩
      · exact .inr ⟨[], name, es, rfl, hstays⟩
      · exact .inl ⟨List.forall_mem_cons.2 ⟨hmoves, hstays⟩, hbefore⟩
    · exact .inr ⟨e :: past, name, during, rfl, hstays⟩

/-- Without a reset temporaries are numbered upwards. -/
theorem temporaries (h : Runs b es b') (hreset : ∀ e ∈ es, e.request ≠ .reset) :
    b.nextId ≤ b'.nextId ∧ (es.filterMap Event.temporary?).Pairwise (fun t u => t.id < u.id) ∧
      ∀ t ∈ es.filterMap Event.temporary?, b.nextId ≤ t.id ∧ t.id < b'.nextId := by
  induction h with
  | nil => simp
  | @cons b b₁ b' e es h _ ih =>
    obtain ⟨hne, hreset⟩ := List.forall_mem_cons.1 hreset
    obtain ⟨hle, hpairwise, hbounds⟩ := ih hreset
    have hfirst := h.nextId_le hne
    cases ht : e.temporary? with
    | none =>
      rw [List.filterMap_cons_none ht]
      refine ⟨by omega, hpairwise, fun t hmem => ?_⟩
      have := hbounds t hmem
      omega
    | some t =>
      obtain ⟨hid, hnext⟩ := h.temporary_eq ht
      rw [List.filterMap_cons_some ht]
      refine ⟨by omega, List.pairwise_cons.2 ⟨fun u hu => ?_, hpairwise⟩,
        List.forall_mem_cons.2 ⟨by omega, fun u hu => ?_⟩⟩
      · have := hbounds u hu
        omega
      · have := hbounds u hu
        omega

end Runs

/-- What is in the insertion block can be read off the history, from when it was handed in. -/
theorem block_eq_some_iff (h : Runs {} es b) : b.block = some block ↔ ∃ past name during,
    es = past ++ ⟨.insert name, .ok .done⟩ :: during ∧ (∀ e ∈ during, e.request.moves = false) ∧
      block.name = name ∧ block.instructions = written (spanAfter past) during := by
  -- What the last insertion and the events after it leave behind.
  have hleft : ∀ {past name during}, es = past ++ ⟨.insert name, .ok .done⟩ :: during →
      (∀ e ∈ during, e.request.moves = false) → ∃ new, b.block = some new ∧ new.name = name ∧
        new.instructions = written (spanAfter past) during := by
    rintro past name during rfl hstays
    obtain ⟨b₁, hpast, hrest⟩ := h.exists_between
    cases hrest with
    | cons hinsert hduring =>
      cases hinsert with
      | insert =>
        obtain ⟨new, hnew, hname, hadded⟩ := hduring.block_of_stays hstays rfl
        refine ⟨new, hnew, hname, ?_⟩
        rw [hadded, spanAfter, ← hpast.span_eq]
        rfl
      | dropped h | added h => cases h
  constructor
  · intro hb
    rcases h.exists_insertion hb with ⟨-, old, hold⟩ | ⟨past, name, during, hes, hstays⟩
    · cases hold
    · obtain ⟨new, hnew, hname, hadded⟩ := hleft hes hstays
      obtain rfl := Option.some.inj (hnew.symm.trans hb)
      exact ⟨past, name, during, hes, hstays, hname, hadded⟩
  · rintro ⟨past, name, during, hes, hstays, hname, hadded⟩
    obtain ⟨new, hnew, hname', hadded'⟩ := hleft hes hstays
    rw [hnew, Block.eq_of_instructions (hname'.trans hname.symm) (hadded'.trans hadded.symm)]

/-- Whatever is asked of a builder, the insertion block holds just the instructions that were built
since it was handed in, in order and each with the span of its time. Only its end is a return, and
it is given back as it is. Once it has ended nothing changes it; instructions are refused then and
at no other time, and a refusal leaves it alone. Between resets the temporaries that are given out
have ever higher numbers, all below the count of those used up. -/
theorem blocks_follow_history (rs : List Request) :
    (∀ block, (after {} rs).block = some block ↔ ∃ past name during,
      history {} rs = past ++ ⟨.insert name, .ok .done⟩ :: during ∧
        (∀ e ∈ during, e.request.moves = false) ∧
        block.name = name ∧ block.instructions = written (spanAfter past) during) ∧
    (∀ block, (after {} rs).block = some block →
      ∀ before i rest, block.instructions = before ++ i :: rest →
        (i.val.isReturn = true ↔ rest = [] ∧ block.isComplete = true)) ∧
    ((after {} rs).serve .take).1.outcome = .ok (.block (after {} rs).block) ∧
    (∀ block, (after {} rs).block = some block → block.isComplete = true →
      ∀ more : List Request, (∀ r ∈ more, r.moves = false) →
        (after {} (rs ++ more)).block = some block) ∧
    (∀ r, ((∃ err, ((after {} rs).serve r).1.outcome = .error err) ↔
        r.builds = true ∧ (after {} rs).isTerminated = true) ∧
      ∀ err, ((after {} rs).serve r).1.outcome = .error err →
        ((after {} rs).serve r).2.block = (after {} rs).block) ∧
    ∀ past during, history {} rs = past ++ during → (∀ e ∈ during, e.request ≠ .reset) →
      (during.filterMap Event.temporary?).Pairwise (fun t u => t.id < u.id) ∧
        ∀ t ∈ during.filterMap Event.temporary?, t.id < drawn (past ++ during) := by
  have hruns := runs_history {} rs
  refine ⟨fun block => block_eq_some_iff hruns, fun block _ before i rest => Block.isReturn_iff,
    rfl, ?_, ?_, ?_⟩
  · intro block hb hc more hmore
    have hstays : ∀ e ∈ (after {} rs).history more, e.request.moves = false := by
      intro e he
      apply hmore
      rw [← map_request_history (after {} rs) more]
      exact List.mem_map_of_mem he
    rw [after, List.foldl_append]
    exact (runs_history (after {} rs) more).block_of_complete hstays hb hc
  · intro r
    have hstep := step_serve (after {} rs) r
    refine ⟨?_, fun err => hstep.block_of_error⟩
    rw [hstep.error_iff, request_serve]
  · intro past during hsplit hreset
    rw [hsplit] at hruns
    obtain ⟨b₁, -, hduring⟩ := hruns.exists_between
    obtain ⟨-, hpairwise, hbounds⟩ := hduring.temporaries hreset
    refine ⟨hpairwise, fun t ht => ?_⟩
    rw [drawn, ← hruns.nextId_eq]
    exact (hbounds t ht).2

/-- A return without a block, then a block that is read into, ends, and is read into once more. -/
def endedEarly : List Request :=
  [.ret none, .setSpan ⟨0, 1, 2⟩, .insert "entry", .load (.var ⟨"x", .int⟩), .setSpan ⟨0, 3, 4⟩,
    .ret (some (.temp ⟨0, .int⟩)), .load (.var ⟨"x", .int⟩), .fresh .int]

theorem blocks_follow_history_ended : ∃ block, (after {} endedEarly).block = some block ∧
    block.instructions = [⟨.op (.load ⟨0, .int⟩ (.var ⟨"x", .int⟩)), ⟨0, 1, 2⟩⟩,
      ⟨.ret (some (.temp ⟨0, .int⟩)), ⟨0, 3, 4⟩⟩] ∧
    block.isComplete = true ∧
    (after {} (endedEarly ++ [.alloc "y" .int, .ret none])).block = some block ∧
    (∃ err, ((after {} endedEarly).serve (.alloc "y" .int)).1.outcome = .error err) ∧
    (history {} endedEarly).filterMap Event.temporary? = [⟨0, .int⟩, ⟨2, .int⟩] ∧
    ((history {} endedEarly).filterMap Event.temporary?).Pairwise (fun t u => t.id < u.id) := by
  obtain ⟨hblock, -, -, hkept, hrefused, htemporaries⟩ := blocks_follow_history endedEarly
  let block : Block := {
    name := "entry"
    body := [⟨.load ⟨0, .int⟩ (.var ⟨"x", .int⟩), ⟨0, 1, 2⟩⟩]
    terminator := some ⟨some (.temp ⟨0, .int⟩), ⟨0, 3, 4⟩⟩ }
  have hb : (after {} endedEarly).block = some block := by
    refine (hblock block).2 ⟨(history {} endedEarly).take 2, "entry",
      (history {} endedEarly).drop 3, rfl, ?_, rfl, rfl⟩
    simp [history, endedEarly, request_serve, Request.moves]
  refine ⟨block, hb, rfl, rfl, hkept block hb rfl _ (by simp [Request.moves]),
    (hrefused (.alloc "y" .int)).1.2 ⟨rfl, rfl⟩, rfl, ?_⟩
  refine (htemporaries [] (history {} endedEarly) rfl ?_).1
  simp [history, endedEarly, request_serve]

end Builder

end Straightline.IR
