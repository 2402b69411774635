import Straightline.IR.Builder
import Straightline.Proofs.Results

/-!
Builders from outside: what can be asked of one, what it answers, and what becomes of it. Only this
module looks into the build steps; what a history of requests shows follows from what a single one
can do.
-/
namespace Straightline.IR.Builder

/-- What can be asked of a builder. A block that is handed in is a fresh one. -/
inductive Request
  | reset
  | setSpan (span : Span)
  | insert (name : String)
  | take
  | fresh (ty : Ty)
  | alloc (name : String) (ty : Ty)
  | store (dest value : Value)
  | load (source : Value)
  | binary (op : BinOp) (lhs rhs : Value)
  | call (callee : String) (args : List Value) (result : Ty)
  | ret (value : Option Value)
deriving DecidableEq, Repr

/-- What a request gives back if it succeeds. -/
inductive Answer
  | done
  | block (b : Option Block)
  | variable (v : Variable)
  | temporary (t : Option Temporary)
deriving DecidableEq, Repr

namespace Request

def perform : Request → Build Answer
  | reset => do Builder.reset; return .done
  | setSpan span => do Builder.setSpan span; return .done
  | insert name => do Builder.insert { name }; return .done
  | take => .block <$> Builder.take
  | fresh ty => (.temporary <| some ·) <$> Builder.fresh ty
  | alloc name ty => .variable <$> Builder.alloc name ty
  | store dest value => do Builder.store dest value; return .done
  | load source => (.temporary <| some ·) <$> Builder.load source
  | binary op lhs rhs => (.temporary <| some ·) <$> Builder.binary op lhs rhs
  | call callee args result => .temporary <$> Builder.call callee args result
  | ret value => do Builder.ret value; return .done

/-- The request is for another insertion block, or for none. -/
def moves : Request → Bool
  | reset | insert _ | take => true
  | _ => false

/-- The request is for an instruction. -/
def builds : Request → Bool
  | alloc .. | store .. | load _ | binary .. | call .. | ret _ => true
  | _ => false

/-- How many numbers of temporaries the request uses up, whether it succeeds or not. -/
def draws : Request → Nat
  | fresh _ | load _ | binary .. => 1
  | call _ _ result => if result = .nil then 0 else 1
  | _ => 0

/-- The current span after the request, if it was `span` before. -/
def spanFrom (span : Span) : Request → Span
  | reset => .nowhere
  | setSpan span' => span'
  | _ => span

/-- The numbers used up after the request, if there were `n` before. -/
def drawnFrom (n : Nat) : Request → Nat
  | reset => 0
  | r => n + r.draws

end Request

/-- A request and how it ended. -/
structure Event where
  request : Request
  outcome : Except BuildError Answer

/-- Puts one request to a builder. -/
def serve (b : Builder) (r : Request) : Event × Builder :=
  match r.perform b with
  | .ok a b' => (⟨r, .ok a⟩, b')
  | .error e b' => (⟨r, .error e⟩, b')

variable {b b' : Builder} {r : Request} {a : Answer} {i : Instruction} {block : Block}
  {f : Block → Except BuildError Block}

/-! ## Adding an instruction -/

/-- What comes of adding an instruction to the insertion block. -/
inductive Update (b : Builder) (i : Instruction) : EStateM.Result BuildError Builder Unit → Prop
  | dropped (hb : b.block = none) : Update b i (.ok () b)
  | refused {block : Block} (hb : b.block = some block) (hc : block.isComplete = true) :
      Update b i (.error (.blockTerminated block.name) b)
  | added {block new : Block} (hb : b.block = some block) (hc : block.isComplete = false)
      (hname : new.name = block.name)
      (hnew : new.instructions = block.instructions ++ [⟨i, b.span⟩]) :
      Update b i (.ok () { b with block := some new })

theorem update_of_none (h : b.block = none) : update f b = .ok () b := by
  obtain ⟨id, _ | block, span⟩ := b
  · rfl
  · cases h

theorem update_of_some (h : b.block = some block) : update f b = match f block with
    | .ok new => .ok () { b with block := some new }
    | .error e => .error e b := by
  obtain ⟨id, _ | block', span⟩ := b
  · cases h
  · obtain rfl := Option.some.inj h
    change (match f block' with
      | .ok new => modify fun b => { b with block := some new }
      | .error e => throw e : Build Unit) ⟨id, some block', span⟩ = _
    cases f block' <;> rfl

/-- Whatever adds to open blocks and refuses complete ones makes an update. -/
theorem update_of_refusing
    (hrefuse : ∀ block, block.isComplete = true → f block = .error (.blockTerminated block.name))
    (hadd : ∀ block, block.isComplete = false → ∃ new, f block = .ok new ∧
      new.name = block.name ∧ new.instructions = block.instructions ++ [⟨i, b.span⟩]) :
    Update b i (update f b) := by
  cases hb : b.block with
  | none =>
    rw [update_of_none hb]
    exact .dropped hb
  | some block =>
    rw [update_of_some hb]
    cases hc : block.isComplete with
    | true =>
      rw [hrefuse block hc]
      exact .refused hb hc
    | false =>
      obtain ⟨new, hf, hname, hnew⟩ := hadd block hc
      rw [hf]
      exact .added hb hc hname hnew

theorem update_append (b : Builder) (o : Op) : Update b (.op o) (append o b) := by
  refine update_of_refusing (f := (·.push ⟨.op o, b.span⟩)) ?_ ?_
  · intro block hc
    simp [Block.push, hc]
  · intro block hc
    have hpush : block.push ⟨.op o, b.span⟩ =
        .ok { block with body := block.body ++ [⟨o, b.span⟩] } := by
      simp [Block.push, hc]
    exact ⟨_, hpush, rfl, Block.instructions_push hpush⟩

theorem update_ret (b : Builder) (value : Option Value) : Update b (.ret value) (ret value b) := by
  refine update_of_refusing (f := (·.terminate ⟨.ret value, b.span⟩)) ?_ ?_
  · intro block hc
    simp [Block.terminate, hc]
  · intro block hc
    have hend : block.terminate ⟨.ret value, b.span⟩ =
        .ok { block with terminator := some ⟨value, b.span⟩ } := by
      simp [Block.terminate, hc]
    exact ⟨_, hend, rfl, Block.instructions_terminate hend⟩

/-! ## Requests for instructions -/

/-- The instruction that a request is for, and the answer if it is added, when the next temporary
has the number `n`. -/
inductive Builds (n : Nat) : Request → Answer → Instruction → Prop
  | alloc (name : String) (ty : Ty) :
      Builds n (.alloc name ty) (.variable ⟨name, ty⟩) (.op (.alloc ⟨name, ty⟩))
  | store (dest value : Value) : Builds n (.store dest value) .done (.op (.store dest value))
  | load (source : Value) :
      Builds n (.load source) (.temporary (some ⟨n, source.ty⟩)) (.op (.load ⟨n, source.ty⟩ source))
  | binary (op : BinOp) (lhs rhs : Value) :
      Builds n (.binary op lhs rhs) (.temporary (some ⟨n, lhs.ty⟩))
        (.op (.binary op ⟨n, lhs.ty⟩ lhs rhs))
  | call {ty : Ty} (callee : String) (args : List Value) (hty : ty ≠ .nil) :
      Builds n (.call callee args ty) (.temporary (some ⟨n, ty⟩))
        (.op (.call (some ⟨n, ty⟩) callee args))
  | voidCall (callee : String) (args : List Value) :
      Builds n (.call callee args .nil) (.temporary none) (.op (.call none callee args))
  | ret (value : Option Value) : Builds n (.ret value) .done (.ret value)

theorem exists_builds (n : Nat) (h : r.builds = true) : ∃ a i, Builds n r a i := by
  cases r with
  | reset | setSpan | insert | take | fresh => cases h
  | alloc name ty => exact ⟨_, _, .alloc name ty⟩
  | store dest value => exact ⟨_, _, .store dest value⟩
  | load source => exact ⟨_, _, .load source⟩
  | binary op lhs rhs => exact ⟨_, _, .binary op lhs rhs⟩
  | call callee args ty =>
    by_cases hty : ty = .nil
    · subst hty
      exact ⟨_, _, .voidCall callee args⟩
    · exact ⟨_, _, .call callee args hty⟩
  | ret value => exact ⟨_, _, .ret value⟩

theorem map_seq_pure {α β : Type} (x : Build Unit) (f : α → β) (c : α) :
    (f <$> do x; return c) = (fun _ => f c) <$> x := by
  simp

/-- Such a request draws its number first, and then tries to add its instruction. -/
theorem Builds.perform_eq (h : Builds b.nextId r a i) : ∃ x : Build Unit,
    (∀ b, Update b i (x b)) ∧
      r.perform b = ((fun _ => a) <$> x) { b with nextId := b.nextId + r.draws } := by
  cases h with
  | alloc name ty =>
    exact ⟨_, fun b => update_append b _, congrFun (map_seq_pure _ Answer.variable _) b⟩
  | store dest value => exact ⟨_, fun b => update_append b _, rfl⟩
  | load source =>
    refine ⟨_, fun b => update_append b _, ?_⟩
    exact congrFun (map_seq_pure _ (fun t => Answer.temporary (some t)) ⟨b.nextId, source.ty⟩) _
  | binary op lhs rhs =>
    refine ⟨_, fun b => update_append b _, ?_⟩
    exact congrFun (map_seq_pure _ (fun t => Answer.temporary (some t)) ⟨b.nextId, lhs.ty⟩) _
  | @call ty callee args hty =>
    refine ⟨_, fun b => update_append b _, ?_⟩
    have hcall : Builder.call callee args ty = do
        let t ← Builder.fresh ty
        append (.call (some t) callee args)
        return some t := by
      simp [Builder.call, hty]
    rw [Request.perform, hcall, Request.draws, if_neg hty]
    exact congrFun (map_seq_pure _ Answer.temporary (some ⟨b.nextId, ty⟩)) _
  | voidCall callee args =>
    exact ⟨_, fun b => update_append b _, congrFun (map_seq_pure _ Answer.temporary none) b⟩
  | ret value => exact ⟨_, fun b => update_ret b value, rfl⟩

/-! ## Steps -/

/-- Everything that one request can do. -/
inductive Step (b : Builder) : Event → Builder → Prop
  | reset : Step b ⟨.reset, .ok .done⟩ {}
  | setSpan (span : Span) : Step b ⟨.setSpan span, .ok .done⟩ { b with span }
  | insert (name : String) :
      Step b ⟨.insert name, .ok .done⟩ { b with block := some { name } }
  | take : Step b ⟨.take, .ok (.block b.block)⟩ { b with block := none }
  | fresh (ty : Ty) : Step b ⟨.fresh ty, .ok (.temporary (some ⟨b.nextId, ty⟩))⟩
      { b with nextId := b.nextId + 1 }
  | dropped {r : Request} {a : Answer} {i : Instruction} (h : Builds b.nextId r a i)
      (hb : b.block = none) : Step b ⟨r, .ok a⟩ { b with nextId := b.nextId + r.draws }
  | refused {r : Request} {a : Answer} {i : Instruction} {block : Block} (h : Builds b.nextId r a i)
      (hb : b.block = some block) (hc : block.isComplete = true) :
      Step b ⟨r, .error (.blockTerminated block.name)⟩ { b with nextId := b.nextId + r.draws }
  | added {r : Request} {a : Answer} {i : Instruction} {block new : Block}
      (h : Builds b.nextId r a i) (hb : b.block = some block) (hc : block.isComplete = false)
      (hname : new.name = block.name)
      (hnew : new.instructions = block.instructions ++ [⟨i, b.span⟩]) :
      Step b ⟨r, .ok a⟩ { b with nextId := b.nextId + r.draws, block := some new }

theorem request_serve (b : Builder) (r : Request) : (b.serve r).1.request = r := by
  rw [serve]
  split <;> rfl

theorem serve_of_ok (h : r.perform b = .ok a b') : b.serve r = (⟨r, .ok a⟩, b') := by
  rw [serve, h]

theorem serve_of_error {err : BuildError} (h : r.perform b = .error err b') :
    b.serve r = (⟨r, .error err⟩, b') := by
  rw [serve, h]

theorem Builds.step (h : Builds b.nextId r a i) : Step b (b.serve r).1 (b.serve r).2 := by
  obtain ⟨x, hx, hperform⟩ := h.perform_eq
  have hupdate := hx { b with nextId := b.nextId + r.draws }
  generalize hout : x { b with nextId := b.nextId + r.draws } = out at hupdate
  cases hupdate with
  | dropped hb =>
    rw [serve_of_ok (hperform.trans (map_eq_ok.2 ⟨(), hout, rfl⟩))]
    exact .dropped h hb
  | refused hb hc =>
    rw [serve_of_error (hperform.trans (map_eq_error.2 hout))]
    exact .refused h hb hc
  | added hb hc hname hnew =>
    rw [serve_of_ok (hperform.trans (map_eq_ok.2 ⟨(), hout, rfl⟩))]
    exact .added h hb hc hname hnew

theorem step_serve (b : Builder) (r : Request) : Step b (b.serve r).1 (b.serve r).2 := by
  cases hr : r.builds with
  | true =>
    obtain ⟨a, i, h⟩ := exists_builds b.nextId hr
    exact h.step
  | false =>
    cases r with
    | reset => exact .reset
    | setSpan span => exact .setSpan span
    | insert name => exact .insert name
    | take => exact .take
    | fresh ty => exact .fresh ty
    | alloc | store | load | binary | call | ret => cases hr

end Straightline.IR.Builder
