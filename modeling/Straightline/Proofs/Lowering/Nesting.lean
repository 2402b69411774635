import Straightline.Proofs.Lowering.Meaning
import Straightline.Proofs.Semantics.Program

/-!
From one function to the next. A function that leaves its calls to an oracle does what it does with
its calls carried out, if the oracle returns what they return; the calls it makes are then the events
of its callees, one after the other.
-/
namespace Straightline

open IR Source

variable {V : Type} {M : Meaning V} {answer answer' : Call V → Option (Behaviour V)}
  {env : String → Option V} {b : Behaviour V} {calls calls' : List (Call V)}

namespace Source

theorem performAll_cons_eq_some {e : Expr} {rest : List Expr} {ws : List V} :
    Expr.performAll M answer env (e :: rest) = some (ws, calls) ↔
      ∃ b w ws' calls', e.perform M answer env = some b ∧ b.value = some w ∧
        Expr.performAll M answer env rest = some (ws', calls') ∧ ws = w :: ws' ∧
        calls = b.calls ++ calls' := by
  simp only [Expr.performAll, Option.bind_eq_bind, Option.bind_eq_some_iff, Option.pure_def,
    Option.some.injEq, Prod.mk.injEq]
  constructor
  · rintro ⟨b, hb, w, hw, ⟨ws', calls'⟩, hrest, rfl, rfl⟩
    exact ⟨b, w, ws', calls', hb, hw, hrest, rfl, rfl⟩
  · rintro ⟨b, w, ws', calls', hb, hw, hrest, rfl, rfl⟩
    exact ⟨b, hb, w, hw, (ws', calls'), hrest, rfl, rfl⟩

theorem performAll_singleton {e : Expr} {w : V} :
    Expr.performAll M answer env [e] = some ([w], calls) ↔
      e.perform M answer env = some ⟨calls, some w⟩ := by
  constructor
  · intro h
    obtain ⟨⟨calls, _⟩, _, _, _, he, rfl, hnil, hws, rfl⟩ := performAll_cons_eq_some.1 h
    cases hnil
    cases hws
    simpa using he
  · intro he
    exact performAll_cons_eq_some.2 ⟨_, w, [], [], he, rfl, rfl, rfl, by simp⟩

theorem perform_binary_eq_some {op : String} {lhs rhs : Expr} {span : Span} :
    (Expr.binary op lhs rhs span).perform M answer env = some b ↔
      ∃ o l r calls, BinOp.ofSymbol? op = some o ∧
        Expr.performAll M answer env [lhs, rhs] = some ([l, r], calls) ∧
        b = ⟨calls, some (M.binary o l r)⟩ := by
  simp only [Expr.perform, Option.bind_eq_bind, Option.bind_eq_some_iff, Option.pure_def,
    Option.some.injEq]
  constructor
  · rintro ⟨o, hop, ⟨callsₗ, _⟩, hl, ⟨callsᵣ, _⟩, hr, l, rfl, r, rfl, rfl⟩
    exact ⟨o, l, r, _, hop, performAll_cons_eq_some.2
      ⟨_, l, [r], callsᵣ, hl, rfl, performAll_singleton.2 hr, rfl, rfl⟩, rfl⟩
  · rintro ⟨o, l, r, calls, hop, hargs, rfl⟩
    obtain ⟨bₗ, _, _, callsᵣ, hl, hwl, hrest, hws, rfl⟩ := performAll_cons_eq_some.1 hargs
    cases hws
    exact ⟨o, hop, bₗ, hl, _, performAll_singleton.1 hrest, l, hwl, r, rfl, rfl⟩

theorem perform_call_eq_some {callee : Expr} {args : List Expr} {span : Span} :
    (Expr.call callee args span).perform M answer env = some b ↔
      ∃ f ws calls b', callee.name? = some f ∧
        Expr.performAll M answer env args = some (ws, calls) ∧ answer ⟨f, ws⟩ = some b' ∧
        b = b'.following calls := by
  simp only [Expr.perform, Option.bind_eq_bind, Option.bind_eq_some_iff, Option.pure_def,
    Option.some.injEq]
  constructor
  · rintro ⟨f, hf, ⟨ws, calls⟩, hargs, b', hb', rfl⟩
    exact ⟨f, ws, calls, b', hf, hargs, hb', rfl⟩
  · rintro ⟨f, ws, calls, b', hf, hargs, hb', rfl⟩
    exact ⟨f, hf, (ws, calls), hargs, b', hb', rfl⟩

theorem performAll_mono {es : List Expr} {ws : List V}
    (h : ∀ e ∈ es, ∀ b, e.perform M answer env = some b → e.perform M answer' env = some b)
    (hes : Expr.performAll M answer env es = some (ws, calls)) :
    Expr.performAll M answer' env es = some (ws, calls) := by
  induction es generalizing ws calls with
  | nil => exact hes
  | cons e rest ih =>
    obtain ⟨he, hrest⟩ := List.forall_mem_cons.1 h
    obtain ⟨b, w, ws, calls, hb, hw, hall, rfl, rfl⟩ := performAll_cons_eq_some.1 hes
    exact performAll_cons_eq_some.2 ⟨b, w, ws, calls, he b hb, hw, ih hrest hall, rfl, rfl⟩

section Monotone

variable (h : ∀ c b, answer c = some b → answer' c = some b)

include h

/-- What is known of some calls stays true when more is known. -/
theorem perform_mono {e : Expr} (he : e.perform M answer env = some b) :
    e.perform M answer' env = some b := by
  induction e using Expr.induction generalizing b with
  | literal | name => simpa only [Expr.perform] using he
  | binary op lhs rhs span ihl ihr =>
    obtain ⟨o, l, r, calls, hop, hargs, rfl⟩ := perform_binary_eq_some.1 he
    have hall : ∀ e ∈ [lhs, rhs], ∀ b, e.perform M answer env = some b →
        e.perform M answer' env = some b := by
      simp only [List.forall_mem_cons, List.not_mem_nil, false_imp_iff, implies_true, and_true]
      exact ⟨fun _ => ihl, fun _ => ihr⟩
    exact perform_binary_eq_some.2 ⟨o, l, r, calls, hop, performAll_mono hall hargs, rfl⟩
  | call callee args span ih =>
    obtain ⟨f, ws, calls, b', hf, hargs, hb', rfl⟩ := perform_call_eq_some.1 he
    have hall := performAll_mono (fun e he _ => ih e he) hargs
    exact perform_call_eq_some.2 ⟨f, ws, calls, b', hf, hall, h _ _ hb', rfl⟩

theorem performBody_mono {bare : Option V} {stmts : List Stmt}
    (hb : Stmt.performBody M answer bare stmts env = some b) :
    Stmt.performBody M answer' bare stmts env = some b := by
  induction stmts generalizing env b with
  | nil => exact hb
  | cons s rest ih =>
    match s with
    | .bind x e span =>
      simp only [Stmt.performBody, Option.bind_eq_bind, Option.bind_eq_some_iff] at hb ⊢
      obtain ⟨bₑ, he, w, hw, after, hafter, hb⟩ := hb
      exact ⟨bₑ, perform_mono h he, w, hw, after, ih hafter, hb⟩
    | .eval e span =>
      simp only [Stmt.performBody, Option.bind_eq_bind, Option.bind_eq_some_iff] at hb ⊢
      obtain ⟨bₑ, he, after, hafter, hb⟩ := hb
      exact ⟨bₑ, perform_mono h he, after, ih hafter, hb⟩
    | .ret none span => exact hb
    | .ret (some e) span =>
      simp only [Stmt.performBody, Option.bind_eq_bind, Option.bind_eq_some_iff] at hb ⊢
      obtain ⟨bₑ, he, hb⟩ := hb
      exact ⟨bₑ, perform_mono h he, hb⟩
    | .assign x e span => cases hb

end Monotone

/-- A call that is answered at some depth is answered in the same way at every greater one. -/
theorem Program.answer_mono {p : Program} {entryPoint : String} {n m : Nat} {c : Call V}
    (h : p.answer M entryPoint n c = some b) (hle : n ≤ m) : p.answer M entryPoint m c = some b := by
  induction n generalizing m c b with
  | zero =>
    cases hdef : p.definition? c.callee with
    | none => rwa [answer_foreign hdef] at h ⊢
    | some d =>
      unfold answer at h
      rw [hdef] at h
      cases h
  | succ n ih =>
    cases hdef : p.definition? c.callee with
    | none => rwa [answer_foreign hdef] at h ⊢
    | some d =>
      obtain ⟨m, rfl⟩ := Nat.exists_eq_succ_of_ne_zero (show m ≠ 0 by omega)
      rw [answer_declared hdef] at h ⊢
      exact performBody_mono (fun _ _ hc => ih hc (by omega)) h

end Source

/-- What calls return if `answer` says what they do. -/
def Oracle.ofAnswers (M : Meaning V) (answer : Call V → Option (Behaviour V)) : Oracle V :=
  fun _ c => ((answer c).bind (·.value)).getD (M.const (.int 0))

/-- The events of calls that are made one after the other. -/
def events (answer : Call V → Option (Behaviour V)) (calls : List (Call V)) : List (Call V) :=
  calls.flatMap fun c => ((answer c).map (·.calls)).getD []

@[simp] theorem events_append : events answer (calls ++ calls') =
    events answer calls ++ events answer calls' := List.flatMap_append

theorem events_singleton {c : Call V} (h : answer c = some b) : events answer [c] = b.calls := by
  simp [events, h]

theorem Oracle.ofAnswers_eq {c : Call V} {w : V} (h : answer c = some b) (hw : b.value = some w)
    (history : List (Call V)) : Oracle.ofAnswers M answer history c = w := by
  simp [ofAnswers, h, hw]

namespace Lowering

variable {cx : Context} {sc sc' : Scope} {n m : Nat} {ops : List (Located Op)} {es : List Expr}
  {vs : List Value} {s : Stmt}

/-- Calls at the site are answered, with a value where the callee has a result. -/
def Answers (cx : Context) (answer : Call V → Option (Behaviour V)) (site : String × Nat) : Prop :=
  ∀ ws : List V, ws.length = site.2 → ∃ b, answer ⟨site.1, ws⟩ = some b ∧
    (cx.resultOf site.1 ≠ .nil → ∃ w, b.value = some w)

/-- The calls in the expressions are answered. -/
def AnswersAll (cx : Context) (answer : Call V → Option (Behaviour V)) (es : List Expr) : Prop :=
  ∀ e ∈ Expr.partsAll es, ∀ site ∈ e.site?, Answers cx answer site

theorem answersAll_cons {e : Expr} {rest : List Expr} : AnswersAll cx answer (e :: rest) ↔
    ((∀ site ∈ e.site?, Answers cx answer site) ∧ AnswersAll cx answer e.operands) ∧
      AnswersAll cx answer rest := Expr.forall_mem_partsAll_cons

/-- Expressions make the calls that they leave to the oracle, and these in turn their events. -/
theorem Flattens.performs (h : Flattens cx sc es n ops vs m) (hes : AnswersAll cx answer es)
    {ws : List V}
    (heval : Expr.evalAll M (.ofAnswers M answer) env es calls = some (ws, calls')) :
    ∃ new, calls' = calls ++ new ∧
      Expr.performAll M answer env es = some (ws, events answer new) := by
  induction h generalizing ws calls calls' with
  | nil =>
    cases heval
    exact ⟨[], by simp, rfl⟩
  | @literal l c span rest n m ops vs hc hrest ih =>
    obtain ⟨w, calls₁, ws, he, hrest, rfl⟩ := evalAll_cons_eq_some.1 heval
    obtain ⟨new, rfl, hperf⟩ := ih (answersAll_cons.1 hes).2 hrest
    simp only [Expr.eval, hc, Option.bind_eq_bind, Option.bind_some, Option.pure_def,
      Option.some.injEq, Prod.mk.injEq] at he
    obtain ⟨rfl, rfl⟩ := he
    refine ⟨new, rfl, performAll_cons_eq_some.2 ⟨⟨[], _⟩, _, ws, _, ?_, rfl, hperf, rfl, rfl⟩⟩
    simp [Expr.perform, hc]
  | @name x ty span rest n m ops vs hx hrest ih =>
    obtain ⟨w, calls₁, ws, he, hrest, rfl⟩ := evalAll_cons_eq_some.1 heval
    obtain ⟨new, rfl, hperf⟩ := ih (answersAll_cons.1 hes).2 hrest
    simp only [Expr.eval, Option.bind_eq_bind, Option.bind_eq_some_iff, Option.pure_def,
      Option.some.injEq, Prod.mk.injEq] at he
    obtain ⟨w, hw, rfl, rfl⟩ := he
    refine ⟨new, rfl, performAll_cons_eq_some.2 ⟨⟨[], some w⟩, w, ws, _, ?_, rfl, hperf, rfl, rfl⟩⟩
    simp [Expr.perform, hw]
  | computed hargs he hrest ihargs ih =>
    obtain ⟨w, calls₁, ws, hown, hrest, rfl⟩ := evalAll_cons_eq_some.1 heval
    obtain ⟨⟨hsite, hoperands⟩, hes⟩ := answersAll_cons.1 hes
    obtain ⟨new', rfl, hperf'⟩ := ih hes hrest
    cases he with
    | binary hop hty =>
      obtain ⟨b, l, r, hop, hall, rfl⟩ := eval_binary_eq_some.1 hown
      obtain ⟨new, rfl, hperf⟩ := ihargs hoperands hall
      refine ⟨new ++ new', List.append_assoc .., performAll_cons_eq_some.2
        ⟨_, _, ws, _, perform_binary_eq_some.2 ⟨b, l, r, _, hop, hperf, rfl⟩, rfl, hperf', rfl, ?_⟩⟩
      exact events_append
    | @call f fspan span _ _ _ hty =>
      obtain ⟨wargs, calls₂, hall, rfl, rfl⟩ := eval_call_eq_some.1 hown
      obtain ⟨new, rfl, hperf⟩ := ihargs hoperands hall
      obtain ⟨b, hb, hvalue⟩ := hsite (f, _) rfl wargs (length_evalAll hall)
      obtain ⟨w, hw⟩ := hvalue hty
      rw [Oracle.ofAnswers_eq hb hw]
      refine ⟨new ++ [⟨f, wargs⟩] ++ new', by simp, performAll_cons_eq_some.2
        ⟨_, w, ws, _, perform_call_eq_some.2 ⟨f, wargs, _, b, rfl, hperf, hb, rfl⟩, hw, hperf', rfl,
          ?_⟩⟩
      rw [events_append, events_append, events_singleton hb]
      rfl

theorem Flattens.performs_one {e : Expr} {v : Value} {w : V} (h : Flattens cx sc [e] n ops [v] m)
    (he : AnswersAll cx answer [e])
    (heval : e.eval M (.ofAnswers M answer) env calls = some (w, calls')) :
    ∃ new, calls' = calls ++ new ∧
      e.perform M answer env = some ⟨events answer new, some w⟩ := by
  obtain ⟨new, hnew, hperf⟩ := h.performs he (evalAll_singleton.2 heval)
  exact ⟨new, hnew, performAll_singleton.1 hperf⟩

variable {bare : Option V} {rest : List Stmt}

/-- A statement that goes on does so in the same way, with the events of its calls. -/
theorem StmtFlattens.performs (h : StmtFlattens cx sc n s ops sc' m)
    (hs : AnswersAll cx answer s.exprs)
    (heval : Stmt.evalBody M (.ofAnswers M answer) bare (s :: rest) env calls = some b) :
    ∃ env' new, Stmt.evalBody M (.ofAnswers M answer) bare rest env' (calls ++ new) = some b ∧
      Stmt.performBody M answer bare (s :: rest) env =
        (Stmt.performBody M answer bare rest env').map (·.following (events answer new)) := by
  cases h with
  | @bind x init span _ _ _ hinit =>
    obtain ⟨⟨w, calls₁⟩, he, hrest⟩ := Option.bind_eq_some_iff.1 heval
    obtain ⟨new, rfl, hperf⟩ := hinit.performs_one hs he
    refine ⟨_, new, hrest, ?_⟩
    simp [Stmt.performBody, hperf, Option.map_eq_bind]
  | eval he =>
    obtain ⟨⟨w, calls₁⟩, hw, hrest⟩ := Option.bind_eq_some_iff.1 heval
    obtain ⟨new, rfl, hperf⟩ := he.performs_one hs hw
    refine ⟨env, new, hrest, ?_⟩
    simp [Stmt.performBody, hperf, Option.map_eq_bind]
  | @evalVoid f args fspan cspan span _ _ _ hargs hty =>
    obtain ⟨⟨w, calls₁⟩, hw, hrest⟩ := Option.bind_eq_some_iff.1 heval
    obtain ⟨ws, calls₂, hall, -, rfl⟩ := eval_call_eq_some.1 hw
    obtain ⟨⟨hsite, hoperands⟩, -⟩ := answersAll_cons.1 hs
    obtain ⟨new, rfl, hperf⟩ := hargs.performs hoperands hall
    obtain ⟨b', hb', -⟩ := hsite (f, _) rfl ws (length_evalAll hall)
    have hcall : (Expr.call (.name f fspan) args cspan).perform M answer env = _ :=
      perform_call_eq_some.2 ⟨f, ws, _, b', rfl, hperf, hb', rfl⟩
    refine ⟨env, new ++ [⟨f, ws⟩], by simpa using hrest, ?_⟩
    simp [Stmt.performBody, hcall, Option.map_eq_bind, events_singleton hb',
      Behaviour.following]

/-- A body does the same with its calls left to the oracle and with its calls carried out. -/
theorem BodyFlattens.performs {stmts : List Stmt} {atEnd t : Located (Option Value)}
    (h : BodyFlattens cx atEnd sc n stmts ops t)
    (hall : ∀ s ∈ Stmt.reached stmts, AnswersAll cx answer s.exprs)
    (heval : Stmt.evalBody M (.ofAnswers M answer) bare stmts env calls = some b) :
    ∃ new, b.calls = calls ++ new ∧
      Stmt.performBody M answer bare stmts env = some ⟨events answer new, b.value.or bare⟩ := by
  induction h generalizing env calls with
  | nil =>
    cases heval
    exact ⟨[], by simp, by simp [Stmt.performBody, events]⟩
  | step hs _ ih =>
    rw [Stmt.reached_cons hs.isReturn] at hall
    obtain ⟨hown, hall⟩ := List.forall_mem_cons.1 hall
    obtain ⟨env', new, hrest, hperf⟩ := hs.performs hown heval
    obtain ⟨new', hcalls, hperf'⟩ := ih hall hrest
    refine ⟨new ++ new', by simp [hcalls], ?_⟩
    simp [hperf, hperf', Behaviour.following]
  | ret hs =>
    cases hs with
    | none =>
      cases heval
      exact ⟨[], by simp, by simp [Stmt.performBody, events]⟩
    | value he =>
      obtain ⟨⟨w, calls'⟩, hw, hb⟩ := Option.bind_eq_some_iff.1 heval
      cases hb
      obtain ⟨new, rfl, hperf⟩ := he.performs_one (hall _ (.head _)) hw
      exact ⟨new, rfl, by simp [Stmt.performBody, hperf]⟩

/-- If the operation is a call, it stands in one of the expressions, and it has a result just if its
callee has. -/
def Written (cx : Context) (es : List Expr) (o : Op) : Prop :=
  ∀ result g args, o = .call result g args →
    (∃ e ∈ Expr.partsAll es, e.site? = some (g, args.length)) ∧
      (result = none ↔ cx.resultOf g = .nil)

theorem Written.mono {es' : List Expr} {o : Op} (h : Written cx es o)
    (hes : ∀ e ∈ Expr.partsAll es, e ∈ Expr.partsAll es') : Written cx es' o := by
  intro result g args ho
  obtain ⟨⟨e, he, hsite⟩, hresult⟩ := h result g args ho
  exact ⟨⟨e, hes e he, hsite⟩, hresult⟩

theorem Flattens.written (h : Flattens cx sc es n ops vs m) : ∀ o ∈ ops, Written cx es o.val := by
  have htail : ∀ {e : Expr} {rest : List Expr}, ∀ e' ∈ Expr.partsAll rest,
      e' ∈ Expr.partsAll (e :: rest) := fun e' he' => List.mem_append_right _ he'
  induction h with
  | nil => simp
  | literal _ _ ih => exact fun o ho => (ih o ho).mono htail
  | name _ _ ih =>
    refine List.forall_mem_cons.2 ⟨?_, fun o ho => (ih o ho).mono htail⟩
    rintro _ _ _ ⟨⟩
  | @computed e args rest n k m opsₗ ops values vs ty o hargs he _ ihargs ih =>
    have hparts : ∀ e' ∈ Expr.partsAll args, e' ∈ Expr.partsAll (e :: rest) := by
      intro e' he'
      rw [Expr.partsAll, Expr.parts_eq, he.operands_eq]
      exact List.mem_append_left _ (.tail _ he')
    refine List.forall_mem_append.2 ⟨fun o ho => (ihargs o ho).mono hparts, ?_⟩
    refine List.forall_mem_cons.2 ⟨?_, fun o ho => (ih o ho).mono htail⟩
    cases he with
    | binary => rintro _ _ _ ⟨⟩
    | call hty =>
      rintro _ _ _ ⟨⟩
      refine ⟨⟨_, Expr.mem_partsAll_self .., ?_⟩, by simpa using hty⟩
      simp [Expr.site?, Expr.name?, hargs.length_eq]

theorem StmtFlattens.written (h : StmtFlattens cx sc n s ops sc' m) :
    ∀ o ∈ ops, Written cx s.exprs o.val := by
  cases h with
  | bind h =>
    refine List.forall_mem_append.2 ⟨h.written, ?_⟩
    simp [Written]
  | eval h => exact h.written
  | evalVoid hargs hty =>
    refine List.forall_mem_append.2 ⟨fun o ho => (hargs.written o ho).mono ?_, ?_⟩
    · intro e he
      simp [Stmt.exprs, Expr.partsAll, Expr.parts, he]
    · rintro _ ho _ _ _ hcall
      obtain rfl := List.mem_singleton.1 ho
      cases hcall
      refine ⟨⟨_, Expr.mem_partsAll_self .., ?_⟩, by simpa using hty⟩
      simp [Expr.site?, Expr.name?, hargs.length_eq]

/-- The calls in a body's code stand in the statements that are reached. -/
theorem BodyFlattens.written {stmts : List Stmt} {atEnd t : Located (Option Value)}
    (h : BodyFlattens cx atEnd sc n stmts ops t) :
    ∀ o ∈ ops, ∃ s ∈ Stmt.reached stmts, Written cx s.exprs o.val := by
  induction h with
  | nil => simp
  | step hs _ ih =>
    rw [Stmt.reached_cons hs.isReturn]
    refine List.forall_mem_append.2 ⟨fun o ho => ⟨_, .head _, hs.written o ho⟩, ?_⟩
    intro o ho
    obtain ⟨s, hmem, hs⟩ := ih o ho
    exact ⟨s, .tail _ hmem, hs⟩
  | @ret sc n s rest ops t hs =>
    intro o ho
    refine ⟨s, by simp [Stmt.reached, hs.isReturn], ?_⟩
    cases hs with
    | none => cases ho
    | value he => exact he.written o ho

end Lowering

namespace Source

open Lowering

/-- A body whose first return has a value gives one. -/
theorem value_of_performBody {bare : Option V} {stmts : List Stmt} {e : Expr} {span : Span}
    (h : Stmt.performBody M answer bare stmts env = some b)
    (hreturn : stmts.find? Stmt.isReturn = some (.ret (some e) span)) : ∃ w, b.value = some w := by
  induction stmts generalizing env b with
  | nil => cases hreturn
  | cons s rest ih =>
    match s with
    | .bind x init xspan =>
      simp only [Stmt.performBody, Option.bind_eq_bind, Option.bind_eq_some_iff] at h
      obtain ⟨_, -, w, -, after, hafter, hb⟩ := h
      cases hb
      obtain ⟨w, hw⟩ := ih hafter hreturn
      exact ⟨w, hw⟩
    | .eval e espan =>
      simp only [Stmt.performBody, Option.bind_eq_bind, Option.bind_eq_some_iff] at h
      obtain ⟨_, -, after, hafter, hb⟩ := h
      cases hb
      obtain ⟨w, hw⟩ := ih hafter hreturn
      exact ⟨w, hw⟩
    | .ret none rspan => cases hreturn
    | .ret (some e) rspan =>
      simp only [Stmt.performBody, Option.bind_eq_bind, Option.bind_eq_some_iff] at h
      obtain ⟨_, -, w, -, hb⟩ := h
      cases hb
      exact ⟨w, rfl⟩
    | .assign x e aspan => cases h

namespace FnDef

variable {d : FnDef} {entryPoint : String} {results : List (String × Ty)} {f : Func}
  {ops : List (Located Op)} {r : Located (Option Value)} {args : List V}

/-- A definition does with its calls carried out what its code does with its calls left to the
oracle. -/
theorem performs (h : BodyFlattens ⟨d.name.val, results⟩ (d.atEnd entryPoint) d.scope 0 d.body ops r)
    (hlen : args.length = d.params.length)
    (hall : ∀ s ∈ Stmt.reached d.body, AnswersAll ⟨d.name.val, results⟩ answer s.exprs) :
    ∃ st b, IR.execAll M (.ofAnswers M answer) ops
        { cells := cellsOf ((d.params.map (·.name)).zip args) } = some st ∧
      returned M st r.val = some b ∧
      d.perform M answer entryPoint args =
        some ⟨events answer b.calls, b.value.or (d.bare M entryPoint)⟩ := by
  obtain ⟨st, b, hexec, hret, heval⟩ := h.runs returned_atEnd
    { cells := cellsOf ((d.params.map (·.name)).zip args) } (scope_bound hlen)
  obtain ⟨new, hnew, hperf⟩ := h.performs hall heval
  rw [List.nil_append] at hnew
  subst hnew
  exact ⟨st, b, hexec, hret, hperf⟩

end FnDef

end Source

end Straightline
