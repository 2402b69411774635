import Straightline.Proofs.Dump.Lines
import Straightline.Proofs.Lowering.Ledger
import Straightline.Proofs.Lowering.Origin
import Straightline.Proofs.Semantics.Program

/-!
The text of a lowered module identifies it. The types of operands are not in the text, but they follow
from it: a variable has the type that it was given room with, and a temporary is read in the order that
the books prescribe.
-/
namespace Straightline

open Text

namespace IR

theorem Value.eq_of_shown {v w : Value} (h : v.shown = w.shown) (hty : v.ty = w.ty) : v = w := by
  cases v with
  | const c => cases w <;> cases h; rfl
  | var x =>
    cases w with
    | var y =>
      obtain ⟨name, ty⟩ := x
      cases h
      cases hty
      rfl
    | const | temp => cases h
  | temp t =>
    cases w with
    | temp u =>
      obtain ⟨id, ty⟩ := t
      cases h
      cases hty
      rfl
    | const | var => cases h

theorem length_temps_shown (vs : List Value) :
    (temps (vs.map Value.shown)).length = (temps vs).length := by
  induction vs with
  | nil => rfl
  | cons v vs ih =>
    cases v with
    | const | var => exact ih
    | temp t => exact congrArg (· + 1) ih

/-- Arguments are known once it is known which temporaries they are. -/
theorem eq_of_shown_of_temps {vs ws : List Value} (hvs : ∀ v ∈ vs, v.Legible)
    (h : vs.map Value.shown = ws.map Value.shown) (htemps : temps vs = temps ws) : vs = ws := by
  induction vs generalizing ws with
  | nil => exact (List.map_eq_nil_iff.1 h.symm).symm
  | cons v vs ih =>
    cases ws with
    | nil => cases h
    | cons w ws =>
      obtain ⟨hv, hrest⟩ := List.forall_mem_cons.1 hvs
      obtain ⟨hvw, hshown⟩ := List.cons.inj h
      cases v with
      | var => cases hv
      | const c =>
        cases w with
        | const c' =>
          cases hvw
          rw [ih hrest hshown htemps]
        | var | temp => cases hvw
      | temp t =>
        cases w with
        | temp u =>
          obtain ⟨rfl, htemps'⟩ := List.cons.inj htemps
          rw [ih hrest hshown htemps']
        | const | var => cases hvw

namespace Ledger

variable {l l₁ l₂ : Ledger} {o o' : Op} {ops ops' : List (Located Op)}

theorem Enters.unique (h : l.Enters o l₁) (h' : l.Enters o l₂) : l₁ = l₂ := by
  obtain ⟨rest, hrest, hunread⟩ := h.unread
  obtain ⟨rest', hrest', hunread'⟩ := h'.unread
  obtain rfl := List.append_cancel_left (hrest.symm.trans hrest')
  have hvars := h.vars.trans h'.vars.symm
  have hfresh := h.fresh.trans h'.fresh.symm
  have hnext := h.next.trans h'.next.symm
  have hunread := hunread.trans hunread'.symm
  cases l₁
  cases l₂
  simp_all only

/-- What is on record decides the types of operands. -/
theorem Enters.eq_of_shown (h : l.Enters o l₁) (h' : l.Enters o' l₂) (ho : o.Legible)
    (hs : o.shown = o'.shown) : o = o' := by
  have htypes := h.types
  have htypes' := h'.types
  cases ho with
  | alloc =>
    cases o' with
    | alloc => exact hs
    | store | load | binary | call => cases hs
  | @store x v =>
    cases o' with
    | store dest w =>
      obtain ⟨y, hy, hfresh, hty⟩ := htypes
      obtain ⟨z, rfl, hfresh', hty'⟩ := htypes'
      cases hy
      obtain rfl := Option.some.inj (hfresh.symm.trans hfresh')
      rw [Value.eq_of_shown (Op.store.inj hs).2 (hty.trans hty'.symm)]
    | alloc | load | binary | call => cases hs
  | @load t x =>
    cases o' with
    | load u source =>
      obtain ⟨y, hy, hty, -⟩ := htypes
      obtain ⟨z, rfl, hty', -⟩ := htypes'
      cases hy
      obtain ⟨rfl, hsource⟩ := Op.load.inj hs
      rw [Value.eq_of_shown hsource (hty.symm.trans hty')]
    | alloc | store | binary | call => cases hs
  | @binary b t lhs rhs =>
    cases o' with
    | binary c u lhs' rhs' =>
      obtain ⟨rfl, rfl, hlhs, hrhs⟩ := Op.binary.inj hs
      rw [Value.eq_of_shown hlhs (htypes.1.trans htypes'.1.symm),
        Value.eq_of_shown hrhs (htypes.2.trans htypes'.2.symm)]
    | alloc | store | load | call => cases hs
  | @call t f args _ hargs =>
    cases o' with
    | call u g args' =>
      obtain ⟨rfl, rfl, hshown⟩ := Op.call.inj hs
      obtain ⟨rest, hrest, -⟩ := h.unread
      obtain ⟨rest', hrest', -⟩ := h'.unread
      -- Both calls read as many temporaries from the same list.
      have hlength : (temps args).length = (temps args').length := by
        rw [← length_temps_shown, hshown, length_temps_shown]
      have hreads : (temps args).reverse ++ rest = (temps args').reverse ++ rest' :=
        hrest.symm.trans hrest'
      obtain ⟨htemps, -⟩ := List.append_inj hreads (by simpa using hlength)
      rw [eq_of_shown_of_temps hargs hshown (List.reverse_injective htemps)]
    | alloc | store | load | binary => cases hs

/-- Code that looks the same from the same books on is the same. -/
theorem EntersAll.eq_of_shown (h : l.EntersAll ops l₁) (h' : l.EntersAll ops' l₂)
    (hops : ∀ o ∈ ops, o.val.Legible) (hs : ops.map (·.val.shown) = ops'.map (·.val.shown)) :
    ops.map (·.val) = ops'.map (·.val) ∧ l₁ = l₂ := by
  induction h generalizing ops' with
  | nil =>
    obtain rfl := List.map_eq_nil_iff.1 hs.symm
    cases h'
    exact ⟨rfl, rfl⟩
  | @cons l k m o ops ho _ ih =>
    cases h' with
    | nil => cases hs
    | @cons _ k' _ o' ops' ho' hrest' =>
      obtain ⟨hlegible, hops⟩ := List.forall_mem_cons.1 hops
      obtain ⟨hs₀, hs⟩ := List.cons.inj hs
      have heq := ho.eq_of_shown ho' hlegible hs₀
      rw [← heq] at ho'
      obtain rfl := ho.unique ho'
      obtain ⟨hrest, hend⟩ := ih hrest' hops hs
      exact ⟨by rw [List.map_cons, List.map_cons, heq, hrest], hend⟩

end Ledger

/-! ## Code without its places -/

def Block.unplaced (b : Block) : Block where
  name := b.name
  body := b.body.map fun o => ⟨o.val, .nowhere⟩
  terminator := b.terminator.map fun t => ⟨t.val, .nowhere⟩

def Func.unplaced (f : Func) : Func :=
  { f with span := .nowhere, blocks := f.blocks.map Block.unplaced }

def Module.unplaced (m : Module) : Module where
  name := m.name
  functions := m.functions.map Func.unplaced
  nodup := by simpa [Func.unplaced, Function.comp_def] using m.nodup

theorem Block.text_unplaced (b : Block) : b.unplaced.text = b.text := by
  obtain ⟨name, body, _ | t⟩ := b <;> simp [Block.unplaced, Block.text, Function.comp_def]

theorem Func.text_unplaced (f : Func) : f.unplaced.text = f.text := by
  have hblocks : f.unplaced.blocks.map (·.text) = f.blocks.map (·.text) := by
    simp [Func.unplaced, Function.comp_def, Block.text_unplaced]
  unfold text
  rw [hblocks]
  rfl

/-- A text does not show where anything stands. -/
theorem Module.text_unplaced (m : Module) : m.unplaced.text = m.text := by
  simp [Module.unplaced, Module.text, Function.comp_def, Func.text_unplaced]

/-- What is unread decides what is returned. -/
theorem Block.val_eq_of_shown {b c : Block} (hb : b.Legible) {unread : List Temporary}
    (hread : ∀ t ∈ b.terminator, temps t.val.toList <+: unread)
    (hread' : ∀ t ∈ c.terminator, temps t.val.toList <+: unread)
    (h : b.terminator.map (·.val.map Value.shown) = c.terminator.map (·.val.map Value.shown)) :
    b.terminator.map (·.val) = c.terminator.map (·.val) := by
  cases hbt : b.terminator with
  | none =>
    rw [hbt] at h
    rw [Option.map_eq_none_iff.1 h.symm]
  | some t =>
    rw [hbt] at h
    obtain ⟨u, hu, hshown⟩ := Option.map_eq_some_iff.1 h.symm
    have hlist : t.val.toList.map Value.shown = u.val.toList.map Value.shown := by
      rw [← Option.toList_map, ← Option.toList_map, hshown]
    have hlength : (temps t.val.toList).length = (temps u.val.toList).length := by
      rw [← length_temps_shown, hlist, length_temps_shown]
    have hinit := List.prefix_of_prefix_length_le (hread t hbt) (hread' u hu) hlength.le
    have hlegible : ∀ v ∈ t.val.toList, v.Legible :=
      fun v hv => hb.terminator t hbt v (Option.mem_toList.1 hv)
    have hvals := eq_of_shown_of_temps hlegible hlist (hinit.eq_of_length hlength)
    have hval : t.val = u.val := by simpa using congrArg List.head? hvals
    rw [hu, Option.map_some, Option.map_some, hval]

/-- Functions that look the same are the same but for where they stand. -/
theorem Func.unplaced_eq_of_lines {f g : Func} (hf : f.Legible) (hg : g.Legible) (hfb : f.KeepsBooks)
    (hgb : g.KeepsBooks) (h : f.lines = g.lines) : f.unplaced = g.unplaced := by
  obtain ⟨b, l, hb, hbody, hret⟩ := hfb
  obtain ⟨c, k, hc, hbody', hret'⟩ := hgb
  obtain ⟨⟨hname, hparams, hresult⟩, hentry, hshown, hend⟩ := shown_eq_of_lines hf hg hb hc h
  obtain ⟨b', hb', hlegible⟩ := hf.blocks
  cases hb.symm.trans hb'
  -- The parameters are the same, so the books start the same, and so they end.
  rw [hparams] at hbody
  obtain ⟨hops, rfl⟩ := hbody.eq_of_shown hbody' hlegible.body hshown
  have hvals := Block.val_eq_of_shown hlegible hret hret' hend
  have hblock : b.unplaced = c.unplaced := by
    have hops' := map_eq_map_of_imp (g := fun o : Located Op => (⟨o.val, .nowhere⟩ : Located Op))
      (fun o _ p _ hop => by rw [hop]) hops
    have hend' := congrArg
      (Option.map fun v : Option Value => (⟨v, .nowhere⟩ : Located (Option Value))) hvals
    rw [Option.map_map, Option.map_map] at hend'
    simp only [Block.unplaced, hentry, hops']
    exact congrArg _ hend'
  simp [unplaced, hb, hc, hname, hparams, hresult, hblock]

/-- The text of a module identifies it, if its functions are legible and keep the books. -/
theorem Module.unplaced_eq_of_text {m n : Module} (hm : isIdentifier m.name = true)
    (hn : isIdentifier n.name = true) (hf : ∀ f ∈ m.functions, f.Legible ∧ f.KeepsBooks)
    (hg : ∀ g ∈ n.functions, g.Legible ∧ g.KeepsBooks) (h : m.text = n.text) :
    m.unplaced = n.unplaced := by
  obtain ⟨hname, hlines⟩ := lines_eq_of_text hm hn (fun f hmem => (hf f hmem).1)
    (fun g hmem => (hg g hmem).1) h
  have hfunctions : m.functions.map Func.unplaced = n.functions.map Func.unplaced := by
    refine map_eq_map_of_imp (fun f hfm g hgm hfg => ?_) hlines
    exact Func.unplaced_eq_of_lines (hf f hfm).1 (hg g hgm).1 (hf f hfm).2 (hg g hgm).2 hfg
  simp [Module.unplaced, hname, hfunctions]

end IR

open IR Source

theorem Lowering.name_collect (m : Module) (items : List (Option Func × List Diagnostic)) :
    (collect m items).code.name = m.name := by
  induction items generalizing m with
  | nil => rfl
  | cons item items ih =>
    obtain ⟨_ | f, ds⟩ := item
    · exact ih m
    · rw [collect]
      split
      next n hadd =>
        have hname : n.name = m.name := by
          unfold Module.add at hadd
          split at hadd <;> cases hadd
          rfl
        exact (ih n).trans hname
      next => exact ih m

namespace Source

def Expr.isFloat : Expr → Bool
  | .literal (.float _) _ => true
  | _ => false

/-- The names that a definition has, declares and calls are identifiers, and it has no float. -/
structure FnDef.Plain (d : FnDef) : Prop where
  name : isIdentifier d.name.val = true
  declared : ∀ x ∈ d.declared, isIdentifier x = true
  callees : ∀ site ∈ d.sites, isIdentifier site.1 = true
  literals : ∀ e ∈ d.parts, e.isFloat = false

instance (d : FnDef) : Decidable d.Plain :=
  decidable_of_iff (isIdentifier d.name.val = true ∧ (∀ x ∈ d.declared, isIdentifier x = true) ∧
      (∀ site ∈ d.sites, isIdentifier site.1 = true) ∧ ∀ e ∈ d.parts, e.isFloat = false)
    ⟨fun h => ⟨h.1, h.2.1, h.2.2.1, h.2.2.2⟩, fun h => ⟨h.name, h.declared, h.callees, h.literals⟩⟩

namespace FnDef

open Lowering

variable {d : FnDef} {entryPoint : String} {results : List (String × Ty)}

theorem Plain.legible_value (hd : d.Plain) {v : Value} (hv : Within d.parts v) : v.Legible := by
  cases v with
  | temp t => exact .temp
  | var x => exact hv.elim
  | const c =>
    obtain ⟨l, span, hmem, hl⟩ := hv
    cases l with
    | float text => cases hd.literals _ hmem
    | int text =>
      obtain ⟨n, -, rfl⟩ := Option.map_eq_some_iff.1 hl
      exact .int
    | string text =>
      cases hl
      exact .string
    | bool b =>
      cases hl
      exact .bool

theorem Plain.legible_op (hd : d.Plain) {cx : Context} {o : Op}
    (ho : Stems cx d.declared d.parts o) : o.Legible := by
  cases ho with
  | alloc hx => exact .alloc (hd.declared _ hx)
  | store hx hv => exact .store (hd.declared _ hx) (hd.legible_value hv)
  | load hx => exact .load (hd.declared _ hx)
  | binary hl hr => exact .binary (hd.legible_value hl) (hd.legible_value hr)
  | @call t f fspan span args values hf ht hvalues =>
    have hsite : (f, args.length) ∈ d.sites := List.mem_filterMap.2 ⟨_, hf, rfl⟩
    exact .call (hd.callees _ hsite) fun v hv => hd.legible_value (hvalues v hv)

theorem Plain.legible (hd : d.Plain) {f : Func} {ds : List Diagnostic}
    (h : d.lower entryPoint results = .ok (f, ds)) : f.Legible := by
  obtain ⟨b, hblocks, hname, hbody, hret⟩ := stems_of_lower h
  have hblock : b.Legible := by
    refine ⟨hname, fun o ho => hd.legible_op (hbody o ho), ?_⟩
    intro t ht v hv
    rcases hret t ht v hv with hv | rfl
    · exact hd.legible_value hv
    · exact .int
  refine ⟨name_of_lower h ▸ hd.name, ?_, b, hblocks, hblock⟩
  obtain ⟨r, builder, -, -, rfl, -⟩ := lower_eq_ok h
  intro x hx
  obtain ⟨p, hp, hx⟩ := List.mem_filterMap.1 hx
  obtain ⟨ty, -, rfl⟩ := Option.map_eq_some_iff.1 hx
  exact hd.declared _ (List.mem_append_left _ (List.mem_map_of_mem hp))

end FnDef

namespace Program

variable {p q : Program} {m n : String}

/-- What a program without floats is lowered to can be read off its text. -/
theorem exists_lower_legible (hp : ∀ d ∈ p.definitions, d.Plain) (entryPoint m : String) :
    ∃ o, p.lower entryPoint m = .ok o ∧ o.code.name = m ∧
      ∀ f ∈ o.code.functions, f.Legible ∧ f.KeepsBooks := by
  obtain ⟨u, hu⟩ := p.exists_lowerUncapped entryPoint m
  obtain ⟨items, -, hcode⟩ := lowerUncapped_code hu
  refine ⟨_, lower_eq_ok_iff.2 ⟨u, hu, rfl⟩, by rw [hcode, Lowering.name_collect], ?_⟩
  intro f hf
  obtain ⟨d, hd, ds, hlower⟩ := exists_definition hu hf
  exact ⟨(hp d hd).legible hlower, FnDef.keepsBooks_of_lower hlower⟩

/-- The text of a module identifies it. Take two programs without float literals, in which every name
is an identifier: what they are lowered to has the same text just when it is the same in everything but
where it stands in the source. That includes the types of operands, which are not in the text. -/
theorem text_identifies_module (hp : ∀ d ∈ p.definitions, d.Plain)
    (hq : ∀ d ∈ q.definitions, d.Plain) (hm : isIdentifier m = true) (hn : isIdentifier n = true)
    (pEntry qEntry : String) :
    ∃ o o', p.lower pEntry m = .ok o ∧ q.lower qEntry n = .ok o' ∧
      (o.code.text = o'.code.text ↔ o.code.unplaced = o'.code.unplaced) := by
  obtain ⟨o, ho, hname, hf⟩ := exists_lower_legible hp pEntry m
  obtain ⟨o', ho', hname', hg⟩ := exists_lower_legible hq qEntry n
  refine ⟨o, o', ho, ho', ?_, ?_⟩
  · exact Module.unplaced_eq_of_text (hname ▸ hm) (hname' ▸ hn) hf hg
  · intro h
    rw [← Module.text_unplaced, h, Module.text_unplaced]

/-- `func g(store: int) -> string { let call = store + 1; print("1\", %0\n", call); y }`, with every
span at `k`. The last statement is an error. -/
def printing (k : Nat) : Program :=
  [.fn ⟨⟨"g", ⟨0, k, k⟩⟩, [⟨"store", ⟨"int", ⟨0, k, k⟩⟩⟩], some ⟨"string", ⟨0, k, k⟩⟩,
    [.bind "call" (.binary "+" (.name "store" ⟨0, k, k⟩) (.literal (.int "1") ⟨0, k, k⟩) ⟨0, k, k⟩)
        ⟨0, k, k⟩,
      .eval (.call (.name "print" ⟨0, k, k⟩) [.literal (.string "1\", %0\n") ⟨0, k, k⟩,
        .name "call" ⟨0, k, k⟩] ⟨0, k, k⟩) ⟨0, k, k⟩,
      .eval (.name "y" ⟨0, k, k⟩) ⟨0, k, k⟩]⟩]

theorem text_identifies_module_printing :
    ∃ o o', (printing 1).lower "main" "m" = .ok o ∧ (printing 2).lower "main" "m" = .ok o' ∧
      o.code ≠ o'.code ∧ o.code.isComplete = false ∧ o.code.text = o'.code.text ∧
      o.code.unplaced = o'.code.unplaced := by
  have hplain : ∀ k ∈ [1, 2], ∀ d ∈ (printing k).definitions, d.Plain := by
    decide +kernel
  obtain ⟨o, o', ho, ho', hiff⟩ := text_identifies_module (hplain 1 (by decide))
    (hplain 2 (by decide)) (m := "m") (n := "m") (by decide) (by decide) "main" "main"
  have heval : ((printing 1).lower "main" "m").toOption.bind (fun o =>
      ((printing 2).lower "main" "m").toOption.map fun o' => (decide (o.code = o'.code),
        o.code.isComplete, decide (o.code.text = o'.code.text))) = some (false, false, true) := by
    decide +kernel
  rw [ho, ho'] at heval
  obtain ⟨hdiffers, hfacts⟩ := Prod.mk.inj (Option.some.inj heval)
  obtain ⟨hopen, htext⟩ := Prod.mk.inj hfacts
  have htext := of_decide_eq_true htext
  exact ⟨o, o', ho, ho', of_decide_eq_false hdiffers, hopen, htext, hiff.1 htext⟩

end Program

end Source

end Straightline
