import Mathlib
import Straightline.IR.Instruction
import Straightline.Proofs.Text.Reading

/-!
The text of an operation shows everything about it except the types of its operands. Which operation
it is can be told from how the text begins, since a variable that is named like a keyword is followed
by an equals sign.
-/
namespace Straightline

open Text

/-- A letter or an underscore, and then letters, digits and underscores. -/
def Text.isIdentifier (s : String) : Bool :=
  match s.toList with
  | [] => false
  | c :: rest => (c.isAlpha || c = '_') && rest.all fun d => d.isAlphanum || d = '_'

theorem Text.exists_of_isIdentifier {s : String} (h : isIdentifier s = true) :
    ∃ c rest, s.toList = c :: rest ∧ (c.isAlpha = true ∨ c = '_') ∧ IsWord s.toList := by
  unfold isIdentifier at h
  split at h
  next => cases h
  next c rest hs =>
    simp only [Bool.and_eq_true, Bool.or_eq_true, decide_eq_true_eq, List.all_eq_true] at h
    refine ⟨c, rest, hs, h.1, by simp [hs], ?_⟩
    intro d hd
    have hd : d = c ∨ d ∈ rest := by simpa [hs] using hd
    rcases hd with rfl | hd
    · rcases h.1 with hd | hd <;> simp [isWordChar, Char.isAlphanum, hd]
    · rcases h.2 d hd with hd | hd <;> simp [isWordChar, hd]

theorem Text.isWord_of_isIdentifier {s : String} (h : isIdentifier s = true) : IsWord s.toList := by
  obtain ⟨-, -, -, -, hword⟩ := exists_of_isIdentifier h
  exact hword

theorem Ty.isWord_name (t : Ty) : IsWord t.name.toList := by
  cases t <;> exact .of_all (by decide) (by decide)

theorem Ty.name_inj {t u : Ty} (h : t.name.toList = u.name.toList) : t = u := by
  have hread := ofName?_name t
  rw [String.toList_inj.1 h, ofName?_name] at hread
  exact (Option.some.inj hread).symm

namespace IR

theorem isWord_percent_repr (n : Nat) : IsWord ('%' :: n.repr.toList) :=
  ⟨nofun, List.forall_mem_cons.2 ⟨rfl, fun _ => isWordChar_of_mem_repr⟩⟩

namespace Value

/-- A value as its text shows it: without the type of a variable or a temporary. -/
def shown : Value → Value
  | const c => const c
  | var v => var ⟨v.name, .nil⟩
  | temp t => temp ⟨t.id, .nil⟩

/-- The kind of value can be told from its text. -/
inductive Legible : Value → Prop
  | temp {t : Temporary} : Legible (.temp t)
  | string {s : String} : Legible (.const (.string s))
  | bool {b : Bool} : Legible (.const (.bool b))
  | int {n : Int64} : Legible (.const (.int n))

/-- How the text of a value begins. -/
inductive Lead
  | quote
  | percent
  | letter
  | digit

def lead : Value → Lead
  | const (.string _) => .quote
  | temp _ => .percent
  | const (.bool _) => .letter
  | _ => .digit

def Lead.ofChar (c : Char) : Lead :=
  if c = '"' then .quote else if c = '%' then .percent else if c.isAlpha then .letter else .digit

variable {v w : Value}

theorem toList_text_temp (t : Temporary) : (temp t).text.toList = '%' :: t.id.repr.toList := by
  simp [text, toString]

theorem isToken_text (hv : v.Legible) : IsToken v.text.toList := by
  cases hv with
  | @temp t =>
    rw [toList_text_temp]
    exact .word (isWord_percent_repr t.id)
  | string => exact .quoted rfl
  | @bool b => cases b <;> exact .word (.of_all (by decide) (by decide))
  | @int n =>
    change IsToken n.toInt.repr.toList
    rw [toList_int_repr]
    refine .word ⟨?_, List.forall_mem_append.2 ⟨?_, fun _ => isWordChar_of_mem_repr⟩⟩
    · obtain ⟨c, rest, hc, -⟩ := exists_digit_repr n.toInt.natAbs
      simp [hc]
    · split_ifs
      · exact List.forall_mem_singleton.2 rfl
      · exact List.forall_mem_nil _

theorem lead_eq (hv : v.Legible) : ∃ c, v.text.toList.head? = some c ∧ Lead.ofChar c = v.lead := by
  cases hv with
  | @temp t =>
    rw [toList_text_temp]
    exact ⟨'%', rfl, rfl⟩
  | @string s =>
    change ∃ c, (quote s).toList.head? = some c ∧ _
    rw [toList_quote]
    exact ⟨'"', rfl, rfl⟩
  | @bool b =>
    cases b with
    | true => exact ⟨'t', rfl, rfl⟩
    | false => exact ⟨'f', rfl, rfl⟩
  | @int n =>
    change ∃ c, n.toInt.repr.toList.head? = some c ∧ _
    rw [toList_int_repr]
    split_ifs
    · exact ⟨'-', rfl, rfl⟩
    · obtain ⟨c, rest, hc, hdigit⟩ := exists_digit_repr n.toInt.natAbs
      refine ⟨c, by rw [hc]; rfl, ?_⟩
      have hquote : c ≠ '"' := by rintro rfl; cases hdigit
      have hpercent : c ≠ '%' := by rintro rfl; cases hdigit
      have halpha : c.isAlpha = false := by
        simp only [Char.isDigit, Char.isAlpha, Char.isUpper, Char.isLower] at hdigit ⊢
        grind
      simp [Lead.ofChar, hquote, hpercent, halpha, lead]

theorem shown_eq_of_text (hv : v.Legible) (hw : w.Legible) (h : v.text.toList = w.text.toList) :
    v.shown = w.shown := by
  have hlead : v.lead = w.lead := by
    obtain ⟨c, hc, hv⟩ := lead_eq hv
    obtain ⟨d, hd, hw⟩ := lead_eq hw
    rw [h, hd] at hc
    rw [← hv, ← hw, Option.some.inj hc]
  cases hv with
  | temp =>
    cases hw with
    | temp =>
      rw [toList_text_temp, toList_text_temp] at h
      have hid := nat_repr_inj (List.cons.inj h).2
      simp [shown, hid]
    | string | bool | int => cases hlead
  | string =>
    cases hw with
    | string =>
      obtain ⟨rfl, -⟩ := quote_append_inj (congrArg (· ++ []) h)
      rfl
    | temp | bool | int => cases hlead
  | @bool a =>
    cases hw with
    | @bool b => cases a <;> cases b <;> first | rfl | cases h
    | temp | string | int => cases hlead
  | @int m =>
    cases hw with
    | @int n =>
      rw [Int64.toInt_inj.1 (int_repr_inj h)]
    | temp | string | bool => cases hlead

end Value

theorem Temporary.toList_binding (t : Temporary) : t.binding.toList =
    '%' :: t.id.repr.toList ++ ':' :: ' ' :: (t.ty.name.toList ++ [' ', '=', ' ']) := by
  simp [Temporary.binding, toString]

theorem Temporary.binding_append_inj {t u : Temporary} {x y : List Char}
    (h : t.binding.toList ++ x = u.binding.toList ++ y) : t = u ∧ x = y := by
  simp only [toList_binding, List.cons_append, List.append_assoc, List.nil_append] at h
  obtain ⟨hid, h⟩ := word_append_inj (isWord_percent_repr t.id) (isWord_percent_repr u.id)
    (.cons _ rfl) (.cons _ rfl) h
  simp only [List.cons.injEq, true_and] at h
  obtain ⟨hty, h⟩ :=
    word_append_inj t.ty.isWord_name u.ty.isWord_name (.cons _ rfl) (.cons _ rfl) h
  have hid := nat_repr_inj (List.cons.inj hid).2
  have hty := Ty.name_inj hty
  exact ⟨congrArg₂ Temporary.mk hid hty, by simpa using h⟩

namespace BinOp

theorem isWord_mnemonic (b : BinOp) : IsWord b.mnemonic.toList := by
  cases b <;> exact .of_all (by decide) (by decide)

theorem mnemonic_inj {b c : BinOp} (h : b.mnemonic.toList = c.mnemonic.toList) : b = c := by
  have h := String.toList_inj.1 h
  cases b <;> cases c <;> first | rfl | simp [mnemonic] at h

end BinOp

namespace Op

/-- An operation as its text shows it: without the types of its operands. -/
def shown : Op → Op
  | alloc x => alloc x
  | store dest v => store dest.shown v.shown
  | load t source => load t source.shown
  | binary b t lhs rhs => binary b t lhs.shown rhs.shown
  | call t f args => call t f (args.map Value.shown)

/-- The operation can be told from its text. -/
inductive Legible : Op → Prop
  | alloc {x : Variable} (hx : isIdentifier x.name = true) : Legible (.alloc x)
  | store {x : Variable} {v : Value} (hx : isIdentifier x.name = true) (hv : v.Legible) :
      Legible (.store (.var x) v)
  | load {t : Temporary} {x : Variable} (hx : isIdentifier x.name = true) :
      Legible (.load t (.var x))
  | binary {b : BinOp} {t : Temporary} {l r : Value} (hl : l.Legible) (hr : r.Legible) :
      Legible (.binary b t l r)
  | call {t : Option Temporary} {f : String} {args : List Value} (hf : isIdentifier f = true)
      (hargs : ∀ v ∈ args, v.Legible) : Legible (.call t f args)

/-- The temporary that the text binds first. -/
def bound? : Op → Option Temporary
  | alloc _ | store .. => none
  | load t _ | binary _ t _ _ => some t
  | call t _ _ => t

/-- The first word after the binding. -/
def word : Op → List Char
  | alloc x => x.name.toList
  | store .. => ['s', 't', 'o', 'r', 'e']
  | load .. => ['l', 'o', 'a', 'd']
  | binary b .. => b.mnemonic.toList
  | call .. => ['c', 'a', 'l', 'l']

/-- What follows the first word and a space. -/
def rest : Op → List Char
  | alloc x => ['=', ' ', 'a', 'l', 'l', 'o', 'c', ' '] ++ x.ty.name.toList
  | store dest v => dest.text.toList ++ ',' :: ' ' :: v.text.toList
  | load _ source => source.text.toList
  | binary _ _ lhs rhs => lhs.text.toList ++ ',' :: ' ' :: rhs.text.toList
  | call _ f args =>
    f.toList ++ '(' :: ([',', ' '].intercalate (args.map (·.text.toList)) ++ [')'])

variable {o o' : Op}

theorem toList_text (o : Op) : o.text.toList =
    (o.bound?.elim [] fun t => t.binding.toList) ++ (o.word ++ ' ' :: o.rest) := by
  cases o with
  | alloc | store | load | binary => simp [text, bound?, word, rest, toString]
  | call t =>
    cases t <;>
      simp [text, bound?, word, rest, String.toList_intercalate, List.map_map, Function.comp_def]

theorem isWord_word (ho : o.Legible) : IsWord o.word := by
  cases ho with
  | alloc hx => exact isWord_of_isIdentifier hx
  | store => exact .of_all nofun rfl
  | load => exact .of_all nofun rfl
  | binary => exact BinOp.isWord_mnemonic _
  | call => exact .of_all nofun rfl

/-- A variable that room is made for is followed by an equals sign; else the word decides. -/
theorem name_eq (ho : o.Legible) : o.name =
    if o.rest.head? = some '=' then "alloc"
    else if o.word = ['s', 't', 'o', 'r', 'e'] then "store"
    else if o.word = ['l', 'o', 'a', 'd'] then "load"
    else if o.word = ['c', 'a', 'l', 'l'] then "call" else "binary" := by
  have hne : ∀ {x r : List Char}, IsToken x → ¬ (x ++ r).head? = some '=' := by
    intro x r hx hhead
    obtain ⟨c, hc, hne⟩ := hx.head (d := '=') rfl (by decide)
    rw [List.head?_append, hc] at hhead
    exact hne (Option.some.inj hhead)
  cases ho with
  | alloc hx => rfl
  | @store x v hx hv =>
    have hhead : ¬ (Op.store (.var x) v).rest.head? = some '=' :=
      hne (.word (isWord_of_isIdentifier hx))
    rw [if_neg hhead]
    rfl
  | @load t x hx =>
    have hhead : ¬ (Op.load t (.var x)).rest.head? = some '=' := by
      have hload := hne (r := []) (.word (isWord_of_isIdentifier hx))
      rwa [List.append_nil] at hload
    rw [if_neg hhead]
    rfl
  | @binary b t l r hl hr =>
    have hhead : ¬ (Op.binary b t l r).rest.head? = some '=' := hne (Value.isToken_text hl)
    rw [if_neg hhead]
    cases b <;> rfl
  | @call t f args hf hargs =>
    have hhead : ¬ (Op.call t f args).rest.head? = some '=' :=
      hne (.word (isWord_of_isIdentifier hf))
    rw [if_neg hhead]
    rfl

theorem head_word (ho : o.Legible) : ∃ c, o.word.head? = some c ∧ c ≠ '%' := by
  cases ho with
  | @alloc x hx =>
    obtain ⟨c, rest, hc, hchar, -⟩ := exists_of_isIdentifier hx
    refine ⟨c, by rw [word, hc]; rfl, ?_⟩
    rintro rfl
    rcases hchar with h | h <;> cases h
  | store => exact ⟨'s', rfl, by decide⟩
  | load => exact ⟨'l', rfl, by decide⟩
  | @binary b => cases b <;> exact ⟨_, rfl, by decide⟩
  | call => exact ⟨'c', rfl, by decide⟩

/-- The three parts of the text can be read off it. -/
theorem parts_of_text (ho : o.Legible) (ho' : o'.Legible) (h : o.text.toList = o'.text.toList) :
    o.bound? = o'.bound? ∧ o.word = o'.word ∧ o.rest = o'.rest := by
  have hbinding : ∀ {t : Temporary} {o : Op} {x y : List Char}, o.Legible →
      t.binding.toList ++ x ≠ o.word ++ y := by
    intro t o x y ho
    obtain ⟨c, hc, hne⟩ := head_word ho
    exact append_ne_of_head? (by rw [Temporary.toList_binding]; rfl) hc hne.symm x y
  rw [toList_text, toList_text] at h
  have hparts : o.bound? = o'.bound? ∧ o.word ++ ' ' :: o.rest = o'.word ++ ' ' :: o'.rest := by
    cases hb : o.bound? with
    | none =>
      cases hb' : o'.bound? with
      | none => simpa [hb, hb'] using h
      | some u =>
        rw [hb, hb'] at h
        exact (hbinding ho h.symm).elim
    | some t =>
      cases hb' : o'.bound? with
      | none =>
        rw [hb, hb'] at h
        exact (hbinding ho' h).elim
      | some u =>
        rw [hb, hb'] at h
        obtain ⟨rfl, hrest⟩ := Temporary.binding_append_inj h
        exact ⟨rfl, hrest⟩
  obtain ⟨hbound, h⟩ := hparts
  obtain ⟨hword, hrest⟩ :=
    word_append_inj (isWord_word ho) (isWord_word ho') (.cons _ rfl) (.cons _ rfl) h
  exact ⟨hbound, hword, (List.cons.inj hrest).2⟩

theorem shown_eq_of_text (ho : o.Legible) (ho' : o'.Legible) (h : o.text.toList = o'.text.toList) :
    o.shown = o'.shown := by
  obtain ⟨hbound, hword, hrest⟩ := parts_of_text ho ho' h
  have hname : o.name = o'.name := by rw [name_eq ho, name_eq ho', hword, hrest]
  cases ho with
  | @alloc x hx =>
    cases ho' with
    | @alloc y hy =>
      have hnames := String.toList_inj.1 hword
      have htys := Ty.name_inj (List.append_cancel_left hrest)
      exact congrArg Op.alloc (congrArg₂ Variable.mk hnames htys)
    | store | load | binary | call => simp [name] at hname
  | @store x v hx hv =>
    cases ho' with
    | @store y w hy hw =>
      obtain ⟨hxy, hvw⟩ := word_append_inj (isWord_of_isIdentifier hx) (isWord_of_isIdentifier hy)
        (.cons _ rfl) (.cons _ rfl) hrest
      simp only [List.cons.injEq, true_and] at hvw
      have hvw := Value.shown_eq_of_text hv hw hvw
      have hdest : (Value.var x).shown = (Value.var y).shown := by
        simp [Value.shown, String.toList_inj.1 hxy]
      simp [shown, hdest, hvw]
    | alloc | load | binary | call => simp [name] at hname
  | @load t x hx =>
    cases ho' with
    | @load u y hy =>
      obtain rfl := Option.some.inj hbound
      have hxy : x.name = y.name := String.toList_inj.1 hrest
      simp [shown, Value.shown, hxy]
    | alloc | store | binary | call => simp [name] at hname
  | @binary b t l r hl hr =>
    cases ho' with
    | @binary c u l' r' hl' hr' =>
      obtain rfl := Option.some.inj hbound
      obtain rfl := BinOp.mnemonic_inj hword
      obtain ⟨hlhs, hrhs⟩ := readable_token.inj (Value.isToken_text hl) (Value.isToken_text hl')
        (.cons _ rfl) (.cons _ rfl) hrest
      have hlhs := Value.shown_eq_of_text hl hl' hlhs
      simp only [List.cons.injEq, true_and] at hrhs
      have hrhs := Value.shown_eq_of_text hr hr' hrhs
      simp [shown, hlhs, hrhs]
    | alloc | store | load | call => simp [name] at hname
  | @call t f args hf hargs =>
    cases ho' with
    | @call u g args' hg hargs' =>
      obtain rfl : t = u := hbound
      obtain ⟨hfg, hrest⟩ := word_append_inj (isWord_of_isIdentifier hf) (isWord_of_isIdentifier hg)
        (.cons _ rfl) (.cons _ rfl) hrest
      have htoken : ∀ {vs : List Value}, (∀ v ∈ vs, v.Legible) →
          ∀ x ∈ vs.map (·.text.toList), IsToken x := by
        intro vs hvs x hx
        obtain ⟨v, hv, rfl⟩ := List.mem_map.1 hx
        exact Value.isToken_text (hvs v hv)
      obtain ⟨htexts, -⟩ := intercalate_append_inj readable_token (htoken hargs) (htoken hargs')
        (List.cons.inj hrest).2
      have hargs := map_eq_map_of_imp
        (fun v hv w hw => Value.shown_eq_of_text (hargs v hv) (hargs' w hw)) htexts
      simp [shown, String.toList_inj.1 hfg, hargs]
    | alloc | store | load | binary => simp [name] at hname

end Op

end IR

end Straightline
