import Straightline.IR.Module
import Straightline.Proofs.Dump.Operations

/-!
The text of a module, line by line. Each function begins with an empty line and ends with a brace, and
between them stand its header and its code; so the functions can be told apart, and what they are made
of can be read off their lines.
-/
namespace Straightline.IR

open Text

namespace Block

/-- The last line of a block, without the margin. -/
def ending (b : Block) : String :=
  match b.terminator with
  | some t => (Instruction.ret t.val).text
  | none => "<unterminated>"

/-- A line of code, with its margin. -/
def line (s : String) : List Char := ' ' :: ' ' :: ' ' :: ' ' :: s.toList

def lines (b : Block) : List (List Char) :=
  (' ' :: ' ' :: (b.name.toList ++ [':'])) ::
    (b.body.map (fun o => line o.val.text) ++ [line b.ending])

theorem toList_text (b : Block) : b.text.toList = b.lines.flatMap (· ++ ['\n']) := by
  change ("  " ++ b.name ++ ":\n" ++ String.join (b.body.map fun o => "    " ++ o.val.text ++ "\n")
    ++ "    " ++ b.ending ++ "\n").toList = _
  simp [lines, line, String.toList_join, List.flatMap_map]

end Block

namespace Func

/-- The annotation of the result in a header, and what follows it. -/
def resultText (ty : Ty) : List Char :=
  if ty = .nil then [' ', '{'] else ' ' :: '-' :: '>' :: ' ' :: (ty.name.toList ++ [' ', '{'])

def paramText (x : Variable) : List Char := x.name.toList ++ ':' :: ' ' :: x.ty.name.toList

def header (f : Func) : List Char :=
  'f' :: 'n' :: ' ' :: (f.name.toList ++ '(' ::
    ([',', ' '].intercalate (f.params.map paramText) ++ ')' :: resultText f.result))

/-- The lines of a function up to its closing brace. -/
def lines (f : Func) : List (List Char) := [] :: f.header :: f.blocks.flatMap Block.lines

theorem toList_text (f : Func) :
    '\n' :: f.text.toList = (f.lines ++ [['}']]).flatMap (· ++ ['\n']) := by
  have hparams : (", ".intercalate (f.params.map fun p => p.name ++ ": " ++ p.ty.name)).toList =
      [',', ' '].intercalate (f.params.map paramText) := by
    rw [String.toList_intercalate, List.map_map]
    refine congrArg _ (List.map_congr_left fun p _ => ?_)
    simp [paramText]
  have hresult : ∀ rest, (if f.isVoid then "" else " -> " ++ f.result.name).toList ++
      ' ' :: '{' :: '\n' :: rest = resultText f.result ++ '\n' :: rest := by
    intro rest
    unfold isVoid resultText
    by_cases h : f.result = .nil <;> simp [h]
  have hblocks : f.blocks.flatMap (fun b => b.text.toList) =
      (f.blocks.flatMap Block.lines).flatMap (· ++ ['\n']) := by
    rw [List.flatMap_assoc]
    simp only [Block.toList_text]
  simp only [text, lines, header, String.toList_append, hparams, String.toList_join,
    List.flatMap_map, hblocks]
  simp [hresult]

end Func

namespace Module

def lines (m : Module) : List (List Char) :=
  ("module ".toList ++ m.name.toList) :: m.functions.flatMap (fun f => f.lines ++ [['}']])

theorem toList_text (m : Module) : m.text.toList = m.lines.flatMap (· ++ ['\n']) := by
  have hfunctions : m.functions.flatMap (fun f => '\n' :: f.text.toList) =
      (m.functions.flatMap fun f => f.lines ++ [['}']]).flatMap (· ++ ['\n']) := by
    rw [List.flatMap_assoc]
    simp only [Func.toList_text]
  rw [lines, List.flatMap_cons, ← hfunctions]
  simp [text, String.toList_join, List.flatMap_map]

end Module

/-! ## Lines hold no newline -/

theorem Op.newline_not_mem_text {o : Op} (ho : o.Legible) : '\n' ∉ o.text.toList := by
  have hbound : ∀ t : Option Temporary, '\n' ∉ (t.elim [] fun t => t.binding.toList) := by
    intro t
    cases t with
    | none => exact List.not_mem_nil
    | some t =>
      rw [Option.elim, Temporary.toList_binding, List.mem_append, not_or]
      refine ⟨(isWord_percent_repr t.id).newline_not_mem, ?_⟩
      simp [t.ty.isWord_name.newline_not_mem]
  have hrest : '\n' ∉ o.rest := by
    cases ho with
    | @alloc x hx => simp [rest, x.ty.isWord_name.newline_not_mem]
    | @store x v hx hv =>
      have hdest : '\n' ∉ (Value.var x).text.toList := (isWord_of_isIdentifier hx).newline_not_mem
      simp [rest, hdest, (Value.isToken_text hv).newline_not_mem]
    | load hx => exact (isWord_of_isIdentifier hx).newline_not_mem
    | binary hl hr =>
      simp [rest, (Value.isToken_text hl).newline_not_mem, (Value.isToken_text hr).newline_not_mem]
    | @call t f args hf hargs =>
      have hlist : '\n' ∉ [',', ' '].intercalate (args.map (·.text.toList)) := by
        intro h
        rcases mem_of_mem_intercalate h with h | ⟨x, hx, h⟩
        · cases h with | tail _ h => cases h with | tail _ h => cases h
        · obtain ⟨v, hv, rfl⟩ := List.mem_map.1 hx
          exact (Value.isToken_text (hargs v hv)).newline_not_mem h
      simp [rest, (isWord_of_isIdentifier hf).newline_not_mem, hlist]
  rw [Op.toList_text]
  simp [hbound, (Op.isWord_word ho).newline_not_mem, hrest]

/-- A block whose lines can be read. -/
structure Block.Legible (b : Block) : Prop where
  name : b.name = Block.entryName
  body : ∀ o ∈ b.body, o.val.Legible
  terminator : ∀ t ∈ b.terminator, ∀ v ∈ t.val, v.Legible

structure Func.Legible (f : Func) : Prop where
  name : isIdentifier f.name = true
  params : ∀ x ∈ f.params, isIdentifier x.name = true
  blocks : ∃ b, f.blocks = [b] ∧ b.Legible

theorem Block.newline_not_mem_ending {b : Block} (hb : b.Legible) : '\n' ∉ b.ending.toList := by
  unfold ending
  split
  next t ht =>
    obtain ⟨_ | v, span⟩ := t
    · change '\n' ∉ "ret".toList
      decide
    · have hv := (Value.isToken_text (hb.terminator _ ht v rfl)).newline_not_mem
      change '\n' ∉ ("ret " ++ v.text).toList
      simp [hv]
  next => decide

theorem Func.newline_not_mem_header {f : Func} (hf : f.Legible) : '\n' ∉ f.header := by
  have hparams : '\n' ∉ [',', ' '].intercalate (f.params.map paramText) := by
    intro h
    rcases mem_of_mem_intercalate h with h | ⟨x, hx, h⟩
    · cases h with | tail _ h => cases h with | tail _ h => cases h
    · obtain ⟨p, hp, rfl⟩ := List.mem_map.1 hx
      revert h
      simp [paramText, (isWord_of_isIdentifier (hf.params p hp)).newline_not_mem,
        p.ty.isWord_name.newline_not_mem]
  have hresult : '\n' ∉ resultText f.result := by
    unfold resultText
    split
    · decide
    · simp [f.result.isWord_name.newline_not_mem]
  simp [header, (isWord_of_isIdentifier hf.name).newline_not_mem, hparams, hresult]

theorem Func.newline_not_mem_lines {f : Func} (hf : f.Legible) : ∀ x ∈ f.lines, '\n' ∉ x := by
  obtain ⟨b, hblocks, hb⟩ := hf.blocks
  rw [lines, hblocks, List.flatMap_singleton, Block.lines]
  refine List.forall_mem_cons.2 ⟨List.not_mem_nil, ?_⟩
  refine List.forall_mem_cons.2 ⟨newline_not_mem_header hf, ?_⟩
  refine List.forall_mem_cons.2 ⟨?_, List.forall_mem_append.2 ⟨?_, List.forall_mem_singleton.2 ?_⟩⟩
  · rw [hb.name]
    decide
  · intro x hx
    obtain ⟨o, ho, rfl⟩ := List.mem_map.1 hx
    simp [Block.line, Op.newline_not_mem_text (hb.body o ho)]
  · simp [Block.line, Block.newline_not_mem_ending hb]

/-- Only the last line of a function is a brace. -/
theorem Func.brace_not_mem_lines {f : Func} (hf : f.Legible) : ['}'] ∉ f.lines := by
  obtain ⟨b, hblocks, hb⟩ := hf.blocks
  rw [lines, hblocks, List.flatMap_singleton, Block.lines]
  simp [header, Block.line]

/-! ## What the lines show -/

theorem Func.resultText_inj {t u : Ty} (h : resultText t = resultText u) : t = u := by
  unfold resultText at h
  split_ifs at h with ht hu hu
  · rw [ht, hu]
  · cases h
  · cases h
  · simp only [List.cons.injEq, true_and] at h
    exact Ty.name_inj (List.append_cancel_right h)

/-- The text of a parameter. -/
def Func.IsParam (x : List Char) : Prop :=
  ∃ name ty, IsWord name ∧ IsWord ty ∧ x = name ++ ':' :: ' ' :: ty

theorem Func.readable_param : Readable IsParam where
  head := by
    rintro _ ⟨name, ty, hname, hty, rfl⟩
    obtain ⟨c, hc, hne⟩ := (IsToken.word hname).head (d := ')') rfl (by decide)
    exact ⟨c, by rw [List.head?_append, hc]; rfl, hne⟩
  inj := by
    rintro _ _ r s ⟨name, ty, hname, hty, rfl⟩ ⟨name', ty', hname', hty', rfl⟩ hr hs h
    simp only [List.append_assoc, List.cons_append] at h
    obtain ⟨hnames, h⟩ := word_append_inj hname hname' (.cons _ rfl) (.cons _ rfl) h
    simp only [List.cons.injEq, true_and] at h
    obtain ⟨htys, hrest⟩ := word_append_inj hty hty' hr hs h
    exact ⟨by rw [hnames, htys], hrest⟩

theorem Func.paramText_inj {x y : Variable} (hx : isIdentifier x.name = true)
    (hy : isIdentifier y.name = true) (h : paramText x = paramText y) : x = y := by
  obtain ⟨hname, h⟩ := word_append_inj (isWord_of_isIdentifier hx) (isWord_of_isIdentifier hy)
    (.cons _ rfl) (.cons _ rfl) h
  simp only [List.cons.injEq, true_and] at h
  exact congrArg₂ Variable.mk (String.toList_inj.1 hname) (Ty.name_inj h)

/-- A header shows the name, the parameters and the result. -/
theorem Func.eq_of_header {f g : Func} (hf : f.Legible) (hg : g.Legible) (h : f.header = g.header) :
    f.name = g.name ∧ f.params = g.params ∧ f.result = g.result := by
  have hparam : ∀ {xs : List Variable}, (∀ x ∈ xs, isIdentifier x.name = true) →
      ∀ x ∈ xs.map paramText, IsParam x := by
    intro xs hxs x hx
    obtain ⟨p, hp, rfl⟩ := List.mem_map.1 hx
    exact ⟨_, _, isWord_of_isIdentifier (hxs p hp), p.ty.isWord_name, rfl⟩
  simp only [header, List.cons.injEq, true_and] at h
  obtain ⟨hname, h⟩ := word_append_inj (isWord_of_isIdentifier hf.name)
    (isWord_of_isIdentifier hg.name) (.cons _ rfl) (.cons _ rfl) h
  obtain ⟨hparams, hresult⟩ := intercalate_append_inj readable_param (hparam hf.params)
    (hparam hg.params) (List.cons.inj h).2
  have hparams := map_eq_map_of_imp (g := id)
    (fun x hx y hy => paramText_inj (hf.params x hx) (hg.params y hy)) hparams
  rw [List.map_id, List.map_id] at hparams
  exact ⟨String.toList_inj.1 hname, hparams, resultText_inj hresult⟩

theorem Instruction.toList_text_ret (v : Option Value) : (Instruction.ret v).text.toList =
    'r' :: 'e' :: 't' :: v.elim [] fun v => ' ' :: v.text.toList := by
  cases v with
  | none => rfl
  | some v =>
    change ("ret " ++ v.text).toList = _
    simp

/-- The last line shows whether there is a return, and what it gives back. -/
theorem Block.shown_eq_of_ending {b c : Block} (hb : b.Legible) (hc : c.Legible)
    (h : b.ending.toList = c.ending.toList) :
    b.terminator.map (·.val.map Value.shown) = c.terminator.map (·.val.map Value.shown) := by
  have hret : ∀ t : Located (Option Value),
      (Instruction.ret t.val).text.toList ≠ "<unterminated>".toList := by
    intro t
    rw [Instruction.toList_text_ret]
    nofun
  unfold ending at h
  cases hbt : b.terminator with
  | none =>
    cases hct : c.terminator with
    | none => rfl
    | some u =>
      rw [hbt, hct] at h
      exact (hret u h.symm).elim
  | some t =>
    cases hct : c.terminator with
    | none =>
      rw [hbt, hct] at h
      exact (hret t h).elim
    | some u =>
      rw [hbt, hct] at h
      simp only [Instruction.toList_text_ret, List.cons.injEq, true_and] at h
      obtain ⟨_ | v, span⟩ := t
      · obtain ⟨_ | w, span'⟩ := u
        · rfl
        · cases h
      · obtain ⟨_ | w, span'⟩ := u
        · cases h
        · have hvw := Value.shown_eq_of_text (hb.terminator _ hbt v rfl) (hc.terminator _ hct w rfl)
            (List.cons.inj h).2
          simp [hvw]

/-- The lines of a function show all of it but the types of operands, and where it stands. -/
theorem Func.shown_eq_of_lines {f g : Func} {b c : Block} (hf : f.Legible) (hg : g.Legible)
    (hb : f.blocks = [b]) (hc : g.blocks = [c]) (h : f.lines = g.lines) :
    (f.name = g.name ∧ f.params = g.params ∧ f.result = g.result) ∧ b.name = c.name ∧
      b.body.map (·.val.shown) = c.body.map (·.val.shown) ∧
      b.terminator.map (·.val.map Value.shown) = c.terminator.map (·.val.map Value.shown) := by
  have hbl : b.Legible := by
    obtain ⟨b', hb', hbl⟩ := hf.blocks
    cases hb.symm.trans hb'
    exact hbl
  have hcl : c.Legible := by
    obtain ⟨c', hc', hcl⟩ := hg.blocks
    cases hc.symm.trans hc'
    exact hcl
  rw [lines, lines, hb, hc, List.flatMap_singleton, List.flatMap_singleton, Block.lines,
    Block.lines] at h
  obtain ⟨hheader, h⟩ := List.cons.inj (List.cons.inj h).2
  obtain ⟨hbody, hending⟩ := List.append_inj' (List.cons.inj h).2 rfl
  have hline : ∀ {s t : String}, Block.line s = Block.line t → s.toList = t.toList := by
    intro s t h
    simpa [Block.line] using h
  refine ⟨eq_of_header hf hg hheader, hbl.name.trans hcl.name.symm, ?_, ?_⟩
  · refine map_eq_map_of_imp (fun o ho p hp hop => ?_) hbody
    exact Op.shown_eq_of_text (hbl.body o ho) (hcl.body p hp) (hline hop)
  · exact Block.shown_eq_of_ending hbl hcl (hline (List.cons.inj hending).1)

/-- The text of a module shows its name and the lines of its functions. -/
theorem Module.lines_eq_of_text {m n : Module} (hm : isIdentifier m.name = true)
    (hn : isIdentifier n.name = true) (hf : ∀ f ∈ m.functions, f.Legible)
    (hg : ∀ g ∈ n.functions, g.Legible) (h : m.text = n.text) :
    m.name = n.name ∧ m.functions.map Func.lines = n.functions.map Func.lines := by
  have hnewline : ∀ {m : Module}, isIdentifier m.name = true → (∀ f ∈ m.functions, f.Legible) →
      ∀ x ∈ m.lines, '\n' ∉ x := by
    intro m hm hf
    refine List.forall_mem_cons.2 ⟨?_, ?_⟩
    · simp [(isWord_of_isIdentifier hm).newline_not_mem]
    · intro x hx
      obtain ⟨f, hmem, hx⟩ := List.mem_flatMap.1 hx
      rcases List.mem_append.1 hx with hx | hx
      · exact Func.newline_not_mem_lines (hf f hmem) x hx
      · rw [List.mem_singleton.1 hx]
        decide
  have h := congrArg String.toList h
  rw [toList_text, toList_text] at h
  have h := flatMap_concat_inj (hnewline hm hf) (hnewline hn hg) h
  obtain ⟨hname, h⟩ := List.cons.inj h
  have hbrace : ∀ {fs : List Func}, (∀ f ∈ fs, f.Legible) → ∀ x ∈ fs.map Func.lines, ['}'] ∉ x := by
    intro fs hfs x hx
    obtain ⟨f, hmem, rfl⟩ := List.mem_map.1 hx
    exact Func.brace_not_mem_lines (hfs f hmem)
  refine ⟨String.toList_inj.1 (List.append_cancel_left hname), ?_⟩
  refine flatMap_concat_inj (hbrace hf) (hbrace hg) ?_
  rw [List.flatMap_map, List.flatMap_map]
  exact h

end Straightline.IR
