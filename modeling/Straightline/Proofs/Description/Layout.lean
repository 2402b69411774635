import Straightline.Proofs.Description.Lines

/-!
How a target is written down. Its fields are set under three headings, one line for each, with white
space and comments wherever a line has or leaves room for them. Lines so written are told apart, and
say what was put in them.
-/
namespace Straightline.Target.Description

open Text

/-! ## Layout -/

/-- White space within a line. -/
def IsPad (p : List Char) : Prop := ∀ c ∈ p, isBlank c = true ∧ c ≠ '\n'

instance : DecidablePred IsPad := fun p =>
  decidable_of_iff (p.all fun c => isBlank c && c ≠ '\n') (by simp [IsPad])

/-- A line that says nothing. -/
inductive Filler : List Char → Prop
  | blank {p : List Char} (hp : IsPad p) : Filler p
  | comment {p text : List Char} (hp : IsPad p) (htext : '\n' ∉ text) : Filler (p ++ '#' :: text)

/-- A line with a heading. -/
inductive HeadingLine (name : String) : List Char → Prop
  | mk {p q : List Char} (hp : IsPad p) (hq : IsPad q) :
      HeadingLine name (p ++ ('[' :: (name.toList ++ [']']) ++ q))

/-- A line with a key and a value. -/
inductive SettingLine (key : String) (value : List Char) : List Char → Prop
  | mk {p q r s : List Char} (hp : IsPad p) (hq : IsPad q) (hr : IsPad r) (hs : IsPad s) :
      SettingLine key value ((p ++ (key.toList ++ q)) ++ '=' :: (r ++ (value ++ s)))

/-- Lines that set fields one after another. -/
inductive Body : List (Field × List Char) → List (List Char) → Prop
  | nil : Body [] []
  | filler {ss : List (Field × List Char)} {l : List Char} {ls : List (List Char)} (hl : Filler l)
      (hls : Body ss ls) : Body ss (l :: ls)
  | setting {f : Field} {v : List Char} {ss : List (Field × List Char)} {l : List Char}
      {ls : List (List Char)} (hl : SettingLine f.key v l) (hls : Body ss ls) :
      Body ((f, v) :: ss) (l :: ls)

/-- A heading with the settings under it, in any order. -/
inductive Part (heading : String) (settings : List (Field × List Char)) : List (List Char) → Prop
  | mk {l : List Char} {ss : List (Field × List Char)} {ls : List (List Char)}
      (hl : HeadingLine heading l) (hss : ss.Perm settings) (hls : Body ss ls) :
      Part heading settings (l :: ls)

def quoted (s : String) : List Char := '"' :: (s.toList ++ ['"'])

/-- The settings that make up a target, its architecture and its number spelled as given. -/
def settingsOf (t : Target) (arch : String) (digits : List Char) : List (Field × List Char) :=
  [(.name, quoted t.name), (.displayName, quoted t.displayName), (.architecture, quoted arch),
    (.symbolPrefix, quoted t.symbolPrefix), (.entryPoint, quoted t.entryPoint),
    (.argumentRegisters, digits)] ++ t.builtins.entries.map fun e => (.builtin e.1, quoted e.2)

/-- The texts that describe a target: all its settings, each under its heading, and nothing else
that says anything. -/
inductive Written (t : Target) : String → Prop
  | mk {arch : String} {digits : List Char} {front : List (List Char)} {headings : List String}
      {parts : List (List (List Char))} (harch : architecture? arch = some t.architecture)
      (hne : digits ≠ []) (hdigits : ∀ c ∈ digits, c.isDigit = true)
      (hvalue : Numeral.ofDigits digits = t.argumentRegisters) (hfront : ∀ l ∈ front, Filler l)
      (hheadings : headings.Perm ["target", "abi", "builtins"])
      (hparts : List.Forall₂
        (fun h => Part h ((settingsOf t arch digits).filter (·.1.heading = h))) headings parts) :
      Written t (.ofList (['\n'].intercalate (front ++ parts.flatten)))

/-- A text that can stand between quotes. -/
@[mk_iff]
structure IsText (s : String) : Prop where
  newline : '\n' ∉ s.toList
  head : s.toList.head? ≠ some '"'
  last : s.toList.getLast? ≠ some '"'

instance : DecidablePred IsText := fun _ => decidable_of_iff _ (isText_iff _).symm

/-- A name that can stand before an equality sign. -/
@[mk_iff]
structure IsKey (s : String) : Prop where
  newline : '\n' ∉ s.toList
  equals : '=' ∉ s.toList
  trimmed : trim s.toList = s.toList
  head : s.toList.head? ≠ some '#'

instance : DecidablePred IsKey := fun _ => decidable_of_iff _ (isKey_iff _).symm

/-- A target that can be described. -/
@[mk_iff]
structure Describable (t : Target) : Prop where
  name : t.name ≠ ""
  entryPoint : t.entryPoint ≠ ""
  argumentRegisters : t.argumentRegisters < 2 ^ 64
  builtins : t.builtins.entries ≠ []
  texts : ∀ s ∈ [t.name, t.displayName, t.symbolPrefix, t.entryPoint], IsText s
  names : ∀ e ∈ t.builtins.entries, IsKey e.1
  symbols : ∀ e ∈ t.builtins.entries, IsText e.2

instance : DecidablePred Describable := fun _ => decidable_of_iff _ (describable_iff _).symm

/-! ## Lines as they are read -/

variable {p q : List Char} {l v : List Char} {key : String}

theorem IsPad.blank (hp : IsPad p) : ∀ c ∈ p, isBlank c = true := fun c hc => (hp c hc).1

theorem IsPad.newline (hp : IsPad p) : '\n' ∉ p := fun h => (hp _ h).2 rfl

theorem IsPad.not_mem (hp : IsPad p) {c : Char} (hc : isBlank c = false) : c ∉ p := by
  intro h
  cases hc.symm.trans (hp c h).1

theorem Filler.isSilent (hl : Filler l) : isSilent l = true := by
  cases hl with
  | blank hp =>
    have htrim : trim l = [] := strip_of_forall hp.blank
    simp [Description.isSilent, htrim]
  | @comment p text hp htext =>
    have hhead : (trim (p ++ '#' :: text)).head? = some '#' := by
      rw [trim, strip_append_left hp.blank]
      exact head?_strip_cons (by decide)
    simp [Description.isSilent, hhead]

theorem Filler.newline (hl : Filler l) : '\n' ∉ l := by
  cases hl with
  | blank hp => exact hp.newline
  | comment hp htext => simp [hp.newline, htext]

theorem HeadingLine.trim_eq (hl : HeadingLine key l) : trim l = '[' :: (key.toList ++ [']']) := by
  cases hl with
  | mk hp hq =>
    rw [trim, strip_append_left hp.blank, strip_append_right hq.blank]
    exact strip_concat (x := '[' :: key.toList) (by decide)

theorem HeadingLine.isHeading (hl : HeadingLine key l) : isHeading l = true := by
  have hlast : ('[' :: (key.toList ++ [']'])).getLast? = some ']' :=
    List.getLast?_concat (l := '[' :: key.toList)
  simp [Description.isHeading, hl.trim_eq, hlast]

theorem HeadingLine.headingOf_eq (hl : HeadingLine key l) (hkey : trim key.toList = key.toList) :
    headingOf l = key := by
  rw [headingOf, hl.trim_eq, List.tail_cons, List.dropLast_concat, hkey, String.ofList_toList]

theorem HeadingLine.newline (hl : HeadingLine key l) (hkey : '\n' ∉ key.toList) : '\n' ∉ l := by
  cases hl with
  | mk hp hq => simp [hp.newline, hq.newline, hkey]

/-- A value that can stand after an equality sign. -/
structure IsValue (v : List Char) : Prop where
  newline : '\n' ∉ v
  trimmed : trim v = v
  last : ∃ w c, v = w ++ [c] ∧ isBlank c = false ∧ c ≠ ']'

/-- No key begins a comment. -/
theorem IsKey.head?_dropWhile (hkey : IsKey key) (hq : IsPad q) (x : List Char) :
    ∃ a, (((key.toList ++ q) ++ '=' :: x).dropWhile isBlank).head? = some a ∧ a ≠ '#' := by
  cases hk : key.toList with
  | nil =>
    refine ⟨'=', ?_, by decide⟩
    rw [List.nil_append, List.dropWhile_append_of_pos hq.blank]
    rfl
  | cons a k =>
    have htrimmed := hkey.trimmed
    have hhead := hkey.head
    rw [hk] at htrimmed hhead
    refine ⟨a, ?_, by simpa using hhead⟩
    rw [List.cons_append, List.cons_append, List.dropWhile_cons_of_neg]
    · rfl
    · simp [eq_false_of_strip_cons htrimmed]

/-- Trimmed, the line of a setting neither begins a comment nor ends a heading. -/
theorem SettingLine.exists_trim (hl : SettingLine key v l) (hkey : IsKey key) (hv : IsValue v) :
    ∃ a x c, trim l = x ++ [c] ∧ x.head? = some a ∧ a ≠ '#' ∧ c ≠ ']' := by
  cases hl with
  | @mk p q r s hp hq hr hs =>
    obtain ⟨w, c, rfl, hblank, hbracket⟩ := hv.last
    obtain ⟨a, ha, hne⟩ := hkey.head?_dropWhile hq (r ++ w)
    refine ⟨a, _, c, ?_, ha, hne, hbracket⟩
    rw [← strip_concat hblank, ← strip_append_right hs.blank, ← strip_append_left hp.blank]
    simp [trim]

theorem SettingLine.isPlain (hl : SettingLine key v l) (hkey : IsKey key) (hv : IsValue v) :
    isPlain l = true := by
  obtain ⟨a, x, c, htrim, ha, hne, hbracket⟩ := hl.exists_trim hkey hv
  simp [Description.isPlain, isSilent, Description.isHeading, htrim, List.head?_append, ha, hne,
    hbracket]

theorem IsKey.equals_not_mem (hkey : IsKey key) (hp : IsPad p) (hq : IsPad q) :
    '=' ∉ p ++ (key.toList ++ q) := by
  simp [hp.not_mem (c := '=') (by decide), hq.not_mem (c := '=') (by decide), hkey.equals]

theorem SettingLine.keyOf_eq (hl : SettingLine key v l) (hkey : IsKey key) : keyOf l = key := by
  cases hl with
  | @mk p q r s hp hq hr hs =>
    rw [keyOf, (divide_append (hkey.equals_not_mem hp hq)).1, trim, strip_append_left hp.blank,
      strip_append_right hq.blank]
    exact (congrArg String.ofList hkey.trimmed).trans String.ofList_toList

theorem SettingLine.valueOf_eq (hl : SettingLine key v l) (hkey : IsKey key) (hv : IsValue v) :
    valueOf l = v := by
  cases hl with
  | @mk p q r s hp hq hr hs =>
    rw [valueOf, (divide_append (hkey.equals_not_mem hp hq)).2, List.tail_cons, trim,
      strip_append_left hr.blank, strip_append_right hs.blank]
    exact hv.trimmed

theorem SettingLine.equals (hl : SettingLine key v l) : '=' ∈ l := by
  cases hl with
  | mk => simp

theorem SettingLine.newline (hl : SettingLine key v l) (hkey : IsKey key) (hv : IsValue v) :
    '\n' ∉ l := by
  cases hl with
  | mk hp hq hr hs =>
    simp [hp.newline, hq.newline, hr.newline, hs.newline, hkey.newline, hv.newline]

theorem isValue_quoted {s : String} (hs : '\n' ∉ s.toList) : IsValue (quoted s) where
  newline := by simp [quoted, hs]
  trimmed := by
    refine strip_eq_self ?_ ?_
    · rintro c ⟨⟩
      decide
    · rintro c hc
      have hlast : (quoted s).getLast? = some '"' := List.getLast?_concat (l := '"' :: s.toList)
      obtain rfl := Option.some.inj (hlast.symm.trans hc)
      decide
  last := ⟨'"' :: s.toList, '"', rfl, by decide, by decide⟩

theorem isBlank_of_isDigit {c : Char} (hc : c.isDigit = true) : isBlank c = false := by
  have hrange : 48 ≤ c.toNat ∧ c.toNat ≤ 57 := by
    simpa [Char.isDigit, UInt32.le_iff_toNat_le] using hc
  simp only [isBlank, inRanges, blankRanges, List.any_cons, List.any_nil, Bool.or_false,
    Bool.or_eq_false_iff, Bool.and_eq_false_iff, decide_eq_false_iff_not]
  omega

theorem isValue_digits {digits : List Char} (hne : digits ≠ [])
    (hdigits : ∀ c ∈ digits, c.isDigit = true) : IsValue digits where
  newline h := nomatch hdigits _ h
  trimmed := by
    refine strip_eq_self (fun c hc => ?_) (fun c hc => ?_)
    · exact isBlank_of_isDigit (hdigits c (List.mem_of_mem_head? hc))
    · exact isBlank_of_isDigit (hdigits c (List.mem_of_mem_getLast? hc))
  last := by
    have hlast := hdigits _ (List.getLast_mem hne)
    refine ⟨digits.dropLast, digits.getLast hne, (List.dropLast_append_getLast hne).symm,
      isBlank_of_isDigit hlast, fun h => ?_⟩
    rw [h] at hlast
    cases hlast

theorem unquote_quoted {s : String} (hs : IsText s) : unquote (quoted s) = s := by
  have hstrip : strip (· = '"') (quoted s) = s.toList := by
    have hend : quoted s = ['"'] ++ (s.toList ++ ['"']) := rfl
    rw [hend, strip_append_left (by simp), strip_append_right (by simp)]
    refine strip_eq_self (fun c hc => ?_) (fun c hc => ?_)
    · exact decide_eq_false fun h => hs.head (h ▸ hc)
    · exact decide_eq_false fun h => hs.last (h ▸ hc)
  rw [unquote, hstrip, String.ofList_toList]

/-! ## Texts as they are divided -/

theorem splitLines_of_not_mem (hl : '\n' ∉ l) : splitLines l = [l] := by
  induction l with
  | nil => rfl
  | cons c l ih =>
    rw [List.mem_cons, not_or] at hl
    rw [splitLines, if_neg (Ne.symm hl.1), ih hl.2]

theorem splitLines_append (hl : '\n' ∉ l) (rest : List Char) :
    splitLines (l ++ '\n' :: rest) = l :: splitLines rest := by
  induction l with
  | nil => rfl
  | cons c l ih =>
    rw [List.mem_cons, not_or] at hl
    rw [List.cons_append, splitLines, if_neg (Ne.symm hl.1), ih hl.2]

theorem splitLines_intercalate {ls : List (List Char)} (hne : ls ≠ []) (hls : ∀ l ∈ ls, '\n' ∉ l) :
    splitLines (['\n'].intercalate ls) = ls := by
  induction ls with
  | nil => exact (hne rfl).elim
  | cons l ls ih =>
    rw [List.forall_mem_cons] at hls
    cases ls with
    | nil => rw [List.intercalate_singleton, splitLines_of_not_mem hls.1]
    | cons m ls =>
      rw [List.intercalate_cons_cons, List.append_assoc, List.singleton_append,
        splitLines_append hls.1, ih (List.cons_ne_nil _ _) hls.2]

end Straightline.Target.Description
