import Mathlib.Algebra.Group.Nat.Defs
import Straightline.Proofs.Text.Trimming
import Straightline.Target.Description

/-!
What a target description says, read off its lines without going through them in order. Each line
stands under the nearest heading before it, the heading and its key say which field it sets, and of
several lines that set one field the last one counts.
-/
namespace Straightline.Target.Description

open Text

/-! ## Lines -/

def lines (text : String) : List (List Char) := splitLines text.toList

/-- The line is empty or a comment. -/
def isSilent (l : List Char) : Bool := (trim l).isEmpty || (trim l).head? = some '#'

def isHeading (l : List Char) : Bool := (trim l).head? = some '[' && (trim l).getLast? = some ']'

/-- The text in the brackets of a heading. -/
def headingOf (l : List Char) : String := .ofList (trim (trim l).tail.dropLast)

/-- The line has to set something. -/
def isPlain (l : List Char) : Bool := !isSilent l && !isHeading l

/-- What stands before the first equality sign. -/
def keyOf (l : List Char) : String := .ofList (trim (l.takeWhile (· ≠ '=')))

/-- What stands after the first equality sign. -/
def valueOf (l : List Char) : List Char := trim (l.dropWhile (· ≠ '=')).tail

/-- The heading in force after some lines, where `h` was in force before them. -/
def headingAfter (h : String) (ls : List (List Char)) : String :=
  ((ls.filter isHeading).getLast?.map headingOf).getD h

/-- The lines, each with the heading it stands under. -/
def placed (h : String) (ls : List (List Char)) : List (String × List Char) :=
  ls.mapIdx fun i l => (headingAfter h (ls.take i), l)

variable {h : String} {l : List Char} {ls ms : List (List Char)} {x : String × List Char}

theorem ofLine_eq (l : List Char) : Entry.ofLine l =
    if isSilent l then .blank
    else if isHeading l then .heading (headingOf l)
    else if '=' ∈ l then .setting (keyOf l) (valueOf l)
    else .other (.ofList (trim l)) := by
  have hmem : (trim l).contains '=' = true ↔ '=' ∈ l :=
    List.contains_iff_mem.trans (mem_strip_iff (by decide))
  simp only [Entry.ofLine, hmem]
  by_cases heq : '=' ∈ l
  · have hparts : trim ((trim l).takeWhile (· ≠ '=')) = trim (l.takeWhile (· ≠ '=')) ∧
        trim ((trim l).dropWhile (· ≠ '=')).tail = trim (l.dropWhile (· ≠ '=')).tail :=
      strip_divided (by decide) heq
    rw [hparts.1, hparts.2]
    rfl
  · rw [if_neg heq, if_neg heq]
    rfl

theorem isHeading_of_isSilent (hl : isSilent l = true) : isHeading l = false := by
  simp only [isSilent, Bool.or_eq_true, List.isEmpty_iff, decide_eq_true_eq] at hl
  rcases hl with hl | hl <;> simp [isHeading, hl]

theorem isPlain_iff : isPlain l = true ↔ isSilent l = false ∧ isHeading l = false := by
  simp [isPlain]

theorem headingAfter_append :
    headingAfter h (ls ++ ms) = headingAfter (headingAfter h ls) ms := by
  simp only [headingAfter, List.filter_append, List.getLast?_append]
  cases (ms.filter isHeading).getLast? <;> rfl

theorem headingAfter_singleton :
    headingAfter h [l] = if isHeading l then headingOf l else h := by
  unfold headingAfter
  split <;> simp [*]

theorem placed_cons : placed h (l :: ls) = (h, l) :: placed (headingAfter h [l]) ls := by
  rw [placed, List.mapIdx_cons]
  simp only [List.take_succ_cons]
  congr 1
  refine congrFun (congrArg List.mapIdx ?_) ls
  funext i m
  rw [← List.singleton_append, headingAfter_append]

theorem placed_append : placed h (ls ++ ms) = placed h ls ++ placed (headingAfter h ls) ms := by
  induction ls generalizing h with
  | nil => rfl
  | cons l ls ih =>
    rw [List.cons_append, placed_cons, placed_cons, ih, List.cons_append, ← headingAfter_append,
      List.singleton_append]

theorem headingAfter_of_no_heading (hls : ∀ l ∈ ls, isHeading l = false) :
    headingAfter h ls = h := by
  rw [headingAfter, List.filter_eq_nil_iff.2 (by simpa using hls)]
  rfl

theorem placed_of_no_heading (hls : ∀ l ∈ ls, isHeading l = false) :
    placed h ls = ls.map (h, ·) := by
  induction ls with
  | nil => rfl
  | cons l ls ih =>
    rw [List.forall_mem_cons] at hls
    rw [placed_cons, headingAfter_of_no_heading (by simpa using hls.1), ih hls.2, List.map_cons]

/-- A line stands under a heading that is written before it, or under the one given. -/
theorem heading_of_mem_placed (hx : x ∈ placed h ls) :
    x.1 = h ∨ ∃ l ∈ ls, isHeading l = true ∧ headingOf l = x.1 := by
  induction ls generalizing h with
  | nil => cases hx
  | cons l ls ih =>
    rw [placed_cons, headingAfter_singleton] at hx
    rcases List.mem_cons.1 hx with rfl | hx
    · exact .inl rfl
    · rcases ih hx with hfirst | ⟨m, hm, hheading⟩
      · split at hfirst
        next hl => exact .inr ⟨l, .head _, hl, hfirst.symm⟩
        next => exact .inl hfirst
      · exact .inr ⟨m, .tail _ hm, hheading⟩

/-! ## Fields -/

def Field.heading : Field → String
  | name | displayName | architecture | symbolPrefix | entryPoint => "target"
  | argumentRegisters => "abi"
  | builtin _ => "builtins"

def Field.key : Field → String
  | name => "name"
  | displayName => "display_name"
  | architecture => "architecture"
  | symbolPrefix => "symbol_prefix"
  | entryPoint => "entry_point"
  | argumentRegisters => "argument_registers"
  | builtin n => n

theorem Field.ofKey?_heading_key (f : Field) : ofKey? f.heading f.key = some f := by
  cases f <;> simp [ofKey?, heading, key]

theorem Field.ofKey?_eq_some_iff {key : String} {f : Field} :
    ofKey? h key = some f ↔ h = f.heading ∧ key = f.key := by
  constructor
  · intro hf
    unfold ofKey? at hf
    split_ifs at hf <;> cases hf <;> simp [heading, Field.key, *]
  · rintro ⟨rfl, rfl⟩
    exact f.ofKey?_heading_key

/-- A heading and a key name one field. -/
theorem Field.eq_of_heading_key {key : String} {f g : Field} (hf : h = f.heading ∧ key = f.key)
    (hg : h = g.heading ∧ key = g.key) : f = g :=
  Option.some.inj ((ofKey?_eq_some_iff.2 hf).symm.trans (ofKey?_eq_some_iff.2 hg))

/-- The text spells a number of 64 bits: decimal digits, with or without a plus before them. -/
def Spells (s : List Char) (n : Nat) : Prop :=
  ∃ digits, (s = digits ∨ s = '+' :: digits) ∧ digits ≠ [] ∧
    (∀ c ∈ digits, c.isDigit = true) ∧ Numeral.ofDigits digits = n ∧ n < 2 ^ 64

theorem natural?_eq_some_iff {s : List Char} {n : Nat} : Numeral.natural? s = some n ↔
    s ≠ [] ∧ (∀ c ∈ s, c.isDigit = true) ∧ Numeral.ofDigits s = n := by
  unfold Numeral.natural?
  split
  next hbad =>
    simp only [reduceCtorEq, false_iff]
    rintro ⟨hne, hall, -⟩
    simp [hne, List.all_eq_true.2 hall] at hbad
  next hgood =>
    simp only [Bool.or_eq_true, List.isEmpty_iff, Bool.not_eq_true', not_or,
      Bool.not_eq_false, List.all_eq_true] at hgood
    rw [Option.some.injEq]
    exact ⟨fun hn => ⟨hgood.1, hgood.2, hn⟩, fun hn => hn.2.2⟩

theorem word64?_eq_some_iff {s : List Char} {n : Nat} :
    Numeral.word64? s = some n ↔ Spells s n := by
  have hread : ∀ digits, ((Numeral.natural? digits).bind fun n =>
      if n < UInt64.size then some n else none) = some n ↔
      digits ≠ [] ∧ (∀ c ∈ digits, c.isDigit = true) ∧ Numeral.ofDigits digits = n ∧
        n < 2 ^ 64 := by
    intro digits
    simp only [Option.bind_eq_some_iff, natural?_eq_some_iff, Option.ite_none_right_eq_some,
      Option.some.injEq]
    constructor
    · rintro ⟨m, ⟨hne, hall, rfl⟩, hlt, rfl⟩
      exact ⟨hne, hall, rfl, hlt⟩
    · rintro ⟨hne, hall, rfl, hlt⟩
      exact ⟨_, ⟨hne, hall, rfl⟩, hlt, rfl⟩
  unfold Numeral.word64?
  split
  next rest =>
    refine (hread rest).trans ⟨fun hr => ⟨rest, .inr rfl, hr⟩, ?_⟩
    rintro ⟨digits, rfl | heq, hne, hall, hn⟩
    · cases hall '+' (.head _)
    · obtain rfl := (List.cons.inj heq).2
      exact ⟨hne, hall, hn⟩
  next hplus =>
    refine (hread s).trans ⟨fun hr => ⟨s, .inl rfl, hr⟩, ?_⟩
    rintro ⟨digits, rfl | heq, hr⟩
    · exact hr
    · exact (hplus digits heq).elim

/-- The values that the field can be set to. -/
def Field.Admits : Field → List Char → Prop
  | .architecture, v => unquote v = "arm64" ∨ unquote v = "aarch64"
  | .argumentRegisters, v => ∃ n, Spells v n
  | _, _ => True

/-! ## Settings -/

/-- The line, under its heading, sets the field. -/
def sets (f : Field) (x : String × List Char) : Bool :=
  isPlain x.2 && x.2.contains '=' && x.1 = f.heading && keyOf x.2 = f.key

/-- What the lines, under their headings, set the field to, one after another. -/
def valuesIn (f : Field) (xs : List (String × List Char)) : List (List Char) :=
  (xs.filter (sets f)).map (valueOf ·.2)

/-- What the lines of a description set the field to. -/
def values (ls : List (List Char)) (f : Field) : List (List Char) := valuesIn f (placed "" ls)

/-- The last of the values says what `a` is; it is the default if there is none. -/
def LastSays {α : Type} (means : List Char → α → Prop) (default : α) (vs : List (List Char))
    (a : α) : Prop :=
  match vs.getLast? with
  | some v => means v a
  | none => a = default

/-- The line can be read under its heading. -/
def Legible (x : String × List Char) : Prop :=
  isPlain x.2 = true → '=' ∈ x.2 ∧
    ∃ f : Field, x.1 = f.heading ∧ keyOf x.2 = f.key ∧ f.Admits (valueOf x.2)

theorem sets_iff {f : Field} : sets f x = true ↔
    isPlain x.2 = true ∧ '=' ∈ x.2 ∧ x.1 = f.heading ∧ keyOf x.2 = f.key := by
  simp [sets, and_assoc]

theorem sets_eq_false {f : Field} (hx : isPlain x.2 = false) : sets f x = false := by
  simp [sets, hx]

theorem mem_valuesIn {f : Field} {xs : List (String × List Char)} {v : List Char} :
    v ∈ valuesIn f xs ↔ ∃ x ∈ xs, sets f x = true ∧ valueOf x.2 = v := by
  simp [valuesIn, and_assoc]

theorem valuesIn_cons {f : Field} {xs : List (String × List Char)} : valuesIn f (x :: xs) =
    if sets f x = true then valueOf x.2 :: valuesIn f xs else valuesIn f xs := by
  rw [valuesIn, List.filter_cons]
  split <;> rfl

theorem LastSays.cons {α : Type} {means : List Char → α → Prop} {v : List Char}
    {vs : List (List Char)} {a b : α} (hv : means v b) (hvs : LastSays means b vs a) (default : α) :
    LastSays means default (v :: vs) a := by
  unfold LastSays at *
  rw [List.getLast?_cons]
  cases hlast : vs.getLast? with
  | none =>
    rw [hlast] at hvs
    rw [show a = b from hvs]
    exact hv
  | some w =>
    rw [hlast] at hvs
    exact hvs

end Straightline.Target.Description
