import Mathlib.Data.List.Basic
import Straightline.Numeral.Integer
import Straightline.Text.Quoted

/-!
Texts that can be read back. A word ends where a character follows that no word has, and a quoted
string ends at its closing quote; so a text that is made of these, of lists of them and of lines has
its parts where they were put.
-/
namespace Straightline.Text

section Lists

variable {α β γ : Type}

/-- A part is read up to the first sign that it cannot have. -/
theorem takeWhile_append_stop {p : α → Bool} {x r : List α} (hx : ∀ a ∈ x, p a = true)
    (hr : ∀ a ∈ r.head?, p a = false) :
    (x ++ r).takeWhile p = x ∧ (x ++ r).dropWhile p = r := by
  rw [List.takeWhile_append_of_pos hx, List.dropWhile_append_of_pos hx]
  cases r with
  | nil => simp
  | cons a r => simp [hr a rfl]

theorem append_inj_of_stop {p : α → Bool} {x y r s : List α} (hx : ∀ a ∈ x, p a = true)
    (hy : ∀ a ∈ y, p a = true) (hr : ∀ a ∈ r.head?, p a = false) (hs : ∀ a ∈ s.head?, p a = false)
    (h : x ++ r = y ++ s) : x = y ∧ r = s := by
  obtain ⟨hx, hr⟩ := takeWhile_append_stop hx hr
  obtain ⟨hy, hs⟩ := takeWhile_append_stop hy hs
  rw [h] at hx hr
  exact ⟨hx.symm.trans hy, hr.symm.trans hs⟩

theorem append_ne_of_head? {a b : α} {x y : List α} (hx : x.head? = some a) (hy : y.head? = some b)
    (hab : a ≠ b) (r s : List α) : x ++ r ≠ y ++ s := by
  intro h
  have hhead := congrArg List.head? h
  rw [List.head?_append, List.head?_append, hx, hy] at hhead
  exact hab (Option.some.inj hhead)

/-- Where each list is closed by a sign that it does not hold, the lists can be told from their
concatenation. -/
theorem flatMap_concat_inj [DecidableEq α] {a : α} {xs ys : List (List α)} (hx : ∀ x ∈ xs, a ∉ x)
    (hy : ∀ y ∈ ys, a ∉ y) (h : xs.flatMap (· ++ [a]) = ys.flatMap (· ++ [a])) : xs = ys := by
  induction xs generalizing ys with
  | nil =>
    cases ys with
    | nil => rfl
    | cons y ys => simp at h
  | cons x xs ih =>
    cases ys with
    | nil => simp at h
    | cons y ys =>
      obtain ⟨hax, hxs⟩ := List.forall_mem_cons.1 hx
      obtain ⟨hay, hys⟩ := List.forall_mem_cons.1 hy
      simp only [List.flatMap_cons, List.append_assoc, List.singleton_append] at h
      have hne : ∀ {z : List α}, a ∉ z → ∀ b ∈ z, decide (b ≠ a) = true := by
        intro z hz b hb
        exact decide_eq_true fun hba => hz (hba ▸ hb)
      obtain ⟨rfl, hrest⟩ := append_inj_of_stop (hne hax) (hne hay) (by simp) (by simp) h
      rw [ih hxs hys (List.cons.inj hrest).2]

/-- What is the same for members that look the same is the same for lists that look the same. -/
theorem map_eq_map_of_imp {f : α → β} {g : α → γ} {xs ys : List α}
    (himp : ∀ x ∈ xs, ∀ y ∈ ys, f x = f y → g x = g y) (h : xs.map f = ys.map f) :
    xs.map g = ys.map g := by
  induction xs generalizing ys with
  | nil => rw [List.map_eq_nil_iff.1 h.symm]
  | cons x xs ih =>
    cases ys with
    | nil => cases h
    | cons y ys =>
      obtain ⟨hxy, h⟩ := List.cons.inj h
      have hrest := ih (fun x hx y hy => himp x (.tail _ hx) y (.tail _ hy)) h
      rw [List.map_cons, List.map_cons, himp x (.head _) y (.head _) hxy, hrest]

end Lists

/-! ## Words -/

/-- The characters of names, numbers and keywords. -/
def isWordChar (c : Char) : Bool := c.isAlphanum || c = '_' || c = '%' || c = '-'

structure IsWord (x : List Char) : Prop where
  ne_nil : x ≠ []
  chars : ∀ c ∈ x, isWordChar c = true

theorem IsWord.of_all {x : List Char} (hne : x ≠ []) (hall : x.all isWordChar = true) : IsWord x :=
  ⟨hne, List.all_eq_true.1 hall⟩

/-- No word goes on into the text. -/
def Stops (x : List Char) : Prop := ∀ c ∈ x.head?, isWordChar c = false

variable {x y r s : List Char}

theorem Stops.cons {c : Char} (r : List Char) (hc : isWordChar c = false) : Stops (c :: r) := by
  rintro d ⟨⟩
  exact hc

theorem word_append_inj (hx : IsWord x) (hy : IsWord y) (hr : Stops r) (hs : Stops s)
    (h : x ++ r = y ++ s) : x = y ∧ r = s :=
  append_inj_of_stop hx.chars hy.chars hr hs h

theorem IsWord.head (hx : IsWord x) : ∃ c, x.head? = some c ∧ isWordChar c = true := by
  obtain ⟨c, rest, rfl⟩ := List.exists_cons_of_ne_nil hx.ne_nil
  exact ⟨c, rfl, hx.chars c (.head _)⟩

/-! ## Numbers -/

theorem isDigit_of_mem_repr {n : Nat} {c : Char} (h : c ∈ n.repr.toList) : c.isDigit = true := by
  rw [Nat.toList_repr] at h
  exact Nat.isDigit_of_mem_toDigits (by decide) (by decide) h

theorem exists_digit_repr (n : Nat) : ∃ c rest, n.repr.toList = c :: rest ∧ c.isDigit = true := by
  have hne : n.repr.toList ≠ [] := by
    rw [Nat.toList_repr]
    exact Nat.toDigits_ne_nil
  obtain ⟨c, rest, hc⟩ := List.exists_cons_of_ne_nil hne
  exact ⟨c, rest, hc, isDigit_of_mem_repr (hc ▸ List.mem_cons_self)⟩

theorem natural?_repr (n : Nat) : Numeral.natural? n.repr.toList = some n := by
  obtain ⟨c, rest, hc, -⟩ := exists_digit_repr n
  have hne : n.repr.toList.isEmpty = false := by rw [hc]; rfl
  have hall : n.repr.toList.all Char.isDigit = true :=
    List.all_eq_true.2 fun _ => isDigit_of_mem_repr
  have hvalue : Numeral.ofDigits n.repr.toList = n := by
    rw [Nat.toList_repr, Numeral.ofDigits, ← Nat.ofDigitChars_eq_foldl]
    exact Nat.ofDigitChars_ten_toDigits
  rw [Numeral.natural?, hne, hall, hvalue]
  rfl

theorem nat_repr_inj {m n : Nat} (h : m.repr.toList = n.repr.toList) : m = n := by
  have hread := natural?_repr m
  rw [h, natural?_repr] at hread
  exact (Option.some.inj hread).symm

/-- Digits, after a sign if the number is negative. -/
theorem toList_int_repr (n : Int) :
    n.repr.toList = (if n < 0 then ['-'] else []) ++ n.natAbs.repr.toList := by
  cases n with
  | ofNat k => rfl
  | negSucc k => simp [Int.repr]

theorem int_repr_inj {m n : Int} (h : m.repr.toList = n.repr.toList) : m = n := by
  have hsign : ∀ {j k : Nat}, '-' :: j.repr.toList ≠ k.repr.toList := by
    intro j k h
    obtain ⟨c, rest, hc, hdigit⟩ := exists_digit_repr k
    rw [hc] at h
    cases h
    cases hdigit
  rw [toList_int_repr, toList_int_repr] at h
  split_ifs at h with hm hn hn
  · have habs := nat_repr_inj (List.cons.inj h).2
    omega
  · exact (hsign h).elim
  · exact (hsign h.symm).elim
  · have habs := nat_repr_inj h
    omega

theorem isWordChar_of_mem_repr {n : Nat} {c : Char} (h : c ∈ n.repr.toList) :
    isWordChar c = true := by
  simp [isWordChar, Char.isAlphanum, isDigit_of_mem_repr h]

/-! ## Quoted strings -/

/-- The value of a hexadecimal digit. -/
def hexValue (c : Char) : Nat := if c.isDigit then c.toNat - 48 else c.toNat - 87

def ofHex (cs : List Char) : Nat := cs.foldl (fun n c => 16 * n + hexValue c) 0

theorem hexValue_digitChar : ∀ k < 16, hexValue k.digitChar = k := by decide

theorem isAlphanum_digitChar : ∀ k < 16, k.digitChar.isAlphanum = true := by decide

theorem isAlphanum_of_mem_toDigits {n : Nat} {c : Char} (h : c ∈ Nat.toDigits 16 n) :
    c.isAlphanum = true := by
  induction n using Nat.strongRecOn with
  | _ n ih =>
    by_cases hn : n < 16
    · rw [Nat.toDigits_of_lt_base hn, List.mem_singleton] at h
      exact h ▸ isAlphanum_digitChar n hn
    · rw [Nat.toDigits_of_base_le (by omega) (by omega), List.mem_append, List.mem_singleton] at h
      rcases h with h | rfl
      · exact ih (n / 16) (by omega) h
      · exact isAlphanum_digitChar (n % 16) (by omega)

theorem ofHex_toDigits (n : Nat) : ofHex (Nat.toDigits 16 n) = n := by
  induction n using Nat.strongRecOn with
  | _ n ih =>
    by_cases hn : n < 16
    · rw [Nat.toDigits_of_lt_base hn]
      simp [ofHex, hexValue_digitChar n hn]
    · have hrest := ih (n / 16) (by omega)
      have hlast := hexValue_digitChar (n % 16) (by omega)
      unfold ofHex at hrest ⊢
      rw [Nat.toDigits_of_base_le (by omega) (by omega), List.foldl_append, hrest, List.foldl_cons,
        List.foldl_nil, hlast]
      omega

/-- The character that a single one after the backslash stands for. -/
def unescaped : Char → Char
  | '0' => '\x00'
  | 't' => '\t'
  | 'r' => '\r'
  | 'n' => '\n'
  | c => c

/-- Reads one character of a quoted string. -/
def unescape : List Char → Option (Char × List Char)
  | '\\' :: 'u' :: '{' :: r =>
    some (Char.ofNat (ofHex (r.takeWhile (· ≠ '}'))), (r.dropWhile (· ≠ '}')).tail)
  | '\\' :: c :: r => some (unescaped c, r)
  | c :: r => some (c, r)
  | [] => none

theorem unescape_escape (c : Char) (r : List Char) : unescape (escape c ++ r) = some (c, r) := by
  unfold escape
  split_ifs with h0 ht hr hn hq hb hself
  · subst h0; rfl
  · subst ht; rfl
  · subst hr; rfl
  · subst hn; rfl
  · subst hq; rfl
  · subst hb; rfl
  · simp [unescape, hb]
  · have hdigits : ∀ d ∈ Nat.toDigits 16 c.toNat, decide (d ≠ '}') = true := by
      intro d hd
      refine decide_eq_true ?_
      rintro rfl
      cases isAlphanum_of_mem_toDigits hd
    obtain ⟨htake, hdrop⟩ := takeWhile_append_stop (r := '}' :: r) hdigits (by simp)
    simp only [List.cons_append, List.append_assoc, List.nil_append, unescape]
    rw [htake, hdrop, ofHex_toDigits, Char.ofNat_toNat, List.tail_cons]

theorem escape_append_inj {c d : Char} (h : escape c ++ r = escape d ++ s) : c = d ∧ r = s := by
  have hread := unescape_escape c r
  rw [h, unescape_escape] at hread
  obtain ⟨rfl, rfl⟩ := Prod.mk.inj (Option.some.inj hread)
  exact ⟨rfl, rfl⟩

theorem head?_escape (c : Char) : ∃ d, (escape c).head? = some d ∧ d ≠ '"' := by
  unfold escape
  split_ifs with h0 ht hr hn hq hb hself <;> first | exact ⟨'\\', rfl, nofun⟩ | exact ⟨c, rfl, hq⟩

/-- A quoted string ends at the first quote that is not escaped. -/
theorem flatMap_escape_inj {cs ds : List Char}
    (h : cs.flatMap escape ++ '"' :: r = ds.flatMap escape ++ '"' :: s) : cs = ds ∧ r = s := by
  have hquote : ∀ {c : Char} {t u : List Char}, escape c ++ u ≠ '"' :: t := by
    intro c t u
    obtain ⟨d, hd, hne⟩ := head?_escape c
    exact append_ne_of_head? (y := ['"']) hd rfl hne u t
  induction cs generalizing ds with
  | nil =>
    cases ds with
    | nil => exact ⟨rfl, (List.cons.inj h).2⟩
    | cons d ds =>
      rw [List.flatMap_cons, List.append_assoc] at h
      exact (hquote h.symm).elim
  | cons c cs ih =>
    rw [List.flatMap_cons, List.append_assoc] at h
    cases ds with
    | nil => exact (hquote h).elim
    | cons d ds =>
      rw [List.flatMap_cons, List.append_assoc] at h
      obtain ⟨rfl, hrest⟩ := escape_append_inj h
      obtain ⟨rfl, hr⟩ := ih hrest
      exact ⟨rfl, hr⟩

theorem toList_quote (t : String) :
    (quote t).toList = '"' :: (t.toList.flatMap escape ++ ['"']) := String.toList_ofList

theorem quote_append_inj {t u : String} (h : (quote t).toList ++ r = (quote u).toList ++ s) :
    t = u ∧ r = s := by
  simp only [toList_quote, List.cons_append, List.append_assoc, List.nil_append, List.cons.injEq,
    true_and] at h
  obtain ⟨htu, hr⟩ := flatMap_escape_inj h
  exact ⟨String.toList_inj.1 htu, hr⟩

theorem newline_not_mem_escape (c : Char) : '\n' ∉ escape c := by
  unfold escape
  split_ifs with h0 ht hr hn hq hb hself
  · decide
  · decide
  · decide
  · decide
  · decide
  · decide
  · simpa using Ne.symm hn
  · intro hmem
    simp only [List.mem_cons, List.mem_append, List.not_mem_nil, or_false] at hmem
    rcases hmem with h | h | h | h | h
    · cases h
    · cases h
    · cases h
    · cases isAlphanum_of_mem_toDigits h
    · cases h

/-! ## Tokens and lists of them -/

/-- A word or a quoted string. -/
inductive IsToken (x : List Char) : Prop
  | word (hx : IsWord x)
  | quoted {t : String} (hx : x = (quote t).toList)

theorem IsToken.head (hx : IsToken x) {d : Char} (hd : isWordChar d = false) (hquote : d ≠ '"') :
    ∃ c, x.head? = some c ∧ c ≠ d := by
  cases hx with
  | word hx =>
    obtain ⟨c, hc, hword⟩ := hx.head
    refine ⟨c, hc, ?_⟩
    rintro rfl
    cases hd.symm.trans hword
  | quoted hx => exact ⟨'"', by rw [hx, toList_quote]; rfl, hquote.symm⟩

theorem IsWord.newline_not_mem (hx : IsWord x) : '\n' ∉ x := by
  intro h
  cases hx.chars _ h

theorem IsToken.newline_not_mem (hx : IsToken x) : '\n' ∉ x := by
  cases hx with
  | word hx => exact hx.newline_not_mem
  | quoted hx =>
    rw [hx, toList_quote]
    intro h
    simp only [List.mem_cons, List.mem_append, List.mem_flatMap, List.not_mem_nil, or_false] at h
    rcases h with h | ⟨c, -, h⟩ | h
    · cases h
    · exact newline_not_mem_escape c h
    · cases h

/-- Texts of the kind can be read where no word goes on after them, and none is empty or begins with
what closes a list. -/
structure Readable (T : List Char → Prop) : Prop where
  head : ∀ {x}, T x → ∃ c, x.head? = some c ∧ c ≠ ')'
  inj : ∀ {x y r s}, T x → T y → Stops r → Stops s → x ++ r = y ++ s → x = y ∧ r = s

theorem readable_token : Readable IsToken where
  head hx := hx.head rfl (by decide)
  inj := by
    -- A word does not begin with a quote.
    have hne : ∀ {x : List Char} {t : String} {r s : List Char}, IsWord x →
        x ++ r ≠ (quote t).toList ++ s := by
      intro x t r s hx
      obtain ⟨c, hc, hword⟩ := hx.head
      refine append_ne_of_head? hc (by rw [toList_quote]; rfl) ?_ r s
      rintro rfl
      cases hword
    intro x y r s hx hy hr hs h
    cases hx with
    | word hx =>
      cases hy with
      | word hy => exact word_append_inj hx hy hr hs h
      | quoted hy =>
        rw [hy] at h
        exact (hne hx h).elim
    | quoted hx =>
      rw [hx] at h ⊢
      cases hy with
      | word hy => exact (hne hy h.symm).elim
      | quoted hy =>
        rw [hy] at h ⊢
        obtain ⟨rfl, hrest⟩ := quote_append_inj h
        exact ⟨rfl, hrest⟩

theorem intercalate_cons {α : Type} (sep x : List α) (xs : List (List α)) :
    sep.intercalate (x :: xs) = x ++ xs.flatMap (sep ++ ·) := by
  induction xs generalizing x with
  | nil => simp
  | cons y xs ih => rw [List.intercalate_cons_cons, ih, List.flatMap_cons]; simp

theorem mem_of_mem_intercalate {α : Type} {a : α} {sep : List α} {xs : List (List α)}
    (h : a ∈ sep.intercalate xs) : a ∈ sep ∨ ∃ x ∈ xs, a ∈ x := by
  cases xs with
  | nil => cases h
  | cons x xs =>
    rw [intercalate_cons, List.mem_append, List.mem_flatMap] at h
    rcases h with h | ⟨y, hy, h⟩
    · exact .inr ⟨x, .head _, h⟩
    · rcases List.mem_append.1 h with h | h
      · exact .inl h
      · exact .inr ⟨y, .tail _ hy, h⟩

theorem stops_flatMap_comma (xs : List (List Char)) (r : List Char) :
    Stops (xs.flatMap ([',', ' '] ++ ·) ++ ')' :: r) := by
  cases xs with
  | nil => exact .cons r rfl
  | cons x xs => exact .cons _ rfl

theorem flatMap_comma_inj {T : List Char → Prop} (hT : Readable T) {xs ys : List (List Char)}
    (hx : ∀ x ∈ xs, T x) (hy : ∀ y ∈ ys, T y)
    (h : xs.flatMap ([',', ' '] ++ ·) ++ ')' :: r = ys.flatMap ([',', ' '] ++ ·) ++ ')' :: s) :
    xs = ys ∧ r = s := by
  induction xs generalizing ys with
  | nil =>
    cases ys with
    | nil => exact ⟨rfl, (List.cons.inj h).2⟩
    | cons y ys => cases h
  | cons x xs ih =>
    cases ys with
    | nil => cases h
    | cons y ys =>
      obtain ⟨hx₀, hxs⟩ := List.forall_mem_cons.1 hx
      obtain ⟨hy₀, hys⟩ := List.forall_mem_cons.1 hy
      simp only [List.flatMap_cons, List.append_assoc, List.append_cancel_left_eq] at h
      obtain ⟨hxy, hrest⟩ :=
        hT.inj hx₀ hy₀ (stops_flatMap_comma xs r) (stops_flatMap_comma ys s) h
      obtain ⟨hxys, hr⟩ := ih hxs hys hrest
      exact ⟨by rw [hxy, hxys], hr⟩

/-- A list in parentheses has the members that were written. -/
theorem intercalate_append_inj {T : List Char → Prop} (hT : Readable T) {xs ys : List (List Char)}
    (hx : ∀ x ∈ xs, T x) (hy : ∀ y ∈ ys, T y)
    (h : [',', ' '].intercalate xs ++ ')' :: r = [',', ' '].intercalate ys ++ ')' :: s) :
    xs = ys ∧ r = s := by
  -- The empty list is closed where another one has its first member.
  have hne : ∀ {z : List Char} {t u : List Char}, T z → z ++ u ≠ ')' :: t := by
    intro z t u hz
    obtain ⟨c, hc, hne⟩ := hT.head hz
    exact append_ne_of_head? (y := [')']) hc rfl hne u t
  cases xs with
  | nil =>
    cases ys with
    | nil => exact ⟨rfl, (List.cons.inj h).2⟩
    | cons y ys =>
      rw [intercalate_cons, List.append_assoc] at h
      exact (hne (hy y (.head _)) h.symm).elim
  | cons x xs =>
    rw [intercalate_cons, List.append_assoc] at h
    cases ys with
    | nil => exact (hne (hx x (.head _)) h).elim
    | cons y ys =>
      rw [intercalate_cons, List.append_assoc] at h
      obtain ⟨hx₀, hxs⟩ := List.forall_mem_cons.1 hx
      obtain ⟨hy₀, hys⟩ := List.forall_mem_cons.1 hy
      obtain ⟨hxy, hrest⟩ :=
        hT.inj hx₀ hy₀ (stops_flatMap_comma xs r) (stops_flatMap_comma ys s) h
      obtain ⟨hxys, hr⟩ := flatMap_comma_inj hT hxs hys hrest
      exact ⟨by rw [hxy, hxys], hr⟩

end Straightline.Text
