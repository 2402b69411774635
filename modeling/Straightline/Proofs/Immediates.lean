import Straightline.Assembly.Arm64
import Straightline.Proofs.Results
import Straightline.Proofs.Semantics.Machine
import Straightline.Proofs.Text.Reading

/-!
Constants as an assembler finds them. The text of a move is read back line by line; every immediate is
in reach of its instruction, and the lines load the constant whatever the registers held before.
-/
namespace Straightline.Assembly

open Machine (Register Word)

/-- A line that moves an immediate to a register. -/
inductive Move
  | mov (dst : Register) (n : Int)
  /-- Sets the low 16 bits and clears the others. -/
  | movz (dst : Register) (n : Nat)
  /-- Sets the 16 bits from `shift` on and keeps the others. -/
  | movk (dst : Register) (n shift : Nat)
deriving DecidableEq, Repr

/-! ## Reading -/

/-- Reads `#` and a natural number. -/
def unsigned? : List Char → Option Nat
  | '#' :: digits => Numeral.natural? digits
  | _ => none

/-- Reads `#` and a number that may be negative. -/
def signed? : List Char → Option Int
  | '#' :: '-' :: digits => (Numeral.natural? digits).map fun n : Nat => -(n : Int)
  | cs => (unsigned? cs).map Int.ofNat

/-- An operand without the comma that has to follow it. -/
def beforeComma? (cs : List Char) : Option (List Char) :=
  if cs.getLast? = some ',' then some cs.dropLast else none

/-- The registers by the names that the architecture gives them. -/
def register? : List Char → Option Register
  | ['x', '0'] => some .r0
  | ['x', '1'] => some .r1
  | ['x', '2'] => some .r2
  | ['x', '3'] => some .r3
  | ['s', 'p'] => some .sp
  | ['x', '2', '9'] => some .fp
  | ['x', '3', '0'] => some .lr
  | _ => none

/-- Reads the register that a line begins with. -/
def destination? (cs : List Char) : Option Register := (beforeComma? cs).bind register?

namespace Move

def ofWords? : List (List Char) → Option Move
  | [op, dst, n] =>
    if op = ['m', 'o', 'v'] then do
      return mov (← destination? dst) (← signed? n)
    else if op = ['m', 'o', 'v', 'z'] then do
      return movz (← destination? dst) (← unsigned? n)
    else none
  | [op, dst, n, ext, shift] =>
    if op = ['m', 'o', 'v', 'k'] ∧ ext = ['l', 's', 'l'] then do
      return movk (← destination? dst) (← unsigned? (← beforeComma? n)) (← unsigned? shift)
    else none
  | _ => none

/-- Reads one line: words with blanks before and between them. -/
def ofLine? (line : List Char) : Option Move := ofWords? ((line.splitOn ' ').filter (· ≠ []))

/-- Reads a text that has one move on each line. -/
def readAll? (text : String) : Option (List Move) := (text.toList.splitOn '\n').mapM ofLine?

end Move

open Text

theorem beforeComma?_concat (cs : List Char) : beforeComma? (cs ++ [',']) = some cs := by
  simp [beforeComma?]

theorem destination?_registerName (r : Register) :
    destination? ((registerName r).toList ++ [',']) = some r := by
  cases r <;> rfl

theorem unsigned?_repr (n : Nat) : unsigned? ('#' :: n.repr.toList) = some n := natural?_repr n

theorem signed?_repr (n : Int) : signed? ('#' :: n.repr.toList) = some n := by
  rw [toList_int_repr]
  by_cases hn : n < 0
  · simp only [hn, if_true, List.singleton_append, signed?, natural?_repr, Option.map_some]
    congr 1
    omega
  · obtain ⟨c, rest, hc, hdigit⟩ := exists_digit_repr n.natAbs
    have hread := unsigned?_repr n.natAbs
    rw [if_neg hn, List.nil_append]
    rw [hc] at hread ⊢
    rw [signed?, hread, Option.map_some]
    · congr 1
      exact Int.natAbs_of_nonneg (by omega)
    · -- A digit is no sign.
      rintro digits ⟨⟩
      cases hdigit

/-- The word stays whole when a text is split into lines and these into words. -/
structure IsSolid (w : List Char) : Prop where
  ne_nil : w ≠ []
  blank : ' ' ∉ w
  newline : '\n' ∉ w

theorem IsSolid.beforeComma {w : List Char} (hw : IsSolid w) : IsSolid (w ++ [',']) where
  ne_nil := List.append_ne_nil_of_left_ne_nil hw.ne_nil _
  blank := by simp [hw.blank]
  newline := by simp [hw.newline]

theorem isSolid_destination (r : Register) : IsSolid ((registerName r).toList ++ [',']) := by
  cases r <;> exact ⟨by decide, by decide, by decide⟩

theorem isSolid_unsigned (n : Nat) : IsSolid ('#' :: n.repr.toList) := by
  refine ⟨List.cons_ne_nil _ _, ?_, ?_⟩ <;> rintro (_ | ⟨_, h⟩) <;> cases isDigit_of_mem_repr h

theorem isSolid_signed (n : Int) : IsSolid ('#' :: n.repr.toList) := by
  have hdigits := isSolid_unsigned n.natAbs
  rw [toList_int_repr]
  split
  · exact ⟨List.cons_ne_nil _ _, by simpa using hdigits.blank, by simpa using hdigits.newline⟩
  · exact hdigits

namespace Move

/-- The line is one line, and it is read as the move. -/
structure Reads (line : List Char) (m : Move) : Prop where
  whole : '\n' ∉ line
  read : ofLine? line = some m

/-- Indented words are read one by one. -/
theorem reads_of_words {words : List (List Char)} {m : Move} (hwords : ∀ w ∈ words, IsSolid w)
    (hm : ofWords? words = some m) :
    Reads ([' '].intercalate ([] :: [] :: [] :: [] :: words)) m := by
  constructor
  · intro h
    rcases mem_of_mem_intercalate h with h | ⟨w, hw, h⟩
    · simp at h
    · simp only [List.mem_cons] at hw
      rcases hw with rfl | rfl | rfl | rfl | hw
      · cases h
      · cases h
      · cases h
      · cases h
      · exact (hwords w hw).newline h
  · have hblank : ∀ w ∈ [] :: [] :: [] :: [] :: words, ' ' ∉ w := by
      simpa using fun w hw => (hwords w hw).blank
    have hkept : words.filter (· ≠ []) = words := by
      simpa using fun w hw => (hwords w hw).ne_nil
    rw [ofLine?, List.splitOn_intercalate ' ' hblank (List.cons_ne_nil _ _), ← hm]
    exact congrArg ofWords? hkept

theorem reads_mov (r : Register) (n : Int64) :
    Reads (Line.mov r (.imm n)).text.toList (.mov r n.toInt) := by
  have htext : (Line.mov r (.imm n)).text.toList = [' '].intercalate ([] :: [] :: [] :: [] ::
      [['m', 'o', 'v'], (registerName r).toList ++ [','], '#' :: n.toInt.repr.toList]) := by
    change ("    mov " ++ registerName r ++ ", " ++ ("#" ++ n.toInt.repr)).toList = _
    simp
  rw [htext]
  apply reads_of_words
  · simp only [List.forall_mem_cons]
    exact ⟨⟨by decide, by decide, by decide⟩, isSolid_destination r,
      isSolid_signed _, List.forall_mem_nil _⟩
  · rw [ofWords?, if_pos rfl, destination?_registerName, signed?_repr]
    rfl

theorem reads_movz (r : Register) (n : Nat) :
    Reads (Line.movz r n).text.toList (.movz r n) := by
  have htext : (Line.movz r n).text.toList = [' '].intercalate ([] :: [] :: [] :: [] ::
      [['m', 'o', 'v', 'z'], (registerName r).toList ++ [','], '#' :: n.repr.toList]) := by
    change ("    movz " ++ registerName r ++ ", #" ++ n.repr).toList = _
    simp
  rw [htext]
  apply reads_of_words
  · simp only [List.forall_mem_cons]
    exact ⟨⟨by decide, by decide, by decide⟩, isSolid_destination r,
      isSolid_unsigned _, List.forall_mem_nil _⟩
  · rw [ofWords?, if_neg (by decide), if_pos rfl, destination?_registerName, unsigned?_repr]
    rfl

theorem reads_movk (r : Register) (n k : Nat) :
    Reads (Line.movk r n k).text.toList (.movk r n k) := by
  have htext : (Line.movk r n k).text.toList = [' '].intercalate ([] :: [] :: [] :: [] ::
      [['m', 'o', 'v', 'k'], (registerName r).toList ++ [','], ('#' :: n.repr.toList) ++ [','],
        ['l', 's', 'l'], '#' :: k.repr.toList]) := by
    change ("    movk " ++ registerName r ++ ", #" ++ n.repr ++ ", lsl #" ++ k.repr).toList = _
    simp
  rw [htext]
  apply reads_of_words
  · simp only [List.forall_mem_cons]
    exact ⟨⟨by decide, by decide, by decide⟩, isSolid_destination r,
      (isSolid_unsigned n).beforeComma, ⟨by decide, by decide, by decide⟩,
      isSolid_unsigned _, List.forall_mem_nil _⟩
  · rw [ofWords?, if_pos ⟨rfl, rfl⟩, destination?_registerName, beforeComma?_concat, unsigned?_repr]
    simp only [Option.bind_eq_bind, Option.bind_some, unsigned?_repr, Option.pure_def]

theorem readAll?_intercalate {lines : List Line} {moves : List Move} (hne : lines ≠ [])
    (h : List.Forall₂ (fun l m => Reads l.text.toList m) lines moves) :
    readAll? ("\n".intercalate (lines.map (·.text))) = some moves := by
  have hlines : ∀ l ∈ lines.map (·.text.toList), '\n' ∉ l := by
    clear hne
    induction h with
    | nil => simp
    | cons hl _ ih => exact List.forall_mem_cons.2 ⟨hl.whole, ih⟩
  have htext : ("\n".intercalate (lines.map (·.text))).toList =
      ['\n'].intercalate (lines.map (·.text.toList)) := by
    rw [String.toList_intercalate, List.map_map]
    rfl
  rw [readAll?, htext, List.splitOn_intercalate '\n' hlines (by simpa using hne), mapM_eq_some_iff,
    List.forall₂_map_left_iff]
  exact h.imp fun _ _ hl => hl.read

/-! ## Running -/

/-- The word with other bits from `k` to `k + 16`. -/
def setChunk (w : Word) (n k : Nat) : Word :=
  (w &&& ~~~ (0xFFFF#64 <<< k)) ||| (BitVec.ofNat 64 n <<< k)

/-- What a line does. The plain move is one that clears all other bits or, for a negative number, the
inverse of one. -/
def run (σ : Machine.State) : Move → Machine.State
  | mov r n => σ.setReg r (if 0 ≤ n then BitVec.ofNat 64 n.toNat else ~~~ BitVec.ofNat 64 (-n - 1).toNat)
  | movz r n => σ.setReg r (.ofNat 64 n)
  | movk r n k => σ.setReg r (setChunk (σ.regs r) n k)

/-- The lines can be encoded as a load of `n`: one move that reaches it, plain or inverted, or one that
sets the lowest chunk and others that set higher chunks, in order. In these instructions the number of
the stack pointer stands for something else. -/
inductive InReach (r : Register) (n : Int) : List Move → Prop
  | single (hr : r ≠ .sp) (hn : (0 ≤ n ∧ n ≤ 65535) ∨ (0 ≤ -n - 1 ∧ -n - 1 ≤ 65535)) :
      InReach r n [mov r n]
  | chunks {low : Nat} {high : List (Nat × Nat)} (hr : r ≠ .sp) (hlow : low ≤ 65535)
      (hhigh : ∀ c ∈ high, c.1 ≤ 65535 ∧ c.2 ∈ [16, 32, 48])
      (hshifts : (high.map (·.2)).Pairwise (· < ·)) :
      InReach r n (movz r low :: high.map fun c => movk r c.1 c.2)

variable (r : Register) (n : Int64) (σ : Machine.State)

theorem testBit_chunk (b k j : Nat) :
    (chunk b k).testBit j = (decide (j < 16) && b.testBit (k + j)) := by
  rw [chunk, show 0x10000 = 2 ^ 16 from rfl, Nat.testBit_mod_two_pow, Nat.testBit_shiftRight]

/-- Setting the next chunk extends the part of a number that is there by 16 bits. -/
theorem setChunk_mod (b k : Nat) :
    setChunk (.ofNat 64 (b % 2 ^ k)) (chunk b k) k = .ofNat 64 (b % 2 ^ (k + 16)) := by
  have hmask : ∀ j, Nat.testBit 0xFFFF j = decide (j < 16) := Nat.testBit_two_pow_sub_one 16
  apply BitVec.eq_of_getLsbD_eq
  intro i hi
  simp only [setChunk, BitVec.getLsbD_or, BitVec.getLsbD_and, BitVec.getLsbD_not,
    BitVec.getLsbD_shiftLeft, BitVec.getLsbD_ofNat, testBit_chunk, Nat.testBit_mod_two_pow, hmask]
  by_cases hk : i < k
  · have hk' : i < k + 16 := by omega
    simp [hi, hk, hk']
  · have hsub : k + (i - k) = i := by omega
    by_cases hk' : i < k + 16
    · have hlow : i - k < 16 := by omega
      have h64 : i - k < 64 := by omega
      simp [hi, hk, hk', hlow, h64, hsub]
    · have hhigh : ¬ i - k < 16 := by omega
      simp [hk, hk', hhigh]

/-- A chunk that is zero need not be set. -/
theorem mod_of_chunk_eq_zero {b k : Nat} (h : chunk b k = 0) : b % 2 ^ k = b % 2 ^ (k + 16) := by
  rw [Nat.pow_add, Nat.mod_mul]
  rw [chunk, Nat.shiftRight_eq_div_pow] at h
  rw [show 2 ^ 16 = 0x10000 from rfl, h, Nat.mul_zero, Nat.add_zero]

/-- With the lowest bits of a number there, the chunks that follow can be set one after the other. -/
theorem run_chunks (b k m : Nat) :
    (((List.range' k m 16).filter (chunk b · ≠ 0)).map fun j => movk r (chunk b j) j).foldl run
      (σ.setReg r (.ofNat 64 (b % 2 ^ k))) = σ.setReg r (.ofNat 64 (b % 2 ^ (k + 16 * m))) := by
  induction m generalizing k with
  | zero => rfl
  | succ m ih =>
    have hk : k + 16 * (m + 1) = k + 16 + 16 * m := by omega
    rw [List.range'_succ, hk, ← ih (k + 16)]
    by_cases h : chunk b k = 0
    · rw [List.filter_cons_of_neg (by simpa using h), mod_of_chunk_eq_zero h]
    · rw [List.filter_cons_of_pos (by simpa using h), List.map_cons, List.foldl_cons]
      congr 1
      rw [run, Machine.State.setReg_regs_self, setChunk_mod]
      simp [Machine.State.setReg]

/-- The inverse of what is one less than a number is the number with the other sign. -/
theorem run_mov : run σ (mov r n.toInt) = σ.setReg r n.toBitVec := by
  have hn : n.toBitVec = BitVec.ofInt 64 n.toInt := by
    rw [← Int64.toBitVec_ofInt, Int64.ofInt_toInt]
  rw [run, hn]
  cases n.toInt with
  | ofNat k => rfl
  | negSucc k =>
    have hk : (-Int.negSucc k - 1).toNat = k := by omega
    rw [if_neg (by omega), hk, BitVec.ofInt_negSucc_eq_not_ofNat]

end Move

/-- The moves that a constant takes. -/
def moves (r : Register) (n : Int64) : List Move :=
  if fitsMove n then [.mov r n.toInt]
  else
    let bits := n.toUInt64.toNat
    .movz r (chunk bits 0) ::
      (([16, 32, 48] : List Nat).filter (chunk bits · ≠ 0)).map fun k => .movk r (chunk bits k) k

variable {r : Register} (n : Int64)

theorem readAll?_moveImm (r : Register) :
    Move.readAll? ("\n".intercalate ((moveImm r n).map (·.text))) = some (moves r n) := by
  unfold moveImm moves
  split
  · exact Move.readAll?_intercalate (List.cons_ne_nil _ _) (.cons (Move.reads_mov r n) .nil)
  · refine Move.readAll?_intercalate (List.cons_ne_nil _ _) (.cons (Move.reads_movz r _) ?_)
    rw [List.forall₂_map_left_iff, List.forall₂_map_right_iff, List.forall₂_same]
    exact fun k _ => Move.reads_movk r _ k

theorem chunk_le (b k : Nat) : chunk b k ≤ 65535 := by
  unfold chunk
  omega

theorem inReach_moves (hr : r ≠ .sp) : Move.InReach r n.toInt (moves r n) := by
  unfold moves
  split
  next h =>
    simp only [fitsMove, Bool.and_eq_true, decide_eq_true_eq] at h
    exact .single hr (by omega)
  next =>
    let bits := n.toUInt64.toNat
    have hchunks : Move.InReach r n.toInt (.movz r (chunk bits 0) ::
        (([16, 32, 48].filter (chunk bits · ≠ 0)).map fun k => (chunk bits k, k)).map
          fun c => .movk r c.1 c.2) := by
      refine .chunks hr (chunk_le _ _) ?_ ?_
      · rw [List.forall_mem_map]
        exact fun k hk => ⟨chunk_le _ _, (List.mem_filter.1 hk).1⟩
      · rw [List.map_map]
        exact (List.map_id _).symm ▸ List.Pairwise.filter _ (by decide)
    rwa [List.map_map] at hchunks

theorem run_moves (r : Register) (σ : Machine.State) :
    (moves r n).foldl Move.run σ = σ.setReg r n.toBitVec := by
  unfold moves
  split
  · exact Move.run_mov r n σ
  · have hlow : chunk n.toUInt64.toNat 0 = n.toUInt64.toNat % 2 ^ 16 := rfl
    have hbits : n.toUInt64.toNat % 2 ^ (16 + 16 * 3) = n.toBitVec.toNat :=
      Nat.mod_eq_of_lt n.toBitVec.isLt
    rw [List.foldl_cons, Move.run, hlow, show [16, 32, 48] = List.range' 16 3 16 from rfl,
      Move.run_chunks, hbits, BitVec.ofNat_toNat, BitVec.setWidth_eq]

/-- A move of a constant is written as lines that an assembler can read and encode, and they load
exactly that constant, whatever the registers hold. -/
theorem moveImm_loads_exactly (t : Target) (hr : r ∈ Register.arguments) :
    ∃ text lines, instruction t (.moveImm r n) = .ok text ∧ Move.readAll? text = some lines ∧
      Move.InReach r n.toInt lines ∧
      ∀ σ, lines.foldl Move.run σ = σ.setReg r n.toBitVec := by
  have hsp : r ≠ .sp := by
    rintro rfl
    exact absurd hr (by decide)
  have htext : instruction t (.moveImm r n) =
      .ok ("\n".intercalate ((moveImm r n).map (·.text)) ++ "") := rfl
  rw [String.append_empty] at htext
  exact ⟨_, moves r n, htext, readAll?_moveImm n r, inReach_moves n hsp, run_moves n r⟩

/-- The largest number that a single move does not reach from below. -/
theorem moveImm_loads_exactly_below : Register.r2 ∈ Register.arguments ∧
    ∃ text, instruction .darwin (.moveImm .r2 (-65537)) = .ok text ∧
      ∃ lines, Move.readAll? text = some lines ∧ lines = [.movz .r2 65535, .movk .r2 65534 16,
        .movk .r2 65535 32, .movk .r2 65535 48] ∧ Move.InReach .r2 (-65537) lines ∧
        ∀ σ, lines.foldl Move.run σ = σ.setReg .r2 0xFFFFFFFFFFFEFFFF#64 := by
  have hr : Register.r2 ∈ Register.arguments := by decide
  obtain ⟨text, lines, htext, hread, hreach, hrun⟩ :=
    moveImm_loads_exactly (-65537) Target.darwin hr
  have heval : (instruction .darwin (.moveImm .r2 (-65537))).toOption.bind Move.readAll? =
      some [.movz .r2 65535, .movk .r2 65534 16, .movk .r2 65535 32, .movk .r2 65535 48] := by
    decide +kernel
  rw [htext] at heval
  exact ⟨hr, text, htext, lines, hread, Option.some.inj (hread.symm.trans heval), hreach, hrun⟩

end Straightline.Assembly
