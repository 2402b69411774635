import Straightline.Text.Blank
import Straightline.Text.ExtendingMark
import Straightline.Text.Unprintable

/-!
Strings in quotation marks. Quotes, backslashes and the common controls have an escape of their own;
whatever would not show by itself is written by its code point. The classes of characters are those
of version 17 of the character database.
-/
namespace Straightline.Text

/-- The code points with the Default_Ignorable_Code_Point property, as inclusive ranges. -/
def defaultIgnorableRanges : List (Nat × Nat) :=
  [(0xAD, 0xAD), (0x34F, 0x34F), (0x61C, 0x61C), (0x115F, 0x1160), (0x17B4, 0x17B5),
    (0x180B, 0x180F), (0x200B, 0x200F), (0x202A, 0x202E), (0x2060, 0x206F), (0x3164, 0x3164),
    (0xFE00, 0xFE0F), (0xFEFF, 0xFEFF), (0xFFA0, 0xFFA0), (0xFFF0, 0xFFF8), (0x1BCA0, 0x1BCA3),
    (0x1D173, 0x1D17A), (0xE0000, 0xE0FFF)]

/-- The character shows as itself: it is visible and stands on its own. -/
def showsItself (c : Char) : Bool :=
  (' ' ≤ c && c ≤ '~')
    || ('~' < c && !inRanges unprintableRanges c && !inRanges defaultIgnorableRanges c
      && !inRanges extendingMarkRanges c)

def escape (c : Char) : List Char :=
  if c = '\x00' then ['\\', '0']
  else if c = '\t' then ['\\', 't']
  else if c = '\r' then ['\\', 'r']
  else if c = '\n' then ['\\', 'n']
  else if c = '"' then ['\\', '"']
  else if c = '\\' then ['\\', '\\']
  else if showsItself c then [c]
  else '\\' :: 'u' :: '{' :: (Nat.toDigits 16 c.toNat ++ ['}'])

def quote (s : String) : String := String.ofList ('"' :: (s.toList.flatMap escape ++ ['"']))

end Straightline.Text
