import Straightline.Diagnostic.Basic
import Straightline.Text.Blank
import Straightline.Text.Width

/-!
Plain-text reports: the message, the source line it is about with the span underlined, then the help
and the last note. Offsets count characters.
-/
namespace Straightline.Diagnostic.Report

/-- A line of the source: its number from 1, the offset of its first character, and its text with
the line break that ends it. -/
structure Line where
  number : Nat
  offset : Nat
  text : List Char

/-- The characters that end a line. -/
def lineBreaks : List Char := ['\n', '\u000B', '\u000C', '\r', '\u0085', '\u2028', '\u2029']

/-- Splits after each line break, a carriage return and its line feed being one; no empty piece
follows the last one. -/
def pieces : List Char → List (List Char)
  | [] => []
  | '\r' :: '\n' :: rest => ['\r', '\n'] :: pieces rest
  | c :: rest =>
    if c ∈ lineBreaks then [c] :: pieces rest
    else match pieces rest with
      | [] => [[c]]
      | piece :: more => (c :: piece) :: more

def number (n offset : Nat) : List (List Char) → List Line
  | [] => []
  | text :: rest => ⟨n, offset, text⟩ :: number (n + 1) (offset + text.length) rest

/-- The last line that starts at or before `offset`. -/
def lineAt? (source : List Char) (offset : Nat) : Option Line :=
  ((number 1 0 (pieces source)).filter (·.offset ≤ offset)).getLast?

/-- The span ends inside the source, so that it can be shown. -/
def inSource (source : List Char) (s : Span) : Bool :=
  !source.isEmpty && s.start ≤ source.length && (s.stop ≤ s.start || s.stop - 1 ≤ source.length)

/-- The columns between two tab stops. -/
def tabWidth : Nat := 4

/-- The columns taken up by `c`, the character at place `k` of its line. -/
def columns (k : Nat) (c : Char) : Nat :=
  if c = '\t' then tabWidth - k % tabWidth else if Text.isBlank c then 1 else Text.width c

/-- The line as it is shown: white space of any kind as spaces. -/
def shown (text : List Char) : String :=
  String.ofList <| text.zipIdx.flatMap fun (c, k) =>
    if Text.isBlank c then List.replicate (columns k c) ' ' else [c]

/-- Draws below the first `n` places of a line, as wide as each of them is: at place `k` the first
character of `draw k`, then the second one as often as needed. -/
def below (text : List Char) (n : Nat) (draw : Nat → Char × Char) : String :=
  String.ofList <| (List.range n).flatMap fun k =>
    match text[k]?.elim 1 (columns k) with
    | 0 => []
    | w + 1 => (draw k).1 :: List.replicate w (draw k).2

/-- Marks the places from `lo` up to `hi`, with a stem for the label at `mid`. -/
def underline (lo hi mid k : Nat) : Char × Char :=
  if lo ≤ k ∧ k < hi then (if k = mid then '┬' else '─', '─')
  else (if k = mid then '│' else ' ', ' ')

/-- Leads from the stem at `mid` to the label. -/
def arm (mid k : Nat) : Char × Char :=
  if k < mid then (' ', ' ') else if k = mid then ('╰', '─') else ('─', '─')

/-- The source line with its underline and label; a span that leaves the line shows none of it. -/
def excerpt (margin message : String) (line : Line) (s : Span) : List String :=
  if line.offset + line.text.length < s.stop then [margin]
  else
    let text := Text.trimEnd line.text
    let lo := s.start - line.offset
    let hi := s.stop - line.offset
    let mid := (s.start + s.stop) / 2 - line.offset
    [s!" {line.number} │ " ++ shown text,
      margin ++ below text (hi + 2) (underline lo hi mid),
      margin ++ below text (hi + 2) (arm mid) ++ " " ++ message]

/-- What follows the headline when the span can be shown. -/
def details (d : Diagnostic) (filename : String) (line : Line) : List String :=
  let width := (toString line.number).length + 2
  let gutter := String.ofList (List.replicate width ' ')
  let margin := gutter ++ "│ "
  let column := d.span.start - line.offset + 1
  [s!"{gutter}╭─[{filename}:{line.number}:{column}]", gutter ++ "│"]
    ++ excerpt margin d.message line d.span
    ++ (d.help.toList.flatMap fun h => [margin, margin ++ "Help: " ++ h])
    ++ (d.notes.getLast?.toList.flatMap fun n => [margin, margin ++ "Note: " ++ n])
    ++ [String.ofList (List.replicate width '─') ++ "╯"]

def headline (d : Diagnostic) : String :=
  match d.severity with
  | .error => "Error: " ++ d.message
  | .warning => "Warning: " ++ d.message

def unlines (ls : List String) : String := String.join (ls.map (· ++ "\n"))

end Report

/-- The report on `d`, or nothing if its span ends before it starts. -/
def report? (d : Diagnostic) (filename source : String) : Option String :=
  let chars := source.toList
  if d.span.stop < d.span.start then none
  else if Report.inSource chars d.span then
    let shown := (Report.lineAt? chars d.span.start).toList.flatMap (Report.details d filename)
    some (Report.unlines (Report.headline d :: shown))
  else some (Report.unlines [Report.headline d])

end Straightline.Diagnostic
