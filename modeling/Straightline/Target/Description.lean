import Straightline.Numeral.Integer
import Straightline.Target.Basic
import Straightline.Target.Error
import Straightline.Text.Blank

/-!
Target descriptions: headings in brackets, and under them settings of the form `key = value`. What a
description leaves out is as on Darwin; the first setting of a builtin empties the table.
-/
namespace Straightline.Target.Description

open Text

def splitLines : List Char → List (List Char)
  | [] => [[]]
  | c :: rest =>
    if c = '\n' then [] :: splitLines rest
    else match splitLines rest with
      | [] => [[c]]
      | line :: more => (c :: line) :: more

/-- What a line says. -/
inductive Entry
  /-- An empty line or a comment. -/
  | blank
  | heading (name : String)
  | setting (key : String) (value : List Char)
  | other (line : String)
deriving DecidableEq, Repr

def Entry.ofLine (line : List Char) : Entry :=
  let s := trim line
  if s.isEmpty || s.head? = some '#' then .blank
  else if s.head? = some '[' && s.getLast? = some ']' then
    .heading (String.ofList (trim s.tail.dropLast))
  else if s.contains '=' then
    .setting (String.ofList (trim (s.takeWhile (· ≠ '=')))) (trim (s.dropWhile (· ≠ '=')).tail)
  else .other (String.ofList s)

/-- A value without the quotes around it, however many there are. -/
def unquote (value : List Char) : String := String.ofList (strip (· = '"') value)

/-- What a setting can be about. -/
inductive Field
  | name
  | displayName
  | architecture
  | symbolPrefix
  | entryPoint
  | argumentRegisters
  | builtin (name : String)
deriving DecidableEq, Repr

/-- The field that `key` names under `heading`; every key names a builtin under `builtins`. -/
def Field.ofKey? (heading key : String) : Option Field :=
  if heading = "target" then
    if key = "name" then some .name
    else if key = "display_name" then some .displayName
    else if key = "architecture" then some .architecture
    else if key = "symbol_prefix" then some .symbolPrefix
    else if key = "entry_point" then some .entryPoint
    else none
  else if heading = "abi" then
    if key = "argument_registers" then some .argumentRegisters else none
  else if heading = "builtins" then some (.builtin key)
  else none

def architecture? (name : String) : Option Architecture :=
  if name = "arm64" ∨ name = "aarch64" then some .arm64 else none

/-- A description read up to some line: the heading in force, the fields so far, and the builtins if
one has been set. -/
structure Draft where
  heading : String := ""
  target : Target := darwin
  builtins : Option Builtins := none

namespace Draft

def set (d : Draft) (f : Field) (value : List Char) : Except Error Draft :=
  let text := unquote value
  match f with
  | .name => .ok { d with target := { d.target with name := text } }
  | .displayName => .ok { d with target := { d.target with displayName := text } }
  | .architecture => match architecture? text with
    | some a => .ok { d with target := { d.target with architecture := a } }
    | none => .error (.unknownArchitecture text)
  | .symbolPrefix => .ok { d with target := { d.target with symbolPrefix := text } }
  | .entryPoint => .ok { d with target := { d.target with entryPoint := text } }
  | .argumentRegisters => match Numeral.word64? value with
    | some n => .ok { d with target := { d.target with argumentRegisters := n } }
    | none => .error (.badArgumentRegisters (String.ofList value))
  | .builtin name => .ok { d with builtins := some ((d.builtins.getD {}).insert name text) }

def step (d : Draft) : Entry → Except Error Draft
  | .blank => .ok d
  | .heading name => .ok { d with heading := name }
  | .other line => .error (.noSetting line)
  | .setting key value => match Field.ofKey? d.heading key with
    | some f => d.set f value
    | none => .error (.unknownKey d.heading key)

/-- The target described, once every line is read. -/
def finish (d : Draft) : Except Error Target :=
  if d.target.name = "" then .error .missingName
  else if d.target.entryPoint = "" then .error .emptyEntryPoint
  else .ok { d.target with builtins := d.builtins.getD d.target.builtins }

end Draft

end Description

open Description in
/-- Reads a target description; the first line that cannot be read decides the error. -/
def ofDescription (text : String) : Except Error Target := do
  let draft ← ((splitLines text.toList).map Entry.ofLine).foldlM Draft.step {}
  draft.finish

end Straightline.Target
