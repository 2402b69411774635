import Straightline.Diagnostic.Basic

/-! Why no target could be found or read. -/
namespace Straightline.Target

inductive Error
  /-- The name looks like a path. -/
  | invalidName (name : String)
  | unknownName (name : String)
  /-- A line of a description that is neither a heading nor a setting. -/
  | noSetting (line : String)
  | unknownArchitecture (name : String)
  | badArgumentRegisters (value : String)
  | unknownKey (heading key : String)
  | missingName
  | emptyEntryPoint
deriving DecidableEq, Repr

namespace Error

def message : Error → String
  | invalidName n => s!"invalid target name '{n}'"
  | unknownName n => s!"unknown target '{n}'"
  | noSetting line => s!"target config: expected `key = value`, found '{line}'"
  | unknownArchitecture a => s!"target config: unknown architecture '{a}'"
  | badArgumentRegisters v => s!"target config: invalid abi.argument_registers: {v}"
  | unknownKey heading key => s!"target config: unknown key '{key}' in section [{heading}]"
  | missingName => "target config: missing target.name"
  | emptyEntryPoint => "target config: target.entry_point must not be empty"

def help? : Error → Option String
  | unknownName _ => some "available targets: darwin-arm64, linux-arm64"
  | _ => none

def diagnostic (e : Error) : Diagnostic where
  kind := .defect
  message := e.message
  span := .nowhere
  help := e.help?

end Error

end Straightline.Target
