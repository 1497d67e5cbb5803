/-
  LoxFront.Main — the program: gathers what a run depends on, runs it and writes its
  outcome.

  Standard error is written first: if it takes no writes, the run is the one with a full
  standard error.
-/

import LoxFront.Console

namespace LoxFront

/-- An error number, which some calls give with a minus sign. -/
def errorNumber (code : UInt32) : Nat := min code.toNat (-code).toNat

def readError : IO.Error → ReadError
  | .noFileOrDirectory .. => .missing
  | .inappropriateType _ code _ => if errorNumber code = 21 then .folder else .throughFile
  | .invalidArgument _ code message | .resourceExhausted _ code message =>
    if errorNumber code = 36 then .nameTooLong else .other message.toList
  | e => .other (toString e).toList

/-- The file that a run would read. -/
def gatherFile : List String → IO (Except ReadError (List UInt8))
  | [path] => do
    try return .ok (← IO.FS.readBinFile path).toList
    catch e => return .error (readError e)
  | _ => return .error .missing

/-- The input that a run would read. -/
def gatherInput : List String → IO (List UInt8)
  | [] => return (← (← IO.getStdin).readBinToEnd).toList
  | _ => return []

/-- Nothing is styled where the terminal is not named, names itself dumb, or where no color
    is asked for. -/
def gatherTerminal : IO Terminal := do
  match ← IO.getEnv "TERM", ← IO.getEnv "NO_COLOR" with
  | some term, none => return if term = "dumb" then .plain else .ansi
  | _, _ => return .plain

/-- The terminals that lines cannot be edited on, in lower case. -/
def uneditable : List String := ["dumb", "cons25", "emacs"]

/-- A prompt is shown only where the terminal is named and its lines cannot be edited. -/
def gatherEditor : IO Editor := do
  match ← IO.getEnv "TERM" with
  | some term => return .direct fun prompt => if uneditable.contains term.toLower then prompt else []
  | none => return .direct fun _ => []

end LoxFront

open LoxFront in
def main (args : List String) : IO UInt32 := do
  -- the arguments are strings here, so there is nothing to report of them
  let setting : Setting := ⟨.bare, ← gatherTerminal, ← gatherEditor, fun _ => []⟩
  let file ← gatherFile args
  let input ← gatherInput args
  let runOn := Command.run setting (args.map fun a => Text.utf8 a.toList) (fun _ => file) input
  let normal := runOn .unlimited
  let outcome ←
    try
      let err ← IO.getStderr
      err.write normal.stderr.received.toByteArray
      err.flush
      pure normal
    catch _ => pure (runOn (.limited 0))
  let out ← IO.getStdout
  out.putStr (String.ofList outcome.stdout)
  out.flush
  return outcome.exitCode.toUInt32
