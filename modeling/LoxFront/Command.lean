/-
  LoxFront.Command — the command line: listing the tokens of one file, or of each line of
  the standard input.

  A run is a function of the arguments, the files, the input and the setting. Its outcome
  is what was written to either output and the exit code. A listing goes to standard
  output whole before the diagnostics go to standard error, so a failing standard error
  takes nothing from it. Arguments come as bytes, and nothing is done unless all of them
  are text.
-/

import LoxFront.Editor
import LoxFront.Source
import LoxFront.Terminal

namespace LoxFront

/-- The listing is the program's own. All else is what it is run with. -/
structure Setting where
  listing : Listing
  terminal : Terminal
  editor : Editor
  /-- What is reported of arguments that are not all text. -/
  panicReport : List (List UInt8) → List UInt8

structure Outcome where
  stdout : Text
  stderr : Sink
  exitCode : Nat

/-- The outcome of a run that wrote `written` first. -/
def Outcome.behind (written : Text) (o : Outcome) : Outcome := { o with stdout := written ++ o.stdout }

namespace Command

def succeed (err : Sink) : Outcome := ⟨[], err, 0⟩

/-- A failure that cannot be shown is a failure of the same kind. -/
def fail (terminal : Terminal) (failure : Failure) (err : Sink) : Outcome :=
  ⟨[], if failure.hasMessage then Sink.after (terminal.showMessage failure.text err) else err, failure.exitCode⟩

/-! ## One file -/

def runFile (setting : Setting) (reader : Reader) (path : Text) (err : Sink) : Outcome :=
  match scanPath reader path .empty with
  | (.error failure, _) => fail setting.terminal failure err
  | (.ok tokens, log) =>
    .behind (setting.listing.report path tokens log.entries.length) <|
      match setting.terminal.showLog log err with
      | .error err => fail setting.terminal .unknown err
      | .ok err => if log.hadError then fail setting.terminal (.scan log.entries.length) err else succeed err

/-! ## Line by line -/

def banner : Text := outputLine "Lox scanner REPL; enter source to see its tokens.".toList

def prompt : Text := "> ".toList

def farewell : Text := outputLine "Stopping REPL...".toList

def sessionName : Text := "repl".toList

def unreadableInput : Text := "Could not read input from console.".toList

/-- One log serves all lines and is drained after each. A call of the editor that fails ends
    the session, and so does a standard error that cannot be written. -/
def runLines (setting : Setting) (input : List UInt8) (log : Log) (err : Sink) : Outcome :=
  .behind (setting.editor.prompted prompt) <|
    match setting.editor.read input with
    | .line source rest _ =>
      let (tokens, log) := log.scanInto source
      .behind (setting.listing.report sessionName tokens log.entries.length) <|
        match setting.terminal.showLog log err with
        | .error err => fail setting.terminal .unknown err
        | .ok err => runLines setting rest log.drain err
    | .ended | .interrupted => .behind farewell (succeed err)
    | .failed =>
      match setting.terminal.showMessage unreadableInput err with
      | .error err => fail setting.terminal .unknown err
      | .ok err => succeed err
termination_by input.length

/-! ## The command -/

def usage : Text := outputLine "Usage: lox-cli [script]".toList

def usageExitCode : Nat := 64

/-- The run of arguments that are text. -/
def perform (setting : Setting) (arguments : List Text) (reader : Reader) (input : List UInt8) (err : Sink) : Outcome :=
  match arguments with
  | [] => .behind banner (runLines setting input .empty err)
  | [path] => runFile setting reader path err
  | _ => ⟨usage, err, usageExitCode⟩

def panicExitCode : Nat := 101

/-- Whether the report comes through makes no difference. -/
def panic (setting : Setting) (arguments : List (List UInt8)) (err : Sink) : Outcome :=
  ⟨[], Sink.after (err.write (setting.panicReport arguments)), panicExitCode⟩

def run (setting : Setting) (arguments : List (List UInt8)) (reader : Reader) (input : List UInt8) (err : Sink) :
    Outcome :=
  match arguments.mapM Text.ofUtf8? with
  | some texts => perform setting texts reader input err
  | none => panic setting arguments err

theorem run_texts (setting : Setting) (arguments : List Text) (reader : Reader) (input : List UInt8) (err : Sink) :
    run setting (arguments.map Text.utf8) reader input err = perform setting arguments reader input err := by
  rw [run, mapM_ofUtf8?_utf8]

theorem run_notText (setting : Setting) {arguments : List (List UInt8)} (h : ∃ a ∈ arguments, ¬ isText a) (reader : Reader)
    (input : List UInt8) (err : Sink) : run setting arguments reader input err = panic setting arguments err := by
  rw [run, mapM_ofUtf8?_of_not_isText h]

end Command

end LoxFront
