/-
  LoxFront.Terminal — what standard error shows, and how: diagnostics in red and messages
  in bold red.

  How a style is set and taken back is the terminal's own matter. It is set in front of a
  body and taken back behind it, each by a write of its own, and the first write that fails
  is the last. Nothing is written for a log without entries (`showLog_empty`).
-/

import LoxFront.Diagnostic.Log
import LoxFront.Listing

namespace LoxFront

inductive Style
  | red
  | boldRed

/-- The bytes that set a style, and those that take it back. -/
structure Terminal where
  start : Style → List UInt8
  reset : List UInt8

namespace Terminal

def inStyle (terminal : Terminal) (style : Style) (body : Sink → Except Sink Sink) (err : Sink) : Except Sink Sink := do
  let started ← err.write (terminal.start style)
  let shown ← body started
  shown.write terminal.reset

def messageLine (message : Text) : Text := outputLine ("[!] ".toList ++ message)

def showMessage (terminal : Terminal) (message : Text) (err : Sink) : Except Sink Sink :=
  terminal.inStyle .boldRed (·.write (messageLine message).utf8) err

def showLog (terminal : Terminal) (log : Log) (err : Sink) : Except Sink Sink :=
  if log.entries.isEmpty then .ok err else terminal.inStyle .red log.emit err

theorem showLog_empty (terminal : Terminal) {log : Log} (h : log.entries = []) (err : Sink) :
    terminal.showLog log err = .ok err := by
  simp [showLog, h]

end Terminal

end LoxFront
