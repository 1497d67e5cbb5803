/-
  LoxFront.Editor — the line editor of a session, known by what its calls give.

  A call shows what it makes of the prompt and reads from the input that is left. It gives a
  line of text, or one of three reasons why there is none. How it comes by a line, with what
  history and what check of brackets, is its own matter. What can be relied on where the
  input is no terminal is `ReadsLines`.
-/

import LoxFront.Text.Lines

namespace LoxFront

/-- What one call gives of the input that is left. A line takes something of it. -/
inductive LineCall (input : List UInt8)
  | line (source : Text) (rest : List UInt8) (shorter : rest.length < input.length)
  | ended
  | interrupted
  | failed

structure Editor where
  /-- What a call shows of its prompt. -/
  prompted : Text → Text
  read : (input : List UInt8) → LineCall input

/-- Each call gives the next line, with its line feed. At the end of the input it says so,
    and at a line that is not text it fails. -/
structure Editor.ReadsLines (editor : Editor) : Prop where
  line : ∀ (source : Text) (rest : List UInt8), IsFirstLine source.utf8 rest →
    ∃ shorter, editor.read (source.utf8 ++ rest) = .line source rest shorter
  notText : ∀ line rest, IsFirstLine line rest → ¬ isText line → editor.read (line ++ rest) = .failed
  ended : editor.read [] = .ended

end LoxFront
