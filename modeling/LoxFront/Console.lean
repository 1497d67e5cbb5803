/-
  LoxFront.Console — two kinds of terminal, and an editor for an input that is none.

  A dumb terminal has no styles, and its prompts are shown. On an xterm with an input from
  elsewhere it is the other way round. `IsDumb` and `IsXterm` say so of a setting in bytes;
  `dumb` and `xterm` are settings of which they hold (`isDumb_dumb`, `isXterm_xterm`).
-/

import LoxFront.Command

namespace LoxFront

/-- Styles have no bytes, and a prompt is shown as it is. -/
structure Setting.IsDumb (setting : Setting) : Prop where
  reads : setting.editor.ReadsLines
  prompted : ∀ prompt, setting.editor.prompted prompt = prompt
  start : ∀ style, setting.terminal.start style = []
  reset : setting.terminal.reset = []

/-- A style is set from none by its control sequences, and taken back by the one for none. -/
structure Setting.IsXterm (setting : Setting) : Prop where
  reads : setting.editor.ReadsLines
  prompted : ∀ prompt, setting.editor.prompted prompt = []
  red : setting.terminal.start .red = Text.utf8 "\x1b[0m\x1b[31m".toList
  boldRed : setting.terminal.start .boldRed = Text.utf8 "\x1b[0m\x1b[1m\x1b[31m".toList
  reset : setting.terminal.reset = Text.utf8 "\x1b[0m".toList

namespace Terminal

def plain : Terminal := ⟨fun _ => [], []⟩

def ansi : Terminal where
  start
    | .red => Text.utf8 "\x1b[0m\x1b[31m".toList
    | .boldRed => Text.utf8 "\x1b[0m\x1b[1m\x1b[31m".toList
  reset := Text.utf8 "\x1b[0m".toList

end Terminal

namespace Editor

/-- Takes the first line of the input, whatever it is. -/
def direct (prompted : Text → Text) : Editor where
  prompted := prompted
  read input :=
    if h : input = [] then .ended
    else
      match Text.ofUtf8? (cutLine input).1 with
      | some source => .line source (cutLine input).2 (length_cutLine h)
      | none => .failed

theorem direct_readsLines (prompted : Text → Text) : (direct prompted).ReadsLines where
  line source rest h := by
    have hne : source.utf8 ++ rest ≠ [] := by simp [h.nonempty]
    have hrest : (cutLine (source.utf8 ++ rest)).2 = rest := by rw [cutLine_append h]
    have hshorter := length_cutLine hne
    rw [hrest] at hshorter
    refine ⟨hshorter, ?_⟩
    simp only [direct]
    rw [dif_neg hne]
    split
    · next source' hsource =>
      rw [cutLine_append h, Text.ofUtf8?_utf8, Option.some.injEq] at hsource
      rw [LineCall.line.injEq]
      exact ⟨hsource.symm, hrest⟩
    · next hsource =>
      rw [cutLine_append h, Text.ofUtf8?_utf8] at hsource
      cases hsource
  notText line rest h hnot := by
    have hne : line ++ rest ≠ [] := by simp [h.nonempty]
    have hnone : Text.ofUtf8? (cutLine (line ++ rest)).1 = none := by
      rw [cutLine_append h, ofUtf8?_of_not_isText hnot]
    simp only [direct]
    rw [dif_neg hne]
    split
    · next source hsource =>
      rw [hnone] at hsource
      cases hsource
    · rfl
  ended := rfl

end Editor

namespace Setting

def dumb (listing : Listing) : Setting := ⟨listing, .plain, .direct id, fun _ => []⟩

def xterm (listing : Listing) : Setting := ⟨listing, .ansi, .direct fun _ => [], fun _ => []⟩

theorem isDumb_dumb (listing : Listing) : (dumb listing).IsDumb :=
  ⟨Editor.direct_readsLines id, fun _ => rfl, fun _ => rfl, rfl⟩

theorem isXterm_xterm (listing : Listing) : (xterm listing).IsXterm :=
  ⟨Editor.direct_readsLines _, fun _ => rfl, rfl, rfl, rfl⟩

end Setting

end LoxFront
