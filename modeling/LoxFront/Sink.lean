/-
  LoxFront.Sink — a destination of bytes that may run full.

  A write delivers what fits and fails if that is not all of it (`write_cases`); a write of
  nothing always succeeds. What was delivered before a failure stays delivered.
-/

import LoxFront.Text

namespace LoxFront

structure Sink where
  /-- The writes, the latest first. -/
  writes : List (List UInt8)
  /-- How many bytes still fit; any number where there is no limit. -/
  room : Option Nat

namespace Sink

def unlimited : Sink := ⟨[], none⟩

def limited (room : Nat) : Sink := ⟨[], some room⟩

def received (s : Sink) : List UInt8 := s.writes.reverse.flatten

/-- The sink after the write, as a failure where not every byte fitted. -/
def write (bytes : List UInt8) (s : Sink) : Except Sink Sink :=
  match s.room with
  | none => .ok ⟨bytes :: s.writes, none⟩
  | some room =>
    if bytes.length ≤ room then .ok ⟨bytes :: s.writes, some (room - bytes.length)⟩
    else .error ⟨bytes.take room :: s.writes, some 0⟩

/-- The sink after a write, whether or not it succeeded. -/
def after : Except Sink Sink → Sink
  | .ok s => s
  | .error s => s

def fitting (bytes : List UInt8) : Option Nat → List UInt8
  | none => bytes
  | some room => bytes.take room

theorem write_cases (bytes : List UInt8) (s : Sink) :
    (∃ t, s.write bytes = .ok t ∧ t.received = s.received ++ bytes ∧ t.room = s.room.map (· - bytes.length) ∧
        ∀ room ∈ s.room, bytes.length ≤ room) ∨
      ∃ t room, s.write bytes = .error t ∧ t.received = s.received ++ bytes.take room ∧ t.room = some 0 ∧
        s.room = some room ∧ room < bytes.length := by
  unfold write
  cases hroom : s.room with
  | none => exact .inl ⟨_, rfl, by simp [received], rfl, by simp⟩
  | some room =>
    dsimp only
    by_cases hfits : bytes.length ≤ room
    · rw [if_pos hfits]
      exact .inl ⟨_, rfl, by simp [received], rfl, by simpa using hfits⟩
    · rw [if_neg hfits]
      exact .inr ⟨_, room, rfl, by simp [received], rfl, rfl, Nat.lt_of_not_le hfits⟩

end Sink

end LoxFront
