/-
  LoxFront.Token.Kind — the 39 kinds of token: marks and keywords, whose text is fixed,
  and identifiers, strings, numbers and the end of the source, whose text is not.

  A keyword is a word spelled exactly so: `Keyword.ofWord?` inverts `Keyword.word`
  (`ofWord?_eq_some_iff`), and one character of text more or in another case is an
  identifier.
-/

import LoxFront.Text

namespace LoxFront

/-! ## Marks -/

inductive Mark
  | leftParen | rightParen | leftBrace | rightBrace
  | comma | dot | minus | plus | semicolon | slash | star
  | bang | bangEqual | equal | equalEqual | greater | greaterEqual | less | lessEqual
  deriving DecidableEq

namespace Mark

def all : List Mark :=
  [leftParen, rightParen, leftBrace, rightBrace, comma, dot, minus, plus, semicolon, slash, star,
   bang, bangEqual, equal, equalEqual, greater, greaterEqual, less, lessEqual]

def name : Mark → Text
  | leftParen => "LEFT_PAREN".toList
  | rightParen => "RIGHT_PAREN".toList
  | leftBrace => "LEFT_BRACE".toList
  | rightBrace => "RIGHT_BRACE".toList
  | comma => "COMMA".toList
  | dot => "DOT".toList
  | minus => "MINUS".toList
  | plus => "PLUS".toList
  | semicolon => "SEMICOLON".toList
  | slash => "SLASH".toList
  | star => "STAR".toList
  | bang => "BANG".toList
  | bangEqual => "BANG_EQUAL".toList
  | equal => "EQUAL".toList
  | equalEqual => "EQUAL_EQUAL".toList
  | greater => "GREATER".toList
  | greaterEqual => "GREATER_EQUAL".toList
  | less => "LESS".toList
  | lessEqual => "LESS_EQUAL".toList

def spelling : Mark → Text
  | leftParen => ['(']
  | rightParen => [')']
  | leftBrace => ['\x7b']
  | rightBrace => ['\x7d']
  | comma => [',']
  | dot => ['.']
  | minus => ['-']
  | plus => ['+']
  | semicolon => [';']
  | slash => ['/']
  | star => ['*']
  | bang => ['!']
  | bangEqual => ['!', '=']
  | equal => ['=']
  | equalEqual => ['=', '=']
  | greater => ['>']
  | greaterEqual => ['>', '=']
  | less => ['<']
  | lessEqual => ['<', '=']

/-- The mark that one character is by itself. -/
def ofChar? (c : Char) : Option Mark := all.find? (·.spelling = [c])

/-- The mark that an equals sign directly behind makes of this one. -/
def withEqual? : Mark → Option Mark
  | bang => some bangEqual
  | equal => some equalEqual
  | greater => some greaterEqual
  | less => some lessEqual
  | _ => none

theorem mem_all (m : Mark) : m ∈ all := by cases m <;> decide

theorem spelling_ne_nil (m : Mark) : m.spelling ≠ [] := by cases m <;> simp [spelling]

theorem spelling_of_ofChar? {c : Char} {m : Mark} (h : ofChar? c = some m) : m.spelling = [c] := by
  simpa using List.find?_some h

theorem ofChar?_eq_none_iff {c : Char} : ofChar? c = none ↔ ∀ m : Mark, m.spelling ≠ [c] := by
  simp [ofChar?, List.find?_eq_none, mem_all]

theorem spelling_of_withEqual? {m n : Mark} (h : m.withEqual? = some n) : n.spelling = m.spelling ++ ['='] := by
  cases m <;> cases h <;> rfl

end Mark

/-! ## Keywords -/

inductive Keyword
  | and_ | class_ | else_ | false_ | fun_ | for_ | if_ | nil | or_ | print | return_ | super | this | true_ | var | while_
  deriving DecidableEq

namespace Keyword

def all : List Keyword :=
  [.and_, .class_, .else_, .false_, .fun_, .for_, .if_, .nil, .or_, .print, .return_, .super, .this, .true_, .var, .while_]

def name : Keyword → Text
  | .and_ => "AND".toList
  | .class_ => "CLASS".toList
  | .else_ => "ELSE".toList
  | .false_ => "FALSE".toList
  | .fun_ => "FUN".toList
  | .for_ => "FOR".toList
  | .if_ => "IF".toList
  | .nil => "NIL".toList
  | .or_ => "OR".toList
  | .print => "PRINT".toList
  | .return_ => "RETURN".toList
  | .super => "SUPER".toList
  | .this => "THIS".toList
  | .true_ => "TRUE".toList
  | .var => "VAR".toList
  | .while_ => "WHILE".toList

def word : Keyword → Text
  | .and_ => "and".toList
  | .class_ => "class".toList
  | .else_ => "else".toList
  | .false_ => "false".toList
  | .fun_ => "fun".toList
  | .for_ => "for".toList
  | .if_ => "if".toList
  | .nil => "nil".toList
  | .or_ => "or".toList
  | .print => "print".toList
  | .return_ => "return".toList
  | .super => "super".toList
  | .this => "this".toList
  | .true_ => "true".toList
  | .var => "var".toList
  | .while_ => "while".toList

def ofWord? (word : Text) : Option Keyword := all.find? (·.word = word)

theorem mem_all (k : Keyword) : k ∈ all := by cases k <;> decide

theorem ofWord?_word (k : Keyword) : ofWord? k.word = some k := by cases k <;> decide

theorem ofWord?_eq_some_iff {word : Text} {k : Keyword} : ofWord? word = some k ↔ k.word = word := by
  constructor
  · intro h
    simpa using List.find?_some h
  · rintro rfl
    exact ofWord?_word k

theorem ofWord?_eq_none_iff {word : Text} : ofWord? word = none ↔ ∀ k : Keyword, k.word ≠ word := by
  simp [ofWord?, List.find?_eq_none, mem_all]

end Keyword

/-! ## Kinds -/

inductive Kind
  | mark (mark : Mark)
  | identifier
  | string
  | number
  | keyword (keyword : Keyword)
  | eof
  deriving DecidableEq

namespace Kind

def all : List Kind :=
  Mark.all.map mark ++ [identifier, string, number] ++ Keyword.all.map keyword ++ [eof]

def name : Kind → Text
  | .mark m => m.name
  | .identifier => "IDENTIFIER".toList
  | .string => "STRING".toList
  | .number => "NUMBER".toList
  | .keyword k => k.name
  | .eof => "EOF".toList

def ofName? (name : Text) : Option Kind := all.find? (·.name = name)

def isKeyword : Kind → Bool
  | .keyword _ => true
  | _ => false

/-- What a word is: a keyword, or an identifier. -/
def ofWord (word : Text) : Kind :=
  match Keyword.ofWord? word with
  | some k => .keyword k
  | none => .identifier

theorem ofWord_ne_eof (word : Text) : ofWord word ≠ .eof := by
  unfold ofWord
  split <;> simp

theorem ofWord_ne_string (word : Text) : ofWord word ≠ .string := by
  unfold ofWord
  split <;> simp

theorem ofName?_name (k : Kind) : ofName? k.name = some k := by
  cases k with
  | mark m => cases m <;> decide
  | keyword k => cases k <;> decide
  | identifier | string | number | eof => decide

end Kind

end LoxFront
