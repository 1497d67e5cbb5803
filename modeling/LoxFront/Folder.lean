/-
  LoxFront.Folder — a folder of files and what reading a path in it gives.

  A path is walked one name at a time. A name is looked up in a folder only, so a regular
  file ends every walk that goes on, be it by a slash alone. Above the folder lies an
  outside of which nothing is known but that it is a folder: the way up leads there and
  no name in it is found.
-/

import LoxFront.Text

namespace LoxFront

/-! ## Reasons not to read a path -/

inductive ReadError
  | missing
  | throughFile
  | folder
  | nameTooLong
  | holdsNul
  | notUtf8
  /-- Any other cause, in its own words. -/
  | other (reason : Text)
  deriving DecidableEq

def ReadError.text : ReadError → Text
  | .missing => "No such file or directory (os error 2)".toList
  | .throughFile => "Not a directory (os error 20)".toList
  | .folder => "Is a directory (os error 21)".toList
  | .nameTooLong => "File name too long (os error 36)".toList
  | .holdsNul => "file name contained an unexpected NUL byte".toList
  | .notUtf8 => "stream did not contain valid UTF-8".toList
  | .other reason => reason

/-! ## Paths -/

/-- The names between the slashes; `n` slashes give `n + 1` names, some perhaps empty. -/
def pathNames : Text → List Text
  | [] => [[]]
  | c :: rest =>
    match c, pathNames rest with
    | '/', names => [] :: names
    | c, [] => [[c]]
    | c, name :: names => (c :: name) :: names

/-- An empty name and a single dot stay where they are. -/
def staysPut (name : Text) : Bool := name.isEmpty || name == ['.']

/-- A name may take 255 bytes. -/
def nameLimit : Nat := 255

/-- A path takes fewer bytes than this. -/
def pathLimit : Nat := 4096

/-! ## Folders -/

inductive Content
  | file (bytes : List UInt8)
  | folder
  deriving DecidableEq

/-- Contents by their place under the folder. The folders on the way to a place exist with
    it, and of two contents for one place the later counts. -/
structure Folder where
  entries : List (List Text × Content)

namespace Folder

def empty : Folder := ⟨[]⟩

def put (folder : Folder) (path : Text) (content : Content) : Folder :=
  ⟨((pathNames path).filter (!staysPut ·), content) :: folder.entries⟩

def at? (folder : Folder) (place : List Text) : Option Content :=
  match folder.entries.find? (·.1 = place) with
  | some entry => some entry.2
  | none => if place.isEmpty || folder.entries.any (place.isPrefixOf ·.1) then some .folder else none

/-! ## Walks -/

inductive Spot
  | file (bytes : List UInt8)
  /-- The folder at this place. -/
  | inside (place : List Text)
  | outside

def enter (folder : Folder) (place : List Text) : Except ReadError Spot :=
  match folder.at? place with
  | some (.file bytes) => .ok (.file bytes)
  | some .folder => .ok (.inside place)
  | none => .error .missing

/-- One name further. -/
def step (folder : Folder) (spot : Spot) (name : Text) : Except ReadError Spot :=
  match spot with
  | .file _ => .error .throughFile
  | .inside place =>
    if staysPut name then .ok spot
    else if name = ['.', '.'] then .ok (if place.isEmpty then .outside else .inside place.dropLast)
    else if nameLimit < name.utf8.length then .error .nameTooLong
    else folder.enter (place ++ [name])
  | .outside =>
    if staysPut name || name == ['.', '.'] then .ok spot
    else if nameLimit < name.utf8.length then .error .nameTooLong
    else .error .missing

/-- A path that starts with a slash starts outside. -/
def start (path : Text) : Spot := if path.head? = some '/' then .outside else .inside []

def walk (folder : Folder) (path : Text) : Except ReadError Spot :=
  (pathNames path).foldlM folder.step (start path)

/-- The bytes of the regular file at `path`. -/
def read (folder : Folder) (path : Text) : Except ReadError (List UInt8) :=
  if '\x00' ∈ path then .error .holdsNul
  else if path.isEmpty then .error .missing
  else if pathLimit ≤ path.utf8.length then .error .nameTooLong
  else match folder.walk path with
    | .ok (.file bytes) => .ok bytes
    | .ok _ => .error .folder
    | .error reason => .error reason

end Folder

end LoxFront
