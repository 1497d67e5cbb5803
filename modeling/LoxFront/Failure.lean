/-
  LoxFront.Failure — why a command did not succeed, in words and as an exit code.

  Only a path that cannot be read has a cause underneath; its message ends with the
  cause's own words, and the path stands in it as it was given.
-/

import LoxFront.Folder

namespace LoxFront

inductive Failure
  | unknown
  /-- So many errors were reported. -/
  | scan (errors : Nat)
  | unreadable (path : Text) (reason : ReadError)
  deriving DecidableEq

namespace Failure

def text : Failure → Text
  | .unknown => "An unknown error has occurred.".toList
  | .scan errors => "Scanning reported ".toList ++ numeral errors ++ " error(s).".toList
  | .unreadable path reason => "Could not read \"".toList ++ path ++ "\": ".toList ++ reason.text

def cause? : Failure → Option ReadError
  | .unreadable _ reason => some reason
  | _ => none

def exitCode : Failure → Nat
  | .scan _ => 65
  | .unknown => 70
  | .unreadable _ _ => 74

/-- The errors of a scan have been shown when a command fails for them. -/
def hasMessage : Failure → Bool
  | .scan _ => false
  | _ => true

end Failure

end LoxFront
