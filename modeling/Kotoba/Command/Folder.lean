import Kotoba.Text.Decimal
import Kotoba.Text.Escaped
import Kotoba.Text.Utf8

/-!
Paths, why a file cannot be read, and a folder of files held in memory.
-/

namespace Kotoba.Command

/-- A path without empty and idle parts. -/
structure Path where
  /-- Nothing, or the slashes in front of an absolute path. -/
  root : Text
  parts : List Text
deriving DecidableEq, Repr

namespace Path

/-- One slash in front or more than two mean the same; two are kept. -/
def rootOf : Text → Text
  | '/' :: '/' :: '/' :: _ => ['/']
  | '/' :: '/' :: _ => ['/', '/']
  | '/' :: _ => ['/']
  | _ => []

def ofText (t : Text) : Path :=
  ⟨rootOf t, (t.cut ['/']).filter fun p ↦ p ≠ ['/'] && p ≠ ['.']⟩

def text (p : Path) : Text :=
  if p.root = [] ∧ p.parts = [] then ['.'] else p.root ++ Text.join ['/'] p.parts

end Path

inductive Unreadable where
  | missing
  | notFolder
  | isFolder
  | nameTooLong
deriving DecidableEq, Repr

namespace Unreadable

def number : Unreadable → Nat
  | missing => 2
  | notFolder => 20
  | isFolder => 21
  | nameTooLong => 36

def reason : Unreadable → Text
  | missing => "No such file or directory".toList
  | notFolder => "Not a directory".toList
  | isFolder => "Is a directory".toList
  | nameTooLong => "File name too long".toList

def message (u : Unreadable) (p : Path) : Text :=
  "[Errno ".toList ++ Text.ofNat u.number ++ "] ".toList ++ u.reason ++ ": ".toList ++
    p.text.escaped

end Unreadable

/-- The files of a folder, by the parts of their paths. -/
structure Folder where
  files : List (List Text × List UInt8)

namespace Folder

def file? (f : Folder) (parts : List Text) : Option (List UInt8) := f.files.lookup parts

/-- There is a file in this place or in a place below. -/
def hasFolder (f : Folder) (parts : List Text) : Bool :=
  f.files.any fun p ↦ parts.isPrefixOf p.1

/-- Where a walk along a path has come to, seen from the folder. -/
inductive Spot where
  | inside (parts : List Text)
  | outside
deriving DecidableEq, Repr

/-- Walks along a path. Outside the folder nothing is known but folders further up. -/
def walk (f : Folder) : Spot → List Text → Except Unreadable (List UInt8)
  | _, [] => .error .isFolder
  | spot, p :: ps =>
    if 255 < p.utf8Size then .error .nameTooLong
    else if p = ['.', '.'] then
      match spot with
      | .outside | .inside [] => walk f .outside ps
      | .inside parts => walk f (.inside parts.dropLast) ps
    else
      match spot with
      | .outside => .error .missing
      | .inside parts =>
        match f.file? (parts ++ [p]) with
        | some bytes => if ps = [] then .ok bytes else .error .notFolder
        | none =>
          if f.hasFolder (parts ++ [p]) then walk f (.inside (parts ++ [p])) ps
          else .error .missing

def read (f : Folder) (p : Path) : Except Unreadable (List UInt8) :=
  if 4096 ≤ p.text.utf8Size then .error .nameTooLong
  else f.walk (if p.root = [] then .inside [] else .outside) p.parts

end Folder

end Kotoba.Command
