/-!
# Files

Reading the text of a file at a path: `FileTree.read` follows the path from one
directory to the next and says why there is no text at its end, if there is none.

`FileTree.bare` is the tree of a machine on which nobody has put any file: the
directories and special files that every Unix system has, and nothing else.
-/

namespace Supergraph

/-- Why there is no text to be read at a path. -/
inductive ReadFailure where
  /-- There is nothing at this path. -/
  | missing
  /-- The path leads through something that is no directory. -/
  | notDirectory
  /-- There is a directory at this path. -/
  | isDirectory
  /-- A name in the path, or the path as a whole, is too long. -/
  | nameTooLong
  /-- What is there is no UTF-8 text. -/
  | notText
  /-- Anything else, in the words of the system. -/
  | other (cause : String)
  deriving DecidableEq

/-- What is found at a path. -/
inductive FileTree where
  | directory (entries : List (String × FileTree))
  | text (contents : String)
  /-- A file whose contents are no text. -/
  | binary

namespace ReadFailure

/-- The message of a system error with its number. -/
def numbered (message : String) (number : Nat) : String :=
  message ++ " (os error " ++ toString number ++ ")"

/-- The failure in words. -/
def message : ReadFailure → String
  | .missing => numbered "No such file or directory" 2
  | .notDirectory => numbered "Not a directory" 20
  | .isDirectory => numbered "Is a directory" 21
  | .nameTooLong => numbered "File name too long" 36
  | .notText => "stream did not contain valid UTF-8"
  | .other cause => cause

end ReadFailure

namespace FileTree

section Reading

/-- The names in a path.  The path begins at the root if the first one is empty;
any other empty name means nothing. -/
def pathNames (path : String) : List String :=
  path.splitOn "/"

/-- A name has at most so many bytes. -/
def maxNameSize : Nat := 255

/-- A path has at most so many bytes. -/
def maxPathSize : Nat := 4095

/-- The entry of a directory. -/
def entry? (n : String) : FileTree → Except ReadFailure FileTree
  | .directory entries =>
      if n.utf8ByteSize > maxNameSize then .error .nameTooLong
      else
        match entries.find? (fun e => e.1 == n) with
        | some e => .ok e.2
        | none => .error .missing
  | _ => .error .notDirectory

/-- The tree is a directory. -/
def isDirectory : FileTree → Bool
  | .directory _ => true
  | _ => false

/-- Follows names from `here`, which lies in the directories `around`, from the
inside out.  The root lies in itself. -/
def follow (here : FileTree) (around : List FileTree) : List String → Except ReadFailure FileTree
  | [] => .ok here
  | n :: ns =>
      if n = "" ∨ n = "." then
        if here.isDirectory then follow here around ns else .error .notDirectory
      else if n = ".." then
        match here.isDirectory, around with
        | false, _ => .error .notDirectory
        | true, [] => follow here [] ns
        | true, outer :: around => follow outer around ns
      else
        match here.entry? n with
        | .ok inner => follow inner (here :: around) ns
        | .error e => .error e

/-- The text of a file, if it is one. -/
def text? : FileTree → Except ReadFailure String
  | .directory _ => .error .isDirectory
  | .text contents => .ok contents
  | .binary => .error .notText

/-- Reads the file at a path in the tree with this root.  A path that does not
begin at the root begins in an empty directory beside all others. -/
def read (root : FileTree) (path : String) : Except ReadFailure String := do
  if path.utf8ByteSize > maxPathSize then throw .nameTooLong
  let found ← match pathNames path with
    | "" :: ns => root.follow [] ns
    | ns => (directory []).follow [root] ns
  found.text?

end Reading

section Bare

/-- A directory with nothing in it. -/
def empty : FileTree :=
  .directory []

/-- The open files of the program that reads: standard input. -/
def openFiles (standardInput : String) : FileTree :=
  .directory [("0", .text standardInput)]

/-- The special files of every system. -/
def devices (standardInput : String) : FileTree :=
  .directory
    [ ("null", .text ""),
      ("stdin", .text standardInput),
      ("fd", openFiles standardInput),
      ("pts", empty),
      ("shm", empty) ]

/-- What the system says about the program that reads. -/
def processes (standardInput : String) : FileTree :=
  .directory
    [("self", .directory [("exe", .binary), ("cwd", empty), ("fd", openFiles standardInput)])]

/-- The commands of every system. -/
def commands : FileTree :=
  .directory [("sh", .binary), ("cat", .binary), ("ls", .binary)]

/-- The tree of a machine on which nobody has put any file, with what the program is
given on standard input. -/
def bare (standardInput : String) : FileTree :=
  .directory
    [ ("bin", commands),
      ("dev", devices standardInput),
      ("etc", empty),
      ("home", empty),
      ("lib", empty),
      ("media", empty),
      ("mnt", empty),
      ("opt", empty),
      ("proc", processes standardInput),
      ("root", empty),
      ("run", empty),
      ("sbin", empty),
      ("srv", empty),
      ("sys", empty),
      ("tmp", empty),
      ("usr", .directory [("bin", commands), ("lib", empty), ("local", empty), ("share", empty)]),
      ("var", .directory [("log", empty), ("tmp", empty)]) ]

end Bare

end FileTree

end Supergraph
