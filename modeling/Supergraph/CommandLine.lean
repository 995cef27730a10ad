import Supergraph.FileTree
import Supergraph.Fusion.Compose
import Supergraph.Fusion.Elision
import Supergraph.Fusion.Recovery
import Supergraph.Schema.Assembly
import Supergraph.Schema.Writing
import Supergraph.Validity

/-!
# The command line

The command `compose` reads a schema, registers the vocabulary on it and writes
the result: validated and with the vocabulary, or without it if it is to be
hidden.  This module holds all of it except for reading files and writing to the
terminal.
-/

namespace Supergraph
namespace CommandLine

/-- The arguments of the command. -/
structure Arguments where
  /-- The file with the schema, or `-` for standard input. -/
  path : String
  qualifier : Option String
  qualifyRoot : Bool
  hideFusion : Bool
  deriving DecidableEq

/-- What has been seen of the arguments so far. -/
structure Seen where
  path : Option String
  qualifier : Option String
  qualifyRoot : Bool
  hideFusion : Bool
  deriving DecidableEq

namespace Seen

/-- No argument. -/
def nothing : Seen where
  path := none
  qualifier := none
  qualifyRoot := false
  hideFusion := false

/-- Takes the path; there is only one, and it is not empty. -/
def takePath (s : Seen) (path : String) : Option Seen :=
  if s.path.isSome || path.isEmpty then none else some { s with path := some path }

/-- Takes the prefix; there is only one. -/
def takeQualifier (s : Seen) (q : String) : Option Seen :=
  if s.qualifier.isSome then none else some { s with qualifier := some q }

/-- Takes the option that the root directive is to be prefixed; it is given
once. -/
def takeQualifyRoot (s : Seen) : Option Seen :=
  if s.qualifyRoot then none else some { s with qualifyRoot := true }

/-- Takes the option that the vocabulary is to be hidden; it is given once. -/
def takeHideFusion (s : Seen) : Option Seen :=
  if s.hideFusion then none else some { s with hideFusion := true }

/-- All arguments are there, and an option that needs another one has it. -/
def finish? (s : Seen) : Option Arguments :=
  match s.path with
  | some path =>
      if s.qualifyRoot && s.qualifier.isNone then none
      else some ⟨path, s.qualifier, s.qualifyRoot, s.hideFusion⟩
  | none => none

end Seen

/-- The text looks like an option. -/
def looksLikeOption (s : String) : Bool :=
  s.toList.head? == some '-'

/-- The value behind the equals sign of the prefix option. -/
def attachedQualifier? (s : String) : Option String :=
  let option := "--prefix=".toList
  if option.isPrefixOf s.toList then some (String.ofList (s.toList.drop option.length)) else none

/-- Reads arguments of which each is a path. -/
def readPaths : Seen → List String → Option Seen
  | s, [] => some s
  | s, a :: as => (s.takePath a).bind (fun s => readPaths s as)

/-- Reads options and paths in any order; behind `--` there are only paths. -/
def readArguments : Seen → List String → Option Seen
  | s, [] => some s
  | s, "--" :: as => readPaths s as
  | s, "--prefix" :: q :: as =>
      if looksLikeOption q then none
      else (s.takeQualifier q).bind (fun s => readArguments s as)
  | s, "--prefix-self" :: as => s.takeQualifyRoot.bind (fun s => readArguments s as)
  | s, "--hide-fusion" :: as => s.takeHideFusion.bind (fun s => readArguments s as)
  | s, a :: as =>
      match attachedQualifier? a with
      | some q => (s.takeQualifier q).bind (fun s => readArguments s as)
      | none =>
          if looksLikeOption a && a != "-" then none
          else (s.takePath a).bind (fun s => readArguments s as)

/-- The arguments of the command, unless it is used wrongly. -/
def parse? : List String → Option Arguments
  | "compose" :: as => (readArguments .nothing as).bind Seen.finish?
  | _ => none

/-- How the command ends. -/
inductive Outcome where
  /-- It is used wrongly. -/
  | usage
  /-- The schema cannot be read, or is not valid in the end. -/
  | diagnostics
  /-- It fails with this message. -/
  | failed (message : String)
  /-- It writes this text. -/
  | written (sdl : String)
  deriving DecidableEq

namespace Outcome

/-- The exit code. -/
def exitCode : Outcome → Nat
  | .usage => 2
  | .diagnostics => 1
  | .failed _ => 1
  | .written _ => 0

end Outcome

namespace Arguments

/-- The configuration that is asked for. -/
def config (a : Arguments) : Config :=
  .of a.qualifier a.qualifyRoot

/-- The schema comes from standard input: the path is a hyphen, with nothing behind
it that would lead further. -/
def readsStandardInput (a : Arguments) : Bool :=
  match FileTree.pathNames a.path with
  | n :: ns => n == "-" && ns.all (fun n => n == "" || n == ".")
  | [] => false

/-- The message for a file that cannot be read. -/
def unreadable (a : Arguments) (e : ReadFailure) : String :=
  let source := if a.readsStandardInput then "stdin" else a.path
  "reading schema from " ++ source ++ "\n\nCaused by:\n    " ++ e.message

/-- Composes the schema with this text and writes the result. -/
def compose (a : Arguments) (sdl : String) : Outcome :=
  match Schema.parse sdl with
  | .error _ => .diagnostics
  | .ok schema =>
      match Vocabulary.ofConfig a.config with
      | .error e => .failed e.message
      | .ok v =>
          match (Target.ofSchema schema).compose v Templates.builtIn with
          | (_, .error e) => .failed e.message
          | (f, .ok _) =>
              if a.hideFusion then .written f.elide.text
              else
                match f.schema.validated? with
                | some s => .written s.text
                | none => .diagnostics

/-- Runs the command on what was read: the text of the schema, or why there is
none. -/
def run (a : Arguments) : Except ReadFailure String → Outcome
  | .ok sdl => a.compose sdl
  | .error e => .failed (a.unreadable e)

/-- Runs the command on a machine with these files. -/
def runOn (a : Arguments) (files : FileTree) (standardInput : String) : Outcome :=
  a.run (if a.readsStandardInput then .ok standardInput else files.read a.path)

end Arguments

end CommandLine
end Supergraph
