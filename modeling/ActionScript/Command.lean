import ActionScript.Diagnostic.Snippet
import ActionScript.Tree.Dump
import ActionScript.Workspace

/-!
# The command line

What a run of the command does with its arguments and the files it can read: what it prints, and how
it ends.  A deadline is either past from the start or never reached.
-/

set_option autoImplicit false

namespace ActionScript

/-- What the command is asked to do. -/
inductive Command where
  /-- Print the tree of a file. -/
  | parse (path : String) (debug : Bool) (maxNodes timeoutMs : Option Nat)
  /-- Report what is wrong with a file. -/
  | check (path : String) (plain : Bool)
  /-- Print the tokens of a file. -/
  | tokens (path : String)
  deriving DecidableEq, Repr

/-- How a run ends and what it prints. -/
structure Outcome where
  exit : Nat
  stdout : String := ""
  stderr : String := ""
  deriving DecidableEq, Repr

/-- Why a file cannot be read. -/
inductive ReadError where
  | notFound
  | denied
  | isDirectory
  /-- A part of the path that is to be a directory is none. -/
  | notDirectory
  | nameTooLong
  /-- The file is not UTF-8. -/
  | notText
  | other (message : String)
  deriving DecidableEq, Repr

/-- The wording of a read error. -/
def ReadError.message : ReadError → String
  | .notFound => "No such file or directory (os error 2)"
  | .denied => "Permission denied (os error 13)"
  | .isDirectory => "Is a directory (os error 21)"
  | .notDirectory => "Not a directory (os error 20)"
  | .nameTooLong => "File name too long (os error 36)"
  | .notText => "stream did not contain valid UTF-8"
  | .other message => message

namespace Command

/-! ## Arguments -/

/-- What the arguments of a subcommand say so far. -/
structure Arguments where
  paths : List String := []
  flags : List String := []
  values : List (String × Nat) := []

/-- The options of a subcommand: those on their own, and those with a number. -/
structure Options where
  flags : List String := []
  values : List String := []

/-- A number of at most 64 bits, which may have a plus sign in front. -/
def number? (s : String) : Option Nat :=
  let digits := match s.toList with
    | '+' :: digits => digits
    | digits => digits
  let n := digits.foldl (fun n d => 10 * n + (d.toNat - '0'.toNat)) 0
  if !digits.isEmpty && digits.all Char.isDigit && n < 0x10000000000000000 then some n else none

/-- An option with its number, written as `--name=number`. -/
def Options.assigned? (o : Options) (arg : String) : Option (String × Nat) := do
  let name := String.ofList (arg.toList.takeWhile (· != '='))
  let value := String.ofList ((arg.toList.dropWhile (· != '=')).drop 1)
  if o.values.contains name then return (name, ← number? value) else none

/-- Is the argument written like an option? -/
def isOption (arg : String) : Bool := arg.startsWith "-" && arg != "-"

/-- Reads the arguments of a subcommand.  Behind `--` all of them are paths. -/
def readArguments (o : Options) : List String → Option Arguments
  | [] => some {}
  | arg :: args =>
    if arg == "--" then some { paths := args }
    else if o.flags.contains arg then do
      let a ← readArguments o args
      return { a with flags := arg :: a.flags }
    else if o.values.contains arg then
      match args with
      | [] => none
      | value :: args => do
        let n ← number? value
        let a ← readArguments o args
        return { a with values := (arg, n) :: a.values }
    else if isOption arg then do
      let pair ← o.assigned? arg
      let a ← readArguments o args
      return { a with values := pair :: a.values }
    else do
      let a ← readArguments o args
      return { a with paths := arg :: a.paths }

/-- Reads the arguments of the command.  A subcommand takes exactly one path. -/
def ofArguments? : List String → Option Command
  | "parse" :: args =>
    (readArguments ⟨["--debug"], ["--max-nodes", "--timeout-ms"]⟩ args).bind fun a =>
      match a.paths with
      | [path] => some (.parse path (a.flags.contains "--debug") (a.values.lookup "--max-nodes")
          (a.values.lookup "--timeout-ms"))
      | _ => none
  | "check" :: args =>
    (readArguments ⟨["--plain"], []⟩ args).bind fun a =>
      match a.paths with
      | [path] => some (.check path (a.flags.contains "--plain"))
      | _ => none
  | "tokens" :: args =>
    (readArguments {} args).bind fun a =>
      match a.paths with
      | [path] => some (.tokens path)
      | _ => none
  | _ => none

/-! ## Runs -/

/-- A run that fails with a cause. -/
def failure (what path cause : String) : Outcome :=
  ⟨1, "", "Error: failed to " ++ what ++ " `" ++ path ++ "`\n\nCaused by:\n    " ++ cause ++ "\n"⟩

/-- A run that prints something and reports diagnostics.  Any diagnostic makes it fail. -/
def report (renderer : Renderer) (path : String) (text : Text) (stdout : String)
    (diagnostics : List Diagnostic) : Outcome :=
  { exit := if diagnostics.isEmpty then 0 else 1
    stdout
    stderr := String.join (diagnostics.filterMap fun d =>
      (d.notice.render? renderer path text).map (· ++ "\n")) }

/-- Lines, each with its end. -/
def unlines (lines : List Text) : String :=
  String.ofList (lines.flatMap fun l => l ++ ['\n'])

/-- The wording of a parse that gave no tree. -/
def failureMessage : ParseFailure → String
  | .aborted reason => reason.message
  | .unbuildable _ => "no tree"

/-- What shows diagnostics, on a page without colors and on one with colors. -/
structure Renderers where
  plain : Renderer := .plain
  styled : Renderer := .styled

/-- Runs a command on a text. -/
def runOn [Alphabet] (renderers : Renderers) (text : Text) : Command → Outcome
  | .parse path debug maxNodes timeoutMs =>
    match parseWithin { maxNodes, late := fun _ => timeoutMs == some 0 } text with
    | .error e => failure "parse" path (failureMessage e)
    | .ok p =>
      let stdout := if debug then unlines p.tree.dump else String.ofList p.tree.sexp ++ "\n"
      report renderers.styled path text stdout p.diagnostics
  | .check path plain =>
    report (if plain then renderers.plain else renderers.styled) path text ""
      (SourceFile.diagnostics ⟨path, text⟩)
  | .tokens path =>
    match ActionScript.parse text with
    | .error e => failure "parse" path (failureMessage e)
    | .ok p => ⟨0, unlines (p.tree.tokens.map fun t => t.leaf.debug), ""⟩

/-- The path that a command reads. -/
def path : Command → String
  | .parse path .. => path
  | .check path _ => path
  | .tokens path => path

/-- Runs a command with what reading its file gives. -/
def run [Alphabet] (c : Command) (file : Except ReadError Text)
    (renderers : Renderers := {}) : Outcome :=
  match file with
  | .ok text => c.runOn renderers text
  | .error e => failure "read" c.path e.message

/-- What is said about arguments that make no command. -/
def usage : Outcome :=
  ⟨2, "", "error: invalid arguments\n\nUsage: asc <parse|check|tokens> [OPTIONS] <PATH>\n"⟩

end Command

end ActionScript
