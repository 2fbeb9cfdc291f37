import Stencil.Command.Arguments
import Stencil.Output.Document
import Stencil.Output.Plain
import Stencil.Symbol.OfJson

namespace Stencil

-- Where a command takes its texts from. What cannot be read as text is none.
structure Environment (m : Type → Type) where
  file  : String → m (Option String)
  input : m (Option String)

-- What a run leaves behind.
@[ext]
structure Exit where
  code   : UInt8 := 0
  stdout : String := ""
  stderr : String := ""
  deriving DecidableEq, Inhabited

-- Why a run stops before it has printed anything.
inductive Failure
  | reading (path : String)
  | readingInput
  | loading (path : String)
  deriving DecidableEq, Inhabited

def Failure.message : Failure → String
  | reading path => "Reading " ++ path
  | readingInput => "Reading template from stdin"
  | loading path => "Loading bindings from " ++ path

def Failure.exit (f : Failure) : Exit :=
  { code := 1, stderr := "Error: " ++ f.message ++ "\n" }

def programName : String :=
  "tagtext"

def versionText : String :=
  programName ++ " 0.1.0\n"

def helpText : String :=
  "Usage: " ++ programName ++ " <COMMAND>\n\nCommands:\n"
    ++ "  render [-b FILE] [--json] [--no-code] <TEMPLATE>\n"
    ++ "  tokens [--json] <TEMPLATE>\n"
    ++ "  tree [--json] <TEMPLATE>\n"

-- A path to the standard input is a hyphen, which separators and dots may follow.
def isInputPath (path : String) : Bool :=
  match path.splitOn "/" with
  | []      => false
  | p :: ps => p = "-" && ps.all (fun q => q = "" || q = ".")

-- The last line of a run with problems.
def Report.summary (r : Report) : String :=
  if r.hasErrors then
    toString r.parseErrors.length ++ " parse error(s), " ++ toString r.errors.length
      ++ " render error(s)\n"
  else ""

namespace Command

def showReport (json : Bool) (r : Report) : Exit :=
  if json then { stdout := r.toJson.document, stderr := r.summary }
  else { stdout := r.plain, stderr := Diagnostic.lines r.diagnostics ++ r.summary }

def showTokens (json : Bool) (text : String) : Exit :=
  let tokens := Token.scan text
  { stdout := if json then (Token.document text tokens).document else Token.plain text tokens }

def showTree (json : Bool) (text : String) : Exit :=
  let template := Template.read text
  { stdout := if json then template.root.toJson.document else template.root.outline
    stderr := Diagnostic.lines template.diagnostics }

variable {m : Type → Type} [Monad m]

def template (env : Environment m) (path : String) : ExceptT Failure m String := do
  if isInputPath path then
    match ← env.input with
    | some text => return text
    | none      => throw .readingInput
  else
    match ← env.file path with
    | some text => return text
    | none      => throw (.reading path)

def bindings (env : Environment m) : Option String → ExceptT Failure m Bindings
  | none      => return .empty
  | some path => do
    match ← env.file path with
    | none      => throw (.reading path)
    | some text =>
      match Bindings.read Json.Number.asDouble text with
      | .ok b    => return b
      | .error _ => throw (.loading path)

-- The template is read before the bindings.
def run (env : Environment m) : Command → ExceptT Failure m Exit
  | render path from? json noCode => do
    let text ← template env path
    let b ← bindings env from?
    return showReport json (Stencil.render ⟨b, !noCode⟩ text)
  | tokens path json => return showTokens json (← template env path)
  | tree path json   => return showTree json (← template env path)

end Command

-- Runs the program with its arguments.
def runProgram {m : Type → Type} [Monad m] (env : Environment m) (args : List String) : m Exit :=
  match Request.ofArguments? args with
  | none          => return { code := 2, stderr := helpText }
  | some .help    => return { stdout := helpText }
  | some .version => return { stdout := versionText }
  | some (.run c) => do
    match ← c.run env with
    | .ok exit   => return exit
    | .error why => return why.exit

end Stencil
