namespace Stencil

-- Templates and bindings are named by the path of a file.
inductive Command
  | render (template : String) (bindings : Option String) (json noCode : Bool)
  | tokens (template : String) (json : Bool)
  | tree (template : String) (json : Bool)
  deriving DecidableEq, Inhabited

-- What a command line asks for.
inductive Request
  | run (command : Command)
  | help
  | version
  deriving DecidableEq, Inhabited

inductive Command.Verb
  | render
  | tokens
  | tree
  deriving DecidableEq, Inhabited

-- The options and the template given so far. They may come in any order after the name of a
-- command; what follows `--` is never an option, and neither is a single hyphen.
structure Command.Options where
  template : Option String := none
  bindings : Option String := none
  json     : Bool := false
  noCode   : Bool := false
  deriving DecidableEq, Inhabited

namespace Command

def Verb.ofName? : String → Option Verb
  | "render" => some .render
  | "tokens" => some .tokens
  | "tree"   => some .tree
  | _        => none

-- Without a template there is no command.
def ofOptions? (o : Options) : Verb → Option Command
  | .render => o.template.map (.render · o.bindings o.json o.noCode)
  | .tokens => o.template.map (.tokens · o.json)
  | .tree   => o.template.map (.tree · o.json)

namespace Options

-- Each of these is given at most once, and a path is not empty.
def setTemplate? (o : Options) (path : String) : Option Options :=
  if o.template.isSome ∨ path = "" then none else some { o with template := some path }

def setBindings? (o : Options) (path : String) : Option Options :=
  if o.bindings.isSome ∨ path = "" then none else some { o with bindings := some path }

def setJson? (o : Options) : Option Options :=
  if o.json then none else some { o with json := true }

def setNoCode? (o : Options) : Option Options :=
  if o.noCode then none else some { o with noCode := true }

end Options

-- An argument that begins with a hyphen, unless it is only that, is an option.
def isOption (arg : String) : Bool :=
  arg.startsWith "-" && arg != "-"

-- The value that is attached to the option for bindings: `-bV`, `-b=V` or `--bindings=V`.
def attachedBindings? (arg : String) : Option String :=
  match arg.toList with
  | '-' :: 'b' :: '=' :: cs => some (String.ofList cs)
  | '-' :: 'b' :: c :: cs   => some (String.ofList (c :: cs))
  | cs                      =>
    let long := "--bindings=".toList
    if long.isPrefixOf cs then some (String.ofList (cs.drop long.length)) else none

-- Reads the arguments after the name of a command. `plain` says that no more options follow.
def parse? (verb : Verb) (o : Options) (plain : Bool) : List String → Option Request
  | []        => (ofOptions? o verb).map .run
  | arg :: as =>
    if plain || !isOption arg then do parse? verb (← o.setTemplate? arg) plain as
    else if arg = "--" then parse? verb o true as
    else if arg = "--help" || arg.startsWith "-h" then some .help
    else if arg = "--json" then do parse? verb (← o.setJson?) plain as
    else if verb ≠ .render then none
    else if arg = "--no-code" then do parse? verb (← o.setNoCode?) plain as
    else if arg = "--bindings" || arg = "-b" then
      match as with
      | []          => none
      | value :: as =>
        if isOption value then none else do parse? verb (← o.setBindings? value) plain as
    else
      match attachedBindings? arg with
      | some value => do parse? verb (← o.setBindings? value) plain as
      | none       => none

end Command

-- Help is given on the program, on itself, or on one command.
def Request.ofHelp? : List String → Option Request
  | []     => some .help
  | [name] => if name = "help" ∨ (Command.Verb.ofName? name).isSome then some .help else none
  | _      => none

-- What the arguments of the program ask for, if they make sense.
def Request.ofArguments? : List String → Option Request
  | []        => none
  | arg :: as =>
    if arg = "--version" || arg.startsWith "-V" then some .version
    else if arg = "--help" || arg.startsWith "-h" then some .help
    else if arg = "help" then ofHelp? as
    else
      match Command.Verb.ofName? arg with
      | some verb => Command.parse? verb {} false as
      | none      => none

end Stencil
