import LiveMarkup.Command.Report

/-!
# The command line

`vista check FILE` and `vista render FILE [--data FILE]`, both with `--prefix P` and
`--diagnostics`, each option at most once. An option's value follows as the next argument or after
an equals sign; a value that begins with a minus sign can only follow an equals sign, except for the
minus sign alone. `-v` and `--verbose` are allowed anywhere and say nothing here. `--` ends the
options. A request for help is answered as soon as it is met, and so is one for the version in
front of the command; `help` with the name of a command asks for help too.
-/

namespace LiveMarkup

/-- What the command line asks for. -/
inductive Command where
  | check (path : String) (config : Config)
  | render (path : String) (data : Option String) (config : Config)
deriving Repr

/-- Why a command line is not carried out as a command. -/
inductive Stop where
  /-- It asks for the version. -/
  | version
  /-- It asks for help. -/
  | help
  /-- It makes no sense. -/
  | usage
deriving DecidableEq, Repr

/-- The version of the program. -/
def versionText : String := "vista 0.1.1"

namespace Command

/-- An option that takes a value. -/
inductive ValueOption where
  | mark
  | data
deriving DecidableEq, Repr

/-- An argument, as far as its form tells. -/
inductive Argument where
  /-- `--`. -/
  | endOfOptions
  /-- `--name`, or `--name=value`. -/
  | long (name : String) (value : Option String)
  /-- `-abc`. -/
  | short (flags : List Char)
  | plain (value : String)
deriving Repr

namespace Argument

/-- The text before the first equals sign and what is behind it, if there is one. -/
def splitEquals : List Char → List Char × Option (List Char)
  | [] => ([], none)
  | c :: r =>
    if c = '=' then ([], some r)
    else
      let (before, after) := splitEquals r
      (c :: before, after)

/-- Tells the form of an argument. A single minus sign is a plain value. -/
def ofString (s : String) : Argument :=
  match s.toList with
  | ['-', '-'] => .endOfOptions
  | '-' :: '-' :: r =>
    let (name, value) := splitEquals r
    .long (String.ofList name) (value.map String.ofList)
  | '-' :: c :: r => .short (c :: r)
  | _ => .plain s

end Argument

/-- What was said behind the name of a command. -/
structure Said where
  file : Option String := none
  mark : Option String := none
  data : Option String := none
  diagnostics : Bool := false

namespace Said

/-- Notes the file; there is only one, and its name is not empty. -/
def setFile (s : Said) (file : String) : Except Stop Said :=
  if s.file.isSome || file.isEmpty then .error .usage else .ok { s with file := some file }

/-- Notes the value of an option; each is said at most once, and the name of the data file is not
empty. -/
def setOption (s : Said) (value : String) : ValueOption → Except Stop Said
  | .mark => if s.mark.isSome then .error .usage else .ok { s with mark := some value }
  | .data =>
    if s.data.isSome || value.isEmpty then .error .usage else .ok { s with data := some value }

/-- How templates are read. -/
def config (s : Said) : Config :=
  { mark := s.mark.getD ({} : Config).mark, diagnostics := s.diagnostics }

end Said

/-- The option of that name that takes a value; `withData` says whether the command has data. -/
def valueOption? (withData : Bool) (name : String) : Option ValueOption :=
  if name = "prefix" then some .mark
  else if name = "data" && withData then some .data
  else none

/-- Reads short flags: whether they stop the reading. The version can only be asked for in front of
a command. -/
def readFlags (inFront : Bool) : List Char → Except Stop Unit
  | [] => .ok ()
  | 'v' :: rest => readFlags inFront rest
  | 'h' :: _ => .error .help
  | 'V' :: _ => .error (if inFront then .version else .usage)
  | _ => .error .usage

/-- Reads what stands behind the name of a command. -/
def readSaid (withData : Bool) : Said → List String → Except Stop Said
  | s, [] => .ok s
  | s, arg :: rest =>
    match Argument.ofString arg with
    | .endOfOptions => rest.foldlM Said.setFile s
    | .plain file => (s.setFile file).bind (readSaid withData · rest)
    | .short flags => (readFlags false flags).bind fun _ ↦ readSaid withData s rest
    | .long "help" none => .error .help
    | .long "verbose" none => readSaid withData s rest
    | .long "diagnostics" none =>
      if s.diagnostics then .error .usage
      else readSaid withData { s with diagnostics := true } rest
    | .long name value =>
      match valueOption? withData name, value, rest with
      | none, _, _ => .error .usage
      | some option, some value, rest =>
        (s.setOption value option).bind (readSaid withData · rest)
      | some option, none, value :: rest =>
        match Argument.ofString value with
        | .plain value => (s.setOption value option).bind (readSaid withData · rest)
        | _ => .error .usage
      | some _, none, [] => .error .usage

/-- The command that was named, if a file was. -/
def ofSaid (command : String → Said → Command) (s : Said) : Except Stop Command :=
  match s.file with
  | some file => .ok (command file s)
  | none => .error .usage

/-- What a request for help with the given topics comes to; there is help for the program and for
each command, the request itself among them. -/
def ofHelp : List String → Stop
  | [] | ["check"] | ["render"] | ["help"] => .help
  | _ => .usage

/-- Reads the arguments of a command line. -/
def ofArguments : List String → Except Stop Command
  | [] => .error .usage
  | arg :: rest =>
    match Argument.ofString arg with
    | .long "version" none => .error .version
    | .long "help" none => .error .help
    | .long "verbose" none => ofArguments rest
    | .short flags => (readFlags true flags).bind fun _ ↦ ofArguments rest
    | .plain "check" =>
      (readSaid false {} rest).bind (ofSaid fun file s ↦ .check file s.config)
    | .plain "render" =>
      (readSaid true {} rest).bind (ofSaid fun file s ↦ .render file s.data s.config)
    | .plain "help" => .error (ofHelp rest)
    | _ => .error .usage

end Command

/-- What running the program leaves behind. -/
structure Outcome where
  /-- 0 for success, 1 for a failure, 2 for a command line that makes no sense. -/
  code : Nat
  /-- What is written to the output. -/
  output : String := ""
  /-- The findings that are reported beside the output. -/
  warnings : List Diagnostic := []
  error : Option CommandError := none

namespace Outcome

/-- What is written beside the output: a line for each finding, then the report of the error. -/
def errorOutput (o : Outcome) : String :=
  String.join (o.warnings.map fun d ↦ s!"warning: {d.message}\n") ++
    match o.error with
    | some e => e.report ++ "\n"
    | none => ""

end Outcome

variable {m : Type → Type} [Monad m] (read : String → m (Except ReadFailure String))

/-- Carries out a command. -/
def Command.run : Command → m Outcome
  | .check path config => do
    match ← checkFile read path config with
    | .ok report => return { code := 0, output := report.text ++ "\n" }
    | .error e => return { code := 1, error := some e }
  | .render path data config => do
    match ← renderFile read path data config with
    | (warnings, .ok markup) => return { code := 0, output := markup ++ "\n", warnings }
    | (warnings, .error e) => return { code := 1, warnings, error := some e }

/-- Runs the program on the arguments of its command line. -/
def runCommandLine (arguments : List String) : m Outcome :=
  match Command.ofArguments arguments with
  | .ok command => command.run read
  | .error .version => return { code := 0, output := versionText ++ "\n" }
  | .error .help => return { code := 0 }
  | .error .usage => return { code := 2 }

end LiveMarkup
