import LiveMarkup.Data.Reader
import LiveMarkup.Files.Tree
import LiveMarkup.Live.Client
import LiveMarkup.Markup.Printer

/-!
# Checking and rendering templates

Checking a template file says whether it has anything to bind and which requests would be skipped.
Rendering binds it to data and answers the markup that a mounted component shows. Both fail with
an error that says what was being done, and why it failed as far as this program knows.
-/

namespace LiveMarkup

/-- Why a template cannot be checked or rendered. -/
inductive CommandError where
  /-- A file cannot be read. -/
  | unreadable (path : String)
  /-- The template is not markup. -/
  | unparsable (path : String) (error : ParseError)
  /-- The data file does not hold a JSON document. -/
  | invalidData (path : String)
  /-- The data is no object. -/
  | dataNotObject
  /-- The component cannot be mounted. -/
  | mount (component : String) (error : MountError)
deriving DecidableEq, Repr

namespace CommandError

/-- The failure in words, then what caused it, from the outermost cause to the innermost. -/
def chain : CommandError → List String
  | .unreadable path => [s!"failed to read {path}"]
  | .unparsable path e => [s!"failed to parse {path}", e.message]
  | .invalidData path => [s!"invalid JSON in {path}"]
  | .dataNotObject => ["view-model data must be a JSON object"]
  | .mount name (.link (.directive directive reason)) =>
    [s!"failed to mount {name}", (LinkError.directive directive reason).message, reason]
  | .mount name e => [s!"failed to mount {name}", e.message]

/-- The failure in words. -/
def message (e : CommandError) : String := e.chain.headD ""

/-- A text behind a heading, whose further lines begin below where the first one does. -/
def hang (heading text : String) : String :=
  let indent := List.replicate heading.length ' '
  heading ++ String.ofList (text.toList.flatMap fun c ↦ if c = '\n' then c :: indent else [c])

/-- The heading of a cause among several: its number, in five columns. -/
def causeHeading (number : Nat) : String :=
  let digits := toString number
  String.ofList (List.replicate (5 - digits.length) ' ') ++ digits ++ ": "

/-- The failure in words, with its causes below; a single cause is not numbered. -/
def report (e : CommandError) : String :=
  let causes := match e.chain.tail with
    | [] => []
    | [cause] => ["", "Caused by:", hang "    " cause]
    | causes =>
      "" :: "Caused by:" :: causes.zipIdx.map fun (cause, i) ↦ hang (causeHeading i) cause
  "\n".intercalate (s!"Error: {e.message}" :: causes)

end CommandError

/-- What checking a template finds. -/
structure CheckReport where
  name : String
  /-- Whether the template has anything to bind. -/
  compiled : Bool
  diagnostics : List Diagnostic

namespace CheckReport

/-- The report in words: a line for the template, and one for each finding. -/
def text (r : CheckReport) : String :=
  let state := if r.compiled then "bindings" else "static"
  r.diagnostics.foldl (fun text d ↦ text ++ "\n  warning: " ++ d.message) s!"{r.name}: {state}"

end CheckReport

/-- What rendering a template gives: the findings, which are known before anything is mounted, and
the markup, unless mounting fails. -/
structure Rendering where
  diagnostics : List Diagnostic
  markup : Except MountError String

/-- The compiler for templates that ask for nothing but interpolation. -/
def builtinCompiler (config : Config) : Compiler Empty := { registry := .builtin, config }

/-- The state in which nothing has happened yet. -/
def initialState : State Value (Routine Empty) (World Empty Unit) := ⟨.empty, { host := () }⟩

/-- The answer of a script that calls for no client code. Effects of its own bindings run no
scripts but their bodies, so that little fuel is enough. -/
def answer {α : Type} [Inhabited α] (p : Live Empty Unit α) : α :=
  match Client.none.run 4 p initialState with
  | some (a, _) => a
  | none => default

/-- Checks a template. -/
def check (name source : String) (config : Config) : Except ParseError CheckReport :=
  answer do
    let compiler ← Live.act fun w ↦ w.addCompiler (builtinCompiler config)
    let vm ← Live.act World.addViewModel
    match ← ComponentId.ofSource name vm compiler source with
    | .error e => return .error e
    | .ok component =>
      Live.ask fun w ↦
        .ok ⟨name, (w.component component).program.isSome, (w.compiler compiler).diagnostics⟩

/-- Renders a template: the markup is what a component shows for the given data, taken while it is
mounted on an otherwise empty node. -/
def render (name source : String) (data : Value) (config : Config) :
    Except ParseError Rendering :=
  answer do
    let compiler ← Live.act fun w ↦ w.addCompiler (builtinCompiler config)
    let vm ← ViewModelId.ofData data
    match ← ComponentId.ofSource name vm compiler source with
    | .error e => return .error e
    | .ok component =>
      let diagnostics ← Live.ask fun w ↦ (w.compiler compiler).diagnostics
      let table ← Live.act World.addTable
      let body ← Live.editWith fun nodes ↦ nodes.create { kind := .element "body" }
      match ← component.mount table body none with
      | .error e => return .ok ⟨diagnostics, .error e⟩
      | .ok () =>
        let markup ← Live.ask fun w ↦ Tree.markupAll (w.nodes.tree body).children
        let _ ← component.unmount table
        return .ok ⟨diagnostics, .ok (String.ofList markup)⟩

/-! ## Files -/

/-- The name of the component whose template is in a file. -/
def componentName (path : String) : String := (Path.stem? path).getD "component"

variable {m : Type → Type} [Monad m] (read : String → m (Except ReadFailure String))

/-- Checks a template file. -/
def checkFile (path : String) (config : Config) : m (Except CommandError CheckReport) := do
  match ← read path with
  | .error _ => return .error (.unreadable path)
  | .ok source =>
    match check (componentName path) source config with
    | .error e => return .error (.unparsable path e)
    | .ok report => return .ok report

/-- Reads the data of a view-model from a file; without one there is none. -/
def readData (path : Option String) : m (Except CommandError Value) := do
  match path with
  | none => return .ok .emptyObject
  | some path =>
    match ← read path with
    | .error _ => return .error (.unreadable path)
    | .ok text =>
      match Value.parse? text.toList with
      | none => return .error (.invalidData path)
      | some (.object members) => return .ok (.object members)
      | some _ => return .error .dataNotObject

/-- Renders a template file with the data of another; answers the findings too. -/
def renderFile (path : String) (data : Option String) (config : Config) :
    m (List Diagnostic × Except CommandError String) := do
  match ← read path with
  | .error _ => return ([], .error (.unreadable path))
  | .ok source =>
    match ← readData read data with
    | .error e => return ([], .error e)
    | .ok data =>
      match render (componentName path) source data config with
      | .error e => return ([], .error (.unparsable path e))
      | .ok r => return (r.diagnostics, r.markup.mapError (.mount (componentName path)))

end LiveMarkup
