import LiveMarkup.Files.Tree
import LiveMarkup.Live.Error

/-!
# Template loaders

A loader finds the source of a template by the template's name: among templates it was given, or
in the file `name.html` of a directory.
-/

namespace LiveMarkup

/-- A source of templates. -/
inductive Loader where
  /-- Templates by name, of which the last of a name counts. -/
  | memory (templates : List (String × String))
  /-- The files of a directory. -/
  | directory (root : String)

namespace Loader

/-- The file of a template in a directory. -/
def pathFor (root name : String) : String := Path.join root (name ++ ".html")

/-- Finds the source of a template, with a way to read files. -/
def load {m : Type → Type} [Monad m] (read : String → m (Except ReadFailure String))
    (name : String) : Loader → m (Except LoadError String)
  | .memory templates =>
    match templates.reverse.lookup name with
    | some source => return .ok source
    | none => return .error (.notFound name)
  | .directory root => do
    match ← read (pathFor root name) with
    | .ok source => return .ok source
    | .error .notFound => return .error (.notFound name)
    | .error .other => return .error (.unreadable (pathFor root name))

end Loader

end LiveMarkup
