/-!
# Paths

Paths are texts whose steps are separated by slashes. Empty steps and the step `.` say nothing. The
stem of a path is its last step without the last dot and what follows it; a dot in front begins no
ending.
-/

namespace LiveMarkup.Path

/-- The steps of a path, with empty ones; at least one. -/
def splitSlashes : List Char → List Char × List (List Char)
  | [] => ([], [])
  | c :: r =>
    let (first, rest) := splitSlashes r
    if c = '/' then ([], first :: rest) else (c :: first, rest)

/-- The steps of a path, with empty ones. -/
def rawSteps (path : String) : List String :=
  let (first, rest) := splitSlashes path.toList
  (first :: rest).map String.ofList

/-- The steps of a path that say something. -/
def steps (path : String) : List String :=
  (rawSteps path).filter fun s ↦ s != "" && s != "."

/-- Whether a path does not depend on where one stands. -/
def isAbsolute (path : String) : Bool := path.toList.head? == some '/'

/-- The path of `file` as seen from `root`: an absolute one replaces the root, and a slash comes
between the two unless the root is empty or ends with one. -/
def join (root file : String) : String :=
  if isAbsolute file then file
  else if root.isEmpty || root.toList.getLast? == some '/' then root ++ file
  else root ++ "/" ++ file

/-- The text before the last dot, if that is not in front. -/
def dropEnding (name : List Char) : List Char :=
  let before := (name.reverse.dropWhile (· != '.')).drop 1
  if before.isEmpty then name else before.reverse

/-- The stem of the last step, if the path ends with a step that names something. -/
def stem? (path : String) : Option String :=
  match (steps path).getLast? with
  | none | some ".." => none
  | some name => some (String.ofList (dropEnding name.toList))

end LiveMarkup.Path
