import LiveMarkup.Files.Path
import LiveMarkup.Text.Utf8

/-!
# File trees

A file tree held in memory: the files and directories below one directory, each under its steps.
Reading a text follows the steps of a path one by one, as a file system does: a step into a
directory must name something in it, and only a directory has steps below it. What lies outside of
the tree is not known, so that no name is found there.
-/

namespace LiveMarkup

/-- Why a text cannot be read from a path. -/
inductive ReadFailure where
  /-- There is nothing of that name. -/
  | notFound
  /-- There is something, but it is no text or cannot be reached that way. -/
  | other
deriving DecidableEq, Repr

/-- A file, or a directory whose entries stand for themselves. -/
inductive FileEntry where
  | file (content : List UInt8)
  | directory

/-- The files and directories below one directory, each under its steps. -/
structure FileTree where
  entries : List (List String × FileEntry)

namespace FileTree

/-- No files. -/
def empty : FileTree := ⟨[]⟩

/-- Adds the directories above a path. -/
def addParents (t : FileTree) (steps : List String) : FileTree :=
  ⟨t.entries ++ (List.range steps.length).map fun i ↦ (steps.take i, .directory)⟩

/-- Adds a file or directory, in place of what is there, with the directories above it. -/
def insert (t : FileTree) (path : String) (entry : FileEntry) : FileTree :=
  let steps := Path.steps path
  ⟨(steps, entry) :: (t.addParents steps).entries⟩

/-- What the steps lead to. -/
def find? (t : FileTree) (steps : List String) : Option FileEntry :=
  if steps.isEmpty then some .directory else t.entries.lookup steps

/-- Where one stands while following a path: in a directory of the tree, given by its steps, or
outside of the tree. -/
inductive Place where
  | inside (steps : List String)
  | outside

/-- The most bytes that the name of a single step may have. -/
def maxNameLength : Nat := 255

/-- The number of bytes from which on a path is too long. -/
def maxPathLength : Nat := 4096

/-- Follows the steps of a path from a directory. -/
def follow (t : FileTree) : Place → List String → Except ReadFailure FileEntry
  | _, [] => .ok .directory
  | place, step :: rest =>
    if step == "" || step == "." then t.follow place rest
    else if step == ".." then
      match place with
      | .inside [] | .outside => t.follow .outside rest
      | .inside steps => t.follow (.inside steps.dropLast) rest
    else if maxNameLength < step.utf8ByteSize then .error .other
    else match place with
      | .outside => .error .notFound
      | .inside steps =>
        match t.find? (steps ++ [step]), rest with
        | none, _ => .error .notFound
        | some .directory, rest => t.follow (.inside (steps ++ [step])) rest
        | some entry, [] => .ok entry
        | some (.file _), _ :: _ => .error .other

/-- Reads the text of a file. -/
def readText (t : FileTree) (path : String) : Except ReadFailure String :=
  if path.isEmpty then .error .notFound
  else if path.toList.contains '\x00' || maxPathLength ≤ path.utf8ByteSize then .error .other
  else
    match t.follow (if Path.isAbsolute path then .outside else .inside []) (Path.rawSteps path) with
    | .error e => .error e
    | .ok .directory => .error .other
    | .ok (.file content) =>
      match Utf8.decode? content with
      | some text => .ok (String.ofList text)
      | none => .error .other

end FileTree

end LiveMarkup
