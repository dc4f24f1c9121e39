import HeaderBindings.Files.System

/-!
A tree of files as a value. Every node is found under the names that lead to it from the working
directory, which is also the root. Main operations: following a path, listing, making directories
and writing, each with the failures that a real file system has.
-/

namespace HeaderBindings

/-- A file's text, if its bytes are text, or a directory. -/
inductive FileNode where
  | file (content : Option Text)
  | directory
  deriving DecidableEq, Repr

structure FileTree where
  nodes : List (List Text × FileNode) := []
  deriving DecidableEq, Repr

namespace FileTree

def node? (tree : FileTree) (names : List Text) : Option FileNode :=
  if names.isEmpty then some .directory
  else (tree.nodes.find? (·.1 == names)).map (·.2)

def isDirectoryAt (tree : FileTree) (names : List Text) : Bool :=
  tree.node? names == some .directory

/-- A node put under its names, in place of the one there or after all others. -/
def put (tree : FileTree) (names : List Text) (node : FileNode) : FileTree :=
  if (tree.node? names).isSome then
    { nodes := tree.nodes.map fun entry => if entry.1 = names then (names, node) else entry }
  else { nodes := tree.nodes ++ [(names, node)] }

def remove (tree : FileTree) (names : List Text) : FileTree :=
  { nodes := tree.nodes.filter (·.1 != names) }

/-- Where steps lead from a node; every node on the way has to be a directory. -/
def follow (tree : FileTree) : (here steps : List Text) → Option (List Text)
  | here, [] => some here
  | here, step :: steps =>
    if !tree.isDirectoryAt here then none
    else if step = ['.'] then follow tree here steps
    else if step = ['.', '.'] then follow tree here.dropLast steps
    else if (tree.node? (here ++ [step])).isSome then follow tree (here ++ [step]) steps
    else none

def endsInSlash (path : Text) : Bool := path.getLast? == some '/'

/-- The node that a path leads to, with its names; a slash at the end asks for a directory. -/
def lookup (tree : FileTree) (path : Text) : Option (List Text × FileNode) :=
  if !Path.usable path then none
  else (tree.follow [] (Path.steps path)).bind fun names =>
    (tree.node? names).bind fun node =>
      if endsInSlash path && node != .directory then none else some (names, node)

def kindOf : FileNode → FileKind
  | .file _ => .file
  | .directory => .directory

def kind? (tree : FileTree) (path : Text) : Option FileKind :=
  (tree.lookup path).map fun found => kindOf found.2

def isDirectory (tree : FileTree) (path : Text) : Bool := tree.kind? path == some .directory

/-- The nodes right below a directory, by their last names. -/
def children (tree : FileTree) (names : List Text) : List (Text × FileKind) :=
  tree.nodes.filterMap fun entry => match entry.1.getLast? with
    | some name => if entry.1.dropLast = names then some (name, kindOf entry.2) else none
    | none => none

def entries? (tree : FileTree) (path : Text) : Option (List (Text × FileKind)) :=
  match tree.lookup path with
  | some (names, .directory) => some (tree.children names)
  | _ => none

def readText? (tree : FileTree) (path : Text) : Option Text :=
  match tree.lookup path with
  | some (_, .file content) => content
  | _ => none

/-- What making one directory leads to. -/
inductive Making where
  | made (tree : FileTree)
  | parentMissing
  | refused

/-- Whether steps fail because something is missing rather than because it is not a directory. -/
def isMissing (tree : FileTree) : (here steps : List Text) → Bool
  | _, [] => false
  | here, step :: steps =>
    if !tree.isDirectoryAt here then false
    else if step = ['.'] then isMissing tree here steps
    else if step = ['.', '.'] then isMissing tree here.dropLast steps
    else if (tree.node? (here ++ [step])).isSome then isMissing tree (here ++ [step]) steps
    else true

/-- Makes one directory below a directory that is there. -/
def makeDirectory (tree : FileTree) (path : Text) : Making :=
  let steps := Path.steps path
  match Path.usable path, steps.getLast? with
  | true, some name => match tree.follow [] steps.dropLast with
    | some names =>
      if !tree.isDirectoryAt names || name = ['.'] || name = ['.', '.']
          || (tree.node? (names ++ [name])).isSome then .refused
      else .made (tree.put (names ++ [name]) .directory)
    | none => if tree.isMissing [] steps.dropLast then .parentMissing else .refused
  | _, _ => .refused

/-- Makes a directory below one that is there; the flag tells whether it is there afterwards. -/
def makeLast (tree : FileTree) (path : Text) : Bool × FileTree :=
  match tree.makeDirectory path with
  | .made tree => (true, tree)
  | _ => (tree.isDirectory path, tree)

/-- Makes a directory and those above it that are missing, given the paths above it. -/
def makeDirectoriesBelow (tree : FileTree) (path : Text) : (above : List Text) → Bool × FileTree
  | [] => if path.isEmpty then (true, tree) else tree.makeLast path
  | parent :: above => match tree.makeDirectory path with
    | .parentMissing => match makeDirectoriesBelow tree parent above with
      | (true, tree) => tree.makeLast path
      | (false, tree) => (false, tree)
    | _ => tree.makeLast path

def makeDirectories (tree : FileTree) (path : Text) : Bool × FileTree :=
  tree.makeDirectoriesBelow path (Path.above path)

/-- Writes a text file into a directory that is there, over a file of its name. -/
def writeText (tree : FileTree) (path content : Text) : Bool × FileTree :=
  let steps := Path.steps path
  match Path.usable path && !endsInSlash path, steps.getLast? with
  | true, some name => match tree.follow [] steps.dropLast with
    | some names =>
      if !tree.isDirectoryAt names || name = ['.'] || name = ['.', '.']
          || tree.isDirectoryAt (names ++ [name]) then (false, tree)
      else (true, tree.put (names ++ [name]) (.file (some content)))
    | none => (false, tree)
  | _, _ => (false, tree)

end FileTree

/-- A tree of files and what has been reported so far. -/
structure World where
  tree : FileTree
  events : List Event := []
  deriving DecidableEq, Repr

namespace World

def look {α : Type} (question : FileTree → α) : StateM World α := do
  return question (← get).tree

def act {α : Type} (action : FileTree → α × FileTree) : StateM World α :=
  modifyGet fun world =>
    let done := action world.tree
    (done.1, { world with tree := done.2 })

instance : FileSystem (StateM World) where
  kind? path := look (·.kind? path)
  entries? path := look (·.entries? path)
  readText? path := look (·.readText? path)
  makeDirectories path := act (·.makeDirectories path)
  writeText path content := act (·.writeText path content)
  report event := modify fun world => { world with events := world.events ++ [event] }

end World

end HeaderBindings
