import HtmlDoc.Settings.Source

/-!
Files in memory: a tree of directories, and how paths lead through it. A path is walked name by name,
and every name but the last must be that of a directory. One dot stays, two dots go out; above the
root there are directories with nothing in them but the way back up.
-/

namespace HtmlDoc

/-- A file with its bytes, or a directory with what is in it. -/
inductive FileTree where
  | file (bytes : ByteArray)
  | directory (entries : List (String × FileTree))

namespace FileTree

def empty : FileTree := .directory []

def child? : FileTree → String → Option FileTree
  | .file _, _ => none
  | .directory entries, name => entries.lookup name

def lookup? (tree : FileTree) : List String → Option FileTree
  | [] => some tree
  | name :: names => (tree.child? name).bind (·.lookup? names)

/-- Puts something under a name in a directory, in place of what was there. -/
def setChild (tree : FileTree) (name : String) (item : FileTree) : FileTree :=
  match tree with
  | .file bytes => .file bytes
  | .directory entries =>
    .directory ((entries.filter fun entry => entry.1 ≠ name) ++ [(name, item)])

/-- Makes the directories that a list of names leads through. -/
def makeDirectory : List String → FileTree → FileTree
  | [], tree => tree
  | name :: names, tree =>
    tree.setChild name (makeDirectory names ((tree.child? name).getD empty))

/-- Writes a file, and makes the directories on the way to it. -/
def write (bytes : ByteArray) : List String → FileTree → FileTree
  | [], _ => .file bytes
  | name :: names, tree => tree.setChild name (write bytes names ((tree.child? name).getD empty))

def isDirectory : FileTree → Bool
  | .file _ => false
  | .directory _ => true

/-- Where a walk has come to: above the root, or inside it by a list of names. -/
inductive Place where
  | above
  | inside (names : List String)

def at? (tree : FileTree) : Place → Option FileTree
  | .above => some empty
  | .inside names => tree.lookup? names

/-- Goes on from a place by one name of a path. The place must be a directory. -/
def step? (tree : FileTree) (place : Place) (name : String) : Option Place :=
  if !((tree.at? place).elim false isDirectory) then none
  else if name = "" ∨ name = "." then some place
  else
    match place with
    | .above => if name = ".." then some .above else none
    | .inside names =>
      if name = ".." then
        if names.isEmpty then some .above else some (.inside names.dropLast)
      else if (tree.lookup? (names ++ [name])).isSome then some (.inside (names ++ [name]))
      else none

/-- The names that a path is made of, empty ones among them. -/
def pathNames (path : String) : List String := path.splitOn "/"

/-- What a path leads to from a directory. The empty path leads nowhere. -/
def resolve? (tree : FileTree) (directory : List String) (path : String) : Option FileTree :=
  if path = "" then none
  else ((pathNames path).foldlM tree.step? (.inside directory)).bind tree.at?

/-- What is at a location, for a working directory. -/
def item? (tree : FileTree) (directory : List String) : Location → Option FileTree
  | .named path => tree.resolve? directory path
  | .found around => tree.lookup? (around ++ [Location.fileName])

/-- The text of a file in UTF-8. A directory has none. -/
def text? : FileTree → Option String
  | .file bytes => String.fromUTF8? bytes
  | .directory _ => none

def files (tree : FileTree) (directory : List String) : Files where
  present location := (tree.item? directory location).isSome
  read location := (tree.item? directory location).bind text?

end FileTree

end HtmlDoc
