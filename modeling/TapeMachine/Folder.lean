import TapeMachine.Machine.Document

/-!
Folders of files, and machines kept in them. A folder is a value: reading leaves it
as it is, and writing gives another folder.
-/
namespace TapeMachine

inductive Entry where
  | directory
  | file (bytes : List UInt8)
  deriving DecidableEq, Repr

/-- What is under each name; the names of an entry lead to it from the top. -/
structure Folder where
  entries : List (List String × Entry)
  deriving DecidableEq, Repr

/-- Splits a text at every occurrence of a character. -/
def splitAt (sep : Char) : List Char → List (List Char)
  | [] => [[]]
  | c :: cs =>
    match splitAt sep cs with
    | [] => [[c]]
    | part :: parts => if c = sep then [] :: part :: parts else (c :: part) :: parts

/-- The names that a path leads through, `.` and `..` among them. -/
def pathNames (path : String) : List String :=
  ((splitAt '/' path.toList).map String.ofList).filter (· ≠ "")

/-- The most bytes that a name may have. -/
def nameLimit : Nat := 255

/-- The most bytes that a path may have. -/
def pathLimit : Nat := 4095

/-- What is wrong with a path before anything is looked up. -/
def checkPath (path : String) : Except FileFault Unit :=
  if path.toList.contains (Char.ofNat 0) then .error .nulInPath
  else if path = "" then .error .notFound
  else if pathLimit < path.utf8ByteSize then .error .nameTooLong
  else .ok ()

/-- One level up. Above the top there is always another directory. -/
def parentOf (here : List String) : List String :=
  match here.getLast? with
  | none => [".."]
  | some name => if name = ".." then here ++ [".."] else here.dropLast

/-- Where a name leads from a directory. -/
def stepTo (here : List String) (name : String) : List String :=
  if name = "." then here
  else if name = ".." then parentOf here
  else here ++ [name]

/-- A path that ends in a slash can only be a directory. -/
def namesDirectory (path : String) : Bool := path.toList.getLast? == some '/'

/-- The name of an entry of the directory at `path`. -/
def joinPath (path name : String) : String :=
  if namesDirectory path then path ++ name else path ++ "/" ++ name

/-- What follows the last dot of a name, unless that dot begins the name. -/
def nameExtension? (name : String) : Option String :=
  let chars := name.toList.reverse
  match chars.dropWhile (· != '.') with
  | '.' :: _ :: _ => some (String.ofList (chars.takeWhile (· != '.')).reverse)
  | _ => none

namespace Folder

def empty : Folder := ⟨[]⟩

def entryAt? (f : Folder) (names : List String) : Option Entry :=
  if names.all (· == "..") then some .directory else f.entries.lookup names

/-- Whether there is a directory under the names. -/
def enter (f : Folder) (names : List String) : Except FileFault Unit :=
  match f.entryAt? names with
  | none => .error .notFound
  | some (.file _) => .error .notDirectory
  | some .directory => .ok ()

/-- Follows names from a directory on. Each of them must be looked up in a directory. -/
def follow (f : Folder) : List String → List String → Except FileFault (List String)
  | here, [] => .ok here
  | here, name :: rest => do
    f.enter here
    if nameLimit < name.utf8ByteSize then throw .nameTooLong
    f.follow (stepTo here name) rest

/-- The entry at a path. -/
def find (f : Folder) (path : String) : Except FileFault (List String × Entry) := do
  checkPath path
  let names ← f.follow [] (pathNames path)
  match f.entryAt? names with
  | none => throw .notFound
  | some .directory => return (names, .directory)
  | some (.file bytes) =>
    if namesDirectory path then throw .notDirectory else return (names, .file bytes)

/-- The text of a file. -/
def readText (f : Folder) (path : String) : Except FileFault String := do
  match ← f.find path with
  | (_, .directory) => throw .isDirectory
  | (_, .file bytes) =>
    match String.fromUTF8? ⟨bytes.toArray⟩ with
    | some text => return text
    | none => throw .notText

def store (f : Folder) (names : List String) (entry : Entry) : Folder :=
  ⟨f.entries.filter (·.1 ≠ names) ++ [(names, entry)]⟩

/-- Follows names from a directory on and makes every directory that is missing on the way, also
one that is left again by `..`. Tells where the names lead. -/
def makeWay (f : Folder) : List String → List String → Folder × List String
  | here, [] => (f, here)
  | here, name :: rest =>
    let next := stepTo here name
    (if (f.entryAt? next).isSome then f else f.store next .directory).makeWay next rest

/-- The folder with a file and all directories on the way to it. -/
def addFile (f : Folder) (path : String) (bytes : List UInt8) : Folder :=
  let names := pathNames path
  let (f, parent) := f.makeWay [] names.dropLast
  f.store (stepTo parent (names.getLast?.getD ".")) (.file bytes)

/-- The folder with a directory and all directories on the way to it. -/
def addDirectory (f : Folder) (path : String) : Folder := (f.makeWay [] (pathNames path)).1

/-- The folder with a file in a directory that is there. A path that can only be a directory is
refused before its last name is looked up. -/
def writeText (f : Folder) (path text : String) : Except FileFault Folder := do
  checkPath path
  let names := pathNames path
  let parent ← f.follow [] names.dropLast
  f.enter parent
  let last := names.getLast?.getD "."
  if last = "." ∨ last = ".." ∨ namesDirectory path then throw .isDirectory
  if nameLimit < last.utf8ByteSize then throw .nameTooLong
  match f.entryAt? (parent ++ [last]) with
  | some .directory => throw .isDirectory
  | _ => return f.store (parent ++ [last]) (.file text.toUTF8.toList)

/-- The names right below a directory, in order. -/
def children (f : Folder) (names : List String) : List String :=
  let below := f.entries.filterMap fun (path, _) =>
    if path.dropLast = names then path.getLast? else none
  (SortedBy.ofList below : SortedSet String).toList

def loadMachine (f : Folder) (path : String) : Except Error Machine := do
  let text ← (f.readText path).mapError (.unreadable path)
  Machine.ofText text

/-- The machines of the files in a directory whose names end in `.json`, each with its path or
with the reason why it could not be loaded. -/
def loadMachines (f : Folder) (path : String) : List (Except Error (String × Machine)) :=
  match f.find path with
  | .error _ => [.error (.noDirectory path)]
  | .ok (_, .file _) => [.error (.unreadableDirectory path .notDirectory)]
  | .ok (names, .directory) =>
    (f.children names).filterMap fun name =>
      let filePath := joinPath path name
      match f.find filePath with
      | .ok (_, .directory) => none
      | _ =>
        if nameExtension? name = some "json" then
          match f.loadMachine filePath with
          | .ok m => some (.ok (filePath, m))
          | .error e => some (.error (.notLoaded filePath e))
        else none

/-- The folder with the document of a machine at a path. -/
def saveMachine (f : Folder) (path : String) (m : Machine) : Except Error Folder :=
  (f.writeText path m.toJson.pretty).mapError (.unwritable path)

end Folder

end TapeMachine
