import SchemaLang.Files.Fault
import SchemaLang.Text.Separated

/-!
# Files

The files and folders around a working folder.

* A place is the list of names on the way from the working folder, or from the root of all folders; the way to a folder
  above the working folder is two dots for each level. `Files.node?` says what is at a place. After `Files.set` the new
  node is at its place, and nothing else has changed (`Files.node?_set`).
* `Files.locate` follows the names of a path: it stays at empty names and single dots, goes up at two dots, and goes
  down at other names, always from an existing folder. All paths are followed in this way, whatever is done with them.
* `Files.read` and `Files.write` read and replace the text of one file, or say why they cannot.
* `Files.put`, `Files.makeFolders` and `Files.delete` lay files out: they make the folders that they need, and do what
  they can.
-/

namespace SchemaLang

/-- The contents of files are compared byte by byte. -/
instance contentDecidableEq : DecidableEq ByteArray := ByteArray.decEq

/-- What can be at a place. -/
inductive Node where
  | file (content : ByteArray)
  | folder
  deriving DecidableEq

/-- Of the entries with keys to keep, the same are found. -/
theorem lookup_filter_key {κ α : Type} [BEq κ] [LawfulBEq κ] (keep : κ → Bool) (key : κ) : ∀ entries : List (κ × α),
    (entries.filter fun entry => keep entry.1).lookup key = if keep key then entries.lookup key else none
  | [] => by simp
  | (k, a) :: rest => by
    have ih := lookup_filter_key keep key rest
    rw [List.filter_cons]
    by_cases hk : key = k
    · subst hk
      cases hkeep : keep key <;> simp [hkeep, ih]
    · have hb : (key == k) = false := beq_eq_false_iff_ne.2 hk
      cases hkeep : keep k <;> simp [hb, List.lookup_cons, ih]

/-- The files and folders around a working folder, each with its place. -/
structure Files where
  nodes : List (List String × Node)
  deriving DecidableEq

namespace Files

/-- An empty working folder. -/
def empty : Files := ⟨[]⟩

/-! ## Places -/

/-- The place of the folder that holds all others. -/
def root : List String := ["/"]

/-- Whether a place is that of a folder which is always there: the working folder, one above it, or the root. -/
def isGiven (place : List String) : Bool := place = root || place.all (· = "..")

/-- The place of the folder that holds a place. The root holds itself. -/
def parent (place : List String) : List String :=
  if place = root then root
  else if isGiven place then place ++ [".."]
  else place.dropLast

/-- What is at a place. -/
def node? (files : Files) (place : List String) : Option Node :=
  if isGiven place then some .folder else files.nodes.lookup place

/-- The same files and folders, but for one node at one place. -/
def set (files : Files) (place : List String) (node : Node) : Files :=
  ⟨(place, node) :: files.nodes.filter fun entry => entry.1 ≠ place⟩

/-- The files and folders that are not at or below a place. -/
def remove (files : Files) (place : List String) : Files :=
  ⟨files.nodes.filter fun entry => !place.isPrefixOf entry.1⟩

/-- Setting a node changes what is at its place, and nothing else. -/
theorem node?_set {files : Files} {place other : List String} {node : Node} (hp : isGiven place = false) :
    (files.set place node).node? other = if other = place then some node else files.node? other := by
  by_cases h : other = place
  · subst h
    simp [node?, set, hp]
  · have hb : (other == place) = false := by simpa using h
    have hkeep := lookup_filter_key (fun p => decide (p ≠ place)) other files.nodes
    rw [if_pos (by simpa using h)] at hkeep
    rw [if_neg h, node?, node?, set, List.lookup_cons, hb, hkeep]

/-! ## Paths -/

/-- The names of a path, cut at its slashes. -/
def namesOf (path : String) : List String := (Text.pieces '/' path.toList).map String.ofList

/-- The names that stay in a folder. -/
def isStay (name : String) : Bool := name = "" || name = "."

/-- The place where a path starts: the root if it begins with a slash, the working folder otherwise. -/
def startOf (path : String) : List String := if path.toList.head? = some '/' then root else []

/-- The place that names lead to from a place on. There need not be anything at it. -/
def locate (files : Files) (here : List String) : List String → Except FileFault (List String)
  | [] => .ok here
  | name :: rest =>
    match files.node? here with
    | none => .error .notFound
    | some (.file _) => .error .notFolder
    | some .folder =>
      if isStay name then locate files here rest
      else if name = ".." then locate files (parent here) rest
      else locate files (here ++ [name]) rest

/-- The place that a path leads to. -/
def locatePath (files : Files) (path : String) : Except FileFault (List String) :=
  if path = "" then .error .notFound else locate files (startOf path) (namesOf path)

/-! ## Reading and writing -/

/-- The bytes of the file at a path. -/
def readBytes (files : Files) (path : String) : Except FileFault ByteArray := do
  let place ← files.locatePath path
  match files.node? place with
  | none => throw .notFound
  | some .folder => throw .isFolder
  | some (.file content) => return content

/-- The text of a file with the given bytes. -/
def decode (content : ByteArray) : Except FileFault String :=
  match String.fromUTF8? content with
  | some text => .ok text
  | none => .error .notUtf8

/-- The text of the file at a path. -/
def read (files : Files) (path : String) : Except FileFault String := do
  decode (← files.readBytes path)

/-- The names of a path without the empty names at its end. -/
def withoutTrailing (names : List String) : List String :=
  (names.reverse.dropWhile fun name => name = "").reverse

/-- The place at which a path asks for a file to be written. -/
def locateTarget (files : Files) (path : String) : Except FileFault (List String) :=
  let names := withoutTrailing (namesOf path)
  if path = "" then .error .notFound
  else match names.getLast? with
    | none => .error .isFolder
    | some name => do
      let folder ← locate files (startOf path) names.dropLast
      match files.node? folder with
      | none => throw .notFound
      | some (.file _) => throw .notFolder
      | some .folder =>
        if (namesOf path).getLast? = some "" ∨ isStay name ∨ name = ".." then throw .isFolder
        else if files.node? (folder ++ [name]) = some .folder then throw .isFolder
        else return folder ++ [name]

/-- The files after bytes are written to the file at a path. -/
def writeBytes (files : Files) (path : String) (content : ByteArray) : Except FileFault Files := do
  let place ← files.locateTarget path
  return files.set place (.file content)

/-- The files after a text is written to the file at a path. -/
def write (files : Files) (path text : String) : Except FileFault Files := files.writeBytes path text.toUTF8

/-! ## Laying out files -/

/-- The files and folders with the missing folders on the way that names lead from a place on, up to a file that is in
the way. -/
def makeWay (files : Files) (here : List String) : List String → Files
  | [] => files
  | name :: rest =>
    if isStay name then makeWay files here rest
    else if name = ".." then makeWay files (parent here) rest
    else
      let next := here ++ [name]
      match files.node? next with
      | none => makeWay (files.set next .folder) next rest
      | some .folder => makeWay files next rest
      | some (.file _) => files

/-- The files and folders with the folders of a path. -/
def makeFolders (files : Files) (path : String) : Files := files.makeWay (startOf path) (namesOf path)

/-- The files with a new one at a path, in folders that are made where they are missing. -/
def put (files : Files) (path : String) (content : ByteArray) : Files :=
  let laid := files.makeWay (startOf path) (withoutTrailing (namesOf path)).dropLast
  match laid.writeBytes path content with
  | .ok written => written
  | .error _ => laid

/-- The files and folders without what is at a path and below it. -/
def delete (files : Files) (path : String) : Files :=
  match files.locatePath path with
  | .ok place => if isGiven place then files else files.remove place
  | .error _ => files

end Files

end SchemaLang
