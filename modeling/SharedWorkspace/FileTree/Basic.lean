import SharedWorkspace.Failure
import SharedWorkspace.OrderedMap
import SharedWorkspace.Text.Utf8

/-!
A tree of files and directories, and the operations on it that a program has: reading, writing,
creating directories, moving a file, looking around. They fail if the tree does not allow them, and
those by which files are saved may also be broken off by the disk. Every operation that changes the
tree returns the tree after it, also if it fails.
-/

namespace SharedWorkspace

inductive FileNode where
  | file (bytes : List UInt8)
  | directory
  deriving DecidableEq

abbrev Place := List String

/--
Files and directories by their places. The root is a directory and is not listed.
-/
structure FileTree where
  nodes : OrderedMap Place FileNode := .empty
  workingDirectory : Place := []
  deriving DecidableEq

inductive Breakdown where
  | unopened (e : FileFault)
  /--
  Only so many bytes are written, in place of what there was.
  -/
  | cutOff (written : Nat) (e : FileFault)

/--
What the disk breaks off, or refuses, though the tree would allow it. It may decide by what is there;
if nothing is said, it breaks nothing off.
-/
structure Disk where
  createDirectory : FileTree → Path → Option FileFault := fun _ _ => none
  look : FileTree → Path → Option FileFault := fun _ _ => none
  write : FileTree → Path → Option Breakdown := fun _ _ => none
  rename : FileTree → Path → Path → Option FileFault := fun _ _ _ => none

namespace FileTree

def node? (t : FileTree) (place : Place) : Option FileNode :=
  if place = [] then some .directory else t.nodes.find? place

def put (t : FileTree) (place : Place) (n : FileNode) : FileTree :=
  { t with nodes := t.nodes.insert place n }

def drop (t : FileTree) (place : Place) : FileTree :=
  { t with nodes := t.nodes.erase place }

inductive Target where
  | present (place : Place) (n : FileNode)
  | vacant (place : Place)
  | vacantDirectory (place : Place)

def longestName : Nat := 255

def longestPath : Nat := 4095

def walk (t : FileTree) (place : Place) : List String → Except FileFault Target
  | [] => .ok (.present place .directory)
  | s :: rest =>
    if s = "" ∨ s = "." then
      walk t place rest
    else if s = ".." then
      walk t place.dropLast rest
    else if longestName < s.utf8ByteSize then
      .error .nameTooLong
    else
      let next := place ++ [s]
      match t.node? next with
      | some .directory => walk t next rest
      | some (.file bytes) =>
        if rest = [] then .ok (.present next (.file bytes)) else .error .notDirectory
      | none =>
        if rest = [] then
          .ok (.vacant next)
        else if rest.all (· = "") then
          .ok (.vacantDirectory next)
        else
          .error .notFound

/--
Where the path `p` leads. The empty path leads nowhere.
-/
def resolve (t : FileTree) (p : Path) : Except FileFault Target :=
  if p.text.toList.contains '\x00' then
    .error .zeroInPath
  else if longestPath < p.text.utf8ByteSize then
    .error .nameTooLong
  else if p.text = "" then
    .error .notFound
  else
    t.walk (if p.isAbsolute then [] else t.workingDirectory) (Text.pieces '/' p.text)

def exists? (t : FileTree) (p : Path) : Bool :=
  match t.resolve p with
  | .ok (.present _ _) => true
  | _ => false

def isFile (t : FileTree) (p : Path) : Bool :=
  match t.resolve p with
  | .ok (.present _ (.file _)) => true
  | _ => false

def isDirectory (t : FileTree) (p : Path) : Bool :=
  match t.resolve p with
  | .ok (.present _ .directory) => true
  | _ => false

def read (t : FileTree) (p : Path) : Except FileFault (List UInt8) :=
  match t.resolve p with
  | .ok (.present _ (.file bytes)) => .ok bytes
  | .ok (.present _ .directory) => .error .isDirectory
  | .ok _ => .error .notFound
  | .error e => .error e

def readText (t : FileTree) (p : Path) : Except FileFault String :=
  match t.read p with
  | .ok bytes =>
    match Text.ofUtf8? bytes with
    | some text => .ok text
    | none => .error .notText
  | .error e => .error e

def writeAt (t : FileTree) (place : Place) (bytes : List UInt8) :
    Option Breakdown → Except FileFault Unit × FileTree
  | none => (.ok (), t.put place (.file bytes))
  | some (.unopened e) => (.error e, t)
  | some (.cutOff written e) => (.error e, t.put place (.file (bytes.take written)))

def write (t : FileTree) (p : Path) (bytes : List UInt8) (disk : Disk := {}) :
    Except FileFault Unit × FileTree :=
  match t.resolve p with
  | .ok (.present place (.file _)) => t.writeAt place bytes (disk.write t p)
  | .ok (.vacant place) => t.writeAt place bytes (disk.write t p)
  | .ok _ => (.error .isDirectory, t)
  | .error e => (.error e, t)

def createDirectory (t : FileTree) (p : Path) (disk : Disk := {}) : Except FileFault FileTree :=
  match disk.createDirectory t p, t.resolve p with
  | some e, _ => .error e
  | none, .ok (.present _ _) => .error .alreadyExists
  | none, .ok (.vacant place) => .ok (t.put place .directory)
  | none, .ok (.vacantDirectory place) => .ok (t.put place .directory)
  | none, .error e => .error e

def seesDirectory (t : FileTree) (p : Path) (disk : Disk) : Bool :=
  (disk.look t p).isNone && t.isDirectory p

/--
Create the directory `p` and the ones it lies in, as far as they are missing. Directories that were
created before a failure stay. At most `steps` directories are tried.
-/
def createDirectories.go (disk : Disk) (p : Path) :
    (steps : Nat) → FileTree → Except FileFault Unit × FileTree
  | 0, t => (.error .notFound, t)
  | steps + 1, t =>
    if p.text = "" then
      (.ok (), t)
    else
      match t.createDirectory p disk with
      | .ok t => (.ok (), t)
      | .error .notFound =>
        match p.parent? with
        | none => (.error .notFound, t)
        | some parent =>
          match go disk parent steps t with
          | (.error e, t) => (.error e, t)
          | (.ok (), t) =>
            match t.createDirectory p disk with
            | .ok t => (.ok (), t)
            | .error e => if t.seesDirectory p disk then (.ok (), t) else (.error e, t)
      | .error e => if t.seesDirectory p disk then (.ok (), t) else (.error e, t)

def createDirectories (t : FileTree) (p : Path) (disk : Disk := {}) :
    Except FileFault Unit × FileTree :=
  createDirectories.go disk p (p.components.length + 1) t

def rename (t : FileTree) (source target : Path) (disk : Disk := {}) : Except FileFault FileTree :=
  match disk.rename t source target with
  | some e => .error e
  | none =>
    match t.resolve source, t.resolve target with
    | .error e, _ => .error e
    | .ok (.vacant _), _ => .error .notFound
    | .ok (.vacantDirectory _), _ => .error .notFound
    | _, .error e => .error e
    | .ok (.present _ .directory), _ => .error .isDirectory
    | .ok (.present s (.file bytes)), .ok (.present d (.file _)) =>
      if s = d then .ok t else .ok ((t.drop s).put d (.file bytes))
    | .ok (.present _ (.file _)), .ok (.present _ .directory) => .error .isDirectory
    | .ok (.present s (.file bytes)), .ok (.vacant d) => .ok ((t.drop s).put d (.file bytes))
    | .ok (.present _ (.file _)), .ok (.vacantDirectory _) => .error .notDirectory

def namesIn (t : FileTree) (place : Place) : List String :=
  t.nodes.keys.filterMap fun other =>
    match other.getLast? with
    | some name => if other.dropLast = place then some name else none
    | none => none

def list (t : FileTree) (p : Path) : Except FileFault (List String) :=
  match t.resolve p with
  | .ok (.present place .directory) => .ok (t.namesIn place)
  | .ok (.present _ (.file _)) => .error .notDirectory
  | .ok _ => .error .notFound
  | .error e => .error e

def removeFile (t : FileTree) (p : Path) : Except FileFault FileTree :=
  match t.resolve p with
  | .ok (.present place (.file _)) => .ok (t.drop place)
  | .ok (.present _ .directory) => .error .isDirectory
  | .ok _ => .error .notFound
  | .error e => .error e

def plant (t : FileTree) (p : Path) : FileNode → FileTree
  | .directory => (t.createDirectories p).2
  | .file bytes =>
    let t := match p.parent? with
      | some dir => (t.createDirectories dir).2
      | none => t
    (t.write p bytes).2

def contentsBelow (t : FileTree) (place : Place) : List (Place × FileNode) :=
  t.nodes.entries.filterMap fun (other, n) =>
    if place.isPrefixOf other ∧ place.length < other.length then
      some (other.drop place.length, n)
    else
      none

def listing (t : FileTree) (place : Place) : List (String × FileNode) :=
  ((t.contentsBelow place).map fun (p, n) => (Text.joined '/' p, n)).mergeSort fun a b =>
    decide (a.1 ≤ b.1)

end FileTree
end SharedWorkspace
