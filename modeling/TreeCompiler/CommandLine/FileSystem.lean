import TreeCompiler.Image.Bytes

/-!
# Files

What the command line needs of a file system, and a working directory in memory that has it. A path is
followed segment by segment, and the first segment that leads nowhere decides what is wrong with it.
-/

namespace TreeCompiler.CommandLine

/-- Reading gives the text of a file, and writing puts bytes into one; both may give a reason why
they cannot. -/
structure FileSystem (m : Type → Type) where
  read : String → m (Except String String)
  write : String → Blob → m (Except String Unit)

inductive FileError where
  | notFound
  | notDirectory
  | isDirectory
  | nameTooLong
deriving DecidableEq, Repr

def FileError.text : FileError → String
  | .notFound => "No such file or directory (os error 2)"
  | .notDirectory => "Not a directory (os error 20)"
  | .isDirectory => "Is a directory (os error 21)"
  | .nameTooLong => "File name too long (os error 36)"

/-! ## Paths -/

namespace Path

def segmentLimit : Nat := 255

def limit : Nat := 4096

def byteLength (s : String) : Nat :=
  Text.byteLength s.toList

def cut : List Char → List (List Char)
  | [] => [[]]
  | c :: cs =>
    if c = '/' then [] :: cut cs
    else
      match cut cs with
      | [] => [[c]]
      | s :: rest => (c :: s) :: rest

def segments (path : String) : List String :=
  (cut path.toList).map String.ofList

def isHere (segment : String) : Bool :=
  segment == "" || segment == "."

def isAbsolute (path : String) : Bool :=
  path.startsWith "/"

end Path

/-! ## A working directory -/

structure File where
  /-- The directories it lies in, and its own name. -/
  path : List String
  bytes : Blob
deriving DecidableEq, Repr

namespace File

def ofName (name : String) (bytes : Blob) : File :=
  { path := (Path.segments name).filter (!Path.isHere ·), bytes }

def name (f : File) : String :=
  String.intercalate "/" f.path

end File

inductive Entry where
  | file (f : File)
  /-- The working directory, or one below it. -/
  | directory (path : List String)
  /-- A directory above the working directory; nothing is known of what else it holds. -/
  | above
  /-- A directory that every machine has, from the root. -/
  | system (path : List String)
  /-- The device that holds nothing and takes everything. -/
  | sink
deriving DecidableEq, Repr

namespace Entry

def isDirectory : Entry → Bool
  | .file _ | .sink => false
  | _ => true

/-- The directory around a directory; the root lies in itself. -/
def parent : Entry → Entry
  | .directory [] => .above
  | .directory path => .directory path.dropLast
  | .system path => .system path.dropLast
  | e => e

/-- Directories that lie in the root of every machine. -/
def systemNames : List String :=
  ["bin", "boot", "dev", "etc", "home", "lib", "media", "mnt", "opt", "proc", "root", "run", "sbin",
   "srv", "sys", "tmp", "usr", "var"]

/-- What a machine always has under a name in a directory of its own. -/
def system? : List String → String → Option Entry
  | [], name => if systemNames.contains name then some (.system [name]) else none
  | ["dev"], "null" => some .sink
  | _, _ => none

end Entry

/-- A working directory: the files in and below it. -/
structure Directory where
  files : List File := []
deriving DecidableEq, Repr

namespace Directory
variable (d : Directory)

/-- Puts a file in the place of one of the same path. -/
def put (f : File) : Directory :=
  { files := d.files.filter (·.path != f.path) ++ [f] }

/-- A directory with files that are put into it one after the other. -/
def ofFiles (fs : List File) : Directory :=
  fs.foldl put {}

/-- The file or the directory of a path; a directory is there if a file lies in it. -/
def entry? (path : List String) : Option Entry :=
  match d.files.find? (·.path == path) with
  | some f => some (.file f)
  | none => if d.files.any (path.isPrefixOf ·.path) then some (.directory path) else none

def child? (name : String) : Entry → Option Entry
  | .directory path => d.entry? (path ++ [name])
  | .system path => Entry.system? path name
  | _ => none

def step (e : Entry) (segment : String) : Except FileError Entry :=
  if !e.isDirectory then .error .notDirectory
  else if Path.isHere segment then .ok e
  else if segment = ".." then .ok e.parent
  else if Path.segmentLimit < Path.byteLength segment then .error .nameTooLong
  else
    match d.child? segment e with
    | some e => .ok e
    | none => .error .notFound

def follow (path : String) (segments : List String) : Except FileError Entry :=
  if Path.limit ≤ Path.byteLength path then .error .nameTooLong
  else segments.foldlM d.step (if Path.isAbsolute path then .system [] else .directory [])

def read (path : String) : Except FileError Blob := do
  match ← d.follow path (Path.segments path) with
  | .file f => return f.bytes
  | .sink => return []
  | _ => throw .isDirectory

/-- Puts bytes into a file, which is made if it is not there. Outside the working directory nothing
is kept of it. -/
def write (path : String) (bytes : Blob) : Except FileError Directory := do
  let segments := Path.segments path
  let name := segments.getLastD ""
  let place ← d.follow path segments.dropLast
  match d.step place name with
  | .ok (.file f) => return d.put { f with bytes }
  | .ok .sink => return d
  | .ok _ => throw .isDirectory
  | .error .notFound =>
    match place with
    | .directory path => return d.put { path := path ++ [name], bytes }
    | _ => return d
  | .error e => throw e

def readText (path : String) : Except String String :=
  match d.read path with
  | .error e => .error e.text
  | .ok bytes =>
    match String.fromUTF8? ⟨bytes.toArray⟩ with
    | some s => .ok s
    | none => .error "stream did not contain valid UTF-8"

def fileSystem : FileSystem (StateM Directory) where
  read path := do return (← get).readText path
  write path bytes := do
    match (← get).write path bytes with
    | .ok d => set d; return .ok ()
    | .error e => return .error e.text

def newFiles (before after : Directory) : List File :=
  after.files.filter fun f => (before.entry? f.path).isNone

end Directory

end TreeCompiler.CommandLine
