import CharRom.Fault

/-!
# Volumes

A directory tree held in memory, from which a file is read by path as the system reads one.
The working directory is the volume's root. A path is taken component by component: empty
components and `.` stay where they are, `..` goes up, and a name goes down into the entry of
that name, which has to exist and, unless it is the last component, to be a directory. A path
that ends in `/` has to name a directory. A directory cannot be read as a file.

Above the root lies a directory of which nothing is known, so that a name looked up there, or
under the absolute root `/`, is not found.
-/

namespace CharRom

/-- What a path can name: a file with its bytes, or a directory. -/
inductive Node where
  | file (bytes : Array UInt8)
  | dir
  deriving DecidableEq, Repr

/-- Entries by their path from the root, one component per name; the directories on the way to
an entry exist without being listed. -/
structure Volume where
  entries : List (List String × Node)
  deriving Repr

namespace Volume

/-- The components of a path as an entry is listed: empty components and `.` left out. -/
def components (path : String) : List String :=
  (path.splitOn "/").filter fun c => c != "" && c != "."

/-- A volume holding the given entries, each under a path from the root. -/
def ofEntries (entries : List (String × Node)) : Volume :=
  ⟨entries.map fun e => (components e.1, e.2)⟩

/-- What the entry at `p` is: the root and every directory on the way to an entry are
directories. -/
def node? (v : Volume) (p : List String) : Option Node :=
  if p = [] then some .dir
  else
    match v.entries.find? (·.1 == p) with
    | some e => some e.2
    | none =>
      if v.entries.any (fun e => p.length < e.1.length && e.1.take p.length == p) then some .dir
      else none

/-- Where a walk through the volume stands. -/
inductive Spot where
  /-- Above the root, where nothing is known. -/
  | outside
  /-- At the directory with path `p`. -/
  | dir (p : List String)
  /-- At a file. -/
  | file (bytes : Array UInt8)

/-- The longest name a directory entry can have, in bytes. -/
def nameLimit : Nat := 255

/-- The longest path the system takes, in bytes. -/
def pathLimit : Nat := 4095

/-- Where the components `cs` lead from `spot`. -/
def walk (v : Volume) : Spot → List String → Except IoFault Spot
  | spot, [] => .ok spot
  | .file _, _ :: _ => .error .notDirectory
  | .outside, c :: cs =>
    if c = "." ∨ c = ".." then walk v .outside cs
    else if c.utf8ByteSize > nameLimit then .error .nameTooLong
    else .error .notFound
  | .dir p, c :: cs =>
    if c = "." then walk v (.dir p) cs
    else if c = ".." then walk v (if p = [] then .outside else .dir p.dropLast) cs
    else if c.utf8ByteSize > nameLimit then .error .nameTooLong
    else
      match v.node? (p ++ [c]) with
      | none => .error .notFound
      | some .dir => walk v (.dir (p ++ [c])) cs
      | some (.file bytes) => walk v (.file bytes) cs

/-- The bytes of the file at `path`, or why they cannot be had. -/
def read (v : Volume) (path : String) : Except IoFault (Array UInt8) :=
  if path.contains (Char.ofNat 0) then .error .nulInName
  else if path.isEmpty then .error .notFound
  else if path.utf8ByteSize > pathLimit then .error .nameTooLong
  else
    let parts := (path.splitOn "/").filter (· != "")
    let cs := if path.endsWith "/" then parts ++ ["."] else parts
    match walk v (if path.startsWith "/" then .outside else .dir []) cs with
    | .ok (.file bytes) => .ok bytes
    | .ok _ => .error .isDirectory
    | .error e => .error e

end Volume

end CharRom
