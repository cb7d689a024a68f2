-- SUMMARY: Where the path of a drawing leads from an empty directory, and the files a run leaves there.
import Conveyor.CommandLine.Session

/-!
# Places

A drawing goes to a path. Followed from an empty directory, a path names a file that is made there,
leads to a place elsewhere, or leads nowhere. Of the other directories only those are known that
every system has; nothing else is expected in them.
-/

namespace Conveyor.CommandLine

/-! ## The surroundings -/

/-- What a name in a directory stands for. -/
inductive Node
  | directory (entries : List (String × Node))
  /-- A directory in which no file can be made. -/
  | closed (reason : PathError)
  /-- A device that takes what is written and keeps none of it. -/
  | sink
  /-- A device that takes nothing. -/
  | refusing

namespace Node

def emptyDirectory : Node := .directory []

def devices : Node :=
  .directory [("null", .sink), ("zero", .sink), ("random", .sink), ("urandom", .sink),
    ("full", .refusing), ("tty", .refusing), ("fd", emptyDirectory), ("pts", emptyDirectory),
    ("shm", emptyDirectory)]

/-- The directories that hold nothing of interest. -/
def standardNames : List String :=
  ["bin", "boot", "etc", "home", "lib", "lib64", "media", "mnt", "opt", "root", "run", "sbin", "srv",
   "tmp", "usr", "var"]

def root : Node :=
  .directory (("dev", devices) :: ("proc", .closed .noDirectory) :: ("sys", .closed .denied) ::
    standardNames.map fun name => (name, emptyDirectory))

def isDirectory : Node → Bool
  | .directory _ | .closed _ => true
  | _ => false

/-- What a directory has under a name. -/
def find? (name : String) : Node → Option Node
  | .directory entries => entries.lookup name
  | _ => none

end Node

/-- A directory with those above it. -/
structure Place where
  node : Node
  above : List Node
  /-- The place is the directory in which the program runs. -/
  isStart : Bool := false

namespace Place

/-- The program runs in an empty directory among the temporary ones. -/
def start : Place := ⟨.emptyDirectory, [.emptyDirectory, .root], true⟩

def root : Place := ⟨.root, [], false⟩

/-- The directory above; the topmost one is above itself. -/
def up (p : Place) : Place :=
  match p.above with
  | [] => p
  | node :: above => ⟨node, above, false⟩

def enter (p : Place) (node : Node) : Place := ⟨node, p.node :: p.above, false⟩

/-! ## Paths -/

/-- The longest name that a file can have, in bytes. -/
def nameLimit : Nat := 255

/-- The length in bytes at which a path is too long. -/
def pathLimit : Nat := 4096

/-- Write a file under a name: the name, if it is a new file in the directory where the program
runs. -/
def write (p : Place) (name : String) : Except PathError (Option String) :=
  if nameLimit < name.utf8ByteSize then .error .tooLong
  else
    match p.node.find? name, p.node with
    | some .sink, _ => .ok none
    | some .refusing, _ => .error .refusing
    | some _, _ => .error .isDirectory
    | none, .closed reason => .error reason
    | none, _ => .ok (if p.isStart then some name else none)

/-- Follow the steps of a path and write a file at its end. A path with a slash at its end is one
of a directory. -/
def follow (slash : Bool) (p : Place) : List String → Except PathError (Option String)
  | [] => .error .isDirectory
  | "." :: steps => follow slash p steps
  | ".." :: steps => follow slash p.up steps
  | [name] => if slash then .error .isDirectory else p.write name
  | name :: steps =>
    if nameLimit < name.utf8ByteSize then .error .tooLong
    else
      match p.node.find? name with
      | some node =>
        if node.isDirectory then follow slash (p.enter node) steps else .error .notDirectory
      | none => .error .noDirectory

/-- Write a file at the end of a path. -/
def writeAt (path : String) : Except PathError (Option String) :=
  let steps := (Text.fields '/' path.toList).map String.ofList
  if pathLimit ≤ path.utf8ByteSize then .error .tooLong
  else
    follow (steps.getLast? = some "") (if steps.head? = some "" then root else start)
      (steps.filter (· ≠ ""))

end Place

/-- The files that a run leaves in an empty directory. -/
def Outcome.files (o : Outcome) : Except Fault (List (String × String)) := o.filesBy Place.writeAt

end Conveyor.CommandLine
