import CommentSweep.Path
import CommentSweep.Text.Quoted

/-!
File trees. A tree holds files, directories and symbolic links by their location; the root is always
a directory. Paths are followed through links as the system does it, with a bound on the links.
-/

namespace CommentSweep.Disk

inductive Errno where
  | noEntry
  | inputOutput
  | permission
  | present
  | notDir
  | isDir
  | brokenPipe
  | nameTooLong
  | linkLoop
  deriving DecidableEq, Repr

namespace Errno

def code : Errno → Nat
  | .noEntry => 2
  | .inputOutput => 5
  | .permission => 13
  | .present => 17
  | .notDir => 20
  | .isDir => 21
  | .brokenPipe => 32
  | .nameTooLong => 36
  | .linkLoop => 40

def text : Errno → String
  | .noEntry => "No such file or directory"
  | .inputOutput => "Input/output error"
  | .permission => "Permission denied"
  | .present => "File exists"
  | .notDir => "Not a directory"
  | .isDir => "Is a directory"
  | .brokenPipe => "Broken pipe"
  | .nameTooLong => "File name too long"
  | .linkLoop => "Too many levels of symbolic links"

end Errno

structure SystemFault where
  errno : Errno
  path? : Option String
  deriving DecidableEq, Repr

def SystemFault.message (fault : SystemFault) : String :=
  let text := "[Errno " ++ toString fault.errno.code ++ "] " ++ fault.errno.text
  match fault.path? with
  | some path => text ++ ": " ++ Text.quote path
  | none => text

/-- The names that lead from the root of a tree to an entry. No name is a dot or two dots. -/
abbrev Location := List String

abbrev Bytes := List UInt8

inductive Entry where
  | file (bytes : Bytes)
  | dir
  | link (target : String)
  deriving DecidableEq, Repr

namespace Entry

def isDir : Entry → Bool
  | .dir => true
  | _ => false

def isLink : Entry → Bool
  | .link _ => true
  | _ => false

end Entry

structure FileTree where
  entries : List (Location × Entry)

namespace FileTree

def empty : FileTree := ⟨[]⟩

/-- The entry at a location; links are not followed. -/
def get? (tree : FileTree) (location : Location) : Option Entry :=
  match location with
  | [] => some .dir
  | _ => tree.entries.lookup location

def put (tree : FileTree) (location : Location) (entry : Entry) : FileTree :=
  if tree.entries.any (·.1 == location) then
    ⟨tree.entries.map fun old => if old.1 == location then (location, entry) else old⟩
  else
    ⟨tree.entries ++ [(location, entry)]⟩

/-- Makes the directories of `rest` below `location` that do not exist. -/
def makeDirs (tree : FileTree) (location : Location) : (rest : List String) → FileTree
  | [] => tree
  | name :: rest =>
      let below := location ++ [name]
      match tree.get? below with
      | some _ => tree.makeDirs below rest
      | none => (tree.put below .dir).makeDirs below rest

def plant (tree : FileTree) (location : Location) (entry : Entry) : FileTree :=
  match location with
  | [] => tree
  | _ => (tree.makeDirs [] location.dropLast).put location entry

def remove (tree : FileTree) (location : Location) : FileTree :=
  ⟨tree.entries.filter (·.1 != location)⟩

def depth (tree : FileTree) : Nat :=
  tree.entries.foldl (fun n entry => max n entry.1.length) 0

/-- The most links that are followed on the way to one entry. -/
def linkBudget : Nat := 40

def nameLimit : Nat := 255

def pathLimit : Nat := 4095

def linkStart (target : String) (here : Location) : Location :=
  match (Path.ofString target).anchor with
  | .relative => here
  | _ => []

/-- The steps of a target. A slash at its end asks for a directory, as a dot does. -/
def steps (target : String) : List String :=
  (target.toList.splitOn '/').map String.ofList

/-- Follows steps from an entry. Every step needs a directory to start from. -/
def follow (tree : FileTree) (budget : Nat) (here : Location) (todo : List String) :
    Except Errno Location :=
  match todo with
  | [] => .ok here
  | name :: rest =>
      if tree.get? here != some .dir then .error .notDir
      else if name == "" || name == "." then tree.follow budget here rest
      else if name == ".." then tree.follow budget here.dropLast rest
      else if nameLimit < name.utf8ByteSize then .error .nameTooLong
      else
        match tree.get? (here ++ [name]) with
        | none => .error .noEntry
        | some (.link target) =>
            match budget with
            | 0 => .error .linkLoop
            | budget + 1 => tree.follow budget (linkStart target here) (steps target ++ rest)
        | some _ => tree.follow budget (here ++ [name]) rest
termination_by (budget, todo.length)

def locate (tree : FileTree) (path : Path) : Except Errno Location :=
  if pathLimit < path.toString.utf8ByteSize then .error .nameTooLong
  else tree.follow linkBudget [] path.parts

/-- The entry that an anchored path leads to, which is no link. -/
def entry (tree : FileTree) (path : Path) : Except Errno Entry := do
  let location ← tree.locate path
  match tree.get? location with
  | some entry => return entry
  | none => throw .noEntry

def read (tree : FileTree) (path : Path) : Except Errno Bytes := do
  match ← tree.entry path with
  | .file bytes => return bytes
  | .dir => throw .isDir
  | .link _ => throw .linkLoop

def overwrite (tree : FileTree) (path : Path) (bytes : Bytes) : Except Errno FileTree := do
  let location ← tree.locate path
  match tree.get? location with
  | some (.file _) => return tree.put location (.file bytes)
  | some .dir => throw .isDir
  | some (.link _) => throw .linkLoop
  | none => throw .noEntry

/-- What a directory holds: its subdirectories, each with whether it is a link to a directory, and
its other entries. -/
structure Listing where
  dirs : List (String × Bool)
  files : List String
  deriving DecidableEq, Repr

def nameIn? (location below : Location) : Option String :=
  match below.getLast? with
  | some name => if below.dropLast == location then some name else none
  | none => none

/-- Whether an entry of the directory that a path leads to is a directory. A link counts as what it
leads to, and the links of the path use up the budget too. -/
def isDirIn (tree : FileTree) (path : Path) (name : String) : Entry → Bool
  | .dir => true
  | .file _ => false
  | .link _ => (tree.entry (path.child name)).toOption == some .dir

def list (tree : FileTree) (path : Path) : Except Errno Listing := do
  let location ← tree.locate path
  if tree.get? location != some .dir then throw .notDir
  let entries := tree.entries.filterMap fun (below, entry) =>
    (nameIn? location below).map fun name => (name, entry)
  let entries := entries.mergeSort fun a b => decide (a.1 ≤ b.1)
  let (dirs, files) := entries.partition fun (name, entry) => tree.isDirIn path name entry
  return ⟨dirs.map fun (name, entry) => (name, entry.isLink), files.map (·.1)⟩

/-- Makes a directory in the directory that a path leads to, unless there is something already. A
link that leads nowhere is in the way. -/
def makeDir (tree : FileTree) (dir : Path) (name : String) : Except Errno FileTree :=
  match tree.locate (dir.child name) with
  | .error .noEntry => do
      let location := (← tree.locate dir) ++ [name]
      if (tree.get? location).isSome then throw .present
      return tree.put location .dir
  | .error errno => .error errno
  | .ok _ => .ok tree

def makePath (tree : FileTree) (dir : Path) : (rest : List String) → Except Errno FileTree
  | [] => .ok tree
  | name :: rest => do (← tree.makeDir dir name).makePath (dir.child name) rest

/-- Where a file of the given name is written in a directory. A link of that name stands for its
target, which need not exist. -/
def landing (tree : FileTree) : (budget : Nat) → Location → String → Except Errno Location
  | 0, _, _ => .error .linkLoop
  | budget + 1, dir, name =>
      if name == "" || name == "." || name == ".." then .error .isDir
      else
        match tree.get? (dir ++ [name]) with
        | some (.link target) => do
            let todo := steps target
            let start := linkStart target dir
            tree.landing budget (← tree.follow budget start todo.dropLast) (todo.getLastD "")
        | some .dir => .error .isDir
        | _ => .ok (dir ++ [name])

/-- Puts an entry at the end of a path. A file is written through links; a link is made only where
nothing is. -/
def create (tree : FileTree) (path : Path) (entry : Entry) : Except Errno FileTree := do
  let dir := { path with parts := path.parts.dropLast }
  let some name := path.name? | throw .present
  let tree ← tree.makePath ⟨path.anchor, []⟩ dir.parts
  match entry with
  | .dir => tree.makeDir dir name
  | .file _ => return tree.put (← tree.landing linkBudget (← tree.locate dir) name) entry
  | .link _ =>
      let location := (← tree.locate dir) ++ [name]
      if (tree.get? location).isSome then throw .present
      return tree.put location entry

/-- Removes the entry at the end of a path; a link goes, not its target. -/
def delete (tree : FileTree) (path : Path) : Except Errno FileTree := do
  let some name := path.name? | throw .isDir
  let location := (← tree.locate { path with parts := path.parts.dropLast }) ++ [name]
  match tree.get? location with
  | none => throw .noEntry
  | some .dir => throw .isDir
  | some _ => return tree.remove location

end FileTree

inductive Stride where
  | step (name : String)
  /-- The link with this path has been followed to its end. -/
  | arrive (link : String)
  deriving DecidableEq, Repr

namespace Stride

def ofTarget (target : String) : List Stride :=
  (FileTree.steps target).map .step

def isArrival : Stride → Bool
  | .step _ => false
  | .arrive _ => true

end Stride

/-- The links met on the way: where they lead to, or nothing while they are being followed. Links
are told apart by the texts of their paths, anchored or relative to the working directory. -/
abbrev Met := List (String × Option Path)

def above (path : Path) : Path :=
  match path.anchor, path.parts.getLast? with
  | .relative, none => path.child ".."
  | _, some ".." => path.child ".."
  | _, _ => { path with parts := path.parts.dropLast }

def locationIn (cwd : Location) (path : Path) : Location :=
  match path.anchor with
  | .relative => Path.foldDots (cwd ++ path.parts)
  | _ => Path.foldDots path.parts

namespace FileTree

/-- The target of the link at a path that is read in the directory `cwd`. What lies at a path that
is too long cannot be seen. -/
def linkAt? (tree : FileTree) (cwd : Location) (path : Path) : Option String :=
  if pathLimit < path.toString.utf8ByteSize then none
  else
    match tree.get? (locationIn cwd path) with
    | some (.link target) => some target
    | _ => none

def nestingLimit : Nat := 980

def startOf (target : String) (here : Path) : Path :=
  match (Path.ofString target).anchor with
  | .relative => here
  | _ => ⟨.root, []⟩

/-- What is left of a way, read as a path: it is anchored if it starts with a slash. -/
def restOf (names : List String) : Path :=
  Path.ofString (String.intercalate "/" names)

/-- A path that is not followed any further. What is left of the way is joined to it, up to the end
of each link by itself. -/
def stop (here : Path) (names : List String) : (todo : List Stride) → Path
  | [] => here.join (restOf names)
  | .step name :: todo => stop here (names ++ [name]) todo
  | .arrive _ :: todo => stop (here.join (restOf names)) [] todo

/-- The path from `here` along `todo`, free of links; nothing if links are nested too deeply. No
link is followed twice from one path. A link has one anchored path and, for each number of steps up,
one relative path, and paths have a limit, which bounds the budget. -/
def unlink (tree : FileTree) (cwd : Location) (budget : Nat) (met : Met) (here : Path)
    (todo : List Stride) : Option Path :=
  match todo with
  | [] => some here
  | .arrive link :: rest => tree.unlink cwd budget ((link, some here) :: met) here rest
  | .step name :: rest =>
      if name == "" || name == "." then tree.unlink cwd budget met here rest
      else if name == ".." then tree.unlink cwd budget met (above here) rest
      else
        let next := here.child name
        match tree.linkAt? cwd next with
        | none => tree.unlink cwd budget met next rest
        | some target =>
            match met.lookup next.toString with
            | some (some found) => tree.unlink cwd budget met found rest
            | some none => some (stop next [] rest)
            | none =>
                match budget with
                | 0 => none
                | budget + 1 =>
                    if nestingLimit ≤ rest.countP Stride.isArrival then none
                    else
                      tree.unlink cwd budget ((next.toString, none) :: met) (startOf target here)
                        (Stride.ofTarget target ++ .arrive next.toString :: rest)
termination_by (budget, todo.length)

def canonical? (tree : FileTree) (cwd : Location) (path : Path) : Option Path :=
  let start : Path := match path.anchor with
    | .relative => ⟨.relative, []⟩
    | _ => ⟨.root, []⟩
  let budget := (pathLimit + 1) * (tree.entries.filter (·.2.isLink)).length
  (tree.unlink cwd budget [] start (path.parts.map .step)).map fun found =>
    ⟨if found.anchor == .doubleRoot then .doubleRoot else .root, locationIn cwd found⟩

end FileTree

end CommentSweep.Disk
