import CommentSweep.Settings
import CommentSweep.Ignore
import CommentSweep.Job
import CommentSweep.Text
import CommentSweep.Text.Utf8

/-!
Walks over a file tree. In each directory the subdirectories are sifted first, then the files are
visited, and then the subdirectories that are kept are walked, all in the order of their names.
Links to directories are not entered.
-/

namespace CommentSweep

open Disk

structure Exclusions where
  dirs : List String := []
  files : List String := []
  useIgnoreFile : Bool := true

structure Walker where
  root : Path
  rules : Ignore.Rules
  /-- Names of directories that are not entered whatever the rules say. -/
  excluded : List String
  verbose : Bool
  hasIgnoreFile : Bool

inductive Reason where
  | rule
  | default
  deriving DecidableEq, Repr

def Reason.label : Reason → String
  | .rule => "rule"
  | .default => "default"

namespace Walker

def logger : String := Log.loggerName (some "io.walker")

def say (level : Log.Level) (message : String) : Job Unit :=
  Job.say { logger, level, message }

/-- The lines of the ignore file in a directory. A file that does not exist is no fault. -/
def ignoreLines? (root : Path) : Job (Option (List String)) := do
  let path := root.child Defaults.ignoreFile
  let cannotRead (why : String) : Job (Option (List String)) := do
    say .warning ("⚠  cannot read " ++ path.toString ++ ": " ++ why)
    return none
  match ← Job.access .rules path (·.read path) with
  | .error fault => if fault.errno == .noEntry then return none else cannotRead fault.message
  | .ok bytes =>
      match Text.Utf8.decode bytes with
      | .error fault => cannotRead fault.message
      | .ok text => return some ((Text.lines text).map String.ofList)

def ofRoot (root : Path) (exclusions : Exclusions) (verbose : Bool) : Job Walker := do
  let lines? ← (if exclusions.useIgnoreFile then ignoreLines? root else pure none)
  match Ignore.rulesOf
      (Ignore.ruleLines exclusions.dirs exclusions.files (lines?.getD [])) with
  | .error e => throw (.pattern e)
  | .ok rules =>
      return {
        root, rules, verbose
        excluded := (exclusions.dirs.filter (· != "")).map Ignore.dirName
        hasIgnoreFile := lines?.isSome }

def isIgnored (w : Walker) (name : String) (isDir : Bool) : Bool :=
  Ignore.isIgnored w.rules (if isDir then name ++ "/" else name)

def relative (below : List String) (name : String) : String :=
  String.intercalate "/" (below ++ [name])

def dirReason? (w : Walker) (below : List String) (name : String) : Option Reason :=
  if w.isIgnored (relative below name) true then some .rule
  else if w.excluded.contains name then some .default
  else none

def fileReason? (w : Walker) (below : List String) (name : String) : Option Reason :=
  if w.isIgnored (relative below name) false then some .rule else none

def reportIgnored (w : Walker) (name : String) (reason : Reason) : Job Unit :=
  say (if w.verbose then .info else .debug) ("-- ignored (" ++ reason.label ++ "): " ++ name)

def reportFault (w : Walker) (fault : SystemFault) : Job Unit :=
  let place := fault.path?.getD w.root.toString
  match fault.errno with
  | .permission => say .warning ("⚠  no access to directory: " ++ place)
  | _ => say .error ("❌ cannot read directory " ++ place ++ ": " ++ fault.message)

def siftDirs (w : Walker) (below : List String) (dirs : List (String × Bool)) : Job Unit :=
  dirs.forM fun (name, _) =>
    match w.dirReason? below name with
    | some reason => w.reportIgnored (relative below name ++ "/") reason
    | none => pure ()

def dirAt (w : Walker) (below : List String) : Path :=
  { w.root with parts := w.root.parts ++ below }

def visitFile (w : Walker) (visit : σ → Path → Job σ) (below : List String) (s : σ)
    (name : String) : Job σ :=
  match w.fileReason? below name with
  | some reason => do
      w.reportIgnored (relative below name) reason
      return s
  | none => visit s ((w.dirAt below).child name)

/-- Walks the directory that the names `below` lead to, at most `depth` levels deep. -/
def walkDir (w : Walker) (visit : σ → Path → Job σ) : (depth : Nat) → List String → σ → Job σ
  | 0, _, s => pure s
  | depth + 1, below, s => do
      match ← Job.list (w.dirAt below) with
      | .error fault =>
          w.reportFault fault
          return s
      | .ok listing =>
          w.siftDirs below listing.dirs
          let s ← listing.files.foldlM (w.visitFile visit below) s
          let kept := listing.dirs.filter fun (name, isLink) =>
            (w.dirReason? below name).isNone && !isLink
          kept.foldlM (fun s (name, _) => w.walkDir visit depth (below ++ [name]) s) s

/-- Visits the files of the tree one after another. No walk is deeper than the tree. -/
def walk (w : Walker) (visit : σ → Path → Job σ) (s : σ) : Job σ := do
  w.walkDir visit ((← Job.tree).depth + 1) [] s

def files (w : Walker) : Job (List Path) :=
  w.walk (fun paths path => pure (paths ++ [path])) []

end Walker

end CommentSweep
