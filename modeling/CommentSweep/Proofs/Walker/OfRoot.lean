import CommentSweep.Walker
import CommentSweep.Proofs.Job.Access

/-!
Walkers for a directory. If the patterns for a directory compile, there is a walker for it. The tree
stays as it is, and nothing but the tree and the hazards decides what becomes of it: an ignore file
that cannot be read has no rules.
-/

namespace CommentSweep.Walker

open Disk

def ignoreLinesIn? (hazards : List Hazard) (tree : FileTree) (root : Path) :
    Option (List String) :=
  let path := root.child Defaults.ignoreFile
  match Job.attempt hazards .rules path (tree.read path) with
  | .error _ => none
  | .ok bytes =>
      match Text.Utf8.decode bytes with
      | .error _ => none
      | .ok text => some ((Text.lines text).map String.ofList)

def linesFor? (hazards : List Hazard) (tree : FileTree) (root : Path) (exclusions : Exclusions) :
    Option (List String) :=
  if exclusions.useIgnoreFile then ignoreLinesIn? hazards tree root else none

/-- The patterns of a walk, from the command line and from the ignore file. -/
def patterns (hazards : List Hazard) (tree : FileTree) (root : Path) (exclusions : Exclusions) :
    List String :=
  Ignore.ruleLines exclusions.dirs exclusions.files
    ((linesFor? hazards tree root exclusions).getD [])

def ofRules (hazards : List Hazard) (tree : FileTree) (root : Path) (exclusions : Exclusions)
    (rules : Ignore.Rules) (verbose : Bool) : Walker where
  root
  rules
  excluded := (exclusions.dirs.filter (· != "")).map Ignore.dirName
  verbose
  hasIgnoreFile := (linesFor? hazards tree root exclusions).isSome

/-- If the ignore file is asked for, no hazard but a fault of the system lies in its way. -/
def Approachable (hazards : List Hazard) (root : Path) (exclusions : Exclusions) : Prop :=
  exclusions.useIgnoreFile = true → Job.Passable hazards .rules (root.child Defaults.ignoreFile)

variable {hazards : List Hazard} {tree : FileTree} {root : Path} {exclusions : Exclusions}

theorem approachable_of_mild (hmild : Job.Mild hazards) : Approachable hazards root exclusions :=
  fun _ => hmild.passable .rules _

theorem isNullFree_ignoreFile (hnull : root.isNullFree) :
    (root.child Defaults.ignoreFile).isNullFree :=
  Path.isNullFree_child hnull (by decide)

theorem returns_ignoreLines? (hnull : root.isNullFree)
    (hpass : Job.Passable hazards .rules (root.child Defaults.ignoreFile)) :
    Job.Returns hazards (ignoreLines? root) tree (ignoreLinesIn? hazards tree root) tree := by
  refine (Job.returns_access hpass (isNullFree_ignoreFile hnull) _).bind ?_
  rw [ignoreLinesIn?]
  cases Job.attempt hazards .rules (root.child Defaults.ignoreFile)
      (tree.read (root.child Defaults.ignoreFile)) with
  | error fault =>
      simp only
      split
      · exact Job.returns_pure none
      · exact (Job.returns_say _).bind (Job.returns_pure none)
  | ok bytes =>
      simp only
      cases Text.Utf8.decode bytes with
      | error fault => exact (Job.returns_say _).bind (Job.returns_pure none)
      | ok text => exact Job.returns_pure _

theorem returns_linesFor? (hnull : root.isNullFree) (h : Approachable hazards root exclusions) :
    Job.Returns hazards (if exclusions.useIgnoreFile then ignoreLines? root else pure none) tree
      (linesFor? hazards tree root exclusions) tree := by
  rw [linesFor?]
  split
  · next huse => exact returns_ignoreLines? hnull (h huse)
  · exact Job.returns_pure none

theorem returns_ofRoot (hnull : root.isNullFree) (h : Approachable hazards root exclusions)
    {rules : Ignore.Rules}
    (hrules : Ignore.rulesOf (patterns hazards tree root exclusions) = .ok rules)
    (verbose : Bool) :
    Job.Returns hazards (ofRoot root exclusions verbose) tree
      (ofRules hazards tree root exclusions rules verbose) tree := by
  refine (returns_linesFor? hnull h).bind ?_
  rw [patterns] at hrules
  rw [hrules]
  exact Job.returns_pure _

theorem ends_ofRoot (hnull : root.isNullFree) (h : Approachable hazards root exclusions)
    {e : Ignore.PatternError}
    (hrules : Ignore.rulesOf (patterns hazards tree root exclusions) = .error e)
    (verbose : Bool) :
    Job.Ends hazards (ofRoot root exclusions verbose) tree (.error (.pattern e)) tree := by
  refine (returns_linesFor? hnull h).bind ?_
  rw [patterns] at hrules
  rw [hrules]
  exact Job.ends_throw _

theorem ends_ignoreLines? {abort : Abort}
    (habort : Job.abort? hazards .rules (root.child Defaults.ignoreFile) = some abort) :
    Job.Ends hazards (ignoreLines? root) tree (.error abort) tree :=
  (Job.ends_access habort _).bind_error _

theorem ends_ofRoot_of_abort {abort : Abort} (huse : exclusions.useIgnoreFile = true)
    (habort : Job.abort? hazards .rules (root.child Defaults.ignoreFile) = some abort)
    (verbose : Bool) :
    Job.Ends hazards (ofRoot root exclusions verbose) tree (.error abort) tree := by
  unfold ofRoot
  rw [if_pos huse]
  exact (ends_ignoreLines? habort).bind_error _

theorem exists_ends_ofRoot (hnull : root.isNullFree) {e : Ignore.PatternError}
    (hrules : Ignore.rulesOf (patterns hazards tree root exclusions) = .error e)
    (verbose : Bool) :
    ∃ abort, Job.Ends hazards (ofRoot root exclusions verbose) tree (.error abort) tree ∧
      (∀ fault, abort ≠ .system fault) ∧
      (Approachable hazards root exclusions → abort = .pattern e) := by
  by_cases happroach : Approachable hazards root exclusions
  · exact ⟨.pattern e, ends_ofRoot hnull happroach hrules verbose, nofun, fun _ => rfl⟩
  · obtain ⟨huse, hpass⟩ := Classical.not_imp.mp happroach
    cases habort : Job.abort? hazards .rules (root.child Defaults.ignoreFile) with
    | none => exact absurd (Job.passable_of_abort? habort) hpass
    | some abort =>
        exact ⟨abort, ends_ofRoot_of_abort huse habort verbose, Job.not_system_of_abort? habort,
          fun h => absurd h happroach⟩

theorem compiled_of_returns (hnull : root.isNullFree) {verbose : Bool} {w : Walker}
    (h : Job.Returns hazards (ofRoot root exclusions verbose) tree w tree) :
    Approachable hazards root exclusions ∧
      ∃ rules, Ignore.rulesOf (patterns hazards tree root exclusions) = .ok rules ∧
        w = ofRules hazards tree root exclusions rules verbose := by
  have happroach : Approachable hazards root exclusions := by
    intro huse
    cases habort : Job.abort? hazards .rules (root.child Defaults.ignoreFile) with
    | none => exact Job.passable_of_abort? habort
    | some abort => cases (Job.Ends.unique h (ends_ofRoot_of_abort huse habort verbose)).1
  refine ⟨happroach, ?_⟩
  cases hrules : Ignore.rulesOf (patterns hazards tree root exclusions) with
  | ok rules => exact ⟨rules, rfl, h.unique (returns_ofRoot hnull happroach hrules verbose)⟩
  | error e => cases (Job.Ends.unique h (ends_ofRoot hnull happroach hrules verbose)).1

theorem abort_of_ends_ofRoot (hnull : root.isNullFree) {verbose : Bool} {abort : Abort}
    (h : Job.Ends hazards (ofRoot root exclusions verbose) tree (.error abort) tree) :
    (∃ e, abort = .pattern e) ∨ exclusions.useIgnoreFile = true ∧
      Job.abort? hazards .rules (root.child Defaults.ignoreFile) = some abort := by
  by_cases happroach : Approachable hazards root exclusions
  · cases hrules : Ignore.rulesOf (patterns hazards tree root exclusions) with
    | ok rules => cases (h.unique (returns_ofRoot hnull happroach hrules verbose)).1
    | error e =>
        cases (h.unique (ends_ofRoot hnull happroach hrules verbose)).1
        exact .inl ⟨e, rfl⟩
  · obtain ⟨huse, hpass⟩ := Classical.not_imp.mp happroach
    cases habort : Job.abort? hazards .rules (root.child Defaults.ignoreFile) with
    | none => exact absurd (Job.passable_of_abort? habort) hpass
    | some abort' =>
        cases (h.unique (ends_ofRoot_of_abort huse habort verbose)).1
        exact .inr ⟨huse, rfl⟩

theorem keeps_ignoreLines? (root : Path) : Job.Keeps (ignoreLines? root) := by
  refine (Job.keeps_access _ _ _).bind fun answer => ?_
  intro hazards tree
  cases answer with
  | error fault =>
      simp only
      split
      · exact Job.ensures_pure rfl
      · exact (Job.returns_say _).idle.bind fun _ => Job.ensures_pure rfl
  | ok bytes =>
      simp only
      split
      · exact (Job.returns_say _).idle.bind fun _ => Job.ensures_pure rfl
      · exact Job.ensures_pure rfl

theorem keeps_ofRoot (root : Path) (exclusions : Exclusions) (verbose : Bool) :
    Job.Keeps (ofRoot root exclusions verbose) := by
  have hlines : Job.Keeps (if exclusions.useIgnoreFile then ignoreLines? root else pure none) := by
    split
    · exact keeps_ignoreLines? root
    · exact fun _ _ => Job.ensures_pure rfl
  refine hlines.bind fun lines? hazards tree => ?_
  split
  · exact Job.ensures_throw rfl
  · exact Job.ensures_pure rfl

end CommentSweep.Walker
