import CommentSweep.Proofs.Ignore.Weights
import CommentSweep.Proofs.Walker.Yield
import Mathlib

/-!
Walks that leave out more. A walk whose rules ignore whatever those of another walk ignore, and
which excludes the same names or more, yields a subsequence of the files that the other yields.
Excluding one more directory makes such a walk.
-/

namespace CommentSweep.Walker

open Disk

def keepsFile (w : Walker) (judge : Ignore.Rules → String → Bool) (below : List String)
    (name : String) : Bool :=
  !judge w.rules (relative below name)

def keepsDir (w : Walker) (judge : Ignore.Rules → String → Bool) (below : List String)
    (name : String) : Bool :=
  !judge w.rules (relative below name ++ "/") && !w.excluded.contains name

def pathsJudged (w : Walker) (judge : Ignore.Rules → String → Bool) (hazards : List Hazard)
    (tree : FileTree) : (depth : Nat) → List String → List Path
  | 0, _ => []
  | depth + 1, below =>
      match Job.attempt hazards .list (w.dirAt below) (tree.list (w.dirAt below)) with
      | .error _ => []
      | .ok listing =>
          (listing.files.filter (w.keepsFile judge below)).map (w.dirAt below).child ++
            (listing.dirs.filter fun dir => w.keepsDir judge below dir.1 && !dir.2).flatMap
              fun dir => w.pathsJudged judge hazards tree depth (below ++ [dir.1])

variable {w : Walker} {hazards : List Hazard} {tree : FileTree}

theorem isNone_fileReason? (below : List String) (name : String) :
    (w.fileReason? below name).isNone = w.keepsFile Ignore.isIgnored below name := by
  simp only [fileReason?, keepsFile, isIgnored, Bool.false_eq_true, if_false]
  cases Ignore.isIgnored w.rules (relative below name) <;> rfl

theorem isNone_dirReason? (below : List String) (name : String) :
    (w.dirReason? below name).isNone = w.keepsDir Ignore.isIgnored below name := by
  simp only [dirReason?, keepsDir, isIgnored, if_true]
  cases Ignore.isIgnored w.rules (relative below name ++ "/") <;>
    cases w.excluded.contains name <;> rfl

theorem pathsFrom_eq_pathsJudged (depth : Nat) (below : List String) :
    w.pathsFrom hazards tree depth below =
      w.pathsJudged Ignore.isIgnored hazards tree depth below := by
  induction depth generalizing below with
  | zero => rfl
  | succ depth ih =>
      rw [pathsFrom, pathsJudged]
      cases Job.attempt hazards .list (w.dirAt below) (tree.list (w.dirAt below)) with
      | error fault => rfl
      | ok listing => simp only [visited, entered, isNone_fileReason?, isNone_dirReason?, ih]

section

variable {narrow : Walker} {judge : Ignore.Rules → String → Bool}
  (hroot : narrow.root = w.root) (hexcluded : ∀ name ∈ w.excluded, name ∈ narrow.excluded)
  (hrules : ∀ path, judge w.rules path = true → judge narrow.rules path = true)

include hrules

theorem keepsFile_of_narrow (below : List String) (name : String)
    (h : narrow.keepsFile judge below name = true) : w.keepsFile judge below name = true := by
  rw [keepsFile, Bool.not_eq_true', ← Bool.not_eq_true] at h ⊢
  exact mt (hrules _) h

include hexcluded

theorem keepsDir_of_narrow (below : List String) (name : String)
    (h : narrow.keepsDir judge below name = true) : w.keepsDir judge below name = true := by
  simp only [keepsDir, Bool.and_eq_true, Bool.not_eq_true', ← Bool.not_eq_true,
    List.contains_iff_mem] at h ⊢
  exact ⟨mt (hrules _) h.1, mt (hexcluded name) h.2⟩

include hroot

theorem pathsJudged_sublist (depth : Nat) (below : List String) :
    (narrow.pathsJudged judge hazards tree depth below).Sublist
      (w.pathsJudged judge hazards tree depth below) := by
  induction depth generalizing below with
  | zero => exact .slnil
  | succ depth ih =>
      have hdir : narrow.dirAt below = w.dirAt below := by rw [dirAt, dirAt, hroot]
      rw [pathsJudged, pathsJudged, hdir]
      cases Job.attempt hazards .list (w.dirAt below) (tree.list (w.dirAt below)) with
      | error fault => exact .slnil
      | ok listing =>
          apply List.Sublist.append
          · have hfiles : (listing.files.filter (narrow.keepsFile judge below)).Sublist
                (listing.files.filter (w.keepsFile judge below)) :=
              List.monotone_filter_right _ (keepsFile_of_narrow hrules below)
            exact hfiles.map _
          · have hdirs : (listing.dirs.filter fun dir =>
                  narrow.keepsDir judge below dir.1 && !dir.2).Sublist
                (listing.dirs.filter fun dir => w.keepsDir judge below dir.1 && !dir.2) := by
              apply List.monotone_filter_right
              intro dir hkept
              rw [Bool.and_eq_true] at hkept ⊢
              exact ⟨keepsDir_of_narrow hexcluded hrules below dir.1 hkept.1, hkept.2⟩
            exact (hdirs.flatMap _).trans (List.Sublist.flatMap_right _ fun dir _ => ih _)

end

theorem pathsJudged_sublist_of_more_dirs {root : Path} {front back files : List String}
    {dir : String} {useIgnoreFile : Bool} {rules more : Ignore.Rules}
    {judge : Ignore.Rules → String → Bool}
    (hjudge : ∀ path, judge rules path = true → judge more path = true) (verbose : Bool)
    (depth : Nat) (below : List String) :
    ((ofRules hazards tree root ⟨front ++ dir :: back, files, useIgnoreFile⟩ more
        verbose).pathsJudged judge hazards tree depth below).Sublist
      ((ofRules hazards tree root ⟨front ++ back, files, useIgnoreFile⟩ rules verbose).pathsJudged
        judge hazards tree depth below) := by
  apply pathsJudged_sublist
  · rfl
  · have hdirs : (front ++ back).Sublist (front ++ dir :: back) :=
      (List.sublist_cons_self dir back).append_left front
    exact fun name hname => ((hdirs.filter _).map _).subset hname
  · exact hjudge

theorem returns_files_ofRoot (hmild : Job.Mild hazards) (hwell : tree.WellFormed) {root : Path}
    (hnull : root.isNullFree) {exclusions : Exclusions} {rules : Ignore.Rules}
    (hrules : Ignore.rulesOf (patterns hazards tree root exclusions) = .ok rules) (verbose : Bool) :
    Job.Returns hazards (ofRoot root exclusions verbose >>= files) tree
      ((ofRules hazards tree root exclusions rules verbose).pathsJudged
        (Ignore.judge Ignore.Ruling.update) hazards tree (tree.depth + 1) []) tree := by
  rw [← Ignore.isIgnored_eq_judge, ← pathsFrom_eq_pathsJudged]
  have hwalker := returns_ofRoot hnull (approachable_of_mild hmild) hrules verbose
  exact hwalker.bind (returns_files hmild hwell hnull)

/-- Excluding one more directory, at any place of the list, admits no path that was ignored and has
no further file visited, whatever the rules behind it take back. This would be so too if a match
that ignores what lies below a directory took over whatever was said before. -/
theorem excluding_more_yields_less (hmild : Job.Mild hazards) (hwell : tree.WellFormed)
    {root : Path} (hnull : root.isNullFree) {front back files : List String} {dir : String}
    (hdir : dir.toList.head? ≠ some '!') {useIgnoreFile : Bool} {rules more : Ignore.Rules}
    (hrules : Ignore.rulesOf
      (patterns hazards tree root ⟨front ++ back, files, useIgnoreFile⟩) = .ok rules)
    (hmore : Ignore.rulesOf
      (patterns hazards tree root ⟨front ++ dir :: back, files, useIgnoreFile⟩) = .ok more)
    (verbose : Bool) :
    (∀ path, Ignore.isIgnored rules path = true → Ignore.isIgnored more path = true) ∧
    (∃ paths fewer,
      Job.Returns hazards
        (ofRoot root ⟨front ++ back, files, useIgnoreFile⟩ verbose >>= Walker.files) tree paths
        tree ∧
      Job.Returns hazards
        (ofRoot root ⟨front ++ dir :: back, files, useIgnoreFile⟩ verbose >>= Walker.files) tree
        fewer tree ∧
      fewer.Sublist paths) ∧
    (∀ path, Ignore.judge Ignore.Ruling.updateEagerly rules path = true →
      Ignore.judge Ignore.Ruling.updateEagerly more path = true) ∧
    ((ofRules hazards tree root ⟨front ++ dir :: back, files, useIgnoreFile⟩ more
        verbose).pathsJudged
        (Ignore.judge Ignore.Ruling.updateEagerly) hazards tree (tree.depth + 1) []).Sublist
      ((ofRules hazards tree root ⟨front ++ back, files, useIgnoreFile⟩ rules verbose).pathsJudged
        (Ignore.judge Ignore.Ruling.updateEagerly) hazards tree (tree.depth + 1) []) := by
  have hjudged {weigh : Ignore.Weighing} (hfair : weigh.Fair) (path : String) :
      Ignore.judge weigh rules path = true → Ignore.judge weigh more path = true :=
    Ignore.judge_of_more_dirs hfair hdir hrules hmore
  refine ⟨?_, ?_, hjudged Ignore.fair_updateEagerly, ?_⟩
  · rw [Ignore.isIgnored_eq_judge]
    exact hjudged Ignore.fair_update
  · exact ⟨_, _, returns_files_ofRoot hmild hwell hnull hrules verbose,
      returns_files_ofRoot hmild hwell hnull hmore verbose,
      pathsJudged_sublist_of_more_dirs (hjudged Ignore.fair_update) verbose _ _⟩
  · exact pathsJudged_sublist_of_more_dirs (hjudged Ignore.fair_updateEagerly) verbose _ _

def loopedMore : Ignore.Rules :=
  [⟨true, .sequence [.upperDirs, .char 'o', .char 'u', .char 't', .dirSlash]⟩,
    ⟨true, .sequence [.upperDirs, .char 'a', .dirSlash]⟩,
    ⟨false, .sequence [.upperDirs, .char 'o', .char 'u', .char 't', .dirSlash]⟩]

theorem excluding_more_yields_less_looped :
    Ignore.rulesOf (patterns [] looped ⟨.root, []⟩ ⟨["out", "a"], [], true⟩) = .ok loopedMore ∧
    Ignore.isIgnored loopedRules "a/c.js" = false ∧ Ignore.isIgnored loopedMore "a/c.js" = true ∧
    ∃ paths fewer,
      Job.Returns [] (ofRoot ⟨.root, []⟩ ⟨["out"], [], true⟩ false >>= files) looped paths looped ∧
      Job.Returns [] (ofRoot ⟨.root, []⟩ ⟨["out", "a"], [], true⟩ false >>= files) looped fewer
        looped ∧
      fewer.Sublist paths := by
  have hrules : Ignore.rulesOf (patterns [] looped ⟨.root, []⟩ ⟨["out"] ++ [], [], true⟩) =
      .ok loopedRules := rulesOf_looped
  have hmore : Ignore.rulesOf (patterns [] looped ⟨.root, []⟩ ⟨["out"] ++ "a" :: [], [], true⟩) =
      .ok loopedMore := by
    have hlines : patterns [] looped ⟨.root, []⟩ ⟨["out"] ++ "a" :: [], [], true⟩ =
        ["out/", "a/", "!out/"] := by cbv
    rw [hlines]
    decide +kernel
  have hmild : Job.Mild [] := by decide
  obtain ⟨-, hfiles, -⟩ := excluding_more_yields_less hmild walkable_looped.wellFormed rfl
    (by decide) hrules hmore false
  exact ⟨hmore, by decide +kernel, by decide +kernel, hfiles⟩

end CommentSweep.Walker
