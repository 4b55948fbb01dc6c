import CommentSweep.Proofs.Walker.Yield
import Mathlib

/-!
Directories that cannot be listed. Such a directory takes the files below it out of what a walk
yields, and no others; and if the walk comes to it, it leaves exactly one record in the log.
-/

namespace CommentSweep.Walker

open Disk

variable {w : Walker} {hazards : List Hazard} {tree : FileTree} {below : List String}

/-- From the directory of the names `below` on, nothing hinders the listing of the directories on
the way to the file that the further names lead to. -/
def OpenWay (w : Walker) (hazards : List Hazard) (below names : List String) : Prop :=
  ∀ front ∈ names.dropLast.inits, Job.Clear hazards .list (w.dirAt (below ++ front))

instance (w : Walker) (hazards : List Hazard) (below names : List String) :
    Decidable (w.OpenWay hazards below names) :=
  inferInstanceAs (Decidable (∀ front ∈ names.dropLast.inits,
    Job.Clear hazards .list (w.dirAt (below ++ front))))

theorem OpenWay.clear {names : List String} (h : w.OpenWay hazards below names) :
    Job.Clear hazards .list (w.dirAt below) := by
  simpa using h [] (by simp)

theorem openWay_cons_iff {name : String} {names : List String} (hne : names ≠ []) :
    w.OpenWay hazards below (name :: names) ↔
      Job.Clear hazards .list (w.dirAt below) ∧ w.OpenWay hazards (below ++ [name]) names := by
  simp [OpenWay, List.dropLast_cons_of_ne_nil hne]

theorem namesFrom_eq_filter (hpass : ∀ path, Job.Passable hazards .list path) (depth : Nat)
    (below : List String) :
    w.namesFrom hazards tree depth below =
      (w.namesFrom [] tree depth below).filter fun names => w.OpenWay hazards below names := by
  induction depth generalizing below with
  | zero => rfl
  | succ depth ih =>
      by_cases hclear : Job.Clear hazards .list (w.dirAt below)
      · have hnone : Job.Clear [] .list (w.dirAt below) := nofun
        rw [namesFrom, namesFrom, Job.attempt_of_clear hclear, Job.attempt_of_clear hnone]
        cases Job.named (w.dirAt below) (tree.list (w.dirAt below)) with
        | error fault => rfl
        | ok listing =>
            have hfile (name : String) : w.OpenWay hazards below [name] := by
              simpa [OpenWay] using hclear
            have hdir (dir : String × Bool) :
                (w.namesFrom hazards tree depth (below ++ [dir.1])).map (dir.1 :: ·) =
                  ((w.namesFrom [] tree depth (below ++ [dir.1])).map (dir.1 :: ·)).filter
                    fun names => w.OpenWay hazards below names := by
              rw [ih, List.filter_map]
              refine congrArg _ (List.filter_congr fun names hnames => ?_)
              have hne := ne_nil_of_mem_namesFrom hnames
              simp [openWay_cons_iff hne, hclear]
            simp only [List.filter_append, List.filter_flatMap, hdir]
            simp [List.filter_map, Function.comp_def, hfile]
      · have hlost : (w.namesFrom [] tree (depth + 1) below).filter
            (fun names => w.OpenWay hazards below names) = [] := by
          rw [List.filter_eq_nil_iff]
          intro names _ hopen
          exact hclear (of_decide_eq_true hopen).clear
        rw [hlost, namesFrom]
        cases hattempt : Job.attempt hazards .list (w.dirAt below) (tree.list (w.dirAt below)) with
        | error fault => rfl
        | ok listing => exact absurd ((Job.attempt_eq_ok_iff (hpass _) _ _).mp hattempt).1 hclear

def ignoredIn (w : Walker) (below : List String) (listing : FileTree.Listing) : List Notice :=
  (listing.dirs.flatMap fun dir =>
    ((w.dirReason? below dir.1).map (.ignored (relative below dir.1 ++ "/"))).toList) ++
  listing.files.flatMap fun name =>
    ((w.fileReason? below name).map (.ignored (relative below name))).toList

def noticesFrom (w : Walker) (hazards : List Hazard) (tree : FileTree) :
    (depth : Nat) → List String → List Notice
  | 0, _ => []
  | depth + 1, below =>
      match Job.attempt hazards .list (w.dirAt below) (tree.list (w.dirAt below)) with
      | .error fault => [.failed below fault]
      | .ok listing =>
          w.ignoredIn below listing ++
            (w.entered below listing.dirs).flatMap fun dir =>
              w.noticesFrom hazards tree depth (below ++ [dir.1])

theorem logs_visitFiles (below files : List String) (seen : List Path) :
    Job.Logs hazards
      (files.foldlM (w.visitFile (fun paths path => pure (paths ++ [path])) below) seen) tree
      (seen ++ w.visited below files)
      (files.flatMap fun name =>
        ((w.fileReason? below name).map (.ignored (relative below name))).toList.map w.record) := by
  have hvisited : w.visited below files = files.flatMap fun name =>
      if (w.fileReason? below name).isNone then [(w.dirAt below).child name] else [] := by
    rw [visited]
    induction files with
    | nil => rfl
    | cons name files ih =>
        rw [List.flatMap_cons, ← ih, List.filter_cons]
        split <;> simp
  rw [hvisited]
  apply Job.logs_foldlM
  intro name _ seen
  rw [visitFile]
  cases w.fileReason? below name with
  | none => exact Job.logs_pure _
  | some reason =>
      have hreport : Job.Logs hazards (w.reportIgnored (relative below name) reason) tree () _ :=
        Job.logs_say _
      change Job.Logs hazards _ tree (seen ++ []) _
      rw [List.append_nil]
      exact hreport.bind (Job.logs_pure seen)

section

variable (hpass : ∀ path, Job.Passable hazards .list path) (hwell : tree.WellFormed)

include hpass hwell

theorem logs_walkDir {depth : Nat} (hnull : (w.dirAt below).isNullFree) (seen : List Path) :
    Job.Logs hazards (w.walkDir (fun paths path => pure (paths ++ [path])) depth below seen) tree
      (seen ++ w.pathsFrom hazards tree depth below)
      ((w.noticesFrom hazards tree depth below).map w.record) := by
  induction depth generalizing below seen with
  | zero =>
      rw [pathsFrom, List.append_nil]
      exact Job.logs_pure seen
  | succ depth ih =>
      have hlist : Job.Logs hazards (Job.list (w.dirAt below)) tree _ [] :=
        Job.logs_access (Job.abort?_eq_none (hpass _) hnull) (·.list (w.dirAt below))
      rw [pathsFrom, noticesFrom]
      cases hattempt : Job.attempt hazards .list (w.dirAt below) (tree.list (w.dirAt below)) with
      | error fault =>
          rw [hattempt] at hlist
          simp only [List.append_nil]
          exact hlist.bind ((logs_reportFault below fault).bind (Job.logs_pure seen))
      | ok listing =>
          rw [hattempt] at hlist
          have hlisted := Job.ok_of_attempt hattempt
          have hturn : ∀ dir ∈ w.entered below listing.dirs, ∀ seen, Job.Logs hazards
              (w.walkDir (fun paths path => pure (paths ++ [path])) depth (below ++ [dir.1]) seen)
              tree (seen ++ w.pathsFrom hazards tree depth (below ++ [dir.1]))
              ((w.noticesFrom hazards tree depth (below ++ [dir.1])).map w.record) := by
            intro dir hdir seen
            have hname :=
              (FileTree.nullFree_of_list hwell hlisted).1 dir (List.mem_filter.mp hdir).1
            refine ih ?_ seen
            simpa using Path.isNullFree_child hnull hname
          simp only [ignoredIn, List.map_append, List.map_flatMap, List.append_assoc]
          rw [← List.append_assoc seen]
          exact hlist.bind ((logs_siftDirs below listing.dirs).bind
            ((logs_visitFiles below listing.files seen).bind (Job.logs_foldlM hturn _)))

theorem logs_files (hnull : w.root.isNullFree) :
    Job.Logs hazards w.files tree (w.paths hazards tree)
      ((w.noticesFrom hazards tree (tree.depth + 1) []).map w.record) := by
  have hdir : (w.dirAt []).isNullFree := by simpa [dirAt] using hnull
  exact Job.logs_tree.bind (logs_walkDir hpass hwell hdir [])

end

/-- A walk comes to the directory of these names: it is the root, or the directory above it is come
to and can be listed, and it is no link there and neither ignored nor excluded. -/
inductive Reaches (w : Walker) (hazards : List Hazard) (tree : FileTree) : List String → Prop
  | root : Reaches w hazards tree []
  | enter {below : List String} {listing : FileTree.Listing} {name : String}
      (above : Reaches w hazards tree below)
      (lists : Job.attempt hazards .list (w.dirAt below) (tree.list (w.dirAt below)) = .ok listing)
      (isDir : (name, false) ∈ listing.dirs) (kept : w.dirReason? below name = none) :
      Reaches w hazards tree (below ++ [name])

theorem mem_entered_iff_kept {dirs : List (String × Bool)} {dir : String × Bool} :
    dir ∈ w.entered below dirs ↔
      dir.2 = false ∧ (dir.1, false) ∈ dirs ∧ w.dirReason? below dir.1 = none := by
  obtain ⟨name, isLink⟩ := dir
  rw [entered, List.mem_filter]
  cases isLink <;> simp

theorem Reaches.exists_listing {front : List String} {name : String}
    (h : w.Reaches hazards tree below) (hfront : front ++ [name] <+: below) :
    ∃ listing, Job.attempt hazards .list (w.dirAt front) (tree.list (w.dirAt front)) = .ok listing ∧
      (name, false) ∈ w.entered front listing.dirs := by
  induction h with
  | root => simp at hfront
  | @enter below listing last above lists isDir kept ih =>
      rcases List.prefix_concat_iff.mp hfront with heq | hinside
      · obtain ⟨rfl, hname⟩ := List.append_inj' heq rfl
        cases hname
        exact ⟨listing, lists, mem_entered_iff_kept.mpr ⟨rfl, isDir, kept⟩⟩
      · exact ih hinside

theorem failed_not_mem_ignoredIn {front : List String} {fault : SystemFault}
    {listing : FileTree.Listing} : .failed below fault ∉ w.ignoredIn front listing := by
  simp [ignoredIn]

@[simp] theorem failedDir?_ignoredIn (w : Walker) (below : List String)
    (listing : FileTree.Listing) :
    (w.ignoredIn below listing).filterMap Notice.failedDir? = [] := by
  rw [List.filterMap_eq_nil_iff]
  intro notice hmem
  cases notice with
  | ignored name reason => rfl
  | failed below fault => exact absurd hmem failed_not_mem_ignoredIn

@[simp] theorem mem_failedDirs_iff {notices : List Notice} :
    below ∈ notices.filterMap Notice.failedDir? ↔ ∃ fault, .failed below fault ∈ notices := by
  rw [List.mem_filterMap]
  constructor
  · rintro ⟨notice, hmem, hdir⟩
    cases notice with
    | ignored name reason => cases hdir
    | failed place fault =>
        cases hdir
        exact ⟨fault, hmem⟩
  · rintro ⟨fault, hmem⟩
    exact ⟨_, hmem, rfl⟩

theorem eq_or_exists_snoc_of_prefix {front : List String} (h : front <+: below) :
    front = below ∨ ∃ name, front ++ [name] <+: below := by
  obtain ⟨rest, rfl⟩ := h
  cases rest with
  | nil => exact .inl (List.append_nil front).symm
  | cons name rest => exact .inr ⟨name, by simp⟩

theorem isPrefix_of_failed {depth : Nat} {front : List String} {fault : SystemFault}
    (h : .failed below fault ∈ w.noticesFrom hazards tree depth front) : front <+: below := by
  induction depth generalizing front with
  | zero => cases h
  | succ depth ih =>
      rw [noticesFrom] at h
      split at h
      · cases List.mem_singleton.mp h
        exact List.prefix_refl _
      · rcases List.mem_append.mp h with hignored | hbelow
        · exact absurd hignored failed_not_mem_ignoredIn
        · obtain ⟨dir, -, hdir⟩ := List.mem_flatMap.mp hbelow
          exact (List.prefix_append front [dir.1]).trans (ih hdir)

section

variable (hwell : tree.WellFormed)

include hwell

theorem nodup_failedDirs (depth : Nat) (below : List String) :
    ((w.noticesFrom hazards tree depth below).filterMap Notice.failedDir?).Nodup := by
  induction depth generalizing below with
  | zero => exact .nil
  | succ depth ih =>
      rw [noticesFrom]
      cases hattempt : Job.attempt hazards .list (w.dirAt below) (tree.list (w.dirAt below)) with
      | error fault => exact List.nodup_singleton below
      | ok listing =>
          have hlist := Job.ok_of_attempt hattempt
          simp only [List.filterMap_append, failedDir?_ignoredIn, List.nil_append,
            List.filterMap_flatMap, List.nodup_flatMap]
          refine ⟨fun dir _ => ih (below ++ [dir.1]), ?_⟩
          obtain ⟨location, hlocate⟩ := FileTree.exists_locate_of_list hlist
          have hdirs := FileTree.pairwise_dirs hwell hlocate hlist
          refine (hdirs.filter _).imp ?_
          intro dir dir' hlt names hnames hnames'
          obtain ⟨fault, hfailed⟩ := mem_failedDirs_iff.mp hnames
          obtain ⟨fault', hfailed'⟩ := mem_failedDirs_iff.mp hnames'
          have hsame := List.prefix_of_prefix_length_le (isPrefix_of_failed hfailed)
            (isPrefix_of_failed hfailed') (by simp)
          have hname : dir.1 = dir'.1 := by simpa using hsame.eq_of_length (by simp)
          exact hlt.ne hname

theorem Reaches.length_le_of_locate (hnames : tree.ProperNames) (h : w.Reaches hazards tree below)
    {location : Location} (hlocate : tree.locate (w.dirAt below) = .ok location) :
    below.length ≤ location.length := by
  induction h generalizing location with
  | root => exact Nat.zero_le _
  | @enter below listing name above lists isDir kept ih =>
      have hlist := Job.ok_of_attempt lists
      obtain ⟨place, hplace⟩ := FileTree.exists_locate_of_list hlist
      have hdir := (FileTree.mem_dirs_iff hwell hplace hlist).mp isDir
      rw [dirAt_snoc] at hlocate
      rw [FileTree.locate_child hnames hplace hdir rfl hlocate, List.length_append,
        List.length_append]
      exact Nat.add_le_add_right (ih hplace) 1

theorem Reaches.length_le_depth (hnames : tree.ProperNames) (h : w.Reaches hazards tree below) :
    below.length ≤ tree.depth := by
  cases h with
  | root => exact Nat.zero_le _
  | @enter below listing name above lists isDir kept =>
      have hlist := Job.ok_of_attempt lists
      obtain ⟨location, hlocate⟩ := FileTree.exists_locate_of_list hlist
      have hdir := (FileTree.mem_dirs_iff hwell hlocate hlist).mp isDir
      have hdepth := FileTree.length_le_depth (FileTree.mem_locations_of_get? (by simp) hdir)
      have hlength := above.length_le_of_locate hwell hnames hlocate
      simp only [List.length_append, List.length_singleton] at hdepth ⊢
      omega

theorem mem_noticesFrom_iff (hnames : tree.ProperNames) {depth : Nat} {front : List String}
    (hfront : w.Reaches hazards tree front) (hdepth : tree.depth < depth + front.length)
    {fault : SystemFault} :
    .failed below fault ∈ w.noticesFrom hazards tree depth front ↔
      front <+: below ∧ w.Reaches hazards tree below ∧
        Job.attempt hazards .list (w.dirAt below) (tree.list (w.dirAt below)) = .error fault := by
  induction depth generalizing front with
  | zero =>
      have hlength := hfront.length_le_depth hwell hnames
      omega
  | succ depth ih =>
      rw [noticesFrom]
      cases hattempt : Job.attempt hazards .list (w.dirAt front) (tree.list (w.dirAt front)) with
      | error fault' =>
          rw [List.mem_singleton, Notice.failed.injEq]
          constructor
          · rintro ⟨rfl, rfl⟩
            exact ⟨List.prefix_refl _, hfront, hattempt⟩
          · intro ⟨hbelow, hreaches, hfailed⟩
            rcases eq_or_exists_snoc_of_prefix hbelow with rfl | ⟨name, hname⟩
            · rw [hattempt] at hfailed
              exact ⟨rfl, (Except.error.inj hfailed).symm⟩
            · obtain ⟨listing, hlisting, -⟩ := hreaches.exists_listing hname
              rw [hattempt] at hlisting
              cases hlisting
      | ok listing =>
          have hlength (dir : String) : tree.depth < depth + (front ++ [dir]).length := by
            rw [List.length_append, List.length_singleton]
            omega
          have henter {dir : String × Bool} (hdir : dir ∈ w.entered front listing.dirs) :
              w.Reaches hazards tree (front ++ [dir.1]) := by
            obtain ⟨-, hisDir, hkept⟩ := mem_entered_iff_kept.mp hdir
            exact hfront.enter hattempt hisDir hkept
          simp only [List.mem_append, List.mem_flatMap]
          constructor
          · rintro (hignored | ⟨dir, hdir, hbelow⟩)
            · exact absurd hignored failed_not_mem_ignoredIn
            · obtain ⟨hinside, hrest⟩ := (ih (henter hdir) (hlength dir.1)).mp hbelow
              exact ⟨(List.prefix_append front [dir.1]).trans hinside, hrest⟩
          · intro ⟨hbelow, hreaches, hfailed⟩
            rcases eq_or_exists_snoc_of_prefix hbelow with rfl | ⟨name, hname⟩
            · rw [hattempt] at hfailed
              cases hfailed
            · obtain ⟨found, hfound, hentered⟩ := hreaches.exists_listing hname
              rw [hattempt] at hfound
              cases hfound
              exact .inr ⟨(name, false), hentered,
                (ih (henter hentered) (hlength name)).mpr ⟨hname, hreaches, hfailed⟩⟩

end

/-- A directory that cannot be listed takes away the files below it, and no others. Every such
directory that the walk comes to leaves one record in the log; all other records are about what is
ignored. -/
theorem failures_cut_off_subtrees (w : Walker) (hwell : tree.WellFormed) (hnames : tree.ProperNames)
    (hroot : w.root.isNullFree)
    (hsystem : ∀ hazard ∈ hazards, hazard.access = .list → hazard.hindrance.isSystem) :
    ∃ (files : List (List String)) (notices : List Notice),
      Job.Returns [] w.files tree (files.map w.dirAt) tree ∧
      Job.Logs hazards w.files tree
        ((files.filter fun file => w.OpenWay hazards [] file).map w.dirAt)
        (notices.map w.record) ∧
      (notices.filterMap Notice.failedDir?).Nodup ∧
      ∀ below fault, .failed below fault ∈ notices ↔ w.Reaches hazards tree below ∧
        Job.attempt hazards .list (w.dirAt below) (tree.list (w.dirAt below)) = .error fault := by
  have hpass (path : Path) : Job.Passable hazards .list path := by
    intro hindrance hmet
    exact hsystem _ (Job.exists_mem_of_met? hmet) rfl
  refine ⟨w.namesFrom [] tree (tree.depth + 1) [], w.noticesFrom hazards tree (tree.depth + 1) [],
    ?_, ?_, nodup_failedDirs hwell _ _, ?_⟩
  · rw [← paths_eq_map_of_perm hwell (.refl _)]
    exact returns_files nofun hwell hroot
  · have hfiles := logs_files hpass hwell hroot
    rw [paths_eq_map_of_perm hwell (.refl _), namesFrom_eq_filter hpass] at hfiles
    exact hfiles
  · intro below fault
    rw [mem_noticesFrom_iff hwell hnames .root (Nat.lt_succ_self _)]
    exact and_iff_right List.nil_prefix

theorem failures_cut_off_subtrees_three :
    let w : Walker := ⟨⟨.root, []⟩, [], ["out"], false, false⟩
    let tree : FileTree :=
      ⟨[(["a"], .dir), (["a", "x.js"], .file []), (["b"], .dir), (["b", "c"], .dir),
        (["b", "c", "y.js"], .file []), (["b", "z.js"], .file []), (["out"], .dir)]⟩
    let hazards : List Hazard :=
      [⟨⟨.root, ["a"]⟩, .list, .system .permission true⟩,
        ⟨⟨.root, ["b", "c"]⟩, .list, .system .inputOutput true⟩,
        ⟨⟨.root, ["out"]⟩, .list, .system .permission true⟩]
    tree.WellFormed ∧ tree.ProperNames ∧ w.root.isNullFree ∧
      (∀ hazard ∈ hazards, hazard.access = .list → hazard.hindrance.isSystem) ∧
      ∃ (files : List (List String)) (notices : List Notice),
        Job.Returns [] w.files tree (files.map w.dirAt) tree ∧
        Job.Logs hazards w.files tree
          ((files.filter fun file => w.OpenWay hazards [] file).map w.dirAt)
          (notices.map w.record) ∧
        .failed ["a"] ⟨.permission, some "/a"⟩ ∈ notices ∧
        .failed ["b", "c"] ⟨.inputOutput, some "/b/c"⟩ ∈ notices ∧
        ∀ fault, .failed ["out"] fault ∉ notices := by
  intro w tree hazards
  have hwell : tree.WellFormed := by decide
  have hnames : tree.ProperNames := by decide
  have hroot : w.root.isNullFree := by decide
  have hsystem : ∀ hazard ∈ hazards, hazard.access = .list → hazard.hindrance.isSystem := by decide
  obtain ⟨files, notices, hfiles, hlogs, -, hfailed⟩ :=
    failures_cut_off_subtrees w hwell hnames hroot hsystem
  have htop : Job.attempt hazards .list (w.dirAt []) (tree.list (w.dirAt [])) =
      .ok ⟨[("a", false), ("b", false), ("out", false)], []⟩ := by cbv
  have hlower : Job.attempt hazards .list (w.dirAt ["b"]) (tree.list (w.dirAt ["b"])) =
      .ok ⟨[("c", false)], ["z.js"]⟩ := by cbv
  have hkept (below : List String) (name : String) (hname : name ≠ "out") :
      w.dirReason? below name = none := by
    simp [w, dirReason?, isIgnored, Ignore.isIgnored, hname]
  have ha : w.Reaches hazards tree ["a"] :=
    .enter .root htop (by simp) (hkept [] "a" (by decide))
  have hb : w.Reaches hazards tree ["b"] :=
    .enter .root htop (by simp) (hkept [] "b" (by decide))
  have hc : w.Reaches hazards tree ["b", "c"] :=
    .enter hb hlower (by simp) (hkept ["b"] "c" (by decide))
  refine ⟨hwell, hnames, hroot, hsystem, files, notices, hfiles, hlogs,
    (hfailed _ _).mpr ⟨ha, by cbv⟩, (hfailed _ _).mpr ⟨hc, by cbv⟩, ?_⟩
  intro fault hout
  have hlast : [] ++ ["out"] <+: ["out"] := List.prefix_refl _
  obtain ⟨listing, -, hentered⟩ := ((hfailed _ _).mp hout).1.exists_listing hlast
  obtain ⟨-, -, hreason⟩ := mem_entered_iff_kept.mp hentered
  simp [w, dirReason?, isIgnored, Ignore.isIgnored] at hreason

end CommentSweep.Walker
