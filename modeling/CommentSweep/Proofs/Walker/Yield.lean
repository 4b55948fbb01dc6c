import CommentSweep.Proofs.Disk.Listing
import CommentSweep.Proofs.Walker.OfRoot
import CommentSweep.Proofs.Walker.Visits
import Mathlib

/-!
Which files a walk yields, and in which order. Where every directory can be listed, a walk yields
exactly the files below directories that are neither links nor ignored nor excluded by name: in each
directory first its files and then what is below its subdirectories.
-/

namespace CommentSweep.Walker

open Disk

/-- The names lead to a directory that is entered: it and those above it, up to the root, are
directories and not links, are not ignored, and do not bear the name of an excluded one. -/
def Enters (w : Walker) (dirs : List String) (tree : FileTree) (location : Location)
    (below : List String) : Prop :=
  ∀ front name, front ++ [name] <+: below →
    tree.get? (location ++ front ++ [name]) = some .dir ∧
    w.isIgnored (relative front name) true = false ∧
    ∀ dir ∈ dirs, dir ≠ "" → name ≠ Ignore.dirName dir

/-- The name is that of a file to be yielded from the directory of the names `below`. What is
neither a directory nor a link to one counts as a file. -/
structure Yields (w : Walker) (dirs : List String) (tree : FileTree) (location : Location)
    (below : List String) (name : String) : Prop where
  enters : w.Enters dirs tree location below
  isFile : ∃ entry, tree.get? (location ++ below ++ [name]) = some entry ∧ entry ≠ .dir ∧
    (entry.isLink → tree.entry ((w.dirAt below).child name) ≠ .ok .dir)
  kept : w.isIgnored (relative below name) false = false

/-- The order of files by their names from the root on. In each directory files come first, and both
files and subdirectories are in the order of their names. -/
inductive Before : List String → List String → Prop
  | files {name name' : String} (h : name < name') : Before [name] [name']
  | file (name name' : String) {below : List String} (h : below ≠ []) :
      Before [name] (name' :: below)
  | dirs {name name' : String} (h : name < name') {below below' : List String} (hne : below ≠ [])
      (hne' : below' ≠ []) : Before (name :: below) (name' :: below')
  | inside (name : String) {names names' : List String} (h : Before names names') :
      Before (name :: names) (name :: names')

theorem Before.irrefl (names : List String) : ¬Before names names := by
  induction names with
  | nil => exact nofun
  | cons name names ih =>
      intro h
      cases h with
      | files h => exact lt_irrefl name h
      | file _ _ h => exact h rfl
      | dirs h => exact lt_irrefl name h
      | inside _ h => exact ih h

theorem Before.ne {names names' : List String} (h : Before names names') : names ≠ names' :=
  fun heq => Before.irrefl names' (heq ▸ h)

variable {w : Walker} {dirs : List String} {hazards : List Hazard} {tree : FileTree}
  {location : Location} {below : List String} {name : String}

theorem enters_nil : w.Enters dirs tree location [] := by
  intro front name hfront
  simp at hfront

theorem Enters.of_isPrefix {front : List String} (h : w.Enters dirs tree location below)
    (hfront : front <+: below) : w.Enters dirs tree location front :=
  fun before name hbefore => h before name (hbefore.trans hfront)

theorem enters_snoc_iff :
    w.Enters dirs tree location (below ++ [name]) ↔
      w.Enters dirs tree location below ∧
        tree.get? (location ++ below ++ [name]) = some .dir ∧
        w.isIgnored (relative below name) true = false ∧
        ∀ dir ∈ dirs, dir ≠ "" → name ≠ Ignore.dirName dir := by
  constructor
  · intro h
    exact ⟨h.of_isPrefix (List.prefix_append _ _), h below name (List.prefix_refl _)⟩
  · intro ⟨hbelow, hlast⟩ front last hfront
    rcases List.prefix_concat_iff.mp hfront with heq | hinside
    · obtain ⟨hfront, hname⟩ := List.append_inj' heq rfl
      rw [hfront, List.singleton_inj.mp hname]
      exact hlast
    · exact hbelow front last hinside

theorem Enters.descends (h : w.Enters dirs tree location below) : tree.Descends location below :=
  fun front name hfront => (h front name hfront).1

theorem Enters.length_le_depth (h : w.Enters dirs tree location below) :
    below.length ≤ tree.depth := by
  rcases List.eq_nil_or_concat below with rfl | ⟨front, name, rfl⟩
  · exact Nat.zero_le _
  · rw [List.concat_eq_append] at h ⊢
    have hdir := (h front name (List.prefix_refl _)).1
    have hlength := FileTree.length_le_depth (FileTree.mem_locations_of_get? (by simp) hdir)
    simp only [List.length_append] at hlength ⊢
    omega

/-- The root is a directory of the tree, and nothing keeps a walk from listing it and the
directories that it enters. -/
structure Walkable (w : Walker) (dirs : List String) (hazards : List Hazard) (tree : FileTree)
    (location : Location) : Prop where
  wellFormed : tree.WellFormed
  properNames : tree.ProperNames
  root : tree.locate w.root = .ok location
  clear : ∀ below, w.Enters dirs tree location below → Job.Clear hazards .list (w.dirAt below)
  lists : ∀ below, w.Enters dirs tree location below →
    ∃ listing, tree.list (w.dirAt below) = .ok listing

theorem dirReason?_eq_none_iff
    (hexcluded : w.excluded = (dirs.filter (· != "")).map Ignore.dirName) :
    w.dirReason? below name = none ↔ w.isIgnored (relative below name) true = false ∧
      ∀ dir ∈ dirs, dir ≠ "" → name ≠ Ignore.dirName dir := by
  have hname : w.excluded.contains name = false ↔
      ∀ dir ∈ dirs, dir ≠ "" → name ≠ Ignore.dirName dir := by
    rw [hexcluded, ← Bool.not_eq_true, List.contains_iff_mem, List.mem_map]
    simp only [List.mem_filter, bne_iff_ne, not_exists, not_and, and_imp]
    exact forall₃_congr fun dir _ _ => ne_comm
  rw [← hname, dirReason?]
  cases w.isIgnored (relative below name) true <;> cases w.excluded.contains name <;> simp

@[simp] theorem fileReason?_eq_none_iff :
    w.fileReason? below name = none ↔ w.isIgnored (relative below name) false = false := by
  rw [fileReason?]
  cases w.isIgnored (relative below name) false <;> simp

structure Rooted (w : Walker) (tree : FileTree) (location : Location) : Prop where
  wellFormed : tree.WellFormed
  properNames : tree.ProperNames
  root : tree.locate w.root = .ok location

namespace Rooted

variable {listing : FileTree.Listing} (h : w.Rooted tree location)
  (henters : w.Enters dirs tree location below)

include h henters

theorem locate_dirAt (hlist : tree.list (w.dirAt below) = .ok listing) :
    tree.locate (w.dirAt below) = .ok (location ++ below) := by
  obtain ⟨found, hlocate⟩ := FileTree.exists_locate_of_list hlist
  rw [hlocate, FileTree.locate_descends h.properNames h.root henters.descends hlocate]

theorem mem_kept_iff (hlist : tree.list (w.dirAt below) = .ok listing) :
    name ∈ listing.files.filter (fun name => (w.fileReason? below name).isNone) ↔
      w.Yields dirs tree location below name := by
  rw [List.mem_filter, Option.isNone_iff_eq_none, fileReason?_eq_none_iff,
    FileTree.mem_files_iff h.wellFormed (h.locate_dirAt henters hlist) hlist]
  exact ⟨fun hfile => ⟨henters, hfile.1, hfile.2⟩, fun hyields => ⟨hyields.isFile, hyields.kept⟩⟩

theorem mem_entered_iff (hexcluded : w.excluded = (dirs.filter (· != "")).map Ignore.dirName)
    (hlist : tree.list (w.dirAt below) = .ok listing) {dir : String × Bool} :
    dir ∈ w.entered below listing.dirs ↔
      dir.2 = false ∧ w.Enters dirs tree location (below ++ [dir.1]) := by
  obtain ⟨name, isLink⟩ := dir
  rw [entered, List.mem_filter, enters_snoc_iff]
  simp only [Bool.and_eq_true, Bool.not_eq_true', Option.isNone_iff_eq_none,
    dirReason?_eq_none_iff hexcluded]
  constructor
  · intro ⟨hmem, hkept, hlink⟩
    subst hlink
    have hdir := (FileTree.mem_dirs_iff h.wellFormed (h.locate_dirAt henters hlist) hlist).mp hmem
    exact ⟨rfl, henters, hdir, hkept⟩
  · intro ⟨hlink, _, hdir, hkept⟩
    subst hlink
    have hmem := (FileTree.mem_dirs_iff h.wellFormed (h.locate_dirAt henters hlist) hlist).mpr hdir
    exact ⟨hmem, hkept, rfl⟩

end Rooted

namespace Walkable

theorem rooted (h : w.Walkable dirs hazards tree location) : w.Rooted tree location :=
  ⟨h.wellFormed, h.properNames, h.root⟩

theorem exists_attempt (h : w.Walkable dirs hazards tree location)
    (henters : w.Enters dirs tree location below) : ∃ listing,
    Job.attempt hazards .list (w.dirAt below) (tree.list (w.dirAt below)) = .ok listing ∧
      tree.list (w.dirAt below) = .ok listing := by
  obtain ⟨listing, hlist⟩ := h.lists below henters
  have hclear := h.clear below henters
  exact ⟨listing, (Job.attempt_eq_ok_iff hclear.passable _ _).mpr ⟨hclear, hlist⟩, hlist⟩

end Walkable

def namesFrom (w : Walker) (hazards : List Hazard) (tree : FileTree) :
    (depth : Nat) → List String → List (List String)
  | 0, _ => []
  | depth + 1, below =>
      match Job.attempt hazards .list (w.dirAt below) (tree.list (w.dirAt below)) with
      | .error _ => []
      | .ok listing =>
          (listing.files.filter fun name => (w.fileReason? below name).isNone).map ([·]) ++
            (w.entered below listing.dirs).flatMap fun dir =>
              (w.namesFrom hazards tree depth (below ++ [dir.1])).map (dir.1 :: ·)

theorem pathsFrom_eq_map (depth : Nat) (below : List String) :
    w.pathsFrom hazards tree depth below =
      (w.namesFrom hazards tree depth below).map fun names => w.dirAt (below ++ names) := by
  induction depth generalizing below with
  | zero => rfl
  | succ depth ih =>
      rw [pathsFrom, namesFrom]
      cases Job.attempt hazards .list (w.dirAt below) (tree.list (w.dirAt below)) with
      | error fault => rfl
      | ok listing =>
          have hfile : (w.dirAt below).child = fun name => w.dirAt (below ++ [name]) :=
            funext fun name => (dirAt_snoc w below name).symm
          have hdir (dir : String) (names : List String) :
              w.dirAt (below ++ [dir] ++ names) = w.dirAt (below ++ dir :: names) := by
            rw [← List.append_cons]
          simp only [List.map_append, List.map_map, List.map_flatMap, visited, ih,
            Function.comp_def, hfile, hdir]

theorem ne_nil_of_mem_namesFrom {depth : Nat} {names : List String}
    (h : names ∈ w.namesFrom hazards tree depth below) : names ≠ [] := by
  cases depth with
  | zero => cases h
  | succ depth =>
      rw [namesFrom] at h
      split at h
      · cases h
      · simp only [List.mem_append, List.mem_map, List.mem_flatMap] at h
        rcases h with ⟨name, -, rfl⟩ | ⟨dir, -, rest, -, rfl⟩
        · exact List.cons_ne_nil _ _
        · exact List.cons_ne_nil _ _

section

variable (hexcluded : w.excluded = (dirs.filter (· != "")).map Ignore.dirName)
  (h : w.Walkable dirs hazards tree location)

include hexcluded h

theorem mem_namesFrom_iff {depth : Nat} (henters : w.Enters dirs tree location below)
    (hdepth : tree.depth < depth + below.length) {names : List String} :
    names ∈ w.namesFrom hazards tree depth below ↔
      ∃ front name, names = front ++ [name] ∧
        w.Yields dirs tree location (below ++ front) name := by
  induction depth generalizing below names with
  | zero =>
      have hlength := henters.length_le_depth
      omega
  | succ depth ih =>
      obtain ⟨listing, hattempt, hlist⟩ := h.exists_attempt henters
      have hlength (dir : String) : tree.depth < depth + (below ++ [dir]).length := by
        rw [List.length_append, List.length_singleton]
        omega
      simp only [namesFrom, hattempt, List.mem_append, List.mem_map, List.mem_flatMap,
        h.rooted.mem_kept_iff henters hlist, h.rooted.mem_entered_iff henters hexcluded hlist]
      constructor
      · rintro (⟨name, hyields, rfl⟩ | ⟨⟨dir, _⟩, ⟨-, hdir⟩, rest, hrest, rfl⟩)
        · exact ⟨[], name, rfl, by rwa [List.append_nil]⟩
        · obtain ⟨front, name, rfl, hyields⟩ := (ih hdir (hlength dir)).mp hrest
          exact ⟨dir :: front, name, rfl, by rwa [List.append_cons]⟩
      · rintro ⟨front, name, rfl, hyields⟩
        cases front with
        | nil =>
            rw [List.append_nil] at hyields
            exact .inl ⟨name, hyields, rfl⟩
        | cons dir front =>
            rw [List.append_cons] at hyields
            have hdir := hyields.enters.of_isPrefix (List.prefix_append _ _)
            have hrest := (ih hdir (hlength dir)).mpr ⟨front, name, rfl, hyields⟩
            exact .inr ⟨(dir, false), ⟨rfl, hdir⟩, front ++ [name], hrest, rfl⟩

theorem pairwise_namesFrom {depth : Nat} (henters : w.Enters dirs tree location below) :
    (w.namesFrom hazards tree depth below).Pairwise Before := by
  induction depth generalizing below with
  | zero => exact .nil
  | succ depth ih =>
      obtain ⟨listing, hattempt, hlist⟩ := h.exists_attempt henters
      have hlocate := h.rooted.locate_dirAt henters hlist
      simp only [namesFrom, hattempt, List.pairwise_append, List.pairwise_map,
        List.pairwise_flatMap]
      refine ⟨?_, ⟨?_, ?_⟩, ?_⟩
      · have hfiles := FileTree.pairwise_files h.wellFormed hlocate hlist
        exact (hfiles.filter _).imp .files
      · intro dir hdir
        have hbelow := ((h.rooted.mem_entered_iff henters hexcluded hlist).mp hdir).2
        exact (ih hbelow).imp (.inside dir.1)
      · have hdirs := FileTree.pairwise_dirs h.wellFormed hlocate hlist
        refine (hdirs.filter _).imp ?_
        intro dir dir' hlt names hnames names' hnames'
        obtain ⟨rest, hrest, rfl⟩ := List.mem_map.mp hnames
        obtain ⟨rest', hrest', rfl⟩ := List.mem_map.mp hnames'
        exact .dirs hlt (ne_nil_of_mem_namesFrom hrest) (ne_nil_of_mem_namesFrom hrest')
      · intro names hnames names' hnames'
        obtain ⟨name, -, rfl⟩ := List.mem_map.mp hnames
        obtain ⟨dir, -, hnames'⟩ := List.mem_flatMap.mp hnames'
        obtain ⟨rest, hrest, rfl⟩ := List.mem_map.mp hnames'
        exact .file name dir.1 (ne_nil_of_mem_namesFrom hrest)

theorem listable_enters {other : FileTree}
    (hother : ∀ path, other.list path = tree.list path) :
    w.Listable hazards other (w.Enters dirs tree location) where
  returns := by
    intro below henters later hshape
    obtain ⟨listing, hlist⟩ := h.lists below henters
    have hnull := Path.isNullFree_of_locate h.wellFormed (h.rooted.locate_dirAt henters hlist)
    exact returns_list_of_sameShape hshape (h.clear below henters).passable hnull
  enters := by
    intro below listing henters hattempt dir hdir
    rw [hother] at hattempt
    have hlist := ((Job.attempt_eq_ok_iff (h.clear below henters).passable _ _).mp hattempt).2
    exact ((h.rooted.mem_entered_iff henters hexcluded hlist).mp hdir).2

end

theorem linesFor?_of_perm {other : FileTree} (hwell : tree.WellFormed)
    (hperm : tree.entries.Perm other.entries) (root : Path) (exclusions : Exclusions) :
    linesFor? hazards other root exclusions = linesFor? hazards tree root exclusions := by
  simp only [linesFor?, ignoreLinesIn?, FileTree.read_of_perm hwell hperm]

theorem paths_eq_map_of_perm {other : FileTree} (hwell : tree.WellFormed)
    (hperm : tree.entries.Perm other.entries) :
    w.paths hazards other = (w.namesFrom hazards tree (tree.depth + 1) []).map w.dirAt := by
  have hnames (depth : Nat) (below : List String) :
      w.namesFrom hazards other depth below = w.namesFrom hazards tree depth below := by
    induction depth generalizing below with
    | zero => rfl
    | succ depth ih => simp only [namesFrom, FileTree.list_of_perm hwell hperm, ih]
  rw [paths, pathsFrom_eq_map, hnames, ← FileTree.depth_of_perm hperm]
  rfl

theorem dirAt_injective (w : Walker) : Function.Injective w.dirAt := by
  intro first second h
  have hparts : w.root.parts ++ first = w.root.parts ++ second := congrArg Path.parts h
  exact List.append_cancel_left hparts

/-- Where every directory can be listed, the walk of a directory yields exactly the files to be
yielded, each once and in their order, in whatever order the tree holds its entries. -/
theorem files_yield_exactly {root : Path} {exclusions : Exclusions} {rules : Ignore.Rules}
    {verbose : Bool} (happroach : Approachable hazards root exclusions)
    (hrules : Ignore.rulesOf (patterns hazards tree root exclusions) = .ok rules)
    (h : (ofRules hazards tree root exclusions rules verbose).Walkable exclusions.dirs hazards tree
      location) :
    let w := ofRules hazards tree root exclusions rules verbose
    ∃ names : List (List String),
      (∀ other : FileTree, tree.entries.Perm other.entries →
        Job.Returns hazards (ofRoot root exclusions verbose >>= files) other
          (names.map w.dirAt) other) ∧
      (names.map w.dirAt).Nodup ∧
      (∀ file, file ∈ names ↔ ∃ below name, file = below ++ [name] ∧
        w.Yields exclusions.dirs tree location below name) ∧
      names.Pairwise Before := by
  intro w
  have hexcluded : w.excluded = (exclusions.dirs.filter (· != "")).map Ignore.dirName := rfl
  have hordered : (w.namesFrom hazards tree (tree.depth + 1) []).Pairwise Before :=
    pairwise_namesFrom hexcluded h enters_nil
  refine ⟨w.namesFrom hazards tree (tree.depth + 1) [], ?_, ?_, ?_, ?_⟩
  · intro other hperm
    have hlines :
        linesFor? hazards other root exclusions = linesFor? hazards tree root exclusions :=
      linesFor?_of_perm h.wellFormed hperm root exclusions
    have hnull : root.isNullFree := Path.isNullFree_of_locate h.wellFormed h.root
    have hwalker : Job.Returns hazards (ofRoot root exclusions verbose) other w other := by
      have hother : Ignore.rulesOf (patterns hazards other root exclusions) = .ok rules := by
        rwa [patterns, hlines]
      have hof : ofRules hazards other root exclusions rules verbose = w := by
        rw [ofRules, hlines]
        rfl
      exact hof ▸ returns_ofRoot hnull happroach hother verbose
    have hlist (path : Path) : other.list path = tree.list path :=
      (FileTree.list_of_perm h.wellFormed hperm path).symm
    have hfiles := returns_files_of_listable (listable_enters hexcluded h hlist) enters_nil
    rw [paths_eq_map_of_perm h.wellFormed hperm] at hfiles
    exact hwalker.bind hfiles
  · exact List.Nodup.map w.dirAt_injective (hordered.imp Before.ne)
  · intro file
    exact mem_namesFrom_iff hexcluded h enters_nil (Nat.lt_succ_self tree.depth)
  · exact hordered

/-- A tree with a link back to its root, and with an ignore file that asks for an excluded
directory. -/
def looped : FileTree :=
  ⟨[([".gitignore"], .file [33, 111, 117, 116, 47]), (["b.js"], .file []), (["a"], .dir),
    (["a", "up"], .link ".."), (["a", "c.js"], .file []), (["out"], .dir),
    (["out", "d.js"], .file [])]⟩

def loopedExclusions : Exclusions where
  dirs := ["out"]

def loopedRules : Ignore.Rules :=
  [true, false].map fun ignores =>
    ⟨ignores, .sequence [.upperDirs, .char 'o', .char 'u', .char 't', .dirSlash]⟩

def loopedWalker : Walker :=
  ofRules [] looped ⟨.root, []⟩ loopedExclusions loopedRules false

theorem rulesOf_looped :
    Ignore.rulesOf (patterns [] looped ⟨.root, []⟩ loopedExclusions) = .ok loopedRules := by
  have hlines : patterns [] looped ⟨.root, []⟩ loopedExclusions = ["out/", "!out/"] := by cbv
  rw [hlines]
  decide +kernel

theorem eq_of_enters_looped {below : List String}
    (h : loopedWalker.Enters ["out"] looped [] below) : below = [] ∨ below = ["a"] := by
  have hdir {location : Location} (hget : looped.entries.lookup location = some .dir) :
      location = ["a"] ∨ location = ["out"] := by
    obtain ⟨front, back, hsplit, -⟩ := List.lookup_eq_some_iff.mp hget
    have hmem : (location, Entry.dir) ∈ looped.entries := by simp [hsplit]
    simpa [looped] using hmem
  match below, h with
  | [], _ => exact .inl rfl
  | [name], h =>
      obtain ⟨hget, -, hname⟩ := h [] name (List.prefix_refl _)
      rcases hdir hget with heq | heq
      · exact .inr heq
      · exact absurd (List.singleton_inj.mp heq) (hname "out" (by simp) (by decide))
  | name :: last :: rest, h =>
      obtain ⟨hget, -⟩ := h [name] last (by simp)
      rcases hdir hget with heq | heq <;> simp at heq

theorem walkable_looped : loopedWalker.Walkable ["out"] [] looped [] where
  wellFormed := by decide
  properNames := by decide
  root := by cbv
  clear := fun _ _ => nofun
  lists := by
    intro below henters
    rcases eq_of_enters_looped henters with rfl | rfl
    · exact ⟨⟨[("a", false), ("out", false)], [".gitignore", "b.js"]⟩, by cbv⟩
    · exact ⟨⟨[("up", true)], ["c.js"]⟩, by cbv⟩

theorem enters_looped : loopedWalker.Enters ["out"] looped [] ["a"] := by
  refine enters_snoc_iff.mpr ⟨enters_nil, rfl, ?_, ?_⟩
  · decide +kernel
  · simp only [List.forall_mem_singleton]
    decide +kernel

theorem files_yield_exactly_looped :
    ∃ names : List (List String),
      Job.Returns [] (ofRoot ⟨.root, []⟩ loopedExclusions false >>= files) looped
        (names.map loopedWalker.dirAt) looped ∧
      names.Pairwise Before ∧ ["a", "c.js"] ∈ names ∧ ["out", "d.js"] ∉ names := by
  obtain ⟨names, hreturns, -, hmem, hordered⟩ :=
    files_yield_exactly (approachable_of_mild (by decide)) rulesOf_looped walkable_looped
  refine ⟨names, hreturns looped (.refl _), hordered, ?_, ?_⟩
  · have hkept : loopedWalker.isIgnored (relative ["a"] "c.js") false = false := by
      decide +kernel
    exact (hmem _).mpr ⟨["a"], "c.js", rfl, enters_looped, ⟨.file [], rfl, by simp, nofun⟩, hkept⟩
  · intro hout
    obtain ⟨below, name, heq, hyields⟩ := (hmem _).mp hout
    have hsplit : ["out"] ++ ["d.js"] = below ++ [name] := heq
    obtain ⟨rfl, -⟩ := List.append_inj' hsplit rfl
    have hcases := eq_of_enters_looped hyields.enters
    simp at hcases

end CommentSweep.Walker
