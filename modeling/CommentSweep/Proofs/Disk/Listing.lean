import CommentSweep.Proofs.Disk.Skeleton
import Mathlib

/-!
What a directory lists. A directory that is reached from another one through directories alone, and
not through links, lies at the location that the names spell, and it lists the entries directly
below that location, each once and in the order of the names.
-/

namespace CommentSweep.Disk.FileTree

variable {tree : FileTree} {location : Location}

/-- No name is one of those that stand for no entry of their own. -/
def ProperNames (tree : FileTree) : Prop :=
  ∀ location ∈ tree.entries.map (·.1), ∀ name ∈ location, name ∉ ["", ".", ".."]

instance (tree : FileTree) : Decidable tree.ProperNames :=
  inferInstanceAs (Decidable (∀ location ∈ tree.entries.map (·.1), ∀ name ∈ location,
    name ∉ ["", ".", ".."]))

theorem ProperNames.of_get? (h : tree.ProperNames) {name : String} {entry : Entry}
    (hget : tree.get? (location ++ [name]) = some entry) : name ∉ ["", ".", ".."] :=
  h _ (mem_locations_of_get? (by simp) hget) name (by simp)

theorem length_le_depth (h : location ∈ tree.entries.map (·.1)) :
    location.length ≤ tree.depth := by
  have hmax (entries : List (Location × Entry)) (start : Nat) :
      start ≤ entries.foldl (fun n entry => max n entry.1.length) start ∧
        ∀ entry ∈ entries,
          entry.1.length ≤ entries.foldl (fun n entry => max n entry.1.length) start := by
    induction entries generalizing start with
    | nil => simp
    | cons entry entries ih =>
        obtain ⟨hstart, hrest⟩ := ih (max start entry.1.length)
        rw [List.foldl_cons, List.forall_mem_cons]
        exact ⟨(le_max_left _ _).trans hstart, (le_max_right _ _).trans hstart, hrest⟩
  obtain ⟨entry, hentry, rfl⟩ := List.mem_map.mp h
  exact (hmax tree.entries 0).2 entry hentry

theorem follow_append {budget : Nat} {here middle : Location} {todo : List String}
    (h : tree.follow budget here todo = .ok middle) :
    ∃ budget', ∀ more, tree.follow budget here (todo ++ more) =
      tree.follow budget' middle more := by
  fun_induction follow tree budget here todo with
  | case1 budget here =>
      cases h
      exact ⟨budget, fun more => rfl⟩
  | case2 => cases h
  | case3 budget here name rest hdir hdot ih =>
      obtain ⟨budget', hmore⟩ := ih h
      refine ⟨budget', fun more => ?_⟩
      rw [List.cons_append, follow, if_neg hdir, if_pos hdot, hmore]
  | case4 budget here name rest hdir hdot hup ih =>
      obtain ⟨budget', hmore⟩ := ih h
      refine ⟨budget', fun more => ?_⟩
      rw [List.cons_append, follow, if_neg hdir, if_neg hdot, if_pos hup, hmore]
  | case5 => cases h
  | case6 => cases h
  | case7 => cases h
  | case8 here name rest hdir hdot hup hlong target hlink budget ih =>
      obtain ⟨budget', hmore⟩ := ih h
      refine ⟨budget', fun more => ?_⟩
      rw [List.cons_append, follow, if_neg hdir, if_neg hdot, if_neg hup, if_neg hlong, hlink,
        ← hmore, List.append_assoc]
  | case9 budget here name rest hdir hdot hup hlong entry hentry hsome ih =>
      obtain ⟨budget', hmore⟩ := ih h
      refine ⟨budget', fun more => ?_⟩
      rw [List.cons_append, follow, if_neg hdir, if_neg hdot, if_neg hup, if_neg hlong, hsome,
        ← hmore]
      cases entry with
      | file bytes => rfl
      | dir => rfl
      | link target => exact absurd rfl (hentry target)

/-- The names lead from the location through directories, none of them a link. -/
def Descends (tree : FileTree) (location : Location) (below : List String) : Prop :=
  ∀ front name, front ++ [name] <+: below → tree.get? (location ++ front ++ [name]) = some .dir

theorem Descends.of_cons {name : String} {below : List String}
    (h : tree.Descends location (name :: below)) :
    tree.get? (location ++ [name]) = some .dir ∧ tree.Descends (location ++ [name]) below := by
  constructor
  · simpa using h [] name (by simp)
  · intro front last hfront
    simpa using h (name :: front) last (by simpa using hfront)

theorem follow_cons_of_get? (hnames : tree.ProperNames) {budget : Nat} {name : String}
    {rest : List String} {entry : Entry} {found : Location}
    (hget : tree.get? (location ++ [name]) = some entry) (hentry : entry.isLink = false)
    (h : tree.follow budget location (name :: rest) = .ok found) :
    tree.follow budget (location ++ [name]) rest = .ok found := by
  have hname := hnames.of_get? hget
  simp only [List.mem_cons, List.not_mem_nil, or_false, not_or] at hname
  have hplain : ¬(name == "" || name == ".") = true := by simp [hname.1, hname.2.1]
  have hup : ¬(name == "..") = true := by simp [hname.2.2]
  rw [follow, if_neg hplain, if_neg hup, hget] at h
  split at h
  · cases h
  · split at h
    · cases h
    · cases entry with
      | file bytes => exact h
      | dir => exact h
      | link target => cases hentry

theorem follow_descends (hnames : tree.ProperNames) {budget : Nat} {found : Location}
    {below : List String} (hdescends : tree.Descends location below)
    (h : tree.follow budget location below = .ok found) : found = location ++ below := by
  induction below generalizing location with
  | nil =>
      rw [follow, Except.ok.injEq] at h
      rw [← h, List.append_nil]
  | cons name below ih =>
      obtain ⟨hdir, hbelow⟩ := hdescends.of_cons
      rw [ih hbelow (follow_cons_of_get? hnames hdir rfl h), List.append_assoc,
        List.singleton_append]

theorem follow_of_locate {path : Path} {more : List String} {found : Location}
    (hpath : tree.locate path = .ok location)
    (h : tree.locate { path with parts := path.parts ++ more } = .ok found) :
    ∃ budget, tree.follow budget location more = .ok found := by
  rw [locate] at hpath h
  split at hpath
  · cases hpath
  · split at h
    · cases h
    · obtain ⟨budget, hmore⟩ := follow_append hpath
      exact ⟨budget, (hmore more).symm.trans h⟩

theorem locate_descends (hnames : tree.ProperNames) {root : Path} {below : List String}
    {found : Location} (hroot : tree.locate root = .ok location)
    (hdescends : tree.Descends location below)
    (h : tree.locate { root with parts := root.parts ++ below } = .ok found) :
    found = location ++ below := by
  obtain ⟨budget, hfollow⟩ := follow_of_locate hroot h
  exact follow_descends hnames hdescends hfollow

theorem locate_child (hnames : tree.ProperNames) {path : Path} {name : String} {entry : Entry}
    {found : Location} (hpath : tree.locate path = .ok location)
    (hget : tree.get? (location ++ [name]) = some entry) (hentry : entry.isLink = false)
    (h : tree.locate (path.child name) = .ok found) : found = location ++ [name] := by
  obtain ⟨budget, hfollow⟩ := follow_of_locate hpath h
  have hlast := follow_cons_of_get? hnames hget hentry hfollow
  rw [follow, Except.ok.injEq] at hlast
  exact hlast.symm

@[simp] theorem nameIn?_eq_some_iff {below : Location} {name : String} :
    nameIn? location below = some name ↔ below = location ++ [name] := by
  rw [nameIn?]
  rcases List.eq_nil_or_concat below with rfl | ⟨front, last, rfl⟩
  · simp
  · simp only [List.concat_eq_append, List.getLast?_concat, List.dropLast_concat]
    constructor
    · intro h
      split at h
      · next hfront => cases h; rw [beq_iff_eq.mp hfront]
      · cases h
    · intro h
      obtain ⟨rfl, hlast⟩ := List.append_inj' h rfl
      cases hlast
      simp

theorem mem_entriesIn_iff (hwell : tree.WellFormed) {name : String} {entry : Entry} :
    (name, entry) ∈ tree.entriesIn location ↔ tree.get? (location ++ [name]) = some entry := by
  rw [entriesIn, List.mem_mergeSort, List.mem_filterMap, get?_of_ne_nil _ (by simp)]
  constructor
  · rintro ⟨⟨below, found⟩, hmem, hname⟩
    obtain ⟨last, hin, heq⟩ := Option.map_eq_some_iff.mp hname
    cases heq
    have hlookup := lookup_of_mem hwell.distinct hmem
    rwa [nameIn?_eq_some_iff.mp hin] at hlookup
  · intro hlookup
    obtain ⟨front, back, hsplit, -⟩ := List.lookup_eq_some_iff.mp hlookup
    refine ⟨(location ++ [name], entry), by simp [hsplit], ?_⟩
    change (nameIn? location (location ++ [name])).map (fun name => (name, entry)) = _
    rw [nameIn?_eq_some_iff.mpr rfl, Option.map_some]

theorem nodup_entriesIn (hwell : tree.WellFormed) (location : Location) :
    ((tree.entriesIn location).map (·.1)).Nodup := by
  have hnames : (tree.entries.filterMap fun entry =>
      (nameIn? location entry.1).map fun name => (name, entry.2)).map (·.1) =
        (tree.entries.map (·.1)).filterMap (nameIn? location) := by
    rw [List.map_filterMap, List.filterMap_map]
    congr 1
    funext entry
    simp only [Option.map_map, Function.comp_def, Option.map_id']
  refine ((List.mergeSort_perm _ _).map _).nodup_iff.mpr ?_
  refine Eq.subst hnames.symm (hwell.distinct.filterMap ?_)
  intro first second name hfirst hsecond
  rw [nameIn?_eq_some_iff.mp hfirst, nameIn?_eq_some_iff.mp hsecond]

theorem pairwise_entriesIn (hwell : tree.WellFormed) (location : Location) :
    (tree.entriesIn location).Pairwise fun a b => a.1 < b.1 := by
  have hsorted : (tree.entriesIn location).Pairwise fun a b => decide (a.1 ≤ b.1) = true := by
    apply List.pairwise_mergeSort
    · intro a b c hab hbc
      rw [decide_eq_true_eq] at hab hbc ⊢
      exact le_trans hab hbc
    · intro a b
      simpa using le_total a.1 b.1
  have hdistinct := List.pairwise_map.mp (nodup_entriesIn hwell location)
  refine (hsorted.and hdistinct).imp fun hab => ?_
  exact lt_of_le_of_ne (of_decide_eq_true hab.1) hab.2

theorem list_eq_ok_iff {path : Path} {listing : Listing}
    (hlocate : tree.locate path = .ok location) :
    tree.list path = .ok listing ↔ tree.get? location = some .dir ∧
      listing = ⟨((tree.entriesIn location).filter
          fun entry => tree.isDirIn path entry.1 entry.2).map
            fun entry => (entry.1, entry.2.isLink),
        ((tree.entriesIn location).filter
          fun entry => !tree.isDirIn path entry.1 entry.2).map (·.1)⟩ := by
  rw [list_eq, hlocate, Except.bind]
  by_cases hdir : tree.get? location = some .dir
  · simp [hdir, Function.comp_def, eq_comm]
  · simp [hdir]

theorem exists_locate_of_list {path : Path} {listing : Listing}
    (h : tree.list path = .ok listing) :
    ∃ location, tree.locate path = .ok location := by
  rw [list_eq] at h
  cases hlocate : tree.locate path with
  | error errno => rw [hlocate] at h; cases h
  | ok location => exact ⟨location, rfl⟩

theorem isDirIn_eq_false_iff {path : Path} {name : String} {entry : Entry} :
    tree.isDirIn path name entry = false ↔
      entry ≠ .dir ∧ (entry.isLink → tree.entry (path.child name) ≠ .ok .dir) := by
  cases entry with
  | file bytes => simp [isDirIn, Entry.isLink]
  | dir => simp [isDirIn]
  | link target =>
      cases hentry : tree.entry (path.child name) with
      | error errno => simp [isDirIn, Entry.isLink, hentry, Except.toOption]
      | ok entry => simp [isDirIn, Entry.isLink, hentry, Except.toOption]

section

variable {path : Path} {listing : Listing} (hwell : tree.WellFormed)
  (hlocate : tree.locate path = .ok location) (h : tree.list path = .ok listing)

include hwell hlocate h

theorem mem_dirs_iff {name : String} :
    (name, false) ∈ listing.dirs ↔ tree.get? (location ++ [name]) = some .dir := by
  obtain ⟨-, rfl⟩ := (list_eq_ok_iff hlocate).mp h
  rw [List.mem_map, ← mem_entriesIn_iff hwell]
  constructor
  · rintro ⟨⟨name, entry⟩, hmem, heq⟩
    obtain ⟨hentry, hdir⟩ := List.mem_filter.mp hmem
    cases entry with
    | file bytes => cases hdir
    | dir =>
        cases heq
        exact hentry
    | link target => cases heq
  · intro hentry
    exact ⟨(name, .dir), List.mem_filter.mpr ⟨hentry, rfl⟩, rfl⟩

theorem mem_files_iff {name : String} :
    name ∈ listing.files ↔ ∃ entry, tree.get? (location ++ [name]) = some entry ∧ entry ≠ .dir ∧
      (entry.isLink → tree.entry (path.child name) ≠ .ok .dir) := by
  obtain ⟨-, rfl⟩ := (list_eq_ok_iff hlocate).mp h
  simp only [List.mem_map, List.mem_filter, Prod.exists, exists_and_right, exists_eq_right,
    mem_entriesIn_iff hwell, Bool.not_eq_true', isDirIn_eq_false_iff]

theorem pairwise_dirs : listing.dirs.Pairwise fun a b => a.1 < b.1 := by
  obtain ⟨-, rfl⟩ := (list_eq_ok_iff hlocate).mp h
  exact List.pairwise_map.mpr ((pairwise_entriesIn hwell location).filter _)

theorem pairwise_files : listing.files.Pairwise (· < ·) := by
  obtain ⟨-, rfl⟩ := (list_eq_ok_iff hlocate).mp h
  exact List.pairwise_map.mpr ((pairwise_entriesIn hwell location).filter _)

end

section

variable {other : FileTree} (hwell : tree.WellFormed) (h : tree.entries.Perm other.entries)

include hwell h

theorem wellFormed_of_perm : other.WellFormed where
  distinct := (h.map _).nodup_iff.mp hwell.distinct
  nullFree := fun location hlocation =>
    hwell.nullFree location ((h.map _).mem_iff.mpr hlocation)

theorem get?_of_perm (location : Location) : tree.get? location = other.get? location := by
  have hsub {tree other : FileTree} (hwell : other.WellFormed)
      (h : tree.entries.Perm other.entries) {entry : Entry}
      (hlookup : tree.entries.lookup location = some entry) :
      other.entries.lookup location = some entry := by
    obtain ⟨front, back, hsplit, -⟩ := List.lookup_eq_some_iff.mp hlookup
    have hmem : (location, entry) ∈ other.entries := by
      rw [← h.mem_iff, hsplit]
      simp
    exact lookup_of_mem hwell.distinct hmem
  cases location with
  | nil => rfl
  | cons name rest =>
      apply Option.ext
      intro entry
      exact ⟨hsub (wellFormed_of_perm hwell h) h, hsub hwell h.symm⟩

theorem locate_of_perm (path : Path) : tree.locate path = other.locate path := by
  have hfollow := follow_congr fun location =>
    congrArg (Option.map Entry.hollow) (get?_of_perm hwell h location)
  rw [locate, locate, hfollow]

theorem entry_of_perm (path : Path) : tree.entry path = other.entry path := by
  rw [entry, entry, locate_of_perm hwell h]
  simp only [get?_of_perm hwell h]

theorem read_of_perm (path : Path) : tree.read path = other.read path :=
  read_congr (locate_of_perm hwell h path) fun location _ => get?_of_perm hwell h location

theorem entriesIn_of_perm (location : Location) :
    tree.entriesIn location = other.entriesIn location := by
  have hperm : (tree.entriesIn location).Perm (other.entriesIn location) :=
    (List.mergeSort_perm _ _).trans ((h.filterMap _).trans (List.mergeSort_perm _ _).symm)
  have hsorted := pairwise_entriesIn hwell location
  have hsorted' := pairwise_entriesIn (wellFormed_of_perm hwell h) location
  apply hperm.eq_of_pairwise ?_ hsorted hsorted'
  intro a b _ _ hab hba
  exact absurd hab (lt_asymm hba)

theorem list_of_perm (path : Path) : tree.list path = other.list path := by
  have hisDirIn (name : String) (entry : Entry) :
      tree.isDirIn path name entry = other.isDirIn path name entry := by
    cases entry with
    | file bytes => rfl
    | dir => rfl
    | link target => rw [isDirIn, isDirIn, entry_of_perm hwell h]
  rw [list_eq, list_eq, locate_of_perm hwell h]
  simp only [get?_of_perm hwell h, entriesIn_of_perm hwell h, hisDirIn]

omit hwell in
theorem depth_of_perm : tree.depth = other.depth := by
  rw [depth, depth]
  refine h.foldl_eq' ?_ 0
  intro a _ b _ n
  rw [max_assoc, max_assoc, max_comm a.1.length]

end

end CommentSweep.Disk.FileTree
