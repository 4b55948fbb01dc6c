import CommentSweep.Disk

/-!
Trees up to the bytes of their files. Where a path leads to and what a directory lists do not depend
on the bytes, so a write to a file that is there changes neither.
-/

namespace CommentSweep.Disk

def Entry.hollow : Entry → Entry
  | .file _ => .file []
  | .dir => .dir
  | .link target => .link target

@[simp] theorem Entry.isLink_hollow (entry : Entry) : entry.hollow.isLink = entry.isLink := by
  cases entry <;> rfl

namespace FileTree

def skeleton (tree : FileTree) : FileTree :=
  ⟨tree.entries.map fun entry => (entry.1, entry.2.hollow)⟩

@[simp] theorem lookup_map_hollow (entries : List (Location × Entry)) (location : Location) :
    (entries.map fun entry => (entry.1, entry.2.hollow)).lookup location =
      (entries.lookup location).map Entry.hollow := by
  induction entries with
  | nil => rfl
  | cons entry entries ih =>
      rw [List.map_cons, List.lookup_cons, List.lookup_cons, ih]
      cases location == entry.1 <;> rfl

@[simp] theorem get?_skeleton (tree : FileTree) (location : Location) :
    tree.skeleton.get? location = (tree.get? location).map Entry.hollow := by
  cases location with
  | nil => rfl
  | cons name rest => exact lookup_map_hollow tree.entries (name :: rest)

theorem get?_eq_link_of_hollow {found found' : Option Entry} {target : String}
    (h : found.map Entry.hollow = found'.map Entry.hollow) (hlink : found' = some (.link target)) :
    found = some (.link target) := by
  rw [hlink, Option.map_some, Option.map_eq_some_iff] at h
  obtain ⟨entry, rfl, hhollow⟩ := h
  cases entry with
  | file bytes => cases hhollow
  | dir => cases hhollow
  | link target => cases hhollow; rfl

theorem bne_dir_of_hollow {found found' : Option Entry}
    (h : found.map Entry.hollow = found'.map Entry.hollow) :
    (found != some .dir) = (found' != some .dir) := by
  have hhollow (found : Option Entry) :
      (found != some .dir) = (found.map Entry.hollow != some .dir) := by
    cases found with
    | none => rfl
    | some entry => cases entry <;> rfl
  rw [hhollow, hhollow found', h]

theorem follow_congr {tree other : FileTree}
    (h : ∀ location, (tree.get? location).map Entry.hollow = (other.get? location).map Entry.hollow)
    (budget : Nat) (here : Location) (todo : List String) :
    tree.follow budget here todo = other.follow budget here todo := by
  fun_induction follow other budget here todo with
  | case1 => rw [follow]
  | case2 budget here name rest hdir => rw [follow, bne_dir_of_hollow (h here), if_pos hdir]
  | case3 budget here name rest hdir hdot ih =>
      rw [follow, bne_dir_of_hollow (h here), if_neg hdir, if_pos hdot, ih]
  | case4 budget here name rest hdir hdot hup ih =>
      rw [follow, bne_dir_of_hollow (h here), if_neg hdir, if_neg hdot, if_pos hup, ih]
  | case5 budget here name rest hdir hdot hup hlong =>
      rw [follow, bne_dir_of_hollow (h here), if_neg hdir, if_neg hdot, if_neg hup, if_pos hlong]
  | case6 budget here name rest hdir hdot hup hlong hnone =>
      have hother := h (here ++ [name])
      rw [hnone, Option.map_none, Option.map_eq_none_iff] at hother
      rw [follow, bne_dir_of_hollow (h here), if_neg hdir, if_neg hdot, if_neg hup, if_neg hlong,
        hother]
  | case7 here name rest hdir hdot hup hlong target hlink =>
      rw [follow, bne_dir_of_hollow (h here), if_neg hdir, if_neg hdot, if_neg hup, if_neg hlong,
        get?_eq_link_of_hollow (h _) hlink]
  | case8 here name rest hdir hdot hup hlong target hlink budget ih =>
      rw [follow, bne_dir_of_hollow (h here), if_neg hdir, if_neg hdot, if_neg hup, if_neg hlong,
        get?_eq_link_of_hollow (h _) hlink]
      exact ih
  | case9 budget here name rest hdir hdot hup hlong entry hentry hsome ih =>
      have hother := h (here ++ [name])
      rw [hsome, Option.map_some, Option.map_eq_some_iff] at hother
      obtain ⟨found, hfound, hhollow⟩ := hother
      rw [follow, bne_dir_of_hollow (h here), if_neg hdir, if_neg hdot, if_neg hup, if_neg hlong,
        hfound]
      cases found with
      | file bytes => exact ih
      | dir => exact ih
      | link target =>
          cases entry with
          | file bytes => cases hhollow
          | dir => cases hhollow
          | link target => exact absurd rfl (hentry target)

theorem map_hollow_get?_skeleton (tree : FileTree) (location : Location) :
    (tree.skeleton.get? location).map Entry.hollow = (tree.get? location).map Entry.hollow := by
  rw [get?_skeleton]
  cases tree.get? location with
  | none => rfl
  | some entry => cases entry <;> rfl

theorem follow_skeleton (tree : FileTree) (budget : Nat) (here : Location) (todo : List String) :
    tree.skeleton.follow budget here todo = tree.follow budget here todo :=
  follow_congr (map_hollow_get?_skeleton tree) budget here todo

@[simp] theorem locate_skeleton (tree : FileTree) (path : Path) :
    tree.skeleton.locate path = tree.locate path := by
  rw [locate, locate, follow_skeleton]

@[simp] theorem entry_skeleton (tree : FileTree) (path : Path) :
    tree.skeleton.entry path = (tree.entry path).map Entry.hollow := by
  rw [entry, entry, locate_skeleton]
  cases tree.locate path with
  | error errno => rfl
  | ok location =>
      simp only [bind, Except.bind, get?_skeleton]
      cases tree.get? location <;> rfl

@[simp] theorem isDirIn_skeleton (tree : FileTree) (path : Path) (name : String) (entry : Entry) :
    tree.skeleton.isDirIn path name entry.hollow = tree.isDirIn path name entry := by
  cases entry with
  | file bytes => rfl
  | dir => rfl
  | link target =>
      simp only [Entry.hollow, isDirIn, entry_skeleton]
      cases tree.entry (path.child name) with
      | error errno => rfl
      | ok found => cases found <;> rfl

def entriesIn (tree : FileTree) (location : Location) : List (String × Entry) :=
  (tree.entries.filterMap fun (below, entry) =>
    (nameIn? location below).map fun name => (name, entry)).mergeSort fun a b => decide (a.1 ≤ b.1)

@[simp] theorem entriesIn_skeleton (tree : FileTree) (location : Location) :
    tree.skeleton.entriesIn location =
      (tree.entriesIn location).map fun entry => (entry.1, entry.2.hollow) := by
  -- Sorting compares names only, so it commutes with emptying the files.
  have hsort (entries : List (String × Entry)) :
      (entries.mergeSort fun a b => decide (a.1 ≤ b.1)).map
          (fun entry => (entry.1, entry.2.hollow)) =
        (entries.map fun entry => (entry.1, entry.2.hollow)).mergeSort
          fun a b => decide (a.1 ≤ b.1) :=
    List.map_mergeSort fun _ _ _ _ => rfl
  rw [entriesIn, entriesIn, hsort, skeleton, List.filterMap_map, List.map_filterMap]
  congr 2
  funext entry
  simp only [Function.comp_apply]
  cases nameIn? location entry.1 <;> rfl

theorem list_eq (tree : FileTree) (path : Path) :
    tree.list path =
      (tree.locate path).bind fun location =>
        if tree.get? location != some .dir then .error .notDir
        else
          let isDir := fun entry : String × Entry => tree.isDirIn path entry.1 entry.2
          .ok ⟨((tree.entriesIn location).filter isDir).map fun entry => (entry.1, entry.2.isLink),
            ((tree.entriesIn location).filter (not ∘ isDir)).map (·.1)⟩ := by
  rw [list]
  cases tree.locate path with
  | error errno => rfl
  | ok location =>
      simp only [bind, Except.bind, List.partition_eq_filter_filter]
      cases tree.get? location != some .dir <;> rfl

@[simp] theorem list_skeleton (tree : FileTree) (path : Path) :
    tree.skeleton.list path = tree.list path := by
  rw [list_eq, list_eq, locate_skeleton]
  congr 1
  funext location
  rw [bne_dir_of_hollow (map_hollow_get?_skeleton tree location), entriesIn_skeleton]
  simp [List.filter_map, Function.comp_def]

/-- The trees differ at most in the bytes of their files. -/
def SameShape (tree other : FileTree) : Prop :=
  tree.skeleton = other.skeleton

namespace SameShape

variable {tree other third : FileTree}

theorem refl (tree : FileTree) : tree.SameShape tree :=
  Eq.refl tree.skeleton

theorem symm (h : tree.SameShape other) : other.SameShape tree :=
  Eq.symm h

theorem trans (h : tree.SameShape other) (h' : other.SameShape third) : tree.SameShape third :=
  Eq.trans h h'

theorem locate_eq (h : tree.SameShape other) (path : Path) :
    tree.locate path = other.locate path := by
  rw [← locate_skeleton tree, h, locate_skeleton]

theorem list_eq (h : tree.SameShape other) (path : Path) : tree.list path = other.list path := by
  rw [← list_skeleton tree, h, list_skeleton]

theorem locations_eq (h : tree.SameShape other) :
    tree.entries.map (·.1) = other.entries.map (·.1) := by
  have hmap := congrArg (fun tree : FileTree => tree.entries.map (·.1)) h
  simpa [skeleton, Function.comp_def] using hmap

theorem depth_eq (h : tree.SameShape other) : tree.depth = other.depth := by
  have hdepth (tree : FileTree) :
      tree.depth = (tree.entries.map (·.1)).foldl (fun n location => max n location.length) 0 := by
    rw [depth, List.foldl_map]
  rw [hdepth, hdepth, h.locations_eq]

end SameShape

def isNullFree (name : String) : Bool :=
  !name.toList.contains '\x00'

/-- What every file system ensures: no two entries lie at one location, and no name holds a null
character. -/
structure WellFormed (tree : FileTree) : Prop where
  distinct : (tree.entries.map (·.1)).Nodup
  nullFree : ∀ location ∈ tree.entries.map (·.1), ∀ name ∈ location, isNullFree name

instance (tree : FileTree) : Decidable tree.WellFormed :=
  decidable_of_iff
    ((tree.entries.map (·.1)).Nodup ∧
      ∀ location ∈ tree.entries.map (·.1), ∀ name ∈ location, isNullFree name)
    ⟨fun h => ⟨h.1, h.2⟩, fun h => ⟨h.distinct, h.nullFree⟩⟩

theorem SameShape.wellFormed {tree other : FileTree} (h : tree.SameShape other)
    (hwell : tree.WellFormed) : other.WellFormed := by
  constructor
  · rw [← h.locations_eq]
    exact hwell.distinct
  · rw [← h.locations_eq]
    exact hwell.nullFree

theorem lookup_of_mem {entries : List (Location × Entry)} (hnodup : (entries.map (·.1)).Nodup)
    {entry : Location × Entry} (hmem : entry ∈ entries) :
    entries.lookup entry.1 = some entry.2 := by
  induction entries with
  | nil => cases hmem
  | cons first entries ih =>
      rw [List.map_cons, List.nodup_cons] at hnodup
      rcases List.mem_cons.mp hmem with rfl | hrest
      · rw [List.lookup_cons, beq_self_eq_true]
      · have hne : entry.1 ≠ first.1 := by
          intro heq
          exact hnodup.1 (heq ▸ List.mem_map_of_mem hrest)
        rw [List.lookup_cons, beq_eq_false_iff_ne.mpr hne]
        exact ih hnodup.2 hrest

theorem get?_of_ne_nil (tree : FileTree) {location : Location} (hne : location ≠ []) :
    tree.get? location = tree.entries.lookup location := by
  cases location with
  | nil => exact absurd rfl hne
  | cons name rest => rfl

theorem mem_locations_of_get? {tree : FileTree} {location : Location} {entry : Entry}
    (hne : location ≠ []) (h : tree.get? location = some entry) :
    location ∈ tree.entries.map (·.1) := by
  rw [get?_of_ne_nil tree hne] at h
  obtain ⟨front, back, hsplit, -⟩ := List.lookup_eq_some_iff.mp h
  rw [hsplit]
  simp

theorem ne_nil_of_get?_file {tree : FileTree} {location : Location} {bytes : Bytes}
    (h : tree.get? location = some (.file bytes)) : location ≠ [] := by
  rintro rfl
  cases h

theorem entries_put_file {tree : FileTree} {location : Location} {old : Bytes}
    (h : tree.get? location = some (.file old)) (new : Entry) :
    (tree.put location new).entries =
      tree.entries.map fun entry => if entry.1 == location then (location, new) else entry := by
  have hmem := mem_locations_of_get? (ne_nil_of_get?_file h) h
  have hany : tree.entries.any (·.1 == location) = true := by
    obtain ⟨entry, hentry, rfl⟩ := List.mem_map.mp hmem
    exact List.any_eq_true.mpr ⟨entry, hentry, beq_self_eq_true _⟩
  rw [put, if_pos hany]

theorem lookup_replace (entries : List (Location × Entry)) (location other : Location)
    (new : Entry) :
    (entries.map fun entry => if entry.1 == location then (location, new) else entry).lookup other =
      if other = location then (entries.lookup other).map fun _ => new
      else entries.lookup other := by
  induction entries with
  | nil => simp
  | cons entry entries ih =>
      rw [List.map_cons, List.lookup_cons, ih, List.lookup_cons]
      by_cases hhead : entry.1 = location
      · subst hhead
        by_cases hother : other = entry.1
        · simp [hother]
        · simp [hother, beq_eq_false_iff_ne.mpr hother]
      · by_cases hother : other = location
        · subst hother
          simp [hhead, beq_eq_false_iff_ne.mpr (Ne.symm hhead)]
        · simp [hhead, hother]

theorem get?_put_file {tree : FileTree} {location : Location} {old : Bytes}
    (h : tree.get? location = some (.file old)) (new : Bytes) (other : Location) :
    (tree.put location (.file new)).get? other =
      if other = location then some (.file new) else tree.get? other := by
  have hne := ne_nil_of_get?_file h
  by_cases hother : other = location
  · subst hother
    rw [get?_of_ne_nil _ hne] at h
    rw [get?_of_ne_nil _ hne, entries_put_file (by rwa [get?_of_ne_nil _ hne]), lookup_replace,
      if_pos rfl, if_pos rfl, h, Option.map_some]
  · rw [if_neg hother]
    cases other with
    | nil => rfl
    | cons name rest =>
        rw [get?_of_ne_nil _ (List.cons_ne_nil name rest), entries_put_file h, lookup_replace,
          if_neg hother, get?_of_ne_nil _ (List.cons_ne_nil name rest)]

theorem put_comm {tree : FileTree} {place place' : Location} {old old' : Bytes}
    (hne : place ≠ place') (hfile : tree.get? place = some (.file old))
    (hfile' : tree.get? place' = some (.file old')) (new new' : Bytes) :
    (tree.put place (.file new)).put place' (.file new') =
      (tree.put place' (.file new')).put place (.file new) := by
  have hkept : (tree.put place (.file new)).get? place' = some (.file old') := by
    rw [get?_put_file hfile, if_neg hne.symm, hfile']
  have hkept' : (tree.put place' (.file new')).get? place = some (.file old) := by
    rw [get?_put_file hfile', if_neg hne, hfile]
  rw [FileTree.mk.injEq, entries_put_file hkept, entries_put_file hkept', entries_put_file hfile,
    entries_put_file hfile', List.map_map, List.map_map]
  refine List.map_congr_left fun entry _ => ?_
  by_cases hplace : entry.1 = place
  · simp [hplace, hne]
  · by_cases hplace' : entry.1 = place'
    · simp [hplace', hne.symm]
    · simp [hplace, hplace']

theorem WellFormed.sameShape_put {tree : FileTree} (hwell : tree.WellFormed)
    {location : Location} {old : Bytes} (h : tree.get? location = some (.file old)) (new : Bytes) :
    tree.SameShape (tree.put location (.file new)) := by
  rw [SameShape, skeleton, skeleton, entries_put_file h, List.map_map]
  congr 1
  refine List.map_congr_left fun entry hentry => ?_
  by_cases heq : entry.1 = location
  · have hlookup := lookup_of_mem hwell.distinct hentry
    rw [heq, ← get?_of_ne_nil tree (ne_nil_of_get?_file h), h] at hlookup
    simp [heq, ← Option.some.inj hlookup, Entry.hollow]
  · simp [heq]

theorem read_eq_ok_iff {tree : FileTree} {path : Path} {bytes : Bytes} :
    tree.read path = .ok bytes ↔
      ∃ location, tree.locate path = .ok location ∧ tree.get? location = some (.file bytes) := by
  rw [read, entry]
  cases tree.locate path with
  | error errno => simp [bind, Except.bind]
  | ok location =>
      simp only [bind, Except.bind, Except.ok.injEq, exists_eq_left']
      cases tree.get? location with
      | none => simp [throw, throwThe, MonadExceptOf.throw]
      | some entry => cases entry <;> simp [pure, Except.pure, throw, throwThe, MonadExceptOf.throw]

theorem overwrite_eq_ok_iff {tree after : FileTree} {path : Path} {new : Bytes} :
    tree.overwrite path new = .ok after ↔
      ∃ location old, tree.locate path = .ok location ∧ tree.get? location = some (.file old) ∧
        after = tree.put location (.file new) := by
  rw [overwrite]
  cases tree.locate path with
  | error errno => simp [bind, Except.bind]
  | ok location =>
      simp only [bind, Except.bind, Except.ok.injEq, exists_and_left, exists_eq_left']
      cases tree.get? location with
      | none => simp [throw, throwThe, MonadExceptOf.throw]
      | some entry =>
          cases entry <;>
            simp [pure, Except.pure, throw, throwThe, MonadExceptOf.throw, eq_comm]

def SameFile (tree : FileTree) (first second : Path) : Prop :=
  ∃ location bytes, tree.locate first = .ok location ∧ tree.locate second = .ok location ∧
    tree.get? location = some (.file bytes)

theorem SameFile.symm {tree : FileTree} {first second : Path} (h : tree.SameFile first second) :
    tree.SameFile second first := by
  obtain ⟨location, bytes, hfirst, hsecond, hfile⟩ := h
  exact ⟨location, bytes, hsecond, hfirst, hfile⟩

/-- No two of the paths lead to one file. -/
def LeadsApart (tree : FileTree) (paths : List Path) : Prop :=
  paths.Pairwise fun first second => ¬tree.SameFile first second

theorem leadsApart_of_nodup {tree : FileTree} {paths : List Path}
    (h : (paths.map tree.locate).Nodup) : tree.LeadsApart paths := by
  refine (List.pairwise_map.mp h).imp ?_
  rintro first second hne ⟨location, bytes, hfirst, hsecond, -⟩
  exact hne (hfirst.trans hsecond.symm)

theorem LeadsApart.perm {tree : FileTree} {paths order : List Path} (hperm : paths.Perm order)
    (h : tree.LeadsApart paths) : tree.LeadsApart order :=
  hperm.pairwise h fun hnot hsame => hnot hsame.symm

theorem SameShape.exists_file {tree other : FileTree} (h : tree.SameShape other)
    {location : Location} {bytes : Bytes} (hfile : tree.get? location = some (.file bytes)) :
    ∃ bytes, other.get? location = some (.file bytes) := by
  have hhollow := other.get?_skeleton location
  rw [← h, get?_skeleton, hfile] at hhollow
  obtain ⟨entry, hentry, hempty⟩ := Option.map_eq_some_iff.mp hhollow.symm
  cases entry with
  | file bytes => exact ⟨bytes, hentry⟩
  | dir => cases hempty
  | link target => cases hempty

theorem SameShape.sameFile {tree other : FileTree} (h : tree.SameShape other)
    {first second : Path} (hsame : tree.SameFile first second) : other.SameFile first second := by
  obtain ⟨location, bytes, hfirst, hsecond, hfile⟩ := hsame
  obtain ⟨bytes', hfile'⟩ := h.exists_file hfile
  rw [h.locate_eq] at hfirst hsecond
  exact ⟨location, bytes', hfirst, hsecond, hfile'⟩

theorem SameShape.leadsApart {tree other : FileTree} (h : tree.SameShape other)
    {paths : List Path} (hapart : tree.LeadsApart paths) : other.LeadsApart paths :=
  hapart.imp fun hnot hsame => hnot (h.symm.sameFile hsame)

theorem read_congr {tree other : FileTree} {path : Path}
    (hlocate : tree.locate path = other.locate path)
    (hget : ∀ location, tree.locate path = .ok location →
      tree.get? location = other.get? location) : tree.read path = other.read path := by
  have hentry : tree.entry path = other.entry path := by
    rw [entry, entry, ← hlocate]
    cases hfound : tree.locate path with
    | error errno => rfl
    | ok location => simp only [bind, Except.bind, hget location hfound]
  rw [read, read, hentry]

theorem nullFree_of_follow {tree : FileTree} (hwell : tree.WellFormed) {budget : Nat}
    {here found : Location} {todo : List String} (h : tree.follow budget here todo = .ok found) :
    ∀ name ∈ todo, isNullFree name := by
  have hentry {here : Location} {name : String} {entry : Entry}
      (hget : tree.get? (here ++ [name]) = some entry) : isNullFree name :=
    hwell.nullFree _ (mem_locations_of_get? (by simp) hget) name (by simp)
  fun_induction follow tree budget here todo with
  | case1 => simp
  | case2 => cases h
  | case3 budget here name rest hdir hdot ih =>
      refine List.forall_mem_cons.mpr ⟨?_, ih h⟩
      rcases (by simpa using hdot : name = "" ∨ name = ".") with rfl | rfl <;> decide
  | case4 budget here name rest hdir hdot hup ih =>
      refine List.forall_mem_cons.mpr ⟨?_, ih h⟩
      rw [beq_iff_eq.mp hup]
      decide
  | case5 => cases h
  | case6 => cases h
  | case7 => cases h
  | case8 here name rest hdir hdot hup hlong target hlink budget ih =>
      have hboth := ih h
      exact List.forall_mem_cons.mpr
        ⟨hentry hlink, fun name hname => hboth name (List.mem_append_right _ hname)⟩
  | case9 budget here name rest hdir hdot hup hlong entry hlink hsome ih =>
      exact List.forall_mem_cons.mpr ⟨hentry hsome, ih h⟩

theorem nullFree_of_nameIn? {tree : FileTree} (hwell : tree.WellFormed) {location below : Location}
    {name : String} (hbelow : below ∈ tree.entries.map (·.1))
    (h : nameIn? location below = some name) : isNullFree name := by
  have hlast : below.getLast? = some name := by
    rw [nameIn?] at h
    split at h
    · split at h <;> simp_all
    · cases h
  exact hwell.nullFree below hbelow name (List.mem_of_getLast? hlast)

theorem nullFree_of_mem_entriesIn {tree : FileTree} (hwell : tree.WellFormed)
    {location : Location} {entry : String × Entry} (h : entry ∈ tree.entriesIn location) :
    isNullFree entry.1 := by
  rw [entriesIn, List.mem_mergeSort, List.mem_filterMap] at h
  obtain ⟨⟨below, found⟩, hmem, hname⟩ := h
  obtain ⟨name, hin, rfl⟩ := Option.map_eq_some_iff.mp hname
  exact nullFree_of_nameIn? hwell (List.mem_map_of_mem hmem) hin

theorem nullFree_of_list {tree : FileTree} (hwell : tree.WellFormed) {path : Path}
    {listing : Listing} (h : tree.list path = .ok listing) :
    (∀ dir ∈ listing.dirs, isNullFree dir.1) ∧ ∀ name ∈ listing.files, isNullFree name := by
  rw [list_eq] at h
  cases hlocate : tree.locate path with
  | error errno => rw [hlocate] at h; cases h
  | ok location =>
      rw [hlocate, Except.bind] at h
      split at h
      · cases h
      · cases h
        constructor
        · intro dir hdir
          obtain ⟨entry, hentry, rfl⟩ := List.mem_map.mp hdir
          exact nullFree_of_mem_entriesIn hwell (List.mem_filter.mp hentry).1
        · intro name hname
          obtain ⟨entry, hentry, rfl⟩ := List.mem_map.mp hname
          exact nullFree_of_mem_entriesIn hwell (List.mem_filter.mp hentry).1

end FileTree

end CommentSweep.Disk
