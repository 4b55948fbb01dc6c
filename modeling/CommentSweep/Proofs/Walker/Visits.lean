import CommentSweep.Walker
import CommentSweep.Proofs.Job.Access

/-!
Walks whose visits keep the shape of the tree. Such a walk visits the paths that the tree yields
before the first visit, in their order, however much the visits write into the files.
-/

namespace CommentSweep.Walker

open Disk

def entered (w : Walker) (below : List String) (dirs : List (String × Bool)) :
    List (String × Bool) :=
  dirs.filter fun (name, isLink) => (w.dirReason? below name).isNone && !isLink

def visited (w : Walker) (below : List String) (files : List String) : List Path :=
  (files.filter fun name => (w.fileReason? below name).isNone).map (w.dirAt below).child

/-- The paths that a tree yields below the directory of these names. -/
def pathsFrom (w : Walker) (hazards : List Hazard) (tree : FileTree) :
    (depth : Nat) → List String → List Path
  | 0, _ => []
  | depth + 1, below =>
      match Job.attempt hazards .list (w.dirAt below) (tree.list (w.dirAt below)) with
      | .error _ => []
      | .ok listing =>
          w.visited below listing.files ++
            (w.entered below listing.dirs).flatMap fun dir =>
              w.pathsFrom hazards tree depth (below ++ [dir.1])

def paths (w : Walker) (hazards : List Hazard) (tree : FileTree) : List Path :=
  w.pathsFrom hazards tree (tree.depth + 1) []

inductive Notice where
  | ignored (name : String) (reason : Reason)
  | failed (below : List String) (fault : SystemFault)

def Notice.failedDir? : Notice → Option (List String)
  | .ignored _ _ => none
  | .failed below _ => some below

/-- The record of a notice. A directory that cannot be listed for want of permission is worth a
warning, any other that cannot be listed is an error. -/
def record (w : Walker) : Notice → Log.Record
  | .ignored name reason =>
      { logger
        level := if w.verbose then .info else .debug
        message := "-- ignored (" ++ reason.label ++ "): " ++ name }
  | .failed _ fault =>
      let place := fault.path?.getD w.root.toString
      if fault.errno = .permission then
        { logger, level := .warning, message := "⚠  no access to directory: " ++ place }
      else
        { logger
          level := .error
          message := "❌ cannot read directory " ++ place ++ ": " ++ fault.message }

variable {w : Walker} {hazards : List Hazard} {tree other : FileTree}

@[simp] theorem dirAt_snoc (w : Walker) (below : List String) (name : String) :
    w.dirAt (below ++ [name]) = (w.dirAt below).child name := by
  simp [dirAt, Path.child]

theorem nullFree_listing (hmild : Job.Mild hazards) (hwell : tree.WellFormed) {path : Path}
    {listing : FileTree.Listing}
    (h : Job.attempt hazards .list path (tree.list path) = .ok listing) :
    (∀ dir ∈ listing.dirs, FileTree.isNullFree dir.1) ∧
      ∀ name ∈ listing.files, FileTree.isNullFree name :=
  FileTree.nullFree_of_list hwell
    ((Job.attempt_eq_ok_iff (hmild.passable .list path) _ listing).mp h).2

theorem nullFree_pathsFrom (hmild : Job.Mild hazards) (hwell : tree.WellFormed) {depth : Nat}
    {below : List String} (hnull : (w.dirAt below).isNullFree) :
    ∀ path ∈ w.pathsFrom hazards tree depth below, path.isNullFree := by
  induction depth generalizing below with
  | zero => simp [pathsFrom]
  | succ depth ih =>
      intro path hpath
      rw [pathsFrom] at hpath
      cases hlist : Job.attempt hazards .list (w.dirAt below) (tree.list (w.dirAt below)) with
      | error fault => simp [hlist] at hpath
      | ok listing =>
          obtain ⟨hdirs, hfiles⟩ := nullFree_listing hmild hwell hlist
          simp only [hlist, List.mem_append, List.mem_flatMap] at hpath
          rcases hpath with hfile | ⟨dir, hdir, hbelow⟩
          · obtain ⟨name, hname, rfl⟩ := List.mem_map.mp hfile
            exact Path.isNullFree_child hnull (hfiles name (List.mem_filter.mp hname).1)
          · refine ih ?_ path hbelow
            simpa using Path.isNullFree_child hnull (hdirs dir (List.mem_filter.mp hdir).1)

/-- Visiting the paths in turn takes a state and a tree to others, and keeps the shape of the tree.
-/
inductive Visits {σ : Type} (visit : σ → Path → Job σ) (hazards : List Hazard) :
    List Path → σ → FileTree → σ → FileTree → Prop
  | nil (s : σ) (tree : FileTree) : Visits visit hazards [] s tree s tree
  | cons {path : Path} {paths : List Path} {s s₁ s' : σ} {tree tree₁ tree' : FileTree}
      (returns : Job.Returns hazards (visit s path) tree s₁ tree₁)
      (shape : tree.SameShape tree₁)
      (rest : Visits visit hazards paths s₁ tree₁ s' tree') :
      Visits visit hazards (path :: paths) s tree s' tree'

namespace Visits

variable {σ : Type} {visit : σ → Path → Job σ} {s s' : σ} {tree' : FileTree}

theorem sameShape {paths : List Path} (h : Visits visit hazards paths s tree s' tree') :
    tree.SameShape tree' := by
  induction h with
  | nil s tree => exact .refl tree
  | cons returns shape rest ih => exact shape.trans ih

theorem of_append {first second : List Path}
    (h : Visits visit hazards (first ++ second) s tree s' tree') :
    ∃ middle tree₁, Visits visit hazards first s tree middle tree₁ ∧
      Visits visit hazards second middle tree₁ s' tree' := by
  induction first generalizing s tree with
  | nil => exact ⟨s, tree, .nil s tree, h⟩
  | cons path first ih =>
      cases h with
      | cons returns shape rest =>
          obtain ⟨middle, tree₁, hfirst, hsecond⟩ := ih rest
          exact ⟨middle, tree₁, .cons returns shape hfirst, hsecond⟩

theorem append {first second : List Path} {middle : σ} {tree₁ : FileTree}
    (hfirst : Visits visit hazards first s tree middle tree₁)
    (hsecond : Visits visit hazards second middle tree₁ s' tree') :
    Visits visit hazards (first ++ second) s tree s' tree' := by
  induction hfirst with
  | nil => exact hsecond
  | cons returns shape rest ih => exact .cons returns shape (ih hsecond)

theorem returns_foldlM {paths : List Path} (h : Visits visit hazards paths s tree s' tree') :
    Job.Returns hazards (paths.foldlM visit s) tree s' tree' := by
  induction h with
  | nil s tree => exact Job.returns_pure s
  | cons returns shape rest ih =>
      rw [List.foldlM_cons]
      exact returns.bind ih

end Visits

section

variable {σ : Type} {visit : σ → Path → Job σ} {s s' : σ} {tree' : FileTree}

theorem logs_reportFault (below : List String) (fault : SystemFault) :
    Job.Logs hazards (w.reportFault fault) tree () [w.record (.failed below fault)] := by
  rw [reportFault, record]
  obtain ⟨errno, path?⟩ := fault
  cases errno with
  | permission => exact Job.logs_say _
  | _ => exact Job.logs_say _

theorem logs_siftDirs (below : List String) (dirs : List (String × Bool)) :
    Job.Logs hazards (w.siftDirs below dirs) tree ()
      (dirs.flatMap fun dir =>
        ((w.dirReason? below dir.1).map (.ignored (relative below dir.1 ++ "/"))).toList.map
          w.record) := by
  apply Job.logs_forM
  intro dir _
  simp only
  cases w.dirReason? below dir.1 with
  | none => exact Job.logs_pure ()
  | some reason => exact Job.logs_say _

theorem returns_reportIgnored (name : String) (reason : Reason) :
    Job.Returns hazards (w.reportIgnored name reason) tree () tree :=
  Job.returns_say _

theorem returns_reportFault (fault : SystemFault) :
    Job.Returns hazards (w.reportFault fault) tree () tree :=
  (logs_reportFault [] fault).returns

theorem returns_siftDirs (below : List String) (dirs : List (String × Bool)) :
    Job.Returns hazards (w.siftDirs below dirs) tree () tree :=
  (logs_siftDirs below dirs).returns

theorem returns_visitFiles {below files : List String}
    (h : Visits visit hazards (w.visited below files) s tree s' tree') :
    Job.Returns hazards (files.foldlM (w.visitFile visit below) s) tree s' tree' := by
  induction files generalizing s tree with
  | nil =>
      cases h
      exact Job.returns_pure _
  | cons name files ih =>
      rw [List.foldlM_cons]
      rw [visited, List.filter_cons] at h
      cases hreason : w.fileReason? below name with
      | some reason =>
          simp only [hreason] at h
          have hvisit : Job.Returns hazards (w.visitFile visit below s name) tree s tree := by
            simp only [visitFile, hreason]
            exact (returns_reportIgnored _ _).bind (Job.returns_pure s)
          exact hvisit.bind (ih h)
      | none =>
          simp only [hreason] at h
          cases h with
          | cons returns shape rest =>
              have hvisit : w.visitFile visit below s name =
                  visit s ((w.dirAt below).child name) := by
                simp only [visitFile, hreason]
              rw [hvisit]
              exact returns.bind (ih rest)

theorem returns_foldlM {β : Type} {turn : σ → β → Job σ} {pathsOf : β → List Path}
    {items : List β} {tree₁ : FileTree} (hshape : tree.SameShape tree₁)
    (hturn : ∀ item ∈ items, ∀ s tree₁ s' tree', tree.SameShape tree₁ →
      Visits visit hazards (pathsOf item) s tree₁ s' tree' →
      Job.Returns hazards (turn s item) tree₁ s' tree')
    (h : Visits visit hazards (items.flatMap pathsOf) s tree₁ s' tree') :
    Job.Returns hazards (items.foldlM turn s) tree₁ s' tree' := by
  induction items generalizing s tree₁ with
  | nil =>
      cases h
      exact Job.returns_pure _
  | cons item items ih =>
      obtain ⟨hitem, hitems⟩ := List.forall_mem_cons.mp hturn
      rw [List.flatMap_cons] at h
      obtain ⟨middle, tree₂, hfirst, hrest⟩ := h.of_append
      rw [List.foldlM_cons]
      exact (hitem s tree₁ middle tree₂ hshape hfirst).bind
        (ih (hshape.trans hfirst.sameShape) hitems hrest)

/-- Every directory that is `Good` can be asked for its entries, and those of its subdirectories
that are entered are `Good` again. -/
structure Listable (w : Walker) (hazards : List Hazard) (tree : FileTree)
    (Good : List String → Prop) : Prop where
  returns : ∀ below, Good below → ∀ other, tree.SameShape other →
    Job.Returns hazards (Job.list (w.dirAt below)) other
      (Job.attempt hazards .list (w.dirAt below) (tree.list (w.dirAt below))) other
  enters : ∀ below listing, Good below →
    Job.attempt hazards .list (w.dirAt below) (tree.list (w.dirAt below)) = .ok listing →
    ∀ dir ∈ w.entered below listing.dirs, Good (below ++ [dir.1])

theorem returns_list_of_sameShape (hshape : tree.SameShape other) {path : Path}
    (hpass : Job.Passable hazards .list path) (hnull : path.isNullFree) :
    Job.Returns hazards (Job.list path) other (Job.attempt hazards .list path (tree.list path))
      other := by
  rw [hshape.list_eq]
  exact Job.returns_access hpass hnull _

theorem listable_of_mild (hmild : Job.Mild hazards) (hwell : tree.WellFormed) :
    w.Listable hazards tree fun below => (w.dirAt below).isNullFree where
  returns := fun _ hnull _ hshape => returns_list_of_sameShape hshape (hmild.passable .list _) hnull
  enters := by
    intro below listing hnull hlisting dir hdir
    have hname := (nullFree_listing hmild hwell hlisting).1 dir (List.mem_filter.mp hdir).1
    simpa using Path.isNullFree_child hnull hname

section

variable {Good : List String → Prop} (hlistable : w.Listable hazards tree Good)

include hlistable

theorem returns_walkDir {depth : Nat} {below : List String} (hgood : Good below)
    {tree₁ : FileTree} (hshape : tree.SameShape tree₁)
    (h : Visits visit hazards (w.pathsFrom hazards tree depth below) s tree₁ s' tree') :
    Job.Returns hazards (w.walkDir visit depth below s) tree₁ s' tree' := by
  induction depth generalizing below s tree₁ s' tree' with
  | zero =>
      cases h
      exact Job.returns_pure s
  | succ depth ih =>
      have hlist := hlistable.returns below hgood tree₁ hshape
      rw [pathsFrom] at h
      cases hattempt : Job.attempt hazards .list (w.dirAt below) (tree.list (w.dirAt below)) with
      | error fault =>
          simp only [hattempt] at h hlist
          cases h
          exact hlist.bind ((returns_reportFault fault).bind (Job.returns_pure s))
      | ok listing =>
          simp only [hattempt] at h hlist
          obtain ⟨middle, tree₂, hfiles, hdirs⟩ := h.of_append
          refine hlist.bind ((returns_siftDirs below _).bind ((returns_visitFiles hfiles).bind ?_))
          -- Visits keep the shape, so every directory still yields what it did before them.
          refine returns_foldlM (hshape.trans hfiles.sameShape) ?_ hdirs
          intro dir hdir s tree₁ s' tree' hshape hvisits
          exact ih (hlistable.enters below listing hgood hattempt dir hdir) hshape hvisits

theorem returns_walk_of_listable (hgood : Good [])
    (h : Visits visit hazards (w.paths hazards tree) s tree s' tree') :
    Job.Returns hazards (w.walk visit s) tree s' tree' := by
  exact Job.logs_tree.returns.bind (returns_walkDir hlistable hgood (.refl tree) h)

end

theorem returns_walk (hmild : Job.Mild hazards) (hwell : tree.WellFormed)
    (hnull : w.root.isNullFree) (h : Visits visit hazards (w.paths hazards tree) s tree s' tree') :
    Job.Returns hazards (w.walk visit s) tree s' tree' := by
  have hdir : (w.dirAt []).isNullFree := by simpa [dirAt] using hnull
  exact returns_walk_of_listable (listable_of_mild hmild hwell) hdir h

/-- A visit that notes its path down as well. -/
def noting {σ : Type} (visit : σ → Path → Job σ) (state : σ × List Path) (path : Path) :
    Job (σ × List Path) := do
  let s ← visit state.1 path
  return (s, state.2 ++ [path])

theorem Visits.noting {paths : List Path} (h : Visits visit hazards paths s tree s' tree')
    (seen : List Path) :
    Visits (Walker.noting visit) hazards paths (s, seen) tree (s', seen ++ paths) tree' := by
  induction h generalizing seen with
  | nil s tree =>
      rw [List.append_nil]
      exact .nil _ tree
  | @cons path paths s s₁ s' tree tree₁ tree' returns shape rest ih =>
      rw [List.append_cons]
      exact .cons (returns.bind (Job.returns_pure (s₁, seen ++ [path]))) shape (ih _)

theorem visits_collect (paths seen : List Path) :
    Visits (fun seen path => pure (seen ++ [path])) hazards paths seen tree (seen ++ paths)
      tree := by
  induction paths generalizing seen with
  | nil =>
      rw [List.append_nil]
      exact .nil seen tree
  | cons path paths ih =>
      rw [List.append_cons]
      exact .cons (Job.returns_pure _) (.refl tree) (ih _)

theorem returns_files_of_listable {Good : List String → Prop}
    (hlistable : w.Listable hazards tree Good) (hgood : Good []) :
    Job.Returns hazards w.files tree (w.paths hazards tree) tree :=
  returns_walk_of_listable hlistable hgood (visits_collect _ [])

theorem returns_files (hmild : Job.Mild hazards) (hwell : tree.WellFormed)
    (hnull : w.root.isNullFree) :
    Job.Returns hazards w.files tree (w.paths hazards tree) tree :=
  returns_walk hmild hwell hnull (visits_collect _ [])

end

end CommentSweep.Walker
