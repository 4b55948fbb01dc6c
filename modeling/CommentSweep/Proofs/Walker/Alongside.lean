import CommentSweep.Proofs.Job.Relates
import CommentSweep.Proofs.Walker.Visits

/-!
What a walk upholds, and two walks side by side. A walk upholds what its visits uphold in the
directories that it comes to. Two walks over trees of one shape come by the same entries in the same
order, so they keep step as long as their visits do.
-/

namespace CommentSweep.Walker

open Disk

variable {w : Walker}

/-- Among trees with the property, the walk stays in good directories, and there its visits uphold
the property. -/
structure Guards (w : Walker) {σ : Type} (visit : σ → Path → Job σ) (I : FileTree → Prop)
    (Good : List String → Prop) : Prop where
  visits : ∀ {below tree listing name}, Good below → I tree →
    tree.list (w.dirAt below) = .ok listing → name ∈ listing.files →
    w.fileReason? below name = none → ∀ s, Job.Upholds I (visit s ((w.dirAt below).child name))
  enters : ∀ {below tree listing dir}, Good below → I tree →
    tree.list (w.dirAt below) = .ok listing → dir ∈ w.entered below listing.dirs →
    Good (below ++ [dir.1])

namespace Guards

variable {σ : Type} {visit : σ → Path → Job σ} {I : FileTree → Prop} {Good : List String → Prop}
  (h : w.Guards visit I Good)

include h

theorem upholds_walkDir {depth : Nat} {below : List String} (hgood : Good below) (s : σ) :
    Job.Upholds I (w.walkDir visit depth below s) := by
  induction depth generalizing below s with
  | zero => exact Job.upholds_pure s
  | succ depth ih =>
      apply Job.upholds_access_bind
      · intro fault
        exact Job.upholds_of_returns fun _ _ =>
          (returns_reportFault fault).bind (Job.returns_pure s)
      · intro tree listing hI hlist
        have hsift : Job.Upholds I (w.siftDirs below listing.dirs) :=
          Job.upholds_of_returns fun _ _ => returns_siftDirs below listing.dirs
        have hfiles (s : σ) : Job.Upholds I (listing.files.foldlM (w.visitFile visit below) s) := by
          apply Job.upholds_foldlM
          intro name hname s
          rw [visitFile]
          split
          · exact Job.upholds_of_returns fun _ _ =>
              (returns_reportIgnored _ _).bind (Job.returns_pure s)
          · next hkept => exact h.visits hgood hI hlist hname hkept s
        refine hsift.bind fun _ => (hfiles s).bind fun s => ?_
        apply Job.upholds_foldlM
        intro dir hdir s
        exact ih (h.enters hgood hI hlist hdir) s

theorem upholds_walk (hgood : Good []) (s : σ) : Job.Upholds I (w.walk visit s) := by
  have htree : Job.Keeps Job.tree := fun _ _ => Job.ensures_tree rfl
  exact htree.upholds.bind fun _ => h.upholds_walkDir hgood s

end Guards

theorem keeps_walk {σ : Type} {visit : σ → Path → Job σ}
    (hvisit : ∀ s path, Job.Keeps (visit s path)) (s : σ) : Job.Keeps (w.walk visit s) := by
  apply Job.keeps_of_upholds
  intro tree
  have hguards : w.Guards visit (· = tree) fun _ => True :=
    ⟨fun _ _ _ _ _ s => (hvisit s _).upholds, fun _ _ _ _ => trivial⟩
  exact hguards.upholds_walk trivial s

section

variable {σ τ : Type} {tied : Prop} {hazards : List Hazard} {t u : FileTree}
  {visit : σ → Path → Job σ} {visit' : τ → Path → Job τ} {I : σ → τ → FileTree → FileTree → Prop}
  (hvisit : ∀ s s' t u path, I s s' t u →
    Job.Alongside tied hazards (visit s path) t (visit' s' path) u I)

include hvisit

theorem alongside_visitFile (below : List String) (name : String) {s : σ} {s' : τ}
    (h : I s s' t u) :
    Job.Alongside tied hazards (w.visitFile visit below s name) t
      (w.visitFile visit' below s' name) u I := by
  rw [visitFile, visitFile]
  split
  · exact (((returns_reportIgnored _ _).bind (Job.returns_pure s)).alongside
      ((returns_reportIgnored _ _).bind (Job.returns_pure s')) h)
  · exact hvisit s s' t u _ h

variable (hshape : ∀ s s' t u, I s s' t u → t.SameShape u)

include hshape

theorem alongside_walkDir (depth : Nat) (below : List String) {s : σ} {s' : τ} (h : I s s' t u) :
    Job.Alongside tied hazards (w.walkDir visit depth below s) t
      (w.walkDir visit' depth below s') u I := by
  induction depth generalizing below s s' t u with
  | zero => exact Job.alongside_pure h
  | succ depth ih =>
      refine Job.alongside_access.bind fun a b t' u' hlist => ?_
      obtain ⟨-, rfl, rfl, rfl, rfl⟩ := hlist
      rw [← (hshape _ _ _ _ h).list_eq]
      cases Job.attempt hazards .list (w.dirAt below) (t'.list (w.dirAt below)) with
      | error fault =>
          exact ((returns_reportFault fault).bind (Job.returns_pure s)).alongside
            ((returns_reportFault fault).bind (Job.returns_pure s')) h
      | ok listing =>
          have hsift : Job.Alongside tied hazards (w.siftDirs below listing.dirs) t'
              (w.siftDirs below listing.dirs) u' fun _ _ t u => I s s' t u :=
            (returns_siftDirs below _).alongside (returns_siftDirs below _) h
          refine hsift.bind fun _ _ t u h => ?_
          have hfiles : Job.Alongside tied hazards
              (listing.files.foldlM (w.visitFile visit below) s) t
              (listing.files.foldlM (w.visitFile visit' below) s') u I :=
            Job.relates_foldlM
              (fun name _ s s' t u h => alongside_visitFile hvisit below name h) h
          refine hfiles.bind fun s s' t u h => ?_
          exact Job.relates_foldlM (fun dir _ s s' t u h => ih (below ++ [dir.1]) h) h

theorem alongside_walk {s : σ} {s' : τ} (h : I s s' t u) :
    Job.Alongside tied hazards (w.walk visit s) t (w.walk visit' s') u I := by
  have htree : Job.Alongside tied hazards Job.tree t Job.tree u fun a b t' u' =>
      a = t ∧ b = u ∧ t' = t ∧ u' = u :=
    Job.logs_tree.returns.alongside Job.logs_tree.returns ⟨rfl, rfl, rfl, rfl⟩
  refine htree.bind ?_
  rintro _ _ _ _ ⟨rfl, rfl, rfl, rfl⟩
  rw [← (hshape _ _ _ _ h).depth_eq]
  exact alongside_walkDir hvisit hshape _ [] h

end

theorem keeps_files (w : Walker) : Job.Keeps w.files :=
  keeps_walk (fun _ _ _ _ => Job.ensures_pure rfl) []

end CommentSweep.Walker
