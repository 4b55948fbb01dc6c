import CommentSweep.Proofs.Job.Relates
import CommentSweep.Proofs.Walker.Visits

/-!
The itinerary of a walk: the directories that are asked for their entries and the files that are
visited, in the order in which the walk comes to them. A walk whose visits keep the shape of the
tree comes to what its stops in turn come to. So where a walk is broken off, it has made a first
part of its stops.
-/

namespace CommentSweep.Walker

open Disk Job

inductive Stop where
  | dir (below : List String)
  | file (path : Path)
  deriving DecidableEq

def Stop.path? : Stop → Option Path
  | .dir _ => none
  | .file path => some path

def Stop.paths (stops : List Stop) : List Path :=
  stops.filterMap Stop.path?

@[simp] theorem Stop.paths_cons (stop : Stop) (stops : List Stop) :
    paths (stop :: stops) = stop.path?.toList ++ paths stops := by
  cases stop <;> rfl

@[simp] theorem Stop.paths_append (first second : List Stop) :
    paths (first ++ second) = paths first ++ paths second :=
  List.filterMap_append

def halt (w : Walker) {σ : Type} (visit : σ → Path → Job σ) (s : σ) : Stop → Job σ
  | .dir below => do
      let _ ← Job.list (w.dirAt below)
      return s
  | .file path => visit s path

def itineraryFrom (w : Walker) (hazards : List Hazard) (tree : FileTree) :
    (depth : Nat) → List String → List Stop
  | 0, _ => []
  | depth + 1, below =>
      .dir below ::
        match Job.attempt hazards .list (w.dirAt below) (tree.list (w.dirAt below)) with
        | .error _ => []
        | .ok listing =>
            (w.visited below listing.files).map .file ++
              (w.entered below listing.dirs).flatMap fun dir =>
                w.itineraryFrom hazards tree depth (below ++ [dir.1])

def itinerary (w : Walker) (hazards : List Hazard) (tree : FileTree) : List Stop :=
  w.itineraryFrom hazards tree (tree.depth + 1) []

variable {w : Walker} {hazards : List Hazard} {tree start : FileTree}

@[simp] theorem paths_itineraryFrom (depth : Nat) (below : List String) :
    Stop.paths (w.itineraryFrom hazards tree depth below) =
      w.pathsFrom hazards tree depth below := by
  induction depth generalizing below with
  | zero => rfl
  | succ depth ih =>
      rw [itineraryFrom, pathsFrom, Stop.paths_cons]
      simp only [Stop.path?, Option.toList_none, List.nil_append]
      cases Job.attempt hazards .list (w.dirAt below) (tree.list (w.dirAt below)) with
      | error fault => rfl
      | ok listing =>
          have hfiles (paths : List Path) : Stop.paths (paths.map .file) = paths := by
            simp [Stop.paths, Stop.path?, Function.comp_def]
          simp only [Stop.paths_append, hfiles]
          rw [Stop.paths, List.filterMap_flatMap]
          exact congrArg _ (congrArg (List.flatMap · _) (funext fun dir => ih _))

@[simp] theorem paths_itinerary (w : Walker) (hazards : List Hazard) (tree : FileTree) :
    Stop.paths (w.itinerary hazards tree) = w.paths hazards tree :=
  paths_itineraryFrom _ []

section

variable {σ : Type} {visit : σ → Path → Job σ}

/-- A visit that is broken off has left the tree alone, and one that returns has kept its shape. -/
def Tidy (hazards : List Hazard) (start : FileTree) (visit : σ → Path → Job σ) : Prop :=
  ∀ s path tree, start.SameShape tree → Ensures hazards (visit s path) tree fun result after _ =>
    match result with
    | .error _ => after = tree
    | .ok _ => tree.SameShape after

variable (htidy : Tidy hazards start visit)

include htidy

theorem Tidy.alike (s : σ) (path : Path) :
    Alike start.SameShape hazards (visit s path) (visit s path) := by
  intro tree hshape
  refine (htidy s path tree hshape).ends.mono ?_
  rintro (abort | s') after _ ⟨hafter, hends⟩
  · exact ⟨after, rfl, fun _ => hends⟩
  · exact ⟨s', after, hends, rfl, rfl, hshape.trans hafter⟩

theorem alike_visitFiles (below files : List String) (s : σ) :
    Alike start.SameShape hazards (files.foldlM (w.visitFile visit below) s)
      (((w.visited below files).map .file).foldlM (w.halt visit) s) := by
  induction files generalizing s with
  | nil => exact alike_pure s
  | cons name files ih =>
      rw [List.foldlM_cons, visited, List.filter_cons]
      cases hreason : w.fileReason? below name with
      | some reason =>
          have hvisit (tree : FileTree) :
              Returns hazards (w.visitFile visit below s name) tree s tree := by
            simp only [visitFile, hreason]
            exact (returns_reportIgnored _ _).bind (returns_pure s)
          exact .behind hvisit (ih s)
      | none =>
          have hvisit : w.visitFile visit below s name = visit s ((w.dirAt below).child name) := by
            simp only [visitFile, hreason]
          rw [hvisit]
          exact (htidy.alike s _).bind ih

theorem alike_walkDir (depth : Nat) (below : List String) (s : σ) :
    Alike start.SameShape hazards (w.walkDir visit depth below s)
      ((w.itineraryFrom (calm hazards) start depth below).foldlM (w.halt visit) s) := by
  induction depth generalizing below s with
  | zero => exact alike_pure s
  | succ depth ih =>
      rw [itineraryFrom, List.foldlM_cons]
      intro tree hshape
      cases habort : abort? hazards .list (w.dirAt below) with
      | some abort =>
          have hlist : Ends hazards (Job.list (w.dirAt below)) tree (.error abort) tree :=
            ends_access habort _
          exact (hlist.bind_error _).relates_error
            (fun _ => (hlist.bind_error _).bind_error _) rfl
      | none =>
          have hlist : Returns hazards (Job.list (w.dirAt below)) tree _ tree :=
            (logs_access habort _).returns
          have hhalt : Returns hazards (w.halt visit s (.dir below)) tree s tree :=
            hlist.bind (returns_pure s)
          rw [← hshape.list_eq] at hlist
          rw [attempt_calm (passable_of_abort? habort)]
          cases hattempt : attempt hazards .list (w.dirAt below) (start.list (w.dirAt below)) with
          | error fault =>
              rw [hattempt] at hlist
              exact (hlist.bind ((returns_reportFault fault).bind (returns_pure s))).relates
                (hhalt.bind (returns_pure s)) ⟨rfl, rfl, hshape⟩
          | ok listing =>
              rw [hattempt] at hlist
              have hfiles := alike_visitFiles (w := w) htidy below listing.files s
              have hdirs (s : σ) := alike_foldlM_flatMap
                (fun dir (_ : dir ∈ w.entered below listing.dirs) s => ih (below ++ [dir.1]) s) s
              have hboth := hfiles.bind hdirs
              rw [← List.foldlM_append] at hboth
              exact hlist.bind_relates ((returns_siftDirs below listing.dirs).bind_relates
                (hhalt.relates_bind (hboth tree hshape)))

theorem exists_ends_walk (w : Walker) (s : σ) :
    ∃ result after, Ends hazards (w.walk visit s) start result after ∧
      Ends hazards ((w.itinerary (calm hazards) start).foldlM (w.halt visit) s) start result
        after := by
  have hboth := alike_walkDir (w := w) htidy (start.depth + 1) [] s
  obtain ⟨result, after, hwalk, hstops⟩ := hboth.exists_ends (.refl start)
  exact ⟨result, after, logs_tree.returns.bind hwalk, hstops⟩

theorem halt_cases (w : Walker) {tree : FileTree} (hshape : start.SameShape tree) (s : σ)
    (stop : Stop) :
    (∃ abort, Ends hazards (w.halt visit s stop) tree (.error abort) tree) ∨
      ∃ s' after, Returns hazards (w.halt visit s stop) tree s' after ∧
        Visits visit hazards stop.path?.toList s tree s' after := by
  cases stop with
  | dir below =>
      cases habort : abort? hazards .list (w.dirAt below) with
      | some abort => exact .inl ⟨abort, (ends_access habort _).bind_error _⟩
      | none =>
          exact .inr ⟨s, tree, (logs_access habort _).returns.bind (returns_pure s), .nil s tree⟩
  | file path =>
      obtain ⟨result, after, _, ⟨hafter, hends⟩, -⟩ := (htidy s path tree hshape).ends
      cases result with
      | error abort => exact .inl ⟨abort, hafter ▸ hends⟩
      | ok s' => exact .inr ⟨s', after, hends, .cons hends hafter (.nil s' after)⟩

theorem halts_cases (w : Walker) {stops : List Stop} {tree : FileTree}
    (hshape : start.SameShape tree) (s : σ) :
    (∃ s' after, Returns hazards (stops.foldlM (w.halt visit) s) tree s' after) ∨
      ∃ done stop ahead s' after abort, stops = done ++ stop :: ahead ∧
        Visits visit hazards (Stop.paths done) s tree s' after ∧
        Ends hazards (w.halt visit s' stop) after (.error abort) after ∧
        Ends hazards (stops.foldlM (w.halt visit) s) tree (.error abort) after := by
  induction stops generalizing s tree with
  | nil => exact .inl ⟨s, tree, returns_pure s⟩
  | cons stop stops ih =>
      rw [List.foldlM_cons]
      rcases halt_cases htidy w hshape s stop with ⟨abort, hends⟩ | ⟨s₁, tree₁, hhalt, hvisits⟩
      · exact .inr ⟨[], stop, stops, s, tree, abort, rfl, .nil s tree, hends, hends.bind_error _⟩
      · rcases ih (hshape.trans hvisits.sameShape) s₁ with
          ⟨s', after, hrest⟩ | ⟨done, next, ahead, s', after, abort, rfl, hdone, hnext, hends⟩
        · exact .inl ⟨s', after, hhalt.bind hrest⟩
        · refine .inr ⟨stop :: done, next, ahead, s', after, abort, rfl, ?_, hnext,
            hhalt.bind hends⟩
          simpa using hvisits.append hdone

/-- A walk that is broken off has made its stops up to the one at which that happens. -/
theorem exists_stop_of_walk {w : Walker} {s : σ} {abort : Abort} {after : FileTree}
    (h : Ends hazards (w.walk visit s) start (.error abort) after) :
    ∃ done stop ahead s', w.itinerary (calm hazards) start = done ++ stop :: ahead ∧
      Visits visit hazards (Stop.paths done) s start s' after ∧
      Ends hazards (w.halt visit s' stop) after (.error abort) after := by
  obtain ⟨result, last, hwalk, hstops⟩ := exists_ends_walk htidy w s
  obtain ⟨rfl, rfl⟩ := h.unique hwalk
  rcases halts_cases htidy w (.refl start) s with
    ⟨s', last, hreturns⟩ | ⟨done, stop, ahead, s', last, abort', hsplit, hdone, hstop, hends⟩
  · cases (hstops.unique hreturns).1
  · obtain ⟨hresult, rfl⟩ := hstops.unique hends
    cases hresult
    exact ⟨done, stop, ahead, s', hsplit, hdone, hstop⟩

end

end CommentSweep.Walker
