import CommentSweep.Proofs.Processor.Changed
import CommentSweep.Proofs.Processor.DryRun
import Mathlib

/-!
Orders of processing. Paths of which no two lead to one file can be processed in any order: neither
what each of them comes to nor the tree in the end depends on it, although they share a registry
that fills up on the way.
-/

namespace CommentSweep

open Disk

namespace Job

variable {hazards : List Hazard} {tree after : FileTree}

def result (job : Job α) : Job (Except Abort α) :=
  ExceptT.lift job.run

theorem Ends.returns_result {job : Job α} {r : Except Abort α} (h : Ends hazards job tree r after) :
    Returns hazards job.result tree r after := by
  obtain ⟨_, _, records, ⟨rfl, rfl⟩, hrun⟩ := h
  refine ⟨_, _, records, ⟨rfl, rfl⟩, fun log => ?_⟩
  change (match job.run.run ⟨tree, hazards, log⟩ with
    | (r, world) => ((.ok r, world) : Except Abort (Except Abort α) × World)) = _
  rw [hrun]

end Job

namespace Processor

variable {p : Processor} {hazards : List Hazard} {tree : FileTree} {path other : Path}

theorem exists_file_of_written {new : Bytes}
    (h : (p.verdictIn hazards tree path).written? = some new) :
    ∃ location old, tree.locate path = .ok location ∧ tree.get? location = some (.file old) := by
  rw [verdictIn] at h
  cases hread : Job.attempt hazards .read path (tree.read path) with
  | error fault =>
      rw [hread, verdict_error_written?] at h
      cases h
  | ok old =>
      obtain ⟨location, hlocate, hfile⟩ := FileTree.read_eq_ok_iff.mp (Job.ok_of_attempt hread)
      exact ⟨location, old, hlocate, hfile⟩

theorem verdictIn_effect (hwell : tree.WellFormed) (h : ¬tree.SameFile path other) :
    p.verdictIn hazards (p.effect hazards tree path) other = p.verdictIn hazards tree other := by
  rw [verdictIn, read_effect_of_not_sameFile hwell h, ← verdictIn]

theorem effect_comm (hwell : tree.WellFormed) (h : ¬tree.SameFile path other) :
    p.effect hazards (p.effect hazards tree path) other =
      p.effect hazards (p.effect hazards tree other) path := by
  have hother : p.verdictIn hazards (p.effect hazards tree path) other = _ :=
    verdictIn_effect hwell h
  have hpath : p.verdictIn hazards (p.effect hazards tree other) path = _ :=
    verdictIn_effect hwell fun hsame => h hsame.symm
  cases hfirst : (p.verdictIn hazards tree path).written? with
  | none =>
      have hkept := effect_of_not_written (hpath.symm ▸ hfirst)
      rw [effect_of_not_written hfirst, hkept]
  | some new =>
      cases hsecond : (p.verdictIn hazards tree other).written? with
      | none =>
          have hkept := effect_of_not_written (hother.symm ▸ hsecond)
          rw [effect_of_not_written hsecond, hkept]
      | some new' =>
          obtain ⟨place, old, hplace, hfile⟩ := exists_file_of_written hfirst
          obtain ⟨place', old', hplace', hfile'⟩ := exists_file_of_written hsecond
          have hne : place ≠ place' := by
            rintro rfl
            exact h ⟨place, old, hplace, hplace', hfile⟩
          rw [effect_of_written hfirst hplace hfile] at hother ⊢
          rw [effect_of_written hsecond hplace' hfile'] at hpath ⊢
          have hkept : (tree.put place (.file new)).get? place' = some (.file old') := by
            rw [FileTree.get?_put_file hfile, if_neg hne.symm, hfile']
          have hkept' : (tree.put place' (.file new')).get? place = some (.file old) := by
            rw [FileTree.get?_put_file hfile', if_neg hne, hfile]
          rw [(hwell.sameShape_put hfile new).locate_eq] at hplace'
          rw [(hwell.sameShape_put hfile' new').locate_eq] at hplace
          rw [effect_of_written (hother ▸ hsecond) hplace' hkept,
            effect_of_written (hpath ▸ hfirst) hplace hkept']
          exact FileTree.put_comm hne hfile hfile' new new'

theorem foldl_effect_perm {paths order : List Path} (hperm : paths.Perm order)
    (hwell : tree.WellFormed) (hapart : tree.LeadsApart paths) :
    paths.foldl (p.effect hazards) tree = order.foldl (p.effect hazards) tree := by
  induction hperm generalizing tree with
  | nil => rfl
  | cons path _ ih =>
      have hshape : tree.SameShape (p.effect hazards tree path) := sameShape_effect hwell path
      obtain ⟨-, hrest⟩ := List.pairwise_cons.mp hapart
      exact ih (hshape.wellFormed hwell) (hshape.leadsApart hrest)
  | swap path other rest =>
      obtain ⟨hfirst, -⟩ := List.pairwise_cons.mp hapart
      simp only [List.foldl_cons]
      rw [effect_comm hwell (hfirst path (by simp))]
  | trans hfirst _ ih ih' =>
      rw [ih hwell hapart, ih' hwell (hapart.perm hfirst)]

/-- What a path comes to among faults of the system. Only a path that the system does not take
breaks the work off, and only if it is to be read. -/
def answerIn (p : Processor) (hazards : List Hazard) (tree : FileTree) (path : Path) :
    Except Abort Outcome :=
  match Extension.isAllowed p.allowed path, Job.abort? hazards .read path with
  | true, some abort => .error abort
  | _, _ => .ok (p.verdictIn hazards tree path).outcome

theorem answerIn_of_nullFree (p : Processor) (hmild : Job.Mild hazards) (tree : FileTree)
    (hnull : path.isNullFree) :
    p.answerIn hazards tree path = .ok (p.verdictIn hazards tree path).outcome := by
  rw [answerIn, Job.abort?_eq_none (hmild.passable .read path) hnull]
  cases Extension.isAllowed p.allowed path <;> rfl

theorem answerIn_effect (hwell : tree.WellFormed) (h : ¬tree.SameFile path other) :
    p.answerIn hazards (p.effect hazards tree path) other = p.answerIn hazards tree other := by
  rw [answerIn, verdictIn_effect hwell h, ← answerIn]

theorem effect_of_null (hwell : tree.WellFormed) (hnull : path.isNullFree = false) :
    p.effect hazards tree path = tree := by
  apply effect_of_not_written
  rw [Option.eq_none_iff_forall_ne_some]
  intro new hwritten
  obtain ⟨location, -, hlocate, -⟩ := exists_file_of_written hwritten
  rw [Path.isNullFree_of_locate hwell hlocate] at hnull
  cases hnull

theorem ends_process_answerIn (hmild : Job.Mild hazards) (hwell : tree.WellFormed)
    {registry : Registry} (hstandard : registry.IsStandard) (path : Path) :
    ∃ next, next.IsStandard ∧
      Job.Ends hazards (p.process registry path) tree
        ((p.answerIn hazards tree path).map (·, next)) (p.effect hazards tree path) := by
  cases hnull : path.isNullFree with
  | true =>
      rw [answerIn_of_nullFree p hmild tree hnull]
      exact returns_process (hmild.passable .read path) (fun _ => hmild.passable .write path) hnull
        hstandard
  | false =>
      rw [process_eq, answerIn]
      cases hallowed : Extension.isAllowed p.allowed path with
      | false =>
          rw [effect_of_null hwell hnull, verdictIn, verdict_skipped hazards hallowed]
          exact ⟨registry, hstandard, Job.returns_pure _⟩
      | true =>
          cases habort : Job.abort? hazards .read path with
          | some abort =>
              rw [effect_of_null hwell hnull]
              exact ⟨registry, hstandard, (Job.ends_access habort _).bind_error _⟩
          | none =>
              have hread : Job.Returns hazards (Job.read path) tree
                  (Job.attempt hazards .read path (tree.read path)) tree :=
                (Job.logs_access habort (·.read path)).returns
              obtain ⟨next, hnext, hjudge⟩ := returns_judge hallowed
                (fun bytes hsource =>
                  have hfile := Job.ok_of_attempt hsource
                  ⟨hfile, nullFree_of_read hwell hfile⟩)
                (fun _ _ _ _ _ _ => hmild.passable .write path) hstandard
              exact ⟨next, hnext, hread.bind hjudge⟩

/-- Processes paths one after another, each with the registry that the one before it left behind. A
path that breaks the work off leaves the registry as it was, and the next one is processed all the
same. -/
def processEach (p : Processor) (registry : Registry) :
    List Path → Job (List (Except Abort Outcome))
  | [] => return []
  | path :: paths => do
      match ← (p.process registry path).result with
      | .ok (outcome, next) => return .ok outcome :: (← p.processEach next paths)
      | .error abort => return .error abort :: (← p.processEach registry paths)

theorem returns_processEach (hmild : Job.Mild hazards) (hwell : tree.WellFormed)
    {registry : Registry} (hstandard : registry.IsStandard) {paths : List Path}
    (hapart : tree.LeadsApart paths) :
    Job.Returns hazards (p.processEach registry paths) tree (paths.map (p.answerIn hazards tree))
      (paths.foldl (p.effect hazards) tree) := by
  induction paths generalizing tree registry with
  | nil => exact Job.returns_pure []
  | cons path paths ih =>
      obtain ⟨hfirst, hrest⟩ := List.pairwise_cons.mp hapart
      have hshape : tree.SameShape (p.effect hazards tree path) := sameShape_effect hwell path
      have hsame : paths.map (p.answerIn hazards (p.effect hazards tree path)) =
          paths.map (p.answerIn hazards tree) :=
        List.map_congr_left fun other hother => answerIn_effect hwell (hfirst other hother)
      obtain ⟨next, hnext, hends⟩ := ends_process_answerIn (p := p) hmild hwell hstandard path
      have hrun {registry : Registry} (hstandard : registry.IsStandard) :=
        ih (hshape.wellFormed hwell) hstandard (hshape.leadsApart hrest)
      rw [hsame] at hrun
      rw [processEach, List.map_cons, List.foldl_cons]
      refine hends.returns_result.bind ?_
      cases hanswer : p.answerIn hazards tree path with
      | error abort => exact (hrun hstandard).bind (Job.returns_pure _)
      | ok outcome => exact (hrun hnext).bind (Job.returns_pure _)

/-- The order of processing does not matter among faults of the system, if no two of the paths lead
to one file. In every order a path comes to what it comes to alone, and the tree in the end is the
same. -/
theorem order_does_not_matter (p : Processor) {registry : Registry}
    (hstandard : registry.IsStandard) (hmild : Job.Mild hazards) (hwell : tree.WellFormed)
    {paths : List Path} (hapart : tree.LeadsApart paths) :
    ∃ (answer : Path → Except Abort Outcome) (after : FileTree),
      (∀ path, ∃ next alone, Job.Ends hazards (p.process registry path) tree
        ((answer path).map (·, next)) alone) ∧
      (∀ path, path.isNullFree → ∃ outcome, answer path = .ok outcome) ∧
      ∀ order, paths.Perm order →
        Job.Returns hazards (p.processEach registry order) tree (order.map answer) after := by
  refine ⟨p.answerIn hazards tree, paths.foldl (p.effect hazards) tree, ?_, ?_, ?_⟩
  · intro path
    obtain ⟨next, -, hends⟩ := ends_process_answerIn hmild hwell hstandard path
    exact ⟨next, _, hends⟩
  · intro path hnull
    exact ⟨_, answerIn_of_nullFree p hmild tree hnull⟩
  · intro order hperm
    rw [foldl_effect_perm hperm hwell hapart]
    exact returns_processEach hmild hwell hstandard (hapart.perm hperm)

theorem order_does_not_matter_two_files :
    let p : Processor := ⟨[".js", ".py"], none, false⟩
    let first : Path := ⟨.root, ["a.js"]⟩
    let second : Path := ⟨.root, ["b.py"]⟩
    let tree : FileTree :=
      ⟨[(["a.js"], .file [120, 47, 47, 121]), (["b.py"], .file [120, 35, 121])]⟩
    let hazards : List Hazard := [⟨second, .write, .system .permission true⟩]
    Job.Mild hazards ∧ tree.WellFormed ∧ tree.LeadsApart [first, second] ∧
      ∃ outcome outcome' after,
        Job.Returns hazards (p.processEach .standard [first, second]) tree
          [.ok outcome, .ok outcome'] after ∧
        Job.Returns hazards (p.processEach .standard [second, first]) tree
          [.ok outcome', .ok outcome] after := by
  intro p first second tree hazards
  have hmild : Job.Mild hazards := by decide
  have hwell : tree.WellFormed := by decide
  have hfirst : tree.locate first = .ok ["a.js"] := by cbv
  have hsecond : tree.locate second = .ok ["b.py"] := by cbv
  have hapart : tree.LeadsApart [first, second] := by
    rw [FileTree.LeadsApart, List.pairwise_pair]
    rintro ⟨location, bytes, hlocate, hlocate', -⟩
    rw [hfirst, Except.ok.injEq] at hlocate
    rw [hsecond, ← hlocate] at hlocate'
    simp at hlocate'
  obtain ⟨answer, after, -, hanswer, horder⟩ :=
    order_does_not_matter p Registry.isStandard_standard hmild hwell hapart
  obtain ⟨outcome, houtcome⟩ := hanswer first (by decide)
  obtain ⟨outcome', houtcome'⟩ := hanswer second (by decide)
  have hforth := horder [first, second] (.refl _)
  have hback := horder [second, first] (.swap second first [])
  simp only [List.map_cons, List.map_nil, houtcome, houtcome'] at hforth hback
  exact ⟨hmild, hwell, hapart, outcome, outcome', after, hforth, hback⟩

end Processor

end CommentSweep
