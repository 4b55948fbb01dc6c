import CommentSweep.Proofs.Run.Sweep
import Mathlib

/-!
What reports say. A report counts every outcome that is recorded in it exactly once. The report of a
run has an outcome for every path that the walker yields, in their order.
-/

namespace CommentSweep

open Disk

def Status.isChange : Status → Bool
  | .skipped => false
  | .unchanged => false
  | .error => false
  | _ => true

namespace Report

variable {r : Report} {outcomes : List Outcome}

structure Tallies (r : Report) (outcomes : List Outcome) : Prop where
  seen : r.seen = outcomes.length
  skipped : r.skipped = outcomes.countP (·.status == .skipped)
  unchanged : r.unchanged = outcomes.countP (·.status == .unchanged)
  changed : r.changed = outcomes.countP (·.status.isChange)
  written : r.written = outcomes.countP (·.status == .written)
  changedPaths : r.changedPaths = (outcomes.filter (·.status.isChange)).map (·.path.toString)
  errors : r.errors = (outcomes.filter (·.status == .error)).map errorOf

theorem tallies_nil (started : Reading) (root : String) (dryRun : Bool) :
    Tallies { started, root, dryRun } [] := by
  constructor <;> rfl

theorem Tallies.record (h : r.Tallies outcomes) (outcome : Outcome) :
    (r.record outcome).Tallies (outcomes ++ [outcome]) := by
  obtain ⟨path, status, message?⟩ := outcome
  cases status <;> constructor <;>
    simp [Report.record, addError, Status.isChange, h.seen, h.skipped, h.unchanged, h.changed,
      h.written, h.changedPaths, h.errors]

theorem Tallies.foldl {before : List Outcome} (h : r.Tallies before) (outcomes : List Outcome) :
    (outcomes.foldl Report.record r).Tallies (before ++ outcomes) := by
  induction outcomes generalizing r before with
  | nil =>
      rw [List.append_nil]
      exact h
  | cons outcome outcomes ih =>
      rw [List.append_cons]
      exact ih (h.record outcome)

theorem Tallies.finish (h : r.Tallies outcomes) (time : Reading) :
    (r.finish time).Tallies outcomes where
  seen := h.seen
  skipped := h.skipped
  unchanged := h.unchanged
  changed := h.changed
  written := h.written
  changedPaths := h.changedPaths
  errors := h.errors

structure Balanced (r : Report) : Prop where
  seen : r.seen = r.skipped + r.unchanged + r.changed + r.errors.length
  changedPaths : r.changedPaths.length = r.changed
  written : r.written ≤ r.changed

theorem length_eq_sum_countP (outcomes : List Outcome) :
    outcomes.length = outcomes.countP (·.status == .skipped) +
      outcomes.countP (·.status == .unchanged) + outcomes.countP (·.status.isChange) +
      outcomes.countP (·.status == .error) := by
  induction outcomes with
  | nil => rfl
  | cons outcome outcomes ih =>
      have hone : (if outcome.status == .skipped then 1 else 0) +
          (if outcome.status == .unchanged then 1 else 0) +
          (if outcome.status.isChange then 1 else 0) +
          (if outcome.status == .error then 1 else 0) = 1 := by
        cases outcome.status <;> rfl
      simp only [List.length_cons, List.countP_cons]
      omega

theorem Tallies.balanced (h : r.Tallies outcomes) : r.Balanced where
  seen := by
    rw [h.seen, h.skipped, h.unchanged, h.changed, h.errors, List.length_map,
      ← List.countP_eq_length_filter]
    exact length_eq_sum_countP outcomes
  changedPaths := by
    rw [h.changedPaths, h.changed, List.length_map, List.countP_eq_length_filter]
  written := by
    rw [h.written, h.changed]
    apply List.countP_mono_left
    intro outcome _ hwritten
    rw [beq_iff_eq] at hwritten
    rw [hwritten]
    rfl

theorem exists_errorOf (outcome : Outcome) :
    ∃ why, why ≠ "" ∧ errorOf outcome = outcome.path.toString ++ ": " ++ why := by
  rw [errorOf]
  split
  · exact ⟨_, by decide, rfl⟩
  · next hmessage => exact ⟨_, by simpa using hmessage, rfl⟩

end Report

namespace Processor

/-- The outcome is about the path, and if it is a change it is the one that the processor makes. -/
structure Gives (p : Processor) (path : Path) (outcome : Outcome) : Prop where
  path : outcome.path = path
  status : outcome.status.isChange = true →
    outcome.status = if p.dryRun then .changed else .written

variable {p : Processor} {hazards : List Hazard}

theorem gives_of_not_isChange {path : Path} {outcome : Outcome} (hpath : outcome.path = path)
    (h : outcome.status.isChange = false) : p.Gives path outcome := by
  refine ⟨hpath, fun hchange => ?_⟩
  rw [h] at hchange
  cases hchange

theorem gives_unreadableOutcome (path : Path) (fault : SystemFault) :
    p.Gives path (unreadableOutcome path fault) := by
  rw [unreadableOutcome]
  split <;> exact gives_of_not_isChange rfl rfl

theorem gives_settleVerdict (path : Path) (t : Transformed) :
    p.Gives path (p.settleVerdict hazards path t).outcome := by
  rw [settleVerdict]
  split
  · exact gives_of_not_isChange rfl rfl
  · split
    · next hdry => exact ⟨rfl, fun _ => (if_pos hdry).symm⟩
    · next hreal =>
        rw [storeVerdict]
        split
        · exact gives_of_not_isChange rfl rfl
        · cases Job.written (Job.strike? hazards .write path) with
          | error fault => exact gives_of_not_isChange rfl rfl
          | ok u => exact ⟨rfl, fun _ => (if_neg hreal).symm⟩

theorem gives_verdict (path : Path) (source : Except SystemFault Bytes) :
    p.Gives path (p.verdict hazards path source).outcome := by
  rw [verdict.eq_def]
  split
  · exact gives_of_not_isChange rfl rfl
  · split
    · exact gives_unreadableOutcome path _
    · split
      · exact gives_of_not_isChange rfl rfl
      · exact gives_settleVerdict path _

@[simp] theorem map_path_outcomes (tree : FileTree) (paths : List Path) :
    (p.outcomes hazards tree paths).map (·.path) = paths := by
  induction paths generalizing tree with
  | nil => rfl
  | cons path paths ih =>
      rw [outcomes, List.map_cons, ih]
      exact congrArg (· :: paths) (gives_verdict path _).path

theorem status_of_mem_outcomes {tree : FileTree} {paths : List Path} {outcome : Outcome}
    (h : outcome ∈ p.outcomes hazards tree paths) (hchange : outcome.status.isChange = true) :
    outcome.status = if p.dryRun then .changed else .written := by
  induction paths generalizing tree with
  | nil => cases h
  | cons path paths ih =>
      rw [outcomes, List.mem_cons] at h
      rcases h with rfl | hlater
      · exact (gives_verdict path _).status hchange
      · exact ih hlater

end Processor

namespace Report

structure AccountsFor (r : Report) (dryRun : Bool) (paths : List Path) (outcomes : List Outcome) :
    Prop where
  balanced : r.Balanced
  covered : outcomes.map (·.path) = paths
  seen : r.seen = paths.length
  changedPaths : r.changedPaths.Sublist (paths.map Path.toString)
  /-- There is one error for each path with such an outcome, and it names the path. -/
  errors : List.Forall₂
    (fun outcome message => ∃ why, why ≠ "" ∧ message = outcome.path.toString ++ ": " ++ why)
    (outcomes.filter (·.status == .error)) r.errors
  written : r.written = if dryRun then 0 else r.changed

theorem Tallies.written_eq {dryRun : Bool} {r : Report} {outcomes : List Outcome}
    (h : r.Tallies outcomes)
    (hchanges : ∀ outcome ∈ outcomes, outcome.status.isChange = true →
      outcome.status = if dryRun then .changed else .written) :
    r.written = if dryRun then 0 else r.changed := by
  rw [h.written, h.changed]
  cases dryRun with
  | true =>
      rw [if_pos rfl, List.countP_eq_zero]
      intro outcome hmem hwritten
      rw [beq_iff_eq] at hwritten
      have hchanged := hchanges outcome hmem (by rw [hwritten]; rfl)
      rw [hwritten] at hchanged
      cases hchanged
  | false =>
      rw [if_neg Bool.false_ne_true]
      apply List.countP_congr
      intro outcome hmem
      rw [beq_iff_eq]
      constructor
      · intro hwritten
        rw [hwritten]
        rfl
      · exact hchanges outcome hmem

theorem Tallies.accountsFor {p : Processor} {hazards : List Hazard} {tree : FileTree}
    {paths : List Path} {r : Report} (h : r.Tallies (p.outcomes hazards tree paths)) :
    r.AccountsFor p.dryRun paths (p.outcomes hazards tree paths) where
  balanced := h.balanced
  covered := Processor.map_path_outcomes tree paths
  seen := by
    rw [h.seen, ← List.length_map (·.path), Processor.map_path_outcomes]
  changedPaths := by
    have hpaths := congrArg (List.map Path.toString)
      (@Processor.map_path_outcomes p hazards tree paths)
    rw [List.map_map] at hpaths
    rw [h.changedPaths, ← hpaths]
    exact List.filter_sublist.map _
  errors := by
    rw [h.errors, List.forall₂_map_right_iff, List.forall₂_same]
    intro outcome _
    exact exists_errorOf outcome
  written := h.written_eq fun _ => Processor.status_of_mem_outcomes

end Report

namespace Run

@[simp] theorem foldl_snoc (outcomes : List Outcome) :
    outcomes.foldl (fun before outcome => before ++ [outcome]) [] = outcomes := by
  rw [List.foldl_append_eq_append, List.nil_append, ← List.flatMap_def, List.flatMap_singleton']

/-- A prepared run completes with a report that accounts for every path that the walker yields. The
counters of a report add up whatever outcomes are recorded in it. -/
theorem run_accounts_for_every_path {argv : List String} {options : Options} {setting : Setting}
    {world : World} {root : Path} {rules : Ignore.Rules} (hargs : Args.parse argv = .ok options)
    (h : Prepared options setting world root rules) :
    (∃ w paths outcomes registry report stdout,
      Job.Returns world.hazards (Walker.ofRoot root (exclusions options) options.verbose) world.tree
        w world.tree ∧
      Job.Returns world.hazards w.files world.tree paths world.tree ∧
      Job.Returns world.hazards
        (w.walk (counting (processor options root) fun before outcome => before ++ [outcome])
          ([], setting.registry))
        world.tree (outcomes, registry) (run argv setting false world).world.tree ∧
      (run argv setting false world).ending = .completed report stdout ∧
      report.AccountsFor options.dryRun paths outcomes) ∧
    ∀ (started : Reading) (name : String) (dryRun : Bool) (outcomes : List Outcome),
      (outcomes.foldl Report.record { started, root := name, dryRun }).Balanced := by
  constructor
  · obtain ⟨registry, hvisits⟩ := h.visits_counting (fun before outcome => before ++ [outcome]) []
    rw [foldl_snoc] at hvisits
    obtain ⟨hending, htree⟩ := run_of_returns hargs h.returns_perform
    have hwalk := Walker.returns_walk h.mild h.wellFormed h.nullFree_root hvisits
    rw [← htree] at hwalk
    refine ⟨_, _, _, registry, _, _, h.returns_ofRoot, h.returns_files, hwalk, hending, ?_⟩
    · apply Report.Tallies.accountsFor (p := processor options root)
      have htallies := (Report.tallies_nil (.real setting.started) root.toString
        options.dryRun).foldl ((processor options root).outcomes world.hazards world.tree
          (yielded options world root rules))
      exact htallies.finish (.real setting.finished)
  · intro started name dryRun outcomes
    exact ((Report.tallies_nil started name dryRun).foldl outcomes).balanced

theorem run_accounts_for_every_path_two_scripts :
    Prepared scriptOptions {} twoScripts ⟨.root, []⟩ [] ∧
      ∃ report stdout,
        (run ["--dir", "/", "--ed", "", "--ef", "", "--ext", "js"] {} false twoScripts).ending =
          .completed report stdout ∧
        report.Balanced ∧ report.seen = 3 ∧ report.written = report.changed := by
  have hprepared := prepared_twoScripts
  have hargs : Args.parse ["--dir", "/", "--ed", "", "--ef", "", "--ext", "js"] =
      .ok scriptOptions := by cbv
  refine ⟨hprepared, ?_⟩
  obtain ⟨⟨w, paths, outcomes, registry, report, stdout, hw, hpaths, -, hending, haccounts⟩, -⟩ :=
    run_accounts_for_every_path hargs hprepared
  obtain rfl := hw.unique hprepared.returns_ofRoot
  obtain rfl := hpaths.unique hprepared.returns_files
  rw [yielded_twoScripts] at haccounts
  exact ⟨report, stdout, hending, haccounts.balanced, haccounts.seen, haccounts.written⟩

end Run

end CommentSweep
