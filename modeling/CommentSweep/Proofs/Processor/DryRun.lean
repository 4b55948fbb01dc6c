import CommentSweep.Report
import CommentSweep.Proofs.Job.Relates
import CommentSweep.Proofs.Processor.Effect

/-!
What processors do to the tree, and processors that only try. Such a one leaves the tree alone. It
says of every file what a processor that writes says of it, as long as no write fails and the paths
lead to different files.
-/

namespace CommentSweep

open Disk

inductive Outcome.Mirrors : Outcome → Outcome → Prop
  | same {outcome : Outcome} (h : outcome.status ∈ [.skipped, .unchanged, .error]) :
      Mirrors outcome outcome
  | written (path : Path) : Mirrors ⟨path, .changed, none⟩ ⟨path, .written, none⟩

/-- The reports of a dry run and of a real one. They count the same, but no file of the dry run is
written, while all changed files of the real one are. -/
structure Report.Mirrors (dry real : Report) : Prop where
  seen : dry.seen = real.seen
  skipped : dry.skipped = real.skipped
  unchanged : dry.unchanged = real.unchanged
  changed : dry.changed = real.changed
  changedPaths : dry.changedPaths = real.changedPaths
  errors : dry.errors = real.errors
  unwritten : dry.written = 0
  written : real.written = real.changed

theorem Report.Mirrors.record {dry real : Report} (h : dry.Mirrors real)
    {outcome outcome' : Outcome} (houtcome : outcome.Mirrors outcome') :
    (dry.record outcome).Mirrors (real.record outcome') := by
  cases houtcome with
  | same hstatus =>
      simp only [List.mem_cons, List.not_mem_nil, or_false] at hstatus
      rcases hstatus with hstatus | hstatus | hstatus
      all_goals
        simp only [Report.record, Report.addError, hstatus]
        constructor <;> simp [h.seen, h.skipped, h.unchanged, h.changed, h.changedPaths, h.errors,
          h.unwritten, h.written]
  | written path =>
      simp only [Report.record]
      constructor <;> simp [h.seen, h.skipped, h.unchanged, h.changed, h.changedPaths, h.errors,
        h.unwritten, h.written]

namespace Processor

variable {p q : Processor} {hazards : List Hazard} {tree : FileTree} {path : Path}

theorem verdict_written?_of_dryRun (hdry : p.dryRun = true) (source : Except SystemFault Bytes) :
    (p.verdict hazards path source).written? = none := by
  have hsettle (t : Transformed) : (p.settleVerdict hazards path t).written? = none := by
    rw [settleVerdict, hdry]
    cases t.changed <;> rfl
  cases source with
  | error fault => exact verdict_error_written? fault
  | ok bytes =>
      cases hallowed : Extension.isAllowed p.allowed path with
      | false => rw [verdict_skipped hazards hallowed]
      | true =>
          cases hdecode : Text.Utf8.decode bytes with
          | error fault => rw [verdict_undecodable hazards hallowed hdecode]
          | ok raw =>
              rw [verdict_decoded hazards hallowed hdecode]
              exact hsettle _

theorem effect_of_dryRun (hdry : p.dryRun = true) (hazards : List Hazard) (tree : FileTree)
    (path : Path) : p.effect hazards tree path = tree := by
  rw [effect, Verdict.carryOut, verdictIn, verdict_written?_of_dryRun hdry]

theorem upholds_store {I : FileTree → Prop}
    (hwrite : ∀ bytes tree after, I tree → tree.overwrite path bytes = .ok after → I after)
    (shown : String) (content : Text) : Job.Upholds I (store path shown content) := by
  refine (Job.upholds_overwrite hwrite).bind fun stored => ?_
  cases stored with
  | error fault =>
      exact Job.upholds_of_returns fun _ _ => (Job.returns_say _).bind (Job.returns_pure _)
  | ok u => exact Job.upholds_of_returns fun _ _ => (Job.returns_say _).bind (Job.returns_pure _)

theorem upholds_settle {I : FileTree → Prop}
    (hwrite : p.dryRun = false →
      ∀ bytes tree after, I tree → tree.overwrite path bytes = .ok after → I after)
    (shown : String) (t : Transformed) : Job.Upholds I (p.settle path shown t) := by
  rw [settle]
  split
  · exact Job.upholds_pure _
  · split
    · exact Job.upholds_of_returns fun _ _ => (Job.returns_say _).bind (Job.returns_pure _)
    · next hreal => exact upholds_store (hwrite (Bool.not_eq_true _ ▸ hreal)) shown t.content

theorem upholds_judge {I : FileTree → Prop}
    (hwrite : p.dryRun = false →
      ∀ bytes tree after, I tree → tree.overwrite path bytes = .ok after → I after)
    (registry : Registry) (source : Except SystemFault Bytes) :
    Job.Upholds I (p.judge registry path source) := by
  cases source with
  | error fault =>
      exact Job.upholds_of_returns fun _ _ =>
        (returns_unreadable _ fault).bind (Job.returns_pure _)
  | ok bytes =>
      unfold judge
      simp only
      split
      · exact Job.upholds_of_returns fun _ _ =>
          (returns_undecodable _ _).bind (Job.returns_pure _)
      · split
        · exact Job.Keeps.upholds fun _ _ => Job.ensures_throw rfl
        · exact (upholds_settle hwrite _ _).bind fun _ => Job.upholds_pure _

/-- All that a processor does to the tree is one write, to a path with an allowed extension, unless
it only tries. So it is whatever the registry does and wherever the processor is broken off. -/
theorem upholds_process {I : FileTree → Prop}
    (hwrite : Extension.isAllowed p.allowed path = true → p.dryRun = false →
      ∀ bytes tree after, I tree → tree.overwrite path bytes = .ok after → I after)
    (registry : Registry) : Job.Upholds I (p.process registry path) := by
  rw [process_eq]
  split
  · next hallowed =>
      refine Job.Upholds.bind ?_ (upholds_judge (hwrite hallowed) registry)
      exact Job.Keeps.upholds (Job.keeps_access .read path _)
  · exact Job.upholds_pure _

theorem keeps_process (hdry : p.dryRun = true) (registry : Registry) (path : Path) :
    Job.Keeps (p.process registry path) := by
  apply Job.keeps_of_upholds
  intro tree
  apply upholds_process
  intro _ hreal
  rw [hdry] at hreal
  cases hreal

/-- Two processors for the same extensions return or are broken off together, whatever their files
hold: what breaks them off are hazards in the way of reading. -/
theorem alongside_process {t u : FileTree} (hallowed : p.allowed = q.allowed)
    (hwell : t.WellFormed) (hwell' : u.WellFormed) (hwrite : Job.Passable hazards .write path)
    {r r' : Registry} (hstandard : r.IsStandard) (hstandard' : r'.IsStandard) :
    Job.Alongside True hazards (p.process r path) t (q.process r' path) u fun a b t' u' =>
      (a.1 = (p.verdictIn hazards t path).outcome ∧ a.2.IsStandard ∧
        t' = p.effect hazards t path) ∧
      (b.1 = (q.verdictIn hazards u path).outcome ∧ b.2.IsStandard ∧
        u' = q.effect hazards u path) := by
  rw [process_eq, process_eq, ← hallowed]
  simp only [effect, verdictIn]
  cases hskip : Extension.isAllowed p.allowed path with
  | false =>
      rw [verdict_skipped hazards hskip, verdict_skipped hazards (hallowed ▸ hskip)]
      exact Job.alongside_pure ⟨⟨rfl, hstandard, rfl⟩, rfl, hstandard', rfl⟩
  | true =>
      refine Job.alongside_access.bind fun source source' t' u' hread => ?_
      obtain ⟨hpass, rfl, rfl, rfl, rfl⟩ := hread
      have hfile {tree : FileTree} (hwell : tree.WellFormed) (bytes : Bytes)
          (hsource : Job.attempt hazards .read path (tree.read path) = .ok bytes) :
          tree.read path = .ok bytes ∧ path.isNullFree := by
        have hfound := ((Job.attempt_eq_ok_iff hpass _ bytes).mp hsource).2
        exact ⟨hfound, nullFree_of_read hwell hfound⟩
      obtain ⟨next, hnext, hjudge⟩ := returns_judge hskip (hfile hwell)
        (fun _ _ _ _ _ _ => hwrite) hstandard
      obtain ⟨next', hnext', hjudge'⟩ := returns_judge (hallowed ▸ hskip) (hfile hwell')
        (fun _ _ _ _ _ _ => hwrite) hstandard'
      exact hjudge.alongside hjudge' ⟨⟨rfl, hnext, rfl⟩, rfl, hnext', rfl⟩

@[simp] theorem outcomes_append (p : Processor) (hazards : List Hazard) (tree : FileTree)
    (paths paths' : List Path) :
    p.outcomes hazards tree (paths ++ paths') =
      p.outcomes hazards tree paths ++
        p.outcomes hazards (paths.foldl (p.effect hazards) tree) paths' := by
  induction paths generalizing tree with
  | nil => rfl
  | cons path paths ih =>
      rw [List.cons_append, outcomes, ih, outcomes, List.cons_append, List.foldl_cons]

theorem read_effect_of_not_sameFile (hwell : tree.WellFormed) {other : Path}
    (h : ¬tree.SameFile path other) :
    (p.effect hazards tree path).read other = tree.read other := by
  have hshape : tree.SameShape (p.effect hazards tree path) := sameShape_effect hwell path
  apply FileTree.read_congr (hshape.locate_eq other).symm
  intro location hother
  rw [← hshape.locate_eq] at hother
  rcases p.effect_cases hazards tree path with heq | ⟨place, old, new, hplace, hfile, -, heq⟩
  · rw [heq]
  · have hne : location ≠ place := by
      rintro rfl
      exact h ⟨location, old, hplace, hother, hfile⟩
    rw [heq, FileTree.get?_put_file hfile, if_neg hne]

section

variable {dry real : Processor} (hdry : dry.dryRun = true) (hreal : real.dryRun = false)
  (hallowed : dry.allowed = real.allowed)

include hdry hreal hallowed

theorem mirrors_verdict (hwrite : Job.Clear hazards .write path)
    (source : Except SystemFault Bytes) :
    (dry.verdict hazards path source).outcome.Mirrors
      (real.verdict hazards path source).outcome := by
  have hopened := Job.opened_eq_ok_iff.mpr hwrite.not_barred
  cases hskip : Extension.isAllowed dry.allowed path with
  | false =>
      rw [verdict_skipped hazards hskip, verdict_skipped hazards (hallowed ▸ hskip)]
      exact .same (by simp)
  | true =>
      have hskip' : Extension.isAllowed real.allowed path = true := hallowed ▸ hskip
      cases source with
      | error fault =>
          rw [verdict_unreadable hazards hskip, verdict_unreadable hazards hskip']
          exact .same (status_unreadableOutcome path fault)
      | ok bytes =>
          cases hdecode : Text.Utf8.decode bytes with
          | error fault =>
              rw [verdict_undecodable hazards hskip hdecode,
                verdict_undecodable hazards hskip' hdecode]
              exact .same (by simp)
          | ok raw =>
              rw [verdict_decoded hazards hskip hdecode, verdict_decoded hazards hskip' hdecode,
                settleVerdict, settleVerdict, hdry, hreal]
              cases (transformed path raw).changed with
              | false => exact .same (by simp)
              | true =>
                  rw [storeVerdict, hopened, hwrite.strike?_eq_none]
                  exact .written path

theorem mirrors_outcomes (hwrite : ∀ path, Job.Clear hazards .write path) {u : FileTree}
    (hwell : u.WellFormed) {paths : List Path} (hapart : u.LeadsApart paths)
    (hread : ∀ path ∈ paths, u.read path = tree.read path) {r r' : Report}
    (hreports : r.Mirrors r') :
    ((dry.outcomes hazards tree paths).foldl Report.record r).Mirrors
      ((real.outcomes hazards u paths).foldl Report.record r') := by
  induction paths generalizing u r r' with
  | nil => exact hreports
  | cons path paths ih =>
      obtain ⟨hpath, hpaths⟩ := List.forall_mem_cons.mp hread
      obtain ⟨hfirst, hrest⟩ := List.pairwise_cons.mp hapart
      have hshape : u.SameShape (real.effect hazards u path) := sameShape_effect hwell path
      have hverdict := mirrors_verdict hdry hreal hallowed (hwrite path)
        (Job.attempt hazards .read path (tree.read path))
      simp only [outcomes, List.foldl_cons, effect_of_dryRun hdry, verdictIn, hpath]
      apply ih (hshape.wellFormed hwell) (hshape.leadsApart hrest)
      · intro other hother
        rw [read_effect_of_not_sameFile hwell (hfirst other hother), hpaths other hother]
      · exact hreports.record hverdict

end

end Processor

end CommentSweep
