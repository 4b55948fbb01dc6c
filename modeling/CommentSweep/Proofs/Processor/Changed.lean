import CommentSweep.Proofs.Processor.Again
import CommentSweep.Proofs.Registry.Transformed
import Mathlib

/-!
Files that are said to change. A processor that returns says of a file that it was written exactly
if its bytes are others than before, and one that only tries says of a file that it would change
only if writing it would put other bytes there.
-/

namespace CommentSweep

open Disk

namespace Processor

variable {p : Processor} {hazards : List Hazard} {tree : FileTree} {path : Path}
  {registry : Registry}

theorem ends_judge (hreal : p.dryRun = false) {abort : Abort}
    (habort : Job.abort? hazards .write path = some abort) {bytes : Bytes} {raw : Text}
    (hdecode : Text.Utf8.decode bytes = .ok raw)
    (hchanged : (transformed path raw).changed = true) (hstandard : registry.IsStandard) :
    Job.Ends hazards (p.judge registry path (.ok bytes)) tree (.error abort) tree := by
  rw [judge_decoded hstandard hdecode, settle, hchanged, hreal]
  exact ((Job.ends_overwrite habort _).bind_error _).bind_error _

theorem ends_or_returns_process (p : Processor) (hazards : List Hazard) (hwell : tree.WellFormed)
    (path : Path) (hstandard : registry.IsStandard) :
    (¬(Job.Mild hazards ∧ path.isNullFree) ∧
      ∃ abort, Job.Ends hazards (p.process registry path) tree (.error abort) tree) ∨
    ∃ next, Job.Returns hazards (p.process registry path) tree
      ((p.verdictIn hazards tree path).outcome, next) (p.effect hazards tree path) := by
  rw [process_eq, effect, verdictIn]
  cases hallowed : Extension.isAllowed p.allowed path with
  | false =>
      rw [verdict_skipped hazards hallowed]
      exact .inr ⟨registry, Job.returns_pure _⟩
  | true =>
      rw [if_pos rfl]
      cases habort : Job.abort? hazards .read path with
      | some abort =>
          exact .inl ⟨Job.not_mild_of_abort? habort, abort, (Job.ends_access habort _).bind_error _⟩
      | none =>
          have hread : Job.Returns hazards (Job.read path) tree
              (Job.attempt hazards .read path (tree.read path)) tree :=
            (Job.logs_access habort (·.read path)).returns
          by_cases hwrite : p.Due hazards tree path → Job.abort? hazards .write path = none
          · obtain ⟨next, -, hjudge⟩ := returns_judge hallowed
              (fun bytes hsource =>
                have hfile := Job.ok_of_attempt hsource
                ⟨hfile, nullFree_of_read hwell hfile⟩)
              (fun bytes raw hsource hdecode hreal hchanged =>
                Job.passable_of_abort? (hwrite ⟨hreal, bytes, raw, hsource, hdecode, hchanged⟩))
              hstandard
            exact .inr ⟨next, hread.bind hjudge⟩
          · obtain ⟨⟨hreal, bytes, raw, hsource, hdecode, hchanged⟩, hblocked⟩ :=
              Classical.not_imp.mp hwrite
            obtain ⟨abort, habort⟩ := Option.ne_none_iff_exists'.mp hblocked
            rw [hsource] at hread
            exact .inl ⟨Job.not_mild_of_abort? habort, abort,
              hread.bind (ends_judge hreal habort hdecode hchanged hstandard)⟩

inductive Verdict.Fits (p : Processor) (hazards : List Hazard) (path : Path)
    (source : Except SystemFault Bytes) : Verdict → Prop
  | kept {outcome : Outcome} (hstatus : outcome.status ∈ [.skipped, .unchanged, .error]) :
      Fits p hazards path source { outcome }
  | tried {bytes : Bytes} {raw : Text} (hallowed : Extension.isAllowed p.allowed path = true)
      (hdry : p.dryRun = true) (hsource : source = .ok bytes)
      (hdecode : Text.Utf8.decode bytes = .ok raw)
      (hchanged : (transformed path raw).changed = true) :
      Fits p hazards path source { outcome := ⟨path, .changed, none⟩ }
  | struck {fault : SystemFault} {left : Bytes}
      (hstruck : Job.strike? hazards .write path ≠ none) :
      Fits p hazards path source
        { outcome := storedOutcome path (.error fault), written? := some left }
  | wrote {bytes : Bytes} {raw : Text} (hsource : source = .ok bytes)
      (hdecode : Text.Utf8.decode bytes = .ok raw)
      (hchanged : (transformed path raw).changed = true)
      (hstruck : Job.strike? hazards .write path = none) :
      Fits p hazards path source
        { outcome := ⟨path, .written, none⟩
          written? := some (Text.Utf8.encode (Text.finish (transformed path raw).content)) }

theorem fits_verdict (p : Processor) (hazards : List Hazard) (path : Path)
    (source : Except SystemFault Bytes) :
    (p.verdict hazards path source).Fits p hazards path source := by
  cases hallowed : Extension.isAllowed p.allowed path with
  | false =>
      rw [verdict_skipped hazards hallowed]
      exact .kept (by simp)
  | true =>
      cases source with
      | error fault =>
          rw [verdict_unreadable hazards hallowed]
          exact .kept (status_unreadableOutcome path fault)
      | ok bytes =>
          cases hdecode : Text.Utf8.decode bytes with
          | error fault =>
              rw [verdict_undecodable hazards hallowed hdecode]
              exact .kept (by simp)
          | ok raw =>
              rw [verdict_decoded hazards hallowed hdecode, settleVerdict]
              cases hchanged : (transformed path raw).changed with
              | false => exact .kept (by simp)
              | true =>
                  cases hdry : p.dryRun with
                  | true => exact .tried hallowed hdry rfl hdecode hchanged
                  | false =>
                      simp only [Bool.not_true, Bool.false_eq_true, if_false, storeVerdict]
                      split
                      · exact .kept (by simp [storedOutcome])
                      · cases hstruck : Job.strike? hazards .write path with
                        | some struck => exact .struck (by simp [hstruck])
                        | none => exact .wrote rfl hdecode hchanged hstruck

theorem read_ne_of_stored {after : FileTree} {old : Bytes} {raw : Text}
    (hread : tree.read path = .ok old) (hdecode : Text.Utf8.decode old = .ok raw)
    (hchanged : (transformed path raw).changed = true)
    (hafter : after.read path =
      .ok (Text.Utf8.encode (Text.finish (transformed path raw).content))) :
    after.read path ≠ tree.read path := by
  intro hsame
  rw [hafter, hread, Except.ok.injEq] at hsame
  rw [← hsame, Text.Utf8.decode_encode] at hdecode
  have hstandard := Transformed.Standard.of_extension (some (Extension.ofPath path)) raw
  exact hstandard.finish_ne hchanged (Except.ok.inj hdecode)

theorem Verdict.Fits.written_iff {v : Verdict} (hwell : tree.WellFormed)
    (h : v.Fits p hazards path (Job.attempt hazards .read path (tree.read path))) :
    v.outcome.status = .written ↔
      (v.carryOut path tree).read path ≠ tree.read path ∧
        Job.strike? hazards .write path = none := by
  cases h with
  | @kept outcome hstatus =>
      refine iff_of_false (fun hwritten : outcome.status = .written => ?_) fun hne => hne.1 rfl
      simp [hwritten] at hstatus
  | tried => exact iff_of_false nofun fun hne => hne.1 rfl
  | struck hstruck => exact iff_of_false nofun fun hne => hstruck hne.2
  | @wrote old raw hsource hdecode hchanged hstruck =>
      have hread := Job.ok_of_attempt hsource
      obtain ⟨after, hwrite, -, hafter⟩ := exists_overwrite hwell hread
        (Text.Utf8.encode (Text.finish (transformed path raw).content))
      refine iff_of_true rfl ⟨?_, hstruck⟩
      simp only [carryOut, hwrite, Except.toOption, Option.getD_some]
      exact read_ne_of_stored hread hdecode hchanged hafter

theorem Verdict.Fits.exists_written {v : Verdict} (hwell : tree.WellFormed)
    (hstandard : registry.IsStandard)
    (h : v.Fits p hazards path (Job.attempt hazards .read path (tree.read path)))
    (hstatus : v.outcome.status = .changed) :
    p.dryRun = true ∧ ∃ next after,
      Job.Returns [] (process ⟨p.allowed, p.root?, false⟩ registry path) tree
        (⟨path, .written, none⟩, next) after ∧
      after.read path ≠ tree.read path := by
  cases h with
  | @kept outcome hkept =>
      change outcome.status = .changed at hstatus
      simp [hstatus] at hkept
  | tried hallowed hdry hsource hdecode hchanged =>
      have hread := Job.ok_of_attempt hsource
      have hclear (kind : Access) : Job.Clear [] kind path := by simp [Job.Clear]
      obtain ⟨next, after, -, hreturns, -, hafter⟩ :=
        returns_process_written (p := ⟨p.allowed, p.root?, false⟩) hwell hallowed (hclear .read)
          hread hdecode hstandard rfl (hclear .write) hchanged
      exact ⟨hdry, next, after, hreturns, read_ne_of_stored hread hdecode hchanged hafter⟩
  | struck => cases hstatus
  | wrote => cases hstatus

/-- Whatever changes under the standard registry, its finished text is not the old one. So a
processor that is not broken off says of a file that it was written exactly if its bytes are others
afterwards and no fault struck the write, and one that only tries says of a file that it would
change only if a run without faults changes its bytes. -/
theorem written_iff_bytes_differ (hstandard : registry.IsStandard) :
    (∀ extension raw, ∃ t next, registry.transform extension raw = (.ok t, next) ∧
      (t.changed = true ↔ t.content ≠ raw) ∧ (t.changed = true → Text.finish t.content ≠ raw)) ∧
    ∀ (p : Processor) (hazards : List Hazard) (tree : FileTree) (path : Path), tree.WellFormed →
      (¬(Job.Mild hazards ∧ path.isNullFree) ∧
        ∃ abort, Job.Ends hazards (p.process registry path) tree (.error abort) tree) ∨
      ∃ outcome next after,
        Job.Returns hazards (p.process registry path) tree (outcome, next) after ∧
        (outcome.status = .written ↔
          after.read path ≠ tree.read path ∧ Job.strike? hazards .write path = none) ∧
        (outcome.status = .changed → p.dryRun = true ∧ ∃ next' after',
          Job.Returns [] (process ⟨p.allowed, p.root?, false⟩ registry path) tree
            (⟨path, .written, none⟩, next') after' ∧
          after'.read path ≠ tree.read path) := by
  constructor
  · intro extension raw
    obtain ⟨t, next, htransform, ht⟩ := hstandard.exists_transform extension raw
    exact ⟨t, next, htransform, ht.changed_iff, ht.finish_ne⟩
  · intro p hazards tree path hwell
    rcases p.ends_or_returns_process hazards hwell path hstandard with hends | ⟨next, hreturns⟩
    · exact .inl hends
    · refine .inr ⟨_, next, _, hreturns, ?_⟩
      have hfits := p.fits_verdict hazards path (Job.attempt hazards .read path (tree.read path))
      exact ⟨hfits.written_iff hwell, hfits.exists_written hwell hstandard⟩

theorem written_iff_bytes_differ_tried :
    let p (dryRun : Bool) : Processor := ⟨[".css"], none, dryRun⟩
    let path : Path := ⟨.root, ["a.css"]⟩
    let tree : FileTree := lone "a.css" ['a', '/', '*', '*', '/', '\n', 'c']
    tree.WellFormed ∧
      (∃ next, Job.Returns [] ((p true).process .standard path) tree (⟨path, .changed, none⟩, next)
        tree) ∧
      ∃ next after, Job.Returns [] ((p false).process .standard path) tree
          (⟨path, .written, none⟩, next) after ∧
        after.read path ≠ tree.read path := by
  intro p path tree
  have hwell : tree.WellFormed := wellFormed_lone (by decide) _
  have hallowed : Extension.isAllowed (p true).allowed path = true := by decide +kernel
  have hclear (kind : Access) : Job.Clear [] kind path := by simp [Job.Clear]
  have hread : tree.read path = .ok _ := read_lone (by cbv)
  have hverdict : (p true).verdictIn [] tree path = { outcome := ⟨path, .changed, none⟩ } := by
    rw [verdictIn_of_read hallowed (hclear .read) hread (Text.Utf8.decode_encode _),
      transformed_eq forExtension?_css]
    rfl
  obtain ⟨next, -, htried⟩ := @returns_process (p true) [] tree path (hclear .read).passable
    (fun _ => (hclear .write).passable) (nullFree_of_read hwell hread) .standard
    Registry.isStandard_standard
  rw [effect, hverdict] at htried
  refine ⟨hwell, ⟨next, htried⟩, ?_⟩
  rcases (written_iff_bytes_differ Registry.isStandard_standard).2 (p true) [] tree path hwell with
    ⟨hsafe, -⟩ | ⟨outcome, next', after, hreturns, -, hchanged⟩
  · exact absurd ⟨by simp [Job.Mild], nullFree_of_read hwell hread⟩ hsafe
  · cases hreturns.unique htried
    exact (hchanged rfl).2

end Processor

end CommentSweep
