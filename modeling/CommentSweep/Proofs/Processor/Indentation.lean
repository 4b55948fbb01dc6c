import CommentSweep.Proofs.Processor.Again
import CommentSweep.Proofs.Text.VisibleLines
import Mathlib

/-!
Indentation of written files. Where comments go from the ends of lines, every line with something
left on it stands in the written file with the indentation that it had, apart from the first one: a
written text starts with a visible character.
-/

namespace CommentSweep.Processor

open Disk

variable {p : Processor} {registry next : Registry} {path : Path} {hazards : List Hazard}
  {tree : FileTree} {world after : World} {outcome : Outcome}

def WritesTo (path : Path) (tree : FileTree) (content : Text) (outcome : Outcome)
    (after : FileTree) : Prop :=
  outcome.status = .written →
    tree.overwrite path (Text.Utf8.encode (Text.finish content)) = .ok after

theorem ensures_store (shown : String) (content : Text) :
    Job.Ensures hazards (store path shown content) tree fun result after _ =>
      ∀ outcome, result = .ok outcome → WritesTo path tree content outcome after := by
  refine Job.ensures_overwrite.bind ?_ ?_
  · intro answer after _ hwrite
    cases answer with
    | error fault =>
        refine (Job.returns_say _).bind_ensures (Job.ensures_pure ?_)
        rintro outcome ⟨⟩ ⟨⟩
    | ok u =>
        refine (Job.returns_say _).bind_ensures (Job.ensures_pure ?_)
        intro outcome _ _
        exact hwrite rfl
  · rintro abort _ _ - outcome ⟨⟩

theorem ensures_settle (shown : String) (t : Transformed) :
    Job.Ensures hazards (p.settle path shown t) tree fun result after _ =>
      ∀ outcome, result = .ok outcome → WritesTo path tree t.content outcome after := by
  rw [settle]
  split
  · refine Job.ensures_pure ?_
    rintro outcome ⟨⟩ ⟨⟩
  · split
    · refine (Job.returns_say _).bind_ensures (Job.ensures_pure ?_)
      rintro outcome ⟨⟩ ⟨⟩
    · exact ensures_store shown t.content

/-- A file of these bytes is said to be written if a cleaner is found for it and makes another text
of it, which has been put into it. -/
def WritesFrom (registry : Registry) (path : Path) (tree : FileTree) (bytes : Bytes)
    (outcome : Outcome) (next : Registry) (after : FileTree) : Prop :=
  outcome.status = .written → ∃ raw t, Text.Utf8.decode bytes = .ok raw ∧
    registry.transform (some (Extension.ofPath path)) raw = (.ok t, next) ∧
    tree.overwrite path (Text.Utf8.encode (Text.finish t.content)) = .ok after

theorem ensures_judge (bytes : Bytes) :
    Job.Ensures hazards (p.judge registry path (.ok bytes)) tree fun result after _ =>
      ∀ outcome next, result = .ok (outcome, next) →
        WritesFrom registry path tree bytes outcome next after := by
  unfold judge
  simp only
  split
  · refine (returns_undecodable _ _).bind_ensures (Job.ensures_pure ?_)
    rintro outcome next ⟨⟩ ⟨⟩
  · next raw hdecode =>
      split
      · refine Job.ensures_throw ?_
        rintro outcome next ⟨⟩
      · next t later htransform =>
          refine (ensures_settle _ t).bind ?_ ?_
          · intro said after _ hsaid
            refine Job.ensures_pure ?_
            rintro outcome next ⟨⟩ hstatus
            exact ⟨raw, t, hdecode, htransform, hsaid _ rfl hstatus⟩
          · rintro abort _ _ - outcome next ⟨⟩

theorem ensures_process (p : Processor) (registry : Registry) (path : Path) :
    Job.Ensures hazards (p.process registry path) tree fun result after _ =>
      ∀ outcome next, result = .ok (outcome, next) → outcome.status = .written →
        ∃ bytes, tree.read path = .ok bytes ∧
          WritesFrom registry path tree bytes outcome next after := by
  rw [process_eq]
  split
  · cases habort : Job.abort? hazards .read path with
    | some abort =>
        refine ((Job.ends_access habort _).bind_error _).mono ?_
        rintro _ _ _ ⟨rfl, rfl⟩ outcome next ⟨⟩
    | none =>
        have hread : Job.Returns hazards (Job.read path) tree
            (Job.attempt hazards .read path (tree.read path)) tree :=
          (Job.logs_access habort (·.read path)).returns
        refine hread.bind_ensures ?_
        cases hsource : Job.attempt hazards .read path (tree.read path) with
        | error fault =>
            refine (returns_unreadable _ fault).bind_ensures (Job.ensures_pure ?_)
            rintro outcome next ⟨⟩ hstatus
            have hother := status_unreadableOutcome path fault
            simp [hstatus] at hother
        | ok bytes =>
            refine (ensures_judge bytes).mono ?_
            intro _ _ _ hjudge outcome next hresult _
            exact ⟨bytes, Job.ok_of_attempt hsource, hjudge outcome next hresult⟩
  · refine Job.ensures_pure ?_
    rintro outcome next ⟨⟩ ⟨⟩

/-- A file whose comments are looked for by a hash sign has been written. Its lines with something
on them are those that stripping leaves, with the blanks before the first visible character and
behind the last one trimmed, so every line but the first has kept its indentation. -/
theorem written_keeps_indentation {cleaner : Cleaner} (hwell : world.tree.WellFormed)
    (hbound : (registry.lookup (some (Extension.ofPath path))).found = .ok (some cleaner))
    (hhash : cleaner.strip = Strategy.hash.strip)
    (hrun : (p.process registry path).run.run world = (.ok (outcome, next), after))
    (hwritten : outcome.status = .written) :
    ∃ old raw new, world.tree.read path = .ok old ∧ Text.Utf8.decode old = .ok raw ∧
      after.tree.read path = .ok (Text.Utf8.encode new) ∧
      Text.visibleLines new =
        ((Text.visibleLines (Strategy.hash.strip raw)).modifyHead Text.trimStart).modifyLast
          Text.trimEnd := by
  have hensures : Job.Ensures world.hazards (p.process registry path) world.tree _ :=
    ensures_process p registry path
  obtain ⟨_, hprocess⟩ := hensures.run
  rw [hrun] at hprocess
  obtain ⟨old, hread, hwrites⟩ := hprocess outcome next rfl hwritten
  obtain ⟨raw, t, hdecode, htransform, hwrite⟩ := hwrites hwritten
  have hcontent : t.content = Text.collapse (Strategy.hash.strip raw) := by
    rw [Registry.transform, hbound, Prod.mk.injEq] at htransform
    rw [← Except.ok.inj htransform.1, ← hhash]
    rfl
  obtain ⟨last, hlast, -, hfile⟩ :=
    exists_overwrite hwell hread (Text.Utf8.encode (Text.finish t.content))
  rw [hwrite] at hlast
  cases hlast
  refine ⟨old, raw, Text.finish t.content, hread, hdecode, hfile, ?_⟩
  simp [Text.visibleLines_finish, hcontent]

theorem forExtension?_hash :
    ∀ extension ∈ [".py", ".rb", ".yml", ".yaml"],
      Strategy.forExtension? (some extension) = some .hash := by
  decide +kernel

theorem found_hash {extension : String} (h : extension ∈ [".py", ".rb", ".yml", ".yaml"])
    (hstandard : registry.IsStandard) :
    (registry.lookup (some extension)).found = .ok (some (Registry.cleanerOf .hash)) := by
  rw [hstandard.found_lookup, forExtension?_hash extension h]
  rfl

theorem ofPath_py : Extension.ofPath ⟨.root, ["a.py"]⟩ = ".py" := by decide +kernel

theorem returns_process_py (raw : Text) {written : Text}
    (hchanged : Text.collapse (Strategy.hash.strip raw) ≠ raw)
    (hwritten : Text.finish (Text.collapse (Strategy.hash.strip raw)) = written) :
    ∃ next after, Job.Returns [] (process ⟨[".py"], none, false⟩ .standard ⟨.root, ["a.py"]⟩)
        (lone "a.py" raw) (⟨⟨.root, ["a.py"]⟩, .written, none⟩, next) after ∧
      after.read ⟨.root, ["a.py"]⟩ = .ok (Text.Utf8.encode written) := by
  have hclear (kind : Access) : Job.Clear [] kind ⟨.root, ["a.py"]⟩ := by simp [Job.Clear]
  have hstrategy :
      Strategy.forExtension? (some (Extension.ofPath ⟨.root, ["a.py"]⟩)) = some .hash := by
    rw [ofPath_py]
    exact forExtension?_hash ".py" (by simp)
  have htransformed := transformed_eq hstrategy raw
  obtain ⟨next, after, -, hreturns, -, hread⟩ :=
    returns_process_written (p := ⟨[".py"], none, false⟩) (wellFormed_lone (by decide) raw)
      (by decide +kernel) (hclear .read) (read_lone (by cbv)) (Text.Utf8.decode_encode raw)
      Registry.isStandard_standard rfl (hclear .write) (by simpa [htransformed] using hchanged)
  rw [htransformed, hwritten] at hread
  exact ⟨next, after, hreturns, hread⟩

theorem written_keeps_indentation_nested :
    let p : Processor := ⟨[".py"], none, false⟩
    let path : Path := ⟨.root, ["a.py"]⟩
    let raw : Text :=
      ['a', '\n', '\t', 'b', '#', 'c', '\n', ' ', '#', '\n', ' ', '\n', '\t', '\t', 'd', ' ']
    ∃ next after, Job.Returns [] (p.process .standard path) (lone "a.py" raw)
        (⟨path, .written, none⟩, next) after ∧
      ∃ new, after.read path = .ok (Text.Utf8.encode new) ∧
        Text.visibleLines new = [['a'], ['\t', 'b'], ['\t', '\t', 'd']] := by
  intro p path raw
  obtain ⟨next, after, hreturns, -⟩ := returns_process_py raw (by decide) rfl
  obtain ⟨log, hrun⟩ := hreturns.run #[]
  have hbound : (Registry.standard.lookup (some (Extension.ofPath path))).found =
      .ok (some (Registry.cleanerOf .hash)) := by
    rw [ofPath_py]
    exact found_hash (by simp) Registry.isStandard_standard
  have hwell : (lone "a.py" raw).WellFormed := wellFormed_lone (by decide) raw
  obtain ⟨old, text, new, hold, htext, hnew, hlines⟩ :=
    written_keeps_indentation hwell hbound rfl hrun rfl
  have hread : (lone "a.py" raw).read path = .ok (Text.Utf8.encode raw) := read_lone (by cbv)
  obtain rfl : Text.Utf8.encode raw = old := Except.ok.inj (hread.symm.trans hold)
  obtain rfl : raw = text := Except.ok.inj ((Text.Utf8.decode_encode raw).symm.trans htext)
  refine ⟨next, after, hreturns, new, hnew, hlines.trans ?_⟩
  decide

/-- Two lines of one block come apart: the first one loses its indentation. -/
theorem first_line_loses_indentation :
    let p : Processor := ⟨[".py"], none, false⟩
    let path : Path := ⟨.root, ["a.py"]⟩
    let raw : Text := [' ', ' ', 'a', '#', 'c', '\n', ' ', ' ', 'b', '\n']
    let written : Text := ['a', '\n', ' ', ' ', 'b', '\n']
    (∃ next after, Job.Returns [] (p.process .standard path) (lone "a.py" raw)
        (⟨path, .written, none⟩, next) after ∧
      after.read path = .ok (Text.Utf8.encode written)) ∧
    Text.visibleLines (Strategy.hash.strip raw) = [[' ', ' ', 'a'], [' ', ' ', 'b']] ∧
    Text.visibleLines written = [['a'], [' ', ' ', 'b']] :=
  ⟨returns_process_py _ (by decide) (by decide), by decide, by decide⟩

end CommentSweep.Processor
