import CommentSweep.Processor
import CommentSweep.Proofs.Job.Access
import CommentSweep.Proofs.Registry.Answer

/-!
What becomes of one file. With the standard registry and among faults of the system, a file is never
the end of a job: from what reading it comes to follow its outcome and the bytes that are written.
-/

namespace CommentSweep.Processor

open Disk

def transformed (path : Path) (raw : Text) : Transformed :=
  .of ((Strategy.forExtension? (some (Extension.ofPath path))).map Registry.cleanerOf) raw

def unreadableOutcome (path : Path) (fault : SystemFault) : Outcome :=
  match fault.errno with
  | .isDir => ⟨path, .skipped, none⟩
  | .permission => ⟨path, .error, some "permission denied"⟩
  | .noEntry => ⟨path, .error, some "file not found"⟩
  | _ => ⟨path, .error, some fault.message⟩

theorem status_unreadableOutcome (path : Path) (fault : SystemFault) :
    (unreadableOutcome path fault).status ∈ [.skipped, .unchanged, .error] := by
  rw [unreadableOutcome]
  cases fault.errno <;> simp

structure Verdict where
  outcome : Outcome
  written? : Option Bytes := none

def storedOutcome (path : Path) : Except SystemFault Unit → Outcome
  | .error fault => ⟨path, .error, some ("write failed: " ++ fault.message)⟩
  | .ok () => ⟨path, .written, none⟩

/-- A file that cannot be opened keeps its bytes. Otherwise it gets new ones, of which some may be
missing. -/
def storeVerdict (hazards : List Hazard) (path : Path) (content : Text) : Verdict :=
  let struck := Job.strike? hazards .write path
  match Job.opened hazards .write path (.ok ()) with
  | .error fault => { outcome := storedOutcome path (.error fault) }
  | .ok () =>
      { outcome := storedOutcome path (Job.written struck)
        written? := some (Job.arriving (Text.Utf8.encode (Text.finish content)) struck) }

def settleVerdict (p : Processor) (hazards : List Hazard) (path : Path) (t : Transformed) :
    Verdict :=
  if !t.changed then { outcome := ⟨path, .unchanged, none⟩ }
  else if p.dryRun then { outcome := ⟨path, .changed, none⟩ }
  else storeVerdict hazards path t.content

def verdict (p : Processor) (hazards : List Hazard) (path : Path)
    (source : Except SystemFault Bytes) : Verdict :=
  if !Extension.isAllowed p.allowed path then { outcome := ⟨path, .skipped, none⟩ }
  else
    match source with
    | .error fault => { outcome := unreadableOutcome path fault }
    | .ok bytes =>
        match Text.Utf8.decode bytes with
        | .error fault => { outcome := ⟨path, .error, some fault.message⟩ }
        | .ok raw => p.settleVerdict hazards path (transformed path raw)

section

variable {p : Processor} {path : Path} (hazards : List Hazard)

theorem verdict_skipped (h : Extension.isAllowed p.allowed path = false)
    (source : Except SystemFault Bytes) :
    p.verdict hazards path source = { outcome := ⟨path, .skipped, none⟩ } := by
  simp [verdict.eq_def, h]

theorem verdict_unreadable (h : Extension.isAllowed p.allowed path = true) (fault : SystemFault) :
    p.verdict hazards path (.error fault) = { outcome := unreadableOutcome path fault } := by
  simp [verdict, h]

theorem verdict_undecodable (h : Extension.isAllowed p.allowed path = true) {bytes : Bytes}
    {fault : Text.Utf8.Fault} (hdecode : Text.Utf8.decode bytes = .error fault) :
    p.verdict hazards path (.ok bytes) = { outcome := ⟨path, .error, some fault.message⟩ } := by
  simp [verdict, h, hdecode]

theorem verdict_decoded (h : Extension.isAllowed p.allowed path = true) {bytes : Bytes} {raw : Text}
    (hdecode : Text.Utf8.decode bytes = .ok raw) :
    p.verdict hazards path (.ok bytes) = p.settleVerdict hazards path (transformed path raw) := by
  simp [verdict, h, hdecode]

end

def verdictIn (p : Processor) (hazards : List Hazard) (tree : FileTree) (path : Path) : Verdict :=
  p.verdict hazards path (Job.attempt hazards .read path (tree.read path))

def Verdict.carryOut (v : Verdict) (path : Path) (tree : FileTree) : FileTree :=
  match v.written? with
  | none => tree
  | some bytes => (tree.overwrite path bytes).toOption.getD tree

def effect (p : Processor) (hazards : List Hazard) (tree : FileTree) (path : Path) : FileTree :=
  (p.verdictIn hazards tree path).carryOut path tree

def outcomes (p : Processor) (hazards : List Hazard) : FileTree → List Path → List Outcome
  | _, [] => []
  | tree, path :: paths =>
      (p.verdictIn hazards tree path).outcome ::
        p.outcomes hazards (p.effect hazards tree path) paths

/-- The file has comments, and they are to be removed from it. -/
def Due (p : Processor) (hazards : List Hazard) (tree : FileTree) (path : Path) : Prop :=
  p.dryRun = false ∧ ∃ bytes raw, Job.attempt hazards .read path (tree.read path) = .ok bytes ∧
    Text.Utf8.decode bytes = .ok raw ∧ (transformed path raw).changed = true

variable {p : Processor} {hazards : List Hazard} {tree : FileTree} {path : Path}

theorem returns_unreadable (shown : String) (fault : SystemFault) :
    Job.Returns hazards (unreadable path shown fault) tree (unreadableOutcome path fault) tree := by
  obtain ⟨errno, path?⟩ := fault
  cases errno with
  | isDir => exact Job.returns_pure _
  | permission => exact (Job.returns_say _).bind (Job.returns_pure _)
  | noEntry => exact (Job.returns_say _).bind (Job.returns_pure _)
  | _ => exact (Job.returns_say _).bind (Job.returns_pure _)

theorem returns_undecodable (shown : String) (fault : Text.Utf8.Fault) :
    Job.Returns hazards (undecodable path shown fault) tree ⟨path, .error, some fault.message⟩
      tree :=
  (Job.returns_say _).bind (Job.returns_pure _)

theorem returns_store (hwrite : Job.Passable hazards .write path) (hnull : path.isNullFree)
    {old : Bytes} (hread : tree.read path = .ok old) (shown : String) (content : Text) :
    Job.Returns hazards (store path shown content) tree
      (storeVerdict hazards path content).outcome
      ((storeVerdict hazards path content).carryOut path tree) := by
  have habort := Job.abort?_eq_none hwrite hnull
  rw [store, storeVerdict]
  generalize Text.Utf8.encode (Text.finish content) = new
  obtain ⟨location, hlocate, hfile⟩ := FileTree.read_eq_ok_iff.mp hread
  have hstored (bytes : Bytes) :
      tree.overwrite path bytes = .ok (tree.put location (.file bytes)) :=
    FileTree.overwrite_eq_ok_iff.mpr ⟨location, old, hlocate, hfile, rfl⟩
  have hopened (bytes : Bytes) :=
    Job.opened_ok hazards .write path (tree.put location (.file bytes))
  cases hok : Job.opened hazards .write path (.ok ()) with
  | error fault =>
      refine (Job.returns_overwrite_error habort ?_).bind
        ((Job.returns_say _).bind (Job.returns_pure _))
      rw [hstored, hopened, hok]
      rfl
  | ok u =>
      have hput : Job.Returns hazards (Job.overwrite path new) tree
          (Job.written (Job.strike? hazards .write path))
          (tree.put location (.file (Job.arriving new (Job.strike? hazards .write path)))) := by
        apply Job.returns_overwrite_ok habort
        rw [hstored, hopened, hok]
        rfl
      simp only [Verdict.carryOut, hstored]
      refine hput.bind ?_
      cases Job.written (Job.strike? hazards .write path) with
      | error fault => exact (Job.returns_say _).bind (Job.returns_pure _)
      | ok u => exact (Job.returns_say _).bind (Job.returns_pure _)

theorem returns_settle {t : Transformed}
    (hwrite : p.dryRun = false → t.changed = true → Job.Passable hazards .write path)
    (hnull : path.isNullFree) {old : Bytes} (hread : tree.read path = .ok old) (shown : String) :
    Job.Returns hazards (p.settle path shown t) tree (p.settleVerdict hazards path t).outcome
      ((p.settleVerdict hazards path t).carryOut path tree) := by
  rw [settle, settleVerdict]
  cases hchanged : t.changed with
  | false => exact Job.returns_pure _
  | true =>
      cases hdry : p.dryRun with
      | true => exact (Job.returns_say _).bind (Job.returns_pure _)
      | false => exact returns_store (hwrite hdry hchanged) hnull hread shown t.content

def judge (p : Processor) (registry : Registry) (path : Path) (source : Except SystemFault Bytes) :
    Job (Outcome × Registry) :=
  match source with
  | .error fault => return (← unreadable path (p.display path) fault, registry)
  | .ok bytes =>
      match Text.Utf8.decode bytes with
      | .error fault => return (← undecodable path (p.display path) fault, registry)
      | .ok raw =>
          match registry.transform (some (Extension.ofPath path)) raw with
          | (.error e, _) => throw (.build e)
          | (.ok t, registry) => return (← p.settle path (p.display path) t, registry)

theorem process_eq (p : Processor) (registry : Registry) (path : Path) :
    p.process registry path =
      if Extension.isAllowed p.allowed path then Job.read path >>= p.judge registry path
      else pure (⟨path, .skipped, none⟩, registry) := by
  unfold process
  cases Extension.isAllowed p.allowed path <;> rfl

theorem judge_decoded {registry : Registry} (hstandard : registry.IsStandard) {bytes : Bytes}
    {raw : Text} (hdecode : Text.Utf8.decode bytes = .ok raw) :
    p.judge registry path (.ok bytes) = do
      return (← p.settle path (p.display path) (transformed path raw),
        (registry.transform (some (Extension.ofPath path)) raw).2) := by
  unfold judge
  simp only [hdecode]
  rw [hstandard.transform_eq]
  rfl

theorem returns_judge (hallowed : Extension.isAllowed p.allowed path = true)
    {source : Except SystemFault Bytes}
    (hsource : ∀ bytes, source = .ok bytes → tree.read path = .ok bytes ∧ path.isNullFree)
    (hwrite : ∀ bytes raw, source = .ok bytes → Text.Utf8.decode bytes = .ok raw →
      p.dryRun = false → (transformed path raw).changed = true →
      Job.Passable hazards .write path)
    {registry : Registry} (hstandard : registry.IsStandard) :
    ∃ registry', registry'.IsStandard ∧
      Job.Returns hazards (p.judge registry path source) tree
        ((p.verdict hazards path source).outcome, registry')
        ((p.verdict hazards path source).carryOut path tree) := by
  cases source with
  | error fault =>
      rw [verdict_unreadable hazards hallowed]
      exact ⟨registry, hstandard, (returns_unreadable _ fault).bind (Job.returns_pure _)⟩
  | ok bytes =>
      obtain ⟨hfile, hnull⟩ := hsource bytes rfl
      cases hdecode : Text.Utf8.decode bytes with
      | error fault =>
          rw [verdict_undecodable hazards hallowed hdecode]
          unfold judge
          simp only [hdecode]
          exact ⟨registry, hstandard, (returns_undecodable _ fault).bind (Job.returns_pure _)⟩
      | ok raw =>
          rw [verdict_decoded hazards hallowed hdecode, judge_decoded hstandard hdecode]
          refine ⟨_, hstandard.transform_snd (some (Extension.ofPath path)) raw, ?_⟩
          have hpass := hwrite bytes raw rfl hdecode
          exact (returns_settle hpass hnull hfile _).bind (Job.returns_pure _)

theorem returns_process (hread : Job.Passable hazards .read path)
    (hwrite : p.Due hazards tree path → Job.Passable hazards .write path)
    (hnull : path.isNullFree) {registry : Registry} (hstandard : registry.IsStandard) :
    ∃ registry', registry'.IsStandard ∧
      Job.Returns hazards (p.process registry path) tree
        ((p.verdictIn hazards tree path).outcome, registry') (p.effect hazards tree path) := by
  rw [process_eq, effect, verdictIn]
  cases hallowed : Extension.isAllowed p.allowed path with
  | false =>
      rw [verdict_skipped hazards hallowed]
      exact ⟨registry, hstandard, Job.returns_pure _⟩
  | true =>
      have hreturns : Job.Returns hazards (Job.read path) tree
          (Job.attempt hazards .read path (tree.read path)) tree :=
        Job.returns_access hread hnull (·.read path)
      obtain ⟨registry', hstandard', hjudge⟩ := returns_judge hallowed
        (fun bytes hsource => ⟨((Job.attempt_eq_ok_iff hread _ bytes).mp hsource).2, hnull⟩)
        (fun bytes raw hsource hdecode hreal hchanged =>
          hwrite ⟨hreal, bytes, raw, hsource, hdecode, hchanged⟩)
        hstandard
      exact ⟨registry', hstandard', hreturns.bind hjudge⟩

end CommentSweep.Processor
