import CommentSweep.Proofs.Processor.Verdict

/-!
Which files change when paths are processed one after another. Processing a path changes at most the
file that the path leads to, and it never changes where paths lead to.
-/

namespace CommentSweep

open Disk

/-- With these extensions, the bytes `old` that a path leads to are read and changed into `new`. -/
structure Strips (extensions : List String) (hazards : List Hazard) (path : Path)
    (old new : Bytes) : Prop where
  isAllowed : Extension.isAllowed extensions path = true
  readable : Job.Clear hazards .read path
  stripped : ∃ raw t, Text.Utf8.decode old = .ok raw ∧
    (Registry.standard.transform (some (Extension.ofPath path)) raw).1 = .ok t ∧
    t.changed = true ∧ new = Text.Utf8.encode (Text.finish t.content)

structure Rewrites (extensions : List String) (hazards : List Hazard) (path : Path)
    (old new : Bytes) : Prop extends Strips extensions hazards path old new where
  writable : Job.Clear hazards .write path

/-- Processing a path leaves the bytes `left` in place of `old`. They are fewer than they should be
where the write is struck. -/
def Leaves (extensions : List String) (hazards : List Hazard) (path : Path)
    (old left : Bytes) : Prop :=
  ∃ new, Strips extensions hazards path old new ∧ ¬Job.Barred hazards .write path ∧
    left = Job.arriving new (Job.strike? hazards .write path)

theorem Rewrites.leaves {extensions : List String} {hazards : List Hazard} {path : Path}
    {old new : Bytes} (h : Rewrites extensions hazards path old new) :
    Leaves extensions hazards path old new := by
  refine ⟨new, h.toStrips, h.writable.not_barred, ?_⟩
  rw [h.writable.strike?_eq_none]
  rfl

theorem Strips.leaves {extensions : List String} {hazards : List Hazard} {path : Path}
    {old new : Bytes} (h : Strips extensions hazards path old new) {fault : SystemFault}
    {done : Nat} (hstruck : Job.strike? hazards .write path = some (fault, done)) :
    Leaves extensions hazards path old (new.take done) := by
  refine ⟨new, h, Job.not_barred_of_strike? hstruck, ?_⟩
  rw [hstruck]
  rfl

theorem Strips.of_strategy {extensions : List String} {hazards : List Hazard} {path : Path}
    {old : Bytes} {raw content : Text} {strategy : Strategy}
    (hallowed : Extension.isAllowed extensions path = true)
    (hstrategy : Strategy.forExtension? (some (Extension.ofPath path)) = some strategy)
    (hread : Job.Clear hazards .read path) (hdecode : Text.Utf8.decode old = .ok raw)
    (hstrip : Transformed.of (some (Registry.cleanerOf strategy)) raw = ⟨content, true⟩) :
    Strips extensions hazards path old (Text.Utf8.encode (Text.finish content)) where
  isAllowed := hallowed
  readable := hread
  stripped := by
    refine ⟨raw, ⟨content, true⟩, hdecode, ?_, rfl, rfl⟩
    rw [Registry.isStandard_standard.transform_fst, hstrategy]
    exact congrArg Except.ok hstrip

/-- After the paths have been processed, the files that they rewrite hold their new bytes, those
whose write was struck as many of them as arrived, and all other files the old bytes. Nothing but
the bytes of files differs. -/
structure RewritesExactly (extensions : List String) (hazards : List Hazard) (paths : List Path)
    (before after : FileTree) : Prop where
  sameShape : before.SameShape after
  rewritten : ∀ {path location old new}, path ∈ paths → before.locate path = .ok location →
    before.get? location = some (.file old) → Rewrites extensions hazards path old new →
    after.get? location = some (.file new)
  cutOff : ∀ {path location old new fault done}, path ∈ paths →
    before.locate path = .ok location → before.get? location = some (.file old) →
    Strips extensions hazards path old new →
    Job.strike? hazards .write path = some (fault, done) →
    after.get? location = some (.file (new.take done))
  kept : ∀ {location old}, before.get? location = some (.file old) →
    (∀ path ∈ paths, before.locate path = .ok location →
      ∀ new, Strips extensions hazards path old new → Job.Barred hazards .write path) →
    after.get? location = some (.file old)

namespace Processor

variable {p : Processor} {hazards : List Hazard} {tree : FileTree} {path : Path}
  {location : Location} {old left : Bytes}

theorem storeVerdict_written?_iff (content : Text) :
    (storeVerdict hazards path content).written? = some left ↔
      ¬Job.Barred hazards .write path ∧ left =
        Job.arriving (Text.Utf8.encode (Text.finish content))
          (Job.strike? hazards .write path) := by
  rw [← Job.opened_eq_ok_iff, storeVerdict]
  cases Job.opened hazards .write path (.ok ()) with
  | error fault => simp
  | ok u => simp [eq_comm]

theorem settleVerdict_written?_iff (hreal : p.dryRun = false) (t : Transformed) :
    (p.settleVerdict hazards path t).written? = some left ↔
      t.changed = true ∧ ¬Job.Barred hazards .write path ∧ left =
        Job.arriving (Text.Utf8.encode (Text.finish t.content))
          (Job.strike? hazards .write path) := by
  rw [settleVerdict]
  cases t.changed with
  | false => simp
  | true => simp [hreal, storeVerdict_written?_iff]

theorem verdict_written?_iff (hreal : p.dryRun = false) (hclear : Job.Clear hazards .read path) :
    (p.verdict hazards path (.ok old)).written? = some left ↔
      Leaves p.allowed hazards path old left := by
  constructor
  · intro hwritten
    cases hallowed : Extension.isAllowed p.allowed path with
    | false => rw [verdict_skipped hazards hallowed] at hwritten; cases hwritten
    | true =>
        cases hdecode : Text.Utf8.decode old with
        | error fault =>
            rw [verdict_undecodable hazards hallowed hdecode] at hwritten
            cases hwritten
        | ok raw =>
            rw [verdict_decoded hazards hallowed hdecode,
              settleVerdict_written?_iff hreal] at hwritten
            obtain ⟨hchanged, hopens, hleft⟩ := hwritten
            exact ⟨_, ⟨hallowed, hclear, raw, _, hdecode,
              Registry.isStandard_standard.transform_fst _ raw, hchanged, rfl⟩, hopens, hleft⟩
  · rintro ⟨new, ⟨hallowed, -, raw, t, hdecode, ht, hchanged, rfl⟩, hopens, hleft⟩
    rw [Registry.isStandard_standard.transform_fst, Except.ok.injEq, ← transformed] at ht
    rw [verdict_decoded hazards hallowed hdecode, settleVerdict_written?_iff hreal, ht]
    exact ⟨hchanged, hopens, hleft⟩

@[simp] theorem verdict_error_written? (fault : SystemFault) :
    (p.verdict hazards path (.error fault)).written? = none := by
  cases hallowed : Extension.isAllowed p.allowed path with
  | false => rw [verdict_skipped hazards hallowed]
  | true => rw [verdict_unreadable hazards hallowed]

theorem nullFree_of_read (hwell : tree.WellFormed) (hfile : tree.read path = .ok old) :
    path.isNullFree := by
  obtain ⟨location, hlocate, -⟩ := FileTree.read_eq_ok_iff.mp hfile
  exact Path.isNullFree_of_locate hwell hlocate

theorem effect_of_not_written (h : (p.verdictIn hazards tree path).written? = none) :
    p.effect hazards tree path = tree := by
  rw [effect, Verdict.carryOut, h]

theorem effect_of_written (h : (p.verdictIn hazards tree path).written? = some left)
    (hlocate : tree.locate path = .ok location) (hfile : tree.get? location = some (.file old)) :
    p.effect hazards tree path = tree.put location (.file left) := by
  have hwrite : tree.overwrite path left = .ok (tree.put location (.file left)) :=
    FileTree.overwrite_eq_ok_iff.mpr ⟨location, old, hlocate, hfile, rfl⟩
  rw [effect, Verdict.carryOut, h]
  simp only [hwrite, Except.toOption, Option.getD_some]

theorem effect_cases (p : Processor) (hazards : List Hazard) (tree : FileTree) (path : Path) :
    p.effect hazards tree path = tree ∨
      ∃ location old new, tree.locate path = .ok location ∧
        tree.get? location = some (.file old) ∧
        (p.verdictIn hazards tree path).written? = some new ∧
        p.effect hazards tree path = tree.put location (.file new) := by
  rw [effect, Verdict.carryOut]
  cases (p.verdictIn hazards tree path).written? with
  | none => exact Or.inl rfl
  | some new =>
      simp only
      cases hwrite : tree.overwrite path new with
      | error errno => exact Or.inl rfl
      | ok after =>
          obtain ⟨location, old, hlocate, hfile, rfl⟩ := FileTree.overwrite_eq_ok_iff.mp hwrite
          exact Or.inr ⟨location, old, new, hlocate, hfile, rfl, rfl⟩

theorem sameShape_effect (hwell : tree.WellFormed) (path : Path) :
    tree.SameShape (p.effect hazards tree path) := by
  rcases p.effect_cases hazards tree path with heq | ⟨location, old, new, -, hfile, -, heq⟩
  · rw [heq]
    exact .refl tree
  · rw [heq]
    exact hwell.sameShape_put hfile new

theorem get?_effect_of_ne (h : tree.locate path ≠ .ok location) :
    (p.effect hazards tree path).get? location = tree.get? location := by
  rcases p.effect_cases hazards tree path with heq | ⟨place, old, new, hlocate, hfile, -, heq⟩
  · rw [heq]
  · have hne : location ≠ place := by
      rintro rfl
      exact h hlocate
    rw [heq, FileTree.get?_put_file hfile, if_neg hne]

theorem attempt_read_ok (hlocate : tree.locate path = .ok location)
    (hfile : tree.get? location = some (.file old)) (hclear : Job.Clear hazards .read path) :
    Job.attempt hazards .read path (tree.read path) = .ok old :=
  (Job.attempt_eq_ok_iff hclear.passable _ old).mpr
    ⟨hclear, FileTree.read_eq_ok_iff.mpr ⟨location, hlocate, hfile⟩⟩

theorem exists_overwrite (hwell : tree.WellFormed) (hread : tree.read path = .ok old)
    (new : Bytes) :
    ∃ after, tree.overwrite path new = .ok after ∧ after.WellFormed ∧
      after.read path = .ok new := by
  obtain ⟨location, hlocate, hfile⟩ := FileTree.read_eq_ok_iff.mp hread
  have hshape := hwell.sameShape_put hfile new
  refine ⟨tree.put location (.file new), FileTree.overwrite_eq_ok_iff.mpr
    ⟨location, old, hlocate, hfile, rfl⟩, hshape.wellFormed hwell, ?_⟩
  rw [FileTree.read_eq_ok_iff]
  refine ⟨location, ?_, ?_⟩
  · rw [← hshape.locate_eq]
    exact hlocate
  · rw [FileTree.get?_put_file hfile, if_pos rfl]

structure Stores (p : Processor) (hazards : List Hazard) (registry : Registry) (tree : FileTree)
    (path : Path) (raw : Text) (t : Transformed) (next : Registry) : Prop where
  isAllowed : Extension.isAllowed p.allowed path = true
  isReal : p.dryRun = false
  readable : Job.Clear hazards .read path
  writable : Job.Clear hazards .write path
  decodes : ∃ old, tree.read path = .ok old ∧ Text.Utf8.decode old = .ok raw
  transforms : registry.transform (some (Extension.ofPath path)) raw = (.ok t, next)
  changed : t.changed = true

namespace Stores

variable {registry next : Registry} {raw : Text} {t : Transformed}

theorem of_standard (hallowed : Extension.isAllowed p.allowed path = true)
    (hreal : p.dryRun = false) (hread : Job.Clear hazards .read path)
    (hwrite : Job.Clear hazards .write path) (hfile : tree.read path = .ok old)
    (hdecode : Text.Utf8.decode old = .ok raw) (hstandard : registry.IsStandard)
    (hchanged : (transformed path raw).changed = true) :
    p.Stores hazards registry tree path raw (transformed path raw)
      (registry.transform (some (Extension.ofPath path)) raw).2 where
  isAllowed := hallowed
  isReal := hreal
  readable := hread
  writable := hwrite
  decodes := ⟨old, hfile, hdecode⟩
  transforms := hstandard.transform_eq (some (Extension.ofPath path)) raw
  changed := hchanged

theorem settleVerdict_eq (h : p.Stores hazards registry tree path raw t next) :
    p.settleVerdict hazards path t =
      { outcome := ⟨path, .written, none⟩
        written? := some (Text.Utf8.encode (Text.finish t.content)) } := by
  have hopened := Job.opened_eq_ok_iff.mpr h.writable.not_barred
  rw [settleVerdict, h.changed, h.isReal, storeVerdict, hopened, h.writable.strike?_eq_none]
  rfl

theorem returns (hwell : tree.WellFormed) (h : p.Stores hazards registry tree path raw t next) :
    ∃ after, Job.Returns hazards (p.process registry path) tree (⟨path, .written, none⟩, next)
        after ∧
      after.WellFormed ∧
      after.read path = .ok (Text.Utf8.encode (Text.finish t.content)) := by
  obtain ⟨old, hfile, hdecode⟩ := h.decodes
  have hnull := nullFree_of_read hwell hfile
  have hread : Job.Returns hazards (Job.read path) tree
      (Job.attempt hazards .read path (tree.read path)) tree :=
    Job.returns_access h.readable.passable hnull (·.read path)
  have hsettle : Job.Returns hazards (p.settle path (p.display path) t) tree _ _ :=
    returns_settle (fun _ _ => h.writable.passable) hnull hfile (p.display path)
  rw [(Job.attempt_eq_ok_iff h.readable.passable _ old).mpr ⟨h.readable, hfile⟩] at hread
  rw [h.settleVerdict_eq, Verdict.carryOut] at hsettle
  obtain ⟨after, hwrite, hwell', hfile'⟩ :=
    exists_overwrite hwell hfile (Text.Utf8.encode (Text.finish t.content))
  simp only [hwrite, Except.toOption, Option.getD_some] at hsettle
  refine ⟨after, ?_, hwell', hfile'⟩
  rw [process_eq, if_pos h.isAllowed]
  refine hread.bind ?_
  unfold judge
  simp only [hdecode, h.transforms]
  exact hsettle.bind (Job.returns_pure _)

end Stores

theorem get?_effect_of_leaves (hreal : p.dryRun = false)
    (hlocate : tree.locate path = .ok location) (hfile : tree.get? location = some (.file old))
    (hleaves : Leaves p.allowed hazards path old left) :
    (p.effect hazards tree path).get? location = some (.file left) := by
  obtain ⟨new, hstrips, -⟩ := id hleaves
  have hwritten : (p.verdictIn hazards tree path).written? = some left := by
    rw [verdictIn, attempt_read_ok hlocate hfile hstrips.readable,
      verdict_written?_iff hreal hstrips.readable]
    exact hleaves
  rw [effect_of_written hwritten hlocate hfile, FileTree.get?_put_file hfile, if_pos rfl]

theorem get?_effect_of_not_leaves (hmild : Job.Mild hazards) (hreal : p.dryRun = false)
    (hfile : tree.get? location = some (.file old))
    (h : tree.locate path = .ok location → ∀ left, ¬Leaves p.allowed hazards path old left) :
    (p.effect hazards tree path).get? location = some (.file old) := by
  rcases p.effect_cases hazards tree path with
    heq | ⟨place, found, left, hlocate, hfound, hwritten, heq⟩
  · rw [heq, hfile]
  · by_cases hplace : location = place
    · subst hplace
      obtain rfl : old = found := by simpa [hfile] using hfound
      cases hread : Job.attempt hazards .read path (tree.read path) with
      | error fault =>
          rw [verdictIn, hread, verdict_error_written?] at hwritten
          cases hwritten
      | ok bytes =>
          obtain ⟨hclear, -⟩ := (Job.attempt_eq_ok_iff (hmild.passable .read path) _ bytes).mp hread
          rw [verdictIn, attempt_read_ok hlocate hfile hclear,
            verdict_written?_iff hreal hclear] at hwritten
          exact absurd hwritten (h hlocate left)
    · rw [heq, FileTree.get?_put_file hfound, if_neg hplace, hfile]

theorem sameShape_foldl_effect (hwell : tree.WellFormed) (paths : List Path) :
    tree.SameShape (paths.foldl (p.effect hazards) tree) := by
  induction paths generalizing tree with
  | nil => exact .refl tree
  | cons path paths ih =>
      have hstep : tree.SameShape (p.effect hazards tree path) := sameShape_effect hwell path
      exact hstep.trans (ih (hstep.wellFormed hwell))

theorem get?_foldl_effect_of_ne (hwell : tree.WellFormed) {paths : List Path}
    (h : ∀ path ∈ paths, tree.locate path ≠ .ok location) :
    (paths.foldl (p.effect hazards) tree).get? location = tree.get? location := by
  induction paths generalizing tree with
  | nil => rfl
  | cons path paths ih =>
      obtain ⟨hpath, hpaths⟩ := List.forall_mem_cons.mp h
      have hstep : tree.SameShape (p.effect hazards tree path) := sameShape_effect hwell path
      rw [List.foldl_cons, ih (hstep.wellFormed hwell), get?_effect_of_ne hpath]
      intro other hother
      rw [← hstep.locate_eq]
      exact hpaths other hother

theorem get?_foldl_effect_of_not_leaves (hmild : Job.Mild hazards) (hreal : p.dryRun = false)
    (hwell : tree.WellFormed) (hfile : tree.get? location = some (.file old)) {paths : List Path}
    (h : ∀ path ∈ paths, tree.locate path = .ok location →
      ∀ left, ¬Leaves p.allowed hazards path old left) :
    (paths.foldl (p.effect hazards) tree).get? location = some (.file old) := by
  induction paths generalizing tree with
  | nil => exact hfile
  | cons path paths ih =>
      obtain ⟨hpath, hpaths⟩ := List.forall_mem_cons.mp h
      have hstep : tree.SameShape (p.effect hazards tree path) := sameShape_effect hwell path
      refine ih (hstep.wellFormed hwell) (get?_effect_of_not_leaves hmild hreal hfile hpath) ?_
      intro other hother hlocate
      rw [← hstep.locate_eq] at hlocate
      exact hpaths other hother hlocate

theorem get?_foldl_effect_of_leaves (hreal : p.dryRun = false)
    (hwell : tree.WellFormed) (hfile : tree.get? location = some (.file old)) {paths : List Path}
    (hapart : tree.LeadsApart paths)
    (hmem : path ∈ paths) (hlocate : tree.locate path = .ok location)
    (hleaves : Leaves p.allowed hazards path old left) :
    (paths.foldl (p.effect hazards) tree).get? location = some (.file left) := by
  obtain ⟨front, back, rfl⟩ := List.append_of_mem hmem
  rw [FileTree.LeadsApart, List.pairwise_append, List.pairwise_cons] at hapart
  obtain ⟨-, ⟨hback, -⟩, hfront⟩ := hapart
  have hfront : ∀ other ∈ front, tree.locate other ≠ .ok location := by
    intro other hother hsame
    exact hfront other hother path (by simp) ⟨location, old, hsame, hlocate, hfile⟩
  have hback : ∀ other ∈ back, tree.locate other ≠ .ok location := by
    intro other hother hsame
    exact hback other hother ⟨location, old, hlocate, hsame, hfile⟩
  rw [List.foldl_append, List.foldl_cons]
  -- The file is as it was when its path comes up, and nothing touches it after that.
  have hbefore : tree.SameShape (front.foldl (p.effect hazards) tree) :=
    sameShape_foldl_effect hwell front
  have hfound : (front.foldl (p.effect hazards) tree).get? location = some (.file old) := by
    rw [get?_foldl_effect_of_ne hwell hfront, hfile]
  generalize front.foldl (p.effect hazards) tree = middle at hbefore hfound ⊢
  have hafter : middle.SameShape (p.effect hazards middle path) :=
    sameShape_effect (hbefore.wellFormed hwell) path
  rw [get?_foldl_effect_of_ne (hafter.wellFormed (hbefore.wellFormed hwell))]
  · rw [hbefore.locate_eq] at hlocate
    exact get?_effect_of_leaves hreal hlocate hfound hleaves
  · intro other hother
    rw [← (hbefore.trans hafter).locate_eq]
    exact hback other hother

theorem rewritesExactly_foldl (hmild : Job.Mild hazards) (hreal : p.dryRun = false)
    (hwell : tree.WellFormed) {paths : List Path} (hapart : tree.LeadsApart paths) :
    RewritesExactly p.allowed hazards paths tree (paths.foldl (p.effect hazards) tree) where
  sameShape := sameShape_foldl_effect hwell paths
  rewritten hmem hlocate hfile hrewrites :=
    get?_foldl_effect_of_leaves hreal hwell hfile hapart hmem hlocate hrewrites.leaves
  cutOff hmem hlocate hfile hstrips hstruck :=
    get?_foldl_effect_of_leaves hreal hwell hfile hapart hmem hlocate (hstrips.leaves hstruck)
  kept hfile hbarred := by
    refine get?_foldl_effect_of_not_leaves hmild hreal hwell hfile ?_
    rintro path hpath hlocate left ⟨new, hstrips, hopens, -⟩
    exact hopens (hbarred path hpath hlocate new hstrips)

end Processor

end CommentSweep
