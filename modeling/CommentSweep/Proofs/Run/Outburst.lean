import CommentSweep.Proofs.Processor.BrokenOff
import CommentSweep.Proofs.Run.Confined
import CommentSweep.Proofs.Walker.Itinerary
import Mathlib

/-!
Outbursts in a run: interruptions, crashes and builders that fail. They come from the reading of the
ignore file or from the walk over the files. Files that have been processed before an outburst are
as they are without it.
-/

namespace CommentSweep

open Disk Job

def Abort.isOutburst : Abort → Bool
  | .interrupted => true
  | .crashed _ => true
  | .build _ => true
  | _ => false

namespace Walker

variable {hazards : List Hazard} {root : Path} {exclusions : Exclusions}

theorem linesFor?_calm (h : Approachable hazards root exclusions) (tree : FileTree) :
    linesFor? (calm hazards) tree root exclusions = linesFor? hazards tree root exclusions := by
  rw [linesFor?, linesFor?]
  split
  · next huse => rw [ignoreLinesIn?, attempt_calm (h huse), ← ignoreLinesIn?]
  · rfl

theorem returns_ofRoot_calm (hnull : root.isNullFree) (h : Approachable hazards root exclusions)
    {tree : FileTree} {rules : Ignore.Rules}
    (hrules : Ignore.rulesOf (patterns hazards tree root exclusions) = .ok rules)
    (verbose : Bool) :
    Returns (calm hazards) (ofRoot root exclusions verbose) tree
      (ofRules hazards tree root exclusions rules verbose) tree := by
  have hlines := linesFor?_calm h tree
  have hcalm : Ignore.rulesOf (patterns (calm hazards) tree root exclusions) = .ok rules := by
    rw [patterns, hlines, ← patterns, hrules]
  have hsame : ofRules (calm hazards) tree root exclusions rules verbose =
      ofRules hazards tree root exclusions rules verbose := by
    rw [ofRules, hlines, ← ofRules]
  rw [← hsame]
  exact returns_ofRoot hnull (approachable_of_mild (mild_calm hazards)) hcalm verbose

end Walker

namespace Run

section

variable {p : Processor} {hazards : List Hazard} {tree start after : FileTree}

theorem weathers_step (hwell : tree.WellFormed) (state : Report × Registry) (path : Path)
    (spare : String → Cleaner) :
    Weathers hazards (Mild hazards ∧ path.isNullFree ∧ state.2.Sound) (step p state path)
      (step p (state.1, state.2.mend spare) path) tree
      fun a b after => tree.SameShape after ∧ (state.2.Sound → a.2.Sound) ∧
        b = (a.1, a.2.mend spare) := by
  refine (Processor.weathers_process hwell state.2 spare).andThen fun a b after h => ?_
  obtain ⟨hshape, hsound, rfl⟩ := h
  exact ⟨_, _, returns_pure _, returns_pure _, hshape, hsound, rfl⟩

theorem tidy_step (hwell : start.WellFormed) : Walker.Tidy hazards start (step p) := by
  intro state path tree hshape
  refine Ensures.mono (weathers_step (hshape.wellFormed hwell) state path
    fun _ => Registry.cleanerOf .script) ?_
  rintro (abort | next) after _ hends
  · obtain ⟨_, ⟨-, rfl⟩, -⟩ := hends
    rfl
  · obtain ⟨_, _, -, -, hafter, -⟩ := hends
    exact hafter

/-- Files that are processed among all hazards come to the same among the faults of the system, and
with a registry that is mended. -/
theorem visits_mend {paths : List Path} {state state' : Report × Registry} (hwell : tree.WellFormed)
    (h : Walker.Visits (step p) hazards paths state tree state' after) (spare : String → Cleaner) :
    Walker.Visits (step p) (calm hazards) paths (state.1, state.2.mend spare) tree
      (state'.1, state'.2.mend spare) after := by
  induction h with
  | nil state tree => exact .nil _ tree
  | @cons path paths state next state' tree middle after returns shape rest ih =>
      rcases (weathers_step hwell state path spare).cases with
        ⟨-, abort, hends⟩ | ⟨a, b, last, hreturns, hcalm, -, -, rfl⟩
      · cases (hends.unique returns).1
      · obtain ⟨hstate, rfl⟩ := Ends.unique hreturns returns
        cases hstate
        exact .cons hcalm shape (ih (shape.wellFormed hwell))

theorem exists_visits {paths : List Path} (hmild : Mild hazards) (hwell : tree.WellFormed)
    (hnull : ∀ path ∈ paths, path.isNullFree) (report : Report) {registry : Registry}
    (hsound : registry.Sound) :
    ∃ report' registry' after, Walker.Visits (step p) hazards paths (report, registry) tree
      (report', registry') after := by
  induction paths generalizing tree report registry with
  | nil => exact ⟨report, registry, tree, .nil _ tree⟩
  | cons path paths ih =>
      obtain ⟨hpath, hpaths⟩ := List.forall_mem_cons.mp hnull
      rcases (weathers_step hwell (report, registry) path fun _ =>
        Registry.cleanerOf .script).cases with
        ⟨hexposed, -⟩ | ⟨next, _, middle, hreturns, -, hshape, hnext, -⟩
      · exact absurd ⟨hmild, hpath, hsound⟩ hexposed
      · obtain ⟨report', registry', after, hrest⟩ :=
          ih (hshape.wellFormed hwell) hpaths next.1 (hnext hsound)
        exact ⟨report', registry', after, .cons hreturns hshape hrest⟩

theorem get?_of_visits {paths : List Path} {state state' : Report × Registry}
    (hwell : tree.WellFormed)
    (h : Walker.Visits (step p) hazards paths state tree state' after) {file : Location}
    (hpaths : ∀ path ∈ paths, tree.locate path ≠ .ok file) : after.get? file = tree.get? file := by
  have hupholds : Upholds (Spares tree file) (paths.foldlM (step p) state) := by
    apply upholds_foldlM
    intro path hpath state
    refine (Processor.upholds_process ?_ state.2).bind fun _ => upholds_pure _
    intro _ _ bytes tree' after' hspares hwrite
    exact hspares.overwrite hwell (hpaths path hpath) hwrite
  obtain ⟨_, _, _, ⟨hspares, -, rfl⟩, -⟩ :=
    (hupholds hazards tree (.refl tree file)).and h.returns_foldlM
  exact hspares.get?_eq

end

def Tame : Except Abort α → Prop
  | .ok _ => True
  | .error abort => abort.isOutburst = false

def endingOf : Except Abort Ending → Ending
  | .ok ending => ending
  | .error abort => .aborted abort

@[simp] theorem settle_fst (job : Job Ending) (world : World) :
    (settle job world).1 = endingOf (job.run.run world).1 := by
  rw [settle]
  generalize job.run.run world = result
  obtain ⟨ending, after⟩ := result
  cases ending <;> rfl

section

variable {hazards : List Hazard} {tree : FileTree}

theorem tame_findRoot (cwd : Location) (dir? : Option String) :
    Ensures hazards (findRoot cwd dir?) tree fun result _ _ => Tame result := by
  unfold findRoot
  cases dir? with
  | none => exact ensures_throw rfl
  | some dir =>
      have hcheck : Ensures hazards (checkPath (Path.ofString dir)) tree fun result _ _ =>
          Tame result := by
        rw [checkPath_eq]
        split
        · exact ensures_pure trivial
        · exact ensures_throw rfl
      refine hcheck.bind (fun _ after _ _ => logs_tree.returns.bind_ensures ?_) fun _ _ _ h => h
      split
      · split
        · exact ensures_pure trivial
        · exact ensures_throw rfl
        · exact ensures_throw rfl
        · exact (returns_say _).bind_ensures (ensures_pure trivial)
      · exact ensures_throw rfl

theorem tame_wrapUp (options : Options) (setting : Setting) (swept : Option Report) :
    Ensures hazards (wrapUp options setting swept) tree fun result _ _ =>
      ∀ abort, endingOf result = .aborted abort → abort.isOutburst = false := by
  cases swept with
  | none => exact ensures_pure nofun
  | some report =>
      rw [wrapUp]
      by_cases hprints : options.report = true → setting.stdoutBroken = false
      · exact (returns_conclude hprints _).bind_ensures (ensures_pure nofun)
      · obtain ⟨hreport, hbroken⟩ : options.report = true ∧ setting.stdoutBroken = true := by
          simpa using hprints
        rw [hbroken]
        refine ((ends_conclude hreport _).bind_error _).mono ?_
        rintro _ _ _ ⟨rfl, -⟩ abort ⟨⟩
        rfl

end

/-- The outburst comes while the ignore file is read, or from the walk over the files. -/
inductive BreaksOut (options : Options) (setting : Setting) (world : World) (root : Path)
    (abort : Abort) : FileTree → Prop
  | rules (asked : options.useIgnoreFile = true)
      (met : abort? world.hazards .rules (root.child Defaults.ignoreFile) = some abort) :
      BreaksOut options setting world root abort world.tree
  | walk {rules : Ignore.Rules} {after : FileTree}
      (approachable : Walker.Approachable world.hazards root (exclusions options))
      (compiled : Ignore.rulesOf
        (Walker.patterns world.hazards world.tree root (exclusions options)) = .ok rules)
      (ends : Ends world.hazards
        ((walker options world root rules).walk (step (processor options root))
          (emptyReport options setting root, setting.registry)) world.tree (.error abort) after) :
      BreaksOut options setting world root abort after

section

variable {options : Options} {setting : Setting} {world : World} (hwell : world.tree.WellFormed)

include hwell

theorem ensures_sweepRoot {root : Path} (hnull : root.isNullFree) :
    Ensures world.hazards (sweepRoot options setting root) world.tree fun result after _ =>
      ∀ abort, result = .error abort → abort.isOutburst = true →
        BreaksOut options setting world root abort after := by
  have hofRoot := Walker.keeps_ofRoot root (exclusions options) options.verbose
  refine (hofRoot world.hazards world.tree).bind_ensures ?_ ?_
  · intro w hw
    obtain ⟨happroach, rules, hrules, rfl⟩ := Walker.compiled_of_returns hnull hw
    obtain ⟨result, after, hwalk, -⟩ := Walker.exists_ends_walk (tidy_step hwell)
      (walker options world root rules) (emptyReport options setting root, setting.registry)
    refine (returns_banner options _ _).bind_ensures ?_
    cases result with
    | ok state => exact Ends.bind_ensures hwalk (ensures_pure nofun)
    | error abort =>
        refine (hwalk.bind_error _).mono ?_
        rintro _ _ _ ⟨rfl, rfl⟩ _ ⟨⟩ _
        exact .walk happroach hrules hwalk
  · rintro _ hends abort ⟨⟩ houtburst
    rcases Walker.abort_of_ends_ofRoot hnull hends with ⟨e, rfl⟩ | ⟨hasked, hmet⟩
    · cases houtburst
    · exact .rules hasked hmet

theorem ensures_sweep :
    Ensures world.hazards (sweep options setting) world.tree fun result after _ =>
      ∀ abort, result = .error abort → abort.isOutburst = true →
        ∃ root, ((findRoot setting.cwd options.dir?).run.run world).1 = .ok (some root) ∧
          BreaksOut options setting world root abort after := by
  have hfindRoot := keeps_findRoot setting.cwd options.dir?
  refine (hfindRoot world.hazards world.tree).bind_ensures ?_ ?_
  · intro root? hroot
    cases root? with
    | none => exact ensures_pure nofun
    | some root =>
        obtain ⟨_, hrun⟩ := hroot.run world.log
        have hfound := congrArg Prod.fst hrun
        refine (ensures_sweepRoot hwell (nullFree_of_found hwell hfound)).bind ?_ ?_
        · exact fun _ _ _ _ => ensures_pure nofun
        · intro abort _ _ hbreaks _ hresult houtburst
          cases hresult
          exact ⟨root, hfound, hbreaks abort rfl houtburst⟩
  · rintro _ hends abort ⟨⟩ houtburst
    obtain ⟨_, _, _, ⟨htame, rfl, -⟩, -⟩ :=
      (tame_findRoot setting.cwd options.dir?).and hends
    rw [htame] at houtburst
    cases houtburst

theorem ensures_perform :
    Ensures world.hazards (perform options setting) world.tree fun result after _ =>
      ∀ abort, endingOf result = .aborted abort → abort.isOutburst = true →
        ∃ root, ((findRoot setting.cwd options.dir?).run.run world).1 = .ok (some root) ∧
          BreaksOut options setting world root abort after := by
  refine (ensures_sweep hwell).bind ?_ ?_
  · intro swept after _ _
    refine (tame_wrapUp options setting swept).mono ?_
    intro result _ _ htame abort hending houtburst
    rw [htame abort hending] at houtburst
    cases houtburst
  · intro abort _ _ hbreaks _ hending
    cases hending
    exact hbreaks abort rfl

end

section

variable {argv : List String} {options : Options} {setting : Setting} {world : World}
  {abort : Abort}

theorem ending_run (hargs : Args.parse argv = .ok options) (setting : Setting) (world : World) :
    (run argv setting false world).ending =
      endingOf ((perform options setting).run.run world).1 := by
  rw [← settle_fst]
  simp only [run, hargs, Bool.false_eq_true, if_false]

theorem tree_run (hargs : Args.parse argv = .ok options) (setting : Setting) (asProgram : Bool)
    (world : World) :
    (run argv setting asProgram world).world.tree =
      ((perform options setting).run.run world).2.tree :=
  (tree_run_of_parse_ok hargs setting asProgram world).trans
    (tree_bind_of_keeps (keeps_wrapUp options setting) world).symm

theorem exists_breaksOut (hargs : Args.parse argv = .ok options) (hwell : world.tree.WellFormed)
    (houtburst : abort.isOutburst = true)
    (h : (run argv setting false world).ending = .aborted abort) :
    ∃ root, ((findRoot setting.cwd options.dir?).run.run world).1 = .ok (some root) ∧
      BreaksOut options setting world root abort (run argv setting false world).world.tree := by
  obtain ⟨_, hbreaks⟩ := (ensures_perform hwell).run
  rw [tree_run hargs]
  exact hbreaks abort ((ending_run hargs setting world).symm.trans h) houtburst

theorem ends_sweep {root : Path} {after : FileTree}
    (hroot : Returns world.hazards (findRoot setting.cwd options.dir?) world.tree (some root)
      world.tree)
    (h : Ends world.hazards (sweepRoot options setting root) world.tree (.error abort) after) :
    Ends world.hazards (sweep options setting) world.tree (.error abort) after :=
  hroot.bind (h.bind_error _)

theorem run_of_ends {after : FileTree} (hargs : Args.parse argv = .ok options)
    (h : Ends world.hazards (sweep options setting) world.tree (.error abort) after) :
    (run argv setting false world).ending = .aborted abort ∧
      ∀ asProgram, (run argv setting asProgram world).world.tree = after := by
  obtain ⟨_, hperform⟩ := (h.bind_error (wrapUp options setting)).run world.log
  constructor
  · rw [ending_run hargs, perform, hperform, endingOf]
  · intro asProgram
    rw [tree_run hargs, perform, hperform]

def programEnding (environment : Environment) (abort : Abort) : Ending :=
  if abort = .interrupted then .exited 130
  else if environment.passErrors then .aborted abort
  else .exited 1

theorem settle_close_aborted (environment : Environment) (hpipe : ∀ fault, abort ≠ .system fault)
    (world : World) :
    (settle (close environment (.aborted abort)) world).1 = programEnding environment abort := by
  rw [programEnding]
  cases abort with
  | system fault => exact absurd rfl (hpipe fault)
  | interrupted => rfl
  | _ => cases hpass : environment.passErrors <;> simp [close, hpass] <;> rfl

theorem run_of_aborted (hargs : Args.parse argv = .ok options)
    (h : (run argv setting false world).ending = .aborted abort)
    (hpipe : ∀ fault, abort ≠ .system fault) :
    (run argv setting true world).ending = programEnding setting.environment abort ∧
      ∀ asProgram, (run argv setting asProgram world).stdout = "" := by
  rw [ending_run hargs, ← settle_fst] at h
  simp only [run, hargs]
  cases hsettle : settle (perform options setting) world with
  | mk ending after =>
      rw [hsettle] at h
      cases h
      exact ⟨settle_close_aborted _ hpipe after, fun asProgram => rfl⟩

end

end Run

end CommentSweep
