import CommentSweep.Proofs.Processor.DryRun
import CommentSweep.Proofs.Run.Sweep
import CommentSweep.Proofs.Walker.Alongside
import Mathlib

/-!
Dry runs. A dry run leaves the tree alone. It comes to the end that a real run comes to, and if the
files of the run are different ones, its report says what the real run is going to report.
-/

namespace CommentSweep

open Disk

namespace Run

theorem keeps_findRoot (cwd : Location) (dir? : Option String) : Job.Keeps (findRoot cwd dir?) := by
  intro hazards tree
  unfold findRoot
  cases dir? with
  | none => exact Job.ensures_throw rfl
  | some dir =>
      refine (Job.keeps_checkPath _ hazards tree).bind fun _ =>
        Job.logs_tree.returns.idle.bind fun tree' => ?_
      split
      · split
        · exact Job.ensures_pure rfl
        · exact Job.ensures_throw rfl
        · exact Job.ensures_throw rfl
        · exact (Job.returns_say _).idle.bind fun _ => Job.ensures_pure rfl
      · exact Job.ensures_throw rfl

theorem keeps_conclude (options : Options) (stdoutBroken : Bool) (report : Report) :
    Job.Keeps (conclude options stdoutBroken report) := by
  intro hazards tree
  have hprint : Job.Idle hazards
      (if options.report then do
        if stdoutBroken then throw (.system ⟨.brokenPipe, none⟩)
        return report.text ++ "\n"
      else return "" : Job String) tree := by
    split
    · cases stdoutBroken with
      | true => exact Job.ensures_throw rfl
      | false => exact Job.ensures_pure rfl
    · exact Job.ensures_pure rfl
  refine (Job.returns_say _).idle.bind fun _ => ?_
  simp only
  split
  · exact (Job.returns_say _).idle.bind fun _ => hprint
  · exact hprint

theorem keeps_wrapUp (options : Options) (setting : Setting) (swept : Option Report) :
    Job.Keeps (wrapUp options setting swept) := by
  cases swept with
  | none => exact fun _ _ => Job.ensures_pure rfl
  | some report => exact (keeps_conclude _ _ _).bind fun _ _ _ => Job.ensures_pure rfl

theorem idle_ite {hazards : List Hazard} {tree : FileTree} {c : Prop} [Decidable c]
    {x y : Job Ending} (hx : Job.Idle hazards x tree) (hy : Job.Idle hazards y tree) :
    Job.Idle hazards (if c then x else y) tree := by
  split
  · exact hx
  · exact hy

theorem keeps_close (environment : Environment) (ending : Ending) :
    Job.Keeps (close environment ending) := by
  intro hazards tree
  unfold close
  split
  · exact Job.ensures_pure rfl
  · exact Job.ensures_pure rfl
  · exact (Job.returns_say _).idle.bind fun _ => Job.ensures_pure rfl
  · refine idle_ite (Job.ensures_pure rfl) (idle_ite (Job.ensures_pure rfl) ?_)
    exact (Job.returns_say _).idle.bind fun _ => Job.ensures_pure rfl

@[simp] theorem tree_settle (job : Job Ending) (world : World) :
    (settle job world).2.tree = (job.run.run world).2.tree := by
  rw [settle]
  generalize job.run.run world = result
  obtain ⟨ending, after⟩ := result
  cases ending <;> rfl

@[simp] theorem tree_settle_close (environment : Environment) (ending : Ending) (world : World) :
    (settle (close environment ending) world).2.tree = world.tree :=
  (tree_settle _ world).trans ((keeps_close environment ending).tree_eq world)

theorem tree_run_of_parse_error {argv : List String} {halt : Args.Halt}
    (hargs : Args.parse argv = .error halt) (setting : Setting) (asProgram : Bool)
    (world : World) : (run argv setting asProgram world).world.tree = world.tree := by
  simp only [run, hargs, halted]
  cases asProgram with
  | false => rfl
  | true => exact tree_settle_close _ _ world

theorem tree_run_of_parse_ok {argv : List String} {options : Options}
    (hargs : Args.parse argv = .ok options) (setting : Setting) (asProgram : Bool)
    (world : World) :
    (run argv setting asProgram world).world.tree =
      ((sweep options setting).run.run world).2.tree := by
  have hperform := (tree_settle (perform options setting) world).trans
    (Job.tree_bind_of_keeps (keeps_wrapUp options setting) world)
  simp only [run, hargs]
  cases asProgram with
  | false => exact hperform
  | true => exact (tree_settle_close _ _ _).trans hperform

theorem keeps_sweepRoot {options : Options} (hdry : options.dryRun = true) (setting : Setting)
    (root : Path) : Job.Keeps (sweepRoot options setting root) := by
  have hwalk (w : Walker) (s : Report × Registry) :
      Job.Keeps (w.walk (step (processor options root)) s) := by
    apply Walker.keeps_walk
    intro state path
    exact (Processor.keeps_process hdry state.2 path).bind fun _ _ _ => Job.ensures_pure rfl
  intro hazards tree
  refine (Walker.keeps_ofRoot root _ _ hazards tree).bind fun w =>
    (returns_banner options w _).idle.bind fun _ => ?_
  exact (hwalk w _ hazards tree).bind fun _ => Job.ensures_pure rfl

theorem tree_run_of_dryRun {argv : List String} {options : Options}
    (hargs : Args.parse argv = .ok options) (hdry : options.dryRun = true) (setting : Setting)
    (asProgram : Bool) (world : World) :
    (run argv setting asProgram world).world.tree = world.tree := by
  have hsweep : Job.Keeps (sweep options setting) := by
    refine (keeps_findRoot _ _).bind fun root? => ?_
    cases root? with
    | none => exact fun _ _ => Job.ensures_pure rfl
    | some root =>
        exact (keeps_sweepRoot hdry setting root).bind fun _ _ _ => Job.ensures_pure rfl
  exact (tree_run_of_parse_ok hargs setting asProgram world).trans (hsweep.tree_eq world)

inductive Ending.Mirrors : Ending → Ending → Prop
  | completed {dry real : Report} (h : dry.Mirrors real) (stdout stdout' : String) :
      Mirrors (.completed dry stdout) (.completed real stdout')
  | exited (code : Nat) : Mirrors (.exited code) (.exited code)
  | aborted (abort : Abort) : Mirrors (.aborted abort) (.aborted abort)

section

variable {hazards : List Hazard} {tree : FileTree} {p q : Processor} {w : Walker}
  {registry : Registry} (hwell : tree.WellFormed) (hwrite : ∀ path, Job.Clear hazards .write path)
  (hstandard : registry.IsStandard)

include hwell hwrite hstandard

theorem alongside_files (report : Report) :
    Job.Alongside False hazards (w.walk (step p) (report, registry)) tree w.files tree
      fun s paths t u => u = tree ∧ t = paths.foldl (p.effect hazards) tree ∧
        s.1 = (p.outcomes hazards tree paths).foldl Report.record report ∧ s.2.IsStandard := by
  apply Walker.alongside_walk
  · intro s paths t u path h
    obtain ⟨rfl, rfl, hreport, hstandard⟩ := h
    have hwell' : (paths.foldl (p.effect hazards) u).WellFormed :=
      (Processor.sameShape_foldl_effect hwell paths).wellFormed hwell
    have hprocess := Processor.alongside_process (p := p) rfl hwell' hwell'
      (hwrite path).passable hstandard hstandard
    rw [← bind_pure (pure (paths ++ [path]))]
    refine (hprocess.left (paths ++ [path])).bind fun a paths' t' u' h => ?_
    obtain ⟨rfl, rfl, b, u', ⟨houtcome, hstandard', rfl⟩, -⟩ := h
    refine Job.alongside_pure ⟨rfl, ?_, ?_, hstandard'⟩
    · rw [List.foldl_append]
      rfl
    · rw [Processor.outcomes_append, List.foldl_append, ← hreport, houtcome]
      rfl
  · intro s paths t u h
    obtain ⟨rfl, rfl, -, -⟩ := h
    exact (Processor.sameShape_foldl_effect hwell paths).symm
  · exact ⟨rfl, rfl, rfl, hstandard⟩

theorem alongside_step (hallowed : p.allowed = q.allowed) (report report' : Report) :
    Job.Alongside True hazards (w.walk (step p) (report, registry)) tree
      (w.walk (step q) (report', registry)) tree
      fun s s' t u => (s.2.IsStandard ∧ tree.SameShape t) ∧ s'.2.IsStandard ∧ tree.SameShape u := by
  apply Walker.alongside_walk
  · intro s s' t u path h
    obtain ⟨⟨hstandard, hshape⟩, hstandard', hshape'⟩ := h
    have hwell₁ := hshape.wellFormed hwell
    have hwell₂ := hshape'.wellFormed hwell
    refine (Processor.alongside_process hallowed hwell₁ hwell₂ (hwrite path).passable hstandard
      hstandard').bind fun a b t' u' h => ?_
    obtain ⟨⟨-, hnext, rfl⟩, -, hnext', rfl⟩ := h
    exact Job.alongside_pure ⟨⟨hnext, hshape.trans (Processor.sameShape_effect hwell₁ path)⟩,
      hnext', hshape'.trans (Processor.sameShape_effect hwell₂ path)⟩
  · intro s s' t u h
    exact h.1.2.symm.trans h.2.2
  · exact ⟨⟨hstandard, .refl tree⟩, hstandard, .refl tree⟩

theorem alongside_walks (hdry : p.dryRun = true) (hreal : q.dryRun = false)
    (hallowed : p.allowed = q.allowed)
    (hapart : ∀ paths, Job.Returns hazards w.files tree paths tree → tree.LeadsApart paths)
    {report report' : Report} (hreports : report.Mirrors report') :
    Job.Alongside True hazards (w.walk (step p) (report, registry)) tree
      (w.walk (step q) (report', registry)) tree fun s s' _ _ => s.1.Mirrors s'.1 := by
  have hboth := alongside_step (w := w) hwell hwrite hstandard hallowed report report'
  refine (hboth.through (alongside_files hwell hwrite hstandard report)
    (alongside_files hwell hwrite hstandard report') (w.keeps_files hazards tree)).mono ?_
    fun _ _ _ _ => trivial
  rintro s s' t u ⟨paths, hfiles, ⟨-, -, hs, -⟩, -, -, hs', -⟩
  rw [hs, hs']
  exact Processor.mirrors_outcomes hdry hreal hallowed hwrite hwell (hapart paths hfiles)
    (fun _ _ => rfl) hreports

end

theorem ends_conclude {hazards : List Hazard} {tree : FileTree} {options : Options}
    (hreport : options.report = true) (report : Report) :
    Job.Ends hazards (conclude options true report) tree (.error (.system ⟨.brokenPipe, none⟩))
      tree := by
  unfold conclude
  rw [hreport]
  cases options.dryRun with
  | true => exact (Job.returns_say _).bind ((Job.returns_say _).bind (Job.ends_throw _))
  | false => exact (Job.returns_say _).bind (Job.ends_throw _)

theorem alongside_conclude {hazards : List Hazard} {t u : FileTree} {options options' : Options}
    (hsame : options.report = options'.report) (stdoutBroken : Bool) (report report' : Report) :
    Job.Alongside True hazards (conclude options stdoutBroken report) t
      (conclude options' stdoutBroken report') u fun _ _ _ _ => True := by
  by_cases hprints : options.report = true → stdoutBroken = false
  · exact (returns_conclude hprints report).alongside
      (returns_conclude (hsame ▸ hprints) report') trivial
  · obtain ⟨hreport, hbroken⟩ : options.report = true ∧ stdoutBroken = true := by
      simpa using hprints
    rw [hbroken]
    exact (ends_conclude hreport report).relates_error
      (fun _ => ends_conclude (hsame ▸ hreport) report') trivial

section

variable {options : Options} {setting : Setting} {world : World}

/-- No two paths that the walker of a run yields lead to one file. -/
def FilesApart (options : Options) (setting : Setting) (world : World) : Prop :=
  ∀ root w paths,
    Job.Returns world.hazards (findRoot setting.cwd options.dir?) world.tree (some root)
      world.tree →
    Job.Returns world.hazards (Walker.ofRoot root (exclusions options) options.verbose) world.tree
      w world.tree →
    Job.Returns world.hazards w.files world.tree paths world.tree →
    world.tree.LeadsApart paths

variable (hdry : options.dryRun = true) (hwell : world.tree.WellFormed)
  (hwrite : ∀ path, Job.Clear world.hazards .write path) (hstandard : setting.registry = .standard)
  (hapart : FilesApart options setting world)

include hdry hwell hwrite hstandard hapart

theorem alongside_sweepRoot {root : Path}
    (hroot : Job.Returns world.hazards (findRoot setting.cwd options.dir?) world.tree (some root)
      world.tree) :
    Job.Alongside True world.hazards (sweepRoot options setting root) world.tree
      (sweepRoot { options with dryRun := false } setting root) world.tree
      fun report report' _ _ => report.Mirrors report' := by
  have hregistry : setting.registry.IsStandard := by
    rw [hstandard]
    exact Registry.isStandard_standard
  have hempty : (emptyReport options setting root).Mirrors
      (emptyReport { options with dryRun := false } setting root) := by
    constructor <;> rfl
  have hallowed : (processor options root).allowed =
      (processor { options with dryRun := false } root).allowed := by
    simp only [processor]
  refine (Walker.keeps_ofRoot root (exclusions options) options.verbose _ _).alongside_bind
    fun w hw => ?_
  have hwalks : Job.Alongside True world.hazards
      (w.walk (step (processor options root)) (emptyReport options setting root, setting.registry))
      world.tree
      (w.walk (step (processor { options with dryRun := false } root))
        (emptyReport { options with dryRun := false } setting root, setting.registry))
      world.tree fun s s' _ _ => s.1.Mirrors s'.1 :=
    alongside_walks hwell hwrite hregistry hdry rfl hallowed
      (fun paths => hapart root w paths hroot hw) hempty
  have hbanner : Job.Alongside True world.hazards
      (banner options w (Extension.normalize options.extensions)) world.tree
      (banner { options with dryRun := false } w (Extension.normalize options.extensions))
      world.tree fun _ _ t u => t = world.tree ∧ u = world.tree :=
    (returns_banner options w _).alongside (returns_banner { options with dryRun := false } w _)
      ⟨rfl, rfl⟩
  refine hbanner.bind fun _ _ t u htrees => ?_
  rw [htrees.1, htrees.2]
  exact hwalks.bind fun s s' t u h => Job.alongside_pure h

theorem alongside_sweep :
    Job.Alongside True world.hazards (sweep options setting) world.tree
      (sweep { options with dryRun := false } setting) world.tree
      fun swept swept' _ _ => Option.Rel Report.Mirrors swept swept' := by
  refine (keeps_findRoot _ _ _ _).alongside_bind fun root? hroot => ?_
  cases root? with
  | none => exact Job.alongside_pure .none
  | some root =>
      exact (alongside_sweepRoot hdry hwell hwrite hstandard hapart hroot).bind
        fun report report' t u h => Job.alongside_pure (.some h)

theorem alongside_perform :
    Job.Alongside True world.hazards (perform options setting) world.tree
      (perform { options with dryRun := false } setting) world.tree
      fun ending ending' _ _ => ending.Mirrors ending' := by
  refine (alongside_sweep hdry hwell hwrite hstandard hapart).bind fun swept swept' t u h => ?_
  cases h with
  | none => exact Job.alongside_pure (.exited 1)
  | @some report report' h =>
      have hfinish : (report.finish (.real setting.finished)).Mirrors
          (report'.finish (.real setting.finished)) :=
        ⟨h.seen, h.skipped, h.unchanged, h.changed, h.changedPaths, h.errors, h.unwritten,
          h.written⟩
      have hsame : options.report = ({ options with dryRun := false } : Options).report := rfl
      refine (alongside_conclude hsame setting.stdoutBroken _ _).bind fun stdout stdout' _ _ _ => ?_
      exact Job.alongside_pure (.completed hfinish stdout stdout')

end

theorem mirrors_settle {job job' : Job Ending} {world : World}
    (h : Job.Alongside True world.hazards job world.tree job' world.tree
      fun ending ending' _ _ => ending.Mirrors ending') :
    (settle job world).1.Mirrors (settle job' world).1 := by
  obtain ⟨result, after, records, hboth, hjob⟩ := h
  rw [settle, settle, hjob world.log]
  cases result with
  | error abort =>
      obtain ⟨after', -, hends⟩ := hboth
      obtain ⟨log, hjob'⟩ := (hends trivial).run world.log
      rw [hjob']
      exact .aborted abort
  | ok ending =>
      obtain ⟨ending', after', hreturns, hmirrors⟩ := hboth
      obtain ⟨log, hjob'⟩ := hreturns.run world.log
      rw [hjob']
      exact hmirrors

def Closes (job : Job Ending) : Prop :=
  ∃ last : Ending, last.Mirrors last ∧ ∀ world, (settle job world).1 = last

theorem closes_ite {c : Prop} [Decidable c] {x y : Job Ending} (hx : Closes x) (hy : Closes y) :
    Closes (if c then x else y) := by
  split
  · exact hx
  · exact hy

theorem closes_close (environment : Environment) (ending : Ending) :
    Closes (close environment ending) := by
  have hexit (code : Nat) : Closes (pure (.exited code)) :=
    ⟨_, .exited code, fun _ => rfl⟩
  unfold close
  split
  · exact hexit 0
  · exact hexit _
  · exact ⟨_, .exited 130, fun _ => rfl⟩
  · exact closes_ite (hexit 0)
      (closes_ite ⟨_, .aborted _, fun _ => rfl⟩ ⟨_, .exited 1, fun _ => rfl⟩)

theorem mirrors_close (environment : Environment) {ending ending' : Ending}
    (h : ending.Mirrors ending') (world world' : World) :
    (settle (close environment ending) world).1.Mirrors
      (settle (close environment ending') world').1 := by
  cases h with
  | completed h stdout stdout' => exact .exited 0
  | exited code => exact .exited code
  | aborted abort =>
      obtain ⟨last, hlast, hsettle⟩ := closes_close environment (.aborted abort)
      rw [hsettle, hsettle]
      exact hlast

/-- A dry run leaves every file as it is. With the standard registry and no fault in the way of
writing it ends as the real run does, and if the paths that the walker yields lead to different
files, its report foretells the report of the real run. If the directory is found, the patterns
compile and no hazard but faults of the system is there, both runs end with a report. -/
theorem dry_run_mirrors_real_run {argv argv' : List String} {options : Options}
    (hargs : Args.parse argv = .ok options) (hdry : options.dryRun = true)
    (hargs' : Args.parse argv' = .ok { options with dryRun := false }) {setting : Setting}
    {world : World} (hwell : world.tree.WellFormed) (hstandard : setting.registry = .standard)
    (hwrite : ∀ hazard ∈ world.hazards, hazard.access ≠ .write) :
    (∀ asProgram, (run argv setting asProgram world).world.tree = world.tree) ∧
    (FilesApart options setting world → ∀ asProgram,
      (run argv setting asProgram world).ending.Mirrors
        (run argv' setting asProgram world).ending) ∧
    ∀ root rules, Prepared options setting world root rules →
      ∃ dry real stdout stdout',
        (run argv setting false world).ending = .completed dry stdout ∧
        (run argv' setting false world).ending = .completed real stdout' := by
  have hclear (path : Path) : Job.Clear world.hazards .write path := by
    intro hazard hmem hhit
    exact hwrite hazard hmem hhit.2
  refine ⟨fun asProgram => tree_run_of_dryRun hargs hdry setting asProgram world, ?_, ?_⟩
  · intro hapart asProgram
    have hsettle := mirrors_settle (alongside_perform hdry hwell hclear hstandard hapart)
    simp only [run, hargs, hargs']
    cases asProgram with
    | false => exact hsettle
    | true => exact mirrors_close setting.environment hsettle _ _
  · intro root rules hprepared
    have hprepared' : Prepared { options with dryRun := false } setting world root rules :=
      ⟨hprepared.wellFormed, hprepared.mild, hprepared.standard, hprepared.stdout,
        hprepared.found, hprepared.compiled⟩
    have hending := (run_of_returns hargs hprepared.returns_perform).1
    have hending' := (run_of_returns hargs' hprepared'.returns_perform).1
    exact ⟨_, _, _, _, hending, hending'⟩

def dryOptions : Options :=
  { scriptOptions with dryRun := true }

theorem prepared_dry_twoScripts : Prepared dryOptions {} twoScripts ⟨.root, []⟩ [] :=
  ⟨prepared_twoScripts.wellFormed, prepared_twoScripts.mild, rfl, nofun,
    prepared_twoScripts.found, prepared_twoScripts.compiled⟩

theorem filesApart_twoScripts : FilesApart dryOptions {} twoScripts := by
  intro root w paths hroot hw hfiles
  have hprepared := prepared_dry_twoScripts
  cases hroot.unique hprepared.returns_findRoot
  obtain rfl := hw.unique hprepared.returns_ofRoot
  obtain rfl := hfiles.unique hprepared.returns_files
  have hyielded : yielded dryOptions twoScripts ⟨.root, []⟩ [] = _ := yielded_twoScripts
  rw [hyielded]
  exact leadsApart_twoScripts

theorem dry_run_mirrors_two_scripts :
    let dry := run ["--dry-run", "--dir", "/", "--ed", "", "--ef", "", "--ext", "js"] {} false
      twoScripts
    let real := run ["--dir", "/", "--ed", "", "--ef", "", "--ext", "js"] {} false twoScripts
    dry.world.tree = twoScripts.tree ∧ dry.ending.Mirrors real.ending ∧
      ∃ report stdout, dry.ending = .completed report stdout := by
  have hargs : Args.parse ["--dry-run", "--dir", "/", "--ed", "", "--ef", "", "--ext", "js"] =
      .ok dryOptions := by cbv
  have hargs' : Args.parse ["--dir", "/", "--ed", "", "--ef", "", "--ext", "js"] =
      .ok { dryOptions with dryRun := false } := by cbv
  have hstandard : ({} : Setting).registry = .standard := rfl
  obtain ⟨htree, hmirrors, hcompleted⟩ := dry_run_mirrors_real_run hargs rfl hargs'
    prepared_dry_twoScripts.wellFormed hstandard (by decide)
  obtain ⟨report, -, stdout, -, hending, -⟩ := hcompleted _ _ prepared_dry_twoScripts
  exact ⟨htree false, hmirrors filesApart_twoScripts false, report, stdout, hending⟩

end Run

end CommentSweep
