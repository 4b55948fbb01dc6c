import CommentSweep.Run
import CommentSweep.Proofs.Processor.Effect
import CommentSweep.Proofs.Walker.OfRoot
import CommentSweep.Proofs.Walker.Visits
import Mathlib

/-!
Whole runs. A run whose directory is found and whose ignore patterns compile ends with a report. It
has processed the paths that the tree yielded before it, and has rewritten the files with comments.
-/

namespace CommentSweep

open Disk

namespace Run

theorem findRoot_eq_some_iff {cwd : Location} {dir? : Option String} {world : World} {root : Path} :
    ((findRoot cwd dir?).run.run world).1 = .ok (some root) ↔
      ∃ dir, dir? = some dir ∧ (Path.ofString dir).isNullFree ∧
        world.tree.canonical? cwd (Path.ofString dir) = some root ∧
        world.tree.entry root = .ok .dir := by
  unfold findRoot
  cases dir? with
  | none => exact ⟨nofun, nofun⟩
  | some dir =>
      simp only [Option.some.injEq, exists_eq_left', Job.checkPath_eq]
      rw [Job.run_bind]
      cases hnull : (Path.ofString dir).isNullFree with
      | false => exact ⟨nofun, nofun⟩
      | true =>
          change ((Job.tree >>= _ : Job (Option Path)).run.run world).1 = _ ↔ _
          simp only [Job.run_bind, Job.run_tree, true_and]
          cases world.tree.canonical? cwd (Path.ofString dir) with
          | none => exact ⟨nofun, nofun⟩
          | some found =>
              simp only [Option.some.injEq]
              constructor
              · intro h
                cases hentry : world.tree.entry found with
                | error errno =>
                    simp only [hentry] at h
                    cases errno <;> cases h
                | ok entry =>
                    simp only [hentry] at h
                    cases entry <;> cases h
                    exact ⟨rfl, hentry⟩
              · rintro ⟨rfl, hentry⟩
                rw [hentry]
                rfl

theorem returns_findRoot {cwd : Location} {dir? : Option String} {world : World} {root : Path}
    (h : ((findRoot cwd dir?).run.run world).1 = .ok (some root)) (hazards : List Hazard) :
    Job.Returns hazards (findRoot cwd dir?) world.tree (some root) world.tree := by
  obtain ⟨dir, rfl, hnull, hcanonical, hentry⟩ := findRoot_eq_some_iff.mp h
  refine (Job.returns_checkPath hnull).bind (Job.logs_tree.returns.bind ?_)
  simp only [hcanonical, hentry]
  exact Job.returns_pure _

theorem exists_locate_of_entry {tree : FileTree} {root : Path} {entry : Entry}
    (h : tree.entry root = .ok entry) : ∃ location, tree.locate root = .ok location := by
  rw [FileTree.entry] at h
  cases hlocate : tree.locate root with
  | error errno => rw [hlocate] at h; cases h
  | ok location => exact ⟨location, rfl⟩

theorem nullFree_root {tree : FileTree} (hwell : tree.WellFormed) {root : Path}
    (h : tree.entry root = .ok .dir) : root.isNullFree := by
  obtain ⟨location, hlocate⟩ := exists_locate_of_entry h
  exact Path.isNullFree_of_locate hwell hlocate

theorem nullFree_of_found {cwd : Location} {dir? : Option String} {world : World} {root : Path}
    (hwell : world.tree.WellFormed)
    (h : ((findRoot cwd dir?).run.run world).1 = .ok (some root)) : root.isNullFree := by
  obtain ⟨dir, -, -, -, hentry⟩ := findRoot_eq_some_iff.mp h
  exact nullFree_root hwell hentry

theorem found_of_tree_eq {cwd : Location} {dir? : Option String} {world other : World} {root : Path}
    (h : ((findRoot cwd dir?).run.run world).1 = .ok (some root))
    (htree : other.tree = world.tree) :
    ((findRoot cwd dir?).run.run other).1 = .ok (some root) := by
  rw [findRoot_eq_some_iff] at h ⊢
  rw [htree]
  exact h

def exclusions (options : Options) : Exclusions :=
  ⟨options.excludeDirs, options.excludeFiles, options.useIgnoreFile⟩

def processor (options : Options) (root : Path) : Processor :=
  ⟨Extension.normalize options.extensions, some root, options.dryRun⟩

def emptyReport (options : Options) (setting : Setting) (root : Path) : Report :=
  { started := .real setting.started, root := root.toString, dryRun := options.dryRun }

section

variable {hazards : List Hazard} {tree : FileTree}

def counting {σ : Type} (p : Processor) (count : σ → Outcome → σ) (state : σ × Registry)
    (path : Path) : Job (σ × Registry) := do
  let (outcome, registry) ← p.process state.2 path
  return (count state.1 outcome, registry)

theorem visits_counting {σ : Type} {p : Processor} (count : σ → Outcome → σ)
    (hmild : Job.Mild hazards) (hwell : tree.WellFormed) {paths : List Path}
    (hnull : ∀ path ∈ paths, path.isNullFree) {registry : Registry}
    (hstandard : registry.IsStandard) (s : σ) :
    ∃ registry', Walker.Visits (counting p count) hazards paths (s, registry) tree
      ((p.outcomes hazards tree paths).foldl count s, registry')
      (paths.foldl (p.effect hazards) tree) := by
  induction paths generalizing tree registry s with
  | nil => exact ⟨registry, .nil _ tree⟩
  | cons path paths ih =>
      obtain ⟨hpath, hpaths⟩ := List.forall_mem_cons.mp hnull
      have hshape : tree.SameShape (p.effect hazards tree path) :=
        Processor.sameShape_effect hwell path
      obtain ⟨next, hnext, hprocess⟩ := Processor.returns_process (hmild.passable .read path)
        (fun _ => hmild.passable .write path) hpath hstandard
      obtain ⟨last, hrest⟩ := ih (hshape.wellFormed hwell) hpaths hnext
        (count s (p.verdictIn hazards tree path).outcome)
      exact ⟨last, .cons (hprocess.bind (Job.returns_pure _)) hshape hrest⟩

theorem returns_banner (options : Options) (w : Walker) (extensions : List String) :
    Job.Returns hazards (banner options w extensions) tree () tree := by
  have hdry : Job.Returns hazards
      (if options.dryRun then say .warning "⚠️  DRY RUN: files will not be modified" else pure ())
      tree () tree := by
    split
    · exact Job.returns_say _
    · exact Job.returns_pure ()
  refine (Job.returns_say _).bind ((Job.returns_say _).bind ((Job.returns_say _).bind
    ((Job.returns_say _).bind ((Job.returns_say _).bind ?_))))
  simp only
  split
  · exact (Job.returns_say _).bind hdry
  · exact hdry

def printed (options : Options) (report : Report) : String :=
  if options.report then report.text ++ "\n" else ""

theorem returns_conclude {options : Options} {stdoutBroken : Bool}
    (h : options.report = true → stdoutBroken = false) (report : Report) :
    Job.Returns hazards (conclude options stdoutBroken report) tree (printed options report)
      tree := by
  have hprint : Job.Returns hazards
      (if options.report then do
        if stdoutBroken then throw (.system ⟨.brokenPipe, none⟩)
        return report.text ++ "\n"
      else return "" : Job String) tree (printed options report) tree := by
    rw [printed]
    cases hreport : options.report with
    | false => exact Job.returns_pure ""
    | true =>
        rw [h hreport]
        exact Job.returns_pure _
  refine (Job.returns_say _).bind ?_
  simp only
  split
  · exact (Job.returns_say _).bind hprint
  · exact hprint

variable {options : Options} {setting : Setting} {root : Path} {w : Walker} {report : Report}
  {registry : Registry} {after : FileTree}

theorem returns_sweep
    (hroot : Job.Returns hazards (findRoot setting.cwd options.dir?) tree (some root) tree)
    (hw : Job.Returns hazards (Walker.ofRoot root (exclusions options) options.verbose) tree w tree)
    (hwalk : Job.Returns hazards (w.walk (step (processor options root))
      (emptyReport options setting root, setting.registry)) tree (report, registry) after) :
    Job.Returns hazards (sweep options setting) tree (some report) after := by
  have hsweepRoot : Job.Returns hazards (sweepRoot options setting root) tree report after :=
    hw.bind ((returns_banner _ _ _).bind (hwalk.bind (Job.returns_pure _)))
  exact hroot.bind (hsweepRoot.bind (Job.returns_pure _))

theorem returns_perform
    (hsweep : Job.Returns hazards (sweep options setting) tree (some report) after)
    (hstdout : options.report = true → setting.stdoutBroken = false) :
    Job.Returns hazards (perform options setting) tree
      (.completed (report.finish (.real setting.finished))
        (printed options (report.finish (.real setting.finished)))) after :=
  hsweep.bind ((returns_conclude hstdout _).bind (Job.returns_pure _))

end

/-- What a run needs to get to its end: a directory, patterns that compile, the standard registry,
no hazard but faults of the system, and a place for the report if one is asked for. -/
structure Prepared (options : Options) (setting : Setting) (world : World) (root : Path)
    (rules : Ignore.Rules) : Prop where
  wellFormed : world.tree.WellFormed
  mild : Job.Mild world.hazards
  standard : setting.registry = .standard
  stdout : options.report = true → setting.stdoutBroken = false
  found : ((findRoot setting.cwd options.dir?).run.run world).1 = .ok (some root)
  compiled : Ignore.rulesOf (Walker.patterns world.hazards world.tree root (exclusions options)) =
    .ok rules

def walker (options : Options) (world : World) (root : Path) (rules : Ignore.Rules) : Walker :=
  .ofRules world.hazards world.tree root (exclusions options) rules options.verbose

theorem nullFree_paths (options : Options) {world : World} {root : Path} {hazards : List Hazard}
    (hmild : Job.Mild hazards) (hwell : world.tree.WellFormed) (hnull : root.isNullFree)
    (rules : Ignore.Rules) :
    ∀ path ∈ (walker options world root rules).paths hazards world.tree, path.isNullFree := by
  have hdir : ((walker options world root rules).dirAt []).isNullFree := by
    simpa [Walker.dirAt, walker, Walker.ofRules] using hnull
  exact Walker.nullFree_pathsFrom hmild hwell hdir

def yielded (options : Options) (world : World) (root : Path) (rules : Ignore.Rules) : List Path :=
  (walker options world root rules).paths world.hazards world.tree

def swept (options : Options) (setting : Setting) (world : World) (root : Path)
    (rules : Ignore.Rules) : Report :=
  ((processor options root).outcomes world.hazards world.tree
    (yielded options world root rules)).foldl Report.record (emptyReport options setting root)

def treeAfter (options : Options) (world : World) (root : Path) (rules : Ignore.Rules) : FileTree :=
  (yielded options world root rules).foldl ((processor options root).effect world.hazards)
    world.tree

namespace Prepared

variable {options : Options} {setting : Setting} {world : World} {root : Path}
  {rules : Ignore.Rules}

theorem returns_findRoot (h : Prepared options setting world root rules) :
    Job.Returns world.hazards (findRoot setting.cwd options.dir?) world.tree (some root)
      world.tree :=
  Run.returns_findRoot h.found world.hazards

theorem nullFree_root (h : Prepared options setting world root rules) : root.isNullFree :=
  nullFree_of_found h.wellFormed h.found

theorem returns_ofRoot (h : Prepared options setting world root rules) :
    Job.Returns world.hazards (Walker.ofRoot root (exclusions options) options.verbose) world.tree
      (walker options world root rules) world.tree :=
  Walker.returns_ofRoot h.nullFree_root (Walker.approachable_of_mild h.mild) h.compiled
    options.verbose

theorem returns_files (h : Prepared options setting world root rules) :
    Job.Returns world.hazards (walker options world root rules).files world.tree
      (yielded options world root rules) world.tree :=
  Walker.returns_files h.mild h.wellFormed h.nullFree_root

theorem visits_counting (h : Prepared options setting world root rules) {σ : Type}
    (count : σ → Outcome → σ) (s : σ) :
    ∃ registry, Walker.Visits (counting (processor options root) count) world.hazards
      (yielded options world root rules) (s, setting.registry) world.tree
      (((processor options root).outcomes world.hazards world.tree
        (yielded options world root rules)).foldl count s, registry)
      (treeAfter options world root rules) := by
  have hstandard : setting.registry.IsStandard := by
    rw [h.standard]
    exact Registry.isStandard_standard
  exact Run.visits_counting count h.mild h.wellFormed
    (nullFree_paths options h.mild h.wellFormed h.nullFree_root rules) hstandard s

theorem visits (h : Prepared options setting world root rules) :
    ∃ registry, Walker.Visits (step (processor options root)) world.hazards
      (yielded options world root rules)
      (emptyReport options setting root, setting.registry) world.tree
      (swept options setting world root rules, registry) (treeAfter options world root rules) :=
  h.visits_counting Report.record _

theorem returns_perform (h : Prepared options setting world root rules) :
    Job.Returns world.hazards (perform options setting) world.tree
      (.completed ((swept options setting world root rules).finish (.real setting.finished))
        (printed options
          ((swept options setting world root rules).finish (.real setting.finished))))
      (treeAfter options world root rules) := by
  obtain ⟨registry, hvisits⟩ := h.visits
  have hwalk := Walker.returns_walk h.mild h.wellFormed h.nullFree_root hvisits
  exact Run.returns_perform (returns_sweep h.returns_findRoot h.returns_ofRoot hwalk) h.stdout

end Prepared

theorem run_of_returns {argv : List String} {options : Options} {setting : Setting} {world : World}
    {ending : Ending} {after : FileTree} (hargs : Args.parse argv = .ok options)
    (hperform : Job.Returns world.hazards (perform options setting) world.tree ending after) :
    (run argv setting false world).ending = ending ∧
      (run argv setting false world).world.tree = after := by
  obtain ⟨log, hrun⟩ := hperform.run world.log
  simp only [run, hargs, settle, hrun, Bool.false_eq_true, if_false, and_self]

theorem Prepared.rewritesExactly {options : Options} {setting : Setting} {world : World}
    {root : Path} {rules : Ignore.Rules} (h : Prepared options setting world root rules)
    (hreal : options.dryRun = false)
    (hapart : world.tree.LeadsApart (yielded options world root rules)) :
    RewritesExactly (Extension.normalize options.extensions) world.hazards
      (yielded options world root rules) world.tree (treeAfter options world root rules) := by
  have hdry : (processor options root).dryRun = false := hreal
  exact Processor.rewritesExactly_foldl h.mild hdry h.wellFormed hapart

/-- A prepared run completes. The paths that it processes are those that its walker yields on the
untouched tree, and if they lead to different files, the run rewrites exactly the files with
comments. Of what a path leads to that cannot be written to its end, only the bytes that arrived are
left. -/
theorem run_rewrites_exactly {argv : List String} {options : Options} {setting : Setting}
    {world : World} {root : Path} {rules : Ignore.Rules} (hargs : Args.parse argv = .ok options)
    (hreal : options.dryRun = false) (h : Prepared options setting world root rules) :
    ∃ w paths report registry stdout,
      Job.Returns world.hazards (Walker.ofRoot root (exclusions options) options.verbose) world.tree
        w world.tree ∧
      Job.Returns world.hazards w.files world.tree paths world.tree ∧
      (run argv setting false world).ending =
        .completed (report.finish (.real setting.finished)) stdout ∧
      Job.Returns world.hazards
        (w.walk (Walker.noting (step (processor options root)))
          ((emptyReport options setting root, setting.registry), []))
        world.tree ((report, registry), paths) (run argv setting false world).world.tree ∧
      (world.tree.LeadsApart paths →
        RewritesExactly (Extension.normalize options.extensions) world.hazards paths world.tree
          (run argv setting false world).world.tree) := by
  obtain ⟨registry, hvisits⟩ := h.visits
  obtain ⟨hending, htree⟩ := run_of_returns hargs h.returns_perform
  refine ⟨_, _, _, registry, _, h.returns_ofRoot, h.returns_files, hending, ?_, ?_⟩
  · rw [htree]
    exact Walker.returns_walk h.mild h.wellFormed h.nullFree_root (hvisits.noting [])
  · intro hapart
    rw [htree]
    exact h.rewritesExactly hreal hapart

/-- Two files with comments, one of which cannot be read. Nor can the ignore file, whose only
pattern does not compile. -/
def twoScripts : World where
  tree := ⟨[([".gitignore"], .file [91, 98, 45, 97, 93]), (["a.js"], .file [120, 47, 47, 121]),
    (["b.js"], .file [120, 47, 47, 121])]⟩
  hazards := [⟨⟨.root, [".gitignore"]⟩, .rules, .system .permission true⟩,
    ⟨⟨.root, ["b.js"]⟩, .read, .system .permission true⟩]

def scriptOptions : Options :=
  { dir? := some "/", excludeDirs := [""], excludeFiles := [""], extensions := ["js"] }

theorem prepared_twoScripts : Prepared scriptOptions {} twoScripts ⟨.root, []⟩ [] where
  wellFormed := by decide
  mild := by decide
  standard := rfl
  stdout := nofun
  found := by
    have hroot : twoScripts.tree.canonical? [] (Path.ofString "/") = some ⟨.root, []⟩ := by cbv
    exact findRoot_eq_some_iff.mpr ⟨"/", rfl, by decide, hroot, by cbv⟩
  compiled := by cbv

theorem yielded_twoScripts :
    yielded scriptOptions twoScripts ⟨.root, []⟩ [] =
      [⟨.root, [".gitignore"]⟩, ⟨.root, ["a.js"]⟩, ⟨.root, ["b.js"]⟩] := by
  cbv

theorem locate_twoScripts :
    twoScripts.tree.locate ⟨.root, [".gitignore"]⟩ = .ok [".gitignore"] ∧
      twoScripts.tree.locate ⟨.root, ["a.js"]⟩ = .ok ["a.js"] ∧
      twoScripts.tree.locate ⟨.root, ["b.js"]⟩ = .ok ["b.js"] := by
  refine ⟨?_, ?_, ?_⟩ <;> cbv

theorem leadsApart_twoScripts :
    twoScripts.tree.LeadsApart
      [⟨.root, [".gitignore"]⟩, ⟨.root, ["a.js"]⟩, ⟨.root, ["b.js"]⟩] := by
  apply FileTree.leadsApart_of_nodup
  simp [locate_twoScripts]

theorem strips_script {hazards : List Hazard} {path : Path}
    (hallowed : Extension.isAllowed (Extension.normalize ["js"]) path = true)
    (hscript : Strategy.forExtension? (some (Extension.ofPath path)) = some .script)
    (hread : Job.Clear hazards .read path) :
    Strips (Extension.normalize ["js"]) hazards path [120, 47, 47, 121] [120, 10] := by
  have hdecode : Text.Utf8.decode [120, 47, 47, 121] = .ok "x//y".toList := by cbv
  have hstrip : Transformed.of (some (Registry.cleanerOf .script)) "x//y".toList =
      ⟨"x".toList, true⟩ := by decide +kernel
  have hencode : Text.Utf8.encode (Text.finish "x".toList) = [120, 10] := by decide +kernel
  rw [← hencode]
  exact .of_strategy hallowed hscript hread hdecode hstrip

theorem rewrites_twoScripts :
    Rewrites (Extension.normalize scriptOptions.extensions) twoScripts.hazards ⟨.root, ["a.js"]⟩
      [120, 47, 47, 121] [120, 10] :=
  ⟨strips_script (by decide +kernel) (by decide +kernel) (by decide), by decide⟩

theorem run_rewrites_exactly_two_scripts :
    let result := run ["--dir", "/", "--ed", "", "--ef", "", "--ext", "js"] {} false twoScripts
    result.world.tree.get? ["a.js"] = some (.file [120, 10]) ∧
      result.world.tree.get? ["b.js"] = some (.file [120, 47, 47, 121]) := by
  have hprepared := prepared_twoScripts
  have hargs : Args.parse ["--dir", "/", "--ed", "", "--ef", "", "--ext", "js"] =
      .ok scriptOptions := by cbv
  obtain ⟨w, paths, report, registry, stdout, hw, hpaths, -, -, hexactly⟩ :=
    run_rewrites_exactly hargs rfl hprepared
  obtain rfl := hw.unique hprepared.returns_ofRoot
  obtain rfl := hpaths.unique hprepared.returns_files
  rw [yielded_twoScripts] at hexactly
  have hfiles := hexactly leadsApart_twoScripts
  refine ⟨hfiles.rewritten (by simp) locate_twoScripts.2.1 rfl rewrites_twoScripts,
    hfiles.kept rfl ?_⟩
  intro path hpath hlocate new hstrips
  simp only [List.mem_cons, List.not_mem_nil, or_false] at hpath
  rcases hpath with rfl | rfl | rfl
  · simp [locate_twoScripts] at hlocate
  · simp [locate_twoScripts] at hlocate
  · exact absurd hstrips.readable (by decide)

def struckScript : World where
  tree := ⟨[(["a.js"], .file [120, 47, 47, 121])]⟩
  hazards := [⟨⟨.root, ["a.js"]⟩, .write, .partway .inputOutput true 1⟩]

theorem prepared_struckScript : Prepared scriptOptions {} struckScript ⟨.root, []⟩ [] where
  wellFormed := by decide
  mild := by decide
  standard := rfl
  stdout := nofun
  found := by
    have hroot : struckScript.tree.canonical? [] (Path.ofString "/") = some ⟨.root, []⟩ := by cbv
    exact findRoot_eq_some_iff.mpr ⟨"/", rfl, by decide, hroot, by cbv⟩
  compiled := by cbv

/-- A path that leads to a file with a comment by more links than the system follows. -/
def farScript : World where
  tree := ⟨[(["c"], .dir), (["c", "f.txt"], .file [120, 47, 47, 121]),
    (["c", "k"], .link "m/m/m/m"), (["c", "l"], .link "."), (["c", "m"], .link "l/l/l/l"),
    (["p"], .dir),
    (["p", "a.js"], .link "../c/k/k/f.txt")]⟩

def farOptions : Options := { scriptOptions with dir? := some "/p" }

theorem prepared_farScript : Prepared farOptions {} farScript ⟨.root, ["p"]⟩ [] where
  wellFormed := by decide
  mild := by decide
  standard := rfl
  stdout := nofun
  found := by
    have hroot : farScript.tree.canonical? [] (Path.ofString "/p") = some ⟨.root, ["p"]⟩ := by cbv
    exact findRoot_eq_some_iff.mpr ⟨"/p", rfl, by decide, hroot, by cbv⟩
  compiled := by cbv

/-- A file that is not rewritten can lose its bytes all the same, when its write is struck. And a
file with a comment that a path comes to by its links is not rewritten if they are too many for it
to be opened. -/
theorem struck_bytes_lost_far_bytes_kept :
    (let path : Path := ⟨.root, ["a.js"]⟩
      let result := run ["--dir", "/", "--ed", "", "--ef", "", "--ext", "js"] {} false struckScript
      yielded scriptOptions struckScript ⟨.root, []⟩ [] = [path] ∧
      ¬Job.Clear struckScript.hazards .write path ∧
      struckScript.tree.get? ["a.js"] = some (.file [120, 47, 47, 121]) ∧
      result.world.tree.get? ["a.js"] = some (.file [120])) ∧
    (let path : Path := ⟨.root, ["p", "a.js"]⟩
      let result := run ["--dir", "/p", "--ed", "", "--ef", "", "--ext", "js"] {} false farScript
      yielded farOptions farScript ⟨.root, ["p"]⟩ [] = [path] ∧
      farScript.tree.canonical? [] path = some ⟨.root, ["c", "f.txt"]⟩ ∧
      Rewrites (Extension.normalize farOptions.extensions) farScript.hazards path
        [120, 47, 47, 121] [120, 10] ∧
      farScript.tree.get? ["c", "f.txt"] = some (.file [120, 47, 47, 121]) ∧
      result.world.tree.get? ["c", "f.txt"] = some (.file [120, 47, 47, 121])) := by
  constructor
  · intro path result
    have hargs : Args.parse ["--dir", "/", "--ed", "", "--ef", "", "--ext", "js"] =
        .ok scriptOptions := by cbv
    have hyielded : yielded scriptOptions struckScript ⟨.root, []⟩ [] = [path] := by cbv
    have hlocate : struckScript.tree.locate path = .ok ["a.js"] := by cbv
    have hexactly := prepared_struckScript.rewritesExactly rfl
      (hyielded ▸ List.pairwise_singleton _ path)
    rw [hyielded, ← (run_of_returns hargs prepared_struckScript.returns_perform).2] at hexactly
    have hstrips : Strips (Extension.normalize ["js"]) struckScript.hazards path
        [120, 47, 47, 121] [120, 10] :=
      strips_script (by decide +kernel) (by decide +kernel) (by decide)
    exact ⟨hyielded, by decide, rfl, hexactly.cutOff List.mem_cons_self hlocate rfl hstrips rfl⟩
  · intro path result
    have hargs : Args.parse ["--dir", "/p", "--ed", "", "--ef", "", "--ext", "js"] =
        .ok farOptions := by cbv
    have hyielded : yielded farOptions farScript ⟨.root, ["p"]⟩ [] = [path] := by cbv
    have hlocate : farScript.tree.locate path = .error .linkLoop := by cbv
    have hexactly := prepared_farScript.rewritesExactly rfl
      (hyielded ▸ List.pairwise_singleton _ path)
    rw [hyielded, ← (run_of_returns hargs prepared_farScript.returns_perform).2] at hexactly
    have hrewrites : Rewrites (Extension.normalize ["js"]) farScript.hazards path
        [120, 47, 47, 121] [120, 10] :=
      ⟨strips_script (by decide +kernel) (by decide +kernel) (by decide), by decide⟩
    refine ⟨hyielded, by cbv, hrewrites, rfl, hexactly.kept rfl ?_⟩
    intro other hother hleads
    rw [List.mem_singleton] at hother
    rw [hother, hlocate] at hleads
    cases hleads

end Run

end CommentSweep
