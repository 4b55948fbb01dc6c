import CommentSweep.Proofs.Run.DryRun
import CommentSweep.Proofs.Walker.Yield
import Mathlib

/-!
Files that a run leaves alone. A run goes by the names that it walks along, and it writes through
links. So a file that lies outside of its directory, that is ignored, or that lies below a directory
that is ignored or excluded keeps its bytes, unless a link that the run comes by leads to it.
-/

namespace CommentSweep

open Disk

namespace Walker

variable {w : Walker} {dirs : List String} {tree : FileTree} {location file : Location}
  {below : List String} {name : String}

/-- A walk of the directory at the location has no business with the file. -/
inductive OffLimits (w : Walker) (dirs : List String) (location : Location) : Location → Prop
  | outside {file : Location} (h : ¬location <+: file) : OffLimits w dirs location file
  | ignored {below : List String} {name : String}
      (h : w.isIgnored (relative below name) false = true) :
      OffLimits w dirs location (location ++ below ++ [name])
  | belowIgnored {front rest : List String} {name : String} (hrest : rest ≠ [])
      (h : w.isIgnored (relative front name) true = true) :
      OffLimits w dirs location (location ++ front ++ [name] ++ rest)
  | belowExcluded {front rest : List String} {dir : String} (hrest : rest ≠ []) (hdir : dir ∈ dirs)
      (hne : dir ≠ "") :
      OffLimits w dirs location (location ++ front ++ [Ignore.dirName dir] ++ rest)

def LinksTo (w : Walker) (dirs allowed : List String) (tree : FileTree) (location file : Location) :
    Prop :=
  ∃ below name target, w.Yields dirs tree location below name ∧
    tree.get? (location ++ below ++ [name]) = some (.link target) ∧
    Extension.isAllowed allowed ((w.dirAt below).child name) = true ∧
    tree.locate ((w.dirAt below).child name) = .ok file

theorem isPrefix_of_below {front rest : List String} {last : String} (hrest : rest ≠ [])
    (h : location ++ below ++ [name] = location ++ front ++ [last] ++ rest) :
    front ++ [last] <+: below := by
  rcases List.eq_nil_or_concat rest with rfl | ⟨middle, final, rfl⟩
  · exact absurd rfl hrest
  · rw [List.concat_eq_append, ← List.append_assoc] at h
    obtain ⟨hbelow, -⟩ := List.append_inj' h rfl
    refine ⟨middle, ?_⟩
    simpa using hbelow.symm

theorem Yields.not_offLimits (h : w.Yields dirs tree location below name) :
    ¬w.OffLimits dirs location (location ++ below ++ [name]) := by
  intro hoff
  generalize hfile : location ++ below ++ [name] = file at hoff
  cases hoff with
  | outside hout => exact hout ⟨below ++ [name], by rw [← hfile, List.append_assoc]⟩
  | ignored hignored =>
      obtain ⟨hbelow, hname⟩ := List.append_inj' hfile rfl
      rw [← List.append_cancel_left hbelow, ← List.singleton_inj.mp hname, h.kept] at hignored
      cases hignored
  | belowIgnored hrest hignored =>
      have hentered := (h.enters _ _ (isPrefix_of_below hrest hfile)).2.1
      rw [hignored] at hentered
      cases hentered
  | belowExcluded hrest hdir hne =>
      exact (h.enters _ _ (isPrefix_of_below hrest hfile)).2.2 _ hdir hne rfl

end Walker

structure Spares (start : FileTree) (file : Location) (tree : FileTree) : Prop where
  sameShape : start.SameShape tree
  get?_eq : tree.get? file = start.get? file

namespace Spares

variable {start tree : FileTree} {file : Location}

theorem refl (start : FileTree) (file : Location) : Spares start file start :=
  ⟨.refl start, rfl⟩

theorem overwrite (h : Spares start file tree) (hwell : start.WellFormed) {path : Path}
    (hpath : start.locate path ≠ .ok file) {bytes : Bytes} {after : FileTree}
    (hwrite : tree.overwrite path bytes = .ok after) : Spares start file after := by
  obtain ⟨place, old, hlocate, hget, rfl⟩ := FileTree.overwrite_eq_ok_iff.mp hwrite
  have hne : file ≠ place := by
    rintro rfl
    exact hpath ((h.sameShape.locate_eq path).trans hlocate)
  constructor
  · exact h.sameShape.trans ((h.sameShape.wellFormed hwell).sameShape_put hget bytes)
  · rw [FileTree.get?_put_file hget, if_neg hne]
    exact h.get?_eq

end Spares

namespace Run

section

variable {w : Walker} {p : Processor} {dirs : List String} {start : FileTree}
  {location file : Location}

theorem guards_step (hroot : w.Rooted start location)
    (hexcluded : w.excluded = (dirs.filter (· != "")).map Ignore.dirName)
    (hoff : w.OffLimits dirs location file)
    (hlinks : p.dryRun = false → ¬w.LinksTo dirs p.allowed start location file) :
    w.Guards (step p) (Spares start file) (w.Enters dirs start location) where
  visits := by
    intro below tree listing name henters hspares hlist hname hkept state
    rw [← hspares.sameShape.list_eq] at hlist
    have hyields : w.Yields dirs start location below name :=
      (hroot.mem_kept_iff henters hlist).mp (List.mem_filter.mpr ⟨hname, by simp [hkept]⟩)
    refine (Processor.upholds_process ?_ state.2).bind fun _ => Job.upholds_pure _
    intro hallowed hreal bytes tree after hspares hwrite
    refine hspares.overwrite hroot.wellFormed ?_ hwrite
    intro hlocate
    -- What is no link leads to itself, and that is within limits.
    obtain ⟨entry, hget, hne, -⟩ := hyields.isFile
    cases entry with
    | dir => exact hne rfl
    | link target => exact hlinks hreal ⟨below, name, target, hyields, hget, hallowed, hlocate⟩
    | file bytes =>
        have hdir := hroot.locate_dirAt henters hlist
        rw [FileTree.locate_child hroot.properNames hdir hget rfl hlocate] at hoff
        exact hyields.not_offLimits hoff
  enters := by
    intro below tree listing dir henters hspares hlist hdir
    rw [← hspares.sameShape.list_eq] at hlist
    exact ((hroot.mem_entered_iff henters hexcluded hlist).mp hdir).2

end

structure SetsOut (argv : List String) (setting : Setting) (world : World) (options : Options)
    (root : Path) (rules : Ignore.Rules) (location : Location) : Prop where
  parsed : Args.parse argv = .ok options
  found : ((findRoot setting.cwd options.dir?).run.run world).1 = .ok (some root)
  approachable : Walker.Approachable world.hazards root (exclusions options)
  compiled : Ignore.rulesOf (Walker.patterns world.hazards world.tree root (exclusions options)) =
    .ok rules
  located : world.tree.locate root = .ok location

structure Shielded (options : Options) (world : World) (root : Path) (rules : Ignore.Rules)
    (location file : Location) : Prop where
  offLimits : (walker options world root rules).OffLimits options.excludeDirs location file
  unlinked : options.dryRun = false → ¬(walker options world root rules).LinksTo
    options.excludeDirs (Extension.normalize options.extensions) world.tree location file

section

variable {options : Options} {setting : Setting} {world : World} {file : Location}
  (hwell : world.tree.WellFormed) (hnames : world.tree.ProperNames)

include hwell hnames

theorem spares_sweepRoot {root : Path} (hentry : world.tree.entry root = .ok .dir)
    (hspared : ∀ {rules location},
      Walker.Approachable world.hazards root (exclusions options) →
      Ignore.rulesOf (Walker.patterns world.hazards world.tree root (exclusions options)) =
        .ok rules →
      world.tree.locate root = .ok location →
        Shielded options world root rules location file) :
    Job.Ensures world.hazards (sweepRoot options setting root) world.tree fun _ after _ =>
      Spares world.tree file after := by
  have hstart := Spares.refl world.tree file
  have hofRoot := Walker.keeps_ofRoot root (exclusions options) options.verbose
  refine (hofRoot world.hazards world.tree).bind_ensures ?_ fun _ _ => hstart
  intro w hreturns
  obtain ⟨happroach, rules, hrules, rfl⟩ :=
    Walker.compiled_of_returns (nullFree_root hwell hentry) hreturns
  obtain ⟨location, hlocate⟩ := exists_locate_of_entry hentry
  have hshielded := hspared happroach hrules hlocate
  have hroot : (walker options world root rules).Rooted world.tree location :=
    ⟨hwell, hnames, hlocate⟩
  have hguards : (walker options world root rules).Guards (step (processor options root))
      (Spares world.tree file)
      ((walker options world root rules).Enters options.excludeDirs world.tree location) :=
    guards_step hroot rfl hshielded.offLimits hshielded.unlinked
  have hrest := (hguards.upholds_walk Walker.enters_nil (emptyReport options setting root,
    setting.registry)).bind fun state => Job.upholds_pure state.1
  exact (returns_banner options _ _).bind_ensures (hrest world.hazards world.tree hstart)

theorem spares_sweep
    (hspared : ∀ {root rules location},
      ((findRoot setting.cwd options.dir?).run.run world).1 = .ok (some root) →
      Walker.Approachable world.hazards root (exclusions options) →
      Ignore.rulesOf (Walker.patterns world.hazards world.tree root (exclusions options)) =
        .ok rules →
      world.tree.locate root = .ok location →
        Shielded options world root rules location file) :
    Job.Ensures world.hazards (sweep options setting) world.tree fun _ after _ =>
      Spares world.tree file after := by
  have hstart := Spares.refl world.tree file
  have hfindRoot := keeps_findRoot setting.cwd options.dir?
  refine (hfindRoot world.hazards world.tree).bind_ensures ?_ fun _ _ => hstart
  intro root? hreturns
  cases root? with
  | none => exact Job.ensures_pure hstart
  | some root =>
      obtain ⟨_, hrun⟩ := hreturns.run world.log
      have hfound := congrArg Prod.fst hrun
      obtain ⟨-, -, -, -, hentry⟩ := findRoot_eq_some_iff.mp hfound
      refine (spares_sweepRoot hwell hnames hentry (hspared hfound)).bind ?_ fun _ _ _ h => h
      exact fun _ _ _ hspares => Job.ensures_pure hspares

end

/-- A run leaves a file alone that is off limits to it, even where the run is broken off, unless it
comes by a link that leads to the file. A run that does not set out leaves every file alone. -/
theorem run_spares_off_limits {argv : List String} {setting : Setting} {world : World}
    (asProgram : Bool) (hwell : world.tree.WellFormed) (hnames : world.tree.ProperNames)
    {file : Location} {bytes : Bytes} (hfile : world.tree.get? file = some (.file bytes))
    (hoff : ∀ {options root rules location},
      SetsOut argv setting world options root rules location →
        (walker options world root rules).OffLimits options.excludeDirs location file)
    (hlinks : ∀ {options root rules location},
      SetsOut argv setting world options root rules location → options.dryRun = false →
        ¬(walker options world root rules).LinksTo options.excludeDirs
          (Extension.normalize options.extensions) world.tree location file) :
    (run argv setting asProgram world).world.tree.get? file = some (.file bytes) := by
  cases hargs : Args.parse argv with
  | error halt => rw [tree_run_of_parse_error hargs, hfile]
  | ok options =>
      have hsweep : Job.Ensures world.hazards (sweep options setting) world.tree fun _ after _ =>
          Spares world.tree file after := by
        apply spares_sweep hwell hnames
        intro root rules location hfound happroach hrules hlocate
        have hsets : SetsOut argv setting world options root rules location :=
          ⟨hargs, hfound, happroach, hrules, hlocate⟩
        exact ⟨hoff hsets, hlinks hsets⟩
      obtain ⟨_, hspares⟩ := hsweep.run
      rw [tree_run_of_parse_ok hargs, hspares.get?_eq, hfile]

/-- Scripts outside of a directory and in a subdirectory, with a link to each in the directory. -/
def linkedScripts : World where
  tree := ⟨[(["b.js"], .file [120, 47, 47, 121]), (["p"], .dir), (["p", "a.js"], .link "../b.js"),
    (["p", "c.js"], .link "out/d.js"), (["p", "out"], .dir),
    (["p", "out", "d.js"], .file [120, 47, 47, 121])]⟩

def linkedOptions (excludeFiles : List String) : Options :=
  { dir? := some "/p", excludeDirs := ["out"], excludeFiles, extensions := ["js"] }

theorem found_linkedScripts (excludeFiles : List String) :
    ((findRoot [] (linkedOptions excludeFiles).dir?).run.run linkedScripts).1 =
      .ok (some ⟨.root, ["p"]⟩) := by
  have hroot : linkedScripts.tree.canonical? [] (Path.ofString "/p") = some ⟨.root, ["p"]⟩ := by
    cbv
  exact findRoot_eq_some_iff.mpr ⟨"/p", rfl, by decide, hroot, by cbv⟩

def outRules : Ignore.Rules :=
  [⟨true, .sequence [.upperDirs, .char 'o', .char 'u', .char 't', .dirSlash]⟩]

def linkRules : Ignore.Rules :=
  ['a', 'c'].map fun c =>
    ⟨true, .sequence [.upperDirs, .char c, .char '.', .char 'j', .char 's', .nameEnd]⟩

theorem setsOut_linkedScripts :
    SetsOut ["--dir", "/p", "--ed", "out", "--ef", "", "--ext", "js"] {} linkedScripts
      (linkedOptions [""]) ⟨.root, ["p"]⟩ outRules ["p"] where
  parsed := by cbv
  found := found_linkedScripts [""]
  approachable := Walker.approachable_of_mild (by decide)
  compiled := by
    have hlines : Walker.patterns linkedScripts.hazards linkedScripts.tree ⟨.root, ["p"]⟩
        (exclusions (linkedOptions [""])) = ["out/"] := by cbv
    rw [hlines]
    decide +kernel
  located := by cbv

theorem setsOut_ignoredLinks :
    SetsOut ["--dir", "/p", "--ed", "out", "--ef", "a.js", "c.js", "--ext", "js"] {} linkedScripts
      (linkedOptions ["a.js", "c.js"]) ⟨.root, ["p"]⟩ (outRules ++ linkRules) ["p"] where
  parsed := by cbv
  found := found_linkedScripts ["a.js", "c.js"]
  approachable := Walker.approachable_of_mild (by decide)
  compiled := by
    have hlines : Walker.patterns linkedScripts.hazards linkedScripts.tree ⟨.root, ["p"]⟩
        (exclusions (linkedOptions ["a.js", "c.js"])) = ["out/", "a.js", "c.js"] := by cbv
    rw [hlines]
    decide +kernel
  located := by cbv

theorem offLimits_outside (w : Walker) : w.OffLimits ["out"] ["p"] ["b.js"] :=
  .outside (by decide)

theorem offLimits_excluded (w : Walker) : w.OffLimits ["out"] ["p"] ["p", "out", "d.js"] := by
  have hname : Ignore.dirName "out" = "out" := by decide +kernel
  have hoff : w.OffLimits ["out"] ["p"] (["p"] ++ [] ++ [Ignore.dirName "out"] ++ ["d.js"]) :=
    .belowExcluded (by simp) (by simp) (by decide)
  rwa [hname] at hoff

theorem SetsOut.unique {argv : List String} {setting : Setting} {world : World}
    {options options' : Options} {root root' : Path} {rules rules' : Ignore.Rules}
    {location location' : Location} (h : SetsOut argv setting world options root rules location)
    (h' : SetsOut argv setting world options' root' rules' location') :
    options = options' ∧ root = root' ∧ rules = rules' ∧ location = location' := by
  obtain rfl : options = options' := Except.ok.inj (h.parsed.symm.trans h'.parsed)
  obtain rfl : root = root' := Option.some.inj (Except.ok.inj (h.found.symm.trans h'.found))
  exact ⟨rfl, rfl, Except.ok.inj (h.compiled.symm.trans h'.compiled),
    Except.ok.inj (h.located.symm.trans h'.located)⟩

theorem not_linksTo_ignoredLinks (allowed : List String) (file : Location) :
    ¬(walker (linkedOptions ["a.js", "c.js"]) linkedScripts ⟨.root, ["p"]⟩
      (outRules ++ linkRules)).LinksTo ["out"] allowed linkedScripts.tree ["p"] file := by
  rintro ⟨below, name, target, hyields, hget, -, -⟩
  have hlink : below = [] ∧ (name = "a.js" ∨ name = "c.js") := by
    rw [FileTree.get?_of_ne_nil _ (by simp)] at hget
    obtain ⟨front, back, hsplit, -⟩ := List.lookup_eq_some_iff.mp hget
    have hmem : (["p"] ++ below ++ [name], Entry.link target) ∈ linkedScripts.tree.entries := by
      simp [hsplit]
    have hcases : below ++ [name] = [] ++ ["a.js"] ∧ target = "../b.js" ∨
        below ++ [name] = [] ++ ["c.js"] ∧ target = "out/d.js" := by
      simpa [linkedScripts] using hmem
    rcases hcases with ⟨heq, -⟩ | ⟨heq, -⟩
    · obtain ⟨hbelow, hname⟩ := List.append_inj' heq rfl
      exact ⟨hbelow, .inl (List.singleton_inj.mp hname)⟩
    · obtain ⟨hbelow, hname⟩ := List.append_inj' heq rfl
      exact ⟨hbelow, .inr (List.singleton_inj.mp hname)⟩
  obtain ⟨rfl, hname⟩ := hlink
  rcases hname with rfl | rfl
  · exact absurd hyields.kept (by decide +kernel)
  · exact absurd hyields.kept (by decide +kernel)

theorem run_spares_off_limits_ignored_links :
    let argv := ["--dir", "/p", "--ed", "out", "--ef", "a.js", "c.js", "--ext", "js"]
    SetsOut argv {} linkedScripts (linkedOptions ["a.js", "c.js"]) ⟨.root, ["p"]⟩
        (outRules ++ linkRules) ["p"] ∧
      ∀ file ∈ [["b.js"], ["p", "out", "d.js"]],
        (run argv {} false linkedScripts).world.tree.get? file =
          some (.file [120, 47, 47, 121]) := by
  refine ⟨setsOut_ignoredLinks, ?_⟩
  intro file hfile
  have hplace : linkedScripts.tree.get? file = some (.file [120, 47, 47, 121]) ∧
      ∀ w : Walker, w.OffLimits ["out"] ["p"] file := by
    rcases (by simpa using hfile : file = ["b.js"] ∨ file = ["p", "out", "d.js"]) with rfl | rfl
    · exact ⟨rfl, offLimits_outside⟩
    · exact ⟨rfl, offLimits_excluded⟩
  apply run_spares_off_limits false (by decide) (by decide) hplace.1
  · intro options root rules location hsets
    obtain ⟨rfl, rfl, rfl, rfl⟩ := setsOut_ignoredLinks.unique hsets
    exact hplace.2 _
  · intro options root rules location hsets _
    obtain ⟨rfl, rfl, rfl, rfl⟩ := setsOut_ignoredLinks.unique hsets
    exact not_linksTo_ignoredLinks _ file

theorem prepared_linkedScripts :
    Prepared (linkedOptions [""]) {} linkedScripts ⟨.root, ["p"]⟩ outRules where
  wellFormed := by decide
  mild := by decide
  standard := rfl
  stdout := nofun
  found := setsOut_linkedScripts.found
  compiled := setsOut_linkedScripts.compiled

theorem yielded_linkedScripts :
    yielded (linkedOptions [""]) linkedScripts ⟨.root, ["p"]⟩ outRules =
      [⟨.root, ["p", "a.js"]⟩, ⟨.root, ["p", "c.js"]⟩] := by
  rw [yielded]
  generalize hwalker : walker (linkedOptions [""]) linkedScripts ⟨.root, ["p"]⟩ outRules = w
  have hlist : linkedScripts.tree.list (w.dirAt []) = .ok ⟨[("out", false)], ["a.js", "c.js"]⟩ := by
    rw [← hwalker]
    cbv
  have hout : (w.dirReason? [] "out").isNone = false := by
    rw [← hwalker]
    decide +kernel
  have hfiles : (w.fileReason? [] "a.js").isNone = true ∧
      (w.fileReason? [] "c.js").isNone = true := by
    rw [← hwalker]
    decide +kernel
  have hattempt : Job.attempt linkedScripts.hazards .list (w.dirAt [])
      (linkedScripts.tree.list (w.dirAt [])) = .ok ⟨[("out", false)], ["a.js", "c.js"]⟩ := by
    rw [hlist]
    rfl
  rw [Walker.paths, Walker.pathsFrom, hattempt]
  simp only [Walker.visited, Walker.entered, hfiles, hout, List.filter_cons_of_pos,
    List.filter_cons_of_neg, List.filter_nil, List.map_cons, List.map_nil, List.nil_append,
    List.append_nil, List.flatMap_nil, Bool.not_false, Bool.and_true, Bool.false_eq_true,
    not_false_eq_true]
  rw [← hwalker]
  rfl

/-- A run writes through links to files that are off limits to it. -/
theorem run_writes_through_links :
    let argv := ["--dir", "/p", "--ed", "out", "--ef", "", "--ext", "js"]
    ∃ options root rules location,
      SetsOut argv {} linkedScripts options root rules location ∧
      ∀ file ∈ [["b.js"], ["p", "out", "d.js"]],
        (walker options linkedScripts root rules).OffLimits options.excludeDirs location file ∧
        linkedScripts.tree.get? file = some (.file [120, 47, 47, 121]) ∧
        (run argv {} false linkedScripts).world.tree.get? file = some (.file [120, 10]) := by
  have hsets := setsOut_linkedScripts
  have hprepared := prepared_linkedScripts
  obtain ⟨-, htree⟩ := run_of_returns hsets.parsed hprepared.returns_perform
  have hb : linkedScripts.tree.locate ⟨.root, ["p", "a.js"]⟩ = .ok ["b.js"] := by cbv
  have hd : linkedScripts.tree.locate ⟨.root, ["p", "c.js"]⟩ = .ok ["p", "out", "d.js"] := by cbv
  have hapart : linkedScripts.tree.LeadsApart
      [⟨.root, ["p", "a.js"]⟩, ⟨.root, ["p", "c.js"]⟩] := by
    apply FileTree.leadsApart_of_nodup
    simp [hb, hd]
  have hfiles := hprepared.rewritesExactly rfl (yielded_linkedScripts ▸ hapart)
  rw [yielded_linkedScripts] at hfiles
  refine ⟨_, _, _, _, hsets, ?_⟩
  rw [htree]
  simp only [List.forall_mem_cons, List.not_mem_nil, false_implies, implies_true, and_true]
  constructor
  · exact ⟨offLimits_outside _, rfl, hfiles.rewritten (by simp) hb rfl
      ⟨strips_script (by decide +kernel) (by decide +kernel) (by decide), by decide⟩⟩
  · exact ⟨offLimits_excluded _, rfl, hfiles.rewritten (by simp) hd rfl
      ⟨strips_script (by decide +kernel) (by decide +kernel) (by decide), by decide⟩⟩

end Run

end CommentSweep
