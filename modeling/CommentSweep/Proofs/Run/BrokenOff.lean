import CommentSweep.Proofs.Run.Outburst
import Mathlib

/-!
Runs that are broken off. A run that is broken off in the middle of its files has processed the
files before the stop at which that happens, and nothing else. A run without the outburst passes
through the same tree.
-/

namespace CommentSweep.Run

open Disk Job

/-- The run without the outbursts: only faults of the system are left, and no builder fails. -/
def runUnbroken (argv : List String) (setting : Setting) (world : World)
    (spare : String → Cleaner) : Result :=
  run argv { setting with registry := setting.registry.mend spare } false
    { world with hazards := calm world.hazards }

section

variable (argv : List String) (options : Options) (setting : Setting) (world : World)

/-- The run has been broken off while it read its ignore file, and has processed nothing. -/
structure BrokenOffAtRules (abort : Abort) (root : Path) : Prop where
  found : Returns world.hazards (findRoot setting.cwd options.dir?) world.tree (some root)
    world.tree
  asked : options.useIgnoreFile = true
  broken : Ends world.hazards (Walker.ignoreLines? root) world.tree (.error abort) world.tree
  kept : (run argv setting false world).world.tree = world.tree

/-- The run has made the stops that are done, and the next one has broken it off. -/
structure BrokenOffAt (abort : Abort) (root : Path) (w : Walker) (done : List Walker.Stop)
    (stop : Walker.Stop) (ahead : List Walker.Stop) (state : Report × Registry) : Prop where
  found : Returns world.hazards (findRoot setting.cwd options.dir?) world.tree (some root)
    world.tree
  walker : Returns world.hazards (Walker.ofRoot root (exclusions options) options.verbose)
    world.tree w world.tree
  itinerary : w.itinerary (calm world.hazards) world.tree = done ++ stop :: ahead
  yielded : Returns (calm world.hazards) w.files world.tree
    (Walker.Stop.paths (done ++ stop :: ahead)) world.tree
  processed : Returns world.hazards
    ((Walker.Stop.paths done).foldlM (step (processor options root))
      (emptyReport options setting root, setting.registry))
    world.tree state (run argv setting false world).world.tree
  broken : Ends world.hazards (w.halt (step (processor options root)) state stop)
    (run argv setting false world).world.tree (.error abort)
    (run argv setting false world).world.tree
  kept : ∀ file, (∀ path ∈ Walker.Stop.paths done, world.tree.locate path ≠ .ok file) →
    (run argv setting false world).world.tree.get? file = world.tree.get? file

/-- The run without the outbursts comes through the tree that the broken run leaves, and goes on. -/
structure GoesOn (spare : String → Cleaner) (root : Path) (done ahead : List Walker.Stop)
    (state : Report × Registry) : Prop where
  before : Returns (calm world.hazards)
    ((Walker.Stop.paths done).foldlM (step (processor options root))
      (emptyReport options setting root, setting.registry.mend spare))
    world.tree (state.1, state.2.mend spare) (run argv setting false world).world.tree
  after : ∃ last, Returns (calm world.hazards)
    ((Walker.Stop.paths ahead).foldlM (step (processor options root))
      (state.1, state.2.mend spare))
    (run argv setting false world).world.tree last (runUnbroken argv setting world spare).world.tree
  same : ∀ file, (∀ path ∈ Walker.Stop.paths ahead, world.tree.locate path ≠ .ok file) →
    (runUnbroken argv setting world spare).world.tree.get? file =
      (run argv setting false world).world.tree.get? file
  completed : (options.report = true → setting.stdoutBroken = false) →
    ∃ report stdout, (runUnbroken argv setting world spare).ending = .completed report stdout

end

namespace SetsOut

variable {argv : List String} {options : Options} {setting : Setting} {world : World} {root : Path}
  {rules : Ignore.Rules} {location : Location}
  (h : SetsOut argv setting world options root rules location) (hwell : world.tree.WellFormed)

include h

theorem returns_findRoot :
    Returns world.hazards (findRoot setting.cwd options.dir?) world.tree (some root) world.tree :=
  Run.returns_findRoot h.found world.hazards

theorem mend (spare : String → Cleaner) :
    SetsOut argv { setting with registry := setting.registry.mend spare } world options root rules
      location :=
  ⟨h.parsed, h.found, h.approachable, h.compiled, h.located⟩

include hwell

theorem nullFree_root : root.isNullFree :=
  nullFree_of_found hwell h.found

theorem returns_ofRoot :
    Returns world.hazards (Walker.ofRoot root (exclusions options) options.verbose) world.tree
      (walker options world root rules) world.tree :=
  Walker.returns_ofRoot (h.nullFree_root hwell) h.approachable h.compiled options.verbose

theorem exists_returns_sweep {done ahead : List Walker.Stop} {state : Report × Registry}
    {after : FileTree}
    (hitinerary : (walker options world root rules).itinerary (calm world.hazards) world.tree =
      done ++ ahead)
    (hbefore : Walker.Visits (step (processor options root)) (calm world.hazards)
      (Walker.Stop.paths done) (emptyReport options setting root, setting.registry) world.tree state
      after)
    (hsound : state.2.Sound) :
    ∃ last final, Walker.Visits (step (processor options root)) (calm world.hazards)
        (Walker.Stop.paths ahead) state after last final ∧
      Returns (calm world.hazards) (sweep options setting) world.tree (some last.1) final := by
  have hmild := mild_calm world.hazards
  have hpaths : (walker options world root rules).paths (calm world.hazards) world.tree =
      Walker.Stop.paths done ++ Walker.Stop.paths ahead := by
    simp [← Walker.paths_itinerary, hitinerary]
  have hnulls := nullFree_paths options hmild hwell (h.nullFree_root hwell) rules
  rw [hpaths] at hnulls
  obtain ⟨report, registry, final, hrest⟩ := exists_visits hmild
    (hbefore.sameShape.wellFormed hwell)
    (fun path hpath => hnulls path (List.mem_append_right _ hpath)) state.1 hsound
  have hall := hbefore.append hrest
  rw [← hpaths] at hall
  have hwalk := Walker.returns_walk hmild hwell (h.nullFree_root hwell) hall
  exact ⟨_, final, hrest, returns_sweep (Run.returns_findRoot h.found _)
    (Walker.returns_ofRoot_calm (h.nullFree_root hwell) h.approachable h.compiled _) hwalk⟩

theorem goesOn {done ahead : List Walker.Stop} {state : Report × Registry}
    (hitinerary : (walker options world root rules).itinerary (calm world.hazards) world.tree =
      done ++ ahead)
    (hvisits : Walker.Visits (step (processor options root)) world.hazards
      (Walker.Stop.paths done) (emptyReport options setting root, setting.registry) world.tree state
      (run argv setting false world).world.tree)
    (spare : String → Cleaner) :
    GoesOn argv options setting world spare root done ahead state := by
  generalize hafter : (run argv setting false world).world.tree = after at hvisits
  have hbefore := visits_mend hwell hvisits spare
  obtain ⟨last, final, hrest, hsweep⟩ :=
    (h.mend spare).exists_returns_sweep hwell hitinerary hbefore (state.2.sound_mend spare)
  have hfinal : (runUnbroken argv setting world spare).world.tree = final := by
    obtain ⟨_, hrun⟩ := hsweep.run world.log
    rw [runUnbroken, tree_run_of_parse_ok h.parsed, hrun]
  constructor
  · rw [hafter]
    exact hbefore.returns_foldlM
  · rw [hafter, hfinal]
    exact ⟨_, hrest.returns_foldlM⟩
  · intro file hfile
    rw [hafter, hfinal]
    apply get?_of_visits (hbefore.sameShape.wellFormed hwell) hrest
    intro path hpath
    rw [← hbefore.sameShape.locate_eq]
    exact hfile path hpath
  · intro hstdout
    have hperform := returns_perform hsweep hstdout
    have hrun := @run_of_returns argv options
      { setting with registry := setting.registry.mend spare }
      { world with hazards := calm world.hazards } _ final h.parsed hperform
    exact ⟨_, _, hrun.1⟩

theorem exists_brokenOffAt {abort : Abort}
    (hwalk : Ends world.hazards
      ((walker options world root rules).walk (step (processor options root))
        (emptyReport options setting root, setting.registry)) world.tree (.error abort)
      (run argv setting false world).world.tree) :
    ∃ w done stop ahead state,
      BrokenOffAt argv options setting world abort root w done stop ahead state ∧
      ∀ spare, GoesOn argv options setting world spare root done (stop :: ahead) state := by
  obtain ⟨done, stop, ahead, state, hitinerary, hvisits, hstop⟩ :=
    Walker.exists_stop_of_walk (tidy_step hwell) hwalk
  refine ⟨walker options world root rules, done, stop, ahead, state, ?_,
    h.goesOn hwell hitinerary hvisits⟩
  constructor
  · exact h.returns_findRoot
  · exact h.returns_ofRoot hwell
  · exact hitinerary
  · simpa [← hitinerary] using
      Walker.returns_files (mild_calm world.hazards) hwell (h.nullFree_root hwell)
  · exact hvisits.returns_foldlM
  · exact hstop
  · intro file hfile
    exact get?_of_visits hwell hvisits hfile

end SetsOut

section

variable {argv : List String} {options : Options} {setting : Setting} {world : World}

/-- A run that an outburst breaks off has processed the files that its walker yields before the stop
at which that happens, in their order, and nothing else. Files to which none of them leads keep
their bytes. The run without the outbursts comes through the same tree, so that files to which no
later path leads are the same in the end. No report is printed. If the outburst comes while the
ignore file is read, or if the patterns do not compile, no file is modified. -/
theorem run_stops_where_broken_off (hargs : Args.parse argv = .ok options)
    (hwell : world.tree.WellFormed) :
    (∀ abort, abort.isOutburst = true → (run argv setting false world).ending = .aborted abort →
      (∃ root, BrokenOffAtRules argv options setting world abort root ∨
        ∃ w done stop ahead state,
          BrokenOffAt argv options setting world abort root w done stop ahead state ∧
          ∀ spare, GoesOn argv options setting world spare root done (stop :: ahead) state) ∧
      (∀ asProgram, (run argv setting asProgram world).stdout = "" ∧
        (run argv setting asProgram world).world.tree = (run argv setting false world).world.tree) ∧
      (run argv setting true world).ending = programEnding setting.environment abort) ∧
    ∀ root e, ((findRoot setting.cwd options.dir?).run.run world).1 = .ok (some root) →
      Ignore.rulesOf (Walker.patterns world.hazards world.tree root (exclusions options)) =
        .error e →
      (∀ asProgram, (run argv setting asProgram world).stdout = "" ∧
        (run argv setting asProgram world).world.tree = world.tree) ∧
      (Walker.Approachable world.hazards root (exclusions options) →
        (run argv setting false world).ending = .aborted (.pattern e) ∧
        (run argv setting true world).ending =
          programEnding setting.environment (.pattern e)) := by
  constructor
  · intro abort houtburst hending
    have hpipe : ∀ fault, abort ≠ .system fault := by
      rintro fault rfl
      cases houtburst
    obtain ⟨hprogram, hstdout⟩ := run_of_aborted hargs hending hpipe
    refine ⟨?_, fun asProgram => ⟨hstdout asProgram, ?_⟩, hprogram⟩
    · obtain ⟨root, hfound, hbreaks⟩ := exists_breaksOut hargs hwell houtburst hending
      refine ⟨root, ?_⟩
      generalize hafter : (run argv setting false world).world.tree = after at hbreaks
      cases hbreaks with
      | rules hasked hmet =>
          exact .inl ⟨returns_findRoot hfound _, hasked, Walker.ends_ignoreLines? hmet, hafter⟩
      | walk happroach hrules hwalk =>
          rw [← hafter] at hwalk
          obtain ⟨-, -, -, -, hentry⟩ := findRoot_eq_some_iff.mp hfound
          obtain ⟨location, hlocate⟩ := exists_locate_of_entry hentry
          have hsets : SetsOut argv setting world options root _ location :=
            ⟨hargs, hfound, happroach, hrules, hlocate⟩
          exact .inr (hsets.exists_brokenOffAt hwell hwalk)
    · rw [tree_run_of_parse_ok hargs, tree_run_of_parse_ok hargs]
  · intro root e hfound hrules
    have hroot := returns_findRoot hfound world.hazards
    obtain ⟨abort, hends, hpipe, hpattern⟩ :=
      Walker.exists_ends_ofRoot (nullFree_of_found hwell hfound) hrules options.verbose
    obtain ⟨hending, htree⟩ := run_of_ends hargs (ends_sweep hroot (hends.bind_error _))
    obtain ⟨hprogram, hstdout⟩ := run_of_aborted hargs hending hpipe
    refine ⟨fun asProgram => ⟨hstdout asProgram, htree asProgram⟩, fun happroach => ?_⟩
    rw [← hpattern happroach]
    exact ⟨hending, hprogram⟩

end

namespace SetsOut

variable {argv : List String} {options : Options} {setting : Setting} {world : World} {root : Path}
  {rules : Ignore.Rules} {location : Location} {abort : Abort}
  (h : SetsOut argv setting world options root rules location) (hwell : world.tree.WellFormed)

include h hwell

theorem run_of_stop {done ahead : List Walker.Stop} {stop : Walker.Stop}
    {state : Report × Registry} {after : FileTree}
    (hitinerary : (walker options world root rules).itinerary (calm world.hazards) world.tree =
      done ++ stop :: ahead)
    (hdone : Returns world.hazards
      (done.foldlM ((walker options world root rules).halt (step (processor options root)))
        (emptyReport options setting root, setting.registry)) world.tree state after)
    (hstop : Ends world.hazards
      ((walker options world root rules).halt (step (processor options root)) state stop) after
      (.error abort) after) :
    (run argv setting false world).ending = .aborted abort ∧
      (run argv setting false world).world.tree = after := by
  obtain ⟨result, last, hwalk, hstops⟩ := Walker.exists_ends_walk (tidy_step hwell)
    (walker options world root rules) (emptyReport options setting root, setting.registry)
  have hends : Ends world.hazards
      ((done ++ stop :: ahead).foldlM
        ((walker options world root rules).halt (step (processor options root)))
        (emptyReport options setting root, setting.registry)) world.tree (.error abort) after := by
    rw [List.foldlM_append]
    refine hdone.bind ?_
    rw [List.foldlM_cons]
    exact hstop.bind_error _
  rw [hitinerary] at hstops
  obtain ⟨rfl, rfl⟩ := hstops.unique hends
  have hsweepRoot : Ends world.hazards (sweepRoot options setting root) world.tree (.error abort)
      last :=
    (h.returns_ofRoot hwell).bind ((returns_banner _ _ _).bind (hwalk.bind_error _))
  obtain ⟨hending, htree⟩ := run_of_ends h.parsed (ends_sweep h.returns_findRoot hsweepRoot)
  exact ⟨hending, htree false⟩

theorem run_of_two_files (hstandard : setting.registry.IsStandard) {first second : Path}
    (hitinerary : (walker options world root rules).itinerary (calm world.hazards) world.tree =
      [.dir [], .file first, .file second])
    (hlist : Clear world.hazards .list ((walker options world root rules).dirAt []))
    (hread : Clear world.hazards .read first) (hwrite : Clear world.hazards .write first)
    (hroot : ((walker options world root rules).dirAt []).isNullFree) (hnull : first.isNullFree)
    (hallowed : Extension.isAllowed (Extension.normalize options.extensions) second = true)
    (habort : abort? world.hazards .read second = some abort) :
    (run argv setting false world).ending = .aborted abort ∧
      (run argv setting false world).world.tree =
        (processor options root).effect world.hazards world.tree first := by
  obtain ⟨registry, -, hprocess⟩ := Processor.returns_process (p := processor options root)
    hread.passable (fun _ => hwrite.passable) hnull hstandard
  have hlisted (state : Report × Registry) : Returns world.hazards
      ((walker options world root rules).halt (step (processor options root)) state (.dir []))
      world.tree state world.tree :=
    (returns_access hlist.passable hroot _).bind (returns_pure state)
  obtain ⟨state, hfirst⟩ : ∃ state, Returns world.hazards
      (step (processor options root) (emptyReport options setting root, setting.registry) first)
      world.tree state ((processor options root).effect world.hazards world.tree first) :=
    ⟨_, hprocess.bind (returns_pure _)⟩
  have hsecond (state : Report × Registry) (tree : FileTree) :
      Ends world.hazards (step (processor options root) state second) tree (.error abort) tree :=
    (Processor.ends_process hallowed habort state.2).bind_error _
  have hsplit : [Walker.Stop.dir [], .file first, .file second] =
      [.dir [], .file first] ++ .file second :: [] := rfl
  rw [hsplit] at hitinerary
  refine h.run_of_stop hwell hitinerary ?_ (hsecond state _)
  exact (hlisted _).bind (hfirst.bind (returns_pure state))

end SetsOut

def interruptedScripts : World where
  tree := ⟨[(["a.js"], .file [120, 47, 47, 121]), (["b.js"], .file [120, 47, 47, 121])]⟩
  hazards := [⟨⟨.root, ["b.js"]⟩, .read, .interrupt⟩]

theorem itinerary_interruptedScripts :
    (walker scriptOptions interruptedScripts ⟨.root, []⟩ []).itinerary
      (calm interruptedScripts.hazards) interruptedScripts.tree =
      [.dir [], .file ⟨.root, ["a.js"]⟩, .file ⟨.root, ["b.js"]⟩] := by
  cbv

def scriptArgs : List String :=
  ["--dir", "/", "--ed", "", "--ef", "", "--ext", "js"]

theorem setsOut_interruptedScripts :
    SetsOut scriptArgs {} interruptedScripts scriptOptions ⟨.root, []⟩ [] [] where
  parsed := by cbv
  found := by
    have hroot : interruptedScripts.tree.canonical? [] (Path.ofString "/") = some ⟨.root, []⟩ := by
      cbv
    exact findRoot_eq_some_iff.mpr ⟨"/", rfl, by decide, hroot, by cbv⟩
  approachable := by
    have hclear : Clear interruptedScripts.hazards .rules ⟨.root, [".gitignore"]⟩ := by decide
    exact fun _ => hclear.passable
  compiled := by cbv
  located := by cbv

theorem run_interruptedScripts :
    (run scriptArgs {} false interruptedScripts).ending = .aborted .interrupted ∧
      (run scriptArgs {} false interruptedScripts).world.tree =
        (processor scriptOptions ⟨.root, []⟩).effect interruptedScripts.hazards
          interruptedScripts.tree ⟨.root, ["a.js"]⟩ := by
  have hstandard : ({} : Setting).registry.IsStandard := Registry.isStandard_standard
  exact setsOut_interruptedScripts.run_of_two_files (by decide) hstandard
    itinerary_interruptedScripts (by decide) (by decide) (by decide) (by decide) (by decide)
    (by decide +kernel) rfl

theorem run_stops_where_broken_off_two_scripts :
    (run scriptArgs {} false interruptedScripts).ending = .aborted .interrupted ∧
      (run scriptArgs {} true interruptedScripts).ending = .exited 130 ∧
      (run scriptArgs {} true interruptedScripts).stdout = "" ∧
      (run scriptArgs {} true interruptedScripts).world.tree.get? ["a.js"] =
        some (.file [120, 10]) ∧
      (run scriptArgs {} true interruptedScripts).world.tree.get? ["b.js"] =
        some (.file [120, 47, 47, 121]) := by
  have hwell : interruptedScripts.tree.WellFormed := by decide
  have hsets := setsOut_interruptedScripts
  obtain ⟨hending, htree⟩ := run_interruptedScripts
  obtain ⟨⟨root, hwhere⟩, hprogram, hexit⟩ :=
    (run_stops_where_broken_off hsets.parsed hwell).1 .interrupted rfl hending
  obtain ⟨hstdout, hsame⟩ := hprogram true
  rw [hsame]
  refine ⟨hending, hexit, hstdout, ?_, ?_⟩
  · rw [htree]
    have ha : interruptedScripts.tree.locate ⟨.root, ["a.js"]⟩ = .ok ["a.js"] := by cbv
    have hrewrites : Rewrites (Extension.normalize ["js"]) interruptedScripts.hazards
        ⟨.root, ["a.js"]⟩ [120, 47, 47, 121] [120, 10] :=
      ⟨strips_script (by decide +kernel) (by decide +kernel) (by decide), by decide⟩
    exact Processor.get?_effect_of_leaves rfl ha rfl hrewrites.leaves
  · rcases hwhere with hbroken | ⟨w, done, stop, ahead, state, hbroken, -⟩
    · rw [hbroken.kept]
      rfl
    cases hbroken.found.unique hsets.returns_findRoot
    obtain rfl := hbroken.walker.unique (hsets.returns_ofRoot hwell)
    have hsplit := itinerary_interruptedScripts.symm.trans hbroken.itinerary
    refine (hbroken.kept ["b.js"] ?_).trans rfl
    have ha : interruptedScripts.tree.locate ⟨.root, ["a.js"]⟩ ≠ .ok ["b.js"] := by
      have hlocate : interruptedScripts.tree.locate ⟨.root, ["a.js"]⟩ = .ok ["a.js"] := by cbv
      rw [hlocate]
      simp
    rcases done with _ | ⟨first, _ | ⟨second, _ | ⟨third, rest⟩⟩⟩
    · simp [Walker.Stop.paths]
    · cases hsplit
      simp [Walker.Stop.paths, Walker.Stop.path?]
    · cases hsplit
      simpa [Walker.Stop.paths, Walker.Stop.path?] using ha
    · simp at hsplit

def linkedStyles : World where
  tree := ⟨[(["a.css"], .link "z.css"), (["z.css"], .file [47, 47, 42, 42, 47, 42, 42, 47])]⟩
  hazards := [⟨⟨.root, ["z.css"]⟩, .read, .interrupt⟩]

def styleArgs : List String :=
  ["--dir", "/", "--ed", "", "--ef", "", "--ext", "css"]

def styleOptions : Options :=
  { scriptOptions with extensions := ["css"] }

theorem prepared_linkedStyles :
    Prepared styleOptions {} { linkedStyles with hazards := [] } ⟨.root, []⟩ [] where
  wellFormed := by decide
  mild := by decide
  standard := rfl
  stdout := nofun
  found := by
    have hroot : linkedStyles.tree.canonical? [] (Path.ofString "/") = some ⟨.root, []⟩ := by cbv
    exact findRoot_eq_some_iff.mpr ⟨"/", rfl, by decide, hroot, by cbv⟩
  compiled := by cbv

theorem setsOut_linkedStyles :
    SetsOut styleArgs {} linkedStyles styleOptions ⟨.root, []⟩ [] [] where
  parsed := by cbv
  found := found_of_tree_eq prepared_linkedStyles.found rfl
  approachable := by
    have hclear : Clear linkedStyles.hazards .rules ⟨.root, [".gitignore"]⟩ := by decide
    exact fun _ => hclear.passable
  compiled := by cbv
  located := by cbv

theorem rewrites_style {hazards : List Hazard} {path : Path}
    (hallowed : Extension.isAllowed (Extension.normalize ["css"]) path = true)
    (hblock : Strategy.forExtension? (some (Extension.ofPath path)) = some .block)
    (hread : Clear hazards .read path) (hwrite : Clear hazards .write path) :
    Rewrites (Extension.normalize ["css"]) hazards path [47, 47, 42, 42, 47, 42, 42, 47]
        [47, 42, 42, 47, 10] ∧
      Rewrites (Extension.normalize ["css"]) hazards path [47, 42, 42, 47, 10] [] := by
  have hfirst : Text.Utf8.decode [47, 47, 42, 42, 47, 42, 42, 47] = .ok "//**/**/".toList := by cbv
  have hsecond : Text.Utf8.decode [47, 42, 42, 47, 10] = .ok "/**/\n".toList := by cbv
  have hstrip : Transformed.of (some (Registry.cleanerOf .block)) "//**/**/".toList =
      ⟨"/**/".toList, true⟩ := by decide +kernel
  have hstrip' : Transformed.of (some (Registry.cleanerOf .block)) "/**/\n".toList =
      ⟨"\n".toList, true⟩ := by decide +kernel
  have hencode : Text.Utf8.encode (Text.finish "/**/".toList) = [47, 42, 42, 47, 10] := by
    decide +kernel
  have hencode' : Text.Utf8.encode (Text.finish "\n".toList) = [] := by decide +kernel
  constructor
  · rw [← hencode]
    exact ⟨.of_strategy hallowed hblock hread hfirst hstrip, hwrite⟩
  · rw [← hencode']
    exact ⟨.of_strategy hallowed hblock hread hsecond hstrip', hwrite⟩

/-- A link that comes before its file lets the file change before the run is broken off there. -/
theorem broken_off_through_link :
    let broken := run styleArgs {} false linkedStyles
    let whole := run styleArgs {} false { linkedStyles with hazards := [] }
    broken.ending = .aborted .interrupted ∧
      linkedStyles.tree.get? ["z.css"] = some (.file [47, 47, 42, 42, 47, 42, 42, 47]) ∧
      broken.world.tree.get? ["z.css"] = some (.file [47, 42, 42, 47, 10]) ∧
      whole.world.tree.get? ["z.css"] = some (.file []) := by
  have hprepared := prepared_linkedStyles
  have hwell : linkedStyles.tree.WellFormed := hprepared.wellFormed
  have hsets := setsOut_linkedStyles
  have hstandard : ({} : Setting).registry.IsStandard := Registry.isStandard_standard
  have hitinerary : (walker styleOptions linkedStyles ⟨.root, []⟩ []).itinerary
      (calm linkedStyles.hazards) linkedStyles.tree =
      [.dir [], .file ⟨.root, ["a.css"]⟩, .file ⟨.root, ["z.css"]⟩] := by cbv
  obtain ⟨hending, htree⟩ := hsets.run_of_two_files hwell hstandard hitinerary (by decide)
    (by decide) (by decide) (by decide) (by decide) (by decide +kernel) rfl
  have hlink : linkedStyles.tree.locate ⟨.root, ["a.css"]⟩ = .ok ["z.css"] := by cbv
  have hfile : linkedStyles.tree.locate ⟨.root, ["z.css"]⟩ = .ok ["z.css"] := by cbv
  have hstyle (hazards : List Hazard) (hread : Clear hazards .read ⟨.root, ["a.css"]⟩)
      (hwrite : Clear hazards .write ⟨.root, ["a.css"]⟩) :
      ((processor styleOptions ⟨.root, []⟩).effect hazards linkedStyles.tree
        ⟨.root, ["a.css"]⟩).get? ["z.css"] = some (.file [47, 42, 42, 47, 10]) :=
    Processor.get?_effect_of_leaves rfl hlink rfl
      (rewrites_style (by decide +kernel) (by decide +kernel) hread hwrite).1.leaves
  refine ⟨hending, rfl, ?_, ?_⟩
  · rw [htree]
    exact hstyle _ (by decide) (by decide)
  · obtain ⟨-, hafter⟩ := run_of_returns hsets.parsed hprepared.returns_perform
    have hyielded : yielded styleOptions { linkedStyles with hazards := [] } ⟨.root, []⟩ [] =
        [⟨.root, ["a.css"]⟩, ⟨.root, ["z.css"]⟩] := by cbv
    rw [treeAfter, hyielded] at hafter
    have hshape : linkedStyles.tree.SameShape ((processor styleOptions ⟨.root, []⟩).effect []
        linkedStyles.tree ⟨.root, ["a.css"]⟩) :=
      Processor.sameShape_effect hwell _
    rw [hafter]
    exact Processor.get?_effect_of_leaves rfl ((hshape.locate_eq _).symm.trans hfile)
      (hstyle [] (by decide) (by decide))
      (rewrites_style (by decide +kernel) (by decide +kernel) (by decide) (by decide)).2.leaves

end CommentSweep.Run
