import CommentSweep.Proofs.Processor.Effect
import CommentSweep.Proofs.Strategy.Settled
import CommentSweep.Proofs.Text.Utf8
import Mathlib

/-!
Files that are processed again. A second pass leaves a file alone exactly if the strategy of the
file strips no more from what it has stripped once. The strategies for line comments and the one
that strips nothing never do; the others can, because what a comment kept apart may make up a new
one.
-/

namespace CommentSweep.Processor

open Disk

variable {p : Processor} {hazards : List Hazard} {tree : FileTree} {path : Path}
  {strategy : Strategy} {registry : Registry} {old : Bytes} {raw : Text}

theorem transformed_eq
    (hstrategy : Strategy.forExtension? (some (Extension.ofPath path)) = some strategy)
    (raw : Text) :
    transformed path raw =
      ⟨Text.collapse (strategy.strip raw), Text.collapse (strategy.strip raw) != raw⟩ := by
  rw [transformed, hstrategy]
  rfl

theorem transformed_settled
    (hstrategy : Strategy.forExtension? (some (Extension.ofPath path)) = some strategy)
    (h : strategy.strip (strategy.strip raw) = strategy.strip raw) :
    transformed path (strategy.settled raw) = ⟨strategy.settled raw, false⟩ := by
  rw [transformed_eq hstrategy, (strategy.collapse_strip_settled_iff raw).mpr h]
  simp

section

variable (hwell : tree.WellFormed) (hallowed : Extension.isAllowed p.allowed path = true)
  (hread : Job.Clear hazards .read path) (hfile : tree.read path = .ok old)
  (hdecode : Text.Utf8.decode old = .ok raw) (hstandard : registry.IsStandard)

include hread hfile in
theorem attempt_read_eq : Job.attempt hazards .read path (tree.read path) = .ok old :=
  (Job.attempt_eq_ok_iff hread.passable _ old).mpr ⟨hread, hfile⟩

include hallowed hread hfile hdecode in
theorem verdictIn_of_read :
    p.verdictIn hazards tree path = p.settleVerdict hazards path (transformed path raw) := by
  rw [verdictIn, attempt_read_eq hread hfile, verdict_decoded hazards hallowed hdecode]

include hwell hallowed hread hfile hdecode hstandard

theorem returns_process_unchanged (hsame : (transformed path raw).changed = false) :
    ∃ registry', registry'.IsStandard ∧
      Job.Returns hazards (p.process registry path) tree (⟨path, .unchanged, none⟩, registry')
        tree := by
  have hverdict : p.verdictIn hazards tree path = { outcome := ⟨path, .unchanged, none⟩ } := by
    rw [verdictIn_of_read hallowed hread hfile hdecode, settleVerdict, hsame]
    rfl
  have hdue : ¬p.Due hazards tree path := by
    rintro ⟨-, bytes, text, hbytes, htext, hchanged⟩
    rw [attempt_read_eq hread hfile] at hbytes
    cases hbytes
    rw [hdecode] at htext
    cases htext
    rw [hsame] at hchanged
    cases hchanged
  obtain ⟨registry', hstandard', hreturns⟩ := returns_process (p := p) hread.passable
    (fun h => absurd h hdue) (nullFree_of_read hwell hfile) hstandard
  rw [effect, hverdict] at hreturns
  exact ⟨registry', hstandard', hreturns⟩

theorem returns_process_written (hreal : p.dryRun = false) (hwrite : Job.Clear hazards .write path)
    (hchanged : (transformed path raw).changed = true) :
    ∃ registry' after, registry'.IsStandard ∧
      Job.Returns hazards (p.process registry path) tree (⟨path, .written, none⟩, registry')
        after ∧
      after.WellFormed ∧
      after.read path =
        .ok (Text.Utf8.encode (Text.finish (transformed path raw).content)) := by
  have hstores := Stores.of_standard hallowed hreal hread hwrite hfile hdecode hstandard hchanged
  obtain ⟨after, hreturns, hwell', hfile'⟩ := hstores.returns hwell
  exact ⟨_, after, hstandard.transform_snd (some (Extension.ofPath path)) raw, hreturns, hwell',
    hfile'⟩

end

/-- A second pass over a file, without faults, leaves it as the first pass did exactly if stripping
what was stripped once strips nothing more. That is so whenever no comment keeps apart what would
make up another comment. -/
theorem second_pass_unchanged_iff (hwell : tree.WellFormed)
    (hallowed : Extension.isAllowed p.allowed path = true) (hreal : p.dryRun = false)
    (hread : Job.Clear hazards .read path) (hwrite : Job.Clear hazards .write path)
    (hstrategy : Strategy.forExtension? (some (Extension.ofPath path)) = some strategy)
    (hfile : tree.read path = .ok old) (hdecode : Text.Utf8.decode old = .ok raw) :
    ∃ first second registry registry' middle after,
      Job.Returns hazards (p.process .standard path) tree (first, registry) middle ∧
      Job.Returns hazards (p.process registry path) middle (second, registry') after ∧
      (second.status = .unchanged ∧ after = middle ↔
        strategy.strip (strategy.strip raw) = strategy.strip raw) ∧
      (strategy.Seamless raw → second.status = .unchanged ∧ after = middle) := by
  have htransformed := transformed_eq hstrategy raw
  by_cases hfirst : Text.collapse (strategy.strip raw) = raw
  · have hsame : (transformed path raw).changed = false := by simp [htransformed, hfirst]
    obtain ⟨registry, hstandard, hpass⟩ := returns_process_unchanged hwell hallowed hread hfile
      hdecode Registry.isStandard_standard hsame
    obtain ⟨registry', -, hagain⟩ := returns_process_unchanged hwell hallowed hread hfile
      hdecode hstandard hsame
    have hstrip := Strategy.strip_eq_self_of_collapse hfirst
    refine ⟨_, _, registry, registry', tree, tree, hpass, hagain, ?_, fun _ => ⟨rfl, rfl⟩⟩
    exact iff_of_true ⟨rfl, rfl⟩ (by rw [hstrip, hstrip])
  · have hchanged : (transformed path raw).changed = true := by simp [htransformed, hfirst]
    obtain ⟨registry, middle, hstandard, hpass, hwell', hfile'⟩ := returns_process_written hwell
      hallowed hread hfile hdecode Registry.isStandard_standard hreal hwrite hchanged
    rw [htransformed] at hfile'
    have hdecode' := Text.Utf8.decode_encode (strategy.settled raw)
    by_cases hidem : strategy.strip (strategy.strip raw) = strategy.strip raw
    · have hsame : (transformed path (strategy.settled raw)).changed = false := by
        rw [transformed_settled hstrategy hidem]
      obtain ⟨registry', -, hagain⟩ := returns_process_unchanged hwell' hallowed hread hfile'
        hdecode' hstandard hsame
      refine ⟨_, _, registry, registry', middle, middle, hpass, hagain, ?_, fun _ => ⟨rfl, rfl⟩⟩
      exact iff_of_true ⟨rfl, rfl⟩ hidem
    · have hchanged' : (transformed path (strategy.settled raw)).changed = true := by
        rw [← Strategy.collapse_strip_settled_iff] at hidem
        simp [transformed_eq hstrategy, hidem]
      obtain ⟨registry', after, -, hagain, -, -⟩ := returns_process_written hwell' hallowed hread
        hfile' hdecode' hstandard hreal hwrite hchanged'
      refine ⟨_, _, registry, registry', middle, after, hpass, hagain, ?_, ?_⟩
      · exact iff_of_false (fun h => nomatch h.1) hidem
      · exact fun h => absurd (Strategy.strip_strip_of_seamless h) hidem

def lone (name : String) (raw : Text) : FileTree :=
  ⟨[([name], .file (Text.Utf8.encode raw))]⟩

theorem wellFormed_lone {name : String} (hname : FileTree.isNullFree name) (raw : Text) :
    (lone name raw).WellFormed where
  distinct := by simp [lone]
  nullFree := by simp [lone, hname]

theorem read_lone {name : String} {raw : Text}
    (hlocate : (lone name raw).locate ⟨.root, [name]⟩ = .ok [name]) :
    (lone name raw).read ⟨.root, [name]⟩ = .ok (Text.Utf8.encode raw) := by
  have hget : (lone name raw).get? [name] = some (.file (Text.Utf8.encode raw)) := by
    rw [FileTree.get?_of_ne_nil _ (List.cons_ne_nil name []), lone, List.lookup_cons_self]
  exact FileTree.read_eq_ok_iff.mpr ⟨[name], hlocate, hget⟩

theorem forExtension?_css :
    Strategy.forExtension? (some (Extension.ofPath ⟨.root, ["a.css"]⟩)) = some .block := by
  decide +kernel

theorem second_pass_unchanged_block :
    let p : Processor := ⟨[".css"], none, false⟩
    let path : Path := ⟨.root, ["a.css"]⟩
    let raw : Text := ['a', '/', '*', '/', '/', ' ', '*', '/', 'b', '\n', '\n', '\n', ' ', 'c']
    ∃ first second registry registry' middle after,
      Job.Returns [] (p.process .standard path) (lone "a.css" raw) (first, registry) middle ∧
      Job.Returns [] (p.process registry path) middle (second, registry') after ∧
      second.status = .unchanged ∧ after = middle := by
  intro p path raw
  have hallowed : Extension.isAllowed p.allowed path = true := by decide +kernel
  have hclear (kind : Access) : Job.Clear [] kind path := nofun
  have hseamless : Strategy.block.Seamless raw := by decide
  obtain ⟨first, second, registry, registry', middle, after, hpass, hagain, -, hsame⟩ :=
    second_pass_unchanged_iff (wellFormed_lone (by decide) raw) hallowed rfl (hclear .read)
      (hclear .write) forExtension?_css (read_lone (by cbv)) (Text.Utf8.decode_encode raw)
  exact ⟨first, second, registry, registry', middle, after, hpass, hagain, hsame hseamless⟩

/-- Two slashes and a star: the first pass takes a block from between a slash and a star, which the
second pass takes for another block. -/
theorem second_pass_writes_seam :
    let p : Processor := ⟨[".css"], none, false⟩
    let path : Path := ⟨.root, ["a.css"]⟩
    let raw : Text := ['/', '/', '*', '*', '/', '*', '*', '/']
    ∃ registry registry' middle after,
      Job.Returns [] (p.process .standard path) (lone "a.css" raw)
        (⟨path, .written, none⟩, registry)
        middle ∧
      middle.read path = .ok (Text.Utf8.encode ['/', '*', '*', '/', '\n']) ∧
      Job.Returns [] (p.process registry path) middle (⟨path, .written, none⟩, registry') after ∧
      after.read path = .ok [] := by
  intro p path raw
  have hallowed : Extension.isAllowed p.allowed path = true := by decide +kernel
  have hclear (kind : Access) : Job.Clear [] kind path := nofun
  have hfirst : transformed path raw = ⟨['/', '*', '*', '/'], true⟩ := by
    rw [transformed_eq forExtension?_css]
    decide
  have hsecond : transformed path ['/', '*', '*', '/', '\n'] = ⟨['\n'], true⟩ := by
    rw [transformed_eq forExtension?_css]
    decide
  obtain ⟨registry, middle, hstandard, hpass, hwell, hfile⟩ := returns_process_written
    (wellFormed_lone (by decide) raw) hallowed (hclear .read) (read_lone (by cbv))
    (Text.Utf8.decode_encode raw) Registry.isStandard_standard rfl (hclear .write)
    (by rw [hfirst])
  have hmiddle : middle.read path = .ok (Text.Utf8.encode ['/', '*', '*', '/', '\n']) := by
    rw [hfile, hfirst]
    decide +kernel
  obtain ⟨registry', after, -, hagain, -, hafter⟩ := returns_process_written hwell hallowed
    (hclear .read) hmiddle (Text.Utf8.decode_encode _) hstandard rfl (hclear .write)
    (by rw [hsecond])
  refine ⟨registry, registry', middle, after, hpass, hmiddle, hagain, ?_⟩
  rw [hafter, hsecond]
  decide +kernel

example :
    let raw : Text := ['<', '!', '<', '!', '-', '-', '-', '-', '>', '-', '-', '-', '-', '>']
    Strategy.markup.strip raw = ['<', '!', '-', '-', '-', '-', '>'] ∧
      Strategy.markup.strip (Strategy.markup.strip raw) = [] := by
  decide

example :
    let raw : Text := ['a', ' ', '/', '/', '=', '\n', '/', 'b', '/', '/', 'c', '/']
    Strategy.script.strip raw = ['a', ' ', '\n', '/', 'b', '/', '/', 'c', '/'] ∧
      Strategy.script.strip (Strategy.script.strip raw) = ['a', ' ', '\n', '/', 'b'] := by
  decide

/-- A file whose strategy looks for line comments, or strips nothing, is settled once it has been
written. Its new text comes out of the transformation as it went in, so every later pass that can
read the file leaves it alone, whatever else has changed in the tree. -/
theorem written_file_settles {t : Transformed} (hwell : tree.WellFormed)
    (hallowed : Extension.isAllowed p.allowed path = true) (hreal : p.dryRun = false)
    (hread : Job.Clear hazards .read path) (hwrite : Job.Clear hazards .write path)
    (hstrategy : Strategy.forExtension? (some (Extension.ofPath path)) = some strategy)
    (hkind : strategy ∈ [.hash, .cStyle, .php, .passthrough])
    (hfile : tree.read path = .ok old) (hdecode : Text.Utf8.decode old = .ok raw)
    (htransform :
      (Registry.standard.transform (some (Extension.ofPath path)) raw).1 = .ok t)
    (hchanged : t.changed = true) :
    (∃ registry after, registry.IsStandard ∧
      Job.Returns hazards (p.process .standard path) tree (⟨path, .written, none⟩, registry)
        after ∧
      after.WellFormed ∧ after.read path = .ok (Text.Utf8.encode (Text.finish t.content))) ∧
    (Registry.standard.transform (some (Extension.ofPath path)) (Text.finish t.content)).1 =
      .ok ⟨Text.finish t.content, false⟩ ∧
    ∀ (q : Processor) (hazards : List Hazard) (registry : Registry) (later : FileTree),
      Extension.isAllowed q.allowed path = true → Job.Clear hazards .read path →
      registry.IsStandard → later.WellFormed →
      later.read path = .ok (Text.Utf8.encode (Text.finish t.content)) →
      ∃ registry', registry'.IsStandard ∧
        Job.Returns hazards (q.process registry path) later (⟨path, .unchanged, none⟩, registry')
          later := by
  have hseamless : strategy.Seamless raw := by
    simp only [List.mem_cons, List.not_mem_nil, or_false] at hkind
    rcases hkind with rfl | rfl | rfl | rfl <;> exact trivial
  rw [Registry.isStandard_standard.transform_fst, Except.ok.injEq, ← transformed] at htransform
  subst htransform
  have hcontent : Text.finish (transformed path raw).content = strategy.settled raw := by
    rw [transformed_eq hstrategy, Strategy.settled]
  have hsettled : transformed path (strategy.settled raw) = ⟨strategy.settled raw, false⟩ :=
    transformed_settled hstrategy (Strategy.strip_strip_of_seamless hseamless)
  refine ⟨returns_process_written hwell hallowed hread hfile hdecode
    Registry.isStandard_standard hreal hwrite hchanged, ?_, ?_⟩
  · rw [hcontent, Registry.isStandard_standard.transform_fst, ← transformed, hsettled]
  · intro q hazards registry later hallowed hread hstandard hwell hfile
    rw [hcontent] at hfile
    exact returns_process_unchanged hwell hallowed hread hfile (Text.Utf8.decode_encode _)
      hstandard (by rw [hsettled])

theorem written_file_settles_php :
    let p : Processor := ⟨[".php"], none, false⟩
    let path : Path := ⟨.root, ["a.php"]⟩
    let raw : Text := ['a', '/', '/', '#', '\n', '/', '*', '#', '*', '/', 'b', '#', '/', '*']
    ∃ registry registry' after,
      Job.Returns [] (p.process .standard path) (lone "a.php" raw)
        (⟨path, .written, none⟩, registry) after ∧
      Job.Returns [] (p.process registry path) after (⟨path, .unchanged, none⟩, registry')
        after := by
  intro p path raw
  have hallowed : Extension.isAllowed p.allowed path = true := by decide +kernel
  have hclear (kind : Access) : Job.Clear [] kind path := nofun
  have hstrategy : Strategy.forExtension? (some (Extension.ofPath path)) = some .php := by
    decide +kernel
  have hchanged : (transformed path raw).changed = true := by
    rw [transformed_eq hstrategy]
    decide
  obtain ⟨⟨registry, after, hstandard, hpass, hwell, hfile⟩, -, hlater⟩ :=
    written_file_settles (wellFormed_lone (by decide) raw) hallowed rfl (hclear .read)
      (hclear .write) hstrategy (by decide) (read_lone (by cbv)) (Text.Utf8.decode_encode raw)
      (Registry.isStandard_standard.transform_fst _ raw) hchanged
  obtain ⟨registry', -, hagain⟩ :=
    hlater p [] registry after hallowed (hclear .read) hstandard hwell hfile
  exact ⟨registry, registry', after, hpass, hagain⟩

end CommentSweep.Processor
