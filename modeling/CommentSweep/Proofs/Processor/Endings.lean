import CommentSweep.Proofs.Processor.Again
import CommentSweep.Proofs.Strategy.Endings
import Mathlib

/-!
Line terminators of processed files. A file whose lines end with `\r\n` is written with such lines
only if a terminator is left between the first and the last visible character of its text. Otherwise
its one line ends with `\n`, whatever terminator stood behind it.
-/

namespace CommentSweep

open Disk

/-- Whatever cleaner is found for an extension strips as one of the strategies does. -/
def Registry.FindsStrategy (registry : Registry) (extension : Option String) : Prop :=
  ∀ cleaner, (registry.lookup extension).found = .ok (some cleaner) →
    ∃ strategy : Strategy, cleaner.strip = strategy.strip

theorem Registry.IsStandard.findsStrategy {registry : Registry} (h : registry.IsStandard)
    (extension : Option String) : registry.FindsStrategy extension := by
  intro cleaner hfound
  rw [h.found_lookup, Except.ok.injEq] at hfound
  obtain ⟨strategy, -, rfl⟩ := Option.map_eq_some_iff.mp hfound
  exact ⟨strategy, rfl⟩

theorem Registry.FindsStrategy.exists_content {registry next : Registry}
    {extension : Option String} (hfinds : registry.FindsStrategy extension) {raw : Text}
    {t : Transformed} (h : registry.transform extension raw = (.ok t, next))
    (hchanged : t.changed = true) :
    ∃ strategy : Strategy, t.content = Text.collapse (strategy.strip raw) := by
  rw [transform, Prod.mk.injEq] at h
  cases hfound : (registry.lookup extension).found with
  | error e =>
      rw [hfound] at h
      cases h.1
  | ok cleaner =>
      rw [hfound] at h
      obtain rfl : Transformed.of cleaner raw = t := Except.ok.inj h.1
      cases cleaner with
      | none => cases hchanged
      | some cleaner =>
          obtain ⟨strategy, hstrip⟩ := hfinds cleaner hfound
          exact ⟨strategy, by rw [Transformed.of, hstrip]⟩

namespace Processor

variable {p : Processor} {hazards : List Hazard} {registry next : Registry} {tree : FileTree}
  {path : Path} {raw : Text} {t : Transformed}

theorem Stores.crlfOnly_content (h : p.Stores hazards registry tree path raw t next)
    (hfinds : registry.FindsStrategy (some (Extension.ofPath path)))
    (hcrlf : Text.CrlfOnly raw) : Text.CrlfOnly t.content := by
  obtain ⟨strategy, hcontent⟩ := hfinds.exists_content h.transforms h.changed
  rw [hcontent]
  exact (strategy.crlfOnly_strip hcrlf).collapse

/-- A text is finished with `\r\n` exactly if it holds one between visible characters. As the text
of a file all of whose lines end with `\r\n`, it is written with such lines exactly if one of its
terminators is left there, or if nothing is left of it. -/
theorem crlf_written_iff (raw : Text) :
    (¬Text.AllBlank raw →
      (['\r', '\n'] <:+ Text.finish raw ↔ ['\r', '\n'] <:+: Text.trim raw)) ∧
    ∀ (p : Processor) (hazards : List Hazard) (registry next : Registry) (tree : FileTree)
      (path : Path) (t : Transformed), tree.WellFormed →
      p.Stores hazards registry tree path raw t next →
      registry.FindsStrategy (some (Extension.ofPath path)) → Text.CrlfOnly raw →
      ∃ after, Job.Returns hazards (p.process registry path) tree (⟨path, .written, none⟩, next)
          after ∧
        after.read path = .ok (Text.Utf8.encode (Text.finish t.content)) ∧
        (Text.CrlfOnly (Text.finish t.content) ↔
          Text.AllBlank t.content ∨ '\n' ∈ Text.trim t.content) := by
  constructor
  · intro hvisible
    rw [← Text.trim_eq_nil_iff] at hvisible
    rw [Text.finish_eq, if_neg hvisible]
    exact (Text.trimmed_trim hvisible).crlf_suffix_iff
  · intro p hazards registry next tree path t hwell hstores hfinds hcrlf
    obtain ⟨after, hreturns, -, hread⟩ := hstores.returns hwell
    exact ⟨after, hreturns, hread, (hstores.crlfOnly_content hfinds hcrlf).finish_iff⟩

theorem stores_css {raw content : Text}
    (h : transformed ⟨.root, ["a.css"]⟩ raw = ⟨content, true⟩) :
    Stores ⟨[".css"], none, false⟩ [] .standard (lone "a.css" raw) ⟨.root, ["a.css"]⟩ raw
      ⟨content, true⟩
      (Registry.standard.transform (some (Extension.ofPath ⟨.root, ["a.css"]⟩)) raw).2 := by
  have hclear (kind : Access) : Job.Clear [] kind ⟨.root, ["a.css"]⟩ := by simp [Job.Clear]
  rw [← h]
  exact .of_standard (by decide +kernel) rfl (hclear .read) (hclear .write) (read_lone (by cbv))
    (Text.Utf8.decode_encode raw) Registry.isStandard_standard (by rw [h])

theorem crlf_written_iff_two_lines :
    let p : Processor := ⟨[".css"], none, false⟩
    let path : Path := ⟨.root, ["a.css"]⟩
    let raw : Text := ['a', '/', '*', '\r', '\n', '*', '/', '\r', '\n', 'c']
    let written : Text := ['a', '\r', '\n', 'c', '\r', '\n']
    ['\r', '\n'] <:+ Text.finish raw ∧ Text.CrlfOnly raw ∧
      ∃ next after,
        Job.Returns [] (p.process .standard path) (lone "a.css" raw) (⟨path, .written, none⟩, next)
          after ∧
        after.read path = .ok (Text.Utf8.encode written) ∧ Text.CrlfOnly written := by
  intro p path raw written
  have hcrlf : Text.CrlfOnly raw := by decide
  have hvisible : ¬Text.AllBlank raw := fun h => absurd (h 'a' (by simp [raw])) (by decide)
  have hcontent : transformed path raw = ⟨['a', '\r', '\n', 'c'], true⟩ := by
    rw [transformed_eq forExtension?_css]
    decide
  obtain ⟨hfinish, hprocess⟩ := crlf_written_iff raw
  obtain ⟨after, hreturns, hread, hkept⟩ := hprocess p [] .standard _ (lone "a.css" raw) path _
    (wellFormed_lone (by decide) raw) (stores_css hcontent)
    (Registry.isStandard_standard.findsStrategy _) hcrlf
  exact ⟨(hfinish hvisible).mpr (by decide), hcrlf, _, after, hreturns, hread,
    hkept.mpr (.inr (by decide))⟩

/-- The terminator of the only line is trimmed before another is chosen. -/
theorem crlf_lost_behind_only_line :
    let p : Processor := ⟨[".css"], none, false⟩
    let path : Path := ⟨.root, ["a.css"]⟩
    let raw : Text := ['a', '/', '*', '*', '/', '\r', '\n']
    let text : Text := ['a', '\r', '\n']
    (¬Text.AllBlank text ∧ ['\r', '\n'] <:+: text ∧ ¬['\r', '\n'] <:+ Text.finish text) ∧
      Text.CrlfOnly raw ∧ ['\r', '\n'] <:+: Text.collapse (Strategy.block.strip raw) ∧
      ∃ next after,
        Job.Returns [] (p.process .standard path) (lone "a.css" raw) (⟨path, .written, none⟩, next)
          after ∧
        after.read path = .ok (Text.Utf8.encode ['a', '\n']) ∧ ¬Text.CrlfOnly ['a', '\n'] := by
  intro p path raw text
  have hcontent : transformed path raw = ⟨text, true⟩ := by
    rw [transformed_eq forExtension?_css]
    decide
  have hvisible : ¬Text.AllBlank text := fun h => absurd (h 'a' (by simp [text])) (by decide)
  obtain ⟨after, hreturns, -, hread⟩ :=
    (stores_css hcontent).returns (wellFormed_lone (by decide) raw)
  exact ⟨⟨hvisible, by decide, by decide⟩, by decide, by decide, _, after, hreturns, hread,
    by decide⟩

end Processor

end CommentSweep
