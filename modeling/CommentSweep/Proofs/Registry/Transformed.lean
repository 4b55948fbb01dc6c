import CommentSweep.Proofs.Registry.Answer
import CommentSweep.Proofs.Strategy.Remains
import Mathlib

/-!
What is left of a text under the standard registry. Nothing is put into it but line terminators, and
they are its own where all its lines end alike. If it changes, it has changed for good: finishing it
does not give the old text back.
-/

namespace CommentSweep

open Text (CrlfOnly units visible)

/-- What a text comes to under the standard registry: it stays, or it is stripped and its gaps are
closed. -/
inductive Transformed.Standard (raw : Text) : Transformed → Prop
  | untouched : Standard raw ⟨raw, false⟩
  | stripped (strategy : Strategy) :
      Standard raw
        ⟨Text.collapse (strategy.strip raw), Text.collapse (strategy.strip raw) != raw⟩

namespace Transformed.Standard

theorem of_extension (extension : Option String) (raw : Text) :
    Standard raw (.of ((Strategy.forExtension? extension).map Registry.cleanerOf) raw) := by
  cases Strategy.forExtension? extension with
  | none => exact .untouched
  | some strategy => exact .stripped strategy

variable {raw : Text} {t : Transformed}

theorem crlfOnly (h : Standard raw t) (hcrlf : CrlfOnly raw) : CrlfOnly t.content := by
  cases h with
  | untouched => exact hcrlf
  | stripped strategy => exact (strategy.crlfOnly_strip hcrlf).collapse

theorem units_sublist (h : Standard raw t) (hcrlf : CrlfOnly raw) :
    (units t.content).Sublist (units raw) := by
  cases h with
  | untouched => exact List.Sublist.refl _
  | stripped strategy =>
      have hcollapse := (strategy.crlfOnly_strip hcrlf).units_collapse_sublist
      exact hcollapse.trans (strategy.units_strip_sublist hcrlf)

theorem length_le (h : Standard raw t) : t.content.length ≤ raw.length := by
  cases h with
  | untouched => exact Nat.le_refl _
  | stripped strategy =>
      exact (Text.length_collapse_le _).trans (strategy.strip_sublist raw).length_le

theorem visible_sublist (h : Standard raw t) : (visible t.content).Sublist (visible raw) := by
  cases h with
  | untouched => exact List.Sublist.refl _
  | stripped strategy =>
      rw [Text.visible_collapse]
      exact (strategy.strip_sublist raw).filter _

theorem sublist (h : Standard raw t) (hendings : '\r' ∉ raw ∨ CrlfOnly raw) :
    t.content.Sublist raw := by
  rcases hendings with hreturn | hcrlf
  · cases h with
    | untouched => exact List.Sublist.refl _
    | stripped strategy =>
        have hstrip := strategy.strip_sublist raw
        have hcollapse := Text.units_collapse_of_not_mem fun hmem => hreturn (hstrip.subset hmem)
        exact (Text.sublist_of_units hcollapse).trans hstrip
  · exact Text.sublist_of_units (h.units_sublist hcrlf)

theorem changed_iff (h : Standard raw t) : t.changed = true ↔ t.content ≠ raw := by
  cases h with
  | untouched => simp
  | stripped strategy => exact bne_iff_ne

theorem finish_ne (h : Standard raw t) (hchanged : t.changed = true) :
    Text.finish t.content ≠ raw := by
  intro hfinish
  rw [h.changed_iff] at hchanged
  apply hchanged
  cases h with
  | untouched => rfl
  | stripped strategy =>
      -- Stripping costs visible characters, which finishing cannot give back.
      have hvisible : visible (strategy.strip raw) = visible raw := by
        rw [← Text.visible_collapse, ← Text.visible_finish, hfinish]
      have hstrip := (strategy.sheds_strip raw).eq_of_visible_eq hvisible
      have hclosed := Text.collapse_finish (Text.not_hasGap_collapse (strategy.strip raw))
      rw [hfinish] at hclosed
      calc
        Text.collapse (strategy.strip raw) = Text.collapse raw := by rw [hstrip]
        _ = raw := hclosed

end Transformed.Standard

namespace Registry

variable {registry : Registry}

theorem IsStandard.exists_transform (hstandard : registry.IsStandard) (extension : Option String)
    (raw : Text) :
    ∃ t next, registry.transform extension raw = (.ok t, next) ∧ t.Standard raw :=
  ⟨_, _, hstandard.transform_eq extension raw, .of_extension extension raw⟩

/-- Where every line ends with `\r\n`, every line that is left does. Neither stripping nor closing
gaps takes such a terminator apart: it stays or goes in one piece, and so does every other
character. -/
theorem crlf_stays_whole (hstandard : registry.IsStandard) (extension : Option String) {raw : Text}
    (hcrlf : CrlfOnly raw) :
    (∀ strategy : Strategy, CrlfOnly (strategy.strip raw) ∧
      (units (strategy.strip raw)).Sublist (units raw)) ∧
    (CrlfOnly (Text.collapse raw) ∧ (units (Text.collapse raw)).Sublist (units raw)) ∧
    ∃ t next, registry.transform extension raw = (.ok t, next) ∧ CrlfOnly t.content ∧
      (units t.content).Sublist (units raw) := by
  obtain ⟨t, next, htransform, ht⟩ := hstandard.exists_transform extension raw
  refine ⟨?_, ⟨hcrlf.collapse, hcrlf.units_collapse_sublist⟩, t, next, htransform,
    ht.crlfOnly hcrlf, ht.units_sublist hcrlf⟩
  intro strategy
  exact ⟨strategy.crlfOnly_strip hcrlf, strategy.units_strip_sublist hcrlf⟩

theorem crlf_stays_whole_script :
    let raw : Text := ['a', '/', '/', '\r', 'b', '\r', '\n', '/', '*', '\r', '\n', '*', '/', 'c']
    CrlfOnly raw ∧
      ∃ t next, standard.transform (some ".js") raw = (.ok t, next) ∧ t.changed = true ∧
        CrlfOnly t.content ∧ (units t.content).Sublist (units raw) := by
  intro raw
  have hcrlf : CrlfOnly raw := by decide
  have hscript : Strategy.forExtension? (some ".js") = some .script := by decide +kernel
  have hfst := isStandard_standard.transform_fst (some ".js") raw
  obtain ⟨-, -, t, next, htransform, hcontent, hunits⟩ :=
    crlf_stays_whole isStandard_standard (some ".js") hcrlf
  rw [htransform, hscript] at hfst
  refine ⟨hcrlf, t, next, htransform, ?_, hcontent, hunits⟩
  rw [Except.ok.inj hfst]
  decide

/-- Stripping leaves a subsequence. So does the whole transformation where all lines end alike;
otherwise at least no text gets longer, and its visible characters are a subsequence of the old
ones. -/
theorem transform_leaves_subsequence (hstandard : registry.IsStandard) (extension : Option String)
    (raw : Text) :
    (∀ strategy : Strategy, (strategy.strip raw).Sublist raw) ∧
    ∃ t next, registry.transform extension raw = (.ok t, next) ∧
      t.content.length ≤ raw.length ∧ (visible t.content).Sublist (visible raw) ∧
      ('\r' ∉ raw ∨ CrlfOnly raw → t.content.Sublist raw) := by
  obtain ⟨t, next, htransform, ht⟩ := hstandard.exists_transform extension raw
  exact ⟨fun strategy => strategy.strip_sublist raw, t, next, htransform, ht.length_le,
    ht.visible_sublist, ht.sublist⟩

theorem transform_leaves_subsequence_gap :
    let raw : Text := ['a', '/', '/', 'b', '\r', '\n', '\r', '\n', '\r', '\n', 'c']
    CrlfOnly raw ∧
      ∃ t next, standard.transform (some ".js") raw = (.ok t, next) ∧ t.content.Sublist raw := by
  intro raw
  have hcrlf : CrlfOnly raw := by decide
  obtain ⟨-, t, next, htransform, -, -, hsublist⟩ :=
    transform_leaves_subsequence isStandard_standard (some ".js") raw
  exact ⟨hcrlf, t, next, htransform, hsublist (.inr hcrlf)⟩

example :
    let raw : Text := ['a', '\r', '\n', '\n', '\n', 'b']
    Text.collapse raw = ['a', '\r', '\n', '\r', '\n', 'b'] ∧ ¬(Text.collapse raw).Sublist raw := by
  decide

end Registry

end CommentSweep
