import CommentSweep.Strategy
import CommentSweep.Proofs.Comment.Erase
import CommentSweep.Proofs.Script.Respaced
import Mathlib

/-!
Texts that are settled: stripped, with their gaps closed and finished. A strategy finds nothing more
in such a text exactly if it finds nothing more in what it left at first.
-/

namespace CommentSweep

namespace Comment

variable {span : Span}

/-- Whether a text is free of these comments depends on its words, not on the blanks between them.
-/
structure Wordy (span : Span) : Prop where
  visible : ∀ {c : Char} {t : Text}, Opens span (c :: t) → Text.isBlank c = false
  respaced : ∀ {t u : Text}, Text.Respaced t u → (Free span t ↔ Free span u)

theorem wordy_toLineEnd {opener : Text} (hne : opener ≠ []) (hopener : Text.AllVisible opener) :
    Wordy (toLineEnd opener) where
  visible := by
    intro c t hopens
    obtain ⟨d, tail, rfl⟩ := List.exists_cons_of_ne_nil hne
    obtain ⟨rfl, -⟩ := List.cons_prefix_cons.mp ((opens_toLineEnd_iff hne).mp hopens)
    exact hopener d List.mem_cons_self
  respaced := by
    intro t u hspaced
    simp [hne, hspaced.infix_iff hopener hne]

theorem wordy_enclosed {opener closer : Text} (hopener : opener ≠ []) (hcloser : closer ≠ [])
    (hvisible : Text.AllVisible opener) (hvisible' : Text.AllVisible closer) :
    Wordy (enclosed opener closer) where
  visible := by
    intro c t hopens
    obtain ⟨rest, hsplit, -⟩ := (opens_enclosed_iff hcloser).mp hopens
    obtain ⟨d, tail, rfl⟩ := List.exists_cons_of_ne_nil hopener
    obtain ⟨rfl, -⟩ := List.cons.inj hsplit
    exact hvisible c List.mem_cons_self
  respaced := by
    intro t u hspaced
    simp [hopener, hcloser, hasEnclosed_respaced_iff hopener hcloser hvisible hvisible' hspaced]

namespace Wordy

theorem free_blanks_append (h : Wordy span) {blanks : Text} (hblanks : Text.AllBlank blanks)
    (t : Text) : Free span (blanks ++ t) ↔ Free span t := by
  induction blanks with
  | nil => rfl
  | cons c blanks ih =>
      obtain ⟨hc, hblanks⟩ := Text.allBlank_cons_iff.mp hblanks
      have hkeep : ¬Opens span (c :: (blanks ++ t)) := by
        intro hopens
        rw [h.visible hopens] at hc
        cases hc
      simpa [ih hblanks] using and_iff_right hkeep

theorem free_finish_collapse_iff (h : Wordy span) (t : Text) :
    Free span (Text.finish (Text.collapse t)) ↔ Free span t := by
  obtain ⟨blanks, hblanks, hsplit⟩ := Text.exists_blanks_trimStart (Text.collapse t)
  rw [← h.respaced (Text.respaced_finish (Text.collapse t)), ← h.free_blanks_append hblanks,
    ← hsplit, ← h.respaced (Text.respaced_collapse t)]

end Wordy

theorem foldl_erase_sublist (spans : List Span) (t : Text) :
    (spans.foldl (fun t span => erase span t) t).Sublist t := by
  induction spans generalizing t with
  | nil => exact List.Sublist.refl t
  | cons span spans ih => exact (ih (erase span t)).trans (erase_sublist span t)

@[simp] theorem foldl_erase_eq_self_iff (spans : List Span) (t : Text) :
    spans.foldl (fun t span => erase span t) t = t ↔ ∀ span ∈ spans, Free span t := by
  induction spans with
  | nil => simp
  | cons span spans ih =>
      rw [List.foldl_cons, List.forall_mem_cons, ← ih, ← erase_eq_self_iff]
      constructor
      · intro heq
        have hlength := (foldl_erase_sublist spans (erase span t)).length_le
        rw [heq] at hlength
        have hfirst := (erase_sublist span t).eq_of_length_le hlength
        rw [hfirst] at heq
        exact ⟨hfirst, heq⟩
      · intro h
        rw [h.1]
        exact h.2

end Comment

namespace Strategy

def kinds : Strategy → List Comment.Span
  | .script => []
  | .block => [Comment.block]
  | .markup => [Comment.markup]
  | .hash => [Comment.hash]
  | .cStyle => [Comment.slashes, Comment.block]
  | .php => [Comment.slashes, Comment.block, Comment.hash]
  | .passthrough => []

variable {strategy : Strategy}

theorem strip_eq_foldl (h : strategy ≠ .script) (t : Text) :
    strategy.strip t = strategy.kinds.foldl (fun t span => Comment.erase span t) t := by
  cases strategy with
  | script => exact absurd rfl h
  | _ => rfl

theorem wordy_of_mem_kinds {span : Comment.Span} (h : span ∈ strategy.kinds) :
    Comment.Wordy span := by
  have hblock : Comment.Wordy Comment.block :=
    Comment.wordy_enclosed (by simp) (by simp) (Text.allVisible_of_all (by decide))
      (Text.allVisible_of_all (by decide))
  have hmarkup : Comment.Wordy Comment.markup :=
    Comment.wordy_enclosed (by simp) (by simp) (Text.allVisible_of_all (by decide))
      (Text.allVisible_of_all (by decide))
  have hslashes : Comment.Wordy Comment.slashes :=
    Comment.wordy_toLineEnd (by simp) (Text.allVisible_of_all (by decide))
  have hhash : Comment.Wordy Comment.hash :=
    Comment.wordy_toLineEnd (by simp) (Text.allVisible_of_all (by decide))
  have hall : ∀ span ∈ strategy.kinds, Comment.Wordy span := by
    cases strategy <;> simp [kinds, hblock, hmarkup, hslashes, hhash]
  exact hall span h

theorem strip_sublist (strategy : Strategy) (t : Text) : (strategy.strip t).Sublist t := by
  by_cases h : strategy = .script
  · rw [h, strip, Script.State.strip_eq]
    exact Script.State.keeps_sublist {} t []
  · rw [strip_eq_foldl h]
    exact Comment.foldl_erase_sublist strategy.kinds t

theorem strip_eq_self_iff (h : strategy ≠ .script) {t : Text} :
    strategy.strip t = t ↔ ∀ span ∈ strategy.kinds, Comment.Free span t := by
  simp [strip_eq_foldl h]

theorem strip_finish_collapse_eq_self_iff (strategy : Strategy) (t : Text) :
    strategy.strip (Text.finish (Text.collapse t)) = Text.finish (Text.collapse t) ↔
      strategy.strip t = t := by
  by_cases h : strategy = .script
  · rw [h]
    exact Script.strip_finish_collapse_iff t
  · rw [strip_eq_self_iff h, strip_eq_self_iff h]
    refine forall₂_congr fun span hspan => ?_
    exact (wordy_of_mem_kinds hspan).free_finish_collapse_iff t

theorem strip_eq_self_of_collapse {t : Text} (h : Text.collapse (strategy.strip t) = t) :
    strategy.strip t = t := by
  apply (strategy.strip_sublist t).eq_of_length_le
  calc
    t.length = (Text.collapse (strategy.strip t)).length := by rw [h]
    _ ≤ (strategy.strip t).length := Text.length_collapse_le _

def settled (strategy : Strategy) (raw : Text) : Text :=
  Text.finish (Text.collapse (strategy.strip raw))

theorem collapse_strip_settled_iff (strategy : Strategy) (raw : Text) :
    Text.collapse (strategy.strip (strategy.settled raw)) = strategy.settled raw ↔
      strategy.strip (strategy.strip raw) = strategy.strip raw := by
  rw [← strip_finish_collapse_eq_self_iff strategy (strategy.strip raw), ← settled]
  constructor
  · exact strip_eq_self_of_collapse
  · intro h
    rw [h]
    exact Text.collapse_finish (Text.not_hasGap_collapse _)

/-- Nothing that stands before a comment makes an opener with what stands behind it. -/
def Seamless : Strategy → Text → Prop
  | .script, raw => Script.SlashesAgree raw
  | .block, raw => ¬['/', '/', '*'] <:+: raw
  | .markup, raw =>
      ¬(['<', '<', '!', '-', '-'] <:+: raw ∨ ['<', '!', '<', '!', '-', '-'] <:+: raw ∨
        ['<', '!', '-', '<', '!', '-', '-'] <:+: raw)
  | _, _ => True

instance : (strategy : Strategy) → (raw : Text) → Decidable (strategy.Seamless raw)
  | .script, raw => inferInstanceAs (Decidable (Script.SlashesAgree raw))
  | .block, _ => inferInstanceAs (Decidable (¬_))
  | .markup, _ => inferInstanceAs (Decidable (¬_))
  | .hash, _ => .isTrue trivial
  | .cStyle, _ => .isTrue trivial
  | .php, _ => .isTrue trivial
  | .passthrough, _ => .isTrue trivial

theorem free_slashes_iff {t : Text} : Comment.Free Comment.slashes t ↔ ¬['/', '/'] <:+: t :=
  Comment.free_toLineEnd_iff (by simp)

theorem not_infix_erase_slashes (t : Text) :
    ¬['/', '/'] <:+: Comment.erase Comment.slashes t :=
  free_slashes_iff.mp (Comment.free_erase_toLineEnd (by simp) (by simp [Comment.isLineEnd]) t)

theorem free_slashes_stripCStyle (t : Text) : Comment.Free Comment.slashes (stripCStyle t) :=
  free_slashes_iff.mpr (Comment.not_infix_slashes_erase_block (not_infix_erase_slashes t))

theorem free_block_stripCStyle (t : Text) : Comment.Free Comment.block (stripCStyle t) := by
  apply Comment.free_erase_block
  -- A seam of blocks holds two slashes, and those went with the line comments.
  rw [Comment.hasSeam_block_iff]
  intro hseam
  exact not_infix_erase_slashes t (List.IsInfix.trans ⟨[], ['*'], rfl⟩ hseam)

theorem free_strip_of_seamless (h : strategy ≠ .script) {raw : Text}
    (hseamless : strategy.Seamless raw) :
    ∀ span ∈ strategy.kinds, Comment.Free span (strategy.strip raw) := by
  have hhash (t : Text) : Comment.Free Comment.hash (Comment.erase Comment.hash t) :=
    Comment.free_erase_toLineEnd (by simp) (by simp [Comment.isLineEnd]) t
  cases strategy with
  | script => exact absurd rfl h
  | block =>
      rw [Seamless, ← Comment.hasSeam_block_iff] at hseamless
      simpa [kinds, strip] using Comment.free_erase_block hseamless
  | markup =>
      rw [Seamless, ← Comment.hasSeam_markup_iff] at hseamless
      simpa [kinds, strip] using Comment.free_erase_markup hseamless
  | hash => simpa [kinds, strip] using hhash raw
  | cStyle =>
      simpa [kinds, strip] using ⟨free_slashes_stripCStyle raw, free_block_stripCStyle raw⟩
  | php =>
      have hslashes : Comment.Free Comment.slashes
          (Comment.erase Comment.hash (stripCStyle raw)) := by
        have hline := free_slashes_stripCStyle raw
        rw [free_slashes_iff] at hline ⊢
        exact Comment.not_infix_erase_hash (by simp [Comment.isLineEnd]) hline
      have hblock := Comment.free_block_erase_hash (free_block_stripCStyle raw)
      simpa [kinds, strip] using ⟨hslashes, hblock, hhash (stripCStyle raw)⟩
  | passthrough => simp [kinds]

theorem strip_strip_of_seamless {raw : Text} (h : strategy.Seamless raw) :
    strategy.strip (strategy.strip raw) = strategy.strip raw := by
  by_cases hscript : strategy = .script
  · rw [hscript] at h ⊢
    rw [strip, Script.State.strip_eq, Script.State.strip_eq]
    exact @Script.keeps_keeps_of_follows [] raw {} h
      (Script.State.Follows.of_ready Script.State.ready_start Script.State.ready_start) rfl
  · exact (strip_eq_self_iff hscript).mpr (free_strip_of_seamless hscript h)

end Strategy

end CommentSweep
