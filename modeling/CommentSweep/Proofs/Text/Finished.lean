import CommentSweep.Proofs.Text.Layout
import Mathlib

/-!
Finished texts. A text whose gaps are closed and that is then finished is in a normal form: neither
of the two changes it again. Both leave the visible characters of a text as they are, so whatever
costs a text one of them cannot be made up for.
-/

namespace CommentSweep.Text

structure Trimmed (body : Text) : Prop where
  ne_nil : body ≠ []
  head : ∀ c ∈ body.head?, isBlank c = false
  last : ∀ c ∈ body.getLast?, isBlank c = false

theorem trimmed_trim {t : Text} (h : trim t ≠ []) : Trimmed (trim t) where
  ne_nil := h
  head := by
    obtain ⟨blanks, -, hsplit⟩ := exists_blanks_trimEnd (trimStart t)
    intro c hc
    have hhead : (trimStart t).head? = some c := by
      rw [hsplit, ← trim, List.head?_append_of_ne_nil _ h]
      exact hc
    have hvisible := List.head?_dropWhile_not isBlank t
    rw [← trimStart, hhead] at hvisible
    exact hvisible
  last := by
    obtain ⟨front, c, hc, hlast⟩ := exists_last_trimEnd h
    rw [trim, hlast]
    simpa using hc

namespace Trimmed

variable {body : Text}

theorem trimStart_append (h : Trimmed body) (rest : Text) :
    trimStart (body ++ rest) = body ++ rest := by
  obtain ⟨c, tail, rfl⟩ := List.exists_cons_of_ne_nil h.ne_nil
  rw [trimStart, List.cons_append, List.dropWhile_cons_of_neg]
  simp [h.head c rfl]

theorem trim_append (h : Trimmed body) {blanks : Text} (hblanks : AllBlank blanks) :
    trim (body ++ blanks) = body := by
  have hlast := h.last
  obtain ⟨front, c, rfl⟩ := (List.eq_nil_or_concat' body).resolve_left h.ne_nil
  have hreverse : ∀ d ∈ blanks.reverse, isBlank d = true := fun d hd =>
    hblanks d (List.mem_reverse.mp hd)
  rw [trim, h.trimStart_append, trimEnd, List.reverse_append,
    List.dropWhile_append_of_pos hreverse, List.reverse_append, List.reverse_singleton,
    List.singleton_append, List.dropWhile_cons_of_neg]
  · simp
  · simp [hlast c (by simp)]

theorem trim_eq (h : Trimmed body) : trim body = body := by
  have htrim := h.trim_append allBlank_nil
  rwa [List.append_nil] at htrim

theorem not_allBlank (h : Trimmed body) : ¬AllBlank body := by
  intro hblank
  obtain ⟨c, tail, rfl⟩ := List.exists_cons_of_ne_nil h.ne_nil
  have hvisible := h.head c rfl
  rw [hblank c List.mem_cons_self] at hvisible
  cases hvisible

theorem finish_append (h : Trimmed body) :
    finish (body ++ finalNewline body) = body ++ finalNewline body := by
  rw [finish_eq, h.trim_append (isNewline_finalNewline body).allBlank, if_neg h.ne_nil]

end Trimmed

@[simp] theorem trim_eq_nil_iff {t : Text} : trim t = [] ↔ AllBlank t := by
  obtain ⟨before, hbefore, hstart⟩ := exists_blanks_trimStart t
  obtain ⟨behind, hbehind, hend⟩ := exists_blanks_trimEnd (trimStart t)
  rw [← trim] at hend
  constructor
  · intro h
    rw [h, List.nil_append] at hend
    rw [hstart, hend]
    exact hbefore.append hbehind
  · intro hblank
    by_contra h
    apply (trimmed_trim h).not_allBlank
    intro c hc
    exact hblank c ((isInfix_trim t).mem hc)

@[simp] theorem finish_eq_nil_iff {t : Text} : finish t = [] ↔ AllBlank t := by
  rw [finish_eq, ← trim_eq_nil_iff]
  split
  · next h => exact iff_of_true rfl h
  · next h =>
      refine iff_of_false ?_ h
      rw [List.append_eq_nil_iff, not_and]
      exact fun hempty => absurd hempty h

@[simp] theorem finish_finish (t : Text) : finish (finish t) = finish t := by
  rw [finish_eq t]
  split
  · rfl
  · next h => exact (trimmed_trim h).finish_append

theorem Respaced.allBlank {t u : Text} (h : Respaced t u) (ht : AllBlank t) : AllBlank u := by
  induction h with
  | visible hc h ih =>
      rw [(allBlank_cons_iff.mp ht).1] at hc
      cases hc
  | blanks hs hs' hne hne' h ih => exact hs'.append (ih (List.forall_mem_append.mp ht).2)
  | ending hs hs' => exact hs'

@[simp] theorem allBlank_collapse_iff {t : Text} : AllBlank (collapse t) ↔ AllBlank t :=
  ⟨(respaced_collapse t).symm.allBlank, (respaced_collapse t).allBlank⟩

/-- A text whose gaps are closed and that is then finished stays as it is under both. It is empty if
there was nothing but blanks, and otherwise a trimmed text with one terminator behind it. -/
theorem finish_collapse_normal (t : Text) :
    collapse (finish (collapse t)) = finish (collapse t) ∧
      finish (finish (collapse t)) = finish (collapse t) ∧
      (finish (collapse t) = [] ↔ ∀ c ∈ t, isBlank c = true) ∧
      (finish (collapse t) ≠ [] → ∃ body newline, Trimmed body ∧ IsNewline newline ∧
        finish (collapse t) = body ++ newline) := by
  refine ⟨collapse_finish (not_hasGap_collapse t), finish_finish (collapse t),
    finish_eq_nil_iff.trans allBlank_collapse_iff, ?_⟩
  intro hne
  have hbody : trim (collapse t) ≠ [] := by
    simpa [ne_eq, ← finish_eq_nil_iff] using hne
  refine ⟨trim (collapse t), finalNewline (trim (collapse t)), trimmed_trim hbody,
    isNewline_finalNewline _, ?_⟩
  rw [finish_eq, if_neg hbody]

def visible (t : Text) : Text :=
  t.filter (!isBlank ·)

@[simp] theorem visible_append (t u : Text) : visible (t ++ u) = visible t ++ visible u :=
  List.filter_append ..

@[simp] theorem visible_cons {c : Char} (hc : isBlank c = false) (t : Text) :
    visible (c :: t) = c :: visible t :=
  List.filter_cons_of_pos (by simp [hc])

@[simp] theorem AllBlank.visible_eq {t : Text} (h : AllBlank t) : visible t = [] := by
  rw [visible, List.filter_eq_nil_iff]
  intro c hc
  simp [h c hc]

theorem visible_eq_of_respaced {t u : Text} (h : Respaced t u) : visible t = visible u := by
  induction h with
  | visible hc h ih => rw [visible_cons hc, visible_cons hc, ih]
  | blanks hs hs' hne hne' h ih =>
      rw [visible_append, visible_append, hs.visible_eq, hs'.visible_eq, ih]
  | ending hs hs' => rw [hs.visible_eq, hs'.visible_eq]

@[simp] theorem visible_collapse (t : Text) : visible (collapse t) = visible t :=
  (visible_eq_of_respaced (respaced_collapse t)).symm

@[simp] theorem visible_finish (t : Text) : visible (finish t) = visible t := by
  obtain ⟨blanks, hblanks, hsplit⟩ := exists_blanks_trimStart t
  have hstart : visible t = visible (trimStart t) := by
    rw [hsplit, visible_append, hblanks.visible_eq, List.nil_append, ← hsplit]
  rw [hstart]
  exact (visible_eq_of_respaced (respaced_finish t)).symm

/-- The second text is the first, or it has fewer visible characters. -/
def Sheds (t u : Text) : Prop :=
  u = t ∨ (visible u).length < (visible t).length

namespace Sheds

variable {t t' u u' v : Text}

theorem refl (t : Text) : Sheds t t :=
  .inl rfl

theorem trans (h : Sheds t u) (h' : Sheds u v) : Sheds t v := by
  rcases h with rfl | h
  · exact h'
  · rcases h' with rfl | h'
    · exact .inr h
    · exact .inr (h'.trans h)

theorem append (h : Sheds t u) (h' : Sheds t' u') : Sheds (t ++ t') (u ++ u') := by
  simp only [Sheds, visible_append, List.length_append]
  rcases h with rfl | h
  · rcases h' with rfl | h'
    · exact .inl rfl
    · exact .inr (by omega)
  · rcases h' with rfl | h'
    · exact .inr (by omega)
    · exact .inr (by omega)

theorem eq_of_visible_eq (h : Sheds t u) (hsame : visible u = visible t) : u = t := by
  rcases h with heq | hless
  · exact heq
  · rw [hsame] at hless
    exact absurd hless (Nat.lt_irrefl _)

end Sheds

end CommentSweep.Text
