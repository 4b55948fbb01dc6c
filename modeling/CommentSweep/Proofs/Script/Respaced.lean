import CommentSweep.Proofs.Script.Rescan
import CommentSweep.Proofs.Text.Respaced
import Mathlib

/-!
Scans of texts that differ in their blanks only. Outside of comments a blank changes nothing but
that it ends the tie of an escape, so a scanner that drops nothing of one such text drops nothing of
the other.
-/

namespace CommentSweep.Script

theorem Mode.read_blank {mode : Mode} (hline : mode ≠ .line) (hblock : mode ≠ .block) {c : Char}
    (hc : Text.isBlank c = true) (prev : Option Char) (ahead : Text) :
    mode.read prev c ahead = ⟨true, mode, 0⟩ := by
  have hne {d : Char} (hd : Text.isBlank d = false) : c ≠ d := by
    intro heq
    rw [heq, hd] at hc
    cases hc
  have hescape : c ≠ '\\' := hne (by decide)
  have hslash : c ≠ '/' := hne (by decide)
  have hstar : c ≠ '*' := hne (by decide)
  have hquote (quote : Quote) : c ≠ quote.char := hne (by cases quote <;> decide)
  have hopen : c ≠ '[' := hne (by decide)
  have hshut : c ≠ ']' := hne (by decide)
  cases mode with
  | code => simp [Mode.read, hescape, hslash, Quote.ofChar?, hquote]
  | line => exact absurd rfl hline
  | block => exact absurd rfl hblock
  | doc => simp [Mode.read, hstar]
  | quoted quote => simp [Mode.read, hescape, hquote]
  | regex inClass => simp [Mode.read, hescape, hopen, hshut, hslash]

theorem opensDoc_slash_iff {t : Text} :
    opensDoc ('/' :: t) = true ↔ ∃ tail, t = '*' :: '*' :: tail ∧ tail.head? ≠ some '/' := by
  cases t with
  | nil => simp [opensDoc]
  | cons c t =>
      by_cases hc : c = '*'
      · subst hc
        rw [opensDoc_iff]
        simp
      · simp [opensDoc, hc]

theorem opensDoc_respaced {t u : Text} (h : Text.Respaced t u) :
    opensDoc ('/' :: t) = opensDoc ('/' :: u) := by
  have hhalf {t u : Text} (h : Text.Respaced t u) (hdoc : opensDoc ('/' :: t) = true) :
      opensDoc ('/' :: u) = true := by
    obtain ⟨tail, rfl, hfourth⟩ := opensDoc_slash_iff.mp hdoc
    obtain ⟨tail', rfl, htail⟩ : ∃ tail', u = ['*', '*'] ++ tail' ∧ Text.Respaced tail tail' :=
      Text.Respaced.of_word (Text.allVisible_of_all (by decide)) h
    refine opensDoc_slash_iff.mpr ⟨tail', rfl, ?_⟩
    intro hslash
    exact hfourth ((htail.head?_eq_iff (by decide)).mpr hslash)
  rw [Bool.eq_iff_iff]
  exact ⟨hhalf h, hhalf h.symm⟩

theorem Mode.read_respaced {mode : Mode} (hline : mode ≠ .line) {t u : Text}
    (h : Text.Respaced t u) (prev : Option Char) (c : Char) :
    mode.read prev c t = mode.read prev c u := by
  have hhead {d : Char} (hd : Text.isBlank d = false) :
      (t.head? == some d) = (u.head? == some d) := by
    rw [Bool.eq_iff_iff, beq_iff_eq, beq_iff_eq]
    exact h.head?_eq_iff hd
  have hslash := hhead (d := '/') (by decide)
  have hstar := hhead (d := '*') (by decide)
  cases mode with
  | line => exact absurd rfl hline
  | block => rw [Mode.read, Mode.read, hslash]
  | doc => rw [Mode.read, Mode.read, hslash]
  | quoted quote => rfl
  | regex inClass => rfl
  | code =>
      by_cases hc : c = '/'
      · subst hc
        rw [Mode.read, Mode.read, opensDoc_respaced h, hslash, hstar]
      · simp [Mode.read, hc]

theorem Mode.read_tied_le {mode : Mode} (prev : Option Char) (c : Char) (ahead : Text) :
    (mode.read prev c ahead).tied ≤ 1 ∨
      (mode.read prev c ahead).tied = 2 ∧ opensDoc (c :: ahead) = true := by
  cases mode with
  | line => exact .inl (by rw [Mode.read]; split <;> simp)
  | block => exact .inl (by rw [Mode.read]; split <;> simp)
  | doc => exact .inl (by rw [Mode.read]; split <;> simp)
  | quoted quote =>
      left
      rw [Mode.read]
      split
      · simp
      · split <;> simp
  | regex inClass =>
      left
      rw [Mode.read]
      split
      · simp
      · split
        · simp
        · split
          · simp
          · split <;> simp
  | code =>
      rw [Mode.read]
      split
      · exact .inl (by simp)
      · split
        · split
          · next hdoc => exact .inr ⟨rfl, hdoc⟩
          · left
            split
            · simp
            · split
              · simp
              · split <;> simp
        · left
          split <;> simp

theorem Mode.read_tied {mode : Mode} {prev : Option Char} {c : Char} {ahead : Text}
    (h : 1 < (mode.read prev c ahead).tied) :
    (mode.read prev c ahead).tied = 2 ∧ ahead.head? = some '*' := by
  rcases mode.read_tied_le prev c ahead with hle | ⟨htwo, hdoc⟩
  · omega
  · refine ⟨htwo, ?_⟩
    unfold opensDoc at hdoc
    split at hdoc
    · next heq =>
        rw [(List.cons.inj heq).2]
        rfl
    · cases hdoc

namespace State

theorem keeps_sublist (s : State) (t ahead : Text) : (s.keeps t ahead).Sublist t := by
  induction t generalizing s with
  | nil => exact List.Sublist.refl []
  | cons c t ih =>
      rw [keeps_cons]
      split
      · exact (ih _).cons_cons c
      · exact (ih _).cons c

theorem keeps_cons_eq_self_iff {s : State} {c : Char} {t : Text} :
    s.keeps (c :: t) [] = c :: t ↔
      (s.step c t).1 = true ∧ (s.step c t).2.keeps t [] = t := by
  rw [keeps_cons, List.append_nil]
  cases (s.step c t).1 with
  | true => simp
  | false =>
      have hlength := ((s.step c t).2.keeps_sublist t []).length_le
      simp only [Bool.false_eq_true, if_false, false_and, iff_false]
      intro heq
      rw [heq, List.length_cons] at hlength
      omega

/-- The scanner is not in a comment that is dropped, and of what it is tied to only the last
character can be blank. -/
structure Holding (s : State) (ahead : Text) : Prop where
  line : s.mode ≠ .line
  block : s.mode ≠ .block
  keep : s.tied ≠ 0 → s.keep = true
  tied : 1 < s.tied → s.tied = 2 ∧ ahead.head? = some '*'

def rested (s : State) : State :=
  ⟨s.mode, 0, true, s.prev⟩

namespace Holding

variable {s : State} {t u : Text}

theorem start (t : Text) : Holding {} t :=
  ⟨nofun, nofun, fun h => absurd rfl h, fun h => absurd h (by decide)⟩

theorem rested (h : s.Holding t) (u : Text) : s.rested.Holding u :=
  ⟨h.line, h.block, fun _ => rfl, fun htied => absurd htied (by simp [State.rested])⟩

theorem step_eq {c : Char} (h : s.Holding (c :: t)) (hspaced : Text.Respaced t u) :
    s.step c t = s.step c u := by
  by_cases htied : s.tied = 0
  · simp [htied, Mode.read_respaced h.line hspaced]
  · simp [htied]

theorem step {c : Char} (h : s.Holding (c :: t)) (hkeep : (s.step c t).1 = true) :
    (s.step c t).2.Holding t := by
  by_cases htied : s.tied = 0
  · rw [step_untied htied] at hkeep ⊢
    obtain ⟨-, hline, hblock⟩ | ⟨-, hdrop, -⟩ := Mode.read_cases h.line h.block s.prev c t
    · exact ⟨hline, hblock, fun _ => hkeep, Mode.read_tied⟩
    · rw [hdrop] at hkeep
      cases hkeep
  · have hle : s.tied ≤ 2 := by
      by_contra hlt
      have htwo := (h.tied (by omega)).1
      omega
    rw [step_tied htied]
    refine ⟨h.line, h.block, fun _ => h.keep htied, ?_⟩
    intro hlt
    simp only at hlt
    omega

theorem of_head?_ne (h : s.Holding t) (hhead : t.head? ≠ some '*') (u : Text) : s.Holding u :=
  ⟨h.line, h.block, h.keep, fun htied => absurd (h.tied htied).2 hhead⟩

theorem step_blank {c : Char} (h : s.Holding (c :: t)) (hc : Text.isBlank c = true) :
    s.step c t = (true, s.rested) := by
  by_cases htied : s.tied = 0
  · simp [htied, Mode.read_blank h.line h.block hc, hc, State.rested]
  · have hone : s.tied = 1 := by
      by_contra hne
      have hhead := (h.tied (by omega)).2
      injection hhead with hstar
      rw [hstar] at hc
      exact absurd hc (by decide)
    simp [hone, hc, h.keep htied, State.rested]

theorem keeps_blanks {blanks : Text} (h : s.Holding (blanks ++ t)) (hblanks : Text.AllBlank blanks)
    (hne : blanks ≠ []) : s.keeps (blanks ++ t) [] = blanks ++ s.rested.keeps t [] := by
  induction blanks generalizing s with
  | nil => exact absurd rfl hne
  | cons c blanks ih =>
      obtain ⟨hc, hblanks⟩ := Text.allBlank_cons_iff.mp hblanks
      have hstep : s.step c (blanks ++ t) = (true, s.rested) := h.step_blank hc
      rw [List.cons_append, keeps_cons, List.append_nil, hstep, if_pos rfl, List.cons_append]
      apply congrArg (c :: ·)
      cases blanks with
      | nil => rfl
      | cons d blanks => exact ih (h.rested _) hblanks (List.cons_ne_nil d blanks)

end Holding

theorem head?_ne_of_allBlank {blanks : Text} (h : Text.AllBlank blanks) :
    blanks.head? ≠ some '*' := by
  intro hhead
  exact absurd (h '*' (List.mem_of_mem_head? hhead)) (by decide)

/-- A scanner that keeps all of a text keeps all of any text that differs from it in blanks only. -/
theorem keeps_respaced {s : State} {t u : Text} (hspaced : Text.Respaced t u) (hs : s.Holding t)
    (h : s.keeps t [] = t) : s.keeps u [] = u := by
  induction hspaced generalizing s with
  | @visible c t u hc hspaced ih =>
      rw [keeps_cons_eq_self_iff] at h ⊢
      rw [← hs.step_eq hspaced]
      exact ⟨h.1, ih (hs.step h.1) h.2⟩
  | @blanks b b' t u hb hb' hne hne' hspaced ih =>
      have hhead : (b ++ t).head? ≠ some '*' := by
        rw [List.head?_append_of_ne_nil _ hne]
        exact head?_ne_of_allBlank hb
      rw [hs.keeps_blanks hb hne] at h
      rw [(hs.of_head?_ne hhead _).keeps_blanks hb' hne',
        ih (hs.rested t) (List.append_cancel_left h)]
  | @ending b b' hb hb' =>
      by_cases hne : b' = []
      · rw [hne]
        rfl
      · have hholding := hs.of_head?_ne (head?_ne_of_allBlank hb) (b' ++ [])
        have hkeeps := hholding.keeps_blanks hb' hne
        rwa [List.append_nil, keeps_nil, List.append_nil] at hkeeps

end State

open State

theorem strip_respaced_iff {t u : Text} (h : Text.Respaced t u) : strip t = t ↔ strip u = u := by
  rw [strip_eq, strip_eq]
  exact ⟨keeps_respaced h (.start t), keeps_respaced h.symm (.start u)⟩

theorem strip_blanks_append {blanks : Text} (h : Text.AllBlank blanks) (t : Text) :
    strip (blanks ++ t) = blanks ++ strip t := by
  by_cases hne : blanks = []
  · rw [hne]
    rfl
  · rw [strip_eq, strip_eq]
    exact (Holding.start _).keeps_blanks h hne

theorem strip_finish_collapse_iff (t : Text) :
    strip (Text.finish (Text.collapse t)) = Text.finish (Text.collapse t) ↔ strip t = t := by
  obtain ⟨blanks, hblanks, hsplit⟩ := Text.exists_blanks_trimStart (Text.collapse t)
  rw [← strip_respaced_iff (Text.respaced_finish (Text.collapse t)),
    strip_respaced_iff (Text.respaced_collapse t)]
  generalize Text.trimStart (Text.collapse t) = body at hsplit
  rw [hsplit, strip_blanks_append hblanks, List.append_cancel_left_eq]

end CommentSweep.Script
