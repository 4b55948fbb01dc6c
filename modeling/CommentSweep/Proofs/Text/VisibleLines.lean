import CommentSweep.Proofs.Text.Finished
import Mathlib

/-!
Lines with something to see on them. Closing gaps leaves them as they are. Finishing a text trims
the blanks before the first visible character and behind the last one, so it cuts into no other
line.
-/

namespace CommentSweep.Text

def hasVisible (t : Text) : Bool :=
  t.any (!isBlank ·)

def Layout.contents (d : Layout) : List Text :=
  d.lines.map Line.content ++ [d.last]

def visibleLines (t : Text) : List Text :=
  (layout t).contents.filter hasVisible

@[simp] theorem hasVisible_eq_false_iff {t : Text} : hasVisible t = false ↔ AllBlank t := by
  simp [hasVisible, AllBlank]

@[simp] theorem hasVisible_append (t u : Text) :
    hasVisible (t ++ u) = (hasVisible t || hasVisible u) :=
  List.any_append

@[simp] theorem Line.hasVisible_text (line : Line) :
    hasVisible line.text = hasVisible line.content := by
  have hending : hasVisible line.ending.text = false :=
    hasVisible_eq_false_iff.mpr line.ending.isNewline.allBlank
  simp [text, hending, Bool.or_false]

theorem line_induction {motive : Text → Prop} (last : ∀ t, '\n' ∉ t → motive t)
    (line : ∀ (line : Line) t, motive t → motive (line.text ++ t)) (t : Text) : motive t := by
  rw [← text_layout t]
  induction layout t using Layout.cons_induction with
  | last t h => exact last t h
  | cons first d ih =>
      simpa using line first d.text ih

theorem visibleLines_of_not_mem {t : Text} (h : '\n' ∉ t) :
    visibleLines t = if hasVisible t then [t] else [] := by
  have hlayout : layout t = ⟨[], t, h⟩ := layout_text ⟨[], t, h⟩
  rw [visibleLines, hlayout]
  exact List.filter_cons

@[simp] theorem visibleLines_line_append (line : Line) (t : Text) :
    visibleLines (line.text ++ t) =
      if hasVisible line.content then line.content :: visibleLines t else visibleLines t := by
  rw [visibleLines, layout_line_append]
  exact List.filter_cons

@[simp] theorem visibleLines_eq_nil_iff {t : Text} : visibleLines t = [] ↔ AllBlank t := by
  rw [← hasVisible_eq_false_iff]
  induction t using line_induction with
  | last t h =>
      rw [visibleLines_of_not_mem h]
      cases hasVisible t <;> simp
  | line line t ih =>
      rw [visibleLines_line_append, hasVisible_append, line.hasVisible_text]
      cases hasVisible line.content with
      | false => simpa using ih
      | true => simp

theorem Line.isBlank_eq_false_of_hasVisible {line : Line} (h : hasVisible line.content = true) :
    line.isBlank = false := by
  by_contra hblank
  rw [Bool.not_eq_false, isBlank, List.all_eq_true] at hblank
  have hall : AllBlank line.content := fun c hc => isBlank_of_isIndent (hblank c hc)
  rw [hasVisible_eq_false_iff.mpr hall] at h
  cases h

@[simp] theorem visibleLines_collapse (t : Text) : visibleLines (collapse t) = visibleLines t := by
  have hlines (lines : List Line) :
      (lines.map Line.content).filter hasVisible =
        ((lines.filter (!·.isBlank)).filter (hasVisible ·.content)).map Line.content := by
    rw [List.filter_map, List.filter_filter]
    congr 1
    apply List.filter_congr
    intro line _
    cases hvisible : hasVisible line.content with
    | false => simp [hvisible]
    | true => simp [hvisible, Line.isBlank_eq_false_of_hasVisible hvisible]
  rw [visibleLines, visibleLines, layout_collapse, Layout.contents, Layout.contents,
    List.filter_append, List.filter_append, hlines, hlines]
  simp [Layout.closed]

theorem trimStart_append (t u : Text) :
    trimStart (t ++ u) = if hasVisible t then trimStart t ++ u else trimStart u := by
  cases hvisible : hasVisible t with
  | false =>
      rw [hasVisible_eq_false_iff] at hvisible
      exact List.dropWhile_append_of_pos hvisible
  | true =>
      have hne : ¬(t.dropWhile isBlank).isEmpty := by
        rw [List.isEmpty_iff, List.dropWhile_eq_nil_iff]
        intro hblank
        rw [hasVisible_eq_false_iff.mpr hblank] at hvisible
        cases hvisible
      rw [trimStart, List.dropWhile_append, if_neg hne]
      rfl

@[simp] theorem hasVisible_reverse (t : Text) : hasVisible t.reverse = hasVisible t := by
  simp [hasVisible]

theorem trimEnd_append (t u : Text) :
    trimEnd (t ++ u) = if hasVisible u then t ++ trimEnd u else trimEnd t := by
  have hreverse := trimStart_append u.reverse t.reverse
  rw [hasVisible_reverse] at hreverse
  rw [trimEnd, List.reverse_append, ← trimStart, hreverse]
  split
  · simp [trimStart, trimEnd]
  · rfl

@[simp] theorem hasVisible_trimStart (t : Text) : hasVisible (trimStart t) = hasVisible t := by
  obtain ⟨s, hs, hsplit⟩ := exists_blanks_trimStart t
  conv_rhs => rw [hsplit, hasVisible_append, hasVisible_eq_false_iff.mpr hs, Bool.false_or]

@[simp] theorem hasVisible_trimEnd (t : Text) : hasVisible (trimEnd t) = hasVisible t := by
  obtain ⟨s, hs, hsplit⟩ := exists_blanks_trimEnd t
  conv_rhs => rw [hsplit, hasVisible_append, hasVisible_eq_false_iff.mpr hs, Bool.or_false]

theorem not_mem_trimStart {c : Char} {t : Text} (h : c ∉ t) : c ∉ trimStart t :=
  fun hmem => h ((List.dropWhile_suffix isBlank).mem hmem)

theorem not_mem_trimEnd {c : Char} {t : Text} (h : c ∉ t) : c ∉ trimEnd t := by
  obtain ⟨s, -, hsplit⟩ := exists_blanks_trimEnd t
  intro hmem
  exact h (hsplit ▸ List.mem_append_left s hmem)

def Line.trimStart (line : Line) : Line where
  content := Text.trimStart line.content
  ending := line.ending
  noFeed := not_mem_trimStart line.noFeed
  noReturn := by
    intro hending hlast
    obtain ⟨s, -, hsplit⟩ := exists_blanks_trimStart line.content
    apply line.noReturn hending
    rw [hsplit, List.getLast?_append, hlast]
    rfl

theorem visibleLines_trimStart (t : Text) :
    visibleLines (trimStart t) = (visibleLines t).modifyHead trimStart := by
  induction t using line_induction with
  | last t h =>
      rw [visibleLines_of_not_mem h, visibleLines_of_not_mem (not_mem_trimStart h),
        hasVisible_trimStart]
      split <;> rfl
  | line line t ih =>
      rw [trimStart_append, line.hasVisible_text, visibleLines_line_append]
      cases hvisible : hasVisible line.content with
      | false => exact ih
      | true =>
          have hline : trimStart line.text = line.trimStart.text := by
            rw [Line.text, trimStart_append, if_pos hvisible]
            rfl
          have hcontent : hasVisible line.trimStart.content = true := by
            rw [← hvisible]
            exact hasVisible_trimStart line.content
          rw [if_pos rfl, if_pos rfl, hline, visibleLines_line_append, if_pos hcontent]
          rfl

theorem visibleLines_trimEnd (t : Text) :
    visibleLines (trimEnd t) = (visibleLines t).modifyLast trimEnd := by
  induction t using line_induction with
  | last t h =>
      rw [visibleLines_of_not_mem h, visibleLines_of_not_mem (not_mem_trimEnd h),
        hasVisible_trimEnd]
      split <;> rfl
  | line line t ih =>
      rw [trimEnd_append, visibleLines_line_append]
      cases hrest : hasVisible t with
      | true =>
          rw [if_pos rfl, visibleLines_line_append, ih]
          have hne : visibleLines t ≠ [] := by
            simp [← hasVisible_eq_false_iff, hrest]
          split
          · exact (List.modifyLast_append_of_right_ne_nil trimEnd [line.content] _ hne).symm
          · rfl
      | false =>
          have hending : hasVisible line.ending.text = false :=
            hasVisible_eq_false_iff.mpr line.ending.isNewline.allBlank
          have hline : trimEnd line.text = trimEnd line.content := by
            rw [Line.text, trimEnd_append, hending]
            rfl
          have hnone : visibleLines t = [] :=
            visibleLines_eq_nil_iff.mpr (hasVisible_eq_false_iff.mp hrest)
          rw [if_neg Bool.false_ne_true, hline, hnone,
            visibleLines_of_not_mem (not_mem_trimEnd line.noFeed), hasVisible_trimEnd]
          split <;> rfl

theorem visibleLines_append_newline {t newline : Text} (hnewline : IsNewline newline)
    (hlast : t.getLast? ≠ some '\r') : visibleLines (t ++ newline) = visibleLines t := by
  induction t using line_induction with
  | last t h =>
      obtain ⟨line, hcontent, htext⟩ :
          ∃ line : Line, line.content = t ∧ line.text = t ++ newline := by
        cases hnewline with
        | lf => exact ⟨⟨t, .lf, h, fun _ => hlast⟩, rfl, rfl⟩
        | crlf => exact ⟨⟨t, .crlf, h, nofun⟩, rfl, rfl⟩
      rw [← htext, ← List.append_nil line.text, visibleLines_line_append, hcontent,
        visibleLines_of_not_mem h]
      rfl
  | line line t ih =>
      have hrest : t.getLast? ≠ some '\r' := by
        intro hreturn
        apply hlast
        rw [List.getLast?_append, hreturn]
        rfl
      simp [ih hrest]

theorem visibleLines_finish (t : Text) :
    visibleLines (finish t) = ((visibleLines t).modifyHead trimStart).modifyLast trimEnd := by
  rw [← visibleLines_trimStart, ← visibleLines_trimEnd, ← trim, finish_eq]
  split
  · next hempty => rw [hempty]
  · next hbody =>
      apply visibleLines_append_newline (isNewline_finalNewline _)
      intro hreturn
      have hvisible := (trimmed_trim hbody).last '\r' hreturn
      exact absurd hvisible (by decide)

end CommentSweep.Text
