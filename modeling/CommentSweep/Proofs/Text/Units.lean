import CommentSweep.Proofs.Text.Endings
import Mathlib

/-!
Units of a text: its characters, where a carriage return and the line feed right behind it count as
one. Where all lines end alike, closing gaps drops units and puts none in, so it tears no terminator
apart.
-/

namespace CommentSweep.Text

/-- The characters of a text, with `\r\n` in one piece. -/
def units : Text → List Text
  | [] => []
  | '\r' :: '\n' :: t => ['\r', '\n'] :: units t
  | c :: t => [c] :: units t

@[simp] theorem units_pair (t : Text) : units ('\r' :: '\n' :: t) = ['\r', '\n'] :: units t := by
  rw [units]

@[simp] theorem units_cons {c : Char} {t : Text} (h : c = '\r' → t.head? ≠ some '\n') :
    units (c :: t) = [c] :: units t := by
  rw [units]
  rintro rest rfl rfl
  exact h rfl rfl

@[simp] theorem units_feed (t : Text) : units ('\n' :: t) = ['\n'] :: units t :=
  units_cons (by simp)

@[simp] theorem flatten_units (t : Text) : (units t).flatten = t := by
  fun_induction units t with
  | case1 => rfl
  | case2 t ih => rw [List.flatten_cons, ih]; rfl
  | case3 c t h ih => rw [List.flatten_cons, ih]; rfl

theorem sublist_of_units {t u : Text} (h : (units t).Sublist (units u)) : t.Sublist u := by
  have hflat := h.flatten
  rwa [flatten_units, flatten_units] at hflat

theorem units_append {t u : Text} (h : t.getLast? = some '\r' → u.head? ≠ some '\n') :
    units (t ++ u) = units t ++ units u := by
  fun_induction units t with
  | case1 => rfl
  | case2 t ih =>
      rw [List.cons_append, List.cons_append, units_pair, ih, List.cons_append]
      intro hlast
      apply h
      rw [List.getLast?_cons, List.getLast?_cons, hlast]
      rfl
  | case3 c t hpair ih =>
      rw [List.cons_append, units_cons, ih, List.cons_append]
      · intro hlast
        apply h
        rw [List.getLast?_cons, hlast]
        rfl
      · rintro rfl
        cases t with
        | nil => exact h rfl
        | cons d t =>
            intro hhead
            obtain rfl : d = '\n' := by simpa using hhead
            exact hpair t rfl rfl

theorem Line.units_text (line : Line) :
    units line.text = units line.content ++ units line.ending.text := by
  apply Text.units_append
  intro hlast
  cases hending : line.ending with
  | lf => exact absurd hlast (line.noReturn hending)
  | crlf => simp [Ending.text]

@[simp] theorem Line.units_append (line : Line) (t : Text) :
    units (line.text ++ t) = units line.text ++ units t := by
  apply Text.units_append
  intro hlast
  have hfeed : line.text.getLast? = some '\n' := by
    rw [Line.text]
    cases line.ending <;> simp [Ending.text]
  rw [hfeed] at hlast
  cases hlast

theorem Layout.units_text (d : Layout) :
    units d.text = d.lines.flatMap (units ·.text) ++ units d.last := by
  induction d using cons_induction with
  | last t h => simp [text]
  | cons line d ih =>
      rw [text_cons, Line.units_append, ih, lines_cons, List.flatMap_cons, List.append_assoc]
      rfl

section

variable {ending : Ending}

theorem units_closeRun_sublist {before : Line} {run : List Line} (hbefore : before.ending = ending)
    (hrun : ∀ line ∈ run, line.ending = ending) :
    ((closeRun before run).flatMap (units ·.text)).Sublist (run.flatMap (units ·.text)) := by
  rw [closeRun]
  split
  · next hclosed =>
      obtain ⟨first, rest, rfl⟩ : ∃ first rest, run = first :: rest :=
        List.exists_cons_of_length_pos (by omega)
      have hfirst : (units (Line.empty before.ending).text).Sublist (units first.text) := by
        rw [Line.units_text first, hrun first List.mem_cons_self, hbefore]
        exact List.sublist_append_right _ _
      rw [List.flatMap_singleton, List.flatMap_cons]
      exact hfirst.trans (List.sublist_append_left _ _)
  · exact List.Sublist.refl _

theorem units_closeRuns_sublist {before : Line} {rs : List (List Line)}
    (hbefore : before.ending = ending) (hruns : ∀ line ∈ rs.flatten, line.ending = ending) :
    ((closeRuns before rs).flatMap (units ·.text)).Sublist
      (rs.flatten.flatMap (units ·.text)) := by
  induction rs generalizing before with
  | nil => exact List.Sublist.refl _
  | cons run rs ih =>
      rw [List.flatten_cons, List.forall_mem_append] at hruns
      rw [closeRuns, List.flatMap_append, List.flatten_cons, List.flatMap_append]
      refine (units_closeRun_sublist hbefore hruns.1).append (ih ?_ hruns.2)
      cases hlast : run.getLast? with
      | none => exact hbefore
      | some line => exact hruns.1 line (List.mem_of_mem_getLast? hlast)

theorem Layout.units_closed_sublist {d : Layout} (h : ∀ line ∈ d.lines, line.ending = ending) :
    (units d.closed.text).Sublist (units d.text) := by
  rw [Layout.units_text, Layout.units_text]
  refine List.Sublist.append ?_ (List.Sublist.refl _)
  rw [Layout.closed]
  cases hlines : d.lines with
  | nil => exact List.Sublist.refl _
  | cons first rest =>
      have hflat : (runs rest).flatten = rest := List.flatten_splitBy _ rest
      rw [hlines, List.forall_mem_cons] at h
      rw [← hflat] at h
      have hruns := units_closeRuns_sublist h.1 h.2
      rw [hflat] at hruns
      rw [closeLines, List.flatMap_cons, List.flatMap_cons]
      exact (List.Sublist.refl _).append hruns

theorem units_collapse_sublist {t : Text} (h : ∀ line ∈ (layout t).lines, line.ending = ending) :
    (units (collapse t)).Sublist (units t) := by
  have hclosed := Layout.units_closed_sublist h
  rwa [← Layout.collapse_text, text_layout] at hclosed

end

theorem CrlfOnly.units_collapse_sublist {t : Text} (h : CrlfOnly t) :
    (units (Text.collapse t)).Sublist (units t) :=
  Text.units_collapse_sublist (crlfOnly_iff_lines.mp h)

theorem units_collapse_of_not_mem {t : Text} (h : '\r' ∉ t) :
    (units (collapse t)).Sublist (units t) := by
  apply units_collapse_sublist
  intro line hline
  cases hending : line.ending with
  | lf => rfl
  | crlf =>
      refine absurd ?_ h
      rw [← text_layout t, Layout.text, List.mem_append, List.mem_flatMap]
      exact .inl ⟨line, hline, by simp [Line.text, hending, Ending.text]⟩

end CommentSweep.Text
