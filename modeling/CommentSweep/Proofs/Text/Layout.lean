import CommentSweep.Proofs.Text.Respaced
import Mathlib

/-!
The lines of a text. A line ends with a line feed, and a carriage return right before the line feed
is part of its terminator. Closing gaps is an operation on lines: a run of two or more blank lines
behind the first line becomes one empty line that ends as the line before it does.
-/

namespace CommentSweep.Text

inductive Ending where
  | lf
  | crlf
  deriving DecidableEq, Repr

def Ending.text : Ending → Text
  | .lf => ['\n']
  | .crlf => ['\r', '\n']

/-- A terminated line. Its content holds neither a line feed nor a part of its terminator. -/
@[ext] structure Line where
  content : Text
  ending : Ending
  noFeed : '\n' ∉ content
  noReturn : ending = .lf → content.getLast? ≠ some '\r'
  deriving DecidableEq, Repr

namespace Line

def text (line : Line) : Text :=
  line.content ++ line.ending.text

def isBlank (line : Line) : Bool :=
  line.content.all isIndent

def empty (ending : Ending) : Line :=
  ⟨[], ending, List.not_mem_nil, fun _ => nofun⟩

def ofFeed (front : Text) (h : '\n' ∉ front) : Line :=
  if hreturn : front.getLast? = some '\r' then
    ⟨front.dropLast, .crlf, fun hmem => h (List.mem_of_mem_dropLast hmem), nofun⟩
  else
    ⟨front, .lf, h, fun _ => hreturn⟩

end Line

@[ext] structure Layout where
  lines : List Line
  last : Text
  noFeed : '\n' ∉ last
  deriving DecidableEq, Repr

namespace Layout

def text (layout : Layout) : Text :=
  layout.lines.flatMap Line.text ++ layout.last

def cons (line : Line) (layout : Layout) : Layout :=
  { layout with lines := line :: layout.lines }

def readFrom (front : Text) (h : '\n' ∉ front) : Text → Layout
  | [] => ⟨[], front, h⟩
  | c :: rest =>
      if hc : c = '\n' then
        (readFrom [] List.not_mem_nil rest).cons (.ofFeed front h)
      else
        readFrom (front ++ [c]) (by simp [h, Ne.symm hc]) rest

end Layout

def layout (t : Text) : Layout :=
  Layout.readFrom [] List.not_mem_nil t

@[simp] theorem Line.text_ofFeed (front : Text) (h : '\n' ∉ front) :
    (Line.ofFeed front h).text = front ++ ['\n'] := by
  rw [ofFeed]
  split
  · next hreturn =>
      obtain ⟨content, rfl⟩ := List.getLast?_eq_some_iff.mp hreturn
      simp [text, Ending.text]
  · rfl

theorem Line.exists_front (line : Line) :
    ∃ front, ∃ h : '\n' ∉ front, line.text = front ++ ['\n'] ∧ line = .ofFeed front h := by
  obtain ⟨content, ending, hfeed, hreturn⟩ := line
  cases ending with
  | lf => exact ⟨content, hfeed, rfl, by rw [ofFeed, dif_neg (hreturn rfl)]⟩
  | crlf =>
      refine ⟨content ++ ['\r'], by simp [hfeed], by simp [text, Ending.text], ?_⟩
      rw [ofFeed, dif_pos (by simp)]
      simp

namespace Layout

theorem cons_induction {motive : Layout → Prop} (last : ∀ t h, motive ⟨[], t, h⟩)
    (cons : ∀ line d, motive d → motive (Layout.cons line d)) (d : Layout) : motive d := by
  obtain ⟨lines, t, h⟩ := d
  induction lines with
  | nil => exact last t h
  | cons line lines ih => exact cons line ⟨lines, t, h⟩ ih

@[simp] theorem lines_cons (line : Line) (d : Layout) : (d.cons line).lines = line :: d.lines := rfl

@[simp] theorem text_cons (line : Line) (d : Layout) :
    (d.cons line).text = line.text ++ d.text := by
  simp [text, cons]

theorem text_readFrom (front : Text) (h : '\n' ∉ front) (t : Text) :
    (readFrom front h t).text = front ++ t := by
  induction t generalizing front with
  | nil => simp [readFrom, text]
  | cons c t ih =>
      rw [readFrom]
      split
      · next hc => rw [text_cons, Line.text_ofFeed, ih, hc]; simp
      · rw [ih]; simp

theorem readFrom_of_not_mem {front t : Text} (h : '\n' ∉ front) (ht : '\n' ∉ t) :
    readFrom front h t = ⟨[], front ++ t, by simp [h, ht]⟩ := by
  induction t generalizing front with
  | nil => simp [readFrom]
  | cons c t ih =>
      rw [List.mem_cons, not_or] at ht
      rw [readFrom, dif_neg (Ne.symm ht.1), ih _ ht.2]
      simp

theorem readFrom_feed {front more : Text} (h : '\n' ∉ front) (hmore : '\n' ∉ more) (t : Text) :
    readFrom front h (more ++ '\n' :: t) =
      (layout t).cons (.ofFeed (front ++ more) (by simp [h, hmore])) := by
  induction more generalizing front with
  | nil =>
      rw [List.nil_append, readFrom, dif_pos rfl, layout]
      simp
  | cons c more ih =>
      rw [List.mem_cons, not_or] at hmore
      rw [List.cons_append, readFrom, dif_neg (Ne.symm hmore.1), ih _ hmore.2]
      simp

end Layout

@[simp] theorem text_layout (t : Text) : (layout t).text = t :=
  Layout.text_readFrom [] List.not_mem_nil t

@[simp] theorem layout_line_append (line : Line) (t : Text) :
    layout (line.text ++ t) = (layout t).cons line := by
  obtain ⟨front, hfront, htext, hline⟩ := line.exists_front
  rw [htext, List.append_assoc, layout, List.singleton_append, Layout.readFrom_feed _ hfront]
  simp only [List.nil_append, hline]

@[simp] theorem layout_text (d : Layout) : layout d.text = d := by
  induction d using Layout.cons_induction with
  | last t h => exact Layout.readFrom_of_not_mem List.not_mem_nil h
  | cons line d ih => rw [Layout.text_cons, layout_line_append, ih]

theorem text_eq_iff {d : Layout} {t : Text} : d.text = t ↔ d = layout t := by
  constructor
  · rintro rfl
    exact (layout_text d).symm
  · rintro rfl
    exact text_layout t

structure Unbroken (front rest : Text) : Prop where
  noFeed : '\n' ∉ front
  noReturn : front.getLast? = some '\r' → rest.head? ≠ some '\n'

namespace Unbroken

theorem of_cons {c : Char} {front rest : Text} (h : Unbroken (c :: front) rest) :
    c ≠ '\n' ∧ (c = '\r' → (front ++ rest).head? ≠ some '\n') ∧ Unbroken front rest := by
  obtain ⟨hfeed, hreturn⟩ := h
  rw [List.mem_cons, not_or] at hfeed
  refine ⟨Ne.symm hfeed.1, ?_, hfeed.2, ?_⟩
  · rintro rfl
    cases front with
    | nil => exact hreturn rfl
    | cons d front => simpa using Ne.symm (List.ne_of_not_mem_cons hfeed.2)
  · intro hlast
    apply hreturn
    rw [List.getLast?_cons, hlast]
    rfl

variable {front rest : Text}

theorem blanksAhead_eq_zero (h : Unbroken front rest) (hfront : front.all isIndent = false) :
    blanksAhead (front ++ rest) = 0 := by
  induction front with
  | nil => cases hfront
  | cons c front ih =>
      obtain ⟨hlf, hcr, htail⟩ := h.of_cons
      rw [List.cons_append, blanksAhead_cons, if_neg (by simpa using hlf)]
      split
      · next hblank =>
          have hindent : isIndent c = true := by
            rcases (Bool.or_eq_true _ _).mp hblank with hindent | hpair
            · exact hindent
            · simp only [Bool.and_eq_true, beq_iff_eq] at hpair
              exact absurd hpair.2 (hcr hpair.1)
          rw [List.all_cons, hindent, Bool.true_and] at hfront
          exact ih htail hfront
      · rfl

theorem collapse_append (h : Unbroken front rest) :
    collapse (front ++ rest) = front ++ collapse rest := by
  induction front with
  | nil => rfl
  | cons c front ih =>
      obtain ⟨hlf, hcr, htail⟩ := h.of_cons
      have hgap : ¬StartsGap (c :: (front ++ rest)) := by
        rintro ⟨newline, behind, hnewline, -, hsplit⟩
        cases hnewline with
        | lf => exact hlf (List.cons.inj hsplit).1
        | crlf =>
            injection hsplit with hc hbehind
            exact hcr hc (by rw [hbehind]; rfl)
      simp [hgap, ih htail]

end Unbroken

theorem Line.unbroken (line : Line) (rest : Text) :
    Unbroken line.content (line.ending.text ++ rest) where
  noFeed := line.noFeed
  noReturn := by
    intro hlast
    cases hending : line.ending with
    | lf => exact absurd hlast (line.noReturn hending)
    | crlf => simp [Ending.text]

theorem Layout.unbroken_last (d : Layout) : Unbroken d.last [] :=
  ⟨d.noFeed, fun _ => nofun⟩

@[simp] theorem Layout.collapse_last (d : Layout) : collapse d.last = d.last := by
  simpa using d.unbroken_last.collapse_append

theorem Ending.isNewline (ending : Ending) : IsNewline ending.text := by
  cases ending with
  | lf => exact .lf
  | crlf => exact .crlf

theorem Line.isBlankLine {line : Line} (h : line.isBlank = true) : IsBlankLine line.text :=
  ⟨line.content, line.ending.text, List.all_eq_true.mp h, line.ending.isNewline, rfl⟩

theorem blanksAhead_plain_append {line : Line} (h : line.isBlank = false) (t : Text) :
    blanksAhead (line.text ++ t) = 0 := by
  rw [Line.text, List.append_assoc]
  exact (line.unbroken t).blanksAhead_eq_zero h

theorem blanksAhead_eq_zero_of_not_mem {t : Text} (h : '\n' ∉ t) : blanksAhead t = 0 := by
  cases hblanks : blanksAhead t with
  | zero => rfl
  | succ n =>
      obtain ⟨line, rest, ⟨indent, newline, -, hnewline, rfl⟩, -, rfl⟩ :=
        exists_line_of_blanksAhead hblanks
      cases hnewline <;> simp at h

theorem behindBlanks_line_append {line : Text} (h : IsBlankLine line) (t : Text) :
    behindBlanks (line ++ t) = behindBlanks t := by
  obtain ⟨indent, newline, hindent, hnewline, rfl⟩ := h
  induction indent with
  | nil =>
      have hlf : behindBlanks ('\n' :: t) = behindBlanks t :=
        behindBlanks_cons (by simp [blanksAhead_cons])
      cases hnewline with
      | lf => exact hlf
      | crlf => exact (behindBlanks_cons (by simp [blanksAhead_cons])).trans hlf
  | cons c indent ih =>
      have hblank : IsBlankLine (c :: indent ++ newline) :=
        ⟨c :: indent, newline, hindent, hnewline, rfl⟩
      have hne := blanksAhead_line_append hblank t
      rw [List.cons_append, List.cons_append] at hne ⊢
      rw [behindBlanks_cons (by omega)]
      exact ih fun d hd => hindent d (List.mem_cons_of_mem c hd)

namespace Layout

theorem blanksAhead_text (d : Layout) :
    blanksAhead d.text = (d.lines.takeWhile Line.isBlank).length := by
  induction d using cons_induction with
  | last t h => exact blanksAhead_eq_zero_of_not_mem h
  | cons line d ih =>
      rw [text_cons]
      cases hblank : line.isBlank with
      | false => simp [blanksAhead_plain_append hblank, hblank]
      | true => simp [blanksAhead_line_append (Line.isBlankLine hblank), ih, hblank]

theorem behindBlanks_text (d : Layout) :
    behindBlanks d.text = { d with lines := d.lines.dropWhile Line.isBlank }.text := by
  induction d using cons_induction with
  | last t h => exact behindBlanks_of_blanksAhead_eq_zero (blanksAhead_eq_zero_of_not_mem h)
  | cons line d ih =>
      rw [text_cons]
      cases hblank : line.isBlank with
      | false =>
          rw [behindBlanks_of_blanksAhead_eq_zero (blanksAhead_plain_append hblank d.text),
            lines_cons, List.dropWhile_cons_of_neg (by simp [hblank])]
          exact (text_cons line d).symm
      | true =>
          rw [behindBlanks_line_append (Line.isBlankLine hblank), ih]
          simp [hblank, cons]

end Layout

theorem collapse_ending_append {newline t : Text} (hnewline : IsNewline newline)
    (h : blanksAhead t < 2) : collapse (newline ++ t) = newline ++ collapse t := by
  have hstart {newline : Text} (hnewline : IsNewline newline) : ¬StartsGap (newline ++ t) := by
    rw [startsGap_newline_append hnewline]
    exact Nat.not_le.mpr h
  have hlf : collapse ('\n' :: t) = '\n' :: collapse t := collapse_cons (hstart .lf)
  cases hnewline with
  | lf => exact hlf
  | crlf =>
      have hcr : collapse ('\r' :: '\n' :: t) = '\r' :: collapse ('\n' :: t) :=
        collapse_cons (hstart .crlf)
      exact hcr.trans (congrArg ('\r' :: ·) hlf)

theorem collapse_line_append (line : Line) (t : Text) :
    collapse (line.text ++ t) = line.text ++
      if 2 ≤ blanksAhead t then line.ending.text ++ collapse (behindBlanks t) else collapse t := by
  have hnewline := line.ending.isNewline
  rw [Line.text, List.append_assoc, (line.unbroken t).collapse_append]
  split
  · next hblanks => rw [collapse_gap hnewline hblanks]; simp
  · next hblanks => rw [collapse_ending_append hnewline (Nat.not_le.mp hblanks)]; simp

def runs (lines : List Line) : List (List Line) :=
  lines.splitBy fun a b => a.isBlank == b.isBlank

/-- A run behind a line: two or more blank lines become one that ends as that line does. -/
def closeRun (before : Line) (run : List Line) : List Line :=
  if run.all Line.isBlank ∧ 2 ≤ run.length then [.empty before.ending] else run

def closeRuns (before : Line) : List (List Line) → List Line
  | [] => []
  | run :: rest => closeRun before run ++ closeRuns (run.getLast?.getD before) rest

/-- The lines with their runs closed. The first line is part of no run. -/
def closeLines : List Line → List Line
  | [] => []
  | first :: rest => first :: closeRuns first (runs rest)

def Layout.closed (d : Layout) : Layout :=
  { d with lines := closeLines d.lines }

theorem runs_append {kind : Bool} {run behind : List Line} (hne : run ≠ [])
    (hrun : ∀ line ∈ run, line.isBlank = kind)
    (hbehind : ∀ line ∈ behind.head?, line.isBlank ≠ kind) :
    runs (run ++ behind) = run :: runs behind := by
  rw [runs, List.splitBy_append, List.splitBy_of_isChain hne, runs, List.singleton_append]
  · apply List.Pairwise.isChain
    apply List.pairwise_of_forall_mem_list
    intro a ha b hb
    rw [hrun a ha, hrun b hb, beq_self_eq_true]
  · intro a ha b hb
    rw [hrun a (List.mem_of_mem_getLast? ha), beq_eq_false_iff_ne]
    exact Ne.symm (hbehind b hb)

theorem closeRun_eq_self {before line : Line} {run : List Line} (hline : line ∈ run)
    (h : line.isBlank = false) : closeRun before run = run := by
  apply if_neg
  rintro ⟨hall, -⟩
  rw [List.all_eq_true.mp hall line hline] at h
  cases h

theorem closeRuns_plain {line : Line} (h : line.isBlank = false) (before : Line)
    (lines : List Line) :
    closeRuns before (runs (line :: lines)) = line :: closeRuns line (runs lines) := by
  have hplain : ∀ other ∈ lines.takeWhile (!·.isBlank), other.isBlank = false := by
    intro other hother
    simpa using List.mem_takeWhile_imp hother
  have hbehind : ∀ other ∈ (lines.dropWhile (!·.isBlank)).head?, other.isBlank ≠ false := by
    intro other hother
    have hhead := List.head?_dropWhile_not (!·.isBlank) lines
    rw [hother] at hhead
    simpa using hhead
  have hsplit := List.takeWhile_append_dropWhile (p := (!·.isBlank)) (l := lines)
  generalize lines.takeWhile (!·.isBlank) = plain at hplain hsplit
  generalize lines.dropWhile (!·.isBlank) = behind at hbehind hsplit
  subst hsplit
  rw [← List.cons_append, runs_append (List.cons_ne_nil line plain)
    (List.forall_mem_cons.mpr ⟨h, hplain⟩) hbehind, closeRuns,
    closeRun_eq_self List.mem_cons_self h, List.getLast?_cons, Option.getD_some]
  cases plain with
  | nil => rfl
  | cons next plain =>
      rw [runs_append (List.cons_ne_nil next plain) hplain hbehind, closeRuns,
        closeRun_eq_self List.mem_cons_self (hplain next List.mem_cons_self)]
      rfl

theorem closeRuns_of_head {lines : List Line} (h : ∀ line ∈ lines.head?, line.isBlank = false)
    (before : Line) : closeRuns before (runs lines) = closeLines lines := by
  cases lines with
  | nil => rfl
  | cons line lines => exact closeRuns_plain (h line rfl) before lines

theorem closeRuns_eq (before : Line) (lines : List Line) :
    closeRuns before (runs lines) =
      if 2 ≤ (lines.takeWhile Line.isBlank).length then
        .empty before.ending :: closeLines (lines.dropWhile Line.isBlank)
      else closeLines lines := by
  have hblank : ∀ line ∈ lines.takeWhile Line.isBlank, line.isBlank = true :=
    fun line hline => List.mem_takeWhile_imp hline
  have hbehind : ∀ line ∈ (lines.dropWhile Line.isBlank).head?, line.isBlank = false := by
    intro line hline
    have hhead := List.head?_dropWhile_not Line.isBlank lines
    rw [hline] at hhead
    exact hhead
  have hsplit := List.takeWhile_append_dropWhile (p := Line.isBlank) (l := lines)
  generalize lines.takeWhile Line.isBlank = run at hblank hsplit ⊢
  generalize lines.dropWhile Line.isBlank = behind at hbehind hsplit ⊢
  subst hsplit
  cases run with
  | nil => exact closeRuns_of_head hbehind before
  | cons line run =>
      have hapart : ∀ other ∈ behind.head?, other.isBlank ≠ true := by
        intro other hother
        rw [hbehind other hother]
        exact Bool.false_ne_true
      rw [runs_append (List.cons_ne_nil line run) hblank hapart, closeRuns,
        closeRuns_of_head hbehind, closeRun]
      have hall : (line :: run).all Line.isBlank = true := List.all_eq_true.mpr hblank
      simp only [hall, true_and]
      split
      · rfl
      · next hshort =>
          obtain rfl : run = [] := by
            rw [List.length_cons] at hshort
            exact List.length_eq_zero_iff.mp (by omega)
          rw [List.singleton_append, List.singleton_append, closeLines, closeRuns_of_head hbehind]

@[simp] theorem Layout.collapse_text (d : Layout) : collapse d.text = d.closed.text := by
  obtain ⟨lines, last, hlast⟩ := d
  -- A gap is passed as a whole, so the induction goes on behind all of its lines.
  induction hlength : lines.length using Nat.strongRecOn generalizing lines with
  | ind n ih =>
      cases lines with
      | nil => exact Layout.collapse_last ⟨[], last, hlast⟩
      | cons line lines =>
          rw [List.length_cons] at hlength
          have hbehind := (List.dropWhile_suffix Line.isBlank (l := lines)).length_le
          change collapse (Layout.cons line ⟨lines, last, hlast⟩).text = _
          rw [text_cons, collapse_line_append, blanksAhead_text, behindBlanks_text,
            ih _ (by omega) lines rfl, ih _ (by omega) (lines.dropWhile Line.isBlank) rfl]
          have hclosed : closeLines (line :: lines) = _ :=
            congrArg (line :: ·) (closeRuns_eq line lines)
          simp only [closed, hclosed, text]
          split
          · simp [Line.text, Line.empty]
          · simp

@[simp] theorem layout_collapse (t : Text) : layout (collapse t) = (layout t).closed := by
  rw [← layout_text (layout t).closed, ← Layout.collapse_text, text_layout]

@[simp] theorem filter_closeRun (before : Line) (run : List Line) :
    (closeRun before run).filter (!·.isBlank) = run.filter (!·.isBlank) := by
  rw [closeRun]
  split
  · next h =>
      have hnone : run.filter (!·.isBlank) = [] := by
        rw [List.filter_eq_nil_iff]
        intro line hline
        simp [List.all_eq_true.mp h.1 line hline]
      rw [hnone]
      rfl
  · rfl

@[simp] theorem filter_closeRuns (before : Line) (rs : List (List Line)) :
    (closeRuns before rs).filter (!·.isBlank) = rs.flatten.filter (!·.isBlank) := by
  induction rs generalizing before with
  | nil => rfl
  | cons run rs ih =>
      simp [closeRuns, ih]

@[simp] theorem filter_closeLines (lines : List Line) :
    (closeLines lines).filter (!·.isBlank) = lines.filter (!·.isBlank) := by
  cases lines with
  | nil => rfl
  | cons first rest =>
      simp [closeLines, List.filter_cons, runs, List.flatten_splitBy]

theorem Layout.hasGap_of_run {d : Layout} {run : List Line} (hrun : run ∈ runs d.lines.tail)
    (hblank : run.all Line.isBlank = true) (hlong : 2 ≤ run.length) : HasGap d.text := by
  obtain ⟨lines, last, hlast⟩ := d
  obtain ⟨before, behind, hruns⟩ := List.append_of_mem hrun
  have htail : lines.tail = before.flatten ++ (run ++ behind.flatten) := by
    rw [← List.flatten_splitBy (fun a b => a.isBlank == b.isBlank) lines.tail, ← runs, hruns]
    simp
  match run, hlong with
  | first :: second :: more, _ =>
      obtain ⟨hfirst, hsecond, -⟩ : first.isBlank = true ∧ second.isBlank = true ∧
          more.all Line.isBlank = true := by simpa using hblank
      cases lines with
      | nil => simp at htail
      | cons head tail =>
          obtain ⟨front, line, hfront⟩ :=
            (List.eq_nil_or_concat' (head :: before.flatten)).resolve_left (List.cons_ne_nil _ _)
          refine ⟨front.flatMap Line.text ++ line.content, line.ending.text, first.text,
            second.text, more.flatMap Line.text ++ (behind.flatten.flatMap Line.text ++ last),
            line.ending.isNewline, Line.isBlankLine hfirst, Line.isBlankLine hsecond, ?_⟩
          have hlines : head :: tail =
              front ++ (line :: first :: second :: (more ++ behind.flatten)) := by
            rw [List.tail_cons] at htail
            rw [htail, ← List.cons_append, hfront]
            simp
          rw [text, hlines]
          simp [Line.text]

/-- Closing gaps, told by lines. Every run of two or more blank lines behind the first line becomes
one empty line that ends as the line before the run does, and nothing else changes: the other lines
stay in their order, no such run is left, so closing again changes nothing, and no text gets longer.
-/
theorem collapse_closes_runs (t : Text) :
    (∀ d : Layout, d.text = t ↔ d = layout t) ∧
      collapse t = (layout t).closed.text ∧
      (layout (collapse t)).lines.filter (!·.isBlank) = (layout t).lines.filter (!·.isBlank) ∧
      (layout (collapse t)).last = (layout t).last ∧
      (∀ run ∈ runs (layout (collapse t)).lines.tail, run.all Line.isBlank = true →
        run.length < 2) ∧
      collapse (collapse t) = collapse t ∧
      (collapse t).length ≤ t.length := by
  have hnone : ¬HasGap (layout (collapse t)).text := by
    rw [text_layout]
    exact not_hasGap_collapse t
  refine ⟨fun _ => text_eq_iff, ?_, ?_, ?_, ?_, collapse_eq_self_iff.mpr (not_hasGap_collapse t),
    length_collapse_le t⟩
  · simp [← Layout.collapse_text]
  · rw [layout_collapse]
    exact filter_closeLines _
  · rw [layout_collapse]
    rfl
  · intro run hrun hblank
    by_contra hlong
    exact hnone (Layout.hasGap_of_run hrun hblank (Nat.not_lt.mp hlong))

-- The first line is blank and stays; a return alone is no terminator and makes no blank line.
example :
    let t : Text := [' ', '\n', '\t', '\r', '\n', '\n', '\r', '\r', '\n', '\n', ' ', '\n', 'a']
    collapse t = [' ', '\n', '\n', '\r', '\r', '\n', '\r', '\n', 'a'] ∧
      (layout t).closed.text = collapse t := by
  decide

end CommentSweep.Text
