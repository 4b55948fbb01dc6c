import CommentSweep.Proofs.Ignore.Matching
import CommentSweep.Proofs.Ignore.Weights
import Mathlib

/-!
Excluded names, component by component. A directory name without special characters ignores exactly
what lies below a component of that name, and a star with an ending behind it ignores exactly the
paths with a component of that ending.
-/

namespace CommentSweep.Ignore

/-- The text of a path: a slash between any two components, and one behind those of a directory. -/
def pathText (isDir : Bool) : List Text → Text
  | [] => []
  | name :: names =>
      if names.isEmpty && !isDir then name else name ++ '/' :: pathText isDir names

structure IsComponent (name : Text) : Prop where
  ne_nil : name ≠ []
  ne_dot : name ≠ ['.']
  no_slash : '/' ∉ name
  no_newline : '\n' ∉ name

instance (name : Text) : Decidable (IsComponent name) :=
  decidable_of_iff (name ≠ [] ∧ name ≠ ['.'] ∧ '/' ∉ name ∧ '\n' ∉ name)
    ⟨fun h => ⟨h.1, h.2.1, h.2.2.1, h.2.2.2⟩,
      fun h => ⟨h.ne_nil, h.ne_dot, h.no_slash, h.no_newline⟩⟩

variable {isDir : Bool} {name : Text} {names : List Text}

theorem pathText_followed (h : names ≠ [] ∨ isDir = true) (name : Text) :
    pathText isDir (name :: names) = name ++ '/' :: pathText isDir names := by
  rw [pathText, if_neg]
  rcases h with hne | rfl
  · simp [hne]
  · simp

@[simp] theorem pathText_last (name : Text) : pathText false [name] = name := rfl

theorem followed_or_last (isDir : Bool) (names : List Text) :
    (names ≠ [] ∨ isDir = true) ∨ names = [] ∧ isDir = false := by
  cases names <;> cases isDir <;> simp

theorem inName_of_mem (hname : '/' ∉ name) : ∀ c ∈ name, inName c = true :=
  fun _ hc => bne_iff_ne.mpr (ne_of_mem_of_not_mem hc hname)

theorem takeWhile_pathText (hname : '/' ∉ name) (names : List Text) :
    (pathText isDir (name :: names)).takeWhile inName = name := by
  rcases followed_or_last isDir names with hfollowed | ⟨rfl, rfl⟩
  · rw [pathText_followed hfollowed, List.takeWhile_append_of_pos (inName_of_mem hname)]
    simp [inName]
  · simp [List.takeWhile_eq_self_iff.mpr (inName_of_mem hname)]

theorem eq_of_pathText_eq (hname : '/' ∉ name) {word rest : Text} (hword : '/' ∉ word)
    (hrest : rest = [] ∨ rest.head? = some '/')
    (h : pathText isDir (name :: names) = word ++ rest) : word = name := by
  have hnone : rest.takeWhile inName = [] := by
    rcases hrest with rfl | hslash
    · rfl
    · obtain ⟨tail, rfl⟩ := List.head?_eq_some_iff.mp hslash
      rfl
  rw [← takeWhile_pathText hname names, h, List.takeWhile_append_of_pos (inName_of_mem hword),
    hnone, List.append_nil]

/-- A path can be cut at a slash only between two components, or behind the last one. -/
theorem pathText_cut (hnames : ∀ name ∈ names, '/' ∉ name) {front rest : Text}
    (h : pathText isDir names = front ++ '/' :: rest) :
    rest = [] ∨ ∃ before name behind, names = before ++ name :: behind ∧
      rest = pathText isDir (name :: behind) := by
  induction names generalizing front with
  | nil => simp [pathText] at h
  | cons name names ih =>
      obtain ⟨hname, hnames⟩ := List.forall_mem_cons.mp hnames
      have hbehind (hrest : rest = pathText isDir names) :
          rest = [] ∨ ∃ before first behind, name :: names = before ++ first :: behind ∧
            rest = pathText isDir (first :: behind) := by
        cases names with
        | nil => exact .inl hrest
        | cons first behind => exact .inr ⟨[name], first, behind, rfl, hrest⟩
      rcases followed_or_last isDir names with hfollowed | ⟨rfl, rfl⟩
      · rw [pathText_followed hfollowed] at h
        rcases List.append_eq_append_iff.mp h with ⟨between, rfl, hcut⟩ | ⟨between, rfl, hcut⟩
        · cases between with
          | nil => exact hbehind (List.cons.inj hcut).2.symm
          | cons c between =>
              rcases ih hnames (List.cons.inj hcut).2 with
                hnil | ⟨before, first, behind, rfl, hrest⟩
              · exact .inl hnil
              · exact .inr ⟨name :: before, first, behind, rfl, hrest⟩
        · cases between with
          | nil => exact hbehind (List.cons.inj hcut).2
          | cons c between =>
              rw [← (List.cons.inj hcut).1] at hname
              simp at hname
      · rw [pathText_last] at h
        simp [h] at hname

theorem exists_pathText_append {before : List Text} (hbefore : before ≠ [])
    (hnames : ∀ name ∈ before, name ≠ []) (isDir : Bool) (name : Text) (behind : List Text) :
    ∃ c front, pathText isDir (before ++ name :: behind) =
      c :: (front ++ '/' :: pathText isDir (name :: behind)) := by
  induction before with
  | nil => exact absurd rfl hbefore
  | cons first before ih =>
      obtain ⟨hfirst, hrest⟩ := List.forall_mem_cons.mp hnames
      obtain ⟨c, chars, rfl⟩ := List.exists_cons_of_ne_nil hfirst
      have hne : before ++ name :: behind ≠ [] := by simp
      rw [List.cons_append, pathText_followed (.inl hne)]
      cases before with
      | nil => exact ⟨c, chars, rfl⟩
      | cons second before =>
          obtain ⟨d, front, heq⟩ := ih (List.cons_ne_nil _ _) hrest
          rw [heq]
          exact ⟨c, chars ++ '/' :: d :: front, by simp⟩

theorem inLine_of_mem_pathText (isDir : Bool) (hnames : ∀ name ∈ names, IsComponent name) :
    ∀ c ∈ pathText isDir names, inLine c = true := by
  induction names with
  | nil => exact nofun
  | cons name names ih =>
      obtain ⟨hname, hnames⟩ := List.forall_mem_cons.mp hnames
      have hchars : ∀ c ∈ name, inLine c = true := by
        intro c hc
        exact bne_iff_ne.mpr (ne_of_mem_of_not_mem hc hname.no_newline)
      rcases followed_or_last isDir names with hfollowed | ⟨rfl, rfl⟩
      · rw [pathText_followed hfollowed, List.forall_mem_append, List.forall_mem_cons]
        exact ⟨hchars, rfl, ih hnames⟩
      · rwa [pathText_last]

theorem relativePath_pathText (isDir : Bool) (hnames : ∀ name ∈ names, IsComponent name) :
    relativePath (pathText isDir names) = pathText isDir names := by
  cases names with
  | nil => rfl
  | cons name names =>
      obtain ⟨hname, -⟩ := List.forall_mem_cons.mp hnames
      have hfirst : (pathText isDir (name :: names)).takeWhile inName = name :=
        takeWhile_pathText hname.no_slash names
      generalize pathText isDir (name :: names) = path at hfirst ⊢
      unfold relativePath
      split
      · exact absurd hfirst.symm hname.ne_nil
      · exact absurd hfirst.symm hname.ne_dot
      · rfl

namespace Piece

theorem matches_upperDirs_pathText {pieces : List Piece} (hnil : ¬Matches pieces [])
    (hnames : ∀ name ∈ names, IsComponent name) :
    Matches (.upperDirs :: pieces) (pathText isDir names) ↔
      ∃ before name behind, names = before ++ name :: behind ∧
        Matches pieces (pathText isDir (name :: behind)) := by
  rw [matches_upperDirs]
  constructor
  · rintro (hhere | ⟨c, tail, rest, -, hcut, ⟨run, -, rfl⟩, hrest⟩)
    · cases names with
      | nil => exact absurd hhere hnil
      | cons name names => exact ⟨[], name, names, rfl, hhere⟩
    · have hslash : ∀ name ∈ names, '/' ∉ name := fun name hname => (hnames name hname).no_slash
      rw [← List.cons_append] at hcut
      rcases pathText_cut hslash hcut with rfl | ⟨before, name, behind, rfl, rfl⟩
      · exact absurd hrest hnil
      · exact ⟨before, name, behind, rfl, hrest⟩
  · rintro ⟨before, name, behind, rfl, hrest⟩
    cases before with
    | nil => exact .inl hrest
    | cons first before =>
        have hne : ∀ name ∈ first :: before, name ≠ [] := fun name hname =>
          (hnames name (List.mem_append_left _ hname)).ne_nil
        obtain ⟨c, front, heq⟩ :=
          exists_pathText_append (List.cons_ne_nil _ _) hne isDir name behind
        have hline := inLine_of_mem_pathText isDir hnames
        rw [heq, List.forall_mem_cons, List.forall_mem_append] at hline
        exact .inr ⟨c, _, _, hline.1, heq, ⟨front, hline.2.1, rfl⟩, hrest⟩

theorem matches_dirName_iff {word : Text} (hword : '/' ∉ word) (hname : '/' ∉ name) :
    Matches (word.map .char ++ [.dirSlash]) (pathText isDir (name :: names)) ↔
      word = name ∧ (names ≠ [] ∨ isDir = true) := by
  rw [matches_chars]
  constructor
  · rintro ⟨rest, hpath, hrest⟩
    rw [matches_dirSlash] at hrest
    obtain rfl := eq_of_pathText_eq hname hword (.inr hrest) hpath
    rcases followed_or_last isDir names with hfollowed | ⟨rfl, rfl⟩
    · exact ⟨rfl, hfollowed⟩
    · rw [pathText_last, List.self_eq_append_right] at hpath
      rw [hpath] at hrest
      cases hrest
  · rintro ⟨rfl, hfollowed⟩
    exact ⟨_, pathText_followed hfollowed word, matches_dirSlash.mpr rfl⟩

theorem matches_ending_iff {ending : Text} (hending : '/' ∉ ending)
    (hnames : ∀ other ∈ name :: names, IsComponent other) :
    Matches (.run :: (ending.map .char ++ [.nameEnd])) (pathText isDir (name :: names)) ↔
      ending <:+ name := by
  have hname : '/' ∉ name := (hnames name List.mem_cons_self).no_slash
  simp only [matches_run, matches_chars, matches_nameEnd]
  constructor
  · rintro ⟨_, ⟨run, hrun, hpath⟩, rest, rfl, hend⟩
    rw [← List.append_assoc] at hpath
    have hslash : '/' ∉ run ++ ending := by
      intro hmem
      rcases List.mem_append.mp hmem with hmem | hmem
      · exact absurd (hrun '/' hmem) (by decide)
      · exact hending hmem
    have hrest : rest = [] ∨ rest.head? = some '/' := by
      rcases hend with hslash | hend
      · exact .inr hslash
      · unfold atEnd at hend
        split at hend
        · exact .inl rfl
        · -- A line feed could stand behind the end, but there is none in the path.
          have hmem : '\n' ∈ pathText isDir (name :: names) := by simp [hpath]
          exact absurd (inLine_of_mem_pathText isDir hnames '\n' hmem) (by decide)
        · cases hend
    exact ⟨run, eq_of_pathText_eq hname hslash hrest hpath⟩
  · rintro ⟨run, rfl⟩
    have hrun : ∀ c ∈ run, inName c = true :=
      inName_of_mem fun h => hname (List.mem_append_left _ h)
    rcases followed_or_last isDir names with hfollowed | ⟨rfl, rfl⟩
    · rw [pathText_followed hfollowed, List.append_assoc]
      exact ⟨_, ⟨run, hrun, rfl⟩, _, rfl, .inl rfl⟩
    · exact ⟨ending, ⟨run, hrun, rfl⟩, [], (List.append_nil ending).symm, .inr rfl⟩

end Piece

/-- A name without characters that patterns give a meaning to. -/
structure IsPlain (name : Text) : Prop where
  ne_nil : name ≠ []
  ne_dot : name ≠ ['.']
  no_mark : name.head? ≠ some '!' ∧ name.head? ≠ some '#'
  no_special : ∀ c ∈ ['/', '\\', '*', '?', '[', '\n'], c ∉ name

instance (name : Text) : Decidable (IsPlain name) :=
  decidable_of_iff
    (name ≠ [] ∧ name ≠ ['.'] ∧ (name.head? ≠ some '!' ∧ name.head? ≠ some '#') ∧
      ['/', '\\', '*', '?', '[', '\n'].all (fun c => decide (c ∉ name)) = true)
    ⟨fun h => ⟨h.1, h.2.1, h.2.2.1,
        fun c hc => of_decide_eq_true (List.all_eq_true.mp h.2.2.2 c hc)⟩,
      fun h => ⟨h.ne_nil, h.ne_dot, h.no_mark,
        List.all_eq_true.mpr fun c hc => decide_eq_true (h.no_special c hc)⟩⟩

namespace IsPlain

theorem no_slash (h : IsPlain name) : '/' ∉ name := h.no_special '/' (by simp)

theorem no_star (h : IsPlain name) : '*' ∉ name := h.no_special '*' (by simp)

end IsPlain

theorem glob_of_no_special {word : Text} (h : ∀ c ∈ ['\\', '*', '?', '['], c ∉ word) :
    glob word = .ok (word.map .char) := by
  induction word with
  | nil => rw [glob, List.map_nil]
  | cons c word ih =>
      have hword : ∀ d ∈ ['\\', '*', '?', '['], d ∉ word := fun d hd hmem =>
        h d hd (List.mem_cons_of_mem c hmem)
      have hc : ∀ d ∈ ['\\', '*', '?', '['], c ≠ d := fun d hd heq =>
        h d hd (heq ▸ List.mem_cons_self)
      simp only [List.forall_mem_cons] at hc
      rw [glob.eq_def]
      simp only [beq_iff_eq, hc, if_false, ih hword]
      rfl

theorem inPieces?_eq_none {pieces : List Piece}
    (h : ∀ negated members, .oneOf negated members ∉ pieces) (whole : Text) (position : Nat) :
    ReversedRange.inPieces? whole position pieces = none := by
  induction pieces generalizing position with
  | nil => rfl
  | cons piece pieces ih =>
      have hpieces : ∀ negated members, .oneOf negated members ∉ pieces :=
        fun negated members hmem => h negated members (List.mem_cons_of_mem _ hmem)
      unfold ReversedRange.inPieces?
      rw [ih hpieces]
      split
      · next negated members => exact absurd List.mem_cons_self (h negated members)
      · rfl

theorem segmentsOf_dirName (hne : name ≠ []) (hslash : '/' ∉ name) (hstar : '*' ∉ name) :
    segmentsOf (name ++ ['/']) = [anyDirs, name, anyDirs] := by
  have hdirs : name ≠ anyDirs := fun heq => hstar (heq ▸ List.mem_cons_self)
  unfold segmentsOf
  rw [List.splitOn_append_cons_self, List.splitOn_eq_singleton hslash,
    List.splitOn_nil]
  obtain ⟨c, rest, rfl⟩ := List.exists_cons_of_ne_nil hne
  simp [hdirs, dropRepeats]

theorem segmentsOf_name (hne : name ≠ []) (hslash : '/' ∉ name) (hdirs : name ≠ anyDirs) :
    segmentsOf name = [anyDirs, name] := by
  unfold segmentsOf
  rw [List.splitOn_eq_singleton hslash]
  obtain ⟨c, rest, rfl⟩ := List.exists_cons_of_ne_nil hne
  simp [hdirs, dropRepeats]

theorem matcherOf?_of_piecesOf {line : String} {pattern : Text} {segments : List Text}
    (hsegments : segmentsOf pattern = segments)
    (hspecial : segments ∉ [[], [anyDirs], [anyDirs, ['*']], [anyDirs, ['*'], anyDirs]])
    {pieces : List Piece} (hpieces : piecesOf (endsInSlash pattern) segments = .ok pieces)
    (hplain : ∀ negated members, .oneOf negated members ∉ pieces) :
    matcherOf? line pattern = .ok (some (.sequence pieces)) := by
  simp only [List.mem_cons, List.not_mem_nil, or_false, not_or] at hspecial
  obtain ⟨hempty, hdirs, hstar, hbelow⟩ := hspecial
  unfold matcherOf?
  rw [hsegments]
  simp only [List.isEmpty_iff, beq_iff_eq, hempty, hdirs, hstar, hbelow, if_false, hpieces]
  rw [ReversedRange.find?, inPieces?_eq_none hplain]

theorem glob_of_isPlain (h : IsPlain name) : glob name = .ok (name.map .char) := by
  apply glob_of_no_special
  intro c hc
  exact h.no_special c (by simp only [List.mem_cons] at hc ⊢; tauto)

theorem matcherOf?_dirName (line : String) (h : IsPlain name) :
    matcherOf? line (name ++ ['/']) =
      .ok (some (.sequence (.upperDirs :: (name.map .char ++ [.dirSlash])))) := by
  have hstar : name ≠ ['*'] := fun heq => h.no_star (heq ▸ List.mem_cons_self)
  have hdirs : name ≠ anyDirs := fun heq => h.no_star (heq ▸ List.mem_cons_self)
  apply matcherOf?_of_piecesOf (segmentsOf_dirName h.ne_nil h.no_slash h.no_star)
  · simp [hstar]
  · rw [endsInSlash_snoc]
    have hpieces : namePieces name = .ok (name.map .char) := by
      rw [namePieces, if_neg (by simpa using hstar), glob_of_isPlain h]
    simp only [piecesOf, tailPieces, beq_self_eq_true, if_true, beq_iff_eq, hdirs, if_false,
      hpieces, List.isEmpty_cons, List.isEmpty_nil, Bool.false_eq_true, List.nil_append,
      List.append_nil]
    rfl
  · simp

theorem matcherOf?_ending (line : String) (h : IsPlain name) :
    matcherOf? line ('*' :: name) =
      .ok (some (.sequence (.upperDirs :: .run :: (name.map .char ++ [.nameEnd])))) := by
  have hdirs : '*' :: name ≠ anyDirs := fun heq =>
    h.no_star ((List.cons.inj heq).2 ▸ List.mem_cons_self)
  have hslash : '/' ∉ '*' :: name := by simpa using h.no_slash
  apply matcherOf?_of_piecesOf (segmentsOf_name (List.cons_ne_nil _ _) hslash hdirs)
  · simp [h.ne_nil]
  · have hpieces : namePieces ('*' :: name) = .ok (.run :: name.map .char) := by
      rw [namePieces, if_neg (by simpa using h.ne_nil), glob.eq_def]
      simp only [beq_iff_eq, glob_of_isPlain h]
      rfl
    have hend : endsInSlash ('*' :: name) = false := by
      rw [endsInSlash, List.splitOn_eq_singleton hslash]
      simp
    rw [hend]
    simp only [piecesOf, tailPieces, beq_self_eq_true, if_true, beq_iff_eq, hdirs, if_false,
      hpieces, List.isEmpty_cons, List.isEmpty_nil, Bool.false_eq_true, List.nil_append]
    exact congrArg (fun pieces => Except.ok (Piece.upperDirs :: pieces)) (List.append_nil _)
  · simp

theorem ofLine?_of_matcherOf? {line : String} {pattern : Text}
    (htrim : trimLine line.toList = pattern) (hne : pattern ≠ []) (hslash : pattern ≠ ['/'])
    (hmark : pattern.head? ≠ some '!' ∧ pattern.head? ≠ some '#') {matcher : Matcher}
    (h : matcherOf? line pattern = .ok (some matcher)) :
    Pattern.ofLine? line = .ok (some ⟨true, matcher⟩) := by
  have hignores : (pattern.head? != some '!') = true := bne_iff_ne.mpr hmark.1
  unfold Pattern.ofLine?
  simp only [htrim, hignores, if_true, h, Bool.or_eq_true, List.isEmpty_iff, beq_iff_eq, hne,
    hmark.2, hslash, or_false, if_false]
  rfl

theorem trimLine_cons {c : Char} (hc : Text.isBlank c = false) {t : Text}
    (ht : Text.trimEnd t = t) : trimLine (c :: t) = c :: t := by
  have hreverse : t.reverse.dropWhile Text.isBlank = t.reverse := by
    rw [← List.reverse_eq_iff]
    exact ht
  have htrim : Text.trimEnd (c :: t) = c :: t := by
    rw [Text.trimEnd, List.reverse_cons, List.dropWhile_append, hreverse]
    cases t with
    | nil => simp [hc]
    | cons d t => simp
  rw [trimLine, htrim, ite_self]

def dirRule (name : String) : Pattern :=
  ⟨true, .sequence (.upperDirs :: (name.toList.map .char ++ [.dirSlash]))⟩

def endingRule (ending : String) : Pattern :=
  ⟨true, .sequence (.upperDirs :: .run :: (ending.toList.map .char ++ [.nameEnd]))⟩

theorem ofLine?_dirName {name : String} (h : IsPlain name.toList) :
    Pattern.ofLine? (name ++ "/") = .ok (some (dirRule name)) := by
  have htrim : trimLine (name ++ "/").toList = name.toList ++ ['/'] := by
    rw [String.toList_append]
    exact trimLine_snoc _
  apply ofLine?_of_matcherOf? htrim
  · simp
  · simp [h.ne_nil]
  · rw [List.head?_append_of_ne_nil _ h.ne_nil]
    exact h.no_mark
  · exact matcherOf?_dirName _ h

theorem ofLine?_ending {ending : String} (h : IsPlain ending.toList)
    (hend : Text.trimEnd ending.toList = ending.toList) :
    Pattern.ofLine? ("*" ++ ending) = .ok (some (endingRule ending)) := by
  have htrim : trimLine ("*" ++ ending).toList = '*' :: ending.toList := by
    rw [String.toList_append]
    exact trimLine_cons (by decide) hend
  apply ofLine?_of_matcherOf? htrim
  · simp
  · simp
  · simp
  · exact matcherOf?_ending _ h

theorem rulesOf_map {α : Type} {lineOf : α → String} {ruleOf : α → Pattern} {items : List α}
    (h : ∀ item ∈ items, Pattern.ofLine? (lineOf item) = .ok (some (ruleOf item)))
    {lines : List String} {rules : Rules} (hrules : rulesOf lines = .ok rules) :
    rulesOf (items.map lineOf ++ lines) = .ok (items.map ruleOf ++ rules) := by
  induction items with
  | nil => exact hrules
  | cons item items ih =>
      obtain ⟨hitem, hitems⟩ := List.forall_mem_cons.mp h
      rw [List.map_cons, List.cons_append, rulesOf, hitem, ih hitems]
      rfl

theorem dirName_of_isPlain {dir : String} (h : IsPlain dir.toList) : dirName dir = dir := by
  have hlast : dir.toList.rdropWhile (· == '/') = dir.toList := by
    rw [List.rdropWhile_eq_self_iff]
    intro hne hslash
    exact h.no_slash (beq_iff_eq.mp hslash ▸ List.getLast_mem hne)
  rw [dirName]
  exact (congrArg String.ofList hlast).trans String.ofList_toList

theorem ruleLines_of_isPlain {dirs : List String} (hdirs : ∀ dir ∈ dirs, IsPlain dir.toList)
    (endings : List String) :
    ruleLines dirs (endings.map ("*" ++ ·)) [] =
      dirs.map (· ++ "/") ++ (endings.map ("*" ++ ·) ++ []) := by
  have hne : dirs.filter (· != "") = dirs := by
    rw [List.filter_eq_self]
    rintro dir hdir
    exact bne_iff_ne.mpr fun heq => (hdirs dir hdir).ne_nil (by rw [heq]; rfl)
  have hlines : dirLines dirs = dirs.map (· ++ "/") := by
    rw [dirLines, hne]
    exact List.map_congr_left fun dir hdir => by rw [dirName_of_isPlain (hdirs dir hdir)]
  have hfiles : (endings.map ("*" ++ ·)).filter (· != "") = endings.map ("*" ++ ·) := by
    rw [List.filter_eq_self, List.forall_mem_map]
    intro ending _
    refine bne_iff_ne.mpr fun heq => ?_
    have hlist := congrArg String.toList heq
    rw [String.toList_append] at hlist
    cases hlist
  rw [ruleLines_eq, hlines, hfiles]

theorem intercalate_eq_pathText (isDir : Bool) (hne : names ≠ []) :
    ['/'].intercalate names ++ (if isDir then ['/'] else []) = pathText isDir names := by
  induction names with
  | nil => exact absurd rfl hne
  | cons name names ih =>
      cases names with
      | nil => cases isDir <;> simp [pathText]
      | cons second names =>
          rw [List.intercalate_cons_cons, pathText_followed (.inl (List.cons_ne_nil _ _)),
            ← ih (List.cons_ne_nil _ _)]
          simp only [List.append_assoc, List.cons_append, List.nil_append]

theorem toList_path (below : List String) (name : String) (isDir : Bool) :
    (String.intercalate "/" (below ++ [name]) ++ if isDir then "/" else "").toList =
      pathText isDir ((below ++ [name]).map String.toList) := by
  rw [String.toList_append, String.toList_intercalate, ← intercalate_eq_pathText isDir (by simp)]
  cases isDir <;> rfl

section

variable {below : List String} {name : String}
  (hparts : ∀ part ∈ below ++ [name], IsComponent part.toList)

include hparts

theorem find?_dirRule_iff {dir : String} (hdir : IsPlain dir.toList) :
    ((dirRule dir).matcher.find? (pathText isDir ((below ++ [name]).map String.toList))).isSome =
      true ↔ dir ∈ below ∨ isDir = true ∧ dir = name := by
  have hnil : ¬Piece.Matches (dir.toList.map .char ++ [.dirSlash]) [] := by
    rw [Piece.matches_chars]
    rintro ⟨rest, hrest, -⟩
    exact hdir.ne_nil (List.append_eq_nil_iff.mp hrest.symm).1
  have hnames := List.forall_mem_map.mpr hparts
  refine (Piece.matches_upperDirs_pathText hnil hnames).trans ?_
  constructor
  · rintro ⟨before, part, behind, hsplit, hmatch⟩
    have hpart : IsComponent part := hnames part (by simp [hsplit])
    obtain ⟨rfl, hfollowed⟩ := (Piece.matches_dirName_iff hdir.no_slash hpart.no_slash).mp hmatch
    rw [List.map_append, List.map_singleton] at hsplit
    rcases List.eq_nil_or_concat behind with rfl | ⟨behind, last, rfl⟩
    · obtain ⟨-, hlast⟩ := List.append_inj' hsplit rfl
      have hname := String.toList_injective (List.singleton_inj.mp hlast)
      exact .inr ⟨hfollowed.resolve_left (fun h => h rfl), hname.symm⟩
    · rw [List.concat_eq_append, ← List.cons_append, ← List.append_assoc] at hsplit
      obtain ⟨hbelow, -⟩ := List.append_inj' hsplit rfl
      have hmem : dir.toList ∈ below.map String.toList := by simp [hbelow]
      obtain ⟨other, hother, heq⟩ := List.mem_map.mp hmem
      exact .inl (String.toList_injective heq ▸ hother)
  · rintro (hmem | ⟨hisDir, rfl⟩)
    · obtain ⟨before, behind, rfl⟩ := List.append_of_mem hmem
      refine ⟨before.map String.toList, dir.toList, (behind ++ [name]).map String.toList,
        by simp, ?_⟩
      exact (Piece.matches_dirName_iff hdir.no_slash hdir.no_slash).mpr ⟨rfl, .inl (by simp)⟩
    · refine ⟨below.map String.toList, dir.toList, [], by simp, ?_⟩
      exact (Piece.matches_dirName_iff hdir.no_slash hdir.no_slash).mpr ⟨rfl, .inr hisDir⟩

theorem find?_endingRule_iff {ending : String} (hending : IsPlain ending.toList) :
    ((endingRule ending).matcher.find?
        (pathText isDir ((below ++ [name]).map String.toList))).isSome = true ↔
      ∃ part ∈ below ++ [name], ending.toList <:+ part.toList := by
  have hnil : ¬Piece.Matches (.run :: (ending.toList.map .char ++ [.nameEnd])) [] := by
    rw [Piece.matches_run]
    rintro ⟨rest, hbehind, hrest⟩
    rw [behind_nil_iff.mp hbehind, Piece.matches_chars] at hrest
    obtain ⟨rest, heq, -⟩ := hrest
    exact hending.ne_nil (List.append_eq_nil_iff.mp heq.symm).1
  have hnames := List.forall_mem_map.mpr hparts
  refine (Piece.matches_upperDirs_pathText hnil hnames).trans ?_
  constructor
  · rintro ⟨before, part, behind, hsplit, hmatch⟩
    have hbehind : ∀ other ∈ part :: behind, IsComponent other := fun other hother =>
      hnames other (hsplit ▸ List.mem_append_right before hother)
    have hsuffix := (Piece.matches_ending_iff hending.no_slash hbehind).mp hmatch
    have hmem : part ∈ (below ++ [name]).map String.toList := by simp [hsplit]
    obtain ⟨part, hpart, rfl⟩ := List.mem_map.mp hmem
    exact ⟨part, hpart, hsuffix⟩
  · rintro ⟨part, hpart, hsuffix⟩
    obtain ⟨before, behind, hsplit⟩ := List.append_of_mem hpart
    have hsplit' : (below ++ [name]).map String.toList =
        before.map String.toList ++ part.toList :: behind.map String.toList := by
      rw [hsplit, List.map_append, List.map_cons]
    have hbehind : ∀ other ∈ part.toList :: behind.map String.toList, IsComponent other :=
      fun other hother => hnames other (hsplit' ▸ List.mem_append_right _ hother)
    exact ⟨_, _, _, hsplit', (Piece.matches_ending_iff hending.no_slash hbehind).mpr hsuffix⟩

end

/-- Plain directory names and stars with plain endings ignore exactly the paths with a component
that has one of the names and a slash behind it, or with a component that has one of the endings. -/
theorem ignored_iff_component {dirs endings : List String}
    (hdirs : ∀ dir ∈ dirs, IsPlain dir.toList)
    (hendings : ∀ ending ∈ endings, IsPlain ending.toList ∧
      Text.trimEnd ending.toList = ending.toList) :
    ∃ rules, rulesOf (ruleLines dirs (endings.map ("*" ++ ·)) []) = .ok rules ∧
      ∀ (below : List String) (name : String) (isDir : Bool),
        (∀ part ∈ below ++ [name], IsComponent part.toList) →
        (isIgnored rules
            (String.intercalate "/" (below ++ [name]) ++ if isDir then "/" else "") = true ↔
          (∃ dir ∈ dirs, dir ∈ below ∨ isDir = true ∧ dir = name) ∨
            ∃ ending ∈ endings, ∃ part ∈ below ++ [name], ending.toList <:+ part.toList) := by
  refine ⟨dirs.map dirRule ++ (endings.map endingRule ++ []), ?_, ?_⟩
  · rw [ruleLines_of_isPlain hdirs]
    apply rulesOf_map fun dir hdir => ofLine?_dirName (hdirs dir hdir)
    exact rulesOf_map (fun ending hmem => ofLine?_ending (hendings ending hmem).1
      (hendings ending hmem).2) rfl
  · intro below name isDir hparts
    have hignores : ∀ pattern ∈ dirs.map dirRule ++ (endings.map endingRule ++ []),
        pattern.ignores = true := by
      simp only [List.append_nil, List.forall_mem_append, List.forall_mem_map]
      exact ⟨fun _ _ => rfl, fun _ _ => rfl⟩
    rw [isIgnored_iff_of_ignores hignores, toList_path,
      relativePath_pathText isDir (List.forall_mem_map.mpr hparts)]
    have hrule (P : Pattern → Prop) :
        (∃ pattern ∈ dirs.map dirRule ++ (endings.map endingRule ++ []), P pattern) ↔
          (∃ dir ∈ dirs, P (dirRule dir)) ∨ ∃ ending ∈ endings, P (endingRule ending) := by
      simp [or_and_right, exists_or]
    rw [hrule]
    apply or_congr
    · exact exists_congr fun dir => and_congr_right fun hdir =>
        find?_dirRule_iff hparts (hdirs dir hdir)
    · exact exists_congr fun ending => and_congr_right fun hmem =>
        find?_endingRule_iff hparts (hendings ending hmem).1

theorem ignored_iff_component_dist :
    ∃ rules, rulesOf (ruleLines ["dist"] (["ance"].map ("*" ++ ·)) []) = .ok rules ∧
      isIgnored rules "a/dist/" = true ∧ isIgnored rules "distances/dist" = false ∧
      isIgnored rules "distance/b" = true := by
  have hdirs : ∀ dir ∈ ["dist"], IsPlain dir.toList := by decide +kernel
  have hendings : ∀ ending ∈ ["ance"], IsPlain ending.toList ∧
      Text.trimEnd ending.toList = ending.toList := by decide +kernel
  obtain ⟨rules, hrules, hiff⟩ := ignored_iff_component hdirs hendings
  refine ⟨rules, hrules, ?_, ?_, ?_⟩
  · exact (hiff ["a"] "dist" true (by decide +kernel)).mpr (by decide +kernel)
  · rw [← Bool.not_eq_true]
    exact mt (hiff ["distances"] "dist" false (by decide +kernel)).mp (by decide +kernel)
  · exact (hiff ["distance"] "b" false (by decide +kernel)).mpr (by decide +kernel)

end CommentSweep.Ignore
