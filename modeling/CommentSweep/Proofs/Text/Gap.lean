import CommentSweep.Text

/-!
Gaps of a text: a terminator and at least two blank lines behind it. Everything that is said of gaps
here rests on two functions, the number of blank lines at the head of a text and the text behind
them, and on three equations for the closing of gaps.
-/

namespace CommentSweep.Text

def blanksAhead (t : Text) : Nat :=
  (blankLines 0 0 0 t).1

def behindBlanks (t : Text) : Text :=
  t.drop (blankLines 0 0 0 t).2

theorem blankLines_fst (lines width pending : Nat) (t : Text) :
    (blankLines lines width pending t).1 = lines + blanksAhead t := by
  unfold blanksAhead
  induction t generalizing lines width pending with
  | nil => rfl
  | cons c t ih =>
      have hone := ih (0 + 1) (0 + 0 + 1) 0
      rw [blankLines, blankLines]
      split
      · rw [ih, hone]
        omega
      · split
        · rw [ih, ih 0 0 (0 + 1), Nat.zero_add]
        · rfl

theorem blanksAhead_cons (c : Char) (t : Text) :
    blanksAhead (c :: t) =
      if c == '\n' then blanksAhead t + 1
      else if isIndent c || (c == '\r' && t.head? == some '\n') then blanksAhead t
      else 0 := by
  rw [blanksAhead, blankLines]
  split
  · rw [blankLines_fst, Nat.add_comm]
  · split
    · rw [blankLines_fst, Nat.zero_add]
    · rfl

theorem blankLines_snd (lines width pending : Nat) (t : Text) :
    (blankLines lines width pending t).2 =
      if blanksAhead t = 0 then width else width + pending + (blankLines 0 0 0 t).2 := by
  induction t generalizing lines width pending with
  | nil => rfl
  | cons c t ih =>
      have hone := ih (0 + 1) (0 + 0 + 1) 0
      have hpending := ih 0 0 (0 + 1)
      rw [blanksAhead_cons, blankLines, blankLines]
      split
      · rw [ih, hone]
        split
        · simp
        · simp only [Nat.add_eq_zero_iff, Nat.succ_ne_self, and_false, if_false]
          omega
      · split
        · rw [ih, hpending]
          split
          · simp
          · omega
        · simp

@[simp] theorem behindBlanks_of_blanksAhead_eq_zero {t : Text} (h : blanksAhead t = 0) :
    behindBlanks t = t := by
  rw [behindBlanks, blankLines_snd, if_pos h, List.drop_zero]

@[simp] theorem behindBlanks_cons {c : Char} {t : Text} (h : blanksAhead (c :: t) ≠ 0) :
    behindBlanks (c :: t) = behindBlanks t := by
  rw [blanksAhead_cons] at h
  rw [behindBlanks, blankLines]
  split at h
  · rw [if_pos ‹_›, blankLines_snd]
    split
    · rw [behindBlanks_of_blanksAhead_eq_zero ‹_›]
      rfl
    · rw [behindBlanks, Nat.add_comm, List.drop_succ_cons]
  · split at h
    · rw [if_neg ‹_›, if_pos ‹_›, blankLines_snd, if_neg h, behindBlanks]
      rw [Nat.zero_add, Nat.add_comm, List.drop_succ_cons]
    · exact absurd rfl h

@[simp] theorem blanksAhead_behindBlanks (t : Text) : blanksAhead (behindBlanks t) = 0 := by
  induction t with
  | nil => rfl
  | cons c t ih =>
      by_cases h : blanksAhead (c :: t) = 0
      · simp [h]
      · simp [h, ih]

theorem length_behindBlanks_le (t : Text) : (behindBlanks t).length ≤ t.length := by
  rw [behindBlanks, List.length_drop]
  exact Nat.sub_le _ _

inductive IsNewline : Text → Prop
  | lf : IsNewline ['\n']
  | crlf : IsNewline ['\r', '\n']

@[simp] theorem newline?_append {newline : Text} (h : IsNewline newline) (rest : Text) :
    newline? (newline ++ rest) = some (newline, rest) := by
  cases h <;> rfl

theorem newline?_sound {t newline rest : Text} (h : newline? t = some (newline, rest)) :
    IsNewline newline ∧ t = newline ++ rest := by
  unfold newline? at h
  split at h
  · cases h
    exact ⟨.lf, rfl⟩
  · cases h
    exact ⟨.crlf, rfl⟩
  · cases h

/-- A text starts with a gap if two blank lines follow its terminator. -/
def StartsGap (t : Text) : Prop :=
  ∃ newline rest, IsNewline newline ∧ 2 ≤ blanksAhead rest ∧ t = newline ++ rest

theorem startsGap_newline_append {newline : Text} (h : IsNewline newline) (rest : Text) :
    StartsGap (newline ++ rest) ↔ 2 ≤ blanksAhead rest := by
  constructor
  · rintro ⟨newline', rest', hnewline', hblanks, hsplit⟩
    have hsame := newline?_append h rest
    rw [hsplit, newline?_append hnewline'] at hsame
    cases hsame
    exact hblanks
  · intro hblanks
    exact ⟨newline, rest, h, hblanks, rfl⟩

def IsBlankLine (line : Text) : Prop :=
  ∃ indent newline, (∀ c ∈ indent, isIndent c = true) ∧ IsNewline newline ∧
    line = indent ++ newline

def HasGap (t : Text) : Prop :=
  ∃ before newline first second after, IsNewline newline ∧ IsBlankLine first ∧
    IsBlankLine second ∧ t = before ++ (newline ++ (first ++ (second ++ after)))

@[simp] theorem blanksAhead_newline_append {newline : Text} (h : IsNewline newline) (rest : Text) :
    blanksAhead (newline ++ rest) = blanksAhead rest + 1 := by
  cases h with
  | lf => simp [blanksAhead_cons]
  | crlf => simp [blanksAhead_cons, isIndent]

@[simp] theorem blanksAhead_line_append {line : Text} (h : IsBlankLine line) (rest : Text) :
    blanksAhead (line ++ rest) = blanksAhead rest + 1 := by
  obtain ⟨indent, newline, hindent, hnewline, rfl⟩ := h
  induction indent with
  | nil => exact blanksAhead_newline_append hnewline rest
  | cons c indent ih =>
      obtain ⟨hc, hindent⟩ := List.forall_mem_cons.mp hindent
      have hlf : ¬c = '\n' := by
        rintro rfl
        cases hc
      rw [List.cons_append, List.cons_append, blanksAhead_cons]
      simpa [hlf, hc] using ih hindent

theorem IsBlankLine.cons {c : Char} {line : Text} (hc : isIndent c = true)
    (h : IsBlankLine line) : IsBlankLine (c :: line) := by
  obtain ⟨indent, newline, hindent, hnewline, rfl⟩ := h
  exact ⟨c :: indent, newline, List.forall_mem_cons.mpr ⟨hc, hindent⟩, hnewline, rfl⟩

theorem IsNewline.isBlankLine {newline : Text} (h : IsNewline newline) :
    IsBlankLine newline :=
  ⟨[], newline, nofun, h, rfl⟩

theorem exists_line_of_blanksAhead {t : Text} {n : Nat} (h : blanksAhead t = n + 1) :
    ∃ line rest, IsBlankLine line ∧ blanksAhead rest = n ∧ t = line ++ rest := by
  induction t with
  | nil => cases h
  | cons c t ih =>
      rw [blanksAhead_cons] at h
      split at h
      · next hc =>
          refine ⟨['\n'], t, IsNewline.lf.isBlankLine, Nat.succ.inj h, ?_⟩
          rw [eq_of_beq hc]
          rfl
      · split at h
        · next hblank =>
            rcases (Bool.or_eq_true _ _).mp hblank with hc | hpair
            · obtain ⟨line, rest, hline, hrest, rfl⟩ := ih h
              exact ⟨c :: line, rest, hline.cons hc, hrest, rfl⟩
            · obtain ⟨rfl, hhead⟩ : c = '\r' ∧ t.head? = some '\n' := by simpa using hpair
              obtain ⟨rest, rfl⟩ := List.head?_eq_some_iff.mp hhead
              rw [blanksAhead_cons] at h
              exact ⟨['\r', '\n'], rest, IsNewline.crlf.isBlankLine, Nat.succ.inj h, rfl⟩
        · cases h

theorem startsGap_iff {t : Text} :
    StartsGap t ↔ ∃ newline first second after, IsNewline newline ∧ IsBlankLine first ∧
      IsBlankLine second ∧ t = newline ++ (first ++ (second ++ after)) := by
  constructor
  · rintro ⟨newline, rest, hnewline, hblanks, rfl⟩
    obtain ⟨n, hn⟩ := Nat.exists_eq_add_of_le' hblanks
    obtain ⟨first, rest, hfirst, hrest, rfl⟩ := exists_line_of_blanksAhead hn
    obtain ⟨second, after, hsecond, -, rfl⟩ := exists_line_of_blanksAhead hrest
    exact ⟨newline, first, second, after, hnewline, hfirst, hsecond, rfl⟩
  · rintro ⟨newline, first, second, after, hnewline, hfirst, hsecond, rfl⟩
    refine ⟨newline, first ++ (second ++ after), hnewline, ?_, rfl⟩
    rw [blanksAhead_line_append hfirst, blanksAhead_line_append hsecond]
    omega

theorem hasGap_iff {t : Text} :
    HasGap t ↔ ∃ before rest, t = before ++ rest ∧ StartsGap rest := by
  constructor
  · rintro ⟨before, newline, first, second, after, hnewline, hfirst, hsecond, rfl⟩
    exact ⟨before, _, rfl, startsGap_iff.mpr
      ⟨newline, first, second, after, hnewline, hfirst, hsecond, rfl⟩⟩
  · rintro ⟨before, rest, rfl, hgap⟩
    obtain ⟨newline, first, second, after, hnewline, hfirst, hsecond, rfl⟩ :=
      startsGap_iff.mp hgap
    exact ⟨before, newline, first, second, after, hnewline, hfirst, hsecond, rfl⟩

theorem HasGap.append {t : Text} (h : HasGap t) (before after : Text) :
    HasGap (before ++ (t ++ after)) := by
  obtain ⟨front, newline, first, second, back, hnewline, hfirst, hsecond, rfl⟩ := h
  exact ⟨before ++ front, newline, first, second, back ++ after, hnewline, hfirst, hsecond,
    by simp⟩

theorem gap?_append {newline rest : Text} (hnewline : IsNewline newline)
    (hblanks : 2 ≤ blanksAhead rest) :
    gap? (newline ++ rest) =
      some (newline, newline.length - 1 + (blankLines 0 0 0 rest).2) := by
  have hlines : ¬(blankLines 0 0 0 rest).1 < 2 := Nat.not_lt.mpr hblanks
  simp [gap?, hnewline, hlines]

theorem gap?_eq_none {t : Text} (h : ¬StartsGap t) : gap? t = none := by
  unfold gap?
  split
  · rfl
  · next newline rest hsplit =>
      obtain ⟨hnewline, rfl⟩ := newline?_sound hsplit
      have hlines : (blankLines 0 0 0 rest).1 < 2 :=
        Nat.not_le.mp fun hblanks => h ⟨newline, rest, hnewline, hblanks, rfl⟩
      simp [hlines]

theorem collapseFrom_eq (out : Text) (skip : Nat) (t : Text) :
    collapseFrom out skip t = out.reverse ++ collapseFrom [] skip t := by
  induction t generalizing out skip with
  | nil => cases skip <;> simp [collapseFrom]
  | cons c t ih =>
      cases skip with
      | succ skip =>
          rw [collapseFrom, collapseFrom]
          exact ih out skip
      | zero =>
          rw [collapseFrom, collapseFrom]
          cases gap? (c :: t) with
          | none =>
              simp only
              rw [ih, ih [c]]
              simp
          | some gap =>
              obtain ⟨newline, skip⟩ := gap
              simp only
              rw [ih, ih (newline.reverseAux (newline.reverseAux []))]
              simp [List.reverseAux_eq]

theorem collapseFrom_skip (skip : Nat) (t : Text) :
    collapseFrom [] skip t = collapse (t.drop skip) := by
  induction t generalizing skip with
  | nil => cases skip <;> rfl
  | cons c t ih =>
      cases skip with
      | zero => rfl
      | succ skip =>
          rw [collapseFrom, List.drop_succ_cons]
          exact ih skip

@[simp] theorem collapse_nil : collapse [] = [] := rfl

@[simp] theorem collapse_cons {c : Char} {t : Text} (h : ¬StartsGap (c :: t)) :
    collapse (c :: t) = c :: collapse t := by
  rw [collapse, collapseFrom, gap?_eq_none h]
  exact collapseFrom_eq [c] 0 t

theorem collapse_gap {newline rest : Text} (hnewline : IsNewline newline)
    (hblanks : 2 ≤ blanksAhead rest) :
    collapse (newline ++ rest) = newline ++ newline ++ collapse (behindBlanks rest) := by
  have hgap := gap?_append hnewline hblanks
  rw [collapse]
  cases hnewline with
  | lf =>
      rw [List.singleton_append, collapseFrom]
      rw [List.singleton_append] at hgap
      rw [hgap]
      simp only
      rw [collapseFrom_eq, collapseFrom_skip]
      simp [List.reverseAux_eq, behindBlanks]
  | crlf =>
      rw [List.cons_append, collapseFrom]
      rw [List.cons_append] at hgap
      rw [hgap]
      simp only
      rw [collapseFrom_eq, collapseFrom_skip]
      have hskip : List.drop (1 + (blankLines 0 0 0 rest).2) ('\n' :: rest) =
          rest.drop (blankLines 0 0 0 rest).2 := by
        rw [Nat.add_comm, List.drop_succ_cons]
      simp [List.reverseAux_eq, behindBlanks, hskip]

/-- Induction along the closing of gaps: a gap is passed as a whole, and any other character by
itself. -/
theorem gap_induction {motive : Text → Prop} (nil : motive [])
    (gap : ∀ newline rest, IsNewline newline → 2 ≤ blanksAhead rest →
      motive (behindBlanks rest) → motive (newline ++ rest))
    (keep : ∀ c t, ¬StartsGap (c :: t) → motive t → motive (c :: t)) (t : Text) :
    motive t := by
  induction hlength : t.length using Nat.strongRecOn generalizing t with
  | ind n ih =>
      cases t with
      | nil => exact nil
      | cons c t =>
          by_cases hgap : StartsGap (c :: t)
          · obtain ⟨newline, rest, hnewline, hblanks, hsplit⟩ := hgap
            rw [hsplit]
            refine gap newline rest hnewline hblanks (ih _ ?_ _ rfl)
            have hle := length_behindBlanks_le rest
            have hpos : 0 < newline.length := by cases hnewline <;> simp
            rw [← hlength, hsplit, List.length_append]
            omega
          · refine keep c t hgap (ih _ ?_ t rfl)
            rw [← hlength, List.length_cons]
            exact Nat.lt_succ_self _

@[simp] theorem head?_collapse (t : Text) : (collapse t).head? = t.head? := by
  cases t with
  | nil => rfl
  | cons c t =>
      by_cases hgap : StartsGap (c :: t)
      · obtain ⟨newline, rest, hnewline, hblanks, hsplit⟩ := hgap
        rw [hsplit, collapse_gap hnewline hblanks]
        cases hnewline <;> rfl
      · rw [collapse_cons hgap]
        rfl

theorem blanksAhead_collapse_le (t : Text) : blanksAhead (collapse t) ≤ blanksAhead t := by
  induction t using gap_induction with
  | nil => exact Nat.le_refl 0
  | gap newline rest hnewline hblanks ih =>
      rw [blanksAhead_behindBlanks] at ih
      rw [collapse_gap hnewline hblanks, List.append_assoc]
      simp only [blanksAhead_newline_append hnewline]
      omega
  | keep c t hgap ih =>
      rw [collapse_cons hgap, blanksAhead_cons, blanksAhead_cons, head?_collapse]
      split
      · omega
      · split
        · exact ih
        · exact Nat.le_refl 0

theorem not_startsGap_nil : ¬StartsGap [] := by
  rintro ⟨newline, rest, hnewline, -, hsplit⟩
  cases hnewline <;> cases hsplit

theorem not_hasGap_nil : ¬HasGap [] := by
  rw [hasGap_iff]
  rintro ⟨before, rest, hsplit, hgap⟩
  obtain ⟨-, rfl⟩ := List.nil_eq_append_iff.mp hsplit
  exact not_startsGap_nil hgap

@[simp] theorem hasGap_cons_iff {c : Char} {t : Text} :
    HasGap (c :: t) ↔ StartsGap (c :: t) ∨ HasGap t := by
  rw [hasGap_iff, hasGap_iff]
  constructor
  · rintro ⟨before, rest, hsplit, hgap⟩
    cases before with
    | nil =>
        left
        rw [hsplit]
        exact hgap
    | cons d before =>
        right
        injection hsplit with _ htail
        exact ⟨before, rest, htail, hgap⟩
  · rintro (hgap | ⟨before, rest, rfl, hgap⟩)
    · exact ⟨[], c :: t, rfl, hgap⟩
    · exact ⟨c :: before, rest, rfl, hgap⟩

theorem not_hasGap_newline_append {newline t : Text} (hnewline : IsNewline newline)
    (hblanks : blanksAhead t < 2) (ht : ¬HasGap t) : ¬HasGap (newline ++ t) := by
  have hstart {newline : Text} (h : IsNewline newline) : ¬StartsGap (newline ++ t) := by
    rw [startsGap_newline_append h]
    exact Nat.not_le.mpr hblanks
  have hlf : ¬HasGap ('\n' :: t) := by
    rw [hasGap_cons_iff, not_or]
    exact ⟨hstart .lf, ht⟩
  cases hnewline with
  | lf => exact hlf
  | crlf =>
      rw [List.cons_append, hasGap_cons_iff, not_or]
      exact ⟨hstart .crlf, hlf⟩

theorem not_hasGap_collapse (t : Text) : ¬HasGap (collapse t) := by
  induction t using gap_induction with
  | nil => exact not_hasGap_nil
  | gap newline rest hnewline hblanks ih =>
      have hnone : blanksAhead (collapse (behindBlanks rest)) = 0 := by
        have hle := blanksAhead_collapse_le (behindBlanks rest)
        rw [blanksAhead_behindBlanks] at hle
        exact Nat.le_zero.mp hle
      rw [collapse_gap hnewline hblanks, List.append_assoc]
      apply not_hasGap_newline_append hnewline
      · simp [hnewline, hnone]
      · apply not_hasGap_newline_append hnewline
        · rw [hnone]
          exact Nat.zero_lt_two
        · exact ih
  | keep c t hgap ih =>
      rw [collapse_cons hgap, hasGap_cons_iff, not_or]
      refine ⟨?_, ih⟩
      rintro ⟨newline, rest, hnewline, hblanks, hsplit⟩
      cases hnewline with
      | lf =>
          injection hsplit with hc hrest
          have hrest : collapse t = rest := hrest
          subst hc hrest
          exact hgap ⟨['\n'], t, .lf, Nat.le_trans hblanks (blanksAhead_collapse_le t), rfl⟩
      | crlf =>
          injection hsplit with hc hrest
          rw [hrest] at ih
          exact ih (hasGap_cons_iff.mpr (.inl ⟨['\n'], rest, .lf, hblanks, rfl⟩))

@[simp] theorem collapse_eq_self_iff {t : Text} : collapse t = t ↔ ¬HasGap t := by
  constructor
  · intro hsame
    rw [← hsame]
    exact not_hasGap_collapse t
  · intro hgap
    induction t with
    | nil => rfl
    | cons c t ih =>
        rw [hasGap_cons_iff, not_or] at hgap
        rw [collapse_cons hgap.1, ih hgap.2]

def isSolid (c : Char) : Bool :=
  !(isIndent c || c == '\r' || c == '\n')

theorem isSolid_iff {c : Char} :
    isSolid c = true ↔ isIndent c = false ∧ c ≠ '\r' ∧ c ≠ '\n' := by
  simp [isSolid, and_assoc]

section Solid

variable {c : Char} (hc : isSolid c = true)

include hc

theorem blanksAhead_solid (t : Text) : blanksAhead (c :: t) = 0 := by
  obtain ⟨hindent, hcr, hlf⟩ := isSolid_iff.mp hc
  simp [blanksAhead_cons, hindent, hcr, hlf]

theorem not_startsGap_solid (t : Text) : ¬StartsGap (c :: t) := by
  obtain ⟨-, hcr, hlf⟩ := isSolid_iff.mp hc
  rintro ⟨newline, rest, hnewline, -, hsplit⟩
  cases hnewline with
  | lf => exact hlf (List.cons.inj hsplit).1
  | crlf => exact hcr (List.cons.inj hsplit).1

theorem head?_append_solid (t u : Text) :
    ((t ++ c :: u).head? == some '\n') = (t.head? == some '\n') := by
  obtain ⟨-, -, hlf⟩ := isSolid_iff.mp hc
  cases t with
  | nil => simpa using hlf
  | cons d t => rfl

theorem blanksAhead_append_solid (t u : Text) :
    blanksAhead (t ++ c :: u) = blanksAhead t := by
  induction t with
  | nil => exact blanksAhead_solid hc u
  | cons d t ih =>
      rw [List.cons_append, blanksAhead_cons, blanksAhead_cons, ih, head?_append_solid hc]

theorem behindBlanks_append_solid (t u : Text) :
    behindBlanks (t ++ c :: u) = behindBlanks t ++ c :: u := by
  induction t with
  | nil => exact behindBlanks_of_blanksAhead_eq_zero (blanksAhead_solid hc u)
  | cons d t ih =>
      have hsame := blanksAhead_append_solid hc (d :: t) u
      by_cases hzero : blanksAhead (d :: t) = 0
      · rw [behindBlanks_of_blanksAhead_eq_zero hzero,
          behindBlanks_of_blanksAhead_eq_zero (hsame.trans hzero)]
      · rw [List.cons_append] at hsame ⊢
        rw [behindBlanks_cons hzero, behindBlanks_cons (hsame ▸ hzero), ih]

theorem startsGap_of_append_solid {t u : Text} (h : StartsGap (t ++ c :: u)) : StartsGap t := by
  obtain ⟨-, hcr, hlf⟩ := isSolid_iff.mp hc
  obtain ⟨newline, rest, hnewline, hblanks, hsplit⟩ := h
  have hinside : ∃ rest', t = newline ++ rest' ∧ rest = rest' ++ c :: u := by
    rcases List.append_eq_append_iff.mp hsplit with ⟨tail, hend, hrest⟩ | ⟨tail, hend, hrest⟩
    · cases tail with
      | nil => exact ⟨[], by simpa using hend.symm, hrest.symm⟩
      | cons d tail =>
          have hmem : c ∈ newline := by
            rw [hend, (List.cons.inj hrest).1]
            simp
          cases hnewline <;> simp [hcr, hlf] at hmem
    · exact ⟨tail, hend, hrest⟩
  obtain ⟨rest', rfl, rfl⟩ := hinside
  rw [blanksAhead_append_solid hc] at hblanks
  exact ⟨newline, rest', hnewline, hblanks, rfl⟩

theorem collapse_append_solid (t u : Text) :
    collapse (t ++ c :: u) = collapse t ++ c :: collapse u := by
  induction t using gap_induction with
  | nil => exact collapse_cons (not_startsGap_solid hc u)
  | gap newline rest hnewline hblanks ih =>
      have hsame := blanksAhead_append_solid hc rest u
      rw [List.append_assoc, collapse_gap hnewline (hsame ▸ hblanks),
        behindBlanks_append_solid hc, ih, collapse_gap hnewline hblanks]
      simp only [List.append_assoc]
  | keep d t hgap ih =>
      have hgap' : ¬StartsGap (d :: (t ++ c :: u)) := fun h =>
        hgap (startsGap_of_append_solid hc h)
      rw [List.cons_append, collapse_cons hgap', ih, collapse_cons hgap, List.cons_append]

end Solid

end CommentSweep.Text
