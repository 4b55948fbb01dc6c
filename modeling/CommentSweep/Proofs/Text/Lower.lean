import CommentSweep.Text.Lower

/-!
Texts in lower case. A text that is in lower case already stays as it is, and lowering a text brings
it into lower case; blanks, dots and slashes are neither made nor lost.
-/

namespace CommentSweep.Text

def isLowerAscii (c : Char) : Bool :=
  decide (c.toNat < 128) && !(decide (65 ≤ c.toNat) && decide (c.toNat ≤ 90))

theorem lowerRuns_outside :
    ∀ run ∈ CaseData.lowerRuns, (65 ≤ run.1 ∧ run.2.1 ≤ 90) ∨ 128 ≤ run.1 := by
  decide +kernel

theorem lowerChar_eq_self {c : Char} (h : isLowerAscii c = true) : lowerChar c = c := by
  simp only [isLowerAscii, Bool.and_eq_true, Bool.not_eq_true', Bool.and_eq_false_iff,
    decide_eq_true_eq, decide_eq_false_iff_not] at h
  rw [lowerChar]
  split
  · next first last step shift hfind =>
      have houtside : (65 ≤ first ∧ last ≤ 90) ∨ 128 ≤ first :=
        lowerRuns_outside _ (List.mem_of_find?_eq_some hfind)
      have hinside := List.find?_some hfind
      simp only [Bool.and_eq_true, decide_eq_true_eq] at hinside
      omega
  · rfl

/-- Lowering leaves the character alone wherever it stands. -/
structure IsLower (c : Char) : Prop where
  ne_sigma : c ≠ 'Σ'
  ne_dotted : c ≠ 'İ'
  lowerChar_eq : lowerChar c = c

theorem isLower_of_isLowerAscii {c : Char} (h : isLowerAscii c = true) : IsLower c where
  ne_sigma := by
    rintro rfl
    exact absurd h (by decide)
  ne_dotted := by
    rintro rfl
    exact absurd h (by decide)
  lowerChar_eq := lowerChar_eq_self h

theorem lowerFrom_eq_self {t : Text} (h : ∀ c ∈ t, IsLower c) (before : Text) :
    lowerFrom before t = t := by
  induction t generalizing before with
  | nil => rfl
  | cons c t ih =>
      obtain ⟨hc, ht⟩ := List.forall_mem_cons.mp h
      simp [lowerFrom, hc.ne_sigma, hc.ne_dotted, hc.lowerChar_eq, ih ht]

theorem lowerString_eq_self {s : String} (h : s.toList.all isLowerAscii = true) :
    lowerString s = s := by
  have hlower : ∀ c ∈ s.toList, IsLower c := fun c hc =>
    isLower_of_isLowerAscii (List.all_eq_true.mp h c hc)
  rw [lowerString, lower, lowerFrom_eq_self hlower, String.ofList_toList]

theorem lowerRuns_image :
    ∀ run ∈ CaseData.lowerRuns, 97 ≤ run.1 + run.2.2.2 ∧
      (run.2.1 + run.2.2.2 < 304 ∨ 304 < run.1 + run.2.2.2) ∧
      (run.2.1 + run.2.2.2 < 0xD800 ∨
        0xDFFF < run.1 + run.2.2.2 ∧ run.2.1 + run.2.2.2 < 0x110000) := by
  decide +kernel

/-- The lower-case forms of the run lie apart from the other run, or between its characters if it
leaves every second one out. -/
def liesApart (run other : Nat × Nat × Nat × Int) : Bool :=
  Nat.blt (run.2.1 + run.2.2.2).toNat other.1 || Nat.blt other.2.1 (run.1 + run.2.2.2).toNat ||
    (other.2.2.1 == 2 && (run.2.2.1 == 2 || run.1 == run.2.1) &&
      ((run.1 + run.2.2.2).toNat + other.1) % 2 == 1)

theorem lowerRuns_liesApart :
    (CaseData.lowerRuns.all fun run => CaseData.lowerRuns.all (liesApart run)) = true := by
  decide +kernel

structure Covers (run : Nat × Nat × Nat × Int) (c : Char) : Prop where
  first_le : run.1 ≤ c.toNat
  le_last : c.toNat ≤ run.2.1
  in_step : (c.toNat - run.1) % run.2.2.1 = 0

theorem lowerChar_cases (c : Char) :
    (lowerChar c = c ∧ ∀ run ∈ CaseData.lowerRuns, ¬Covers run c) ∨
      ∃ run ∈ CaseData.lowerRuns, Covers run c ∧
        ((lowerChar c).toNat : Int) = c.toNat + run.2.2.2 := by
  rw [lowerChar]
  split
  · next first last step shift hfind =>
      have hmem := List.mem_of_find?_eq_some hfind
      have hcovers := List.find?_some hfind
      simp only [Bool.and_eq_true, decide_eq_true_eq, beq_iff_eq] at hcovers
      refine Or.inr ⟨_, hmem, ⟨hcovers.1.1, hcovers.1.2, hcovers.2⟩, ?_⟩
      obtain ⟨hlow, -, hvalid⟩ := lowerRuns_image _ hmem
      simp only at hlow hvalid ⊢
      have hchar : (c.toNat + shift).toNat.isValidChar := by
        rw [Nat.isValidChar]
        omega
      rw [Char.ofNat, dif_pos hchar]
      change ((c.toNat + shift).toNat : Int) = _
      omega
  · next hnone =>
      refine Or.inl ⟨rfl, ?_⟩
      intro run hrun hcovers
      have hnot := List.find?_eq_none.mp hnone run hrun
      simp [hcovers.first_le, hcovers.le_last, hcovers.in_step] at hnot

theorem not_covers_lowerChar (c : Char) :
    ∀ run ∈ CaseData.lowerRuns, ¬Covers run (lowerChar c) := by
  rcases lowerChar_cases c with ⟨hself, hnone⟩ | ⟨run, hrun, hcovers, himage⟩
  · rwa [hself]
  · intro other hother hcovers'
    have hstep := hcovers.in_step
    have hstep' := hcovers'.in_step
    have hfirst := hcovers.first_le
    have hlast := hcovers.le_last
    have hfirst' := hcovers'.first_le
    have hlast' := hcovers'.le_last
    have hapart :=
      List.all_eq_true.mp (List.all_eq_true.mp lowerRuns_liesApart run hrun) other hother
    simp only [liesApart, Bool.or_eq_true, Bool.and_eq_true, Nat.blt_eq, beq_iff_eq] at hapart
    obtain ⟨hlow, -⟩ := lowerRuns_image run hrun
    rcases hapart with (hbefore | hbehind) | ⟨⟨htwo, hsparse⟩, hodd⟩
    · omega
    · omega
    · rw [htwo] at hstep'
      rcases hsparse with htwo' | hsingle
      · rw [htwo'] at hstep
        omega
      · omega

@[simp] theorem lowerChar_lowerChar (c : Char) : lowerChar (lowerChar c) = lowerChar c := by
  rcases lowerChar_cases (lowerChar c) with ⟨hself, -⟩ | ⟨run, hrun, hcovers, -⟩
  · exact hself
  · exact absurd hcovers (not_covers_lowerChar c run hrun)

theorem isLower_lowerChar {c : Char} (hdotted : c ≠ 'İ') : IsLower (lowerChar c) where
  ne_sigma := by
    intro hsigma
    have hcovers : Covers (0x3A3, 0x3AB, 1, 32) 'Σ' := ⟨by decide, by decide, by decide⟩
    exact not_covers_lowerChar c _ (by decide +kernel) (hsigma ▸ hcovers)
  ne_dotted := by
    intro hto
    rcases lowerChar_cases c with ⟨hself, -⟩ | ⟨run, hrun, hcovers, himage⟩
    · exact hdotted (hself.symm.trans hto)
    · have hcode : (lowerChar c).toNat = 304 := by rw [hto]; rfl
      have hfirst := hcovers.first_le
      have hlast := hcovers.le_last
      obtain ⟨-, houtside, -⟩ := lowerRuns_image run hrun
      omega
  lowerChar_eq := lowerChar_lowerChar c

theorem isLower_of_mem_lowerFrom {before t : Text} {c : Char} (h : c ∈ lowerFrom before t) :
    IsLower c := by
  induction t generalizing before with
  | nil => cases h
  | cons d t ih =>
      rw [lowerFrom, List.mem_append] at h
      rcases h with hhead | hrest
      · split at hhead
        · have hsmall : IsLower 'ς' ∧ IsLower 'σ' :=
            ⟨⟨by decide, by decide, by decide +kernel⟩, ⟨by decide, by decide, by decide +kernel⟩⟩
          rw [List.mem_singleton] at hhead
          split at hhead
          · exact hhead ▸ hsmall.1
          · exact hhead ▸ hsmall.2
        · split at hhead
          · have hsplit : IsLower 'i' ∧ IsLower '\u0307' :=
              ⟨isLower_of_isLowerAscii (by decide), ⟨by decide, by decide, by decide +kernel⟩⟩
            rcases (by simpa using hhead : c = 'i' ∨ c = '\u0307') with rfl | rfl
            · exact hsplit.1
            · exact hsplit.2
          · next hdotted =>
              rw [List.mem_singleton.mp hhead]
              exact isLower_lowerChar (by simpa using hdotted)
      · exact ih hrest

@[simp] theorem lowerString_lowerString (s : String) :
    lowerString (lowerString s) = lowerString s := by
  have hlower : ∀ c ∈ lower s.toList, IsLower c := fun c => isLower_of_mem_lowerFrom
  rw [lowerString, lowerString, String.toList_ofList, lower, lowerFrom_eq_self hlower]

theorem lowerChar_eq_iff_of_lt {c d : Char} (hd : d.toNat < 65) : lowerChar c = d ↔ c = d := by
  constructor
  · intro heq
    rcases lowerChar_cases c with ⟨hself, -⟩ | ⟨run, hrun, hcovers, himage⟩
    · exact hself.symm.trans heq
    · have hfirst := hcovers.first_le
      obtain ⟨hletters, -⟩ := lowerRuns_image run hrun
      rw [heq] at himage
      omega
  · rintro rfl
    apply lowerChar_eq_self
    simp only [isLowerAscii, Bool.and_eq_true, Bool.not_eq_true', Bool.and_eq_false_iff,
      decide_eq_true_eq, decide_eq_false_iff_not]
    omega

@[simp] theorem head?_lowerString (s : String) :
    (lowerString s).toList.head? = some '.' ↔ s.toList.head? = some '.' := by
  rw [lowerString, String.toList_ofList, lower]
  cases s.toList with
  | nil => rfl
  | cons c rest =>
      by_cases hsigma : c = 'Σ'
      · subst hsigma
        cases hfinal : isFinalSigma [] rest <;> simp [lowerFrom, hfinal]
      · by_cases hdotted : c = 'İ'
        · subst hdotted
          simp [lowerFrom]
        · simp [lowerFrom, hsigma, hdotted, lowerChar_eq_iff_of_lt (d := '.') (by decide)]

theorem lowerRuns_visible :
    ∀ run ∈ CaseData.lowerRuns,
      ∀ blanks ∈ [(0x85, 0x85), (0xA0, 0xA0), (0x1680, 0x1680), (0x2000, 0x205F), (0x3000, 0x3000)],
        run.2.1 + run.2.2.2 < (blanks.1 : Int) ∨ (blanks.2 : Int) < run.1 + run.2.2.2 := by
  decide +kernel

theorem isBlank_lowerChar {c : Char} (h : isBlank c = false) : isBlank (lowerChar c) = false := by
  rcases lowerChar_cases c with ⟨hself, -⟩ | ⟨run, hrun, hcovers, himage⟩
  · rwa [hself]
  · have hfirst := hcovers.first_le
    have hlast := hcovers.le_last
    obtain ⟨hletters, -⟩ := lowerRuns_image run hrun
    have hvisible := lowerRuns_visible run hrun
    simp only [List.forall_mem_cons] at hvisible
    simp [isBlank]
    omega

structure LowersTo (c : Char) (forms : Text) : Prop where
  ne_nil : forms ≠ []
  mem_iff : ∀ d : Char, d.toNat < 65 → (d ∈ forms ↔ d = c)
  isBlank : isBlank c = false → ∀ d ∈ forms, Text.isBlank d = false

theorem lowersTo_of_le {c : Char} {forms : Text} (hne : forms ≠ []) (hc : 65 ≤ c.toNat)
    (h : ∀ d ∈ forms, 65 ≤ d.toNat ∧ Text.isBlank d = false) : LowersTo c forms where
  ne_nil := hne
  mem_iff := by
    intro d hd
    apply iff_of_false
    · intro hmem
      have hletters := (h d hmem).1
      omega
    · rintro rfl
      omega
  isBlank := fun _ d hmem => (h d hmem).2

theorem exists_lowersTo (before : Text) (c : Char) (t : Text) :
    ∃ forms, LowersTo c forms ∧ lowerFrom before (c :: t) = forms ++ lowerFrom (c :: before) t := by
  refine ⟨_, ?_, lowerFrom.eq_2 before c t⟩
  split
  · next hsigma =>
      rw [eq_of_beq hsigma]
      refine lowersTo_of_le (List.cons_ne_nil _ _) (by decide) ?_
      intro d hd
      rw [List.mem_singleton.mp hd]
      split <;> decide
  · split
    · next hdotted =>
        rw [eq_of_beq hdotted]
        refine lowersTo_of_le (List.cons_ne_nil _ _) (by decide) ?_
        intro d hd
        rcases (by simpa using hd : d = 'i' ∨ d = '\u0307') with rfl | rfl <;> decide
    · refine ⟨List.cons_ne_nil _ _, ?_, ?_⟩
      · intro d hd
        rw [List.mem_singleton, eq_comm, lowerChar_eq_iff_of_lt hd, eq_comm]
      · intro hc d hd
        rw [List.mem_singleton.mp hd]
        exact isBlank_lowerChar hc

@[simp] theorem lowerFrom_eq_nil_iff {before t : Text} : lowerFrom before t = [] ↔ t = [] := by
  cases t with
  | nil => exact Iff.rfl
  | cons c t =>
      obtain ⟨forms, hforms, hlower⟩ := exists_lowersTo before c t
      simp [hlower, hforms.ne_nil]

theorem mem_lowerFrom_iff {d : Char} (hd : d.toNat < 65) (before t : Text) :
    d ∈ lowerFrom before t ↔ d ∈ t := by
  induction t generalizing before with
  | nil => exact Iff.rfl
  | cons c t ih =>
      obtain ⟨forms, hforms, hlower⟩ := exists_lowersTo before c t
      rw [hlower, List.mem_append, hforms.mem_iff d hd, ih, List.mem_cons]

theorem isBlank_getLast?_lowerFrom {t : Text} (h : ∀ c ∈ t.getLast?, isBlank c = false)
    (before : Text) : ∀ d ∈ (lowerFrom before t).getLast?, isBlank d = false := by
  induction t generalizing before with
  | nil => exact h
  | cons c t ih =>
      obtain ⟨forms, hforms, hlower⟩ := exists_lowersTo before c t
      rw [hlower]
      cases t with
      | nil =>
          intro d hd
          rw [lowerFrom, List.append_nil] at hd
          exact hforms.isBlank (h c rfl) d (List.mem_of_getLast? hd)
      | cons e t =>
          intro d hd
          rw [List.getLast?_append] at hd
          rcases Option.or_eq_some_iff.mp hd with hrest | ⟨hnone, -⟩
          · exact ih (by simpa using h) (c :: before) d hrest
          · exact absurd (lowerFrom_eq_nil_iff.mp (List.getLast?_eq_none_iff.mp hnone))
              (List.cons_ne_nil e t)

theorem isFinalSigma_append {d : Char} (hd : isCaseIgnorable d = true) (before after : Text) :
    isFinalSigma (before ++ [d]) after = isFinalSigma before after := by
  rw [isFinalSigma, isFinalSigma, List.dropWhile_append]
  cases hcased : before.dropWhile isCaseIgnorable with
  | nil => simp [hd]
  | cons c rest => simp

theorem lowerFrom_append {d : Char} (hd : isCaseIgnorable d = true) (before t : Text) :
    lowerFrom (before ++ [d]) t = lowerFrom before t := by
  induction t generalizing before with
  | nil => rfl
  | cons c t ih =>
      rw [lowerFrom, lowerFrom, isFinalSigma_append hd, ← List.cons_append, ih]

@[simp] theorem lower_dot (t : Text) : lower ('.' :: t) = '.' :: lower t := by
  have hbehind : lowerFrom ['.'] t = lowerFrom [] t := lowerFrom_append (by decide +kernel) [] t
  have hdot : lowerChar '.' = '.' := lowerChar_eq_self (by decide)
  rw [lower, lowerFrom, hbehind, hdot]
  rfl

end CommentSweep.Text
