import CommentSweep.Proofs.Text.Gap
import Mathlib

/-!
Texts that differ in their blanks only. Closing gaps and finishing a text change no visible
character, and never bring two of them together that were apart or the reverse, so whatever can be
said in terms of visible words holds before them exactly if it holds after them.
-/

namespace CommentSweep.Text

def AllBlank (t : Text) : Prop :=
  ∀ c ∈ t, isBlank c = true

def AllVisible (t : Text) : Prop :=
  ∀ c ∈ t, isBlank c = false

theorem allVisible_of_all {t : Text} (h : t.all (!isBlank ·) = true) : AllVisible t := by
  intro c hc
  simpa using List.all_eq_true.mp h c hc

theorem allBlank_nil : AllBlank [] := by simp [AllBlank]

@[simp] theorem allBlank_cons_iff {c : Char} {t : Text} :
    AllBlank (c :: t) ↔ isBlank c = true ∧ AllBlank t :=
  List.forall_mem_cons

theorem AllBlank.append {s t : Text} (hs : AllBlank s) (ht : AllBlank t) : AllBlank (s ++ t) :=
  List.forall_mem_append.mpr ⟨hs, ht⟩

/-- Between visible characters both texts have blanks or neither of them has. -/
inductive Respaced : Text → Text → Prop
  | visible {c : Char} {t u : Text} (hc : isBlank c = false) (h : Respaced t u) :
      Respaced (c :: t) (c :: u)
  | blanks {s s' t u : Text} (hs : AllBlank s) (hs' : AllBlank s') (hne : s ≠ []) (hne' : s' ≠ [])
      (h : Respaced t u) : Respaced (s ++ t) (s' ++ u)
  | ending {s s' : Text} (hs : AllBlank s) (hs' : AllBlank s') : Respaced s s'

namespace Respaced

theorem symm {t u : Text} (h : Respaced t u) : Respaced u t := by
  induction h with
  | visible hc h ih => exact .visible hc ih
  | blanks hs hs' hne hne' h ih => exact .blanks hs' hs hne' hne ih
  | ending hs hs' => exact .ending hs' hs

theorem cons (c : Char) {t u : Text} (h : Respaced t u) : Respaced (c :: t) (c :: u) := by
  cases hc : isBlank c with
  | false => exact .visible hc h
  | true =>
      have hblank : AllBlank [c] := allBlank_cons_iff.mpr ⟨hc, allBlank_nil⟩
      exact .blanks hblank hblank (List.cons_ne_nil c []) (List.cons_ne_nil c []) h

theorem append (front : Text) {t u : Text} (h : Respaced t u) :
    Respaced (front ++ t) (front ++ u) := by
  induction front with
  | nil => exact h
  | cons c front ih => exact ih.cons c

theorem of_visible {c : Char} {t u : Text} (hc : isBlank c = false) (h : Respaced (c :: t) u) :
    ∃ u', u = c :: u' ∧ Respaced t u' := by
  generalize hwhole : c :: t = whole at h
  cases h with
  | visible hd h =>
      injection hwhole with hhead htail
      subst hhead htail
      exact ⟨_, rfl, h⟩
  | @blanks s s' t' u' hs hs' hne hne' h =>
      cases s with
      | nil => exact absurd rfl hne
      | cons d s =>
          injection hwhole with hhead htail
          rw [hhead, (allBlank_cons_iff.mp hs).1] at hc
          cases hc
  | ending hs hs' =>
      rw [← hwhole] at hs
      rw [(allBlank_cons_iff.mp hs).1] at hc
      cases hc

theorem of_word {word : Text} (hword : AllVisible word) {t u : Text}
    (h : Respaced (word ++ t) u) : ∃ u', u = word ++ u' ∧ Respaced t u' := by
  induction word generalizing u with
  | nil => exact ⟨u, rfl, h⟩
  | cons c word ih =>
      obtain ⟨hc, hword⟩ := List.forall_mem_cons.mp hword
      obtain ⟨u, rfl, htail⟩ := of_visible hc h
      obtain ⟨u, rfl, hrest⟩ := ih hword htail
      exact ⟨u, rfl, hrest⟩

theorem behind_blanks {c : Char} {word s t before rest : Text} (hs : AllBlank s)
    (hc : isBlank c = false) (h : s ++ t = before ++ (c :: word ++ rest)) :
    ∃ middle, t = middle ++ (c :: word ++ rest) := by
  induction s generalizing before with
  | nil => exact ⟨before, h⟩
  | cons d s ih =>
      obtain ⟨hd, hs⟩ := allBlank_cons_iff.mp hs
      cases before with
      | nil =>
          injection h with hhead
          rw [← hhead, hd] at hc
          cases hc
      | cons e before =>
          injection h with _ htail
          exact ih hs htail

/-- Wherever a word stands in one of the texts it stands in the other, and the rests behind it
differ in their blanks only. -/
theorem split_word {word : Text} (hword : AllVisible word) (hne : word ≠ [])
    {t u before rest : Text} (h : Respaced t u) (hsplit : t = before ++ (word ++ rest)) :
    ∃ before' rest', u = before' ++ (word ++ rest') ∧ Respaced rest rest' := by
  obtain ⟨c, tail, rfl⟩ := List.exists_cons_of_ne_nil hne
  have hc : isBlank c = false := hword c List.mem_cons_self
  induction h generalizing before with
  | @visible d t u hd h ih =>
      cases before with
      | nil =>
          have hwhole : Respaced (c :: tail ++ rest) (d :: u) := by
            rw [← hsplit.trans (List.nil_append _)]
            exact .visible hd h
          obtain ⟨rest', hu, hrest⟩ := of_word hword hwhole
          exact ⟨[], rest', hu, hrest⟩
      | cons e before =>
          injection hsplit with _ htail
          obtain ⟨before', rest', rfl, hrest⟩ := ih htail
          exact ⟨d :: before', rest', rfl, hrest⟩
  | @blanks s s' t u hs hs' hne hne' h ih =>
      obtain ⟨middle, ht⟩ := behind_blanks hs hc hsplit
      obtain ⟨before', rest', rfl, hrest⟩ := ih ht
      exact ⟨s' ++ before', rest', (List.append_assoc _ _ _).symm, hrest⟩
  | ending hs hs' =>
      have hblank := hs c (by rw [hsplit]; simp)
      rw [hblank] at hc
      cases hc

theorem infix_iff {word : Text} (hword : AllVisible word) (hne : word ≠ []) {t u : Text}
    (h : Respaced t u) : word <:+: t ↔ word <:+: u := by
  have hhalf {t u : Text} (h : Respaced t u) (hin : word <:+: t) : word <:+: u := by
    obtain ⟨before, rest, rfl⟩ := hin
    obtain ⟨before', rest', rfl, -⟩ := h.split_word hword hne (List.append_assoc _ _ _)
    exact ⟨before', rest', List.append_assoc _ _ _⟩
  exact ⟨hhalf h, hhalf h.symm⟩

theorem head?_eq_iff {c : Char} (hc : isBlank c = false) {t u : Text} (h : Respaced t u) :
    t.head? = some c ↔ u.head? = some c := by
  have hhalf {t u : Text} (h : Respaced t u) (hhead : t.head? = some c) : u.head? = some c := by
    obtain ⟨t, rfl⟩ := List.head?_eq_some_iff.mp hhead
    obtain ⟨u, rfl, -⟩ := of_visible hc h
    rfl
  exact ⟨hhalf h, hhalf h.symm⟩

end Respaced

theorem isBlank_of_isIndent {c : Char} (h : isIndent c = true) : isBlank c = true := by
  have hcases : c = ' ' ∨ c = '\t' := by simpa [isIndent] using h
  rcases hcases with rfl | rfl <;> decide

theorem isSolid_of_visible {c : Char} (h : isBlank c = false) : isSolid c = true := by
  rw [isSolid_iff]
  refine ⟨?_, ?_, ?_⟩
  · cases hindent : isIndent c with
    | false => rfl
    | true => rw [isBlank_of_isIndent hindent] at h; cases h
  · rintro rfl
    exact absurd h (by decide)
  · rintro rfl
    exact absurd h (by decide)

theorem IsNewline.allBlank {newline : Text} (h : IsNewline newline) : AllBlank newline := by
  have hlf : AllBlank ['\n'] := allBlank_cons_iff.mpr ⟨by decide, allBlank_nil⟩
  cases h with
  | lf => exact hlf
  | crlf => exact allBlank_cons_iff.mpr ⟨by decide, hlf⟩

theorem IsNewline.ne_nil {newline : Text} (h : IsNewline newline) : newline ≠ [] := by
  cases h <;> simp

theorem IsNewline.collapse_eq {newline : Text} (h : IsNewline newline) :
    collapse newline = newline := by
  cases h <;> rfl

theorem exists_blanks_behindBlanks (t : Text) :
    ∃ s, AllBlank s ∧ t = s ++ behindBlanks t := by
  induction t with
  | nil => exact ⟨[], allBlank_nil, rfl⟩
  | cons c t ih =>
      by_cases h : blanksAhead (c :: t) = 0
      · rw [behindBlanks_of_blanksAhead_eq_zero h]
        exact ⟨[], allBlank_nil, rfl⟩
      · obtain ⟨s, hs, ht⟩ := ih
        have hc : isBlank c = true := by
          rw [blanksAhead_cons] at h
          split at h
          · next hlf => rw [eq_of_beq hlf]; decide
          · split at h
            · next hblank =>
                rcases (Bool.or_eq_true _ _).mp hblank with hindent | hpair
                · exact isBlank_of_isIndent hindent
                · rw [eq_of_beq ((Bool.and_eq_true _ _).mp hpair).1]
                  decide
            · exact absurd rfl h
        rw [behindBlanks_cons h]
        exact ⟨c :: s, allBlank_cons_iff.mpr ⟨hc, hs⟩, congrArg (c :: ·) ht⟩

theorem respaced_collapse (t : Text) : Respaced t (collapse t) := by
  induction t using gap_induction with
  | nil => exact .ending allBlank_nil allBlank_nil
  | gap newline rest hnewline hblanks ih =>
      obtain ⟨s, hs, hrest⟩ := exists_blanks_behindBlanks rest
      rw [collapse_gap hnewline hblanks]
      have hsplit : newline ++ rest = newline ++ s ++ behindBlanks rest := by
        rw [List.append_assoc, ← hrest]
      rw [hsplit]
      have hne := hnewline.ne_nil
      exact .blanks (hnewline.allBlank.append hs) (hnewline.allBlank.append hnewline.allBlank)
        (by simp [hne]) (by simp [hne]) ih
  | keep c t hgap ih =>
      simpa [hgap] using ih.cons c

theorem blanksAhead_add_length_le (t : Text) :
    blanksAhead t + (behindBlanks t).length ≤ t.length := by
  induction t with
  | nil => exact Nat.le_refl 0
  | cons c t ih =>
      by_cases h : blanksAhead (c :: t) = 0
      · simp [h]
      · have hle : blanksAhead (c :: t) ≤ blanksAhead t + 1 := by
          rw [blanksAhead_cons]
          split
          · exact Nat.le_refl _
          · split <;> omega
        rw [behindBlanks_cons h, List.length_cons]
        omega

theorem length_collapse_le (t : Text) : (collapse t).length ≤ t.length := by
  induction t using gap_induction with
  | nil => exact Nat.le_refl 0
  | gap newline rest hnewline hblanks ih =>
      have hshort := blanksAhead_add_length_le rest
      have htwo : newline.length ≤ 2 := by cases hnewline <;> simp
      rw [collapse_gap hnewline hblanks]
      simp only [List.length_append]
      omega
  | keep c t hgap ih =>
      simpa [hgap] using Nat.succ_le_succ ih

theorem exists_blanks_trimStart (t : Text) : ∃ s, AllBlank s ∧ t = s ++ trimStart t := by
  refine ⟨t.takeWhile isBlank, ?_, List.takeWhile_append_dropWhile.symm⟩
  intro c hc
  exact List.mem_takeWhile_imp hc

theorem exists_blanks_trimEnd (t : Text) : ∃ s, AllBlank s ∧ t = trimEnd t ++ s := by
  obtain ⟨s, hs, hsplit⟩ := exists_blanks_trimStart t.reverse
  refine ⟨s.reverse, ?_, ?_⟩
  · intro c hc
    exact hs c (List.mem_reverse.mp hc)
  · rw [trimEnd, ← List.reverse_append]
    exact List.reverse_eq_iff.mp hsplit

theorem exists_last_trimEnd {t : Text} (h : trimEnd t ≠ []) :
    ∃ front c, isBlank c = false ∧ trimEnd t = front ++ [c] := by
  rw [trimEnd] at h ⊢
  have hne : t.reverse.dropWhile isBlank ≠ [] := by simpa using h
  obtain ⟨c, rest, hsplit⟩ := List.exists_cons_of_ne_nil hne
  refine ⟨rest.reverse, c, ?_, ?_⟩
  · have hhead := List.head_dropWhile_not isBlank hne
    simpa [hsplit] using hhead
  · rw [hsplit, List.reverse_cons]

theorem isNewline_finalNewline (body : Text) : IsNewline (finalNewline body) := by
  rw [finalNewline]
  split
  · exact .crlf
  · exact .lf

theorem finish_eq (t : Text) :
    finish t = if trim t = [] then [] else trim t ++ finalNewline (trim t) := by
  rw [finish]
  cases trim t with
  | nil => rfl
  | cons c rest => simp

theorem respaced_finish (t : Text) : Respaced (trimStart t) (finish t) := by
  obtain ⟨s, hs, hsplit⟩ := exists_blanks_trimEnd (trimStart t)
  rw [finish_eq]
  split
  · next hempty =>
      rw [trim] at hempty
      rw [hempty, List.nil_append] at hsplit
      rw [hsplit]
      exact .ending hs allBlank_nil
  · rw [hsplit, ← trim]
    exact (Respaced.ending hs (isNewline_finalNewline _).allBlank).append (trim t)

theorem not_hasGap_of_infix {t u : Text} (h : t <:+: u) (hu : ¬HasGap u) : ¬HasGap t := by
  obtain ⟨before, after, rfl⟩ := h
  intro hgap
  rw [List.append_assoc] at hu
  exact hu (hgap.append before after)

theorem isInfix_trim (t : Text) : trim t <:+: t := by
  obtain ⟨s, -, hstart⟩ := exists_blanks_trimStart t
  obtain ⟨s', -, hend⟩ := exists_blanks_trimEnd (trimStart t)
  refine ⟨s, s', ?_⟩
  rw [List.append_assoc, trim, ← hend, ← hstart]

theorem collapse_finish {t : Text} (h : ¬HasGap t) : collapse (finish t) = finish t := by
  rw [finish_eq]
  split
  · rfl
  · next hne =>
      obtain ⟨front, c, hc, hlast⟩ := exists_last_trimEnd (t := trimStart t) hne
      have hbody : trim t = front ++ [c] := hlast
      have hfront : ¬HasGap front := by
        refine not_hasGap_of_infix (List.IsInfix.trans ?_ (isInfix_trim t)) h
        rw [hbody]
        exact (List.prefix_append front [c]).isInfix
      have hend := (isNewline_finalNewline (trim t)).collapse_eq
      rw [hbody] at hend ⊢
      rw [List.append_assoc, List.singleton_append, collapse_append_solid (isSolid_of_visible hc),
        collapse_eq_self_iff.mpr hfront, hend]

end CommentSweep.Text
