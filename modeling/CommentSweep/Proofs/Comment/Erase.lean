import CommentSweep.Strategy
import CommentSweep.Proofs.Text.Respaced
import Mathlib

/-!
What the deletion of comments leaves. Deletion changes nothing exactly where no comment starts. It
can bring together what the comments kept apart, and so make a comment that was not there before;
what it leaves is free of comments wherever that cannot happen.
-/

namespace CommentSweep.Comment

def Opens (span : Span) (t : Text) : Prop :=
  ∃ n, span t = some (n + 1)

def Free (span : Span) (t : Text) : Prop :=
  ∀ c u, c :: u <:+ t → ¬Opens span (c :: u)

variable {span : Span}

theorem eraseFrom_eq (span : Span) (out : Text) (skip : Nat) (t : Text) :
    eraseFrom span out skip t = out.reverse ++ eraseFrom span [] skip t := by
  induction t generalizing out skip with
  | nil => cases skip <;> simp [eraseFrom]
  | cons c t ih =>
      cases skip with
      | succ skip =>
          rw [eraseFrom, eraseFrom]
          exact ih out skip
      | zero =>
          have hkeep : eraseFrom span (c :: out) 0 t =
              out.reverse ++ eraseFrom span [c] 0 t := by
            rw [ih, ih [c]]
            simp
          rw [eraseFrom, eraseFrom]
          cases span (c :: t) with
          | none => exact hkeep
          | some n =>
              cases n with
              | zero => exact hkeep
              | succ n => exact ih out n

theorem eraseFrom_skip (span : Span) (skip : Nat) (t : Text) :
    eraseFrom span [] skip t = erase span (t.drop skip) := by
  induction t generalizing skip with
  | nil => cases skip <;> rfl
  | cons c t ih =>
      cases skip with
      | zero => rfl
      | succ skip =>
          rw [eraseFrom, List.drop_succ_cons]
          exact ih skip

theorem erase_comment {c : Char} {t : Text} {n : Nat} (h : span (c :: t) = some (n + 1)) :
    erase span (c :: t) = erase span (t.drop n) := by
  rw [erase, eraseFrom, h]
  exact eraseFrom_skip span n t

@[simp] theorem erase_cons {c : Char} {t : Text} (h : ¬Opens span (c :: t)) :
    erase span (c :: t) = c :: erase span t := by
  have hkeep : eraseFrom span [c] 0 t = c :: erase span t := eraseFrom_eq span [c] 0 t
  rw [erase, eraseFrom]
  cases hspan : span (c :: t) with
  | none => exact hkeep
  | some n =>
      cases n with
      | zero => exact hkeep
      | succ n => exact absurd ⟨n, hspan⟩ h

/-- Induction along a deletion: a comment is passed as a whole, and any other character by itself.
-/
theorem erase_induction (span : Span) {motive : Text → Prop} (nil : motive [])
    (comment : ∀ c t n, span (c :: t) = some (n + 1) → motive (t.drop n) → motive (c :: t))
    (keep : ∀ c t, ¬Opens span (c :: t) → motive t → motive (c :: t)) (t : Text) : motive t := by
  induction hlength : t.length using Nat.strongRecOn generalizing t with
  | ind length ih =>
      cases t with
      | nil => exact nil
      | cons c t =>
          rw [List.length_cons] at hlength
          by_cases hopens : Opens span (c :: t)
          · obtain ⟨n, hspan⟩ := hopens
            refine comment c t n hspan (ih _ ?_ (t.drop n) rfl)
            rw [List.length_drop]
            omega
          · exact keep c t hopens (ih t.length (by omega) t rfl)

theorem erase_sublist (span : Span) (t : Text) : (erase span t).Sublist t := by
  induction t using erase_induction span with
  | nil => exact List.Sublist.refl []
  | comment c t n hspan ih =>
      rw [erase_comment hspan]
      exact (ih.trans (List.drop_sublist n t)).cons c
  | keep c t hopens ih =>
      simpa [hopens] using ih.cons_cons c

theorem free_nil : Free span [] := by
  intro c u hsuffix
  exact absurd (List.suffix_nil.mp hsuffix) (List.cons_ne_nil c u)

@[simp] theorem free_cons_iff {c : Char} {t : Text} :
    Free span (c :: t) ↔ ¬Opens span (c :: t) ∧ Free span t := by
  constructor
  · intro h
    exact ⟨h c t (List.suffix_refl _),
      fun d u hsuffix => h d u (hsuffix.trans (List.suffix_cons c t))⟩
  · intro h d u hsuffix
    rcases List.suffix_cons_iff.mp hsuffix with heq | hrest
    · rw [heq]
      exact h.1
    · exact h.2 d u hrest

theorem Free.of_suffix {t u : Text} (h : Free span t) (hsuffix : u <:+ t) : Free span u :=
  fun c v hin => h c v (hin.trans hsuffix)

@[simp] theorem erase_eq_self_iff {t : Text} : erase span t = t ↔ Free span t := by
  induction t with
  | nil => exact iff_of_true rfl free_nil
  | cons c t ih =>
      rw [free_cons_iff, ← ih]
      by_cases hopens : Opens span (c :: t)
      · obtain ⟨n, hspan⟩ := hopens
        have hlength := (erase_sublist span (t.drop n)).length_le
        rw [List.length_drop] at hlength
        rw [erase_comment hspan]
        refine iff_of_false ?_ ?_
        · intro heq
          rw [heq, List.length_cons] at hlength
          omega
        · intro h
          exact h.1 ⟨n, hspan⟩
      · rw [erase_cons hopens]
        simp [hopens]

section LineEnd

variable {opener : Text} (hopener : opener ≠ [])

include hopener

@[simp] theorem opens_toLineEnd_iff {t : Text} : Opens (toLineEnd opener) t ↔ opener <+: t := by
  have hpos := List.length_pos_of_ne_nil hopener
  rw [Opens, toLineEnd]
  constructor
  · rintro ⟨n, hspan⟩
    split at hspan
    · next hfront => exact List.isPrefixOf_iff_prefix.mp hfront
    · cases hspan
  · intro hfront
    rw [if_pos (List.isPrefixOf_iff_prefix.mpr hfront)]
    generalize (List.takeWhile _ _).length = rest
    exact ⟨opener.length - 1 + rest, by congr 1; omega⟩

@[simp] theorem free_toLineEnd_iff {t : Text} : Free (toLineEnd opener) t ↔ ¬opener <:+: t := by
  induction t with
  | nil =>
      refine iff_of_true free_nil ?_
      rw [List.infix_nil]
      exact hopener
  | cons c t ih => rw [free_cons_iff, ih, opens_toLineEnd_iff hopener, List.infix_cons_iff, not_or]

end LineEnd

theorem isLineEnd_behind {opener : Text} {c d : Char} {t rest : Text} {n : Nat}
    (hspan : toLineEnd opener (c :: t) = some (n + 1)) (hrest : t.drop n = d :: rest) :
    isLineEnd d = true := by
  rw [toLineEnd] at hspan
  split at hspan
  · have hsplit := List.takeWhile_append_dropWhile (p := (!isLineEnd ·))
      (l := (c :: t).drop opener.length)
    have hdrop : t.drop n = ((c :: t).drop opener.length).dropWhile (!isLineEnd ·) := by
      rw [← List.drop_succ_cons, ← Option.some.inj hspan, ← List.drop_drop]
      nth_rewrite 2 [← hsplit]
      exact List.drop_left
    have hne : ((c :: t).drop opener.length).dropWhile (!isLineEnd ·) ≠ [] := by
      rw [← hdrop, hrest]
      exact List.cons_ne_nil d rest
    have hhead := List.head_dropWhile_not (!isLineEnd ·) hne
    simp only [← hdrop, hrest, List.head_cons] at hhead
    simpa using hhead
  · cases hspan

section LineEnd

variable {opener : Text} (hne : opener ≠ []) (hopener : ∀ c ∈ opener, isLineEnd c = false)

include hne hopener

/-- What stands together in what a pass over line comments leaves stood together before it, since a
comment is followed by the end of its line. -/
theorem prefix_of_prefix_erase {word t : Text} (hword : ∀ c ∈ word, isLineEnd c = false)
    (h : word <+: erase (toLineEnd opener) t) : word <+: t := by
  induction word generalizing t with
  | nil => exact List.nil_prefix
  | cons d word ih =>
      obtain ⟨hd, hword⟩ := List.forall_mem_cons.mp hword
      cases t with
      | nil => exact h
      | cons c t =>
          by_cases hopens : Opens (toLineEnd opener) (c :: t)
          · obtain ⟨n, hspan⟩ := hopens
            rw [erase_comment hspan] at h
            cases hrest : t.drop n with
            | nil =>
                rw [hrest] at h
                exact absurd (List.prefix_nil.mp h) (List.cons_ne_nil d word)
            | cons e rest =>
                have he : isLineEnd e = true := isLineEnd_behind hspan hrest
                have hkeep : ¬Opens (toLineEnd opener) (e :: rest) := by
                  rw [opens_toLineEnd_iff hne]
                  intro hfront
                  obtain ⟨o, tail, rfl⟩ := List.exists_cons_of_ne_nil hne
                  rw [List.cons_prefix_cons] at hfront
                  rw [← hfront.1, hopener o List.mem_cons_self] at he
                  cases he
                rw [hrest, erase_cons hkeep, List.cons_prefix_cons] at h
                rw [← h.1, hd] at he
                cases he
          · rw [erase_cons hopens, List.cons_prefix_cons] at h
            rw [List.cons_prefix_cons]
            exact ⟨h.1, ih hword h.2⟩

theorem infix_of_infix_erase {word t : Text} (hword : ∀ c ∈ word, isLineEnd c = false)
    (h : word <:+: erase (toLineEnd opener) t) : word <:+: t := by
  induction t using erase_induction (toLineEnd opener) with
  | nil => exact h
  | comment c t n hspan ih =>
      rw [erase_comment hspan] at h
      exact (ih h).trans ((List.drop_suffix n t).trans (List.suffix_cons c t)).isInfix
  | keep c t hopens ih =>
      have hwhole := erase_cons hopens
      rw [hwhole, List.infix_cons_iff, ← hwhole] at h
      rcases h with hfront | hrest
      · exact (prefix_of_prefix_erase hne hopener hword hfront).isInfix
      · exact (ih hrest).trans (List.suffix_cons c t).isInfix

theorem free_erase_toLineEnd (t : Text) : Free (toLineEnd opener) (erase (toLineEnd opener) t) := by
  induction t using erase_induction (toLineEnd opener) with
  | nil => exact free_nil
  | comment c t n hspan ih =>
      rw [erase_comment hspan]
      exact ih
  | keep c t hopens ih =>
      have hwhole := erase_cons hopens
      rw [hwhole, free_cons_iff, ← hwhole]
      refine ⟨?_, ih⟩
      rw [opens_toLineEnd_iff hne] at hopens ⊢
      intro hfront
      exact hopens (prefix_of_prefix_erase hne hopener hopener hfront)

end LineEnd

def HasEnclosed (opener closer t : Text) : Prop :=
  ∃ before rest, t = before ++ (opener ++ rest) ∧ closer <:+: rest

theorem exists_find?_iff {word : Text} (hne : word ≠ []) {i : Nat} {t : Text} :
    (∃ j, find? word i t = some j) ↔ word <:+: t := by
  induction t generalizing i with
  | nil =>
      rw [find?, List.infix_nil]
      simp [hne]
  | cons c t ih =>
      rw [find?, List.infix_cons_iff, ← List.isPrefixOf_iff_prefix]
      split
      · next hfront => simp [hfront]
      · next hfront => simpa [hfront] using ih

theorem opens_enclosed_iff {opener closer : Text} (hcloser : closer ≠ []) {t : Text} :
    Opens (enclosed opener closer) t ↔ ∃ rest, t = opener ++ rest ∧ closer <:+: rest := by
  have hpos := List.length_pos_of_ne_nil hcloser
  rw [Opens, enclosed]
  constructor
  · rintro ⟨n, hspan⟩
    split at hspan
    · next hfront =>
        obtain ⟨rest, rfl⟩ := List.isPrefixOf_iff_prefix.mp hfront
        rw [List.drop_left, Option.map_eq_some_iff] at hspan
        obtain ⟨j, hfind, -⟩ := hspan
        exact ⟨rest, rfl, (exists_find?_iff hcloser).mp ⟨j, hfind⟩⟩
    · cases hspan
  · rintro ⟨rest, rfl, hrest⟩
    obtain ⟨j, hfind⟩ := (exists_find?_iff (i := opener.length) hcloser).mpr hrest
    rw [if_pos (List.isPrefixOf_iff_prefix.mpr (List.prefix_append opener rest)), List.drop_left,
      hfind]
    exact ⟨j + closer.length - 1, by rw [Option.map_some]; congr 1; omega⟩

theorem opens_enclosed_of_erase {lineOpener opener closer t : Text} (hne : lineOpener ≠ [])
    (hline : ∀ c ∈ lineOpener, isLineEnd c = false) (hcloser : closer ≠ [])
    (hopener : ∀ c ∈ opener, isLineEnd c = false) (hcloser' : ∀ c ∈ closer, isLineEnd c = false)
    (hleaves : ∀ u, erase (toLineEnd lineOpener) (opener ++ u) =
      opener ++ erase (toLineEnd lineOpener) u)
    (h : Opens (enclosed opener closer) (erase (toLineEnd lineOpener) t)) :
    Opens (enclosed opener closer) t := by
  obtain ⟨rest, hsplit, hrest⟩ := (opens_enclosed_iff hcloser).mp h
  have hfront : opener <+: t := prefix_of_prefix_erase hne hline hopener ⟨rest, hsplit.symm⟩
  obtain ⟨behind, rfl⟩ := hfront
  rw [hleaves] at hsplit
  rw [← List.append_cancel_left hsplit] at hrest
  exact (opens_enclosed_iff hcloser).mpr
    ⟨behind, rfl, infix_of_infix_erase hne hline hcloser' hrest⟩

/-- A part of an opener stands right before a whole one, so that the part can be completed when the
comment between is deleted. -/
def HasSeam (opener t : Text) : Prop :=
  ∃ i, 0 < i ∧ i < opener.length ∧ opener.take i ++ opener <:+: t

theorem hasSeam_of_split {opener p q t : Text} (hp : p ≠ []) (hq : q ≠ [])
    (hsplit : p ++ q = opener) (hseam : p ++ opener <:+: t) : HasSeam opener t := by
  subst hsplit
  have hlength := List.length_pos_of_ne_nil hq
  refine ⟨p.length, List.length_pos_of_ne_nil hp, ?_, ?_⟩
  · rw [List.length_append]
    omega
  · rw [List.take_left]
    exact hseam

theorem HasSeam.mono {opener t u : Text} (h : HasSeam opener t) (hwithin : t <:+: u) :
    HasSeam opener u := by
  obtain ⟨i, hpos, hlt, hseam⟩ := h
  exact ⟨i, hpos, hlt, hseam.trans hwithin⟩

section Enclosed

variable {opener closer : Text}

theorem completes_of_prefix_erase (hcloser : closer ≠ []) {p q t : Text} (hp : p ≠ [])
    (hsplit : p ++ q = opener) (hseam : ¬HasSeam opener (p ++ t))
    (h : q <+: erase (enclosed opener closer) t) : q <+: t := by
  induction q generalizing p t with
  | nil => exact List.nil_prefix
  | cons d q ih =>
      cases t with
      | nil => exact h
      | cons c t =>
          by_cases hopens : Opens (enclosed opener closer) (c :: t)
          · obtain ⟨rest, ht, -⟩ := (opens_enclosed_iff hcloser).mp hopens
            refine absurd (hasSeam_of_split hp (List.cons_ne_nil d q) hsplit ?_) hseam
            rw [ht, ← List.append_assoc]
            exact (List.prefix_append _ rest).isInfix
          · rw [erase_cons hopens, List.cons_prefix_cons] at h
            obtain ⟨rfl, h⟩ := h
            rw [List.cons_prefix_cons]
            refine ⟨rfl, @ih (p ++ [d]) t (by simp) (by simpa using hsplit) ?_ h⟩
            rw [List.append_assoc]
            exact hseam

variable (hopener : opener ≠ []) (hcloser : closer ≠ [])

include hopener hcloser

@[simp] theorem free_enclosed_iff {t : Text} :
    Free (enclosed opener closer) t ↔ ¬HasEnclosed opener closer t := by
  constructor
  · rintro hfree ⟨before, rest, rfl, hrest⟩
    obtain ⟨c, tail, rfl⟩ := List.exists_cons_of_ne_nil hopener
    exact hfree c (tail ++ rest) (List.suffix_append _ _)
      ((opens_enclosed_iff hcloser).mpr ⟨rest, rfl, hrest⟩)
  · intro hnone c u hsuffix hopens
    obtain ⟨before, rfl⟩ := hsuffix
    obtain ⟨rest, hu, hrest⟩ := (opens_enclosed_iff hcloser).mp hopens
    exact hnone ⟨before, rest, by rw [hu], hrest⟩

theorem free_of_unclosed {rest : Text} (hrest : ¬closer <:+: rest)
    (hseam : ¬HasSeam opener (opener ++ rest)) :
    Free (enclosed opener closer) (opener ++ rest) := by
  rw [free_enclosed_iff hopener hcloser]
  rintro ⟨before, behind, hsplit, hbehind⟩
  rcases List.append_eq_append_iff.mp hsplit with ⟨middle, rfl, hin⟩ | ⟨q, hbefore, hin⟩
  · apply hrest
    rw [hin]
    exact hbehind.trans ((List.suffix_append opener behind).trans
      (List.suffix_append middle _)).isInfix
  · by_cases hempty : before = []
    · rw [hempty, List.nil_append] at hsplit
      rw [List.append_cancel_left hsplit] at hrest
      exact hrest hbehind
    by_cases hq : q = []
    · rw [hq, List.nil_append] at hin
      apply hrest
      rw [← hin]
      exact hbehind.trans (List.suffix_append opener behind).isInfix
    · refine hseam (hasSeam_of_split hempty hq hbefore.symm ?_)
      rw [hsplit, ← List.append_assoc]
      exact (List.prefix_append _ behind).isInfix

/-- What the deletion of comments leaves is free of them, unless a part of an opener stood right
before a whole one. -/
theorem free_erase_enclosed {t : Text} (hseam : ¬HasSeam opener t) :
    Free (enclosed opener closer) (erase (enclosed opener closer) t) := by
  induction t using erase_induction (enclosed opener closer) with
  | nil => exact free_nil
  | comment c t n hspan ih =>
      rw [erase_comment hspan]
      refine ih fun h => hseam (h.mono ?_)
      exact ((List.drop_suffix n t).trans (List.suffix_cons c t)).isInfix
  | keep c t hopens ih =>
      have hkept := erase_cons hopens
      rw [hkept, free_cons_iff]
      refine ⟨?_, ih fun h => hseam (h.mono (List.suffix_cons c t).isInfix)⟩
      intro hagain
      obtain ⟨rest', hsplit, -⟩ := (opens_enclosed_iff hcloser).mp hagain
      have hstood : ∃ rest, c :: t = opener ++ rest := by
        obtain ⟨o, tail, rfl⟩ := List.exists_cons_of_ne_nil hopener
        injection hsplit with hhead htail
        subst hhead
        have hfront : tail <+: t := completes_of_prefix_erase hcloser (p := [c]) (by simp)
          rfl hseam ⟨rest', htail.symm⟩
        obtain ⟨rest, rfl⟩ := hfront
        exact ⟨rest, rfl⟩
      obtain ⟨rest, hwhole⟩ := hstood
      have hunclosed : ¬closer <:+: rest := fun hrest =>
        hopens ((opens_enclosed_iff hcloser).mpr ⟨rest, hwhole, hrest⟩)
      rw [hwhole] at hseam
      have hfree := free_of_unclosed hopener hcloser hunclosed hseam
      rw [← hwhole, ← erase_eq_self_iff, hkept] at hfree
      rw [hfree] at hagain
      exact hopens hagain

theorem hasEnclosed_respaced_iff (hvisible : Text.AllVisible opener)
    (hvisible' : Text.AllVisible closer) {t u : Text} (h : Text.Respaced t u) :
    HasEnclosed opener closer t ↔ HasEnclosed opener closer u := by
  have hhalf {t u : Text} (h : Text.Respaced t u) (henclosed : HasEnclosed opener closer t) :
      HasEnclosed opener closer u := by
    obtain ⟨before, rest, hsplit, hrest⟩ := henclosed
    obtain ⟨before', rest', hsplit', hrests⟩ := h.split_word hvisible hopener hsplit
    exact ⟨before', rest', hsplit', (hrests.infix_iff hvisible' hcloser).mp hrest⟩
  exact ⟨hhalf h, hhalf h.symm⟩

end Enclosed

@[simp] theorem hasSeam_block_iff {t : Text} : HasSeam ['/', '*'] t ↔ ['/', '/', '*'] <:+: t := by
  constructor
  · rintro ⟨i, hpos, hlt, hseam⟩
    obtain rfl : i = 1 := by
      simp only [List.length_cons, List.length_nil] at hlt
      omega
    exact hseam
  · intro hseam
    exact ⟨1, by simp, by simp, hseam⟩

@[simp] theorem hasSeam_markup_iff {t : Text} :
    HasSeam ['<', '!', '-', '-'] t ↔
      ['<', '<', '!', '-', '-'] <:+: t ∨ ['<', '!', '<', '!', '-', '-'] <:+: t ∨
        ['<', '!', '-', '<', '!', '-', '-'] <:+: t := by
  constructor
  · rintro ⟨i, hpos, hlt, hseam⟩
    have hcases : i = 1 ∨ i = 2 ∨ i = 3 := by
      simp only [List.length_cons, List.length_nil] at hlt
      omega
    rcases hcases with rfl | rfl | rfl
    · exact .inl hseam
    · exact .inr (.inl hseam)
    · exact .inr (.inr hseam)
  · rintro (hseam | hseam | hseam)
    · exact ⟨1, by simp, by simp, hseam⟩
    · exact ⟨2, by simp, by simp, hseam⟩
    · exact ⟨3, by simp, by simp, hseam⟩

theorem free_erase_block {t : Text} (h : ¬HasSeam ['/', '*'] t) : Free block (erase block t) :=
  free_erase_enclosed (by simp) (by simp) h

theorem free_erase_markup {t : Text} (h : ¬HasSeam ['<', '!', '-', '-'] t) :
    Free markup (erase markup t) :=
  free_erase_enclosed (by simp) (by simp) h

/-- The deletion of blocks makes no `//`, because neither side of a block can have a slash there. -/
theorem not_infix_slashes_erase_block {t : Text} (h : ¬['/', '/'] <:+: t) :
    ¬['/', '/'] <:+: erase block t := by
  induction t using erase_induction block with
  | nil => exact h
  | comment c t n hspan ih =>
      rw [erase_comment hspan]
      refine ih fun hwithin => h (hwithin.trans ?_)
      exact ((List.drop_suffix n t).trans (List.suffix_cons c t)).isInfix
  | keep c t hopens ih =>
      rw [erase_cons hopens, List.infix_cons_iff, not_or]
      refine ⟨?_, ih fun hwithin => h (hwithin.trans (List.suffix_cons c t).isInfix)⟩
      intro hfront
      rw [List.cons_prefix_cons] at hfront
      obtain ⟨rfl, hnext⟩ := hfront
      have hslash : ['/'] <+: t := by
        cases t with
        | nil => exact hnext
        | cons d t =>
            by_cases hblock : Opens block (d :: t)
            · obtain ⟨rest, hsplit, -⟩ := (opens_enclosed_iff (by simp)).mp hblock
              rw [hsplit]
              exact ⟨'*' :: rest, rfl⟩
            · rw [erase_cons hblock, List.cons_prefix_cons] at hnext
              rw [List.cons_prefix_cons]
              exact ⟨hnext.1, List.nil_prefix⟩
      exact h (List.cons_prefix_cons.mpr ⟨rfl, hslash⟩).isInfix

theorem erase_hash_append {word : Text} (hword : '#' ∉ word) (t : Text) :
    erase hash (word ++ t) = word ++ erase hash t := by
  induction word with
  | nil => rfl
  | cons c word ih =>
      rw [List.mem_cons, not_or] at hword
      have hkeep : ¬Opens hash (c :: (word ++ t)) := by
        rw [hash, opens_toLineEnd_iff (by simp), List.cons_prefix_cons]
        exact fun hfront => hword.1 hfront.1
      simp [hkeep, ih hword.2]

theorem not_infix_erase_hash {word t : Text} (hword : ∀ c ∈ word, isLineEnd c = false)
    (h : ¬word <:+: t) : ¬word <:+: erase hash t := by
  intro hwithin
  exact h (infix_of_infix_erase (by simp) (by simp [isLineEnd]) hword hwithin)

theorem free_block_erase_hash {t : Text} (h : Free block t) : Free block (erase hash t) := by
  induction t using erase_induction hash with
  | nil => exact free_nil
  | comment c t n hspan ih =>
      rw [erase_comment hspan]
      exact ih (h.of_suffix ((List.drop_suffix n t).trans (List.suffix_cons c t)))
  | keep c t hkeep ih =>
      have hkept := erase_cons hkeep
      rw [free_cons_iff] at h
      rw [hkept, free_cons_iff, ← hkept]
      refine ⟨fun hopens => h.1 ?_, ih h.2⟩
      exact opens_enclosed_of_erase (by simp) (by simp [isLineEnd]) (by simp) (by simp [isLineEnd])
        (by simp [isLineEnd]) (erase_hash_append (by simp)) hopens

end CommentSweep.Comment
