import CommentSweep.Proofs.Strategy.Settled
import Mathlib

/-!
Texts cut at their comments. There is one way to cut a text so that every comment is taken at the
first opener and ends with the first closer behind it, and the deletion of comments keeps what this
cut leaves between them.
-/

namespace CommentSweep

namespace Comment

/-- A text cut at comments. Each comment stands between the text before it and the cut behind it. -/
inductive Cut where
  | ending (text : Text)
  | marked (before comment : Text) (behind : Cut)
  deriving DecidableEq, Repr

namespace Cut

def text : Cut → Text
  | .ending text => text
  | .marked before comment behind => before ++ (comment ++ behind.text)

def kept : Cut → Text
  | .ending text => text
  | .marked before _ behind => before ++ behind.kept

end Cut

/-- A whole comment: the first closer behind its opener is its end. -/
structure IsComment (opener closer comment : Text) : Prop where
  delimited : ∃ inside, comment = opener ++ (inside ++ closer)
  closes : ∀ inside behind, comment = opener ++ (inside ++ (closer ++ behind)) → behind = []

/-- No opener stands before a comment, and no whole comment behind the last one. -/
def Cut.IsLeftmost (opener closer : Text) : Cut → Prop
  | .ending text => ¬HasEnclosed opener closer text
  | .marked before comment behind =>
      ¬opener <:+: before ∧ IsComment opener closer comment ∧ behind.IsLeftmost opener closer

structure Cut.Divides (opener closer : Text) (cut : Cut) (t : Text) : Prop where
  text_eq : cut.text = t
  isLeftmost : cut.IsLeftmost opener closer

section

variable {opener closer : Text}

theorem find?_sound {word : Text} (hword : word ≠ []) {i j : Nat} {t : Text}
    (h : find? word i t = some j) :
    ∃ inside rest, t = inside ++ (word ++ rest) ∧ j = i + inside.length ∧
      ∀ before behind, inside ++ word = before ++ (word ++ behind) → behind = [] := by
  induction t generalizing i with
  | nil => simp [find?, hword] at h
  | cons c t ih =>
      rw [find?] at h
      split at h
      · next hfront =>
          obtain ⟨rest, hsplit⟩ := List.isPrefixOf_iff_prefix.mp hfront
          refine ⟨[], rest, hsplit.symm, (Option.some.inj h).symm, ?_⟩
          intro before behind heq
          have hlength := congrArg List.length heq
          simp only [List.length_append, List.length_nil] at hlength
          exact List.length_eq_zero_iff.mp (by omega)
      · next hfront =>
          rw [List.isPrefixOf_iff_prefix] at hfront
          obtain ⟨inside, rest, rfl, rfl, hfirst⟩ := ih h
          refine ⟨c :: inside, rest, rfl, by rw [List.length_cons]; omega, ?_⟩
          intro before behind heq
          cases before with
          | nil =>
              refine absurd ⟨behind ++ rest, ?_⟩ hfront
              rw [← List.append_assoc, ← List.nil_append (word ++ behind), ← heq]
              simp
          | cons d before =>
              injection heq with _ htail
              exact hfirst before behind htail

theorem exists_comment_of_span (hcloser : closer ≠ []) {t : Text} {n : Nat}
    (h : enclosed opener closer t = some n) :
    ∃ comment, IsComment opener closer comment ∧ t = comment ++ t.drop n := by
  rw [enclosed] at h
  split at h
  · next hfront =>
      obtain ⟨rest, rfl⟩ := List.isPrefixOf_iff_prefix.mp hfront
      rw [List.drop_left, Option.map_eq_some_iff] at h
      obtain ⟨j, hfind, rfl⟩ := h
      obtain ⟨inside, behind, rfl, rfl, hfirst⟩ := find?_sound hcloser hfind
      refine ⟨opener ++ (inside ++ closer), ⟨⟨inside, rfl⟩, ?_⟩, ?_⟩
      · intro before behind heq
        exact hfirst before behind (List.append_cancel_left heq)
      · have hlength : opener.length + inside.length + closer.length =
            (opener ++ (inside ++ closer)).length := by
          simp only [List.length_append]
          omega
        have hwhole : opener ++ (inside ++ (closer ++ behind)) =
            opener ++ (inside ++ closer) ++ behind := by simp
        rw [hwhole, hlength, List.drop_left]
  · cases h

def Cut.cons (c : Char) : Cut → Cut
  | .ending text => .ending (c :: text)
  | .marked before comment behind => .marked (c :: before) comment behind

@[simp] theorem Cut.text_cons (c : Char) (cut : Cut) : (cut.cons c).text = c :: cut.text := by
  cases cut <;> rfl

@[simp] theorem Cut.kept_cons (c : Char) (cut : Cut) : (cut.cons c).kept = c :: cut.kept := by
  cases cut <;> rfl

theorem hasEnclosed_of_comment {before comment : Text} (h : IsComment opener closer comment)
    (rest : Text) : HasEnclosed opener closer (before ++ (comment ++ rest)) := by
  obtain ⟨inside, rfl⟩ := h.delimited
  exact ⟨before, inside ++ closer ++ rest, by simp, ⟨inside, rest, rfl⟩⟩

theorem Cut.IsLeftmost.cons (hopener : opener ≠ []) (hcloser : closer ≠ []) {c : Char} {cut : Cut}
    (h : cut.IsLeftmost opener closer) (hkeep : ¬Opens (enclosed opener closer) (c :: cut.text)) :
    (cut.cons c).IsLeftmost opener closer := by
  cases cut with
  | ending text =>
      rw [Cut.cons, IsLeftmost, ← free_enclosed_iff hopener hcloser, free_cons_iff]
      exact ⟨hkeep, (free_enclosed_iff hopener hcloser).mpr h⟩
  | marked before comment behind =>
      obtain ⟨hbefore, hcomment, hbehind⟩ := h
      refine ⟨?_, hcomment, hbehind⟩
      rw [List.infix_cons_iff, not_or]
      refine ⟨?_, hbefore⟩
      rintro ⟨rest, hsplit⟩
      -- The closer of the comment behind would close this opener.
      apply hkeep
      rw [opens_enclosed_iff hcloser]
      refine ⟨rest ++ (comment ++ behind.text), ?_, ?_⟩
      · rw [← List.append_assoc, hsplit]
        rfl
      · obtain ⟨inside, rfl⟩ := hcomment.delimited
        exact ⟨rest ++ opener ++ inside, behind.text, by simp⟩

theorem exists_cut (hopener : opener ≠ []) (hcloser : closer ≠ []) (t : Text) :
    ∃ cut : Cut, cut.Divides opener closer t ∧ cut.kept = erase (enclosed opener closer) t := by
  induction t using erase_induction (enclosed opener closer) with
  | nil =>
      refine ⟨.ending [], ⟨rfl, ?_⟩, rfl⟩
      exact (free_enclosed_iff hopener hcloser).mp free_nil
  | comment c t n hspan ih =>
      obtain ⟨cut, ⟨htext, hleftmost⟩, hkept⟩ := ih
      obtain ⟨comment, hcomment, hsplit⟩ := exists_comment_of_span hcloser hspan
      rw [List.drop_succ_cons, ← htext] at hsplit
      refine ⟨.marked [] comment cut, ⟨hsplit.symm, ?_, hcomment, hleftmost⟩, ?_⟩
      · rw [List.infix_nil]
        exact hopener
      · rw [erase_comment hspan, ← hkept]
        rfl
  | keep c t hkeep ih =>
      obtain ⟨cut, ⟨rfl, hleftmost⟩, hkept⟩ := ih
      refine ⟨cut.cons c, ⟨cut.text_cons c, hleftmost.cons hopener hcloser hkeep⟩, ?_⟩
      simp [hkept, hkeep]

/-- No proper part of a word stands at both of its ends. -/
def Unbordered (word : Text) : Prop :=
  ∀ part ∈ word.tails, part <+: word → part = [] ∨ part = word

instance (word : Text) : Decidable (Unbordered word) :=
  inferInstanceAs (Decidable (∀ part ∈ word.tails, _))

theorem eq_nil_of_first {word before s t : Text} (hword : Unbordered word)
    (hbefore : ¬word <:+: before) (h : word ++ s = before ++ (word ++ t)) : before = [] := by
  rcases List.append_eq_append_iff.mp h with ⟨part, rfl, -⟩ | ⟨part, hsplit, hrest⟩
  · exact absurd (List.prefix_append word part).isInfix hbefore
  · have hend : part <:+ word := ⟨before, hsplit.symm⟩
    have hstart : part <+: word := by
      apply List.prefix_of_prefix_length_le (List.prefix_append part s) _ hend.length_le
      rw [← hrest]
      exact List.prefix_append word t
    rcases hword part ((List.mem_tails _ _).mpr hend) hstart with rfl | rfl
    · rw [List.append_nil] at hsplit
      rw [hsplit] at hbefore
      exact absurd (List.infix_refl before) hbefore
    · simpa using hsplit

theorem append_first_inj {word before before' s t : Text} (hword : Unbordered word)
    (hbefore : ¬word <:+: before) (hbefore' : ¬word <:+: before')
    (h : before ++ (word ++ s) = before' ++ (word ++ t)) : before = before' ∧ s = t := by
  have hsame : before = before' := by
    rcases List.append_eq_append_iff.mp h with ⟨more, rfl, hrest⟩ | ⟨more, rfl, hrest⟩
    · have hnone : ¬word <:+: more := fun hin =>
        hbefore' (hin.trans (List.suffix_append before more).isInfix)
      rw [eq_nil_of_first hword hnone hrest, List.append_nil]
    · have hnone : ¬word <:+: more := fun hin =>
        hbefore (hin.trans (List.suffix_append before' more).isInfix)
      rw [eq_nil_of_first hword hnone hrest, List.append_nil]
  subst hsame
  exact ⟨rfl, List.append_cancel_left (List.append_cancel_left h)⟩

theorem IsComment.eq_of_append_eq {comment comment' s t : Text}
    (h : IsComment opener closer comment) (h' : IsComment opener closer comment')
    (heq : comment ++ s = comment' ++ t) : comment = comment' ∧ s = t := by
  have hsame : comment = comment' := by
    obtain ⟨inside, hinside⟩ := h.delimited
    obtain ⟨inside', hinside'⟩ := h'.delimited
    rcases List.append_eq_append_iff.mp heq with ⟨more, hmore, -⟩ | ⟨more, hmore, -⟩
    · rw [hmore, h'.closes inside more (by rw [hmore, hinside]; simp), List.append_nil]
    · rw [hmore, h.closes inside' more (by rw [hmore, hinside']; simp), List.append_nil]
  subst hsame
  exact ⟨rfl, List.append_cancel_left heq⟩

theorem Cut.eq_of_text_eq (hopener : Unbordered opener) {cut other : Cut}
    (h : cut.IsLeftmost opener closer) (h' : other.IsLeftmost opener closer)
    (htext : cut.text = other.text) : cut = other := by
  induction cut generalizing other with
  | ending text =>
      cases other with
      | ending text' => exact congrArg Cut.ending htext
      | marked before comment behind =>
          rw [IsLeftmost, show text = before ++ (comment ++ behind.text) from htext] at h
          exact absurd (hasEnclosed_of_comment h'.2.1 behind.text) h
  | marked before comment behind ih =>
      obtain ⟨hbefore, hcomment, hbehind⟩ := h
      cases other with
      | ending text' =>
          rw [IsLeftmost, ← show before ++ (comment ++ behind.text) = text' from htext] at h'
          exact absurd (hasEnclosed_of_comment hcomment behind.text) h'
      | marked before' comment' behind' =>
          obtain ⟨hbefore', hcomment', hbehind'⟩ := h'
          obtain ⟨inside, hinside⟩ := hcomment.delimited
          obtain ⟨inside', hinside'⟩ := hcomment'.delimited
          have hopeners : before ++ (opener ++ (inside ++ closer ++ behind.text)) =
              before' ++ (opener ++ (inside' ++ closer ++ behind'.text)) := by
            simpa [Cut.text, hinside, hinside'] using htext
          obtain ⟨rfl, -⟩ := append_first_inj hopener hbefore hbefore' hopeners
          have hcomments : comment ++ behind.text = comment' ++ behind'.text :=
            List.append_cancel_left htext
          obtain ⟨rfl, hrest⟩ := hcomment.eq_of_append_eq hcomment' hcomments
          rw [ih hbehind hbehind' hrest]

theorem existsUnique_cut (hopener : opener ≠ []) (hcloser : closer ≠ [])
    (hborder : Unbordered opener) (t : Text) : ∃! cut : Cut, cut.Divides opener closer t := by
  obtain ⟨cut, hcut, -⟩ := exists_cut hopener hcloser t
  refine ⟨cut, hcut, ?_⟩
  intro other hother
  exact Cut.eq_of_text_eq hborder hother.isLeftmost hcut.isLeftmost
    (hother.text_eq.trans hcut.text_eq.symm)

theorem erase_eq_kept (hopener : opener ≠ []) (hcloser : closer ≠ []) (hborder : Unbordered opener)
    {cut : Cut} {t : Text} (h : cut.Divides opener closer t) :
    erase (enclosed opener closer) t = cut.kept := by
  obtain ⟨other, hother, hkept⟩ := exists_cut hopener hcloser t
  rw [← hkept, (existsUnique_cut hopener hcloser hborder t).unique hother h]

theorem erase_erase_enclosed (hopener : opener ≠ []) (hcloser : closer ≠ []) {t : Text}
    (h : ¬HasSeam opener t) :
    erase (enclosed opener closer) (erase (enclosed opener closer) t) =
      erase (enclosed opener closer) t :=
  erase_eq_self_iff.mpr (free_erase_enclosed hopener hcloser h)

theorem hasSeam_of_hasEnclosed (hopener : opener ≠ []) (hcloser : closer ≠ []) {t : Text}
    (h : HasEnclosed opener closer (erase (enclosed opener closer) t)) : HasSeam opener t := by
  by_contra hseam
  exact (free_enclosed_iff hopener hcloser).mp (free_erase_enclosed hopener hcloser hseam) h

theorem erase_enclosed_spec (hopener : opener ≠ []) (hcloser : closer ≠ [])
    (hborder : Unbordered opener) (t : Text) :
    (∃! cut : Cut, cut.Divides opener closer t) ∧
      (∀ cut : Cut, cut.Divides opener closer t →
        erase (enclosed opener closer) t = cut.kept) ∧
      (HasEnclosed opener closer (erase (enclosed opener closer) t) → HasSeam opener t) ∧
      (¬HasSeam opener t →
        erase (enclosed opener closer) (erase (enclosed opener closer) t) =
          erase (enclosed opener closer) t) :=
  ⟨existsUnique_cut hopener hcloser hborder t, fun _ => erase_eq_kept hopener hcloser hborder,
    hasSeam_of_hasEnclosed hopener hcloser, erase_erase_enclosed hopener hcloser⟩

end

end Comment

namespace Strategy

/-- A source has exactly one cut at its blocks and one at its markup comments, and what is stripped
are the comments of the cut. A comment can be left only where a part of an opener stood before a
whole one, and stripping again changes nothing anywhere else. -/
theorem strips_comments_of_unique_cut (source : Text) :
    ((∃! cut : Comment.Cut, cut.Divides ['/', '*'] ['*', '/'] source) ∧
      (∀ cut : Comment.Cut, cut.Divides ['/', '*'] ['*', '/'] source →
        block.strip source = cut.kept) ∧
      (Comment.HasEnclosed ['/', '*'] ['*', '/'] (block.strip source) →
        ['/', '/', '*'] <:+: source) ∧
      (¬['/', '/', '*'] <:+: source → block.strip (block.strip source) = block.strip source)) ∧
    ((∃! cut : Comment.Cut, cut.Divides ['<', '!', '-', '-'] ['-', '-', '>'] source) ∧
      (∀ cut : Comment.Cut, cut.Divides ['<', '!', '-', '-'] ['-', '-', '>'] source →
        markup.strip source = cut.kept) ∧
      (Comment.HasEnclosed ['<', '!', '-', '-'] ['-', '-', '>'] (markup.strip source) →
        ['<', '<', '!', '-', '-'] <:+: source ∨ ['<', '!', '<', '!', '-', '-'] <:+: source ∨
          ['<', '!', '-', '<', '!', '-', '-'] <:+: source) ∧
      (¬(['<', '<', '!', '-', '-'] <:+: source ∨ ['<', '!', '<', '!', '-', '-'] <:+: source ∨
          ['<', '!', '-', '<', '!', '-', '-'] <:+: source) →
        markup.strip (markup.strip source) = markup.strip source)) := by
  have hblock := Comment.erase_enclosed_spec (by simp) (by simp : ['*', '/'] ≠ [])
    (by decide : Comment.Unbordered ['/', '*']) source
  have hmarkup := Comment.erase_enclosed_spec (by simp) (by simp : ['-', '-', '>'] ≠ [])
    (by decide : Comment.Unbordered ['<', '!', '-', '-']) source
  rw [Comment.hasSeam_block_iff] at hblock
  rw [Comment.hasSeam_markup_iff] at hmarkup
  exact ⟨hblock, hmarkup⟩

end Strategy

end CommentSweep
