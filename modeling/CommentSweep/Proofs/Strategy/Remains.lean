import CommentSweep.Proofs.Strategy.Endings
import CommentSweep.Proofs.Text.Units
import Mathlib

/-!
What strategies leave of a text. It is a subsequence, in which a `\r\n` stays in one piece where
every line ends so, and it has fewer visible characters unless it is the whole text.
-/

namespace CommentSweep

namespace Text

theorem units_drop_sublist (front : Text) {t : Text}
    (h : front.getLast? = some '\r' → t.head? ≠ some '\n') :
    (units t).Sublist (units (front ++ t)) := by
  rw [units_append h]
  exact List.sublist_append_right _ _

theorem units_append_sublist {t u : Text} (h : (units u).Sublist (units t))
    (hhead : t.head? = some '\n' ↔ u.head? = some '\n') (front : Text) :
    (units (front ++ u)).Sublist (units (front ++ t)) := by
  induction front with
  | nil => exact h
  | cons c front ih =>
      have hheads : (front ++ t).head? = some '\n' ↔ (front ++ u).head? = some '\n' := by
        cases front with
        | nil => exact hhead
        | cons d front => simp
      rw [List.cons_append, List.cons_append]
      generalize front ++ t = t at ih hheads
      generalize front ++ u = u at ih hheads
      by_cases hpair : c = '\r' ∧ t.head? = some '\n'
      · obtain ⟨rfl, hfeed⟩ := hpair
        obtain ⟨t, rfl⟩ := List.head?_eq_some_iff.mp hfeed
        obtain ⟨u, rfl⟩ := List.head?_eq_some_iff.mp (hheads.mp hfeed)
        rw [units_feed, units_feed, List.cons_sublist_cons] at ih
        rw [units_pair, units_pair]
        exact ih.cons_cons _
      · rw [units_cons, units_cons]
        · exact ih.cons_cons _
        · exact fun hc hfeed => hpair ⟨hc, hfeed⟩
        · exact fun hc hfeed => hpair ⟨hc, hheads.mpr hfeed⟩

theorem FeedsFollow.head?_iff {prev : Option Char} {t u : Text} (h : FeedsFollow prev t)
    (hfollow : ∀ prev, FeedsFollow prev t → FeedsFollow prev u)
    (hkeep : t.head? = some '\n' → u.head? = some '\n') :
    t.head? = some '\n' ↔ u.head? = some '\n' := by
  refine ⟨hkeep, ?_⟩
  intro hfeed
  by_contra hother
  exact (hfollow none (h.of_head hother)).head?_ne (by simp) hfeed

end Text

open Text (FeedsFollow CrlfOnly Sheds units visible)

namespace Comment

variable {span : Span}

theorem units_erase_sublist (hwordy : Wordy span) (hspares : SparesReturns span)
    {prev : Option Char} {t : Text} (h : FeedsFollow prev t) :
    (units (erase span t)).Sublist (units t) := by
  induction t using erase_induction span generalizing prev with
  | nil => exact List.Sublist.refl _
  | comment c t n hcomment ih =>
      obtain ⟨front, last, hsplit, hlast⟩ := hspares c t n hcomment
      rw [hsplit, Text.feedsFollow_append] at h
      rw [erase_comment hcomment, hsplit, ← List.singleton_append, ← List.append_assoc]
      refine (ih h.2.2).trans (Text.units_drop_sublist (front ++ [last]) ?_)
      intro hreturn
      exact absurd (by simpa using hreturn) hlast
  | keep c t hkeep ih =>
      have hhead := h.2.head?_iff (u := erase span t) (fun _ => feedsFollow_erase hspares) <| by
        intro hfeed
        obtain ⟨rest, rfl⟩ := List.head?_eq_some_iff.mp hfeed
        rw [erase_cons fun hopens => absurd (hwordy.visible hopens) (by decide)]
        rfl
      rw [erase_cons hkeep]
      exact Text.units_append_sublist (ih h.2) hhead [c]

theorem sheds_erase (hwordy : Wordy span) (t : Text) : Sheds t (erase span t) := by
  induction t using erase_induction span with
  | nil => exact .refl []
  | comment c t n hcomment ih =>
      have hrest : (erase span (t.drop n)).Sublist t :=
        (erase_sublist span (t.drop n)).trans (List.drop_sublist n t)
      rw [erase_comment hcomment]
      right
      rw [Text.visible_cons (hwordy.visible ⟨n, hcomment⟩), List.length_cons]
      exact Nat.lt_succ_of_le (hrest.filter _).length_le
  | keep c t hkeep ih =>
      rw [erase_cons hkeep]
      exact (Sheds.refl [c]).append ih

end Comment

namespace Script

namespace Token

@[simp] theorem visible_lineEnd (body : Text) : visible (lineEnd body) = [] := by
  rw [lineEnd]
  split
  · rfl
  · split
    · rfl
    · rfl

theorem sheds_atHead (prev : Option Char) (c : Char) (tail : Text) :
    Sheds (atHead prev (c :: tail)).text (atHead prev (c :: tail)).kept := by
  rw [atHead]
  have hopens := Kind.opens_ofHead prev c tail
  generalize Kind.ofHead prev (c :: tail) = kind at hopens ⊢
  generalize c :: tail = t at hopens ⊢
  cases hopens with
  | @block tail hdoc => exact .inr (Nat.succ_pos _)
  | line tail =>
      right
      rw [kept, visible_lineEnd]
      exact Nat.succ_pos _
  | _ => exact .refl _

section

variable {u : Text}

theorem units_block_sublist {tail : Text}
    (h : (units u).Sublist (units (tail.drop (Text.through ['*', '/'] tail)))) :
    (units u).Sublist (units ('/' :: '*' :: tail)) := by
  rcases @drop_through_cases ['*', '/'] tail with hend | ⟨front, hfront⟩
  · rw [hend] at h
    exact h.trans (List.nil_sublist _)
  · rw [← List.take_append_drop (Text.through ['*', '/'] tail) tail, hfront]
    refine h.trans (Text.units_drop_sublist ('/' :: '*' :: (front ++ ['*', '/'])) ?_)
    simp [List.getLast?_cons]

theorem units_line_sublist {body behind : Text} (h : (units u).Sublist (units behind))
    (hhead : behind.head? = some '\n' ↔ u.head? = some '\n')
    (hbehind : behind = [] ∨ ∃ front, body = front ++ ['\n']) :
    (units (lineEnd body ++ u)).Sublist (units ('/' :: '/' :: (body ++ behind))) := by
  have hend {front newline : Text} (hfront : front.getLast? = some '\r' →
      (newline ++ behind).head? ≠ some '\n') :
      (units (newline ++ u)).Sublist (units ('/' :: '/' :: (front ++ newline ++ behind))) := by
    refine (Text.units_append_sublist h hhead newline).trans ?_
    rw [List.append_assoc]
    apply Text.units_drop_sublist ('/' :: '/' :: front)
    intro hlast
    apply hfront
    cases hempty : front.getLast? with
    | none => simp [List.getLast?_cons, hempty] at hlast
    | some d => simpa [List.getLast?_cons, hempty] using hlast
  rw [lineEnd]
  split
  · next hcrlf =>
      obtain ⟨front, rfl⟩ := List.isSuffixOf_iff_suffix.mp hcrlf
      exact hend (by simp)
  · next hcrlf =>
      split
      · next hlf =>
          obtain ⟨front, rfl⟩ := List.isSuffixOf_iff_suffix.mp hlf
          apply hend
          intro hlast
          obtain ⟨before, rfl⟩ := List.getLast?_eq_some_iff.mp hlast
          exact absurd (List.isSuffixOf_iff_suffix.mpr ⟨before, by simp⟩) hcrlf
      · next hlf =>
          rcases hbehind with rfl | ⟨front, rfl⟩
          · exact h.trans (List.nil_sublist _)
          · exact absurd (List.isSuffixOf_iff_suffix.mpr (List.suffix_append front ['\n'])) hlf

theorem units_atHead_sublist (prev : Option Char) (c : Char) (tail : Text)
    (h : (units u).Sublist (units (behindHead prev (c :: tail))))
    (hhead : (behindHead prev (c :: tail)).head? = some '\n' ↔ u.head? = some '\n') :
    (units ((atHead prev (c :: tail)).kept ++ u)).Sublist (units (c :: tail)) := by
  have hwhole := Text.units_append_sublist h hhead (atHead prev (c :: tail)).text
  rw [atHead_append_behindHead] at hwhole
  rw [atHead, behindHead] at *
  have hopens := Kind.opens_ofHead prev c tail
  generalize Kind.ofHead prev (c :: tail) = kind at *
  generalize c :: tail = t at *
  cases hopens with
  | @block tail hdoc => exact units_block_sublist h
  | line tail =>
      have hline := units_line_sublist h hhead (drop_through_cases tail)
      have hsplit : tail.take (Text.through ['\n'] tail) ++
          (('/' :: '/' :: tail).drop (Kind.line.length ('/' :: '/' :: tail))) = tail :=
        List.take_append_drop _ tail
      rw [hsplit] at hline
      exact hline
  | _ => exact hwhole

end

end Token

theorem head?_kept_tokensFrom {before rest : Text} (h : rest.head? = some '\n') :
    ((tokensFrom before rest).flatMap Token.kept).head? = some '\n' := by
  obtain ⟨tail, rfl⟩ := List.head?_eq_some_iff.mp h
  rw [tokensFrom]
  rfl

theorem units_tokensFrom_sublist {before rest : Text} {prev : Option Char}
    (h : FeedsFollow prev rest) :
    (units ((tokensFrom before rest).flatMap Token.kept)).Sublist (units rest) := by
  fun_induction tokensFrom before rest generalizing prev with
  | case1 => exact List.Sublist.refl _
  | case2 before c tail ih =>
      obtain ⟨-, hbehind⟩ := Token.feedsFollow_atHead before.lastVisible c tail h
      rw [List.flatMap_cons]
      apply Token.units_atHead_sublist before.lastVisible c tail (ih hbehind)
      exact hbehind.head?_iff (fun _ => feedsFollow_tokensFrom) head?_kept_tokensFrom

theorem sheds_tokensFrom (before rest : Text) :
    Sheds rest ((tokensFrom before rest).flatMap Token.kept) := by
  fun_induction tokensFrom before rest with
  | case1 => exact .refl []
  | case2 before c tail ih =>
      have hsheds := (Token.sheds_atHead before.lastVisible c tail).append ih
      rw [Token.atHead_append_behindHead] at hsheds
      exact hsheds

end Script

namespace Strategy

theorem units_strip_sublist (strategy : Strategy) {t : Text} (h : CrlfOnly t) :
    (units (strategy.strip t)).Sublist (units t) := by
  rw [Text.crlfOnly_iff] at h
  have hboth : FeedsFollow none (strategy.strip t) ∧
      (units (strategy.strip t)).Sublist (units t) := by
    apply strategy.strip_induction
      (motive := fun u => FeedsFollow none u ∧ (units u).Sublist (units t))
    · exact ⟨h, List.Sublist.refl _⟩
    · exact ⟨Script.feedsFollow_tokensFrom h, Script.units_tokensFrom_sublist h⟩
    · intro u hu span hspan
      have hspares := sparesReturns_of_mem_kinds hspan
      have hunits := Comment.units_erase_sublist (wordy_of_mem_kinds hspan) hspares hu.1
      exact ⟨Comment.feedsFollow_erase hspares hu.1, hunits.trans hu.2⟩
  exact hboth.2

theorem sheds_strip (strategy : Strategy) (t : Text) : Sheds t (strategy.strip t) := by
  apply strategy.strip_induction (.refl t) (Script.sheds_tokensFrom [] t)
  intro u hu span hspan
  exact hu.trans (Comment.sheds_erase (wordy_of_mem_kinds hspan) u)

end Strategy

end CommentSweep
