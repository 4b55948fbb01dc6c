import CommentSweep.Proofs.Script.Lexing
import CommentSweep.Proofs.Strategy.Cut
import CommentSweep.Proofs.Text.Endings
import Mathlib

/-!
Stripping and line terminators. No comment takes the carriage return of a terminator away and leaves
its line feed, so a text whose lines end with `\r\n` is still one when its comments are gone.
-/

namespace CommentSweep

open Text (FeedsFollow CrlfOnly feedsFollow_append)

namespace Comment

def SparesReturns (span : Span) : Prop :=
  ∀ c t n, span (c :: t) = some (n + 1) →
    ∃ front last, c :: t = front ++ last :: t.drop n ∧ last ≠ '\r'

theorem sparesReturns_enclosed {opener closer : Text} (hcloser : closer ≠ [])
    (hlast : closer.getLast? ≠ some '\r') : SparesReturns (enclosed opener closer) := by
  intro c t n hspan
  obtain ⟨comment, hcomment, hsplit⟩ := exists_comment_of_span hcloser hspan
  obtain ⟨inside, rfl⟩ := hcomment.delimited
  obtain ⟨front, last, rfl⟩ := (List.eq_nil_or_concat' closer).resolve_left hcloser
  refine ⟨opener ++ (inside ++ front), last, by simpa using hsplit, ?_⟩
  simpa using hlast

theorem sparesReturns_toLineEnd {opener : Text} (hne : opener ≠ [])
    (hopener : ∀ c ∈ opener, isLineEnd c = false) : SparesReturns (toLineEnd opener) := by
  intro c t n hspan
  rw [toLineEnd] at hspan
  split at hspan
  · next hfront =>
      obtain ⟨rest, hrest⟩ := List.isPrefixOf_iff_prefix.mp hfront
      rw [← hrest, List.drop_left] at hspan
      have hlength := Option.some.inj hspan
      have hwhole : c :: t = opener ++ rest.takeWhile (!isLineEnd ·) ++
          rest.dropWhile (!isLineEnd ·) := by
        rw [← hrest, List.append_assoc, List.takeWhile_append_dropWhile]
      have hplain : ∀ d ∈ opener ++ rest.takeWhile (!isLineEnd ·), isLineEnd d = false := by
        rw [List.forall_mem_append]
        exact ⟨hopener, fun d hd => by simpa using List.mem_takeWhile_imp hd⟩
      rw [← List.length_append] at hlength
      obtain ⟨front, last, hcomment⟩ := (List.eq_nil_or_concat'
        (opener ++ rest.takeWhile (!isLineEnd ·))).resolve_left (by simp [hne])
      have hdrop : t.drop n = rest.dropWhile (!isLineEnd ·) := by
        rw [← List.drop_succ_cons, hwhole, ← hlength, List.drop_left]
      refine ⟨front, last, ?_, ?_⟩
      · rw [hwhole, hdrop, hcomment]
        simp
      · rintro rfl
        exact absurd (hplain '\r' (by simp [hcomment])) (by decide)
  · cases hspan

theorem feedsFollow_erase {span : Span} (hspan : SparesReturns span) {prev : Option Char}
    {t : Text} (h : FeedsFollow prev t) : FeedsFollow prev (erase span t) := by
  induction t using erase_induction span generalizing prev with
  | nil => trivial
  | comment c t n hcomment ih =>
      obtain ⟨front, last, hsplit, hlast⟩ := hspan c t n hcomment
      rw [hsplit, feedsFollow_append] at h
      have hbehind : FeedsFollow (some last) (t.drop n) := h.2.2
      rw [erase_comment hcomment]
      exact ih (hbehind.of_head (hbehind.head?_ne (by simpa using hlast)))
  | keep c t hkeep ih =>
      rw [erase_cons hkeep]
      exact ⟨h.1, ih h.2⟩

end Comment

namespace Script

theorem drop_through_cases {word : Text} (t : Text) :
    t.drop (Text.through word t) = [] ∨ ∃ front, t.take (Text.through word t) = front ++ word := by
  induction t with
  | nil => exact .inl rfl
  | cons c t ih =>
      rw [Text.through]
      split
      · next hfront =>
          obtain ⟨rest, hsplit⟩ := List.isPrefixOf_iff_prefix.mp hfront
          exact .inr ⟨[], by rw [← hsplit, List.take_left]; rfl⟩
      · rcases ih with hend | ⟨front, hfront⟩
        · exact .inl hend
        · exact .inr ⟨c :: front, congrArg (c :: ·) hfront⟩

namespace Token

theorem feedsFollow_block {prev : Option Char} {tail : Text}
    (h : FeedsFollow prev ('/' :: '*' :: tail)) :
    FeedsFollow prev (tail.drop (Text.through ['*', '/'] tail)) := by
  rcases @drop_through_cases ['*', '/'] tail with hend | ⟨front, hfront⟩
  · rw [hend]
    trivial
  · rw [← List.take_append_drop (Text.through ['*', '/'] tail) tail, hfront] at h
    have hbehind : FeedsFollow (some '/') (tail.drop (Text.through ['*', '/'] tail)) := by
      have hlast := (feedsFollow_append.mp h.2.2).2
      simpa using hlast
    exact hbehind.of_head (hbehind.head?_ne (by decide))

theorem feedsFollow_line {prev : Option Char} {body behind : Text}
    (h : FeedsFollow prev ('/' :: '/' :: (body ++ behind)))
    (hbehind : behind = [] ∨ ∃ front, body = front ++ ['\n']) :
    FeedsFollow prev (lineEnd body) ∧ FeedsFollow ((lineEnd body).getLast?.or prev) behind := by
  have hrest := (feedsFollow_append.mp h.2.2)
  rw [lineEnd]
  split
  · next hcrlf =>
      obtain ⟨front, rfl⟩ := List.isSuffixOf_iff_suffix.mp hcrlf
      exact ⟨by simp [FeedsFollow], by simpa using hrest.2⟩
  · next hcrlf =>
      split
      · next hlf =>
          obtain ⟨front, rfl⟩ := List.isSuffixOf_iff_suffix.mp hlf
          have hreturn := (feedsFollow_append.mp hrest.1).2.1 rfl
          refine absurd ?_ hcrlf
          rw [List.isSuffixOf_iff_suffix]
          cases hfront : front.getLast? with
          | none => simp [hfront] at hreturn
          | some c =>
              obtain ⟨before, rfl⟩ := List.getLast?_eq_some_iff.mp hfront
              obtain rfl : c = '\r' := by simpa using hreturn
              exact ⟨before, by simp⟩
      · next hlf =>
          refine ⟨trivial, ?_⟩
          rcases hbehind with rfl | ⟨front, rfl⟩
          · trivial
          · exact absurd (List.isSuffixOf_iff_suffix.mpr (List.suffix_append front ['\n'])) hlf

theorem feedsFollow_atHead (visible : Option Char) (c : Char) (tail : Text) {prev : Option Char}
    (h : FeedsFollow prev (c :: tail)) :
    FeedsFollow prev (atHead visible (c :: tail)).kept ∧
      FeedsFollow ((atHead visible (c :: tail)).kept.getLast?.or prev)
        (behindHead visible (c :: tail)) := by
  have hwhole := h
  rw [← atHead_append_behindHead visible (c :: tail), feedsFollow_append] at hwhole
  rw [atHead, behindHead] at hwhole ⊢
  have hopens := Kind.opens_ofHead visible c tail
  generalize Kind.ofHead visible (c :: tail) = kind at hopens hwhole ⊢
  generalize c :: tail = t at h hopens hwhole ⊢
  cases hopens with
  | @block tail hdoc => exact ⟨trivial, feedsFollow_block h⟩
  | line tail =>
      rw [← List.take_append_drop (Text.through ['\n'] tail) tail] at h
      exact feedsFollow_line h (drop_through_cases tail)
  | _ => exact hwhole

end Token

theorem feedsFollow_tokensFrom {before rest : Text} {prev : Option Char}
    (h : FeedsFollow prev rest) :
    FeedsFollow prev ((tokensFrom before rest).flatMap Token.kept) := by
  fun_induction tokensFrom before rest generalizing prev with
  | case1 => trivial
  | case2 before c tail ih =>
      obtain ⟨hkept, hbehind⟩ := Token.feedsFollow_atHead before.lastVisible c tail h
      rw [List.flatMap_cons, feedsFollow_append]
      exact ⟨hkept, ih hbehind⟩

end Script

namespace Strategy

theorem sparesReturns_of_mem_kinds {strategy : Strategy} {span : Comment.Span}
    (h : span ∈ strategy.kinds) : Comment.SparesReturns span := by
  have hblock : Comment.SparesReturns Comment.block :=
    Comment.sparesReturns_enclosed (by simp) (by decide)
  have hmarkup : Comment.SparesReturns Comment.markup :=
    Comment.sparesReturns_enclosed (by simp) (by decide)
  have hslashes : Comment.SparesReturns Comment.slashes :=
    Comment.sparesReturns_toLineEnd (by simp) (by simp [Comment.isLineEnd])
  have hhash : Comment.SparesReturns Comment.hash :=
    Comment.sparesReturns_toLineEnd (by simp) (by simp [Comment.isLineEnd])
  have hall : ∀ span ∈ strategy.kinds, Comment.SparesReturns span := by
    cases strategy <;> simp [kinds, hblock, hmarkup, hslashes, hhash]
  exact hall span h

theorem strip_induction (strategy : Strategy) {t : Text} {motive : Text → Prop} (htext : motive t)
    (htokens : motive ((Script.tokensFrom [] t).flatMap Script.Token.kept))
    (herase : ∀ u, motive u → ∀ span ∈ strategy.kinds, motive (Comment.erase span u)) :
    motive (strategy.strip t) := by
  by_cases hscript : strategy = .script
  · rw [hscript, strip, Script.State.strip_eq,
      @Script.keeps_eq_flatMap_kept {} [] t Script.State.ready_start rfl]
    exact htokens
  · rw [strip_eq_foldl hscript]
    exact List.foldlRecOn _ _ htext herase

theorem crlfOnly_strip (strategy : Strategy) {t : Text} (h : CrlfOnly t) :
    CrlfOnly (strategy.strip t) := by
  rw [Text.crlfOnly_iff] at h ⊢
  apply strategy.strip_induction h (Script.feedsFollow_tokensFrom h)
  intro u hu span hspan
  exact Comment.feedsFollow_erase (sparesReturns_of_mem_kinds hspan) hu

end Strategy

end CommentSweep
