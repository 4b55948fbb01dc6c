import CommentSweep.Proofs.Script.Lexing
import Mathlib

/-!
Lines of a stripped source. Only a block takes line feeds with it. A line comment ends where its
line does, so in a source without blocks every line is left where it was, with at most its end cut
off.
-/

namespace CommentSweep.Script

/-- What is left of a line: its beginning, with the carriage return at its end or without it. -/
inductive Clipped (line : Text) : Text → Prop
  | cut {kept : Text} (h : kept <+: line) : Clipped line kept
  | returned {kept : Text} (h : kept <+: line) (hreturn : line.getLast? = some '\r') :
      Clipped line (kept ++ ['\r'])

theorem Clipped.cons (c : Char) {line kept : Text} (h : Clipped line kept) :
    Clipped (c :: line) (c :: kept) := by
  cases h with
  | cut hcut => exact .cut (List.cons_prefix_cons.mpr ⟨rfl, hcut⟩)
  | @returned kept hcut hreturn =>
      have hlast : (c :: line).getLast? = some '\r' := by
        rw [List.getLast?_cons, hreturn]
        rfl
      have hcut' : c :: kept <+: c :: line := List.cons_prefix_cons.mpr ⟨rfl, hcut⟩
      exact .returned hcut' hlast

theorem Clipped.eq_nil {kept : Text} (h : Clipped [] kept) : kept = [] := by
  cases h with
  | cut hcut => exact List.prefix_nil.mp hcut
  | returned hcut hreturn => cases hreturn

def LinesClipped (t u : Text) : Prop :=
  List.Forall₂ Clipped (t.splitOn '\n') (u.splitOn '\n')

namespace LinesClipped

theorem nil : LinesClipped [] [] :=
  .cons (.cut (List.prefix_refl [])) .nil

theorem append {t u : Text} (h : LinesClipped t u) (front : Text) :
    LinesClipped (front ++ t) (front ++ u) := by
  induction front with
  | nil => exact h
  | cons c front ih =>
      rw [List.cons_append, List.cons_append]
      by_cases hc : c = '\n'
      · subst hc
        simp only [LinesClipped, List.splitOn_cons_eq_if_modifyHead, beq_self_eq_true, if_true]
        exact .cons (.cut (List.prefix_refl [])) ih
      · rw [LinesClipped] at ih
        obtain ⟨line, lines, hlines⟩ :=
          List.exists_cons_of_ne_nil (List.splitOn_ne_nil '\n' (front ++ t))
        obtain ⟨kept, rest, hrest⟩ :=
          List.exists_cons_of_ne_nil (List.splitOn_ne_nil '\n' (front ++ u))
        rw [hlines, hrest, List.forall₂_cons] at ih
        simp only [LinesClipped, List.splitOn_cons_eq_if_modifyHead, beq_iff_eq, hc, if_false,
          hlines, hrest, List.modifyHead_cons]
        exact .cons (ih.1.cons c) ih.2

end LinesClipped

/-- How far a line comment reaches: over the next line feed, or to the end of the source. -/
inductive ReachesLineEnd : (body rest : Text) → Prop
  | feed {front : Text} (h : '\n' ∉ front) (rest : Text) : ReachesLineEnd (front ++ ['\n']) rest
  | ending {body : Text} (h : '\n' ∉ body) : ReachesLineEnd body []

theorem reachesLineEnd_through (t : Text) :
    ReachesLineEnd (t.take (Text.through ['\n'] t)) (t.drop (Text.through ['\n'] t)) := by
  induction t with
  | nil => exact .ending List.not_mem_nil
  | cons c t ih =>
      by_cases hc : c = '\n'
      · subst hc
        have hnone : '\n' ∉ ([] : Text) := List.not_mem_nil
        exact .feed hnone t
      · have hthrough : Text.through ['\n'] (c :: t) = Text.through ['\n'] t + 1 := by
          simp [Text.through, List.isPrefixOf, Ne.symm hc]
        rw [hthrough, List.take_succ_cons, List.drop_succ_cons]
        generalize t.take (Text.through ['\n'] t) = body at ih ⊢
        generalize t.drop (Text.through ['\n'] t) = rest at ih ⊢
        cases ih with
        | @feed front hfront =>
            have hline : '\n' ∉ c :: front := by simp [hfront, Ne.symm hc]
            exact .feed hline rest
        | ending hbody => exact .ending (by simp [hbody, Ne.symm hc])

@[simp] theorem lineEnd_feed (front : Text) :
    lineEnd (front ++ ['\n']) =
      if front.getLast? = some '\r' then ['\r', '\n'] else ['\n'] := by
  have hcrlf : ['\r', '\n'].isSuffixOf (front ++ ['\n']) = true ↔ front.getLast? = some '\r' := by
    rw [List.isSuffixOf_iff_suffix, List.getLast?_eq_some_iff]
    constructor
    · rintro ⟨before, hbefore⟩
      rw [List.append_cons, List.append_left_inj] at hbefore
      exact ⟨before, hbefore.symm⟩
    · rintro ⟨before, rfl⟩
      exact ⟨before, by simp⟩
  have hlf : ['\n'].isSuffixOf (front ++ ['\n']) = true := by
    rw [List.isSuffixOf_iff_suffix]
    exact List.suffix_append front ['\n']
  rw [lineEnd, hlf]
  simp only [hcrlf, if_true]

theorem lineEnd_of_not_mem {body : Text} (h : '\n' ∉ body) : lineEnd body = [] := by
  have hcrlf : ¬['\r', '\n'].isSuffixOf body = true := by
    rw [List.isSuffixOf_iff_suffix]
    exact fun hsuffix => h (hsuffix.mem (by simp))
  have hlf : ¬['\n'].isSuffixOf body = true := by
    rw [List.isSuffixOf_iff_suffix]
    exact fun hsuffix => h (hsuffix.mem (by simp))
  rw [lineEnd, if_neg hcrlf, if_neg hlf]

namespace ReachesLineEnd

variable {body rest : Text}

theorem count_lineEnd (h : ReachesLineEnd body rest) :
    (lineEnd body).count '\n' = body.count '\n' := by
  cases h with
  | @feed front hfront =>
      rw [lineEnd_feed, List.count_append, List.count_eq_zero.mpr hfront]
      split <;> rfl
  | ending hbody => rw [lineEnd_of_not_mem hbody, List.count_nil, List.count_eq_zero.mpr hbody]

theorem linesClipped (h : ReachesLineEnd body rest) {opener : Text} (hopener : '\n' ∉ opener)
    {u : Text} (hrest : LinesClipped rest u) :
    LinesClipped (opener ++ body ++ rest) (lineEnd body ++ u) := by
  cases h with
  | @feed front hfront =>
      have hline : (opener ++ (front ++ ['\n']) ++ rest).splitOn '\n' =
          (opener ++ front) :: rest.splitOn '\n' := by
        have hnone : '\n' ∉ opener ++ front := by simp [hopener, hfront]
        simpa using List.splitOn_append_cons_self_of_not_mem hnone rest
      rw [LinesClipped, hline, lineEnd_feed]
      split
      · next hreturn =>
          have hkept : (['\r', '\n'] ++ u).splitOn '\n' = ['\r'] :: u.splitOn '\n' :=
            List.splitOn_append_cons_self_of_not_mem (by decide : '\n' ∉ ['\r']) u
          rw [hkept]
          have hlast : (opener ++ front).getLast? = some '\r' := by
            rw [List.getLast?_append, hreturn]
            rfl
          have hcut : [] <+: opener ++ front := List.nil_prefix
          exact .cons (.returned hcut hlast) hrest
      · have hkept : (['\n'] ++ u).splitOn '\n' = [] :: u.splitOn '\n' :=
          List.splitOn_append_cons_self_of_not_mem List.not_mem_nil u
        rw [hkept]
        exact .cons (.cut List.nil_prefix) hrest
  | ending hbody =>
      have hlines : (opener ++ body ++ []).splitOn '\n' = [opener ++ body] := by
        have hnone : '\n' ∉ opener ++ body := by simp [hopener, hbody]
        simpa using List.splitOn_eq_singleton hnone
      obtain ⟨kept, lines, hkept, hnone, hu⟩ := List.forall₂_cons_left_iff.mp hrest
      cases hnone
      rw [LinesClipped, hlines, lineEnd_of_not_mem hbody, List.nil_append, hu, hkept.eq_nil]
      exact .cons (.cut List.nil_prefix) .nil

end ReachesLineEnd

def Token.isBlock (token : Token) : Bool :=
  token.kind == .block

def blocks (source : Text) : List Token :=
  (tokens source).filter Token.isBlock

namespace Token

inductive Fares : Token → (rest : Text) → Prop
  | dropped (t rest : Text) : Fares ⟨.block, t⟩ rest
  | ended {body rest : Text} (h : ReachesLineEnd body rest) :
      Fares ⟨.line, '/' :: '/' :: body⟩ rest
  | kept {token : Token} (hblock : token.isBlock = false) (hkept : token.kept = token.text)
      (rest : Text) : Fares token rest

theorem fares_atHead (prev : Option Char) (c : Char) (tail : Text) :
    Fares (atHead prev (c :: tail)) (behindHead prev (c :: tail)) := by
  rw [atHead, behindHead]
  have hopens := Kind.opens_ofHead prev c tail
  generalize Kind.ofHead prev (c :: tail) = kind at hopens ⊢
  generalize c :: tail = t at hopens ⊢
  cases hopens with
  | block => exact .dropped _ _
  | line tail => exact .ended (reachesLineEnd_through tail)
  | _ => exact .kept rfl rfl _

variable {token : Token} {rest : Text}

theorem Fares.count_kept (h : Fares token rest) :
    token.kept.count '\n' + (if token.isBlock then token.text.count '\n' else 0) =
      token.text.count '\n' := by
  cases h with
  | dropped t => exact Nat.zero_add _
  | ended hreach => exact hreach.count_lineEnd
  | kept hblock hkept => rw [hkept, hblock]; rfl

theorem Fares.linesClipped (h : Fares token rest) (hblock : token.isBlock = false) {u : Text}
    (hrest : LinesClipped rest u) : LinesClipped (token.text ++ rest) (token.kept ++ u) := by
  cases h with
  | dropped t => cases hblock
  | ended hreach =>
      have hopener : '\n' ∉ ['/', '/'] := by decide
      exact hreach.linesClipped hopener hrest
  | kept _ hkept =>
      rw [hkept]
      exact hrest.append token.text

end Token

theorem count_feed_tokensFrom (before rest : Text) :
    ((tokensFrom before rest).flatMap Token.kept).count '\n' +
        (((tokensFrom before rest).filter Token.isBlock).flatMap Token.text).count '\n' =
      rest.count '\n' := by
  fun_induction tokensFrom before rest with
  | case1 => rfl
  | case2 before c tail ih =>
      have htoken := (Token.fares_atHead before.lastVisible c tail).count_kept
      have hsplit := Token.atHead_append_behindHead before.lastVisible (c :: tail)
      generalize Token.atHead before.lastVisible (c :: tail) = token at *
      generalize Token.behindHead before.lastVisible (c :: tail) = rest at *
      rw [← hsplit, List.flatMap_cons, List.count_append, List.count_append, ← ih, List.filter_cons]
      cases hblock : token.isBlock with
      | false =>
          rw [hblock] at htoken
          simp only [Bool.false_eq_true, if_false] at htoken ⊢
          omega
      | true =>
          rw [hblock] at htoken
          simp only [if_true, List.flatMap_cons, List.count_append] at htoken ⊢
          omega

theorem linesClipped_tokensFrom {before rest : Text}
    (h : ∀ token ∈ tokensFrom before rest, token.isBlock = false) :
    LinesClipped rest ((tokensFrom before rest).flatMap Token.kept) := by
  fun_induction tokensFrom before rest with
  | case1 => exact .nil
  | case2 before c tail ih =>
      obtain ⟨hblock, hrest⟩ := List.forall_mem_cons.mp h
      have hlines := (Token.fares_atHead before.lastVisible c tail).linesClipped hblock (ih hrest)
      rwa [Token.atHead_append_behindHead] at hlines

def State.modes (s : State) : Text → List Mode
  | [] => [s.mode]
  | c :: rest => s.mode :: (s.step c rest).2.modes rest

namespace State

theorem mem_modes_of_after {mode : Mode} {s : State} {t rest : Text}
    (h : mode ∈ (s.after t rest).modes rest) : mode ∈ s.modes (t ++ rest) := by
  induction t generalizing s with
  | nil => exact h
  | cons c t ih => exact List.mem_cons_of_mem _ (ih h)

theorem mem_modes_step (s : State) (c : Char) (rest : Text) :
    (s.step c rest).2.mode ∈ s.modes (c :: rest) := by
  rw [modes]
  cases rest <;> simp [modes]

end State

theorem read_block {prev : Option Char} {c : Char} {tail : Text}
    (h : (Token.atHead prev (c :: tail)).isBlock = true) :
    Mode.code.read prev c tail = ⟨false, .block, 1⟩ := by
  have hopens := Token.Kind.opens_ofHead prev c tail
  rw [Token.atHead, Token.isBlock, beq_iff_eq] at h
  simp only at h
  rw [h] at hopens
  cases hopens with
  | block hdoc => simp [Mode.read, hdoc]

theorem block_mem_modes {s : State} {before rest : Text} (hready : s.Ready)
    (hprev : s.prev = before.lastVisible) {token : Token} (hmem : token ∈ tokensFrom before rest)
    (hblock : token.isBlock = true) : .block ∈ s.modes rest := by
  fun_induction tokensFrom before rest generalizing s with
  | case1 => cases hmem
  | case2 before c tail ih =>
      obtain ⟨mode, tied, keep, prev⟩ := s
      obtain ⟨rfl, rfl⟩ := hready
      obtain rfl : prev = before.lastVisible := hprev
      rcases List.mem_cons.mp hmem with rfl | hlater
      · have hstep := State.mem_modes_step ⟨.code, 0, keep, before.lastVisible⟩ c tail
        rwa [State.step_untied rfl, read_block hblock] at hstep
      · have htoken := completes_atHead keep before.lastVisible c tail
        have hsplit := Token.atHead_append_behindHead before.lastVisible (c :: tail)
        generalize Token.atHead before.lastVisible (c :: tail) = first at *
        generalize Token.behindHead before.lastVisible (c :: tail) = rest at *
        have hrest : rest ≠ [] := by
          rintro rfl
          simp [tokensFrom] at hlater
        rw [← hsplit]
        apply State.mem_modes_of_after
        apply ih (htoken.ready hrest) _ hlater
        simp

/-- The line feeds of a stripped source are those outside of its blocks. If the scan comes to no
block, the lines of the source are all left, each at its place and from its start on. -/
theorem strip_keeps_lines (source : Text) :
    (strip source).count '\n' + ((blocks source).flatMap Token.text).count '\n' =
        source.count '\n' ∧
      (.block ∉ State.modes {} source → LinesClipped source (strip source)) := by
  have hstrip : strip source = (tokens source).flatMap Token.kept := by
    rw [State.strip_eq]
    exact keeps_eq_flatMap_kept State.ready_start rfl
  rw [hstrip]
  refine ⟨count_feed_tokensFrom [] source, ?_⟩
  intro hmodes
  apply linesClipped_tokensFrom
  intro token htoken
  by_contra hblock
  rw [Bool.not_eq_false] at hblock
  exact hmodes (block_mem_modes State.ready_start rfl htoken hblock)

theorem strip_keeps_lines_mixed :
    let source : Text := ['a', '/', '/', '\r', 'b', '\r', '\n', '\x60', '/', '*', '\n', '\x60', '/',
      '*', '*', '\n', '*', '/', '/', '/', 'c']
    let kept : Text := ['a', '\r', '\n', '\x60', '/', '*', '\n', '\x60', '/', '*', '*', '\n', '*',
      '/']
    .block ∉ State.modes {} source ∧ strip source = kept ∧ LinesClipped source kept := by
  intro source kept
  have hmodes : .block ∉ State.modes {} source := by decide
  have hstrip : strip source = kept := by decide
  exact ⟨hmodes, hstrip, hstrip ▸ (strip_keeps_lines source).2 hmodes⟩

-- A block takes its line feed with it, so the next line starts elsewhere.
example :
    let source : Text := ['a', '/', '*', '\n', '*', '/', 'b', '\n']
    .block ∈ State.modes {} source ∧ (strip source).count '\n' = 1 ∧
      (strip source).splitOn '\n' = [['a', 'b'], []] := by
  decide

end CommentSweep.Script
