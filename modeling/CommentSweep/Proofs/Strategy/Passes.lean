import CommentSweep.Proofs.Script.Token
import CommentSweep.Proofs.Strategy.Settled
import Mathlib

/-!
Strategies that delete one kind of comment after another. What they leave has no comment of any of
their kinds. The two passes for line comments and blocks come to the same as one reading from left
to right, unless a block of that reading holds the start of a line comment.
-/

namespace CommentSweep

namespace Strategy

theorem not_hasEnclosed_of_free {t : Text} (h : Comment.Free Comment.block t) :
    ¬Comment.HasEnclosed ['/', '*'] ['*', '/'] t :=
  (Comment.free_enclosed_iff (by simp) (by simp)).mp h

/-- Neither line comments nor blocks, nor hashes where they count as comments, are left in what the
passes return, so that the passes change nothing a second time. -/
theorem no_comment_behind_passes (source : Text) :
    (¬['/', '/'] <:+: cStyle.strip source ∧
      ¬Comment.HasEnclosed ['/', '*'] ['*', '/'] (cStyle.strip source) ∧
      cStyle.strip (cStyle.strip source) = cStyle.strip source) ∧
    (¬['/', '/'] <:+: php.strip source ∧
      ¬Comment.HasEnclosed ['/', '*'] ['*', '/'] (php.strip source) ∧
      '#' ∉ php.strip source ∧
      php.strip (php.strip source) = php.strip source) := by
  have hcStyle := @free_strip_of_seamless .cStyle nofun source trivial
  have hphp := @free_strip_of_seamless .php nofun source trivial
  simp only [kinds, List.forall_mem_cons] at hcStyle hphp
  obtain ⟨hslashes, hblock, -⟩ := hcStyle
  obtain ⟨hslashes', hblock', hhash, -⟩ := hphp
  refine ⟨⟨free_slashes_iff.mp hslashes, not_hasEnclosed_of_free hblock,
    strip_strip_of_seamless trivial⟩, free_slashes_iff.mp hslashes',
    not_hasEnclosed_of_free hblock', ?_, strip_strip_of_seamless trivial⟩
  rw [← List.singleton_infix_iff]
  exact (Comment.free_toLineEnd_iff (by simp)).mp hhash

end Strategy

namespace Comment

inductive Piece where
  | line (text : Text)
  | block (text : Text)
  | code (c : Char)
  deriving DecidableEq, Repr

namespace Piece

def text : Piece → Text
  | .line text => text
  | .block text => text
  | .code c => [c]

def kept : Piece → Text
  | .line _ => []
  | .block _ => []
  | .code c => [c]

end Piece

/-- The pieces of a text. An opener of a block that nothing closes is two characters like any
others. -/
def pieces : Text → List Piece
  | [] => []
  | '/' :: '/' :: t =>
      .line ('/' :: '/' :: t.takeWhile (!isLineEnd ·)) :: pieces (t.dropWhile (!isLineEnd ·))
  | '/' :: '*' :: t =>
      if ['*', '/'] <:+: t then
        .block ('/' :: '*' :: t.take (Text.through ['*', '/'] t)) ::
          pieces (t.drop (Text.through ['*', '/'] t))
      else
        .code '/' :: pieces ('*' :: t)
  | c :: t => .code c :: pieces t
termination_by t => t.length
decreasing_by
  · have hlength := (List.dropWhile_suffix (!isLineEnd ·) (l := t)).length_le
    simp only [List.length_cons]
    omega
  · simp only [List.length_drop, List.length_cons]
    omega
  · simp
  · simp

def code (t : Text) : Text :=
  (pieces t).flatMap Piece.kept

/-- No block holds the start of a line comment. Its last slash counts, together with what follows
it. -/
def BlocksPlain : List Piece → Prop
  | [] => True
  | .block text :: rest =>
      ¬['/', '/'] <:+: text ++ (rest.flatMap Piece.text).take 1 ∧ BlocksPlain rest
  | .line _ :: rest => BlocksPlain rest
  | .code _ :: rest => BlocksPlain rest

instance decidableBlocksPlain : (pieces : List Piece) → Decidable (BlocksPlain pieces)
  | [] => .isTrue trivial
  | .block _ :: rest =>
      have := decidableBlocksPlain rest
      inferInstanceAs (Decidable (¬_ ∧ _))
  | .line _ :: rest => decidableBlocksPlain rest
  | .code _ :: rest => decidableBlocksPlain rest

@[simp] theorem flatMap_text_pieces (t : Text) : (pieces t).flatMap Piece.text = t := by
  fun_induction pieces t with
  | case1 => rfl
  | case2 t ih => simp [Piece.text, ih]
  | case3 t hclosed ih => simp [Piece.text, ih]
  | case4 t hopen ih => simp [Piece.text, ih]
  | case5 c t hline hblock ih => simp [Piece.text, ih]

@[simp] theorem erase_slashes_line (t : Text) :
    erase slashes ('/' :: '/' :: t) = erase slashes (t.dropWhile (!isLineEnd ·)) := by
  have hspan : slashes ('/' :: '/' :: t) =
      some ((t.takeWhile (!isLineEnd ·)).length + 1 + 1) := by
    simp [slashes, toLineEnd, List.isPrefixOf]
    omega
  rw [erase_comment hspan, List.drop_succ_cons]
  nth_rewrite 2 [← List.takeWhile_append_dropWhile (p := (!isLineEnd ·)) (l := t)]
  rw [List.drop_left]

theorem erase_slashes_append {text t : Text} (h : ¬['/', '/'] <:+: text ++ t.take 1) :
    erase slashes (text ++ t) = text ++ erase slashes t := by
  induction text with
  | nil => rfl
  | cons c text ih =>
      rw [List.cons_append, List.infix_cons_iff, not_or] at h
      have hkeep : ¬Opens slashes (c :: (text ++ t)) := by
        rw [slashes, opens_toLineEnd_iff (by simp)]
        intro hfront
        have hlength := hfront.length_le
        have hseen : c :: (text ++ t.take 1) <+: c :: (text ++ t) :=
          List.cons_prefix_cons.mpr
            ⟨rfl, (List.prefix_append_right_inj text).mpr (List.take_prefix 1 t)⟩
        apply h.1
        apply List.prefix_of_prefix_length_le hfront hseen
        simp only [List.length_cons, List.length_append, List.length_take, List.length_nil] at *
        omega
      simp [hkeep, ih h.2]

theorem erase_slashes_opener (t : Text) :
    erase slashes (['/', '*'] ++ t) = ['/', '*'] ++ erase slashes t := by
  apply erase_slashes_append
  cases t <;> simp [List.infix_cons_iff]

theorem opens_block_of_erase_slashes {t : Text} (h : Opens block (erase slashes t)) :
    Opens block t :=
  opens_enclosed_of_erase (by simp) (by simp [isLineEnd]) (by simp) (by simp [isLineEnd])
    (by simp [isLineEnd]) erase_slashes_opener h

theorem through_le_length (word t : Text) : Text.through word t ≤ t.length := by
  induction t with
  | nil => exact Nat.le_refl 0
  | cons c t ih =>
      rw [Text.through]
      split
      · next hfront => exact (List.isPrefixOf_iff_prefix.mp hfront).length_le
      · exact Nat.succ_le_succ ih

theorem length_le_through {word t : Text} (h : word <:+: t) :
    word.length ≤ Text.through word t := by
  induction t with
  | nil => simp [List.infix_nil.mp h]
  | cons c t ih =>
      rw [Text.through]
      split
      · exact Nat.le_refl _
      · next hfront =>
          rw [List.isPrefixOf_iff_prefix] at hfront
          have hrest := (List.infix_cons_iff.mp h).resolve_left hfront
          exact Nat.le_succ_of_le (ih hrest)

theorem find?_take_through {word t : Text} (hword : word ≠ []) (h : word <:+: t) (other : Text)
    (i : Nat) :
    (find? word i (t.take (Text.through word t) ++ other)).map (· + word.length) =
      some (i + Text.through word t) := by
  induction t generalizing i with
  | nil => exact absurd (List.infix_nil.mp h) hword
  | cons c t ih =>
      rw [Text.through]
      split
      · next hfront =>
          obtain ⟨rest, hsplit⟩ := List.isPrefixOf_iff_prefix.mp hfront
          rw [← hsplit, List.take_left]
          obtain ⟨d, tail, rfl⟩ := List.exists_cons_of_ne_nil hword
          have hhead : (d :: tail).isPrefixOf (d :: (tail ++ other)) = true :=
            List.isPrefixOf_iff_prefix.mpr (List.prefix_append (d :: tail) other)
          rw [List.cons_append, find?, if_pos hhead, Option.map_some]
      · next hfront =>
          rw [List.isPrefixOf_iff_prefix] at hfront
          have hrest := (List.infix_cons_iff.mp h).resolve_left hfront
          have hthrough := length_le_through hrest
          have hlength := hrest.length_le
          generalize Text.through word t = n at hthrough ih ⊢
          have hnot : ¬word.isPrefixOf (c :: (t.take n ++ other)) = true := by
            rw [List.isPrefixOf_iff_prefix]
            intro hagain
            have hseen : word <+: c :: t.take n := by
              apply List.prefix_of_prefix_length_le hagain
                (List.prefix_append (c :: t.take n) other)
              simp only [List.length_cons, List.length_take]
              omega
            exact hfront (hseen.trans (List.cons_prefix_cons.mpr ⟨rfl, List.take_prefix n t⟩))
          rw [List.take_succ_cons, List.cons_append, find?, if_neg hnot, ih hrest]
          congr 1
          omega

theorem erase_block_append {t : Text} (h : ['*', '/'] <:+: t) (other : Text) :
    erase block ('/' :: '*' :: (t.take (Text.through ['*', '/'] t) ++ other)) =
      erase block other := by
  have hfind := find?_take_through (by simp) h other 2
  have hlength := through_le_length ['*', '/'] t
  generalize Text.through ['*', '/'] t = n at hfind hlength ⊢
  have hspan : block ('/' :: '*' :: (t.take n ++ other)) = some (n + 1 + 1) := by
    rw [block, enclosed, if_pos (by simp [List.isPrefixOf])]
    exact hfind.trans (by congr 1; omega)
  rw [erase_comment hspan, List.drop_succ_cons, List.drop_left' (by simpa using hlength)]

theorem stripCStyle_code {c : Char} {t : Text} (hline : ¬Opens slashes (c :: t))
    (hblock : ¬Opens block (c :: t)) :
    Strategy.stripCStyle (c :: t) = c :: Strategy.stripCStyle t := by
  have hkeep : ¬Opens block (c :: erase slashes t) := by
    rw [← erase_cons hline]
    exact fun hopens => hblock (opens_block_of_erase_slashes hopens)
  simp [Strategy.stripCStyle, hline, hkeep]

/-- Two passes come to the same as one reading if none of its blocks holds the start of a line
comment. -/
theorem two_passes_eq_one_reading {source : Text} (h : BlocksPlain (pieces source)) :
    (pieces source).flatMap Piece.text = source ∧ Strategy.cStyle.strip source = code source := by
  refine ⟨flatMap_text_pieces source, ?_⟩
  rw [Strategy.strip, code]
  fun_induction pieces source with
  | case1 => rfl
  | case2 t ih =>
      rw [Strategy.stripCStyle, erase_slashes_line, ← Strategy.stripCStyle]
      exact ih h
  | case3 t hclosed ih =>
      obtain ⟨hplain, hrest⟩ := h
      rw [flatMap_text_pieces] at hplain
      have hfirst := erase_slashes_append hplain
      rw [List.cons_append, List.cons_append, List.take_append_drop] at hfirst
      rw [Strategy.stripCStyle, hfirst, List.cons_append, List.cons_append,
        erase_block_append hclosed, ← Strategy.stripCStyle]
      exact ih hrest
  | case4 t hopen ih =>
      have hline : ¬Opens slashes ('/' :: '*' :: t) := by
        rw [slashes, opens_toLineEnd_iff (by simp)]
        simp
      have hblock : ¬Opens block ('/' :: '*' :: t) := by
        rw [block, opens_enclosed_iff (by simp)]
        rintro ⟨rest, hsplit, hrest⟩
        cases hsplit
        exact hopen hrest
      rw [stripCStyle_code hline hblock, ih h]
      rfl
  | case5 c t hline hblock ih =>
      have hline : ¬Opens slashes (c :: t) := by
        rw [slashes, opens_toLineEnd_iff (by simp)]
        rintro ⟨rest, hsplit⟩
        cases hsplit
        exact hline rest rfl rfl
      have hblock : ¬Opens block (c :: t) := by
        rw [block, opens_enclosed_iff (by simp)]
        rintro ⟨rest, hsplit, -⟩
        cases hsplit
        exact hblock rest rfl rfl
      rw [stripCStyle_code hline hblock, ih h]
      rfl

theorem two_passes_eq_one_reading_mixed :
    BlocksPlain (pieces "a//b/*c*/\n/*/d*/e*/f/*g".toList) ∧
      Strategy.cStyle.strip "a//b/*c*/\n/*/d*/e*/f/*g".toList =
        code "a//b/*c*/\n/*/d*/e*/f/*g".toList ∧
      code "a//b/*c*/\n/*/d*/e*/f/*g".toList = "a\ne*/f/*g".toList := by
  have hplain : BlocksPlain (pieces "a//b/*c*/\n/*/d*/e*/f/*g".toList) := by decide +kernel
  exact ⟨hplain, (two_passes_eq_one_reading hplain).2, by decide +kernel⟩

/-- A line comment that starts in a block takes the end of the block away. -/
example :
    Strategy.cStyle.strip "/*//*/a".toList = "/*".toList ∧ code "/*//*/a".toList = "a".toList := by
  decide +kernel

end Comment

end CommentSweep
