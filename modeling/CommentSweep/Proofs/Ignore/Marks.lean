import CommentSweep.Ignore
import Mathlib

/-!
Lines that end in a slash. Whatever such a line matches, it matches by the mark of a directory, so
it never speaks of an entry by its name.
-/

namespace CommentSweep.Ignore

variable {ε α β : Type}

theorem exists_of_bind_eq_ok {x : Except ε α} {f : α → Except ε β} {b : β}
    (h : x >>= f = .ok b) : ∃ a, x = .ok a ∧ f a = .ok b := by
  cases x with
  | error e => cases h
  | ok a => exact ⟨a, rfl, h⟩

theorem exists_of_map_eq_ok {x : Except ε α} {f : α → β} {b : β} (h : x.map f = .ok b) :
    ∃ a, x = .ok a ∧ f a = b := by
  cases x with
  | error e => cases h
  | ok a => exact ⟨a, rfl, Except.ok.inj h⟩

@[simp] theorem endsInSlash_snoc (t : Text) : endsInSlash (t ++ ['/']) = true := by
  rw [endsInSlash, List.splitOn_append_cons_self, List.splitOn_nil]
  simp

@[simp] theorem getLast?_dropRepeats (segments : List Text) :
    (dropRepeats segments).getLast? = segments.getLast? := by
  fun_induction dropRepeats segments with
  | case1 a b rest hboth ih => rw [ih, List.getLast?_cons_cons]
  | case2 a b rest hdiffer ih => rw [List.getLast?_cons, ih, ← List.getLast?_cons]
  | case3 segments hshort => rfl

@[simp] theorem getLast?_segmentsOf_snoc (t : Text) :
    (segmentsOf (t ++ ['/'])).getLast? = some anyDirs := by
  unfold segmentsOf
  rw [getLast?_dropRepeats, List.splitOn_append_cons_self, List.splitOn_nil]
  obtain ⟨part, parts, hparts⟩ := List.exists_cons_of_ne_nil (List.splitOn_ne_nil '/' t)
  rw [hparts, List.cons_append]
  split
  · exact List.getLast?_concat
  · next hlast =>
      refine absurd ?_ hlast
      split
      · next rest heq => rw [← (List.cons.inj heq).2, List.getLast?_concat]
      · next name heq => simp at heq
      · split <;> rfl
      · rw [← List.cons_append, List.getLast?_concat]

namespace Piece

theorem eq_true_of_matches?_dirSlash {pieces : List Piece} {path : Text} {marked : Bool}
    (h : matches? (pieces ++ [.dirSlash]) path = some marked) : marked = true := by
  induction pieces generalizing path marked with
  | nil =>
      obtain ⟨⟨rest, taken⟩, hway, hmarked⟩ := List.exists_of_findSome?_eq_some h
      obtain ⟨_, _, heq⟩ := List.mem_map.mp hway
      cases heq
      exact (Option.some.inj hmarked).symm
  | cons piece pieces ih =>
      obtain ⟨⟨rest, taken⟩, -, hmarked⟩ := List.exists_of_findSome?_eq_some h
      obtain ⟨later, hlater, rfl⟩ := Option.map_eq_some_iff.mp hmarked
      rw [ih hlater, Bool.or_true]

end Piece

theorem exists_tailPieces_snoc {needSlash : Bool} {segments : List Text} {pieces : List Piece}
    (hlast : segments.getLast? = some anyDirs)
    (h : tailPieces true needSlash segments = .ok pieces) :
    ∃ front, pieces = front ++ [.dirSlash] := by
  induction segments generalizing needSlash pieces with
  | nil => cases hlast
  | cons segment rest ih =>
      rw [tailPieces] at h
      cases rest with
      | nil =>
          have hsegment : segment = anyDirs := Option.some.inj hlast
          simp only [hsegment, beq_self_eq_true, List.isEmpty_nil, if_true] at h
          exact ⟨[], (Except.ok.inj h).symm⟩
      | cons second rest =>
          rw [List.getLast?_cons_cons] at hlast
          split at h
          · obtain ⟨others, hothers, rfl⟩ := exists_of_map_eq_ok h
            obtain ⟨front, rfl⟩ := ih hlast hothers
            exact ⟨.innerDirs :: front, rfl⟩
          · obtain ⟨name, -, h⟩ := exists_of_bind_eq_ok h
            obtain ⟨others, hothers, h⟩ := exists_of_bind_eq_ok h
            obtain ⟨front, rfl⟩ := ih hlast hothers
            cases h
            exact ⟨_, (List.append_assoc _ front _).symm⟩

theorem exists_piecesOf_snoc {segments : List Text} {pieces : List Piece}
    (hlast : segments.getLast? = some anyDirs) (h : piecesOf true segments = .ok pieces) :
    ∃ front, pieces = front ++ [.dirSlash] := by
  unfold piecesOf at h
  split at h
  · next first second rest =>
      rw [List.getLast?_cons_cons] at hlast
      split at h
      · obtain ⟨others, hothers, rfl⟩ := exists_of_map_eq_ok h
        obtain ⟨front, rfl⟩ := exists_tailPieces_snoc hlast hothers
        exact ⟨.upperDirs :: front, rfl⟩
      · rw [← List.getLast?_cons_cons] at hlast
        exact exists_tailPieces_snoc hlast h
  · exact exists_tailPieces_snoc hlast h

/-- Whatever the matcher finds, it finds by the mark of a directory. -/
def Matcher.OnlyMarks (matcher : Matcher) : Prop :=
  ∀ path marked, matcher.find? path = some marked → marked = true

theorem onlyMarks_anySlash : (Matcher.anySlash true).OnlyMarks := by
  intro path marked h
  rw [Matcher.find?] at h
  split at h
  · exact (Option.some.inj h).symm
  · cases h

theorem onlyMarks_of_matcherOf? {line : String} {t : Text} {matcher : Matcher}
    (h : matcherOf? line (t ++ ['/']) = .ok (some matcher)) : matcher.OnlyMarks := by
  have hlast := getLast?_segmentsOf_snoc t
  unfold matcherOf? at h
  rw [endsInSlash_snoc] at h
  generalize segmentsOf (t ++ ['/']) = segments at h hlast
  dsimp only at h
  split at h
  · cases h
  · split at h
    · cases h
      exact onlyMarks_anySlash
    · split at h
      · next hstar =>
          rw [beq_iff_eq.mp hstar] at hlast
          exact absurd hlast (by decide)
      · split at h
        · cases h
          exact onlyMarks_anySlash
        · split at h
          · cases h
          · cases h
          · next pieces hpieces =>
              split at h
              · cases h
              · cases h
                obtain ⟨front, rfl⟩ := exists_piecesOf_snoc hlast hpieces
                exact fun path marked hfind => Piece.eq_true_of_matches?_dirSlash hfind

@[simp] theorem trimLine_snoc (t : Text) : trimLine (t ++ ['/']) = t ++ ['/'] := by
  have htrim : Text.trimEnd (t ++ ['/']) = t ++ ['/'] := by
    have hslash : Text.isBlank '/' = false := by decide
    simp [Text.trimEnd, hslash]
  rw [trimLine, htrim, ite_self]

theorem onlyMarks_of_ofLine? {name : String} {pattern : Pattern}
    (h : Pattern.ofLine? (name ++ "/") = .ok (some pattern)) :
    pattern.matcher.OnlyMarks ∧ pattern.ignores = (name.toList.head? != some '!') := by
  have hline : (name ++ "/").toList = name.toList ++ ['/'] := String.toList_append
  have hhead : ((name.toList ++ ['/']).head? != some '!') = (name.toList.head? != some '!') := by
    cases name.toList with
    | nil => rfl
    | cons c rest => rfl
  unfold Pattern.ofLine? at h
  rw [hline, trimLine_snoc] at h
  dsimp only at h
  split at h
  · cases h
  · obtain ⟨matcher?, hmatcher, hpattern⟩ := exists_of_map_eq_ok h
    obtain ⟨matcher, rfl, rfl⟩ := Option.map_eq_some_iff.mp hpattern
    refine ⟨?_, hhead⟩
    split at hmatcher
    · exact onlyMarks_of_matcherOf? hmatcher
    · next hnegated =>
        cases hname : name.toList with
        | nil => simp [hname] at hnegated
        | cons c rest =>
            rw [hname] at hmatcher
            exact onlyMarks_of_matcherOf? hmatcher

end CommentSweep.Ignore
