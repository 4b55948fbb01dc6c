import CommentSweep.Ignore
import Mathlib

/-!
What the pieces of a pattern match, without the order in which they are tried: a path matches if it
can be cut into parts that the pieces allow.
-/

namespace CommentSweep.Ignore

variable {p : Char → Bool} {path rest : Text}

@[simp] theorem mem_afterChar : rest ∈ afterChar p path ↔ ∃ c, p c = true ∧ path = c :: rest := by
  cases path with
  | nil => simp [afterChar]
  | cons c tail =>
      rw [afterChar]
      constructor
      · intro h
        split at h
        · next hc => exact ⟨c, hc, by rw [List.mem_singleton.mp h]⟩
        · cases h
      · rintro ⟨c, hc, heq⟩
        cases heq
        rw [if_pos hc]
        exact List.mem_singleton_self rest

def Behind (p : Char → Bool) (path rest : Text) : Prop :=
  ∃ run, (∀ c ∈ run, p c = true) ∧ path = run ++ rest

@[simp] theorem behind_nil_iff : Behind p [] rest ↔ rest = [] := by
  constructor
  · rintro ⟨run, -, heq⟩
    exact (List.append_eq_nil_iff.mp heq.symm).2
  · rintro rfl
    exact ⟨[], nofun, rfl⟩

@[simp] theorem behind_cons_iff {c : Char} {tail : Text} :
    Behind p (c :: tail) rest ↔ rest = c :: tail ∨ p c = true ∧ Behind p tail rest := by
  constructor
  · rintro ⟨run, hrun, heq⟩
    cases run with
    | nil => exact .inl heq.symm
    | cons d run =>
        obtain ⟨rfl, htail⟩ := List.cons.inj heq
        obtain ⟨hc, hrun⟩ := List.forall_mem_cons.mp hrun
        exact .inr ⟨hc, run, hrun, htail⟩
  · rintro (rfl | ⟨hc, run, hrun, rfl⟩)
    · exact ⟨[], nofun, rfl⟩
    · exact ⟨c :: run, List.forall_mem_cons.mpr ⟨hc, hrun⟩, rfl⟩

@[simp] theorem mem_afterMany {shorter : List Text} :
    rest ∈ afterMany p shorter path ↔ rest ∈ shorter ∨ Behind p path rest := by
  induction path generalizing shorter with
  | nil => rw [afterMany, List.mem_cons, behind_nil_iff, or_comm]
  | cons c tail ih =>
      rw [afterMany, behind_cons_iff]
      split
      · next hc => simp only [ih, List.mem_cons, hc, true_and, or_assoc, or_left_comm]
      · next hc => simp [hc, or_comm]

@[simp] theorem mem_afterSome :
    rest ∈ afterSome p path ↔ ∃ c tail, p c = true ∧ path = c :: tail ∧ Behind p tail rest := by
  cases path with
  | nil => simp [afterSome]
  | cons c tail =>
      rw [afterSome]
      split
      · next hc => simp [hc, mem_afterMany]
      · next hc => simp [hc]

namespace Piece

def Matches (pieces : List Piece) (path : Text) : Prop :=
  (matches? pieces path).isSome = true

variable {pieces : List Piece}

theorem matches_nil : Matches [] path := rfl

theorem matches_cons {piece : Piece} :
    Matches (piece :: pieces) path ↔ ∃ way ∈ piece.ways path, Matches pieces way.1 := by
  rw [Matches, matches?, List.findSome?_isSome_iff]
  simp only [Option.isSome_map, Matches]

@[simp] theorem matches_char {c : Char} :
    Matches (.char c :: pieces) path ↔ ∃ rest, path = c :: rest ∧ Matches pieces rest := by
  rw [matches_cons]
  constructor
  · rintro ⟨_, hway, hrest⟩
    obtain ⟨rest, hafter, rfl⟩ := List.mem_map.mp hway
    obtain ⟨d, hd, rfl⟩ := mem_afterChar.mp hafter
    exact ⟨rest, by rw [beq_iff_eq.mp hd], hrest⟩
  · rintro ⟨rest, rfl, hrest⟩
    have hafter : rest ∈ afterChar (· == c) (c :: rest) :=
      mem_afterChar.mpr ⟨c, beq_self_eq_true c, rfl⟩
    exact ⟨(rest, false), List.mem_map.mpr ⟨rest, hafter, rfl⟩, hrest⟩

@[simp] theorem matches_chars {word : Text} :
    Matches (word.map .char ++ pieces) path ↔
      ∃ rest, path = word ++ rest ∧ Matches pieces rest := by
  induction word generalizing path with
  | nil => simp
  | cons c word ih =>
      rw [List.map_cons, List.cons_append, matches_char]
      constructor
      · rintro ⟨tail, rfl, htail⟩
        obtain ⟨rest, rfl, hrest⟩ := ih.mp htail
        exact ⟨rest, rfl, hrest⟩
      · rintro ⟨rest, rfl, hrest⟩
        exact ⟨word ++ rest, rfl, ih.mpr ⟨rest, rfl, hrest⟩⟩

@[simp] theorem matches_run :
    Matches (.run :: pieces) path ↔ ∃ rest, Behind inName path rest ∧ Matches pieces rest := by
  rw [matches_cons]
  simp [ways]

@[simp] theorem matches_upperDirs :
    Matches (.upperDirs :: pieces) path ↔
      Matches pieces path ∨
        ∃ c tail rest, inLine c = true ∧ path = c :: tail ∧ Behind inLine tail ('/' :: rest) ∧
          Matches pieces rest := by
  rw [matches_cons]
  constructor
  · rintro ⟨_, hway, hrest⟩
    obtain ⟨rest, hafter, rfl⟩ := List.mem_map.mp hway
    rcases List.mem_append.mp hafter with hdirs | hnone
    · obtain ⟨slashed, hslashed, hslash⟩ := List.mem_flatMap.mp hdirs
      obtain ⟨c, tail, hc, rfl, hbehind⟩ := mem_afterSome.mp hslashed
      obtain ⟨d, hd, rfl⟩ := mem_afterChar.mp hslash
      rw [beq_iff_eq.mp hd] at hbehind
      exact .inr ⟨c, tail, rest, hc, rfl, hbehind, hrest⟩
    · rw [List.mem_singleton.mp hnone] at hrest
      exact .inl hrest
  · rintro (hpath | ⟨c, tail, rest, hc, rfl, hbehind, hrest⟩)
    · have hnone : (path, false) ∈ upperDirs.ways path :=
        List.mem_map.mpr ⟨path, List.mem_append_right _ (List.mem_singleton_self path), rfl⟩
      exact ⟨(path, false), hnone, hpath⟩
    · have hslashed : '/' :: rest ∈ afterSome inLine (c :: tail) :=
        mem_afterSome.mpr ⟨c, tail, hc, rfl, hbehind⟩
      have hafter : rest ∈ afterChar (· == '/') ('/' :: rest) :=
        mem_afterChar.mpr ⟨'/', rfl, rfl⟩
      have hdirs := List.mem_flatMap.mpr ⟨_, hslashed, hafter⟩
      exact ⟨(rest, false), List.mem_map.mpr ⟨rest, List.mem_append_left _ hdirs, rfl⟩, hrest⟩

@[simp] theorem matches_dirSlash : Matches [.dirSlash] path ↔ path.head? = some '/' := by
  rw [matches_cons]
  cases path with
  | nil => simp [ways, afterChar]
  | cons c tail => simp [ways, afterChar, matches_nil]

@[simp] theorem matches_nameEnd :
    Matches [.nameEnd] path ↔ path.head? = some '/' ∨ atEnd path = true := by
  rw [matches_cons]
  cases path with
  | nil => simp [ways, afterChar, matches_nil]
  | cons c tail => simp [ways, afterChar, matches_nil, exists_or]

end Piece

end CommentSweep.Ignore
