import CommentSweep.Proofs.Script.Respaced
import Mathlib

/-!
Boundaries of a source. A source whose scan comes to rest where an expression is expected can be
followed by any other: each of the two is stripped as if it stood alone. Behind every other source
there is one that is not.
-/

namespace CommentSweep.Script

open State

/-- The scan ends between two tokens, and the last visible character, if there is one, lets a slash
open a regex literal. -/
structure Rests (source : Text) : Prop where
  ready : (({} : State).after source []).Ready
  expectant : ∀ c ∈ source.lastVisible, c ∈ regexPreceders

theorem opensRegex_iff {prev : Option Char} :
    opensRegex prev = true ↔ ∀ c ∈ prev, c ∈ regexPreceders := by
  cases prev with
  | none => simp [opensRegex]
  | some c => simp [opensRegex]

instance (source : Text) : Decidable (Rests source) :=
  decidable_of_iff ((({} : State).after source []).Ready ∧ opensRegex source.lastVisible = true)
    ⟨fun h => ⟨h.1, opensRegex_iff.mp h.2⟩, fun h => ⟨h.ready, opensRegex_iff.mpr h.expectant⟩⟩

theorem Mode.read_congr {c : Char} {t u : Text}
    (hhead : ∀ d ∈ ['/', '*', '\n'], (t.head? == some d) = (u.head? == some d))
    (hdoc : opensDoc (c :: t) = opensDoc (c :: u)) (mode : Mode) (prev : Option Char) :
    mode.read prev c t = mode.read prev c u := by
  have hslash := hhead '/' (by simp)
  have hstar := hhead '*' (by simp)
  have hfeed := hhead '\n' (by simp)
  cases mode with
  | code => rw [read, read, hdoc, hslash, hstar]
  | line => rw [read, read, hfeed]
  | block => rw [read, read, hslash]
  | doc => rw [read, read, hslash]
  | quoted quote => rfl
  | regex inClass => rfl

theorem opensDoc_append_cases (c d : Char) (t u : Text) :
    opensDoc (c :: d :: (t ++ u)) = opensDoc (c :: d :: t) ∨
      c = '/' ∧ d = '*' ∧ (t = [] ∨ t = ['*']) := by
  by_cases hc : c = '/'
  · by_cases hd : d = '*'
    · subst hc hd
      cases t with
      | nil => exact .inr ⟨rfl, rfl, .inl rfl⟩
      | cons e t =>
          by_cases he : e = '*'
          · subst he
            cases t with
            | nil => exact .inr ⟨rfl, rfl, .inr rfl⟩
            | cons f t => exact .inl rfl
          · exact .inl (by simp [opensDoc, he])
    · exact .inl (by simp [opensDoc, hd])
  · exact .inl (by simp [opensDoc, hc])

namespace State

theorem trace_congr {I : State → Text → Prop} {u : Text}
    (hstep : ∀ s c t, I s (c :: t) → s.step c (t ++ u) = s.step c t ∧ I (s.step c t).2 t)
    {s : State} {t : Text} (h : I s t) :
    s.keeps t u = s.keeps t [] ∧ s.after t u = s.after t [] := by
  induction t generalizing s with
  | nil => exact ⟨rfl, rfl⟩
  | cons c t ih =>
      obtain ⟨hsame, hnext⟩ := hstep s c t h
      obtain ⟨hkeeps, hafter⟩ := ih hnext
      constructor
      · simp [hsame, hkeeps]
      · simp [hsame, hafter]

structure Resting (s : State) : Prop where
  ready : s.Ready
  expectant : opensRegex s.prev = true

theorem step_last {s : State} {c : Char} (h : (s.step c []).2.Resting) (u : Text) :
    s.step c u = s.step c [] := by
  by_cases htied : s.tied = 0
  · obtain ⟨⟨hmode, -⟩, hprev⟩ := h
    rw [step_untied htied] at hmode hprev
    have hread : s.mode.read s.prev c u = s.mode.read s.prev c [] := by
      cases hs : s.mode with
      | code =>
          by_cases hc : c = '/'
          · subst hc
            have hslash : opensRegex (some '/') = true := hprev
            exact absurd hslash (by decide)
          · simp [Mode.read, hc]
      | line =>
          by_cases hc : c = '\n'
          · simp [Mode.read, hc]
          · simp [hs, Mode.read, hc] at hmode
      | block => simp [hs, Mode.read] at hmode
      | doc => simp [hs, Mode.read] at hmode
      | quoted quote => rfl
      | regex inClass => rfl
    simp [htied, hread]
  · simp [htied]

theorem step_inside {s : State} {c d : Char} {t : Text}
    (h : (s.after (c :: d :: t) []).Resting) (u : Text) :
    s.step c (d :: (t ++ u)) = s.step c (d :: t) := by
  by_cases htied : s.tied = 0
  · have hread : s.mode.read s.prev c (d :: (t ++ u)) = s.mode.read s.prev c (d :: t) := by
      rcases opensDoc_append_cases c d t u with hdoc | ⟨rfl, rfl, hshort⟩
      · apply Mode.read_congr _ hdoc
        intro e he
        rfl
      · obtain ⟨mode, tied, keep, prev⟩ := s
        obtain rfl : tied = 0 := htied
        cases mode with
        | code =>
            rcases hshort with rfl | rfl
            · have hblock : Mode.block = .code := h.ready.mode
              cases hblock
            · have hdoc : Mode.doc = .code := h.ready.mode
              cases hdoc
        | _ => rfl
    simp [htied, hread]
  · simp [htied]

theorem trace_of_resting {s : State} {t : Text} (h : (s.after t []).Resting) (u : Text) :
    s.keeps t u = s.keeps t [] ∧ s.after t u = s.after t [] := by
  apply trace_congr (I := fun s t => (s.after t []).Resting) _ h
  intro s c t hrest
  constructor
  · cases t with
    | nil => exact step_last hrest u
    | cons d t => exact step_inside hrest u
  · rw [after_cons, List.append_nil] at hrest
    exact hrest

/-- Two states in which scanners do the same: they need to agree on the last visible character only
as far as a slash is concerned. -/
structure Agrees (s u : State) : Prop where
  mode : s.mode = u.mode
  tied : s.tied = u.tied
  keep : s.tied ≠ 0 → s.keep = u.keep
  opens : opensRegex s.prev = opensRegex u.prev

theorem Resting.agrees {s u : State} (hs : s.Resting) (hu : u.Resting) : s.Agrees u where
  mode := hs.ready.mode.trans hu.ready.mode.symm
  tied := hs.ready.untied.trans hu.ready.untied.symm
  keep := fun htied => absurd hs.ready.untied htied
  opens := hs.expectant.trans hu.expectant.symm

namespace Agrees

variable {s u : State}

theorem read_eq (h : s.Agrees u) (c : Char) (ahead : Text) :
    s.mode.read s.prev c ahead = u.mode.read u.prev c ahead := by
  rw [h.mode]
  cases u.mode with
  | code => rw [Mode.read, Mode.read, h.opens]
  | _ => rfl

theorem step (h : s.Agrees u) (c : Char) (ahead : Text) :
    (s.step c ahead).1 = (u.step c ahead).1 ∧ (s.step c ahead).2.Agrees (u.step c ahead).2 := by
  have hopens : opensRegex (if Text.isBlank c then s.prev else some c) =
      opensRegex (if Text.isBlank c then u.prev else some c) := by
    split
    · exact h.opens
    · rfl
  by_cases htied : s.tied = 0
  · rw [step_untied htied, step_untied (h.tied.symm.trans htied), h.read_eq]
    exact ⟨rfl, rfl, rfl, fun _ => rfl, hopens⟩
  · have hkeep := h.keep htied
    rw [step_tied htied, step_tied (h.tied ▸ htied), h.tied]
    exact ⟨hkeep, h.mode, rfl, fun _ => hkeep, hopens⟩

theorem keeps_eq (h : s.Agrees u) (t ahead : Text) : s.keeps t ahead = u.keeps t ahead := by
  induction t generalizing s u with
  | nil => rfl
  | cons c t ih =>
      obtain ⟨hkeep, hnext⟩ := h.step c (t ++ ahead)
      simp [hkeep, ih hnext]

end Agrees

def isNeutral (c : Char) : Bool :=
  c != '/' && c != '*' && c != '\n'

theorem trace_neutral {d : Char} (hd : isNeutral d = true) (s : State) (t u : Text) :
    s.keeps t (d :: u) = s.keeps t [] ∧ s.after t (d :: u) = s.after t [] := by
  obtain ⟨hslash, hstar, hfeed⟩ : d ≠ '/' ∧ d ≠ '*' ∧ d ≠ '\n' := by
    simpa [isNeutral, and_assoc] using hd
  have hdoc (c : Char) (t : Text) : opensDoc (c :: (t ++ d :: u)) = opensDoc (c :: t) := by
    cases t with
    | nil => simp [opensDoc, hstar]
    | cons e t =>
        rcases opensDoc_append_cases c e t (d :: u) with hsame | ⟨rfl, rfl, rfl | rfl⟩
        · exact hsame
        · simp [opensDoc, hstar]
        · simp [opensDoc, bne, hslash]
  apply trace_congr (I := fun _ _ => True) _ trivial
  intro s c t _
  refine ⟨?_, trivial⟩
  have hread : s.mode.read s.prev c (t ++ d :: u) = s.mode.read s.prev c t := by
    apply Mode.read_congr _ (hdoc c t)
    cases t with
    | nil => simp [hslash, hstar, hfeed]
    | cons e t => simp
  by_cases htied : s.tied = 0
  · simp [htied, hread]
  · simp [htied]

section Tied

variable {mode : Mode} {tied : Nat} {keep : Bool} {prev : Option Char}

theorem exists_keeps_tied (mode : Mode) (keep : Bool) (prev : Option Char) (front t : Text) :
    ∃ prev', State.keeps ⟨mode, front.length, keep, prev⟩ (front ++ t) [] =
      (if keep then front else []) ++ State.keeps ⟨mode, 0, keep, prev'⟩ t [] := by
  induction front generalizing prev with
  | nil => exact ⟨prev, by simp⟩
  | cons c front ih =>
      obtain ⟨prev', hkeeps⟩ := ih (if Text.isBlank c then prev else some c)
      refine ⟨prev', ?_⟩
      cases keep <;> simp [hkeeps]

theorem mode_eq_code_of_keeps
    (h : State.keeps ⟨mode, tied, keep, prev⟩ (List.replicate tied ' ' ++ [' ', '/', '/']) [] =
      List.replicate tied ' ' ++ [' ']) : mode = .code := by
  obtain ⟨prev', hkeeps⟩ :=
    exists_keeps_tied mode keep prev (List.replicate tied ' ') [' ', '/', '/']
  rw [List.length_replicate, h] at hkeeps
  have hsome : State.keeps ⟨mode, 0, keep, prev'⟩ [' ', '/', '/'] [] ≠ [] := by
    intro hnone
    have hlength := congrArg List.length hkeeps
    rw [hnone] at hlength
    cases keep <;> simp at hlength
  have hslash : '/' ∉ State.keeps ⟨mode, 0, keep, prev'⟩ [' ', '/', '/'] [] := by
    intro hmem
    have hboth := List.mem_append_right (if keep then List.replicate tied ' ' else []) hmem
    rw [← hkeeps] at hboth
    simp at hboth
  cases mode with
  | code => rfl
  | line => exact absurd rfl hsome
  | block => exact absurd rfl hsome
  | doc => exact absurd (by simp [keeps, step, Mode.read]) hslash
  | quoted quote =>
      exact absurd (by cases quote <;> simp [keeps, step, Mode.read, Quote.char]) hslash
  | regex inClass => exact absurd (by cases inClass <;> simp [keeps, step, Mode.read]) hslash

theorem keeps_tied_escape_ne :
    State.keeps ⟨.code, tied + 1, keep, prev⟩ (List.replicate tied ' ' ++ ['\\', '/', '/']) [] ≠
      List.replicate tied ' ' ++ ['\\', '/', '/'] := by
  intro h
  obtain ⟨prev', hkeeps⟩ :=
    exists_keeps_tied .code keep prev (List.replicate tied ' ' ++ ['\\']) ['/', '/']
  rw [List.length_append, List.length_replicate, List.length_singleton, List.append_assoc,
    List.singleton_append] at hkeeps
  have hline : State.keeps ⟨.code, 0, keep, prev'⟩ ['/', '/'] [] = [] := rfl
  have hmem : '/' ∈ List.replicate tied ' ' ++ ['\\', '/', '/'] := by simp
  rw [← h, hkeeps, hline] at hmem
  cases keep <;> simp at hmem

theorem opensRegex_of_keeps
    (h : State.keeps ⟨.code, 0, keep, prev⟩ [' ', '/', 'a', '/', '/'] [] =
      [' ', '/', 'a', '/', '/']) : opensRegex prev = true := by
  cases hopens : opensRegex prev with
  | true => rfl
  | false =>
      have hdivision : State.keeps ⟨.code, 0, keep, prev⟩ [' ', '/', 'a', '/', '/'] [] =
          [' ', '/', 'a'] := by
        simp [keeps, step, Mode.read, opensDoc, hopens, Text.isBlank, Quote.ofChar?, Quote.char]
      rw [hdivision] at h
      cases h

end Tied

/-- A scanner has come to rest if it reads every text that starts with a neutral character as it
would at the start of a source. -/
theorem resting_of_keeps {s : State}
    (h : ∀ t, (∀ d ∈ t.head?, isNeutral d = true) → s.keeps t [] = strip t) : s.Resting := by
  obtain ⟨mode, tied, keep, prev⟩ := s
  have hneutral (n : Nat) {d : Char} (hd : isNeutral d = true) (t : Text) :
      ∀ c ∈ (List.replicate n ' ' ++ d :: t).head?, isNeutral c = true := by
    cases n with
    | zero => simpa using hd
    | succ n => simp [List.replicate_succ, isNeutral]
  have hblanks (n : Nat) (t : Text) :
      strip (List.replicate n ' ' ++ t) = List.replicate n ' ' ++ strip t := by
    apply strip_blanks_append
    intro c hc
    rw [List.eq_of_mem_replicate hc]
    decide
  obtain rfl : mode = .code := by
    have hline := h _ (hneutral tied (d := ' ') rfl ['/', '/'])
    rw [hblanks] at hline
    exact mode_eq_code_of_keeps hline
  cases tied with
  | zero => exact ⟨⟨rfl, rfl⟩, opensRegex_of_keeps (h _ (hneutral 0 (d := ' ') rfl _))⟩
  | succ tied =>
      have hescape := h _ (hneutral tied (d := '\\') rfl ['/', '/'])
      rw [hblanks] at hescape
      exact absurd hescape keeps_tied_escape_ne

end State

theorem rests_iff {source : Text} :
    Rests source ↔ (({} : State).after source []).Resting := by
  have hprev : (({} : State).after source []).prev = source.lastVisible := by
    simp
  constructor
  · intro h
    exact ⟨h.ready, by rw [hprev, opensRegex_iff]; exact h.expectant⟩
  · intro h
    exact ⟨h.ready, by rw [← hprev, ← opensRegex_iff]; exact h.expectant⟩

theorem strip_append (p q : Text) :
    strip (p ++ q) = ({} : State).keeps p q ++ (({} : State).after p q).keeps q [] := by
  simp [strip_eq]

/-- What follows a source is stripped as if it stood alone exactly if the source comes to rest. Then
neither side of the boundary has a part in what is kept of the other. -/
theorem strip_append_iff_rests (p : Text) :
    (Rests p ↔ ∀ q, strip (p ++ q) = strip p ++ strip q) ∧
      (Rests p → ∀ q, ({} : State).keeps p q = strip p ∧
        (({} : State).after p q).keeps q [] = strip q) := by
  have hsides (h : Rests p) (q : Text) : ({} : State).keeps p q = strip p ∧
      (({} : State).after p q).keeps q [] = strip q := by
    have hrest := rests_iff.mp h
    obtain ⟨hkeeps, hafter⟩ := trace_of_resting hrest q
    rw [hkeeps, hafter, strip_eq, strip_eq]
    exact ⟨rfl, (hrest.agrees ⟨ready_start, rfl⟩).keeps_eq q []⟩
  refine ⟨⟨?_, ?_⟩, hsides⟩
  · intro h q
    obtain ⟨hbefore, hbehind⟩ := hsides h q
    rw [strip_append, hbefore, hbehind]
  · intro h
    rw [rests_iff]
    apply resting_of_keeps
    intro q hneutral
    cases q with
    | nil => rfl
    | cons d q =>
        obtain ⟨hkeeps, hafter⟩ := trace_neutral (hneutral d rfl) {} p q
        have hsplit := h (d :: q)
        rw [strip_append, hkeeps, hafter, ← strip_eq] at hsplit
        exact List.append_cancel_left hsplit

theorem strip_append_iff_rests_regex :
    let p : Text := ['/', '*', '*', '\x22', '*', '/', '(', ' ']
    let q : Text := ['/', '[', '/', '/', ']', '/', '/', '/', ')']
    Rests p ∧ strip (p ++ q) = strip p ++ strip q :=
  have hrests : Rests ['/', '*', '*', '\x22', '*', '/', '(', ' '] := by decide
  ⟨hrests, (strip_append_iff_rests _).1.mp hrests _⟩

-- Neither a slash nor the opener of a doc comment is a boundary.
example : ¬Rests ['/'] ∧ strip ['/', '/', 'a'] ≠ strip ['/'] ++ strip ['/', 'a'] := by decide

example :
    let p : Text := ['/', '*', '*', ' ', '(']
    ¬Rests p ∧ strip (p ++ ['/', '/', 'a']) ≠ strip p ++ strip ['/', '/', 'a'] := by
  decide

end CommentSweep.Script
