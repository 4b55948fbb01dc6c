import CommentSweep.Proofs.Script.Trace

/-!
A scan of what a scan has kept. The second scanner follows the first: it reads every character that
the first one keeps, in the same mode, and stands still while the first one drops a comment. The two
can only disagree about whether a slash opens a regex literal, because the first scanner sees the
comments before the slash and the second one does not.
-/

namespace CommentSweep.Script

/-- Every slash that a scanner reads between two tokens, and that opens no comment, is taken in the
same way after the source before it as after what is kept of that. -/
def SlashesAgree (source : Text) : Prop :=
  ∀ i < source.length, source[i]? = some '/' →
    source[i + 1]? ≠ some '/' → source[i + 1]? ≠ some '*' →
    (({} : State).after (source.take i) (source.drop i)).Ready →
    opensRegex (Text.lastVisible (source.take i)) =
      opensRegex (Text.lastVisible (({} : State).keeps (source.take i) (source.drop i)))

instance (source : Text) : Decidable (SlashesAgree source) :=
  inferInstanceAs (Decidable (∀ i < source.length, _))

namespace State

theorem head?_keeps {s : State} {ahead : Text}
    (hnext : ∀ c rest, ahead = c :: rest → (s.step c rest).1 = true) :
    (s.keeps ahead []).head? = ahead.head? := by
  cases ahead with
  | nil => rfl
  | cons c rest =>
      rw [keeps_cons, List.append_nil, hnext c rest rfl]
      rfl

theorem head?_keeps_doc (k : Bool) (prev : Option Char) (ahead : Text) :
    (State.keeps ⟨.doc, 0, k, prev⟩ ahead []).head? = ahead.head? := by
  apply head?_keeps
  intro c rest _
  rw [step_untied rfl, Mode.read]
  split <;> rfl

theorem head?_keeps_regex (inClass k : Bool) (prev : Option Char) (ahead : Text) :
    (State.keeps ⟨.regex inClass, 0, k, prev⟩ ahead []).head? = ahead.head? := by
  apply head?_keeps
  intro c rest _
  rw [step_untied rfl, Mode.read]
  split
  · rfl
  · split
    · rfl
    · split
      · rfl
      · split <;> rfl

theorem head?_keeps_code (k : Bool) (prev : Option Char) {ahead : Text}
    (hslash : ahead.head? ≠ some '/') :
    (State.keeps ⟨.code, 0, k, prev⟩ ahead []).head? = ahead.head? := by
  apply head?_keeps
  rintro c rest rfl
  have hc : ¬c = '/' := fun h => hslash (congrArg some h)
  rw [step_untied rfl, Mode.read]
  split
  · rfl
  · rw [if_neg (by simpa using hc)]
    split <;> rfl

theorem keeps_doc_opener (prev : Option Char) (tail : Text) :
    ∃ prev', State.keeps ⟨.doc, 2, true, prev⟩ ('*' :: '*' :: tail) [] =
      '*' :: '*' :: State.keeps ⟨.doc, 0, true, prev'⟩ tail [] :=
  ⟨_, rfl⟩

end State

theorem Mode.read_doc_again (prev prev' q : Option Char) (c : Char) (ahead : Text) :
    Mode.doc.read prev' c
        (State.keeps ⟨(Mode.doc.read prev c ahead).mode, (Mode.doc.read prev c ahead).tied,
          (Mode.doc.read prev c ahead).keep, q⟩ ahead []) =
      Mode.doc.read prev c ahead := by
  have hhead : ∀ v, v = Mode.doc.read prev c ahead →
      (State.keeps ⟨v.mode, v.tied, v.keep, q⟩ ahead []).head? = ahead.head? := by
    rintro v rfl
    rw [Mode.read]
    split
    · apply State.head?_keeps
      intro d rest _
      rfl
    · exact State.head?_keeps_doc true q ahead
  have hagain := hhead _ rfl
  generalize State.keeps _ ahead [] = out at hagain ⊢
  rw [Mode.read, Mode.read, hagain]

theorem Mode.read_code_again {prev prev' : Option Char} {c : Char} {ahead : Text}
    (hkeep : (Mode.code.read prev c ahead).keep = true)
    (hslashes : c = '/' → ahead.head? ≠ some '/' → ahead.head? ≠ some '*' →
      opensRegex prev = opensRegex prev') (q : Option Char) :
    Mode.code.read prev' c
        (State.keeps ⟨(Mode.code.read prev c ahead).mode, (Mode.code.read prev c ahead).tied,
          (Mode.code.read prev c ahead).keep, q⟩ ahead []) =
      Mode.code.read prev c ahead := by
  by_cases hc : c = '/'
  · subst hc
    by_cases hstar : ahead.head? = some '*'
    · obtain ⟨rest, rfl⟩ := List.head?_eq_some_iff.mp hstar
      cases hdoc : opensDoc ('/' :: '*' :: rest) with
      | false => simp [Mode.read, hdoc] at hkeep
      | true =>
          obtain ⟨tail, rfl, hfourth⟩ := opensDoc_iff.mp hdoc
          have hread : Mode.code.read prev '/' ('*' :: '*' :: tail) = ⟨true, .doc, 2⟩ := by
            simp [Mode.read, opensDoc, hfourth]
          obtain ⟨prev'', hout⟩ := State.keeps_doc_opener q tail
          rw [hread, hout]
          simp [Mode.read, opensDoc, State.head?_keeps_doc, hfourth]
    by_cases hline : ahead.head? = some '/'
    · obtain ⟨rest, rfl⟩ := List.head?_eq_some_iff.mp hline
      simp [Mode.read, opensDoc] at hkeep
    · rw [Mode.read_code_slash hstar hline]
      have hprev := hslashes rfl hline hstar
      cases hregex : opensRegex prev with
      | true =>
          have hhead := State.head?_keeps_regex false true q ahead
          rw [Mode.read_code_slash (hhead ▸ hstar) (hhead ▸ hline), ← hprev, hregex]
      | false =>
          have hhead := State.head?_keeps_code true q hline
          rw [Mode.read_code_slash (hhead ▸ hstar) (hhead ▸ hline), ← hprev, hregex]
  · generalize State.keeps _ ahead [] = out
    simp [Mode.read, hc]

theorem Mode.read_cases {mode : Mode} (hline : mode ≠ .line) (hblock : mode ≠ .block)
    (prev : Option Char) (c : Char) (ahead : Text) :
    ((mode.read prev c ahead).keep = true ∧ (mode.read prev c ahead).mode ≠ .line ∧
        (mode.read prev c ahead).mode ≠ .block) ∨
      (mode = .code ∧ (mode.read prev c ahead).keep = false ∧
        ((mode.read prev c ahead).mode = .line ∨ (mode.read prev c ahead).mode = .block)) := by
  cases mode with
  | line => exact absurd rfl hline
  | block => exact absurd rfl hblock
  | doc =>
      left
      rw [Mode.read]
      split <;> simp
  | quoted quote =>
      left
      rw [Mode.read]
      split
      · simp
      · split <;> simp
  | regex inClass =>
      left
      rw [Mode.read]
      split
      · simp
      · split
        · simp
        · split
          · simp
          · split <;> simp
  | code =>
      rw [Mode.read]
      split
      · exact .inl (by simp)
      · split
        · split
          · exact .inl (by simp)
          · split
            · exact .inr (by simp)
            · split
              · exact .inr (by simp)
              · split <;> exact .inl (by simp)
        · split <;> exact .inl (by simp)

theorem Mode.read_line_cases (prev : Option Char) (c : Char) (ahead : Text) :
    (c = '\n' ∧ Mode.line.read prev c ahead = ⟨true, .code, 0⟩) ∨
      ∃ keep, (keep = true → c = '\r') ∧ Mode.line.read prev c ahead = ⟨keep, .line, 0⟩ := by
  rw [Mode.read]
  split
  · next hc => exact .inl ⟨eq_of_beq hc, rfl⟩
  · refine .inr ⟨_, ?_, rfl⟩
    intro hkeep
    rw [Bool.and_eq_true] at hkeep
    exact eq_of_beq hkeep.1

theorem Mode.read_block_cases (prev : Option Char) (c : Char) (ahead : Text) :
    Mode.block.read prev c ahead = ⟨false, .code, 1⟩ ∨
      Mode.block.read prev c ahead = ⟨false, .block, 0⟩ := by
  rw [Mode.read]
  split
  · exact .inl rfl
  · exact .inr rfl

theorem State.Ready.step_terminator {u : State} (hready : u.Ready) {c : Char}
    (hc : c = '\n' ∨ c = '\r') (ahead : Text) :
    (u.step c ahead).1 = true ∧ (u.step c ahead).2.Ready := by
  rw [step_untied hready.untied, hready.mode]
  rcases hc with rfl | rfl
  · exact ⟨rfl, rfl, rfl⟩
  · exact ⟨rfl, rfl, rfl⟩

namespace State

/-- The second scanner `u` follows the first scanner `s`. -/
inductive Follows (u s : State) : Prop
  | together (hmode : u.mode = s.mode) (htied : u.tied = s.tied)
      (hkeep : s.tied ≠ 0 → s.keep = true ∧ u.keep = true)
      (hline : s.mode ≠ .line) (hblock : s.mode ≠ .block)
  /-- The first one is in a comment that is dropped. -/
  | inside (hready : u.Ready) (hmode : s.mode = .line ∨ s.mode = .block)
      (hkeep : s.tied ≠ 0 → s.keep = false)
  /-- The first one is about to leave a block comment. -/
  | leaving (hready : u.Ready) (hmode : s.mode = .code) (htied : s.tied = 1)
      (hkeep : s.keep = false)

namespace Follows

theorem of_ready {u s : State} (hu : u.Ready) (hs : s.Ready) : Follows u s := by
  refine .together (hu.mode.trans hs.mode.symm) (hu.untied.trans hs.untied.symm) ?_ ?_ ?_
  · intro htied
    exact absurd hs.untied htied
  · rw [hs.mode]
    exact nofun
  · rw [hs.mode]
    exact nofun

theorem read_again {mode : Mode} {prev prev' : Option Char} {c : Char} {ahead : Text}
    (hline : mode ≠ .line) (hblock : mode ≠ .block)
    (hkeep : (mode.read prev c ahead).keep = true)
    (hslashes : mode = .code → c = '/' → ahead.head? ≠ some '/' → ahead.head? ≠ some '*' →
      opensRegex prev = opensRegex prev') (q : Option Char) :
    mode.read prev' c
        (State.keeps ⟨(mode.read prev c ahead).mode, (mode.read prev c ahead).tied,
          (mode.read prev c ahead).keep, q⟩ ahead []) =
      mode.read prev c ahead := by
  cases mode with
  | code => exact Mode.read_code_again hkeep (hslashes rfl) q
  | line => exact absurd rfl hline
  | block => exact absurd rfl hblock
  | doc => exact Mode.read_doc_again prev prev' q c ahead
  | quoted quote => rfl
  | regex inClass => rfl

theorem step_keep {u s : State} (h : Follows u s) {c : Char} {ahead : Text}
    (hslashes : s.Ready → c = '/' → ahead.head? ≠ some '/' → ahead.head? ≠ some '*' →
      opensRegex s.prev = opensRegex u.prev)
    (hkeep : (s.step c ahead).1 = true) :
    (u.step c ((s.step c ahead).2.keeps ahead [])).1 = true ∧
      Follows (u.step c ((s.step c ahead).2.keeps ahead [])).2 (s.step c ahead).2 := by
  cases h with
  | together hmode htied htiedKeep hline hblock =>
      by_cases hs : s.tied = 0
      · have hu : u.tied = 0 := htied.trans hs
        rw [step_untied hs] at hkeep ⊢
        rw [step_untied hu, hmode]
        have hagain := read_again hline hblock hkeep
          (fun hcode => hslashes ⟨hcode, hs⟩) (if Text.isBlank c then s.prev else some c)
        simp only [hagain]
        obtain ⟨_, hl, hb⟩ | ⟨_, hdrop, _⟩ := Mode.read_cases hline hblock s.prev c ahead
        · exact ⟨hkeep, .together rfl rfl (fun _ => ⟨hkeep, hkeep⟩) hl hb⟩
        · rw [hdrop] at hkeep
          cases hkeep
      · obtain ⟨hsk, huk⟩ := htiedKeep hs
        rw [step_tied hs, step_tied (htied ▸ hs), htied]
        exact ⟨huk, .together hmode rfl (fun _ => ⟨hsk, huk⟩) hline hblock⟩
  | inside hready hmode htiedKeep =>
      by_cases hs : s.tied = 0
      · rw [step_untied hs] at hkeep ⊢
        rcases hmode with hmode | hmode
        · obtain ⟨hc, hread⟩ | ⟨keep, hc, hread⟩ := Mode.read_line_cases s.prev c ahead
          · rw [hmode, hread]
            obtain ⟨hkept, hnext⟩ := hready.step_terminator (.inl hc) _
            exact ⟨hkept, of_ready hnext ⟨rfl, rfl⟩⟩
          · rw [hmode, hread] at hkeep ⊢
            obtain ⟨hkept, hnext⟩ := hready.step_terminator (.inr (hc hkeep)) _
            exact ⟨hkept, .inside hnext (.inl rfl) fun htied => absurd rfl htied⟩
        · rw [hmode] at hkeep
          rcases Mode.read_block_cases s.prev c ahead with hread | hread
          · simp [hread] at hkeep
          · simp [hread] at hkeep
      · simp [hs, htiedKeep hs] at hkeep
  | leaving hready hmode htied hdrop => simp [htied, hdrop] at hkeep

theorem step_drop {u s : State} (h : Follows u s) {c : Char} {ahead : Text}
    (hdrop : (s.step c ahead).1 = false) : Follows u (s.step c ahead).2 := by
  cases h with
  | together hmode htied htiedKeep hline hblock =>
      by_cases hs : s.tied = 0
      · rw [step_untied hs] at hdrop ⊢
        obtain ⟨hkeep, _, _⟩ | ⟨hcode, _, hinto⟩ :=
          Mode.read_cases hline hblock s.prev c ahead
        · rw [hkeep] at hdrop
          cases hdrop
        · exact .inside ⟨hmode.trans hcode, htied.trans hs⟩ hinto fun _ => hdrop
      · simp [hs, (htiedKeep hs).1] at hdrop
  | inside hready hmode htiedKeep =>
      by_cases hs : s.tied = 0
      · rw [step_untied hs] at hdrop ⊢
        rcases hmode with hmode | hmode
        · obtain ⟨_, hread⟩ | ⟨keep, _, hread⟩ := Mode.read_line_cases s.prev c ahead
          · simp [hmode, hread] at hdrop
          · rw [hmode, hread]
            exact .inside hready (.inl rfl) fun htied => absurd rfl htied
        · rcases Mode.read_block_cases s.prev c ahead with hread | hread
          · rw [hmode, hread]
            exact .leaving hready rfl rfl rfl
          · rw [hmode, hread]
            exact .inside hready (.inr rfl) fun _ => rfl
      · rw [step_tied hs]
        exact .inside hready hmode fun _ => htiedKeep hs
  | leaving hready hmode htied hkeep =>
      rw [step_tied (by omega)]
      exact of_ready hready ⟨hmode, by simp [htied]⟩

end Follows

end State

open State

theorem SlashesAgree.at_slash {before rest : Text} (h : SlashesAgree (before ++ '/' :: rest))
    (hslash : rest.head? ≠ some '/') (hstar : rest.head? ≠ some '*')
    (hready : (({} : State).after before ('/' :: rest)).Ready) :
    opensRegex (Text.lastVisible before) =
      opensRegex (Text.lastVisible (({} : State).keeps before ('/' :: rest))) := by
  have hnext : (before ++ '/' :: rest)[before.length + 1]? = rest.head? := by
    rw [List.getElem?_append_right (by omega), Nat.add_sub_cancel_left,
      List.head?_eq_getElem?]
    rfl
  have hplace := h before.length (by simp)
  rw [List.take_left, List.drop_left, hnext] at hplace
  exact hplace (by simp) hslash hstar hready

theorem after_snoc (s : State) (t : Text) (c : Char) (ahead : Text) :
    s.after (t ++ [c]) ahead = ((s.after t (c :: ahead)).step c ahead).2 :=
  after_append s t [c] ahead

theorem keeps_snoc (s : State) (t : Text) (c : Char) (ahead : Text) :
    s.keeps (t ++ [c]) ahead =
      s.keeps t (c :: ahead) ++ if ((s.after t (c :: ahead)).step c ahead).1 then [c] else [] :=
  keeps_append s t [c] ahead

theorem keeps_keeps_of_follows {before rest : Text} {u : State}
    (hslashes : SlashesAgree (before ++ rest))
    (hfollows : Follows u (({} : State).after before rest))
    (hprev : u.prev = Text.lastVisible (({} : State).keeps before rest)) :
    u.keeps ((({} : State).after before rest).keeps rest []) [] =
      (({} : State).after before rest).keeps rest [] := by
  induction rest generalizing before u with
  | nil => rfl
  | cons c rest ih =>
      have hsource : before ++ c :: rest = (before ++ [c]) ++ rest := by simp
      have hafter := after_snoc {} before c rest
      have hkeeps := keeps_snoc {} before c rest
      have hagree : (({} : State).after before (c :: rest)).Ready → c = '/' →
          rest.head? ≠ some '/' → rest.head? ≠ some '*' →
          opensRegex (({} : State).after before (c :: rest)).prev = opensRegex u.prev := by
        rintro hready rfl hslash hstar
        simpa [hprev] using hslashes.at_slash hslash hstar hready
      generalize ({} : State).after before (c :: rest) = s at *
      rw [hsource] at hslashes
      rw [keeps_cons, List.append_nil]
      cases hkeep : (s.step c rest).1 with
      | true =>
          obtain ⟨hagain, hnext⟩ := hfollows.step_keep hagree hkeep
          rw [if_pos rfl, keeps_cons, List.append_nil, hagain, if_pos rfl]
          apply congrArg (c :: ·)
          rw [← hafter] at hnext ⊢
          apply ih hslashes hnext
          rw [step_prev, hkeeps, hkeep, if_pos rfl, Text.lastVisible_append_singleton, hprev]
      | false =>
          have hnext := hfollows.step_drop hkeep
          rw [if_neg Bool.false_ne_true]
          rw [← hafter] at hnext ⊢
          apply ih hslashes hnext
          rw [hkeeps, hkeep, if_neg Bool.false_ne_true, List.append_nil, hprev]

/-- Stripping a second time changes nothing, as long as no slash is taken differently once the
comments before it are gone. -/
theorem strip_strip_of_slashesAgree {source : Text} (hslashes : SlashesAgree source) :
    strip (strip source) = strip source := by
  rw [strip_eq, strip_eq]
  exact @keeps_keeps_of_follows [] source {} hslashes
    (Follows.of_ready ready_start ready_start) rfl

theorem strip_strip_division_behind_comment :
    let source : Text := ['x', '=', '1', '/', '*', 'c', '*', '/', '/', '2', ';', '/', '/', ';',
      '\n', '/', 'r', '/']
    SlashesAgree source ∧ strip (strip source) = strip source :=
  have hslashes : SlashesAgree ['x', '=', '1', '/', '*', 'c', '*', '/', '/', '2', ';', '/', '/',
      ';', '\n', '/', 'r', '/'] := by
    decide
  ⟨hslashes, strip_strip_of_slashesAgree hslashes⟩

end CommentSweep.Script
