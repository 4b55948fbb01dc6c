import CommentSweep.Proofs.Script.Lexing
import Mathlib

/-!
The scanner as a loop of strides. A stride takes one character, the two of an opener, a closer or a
line terminator, or a whole doc comment; then the loop looks through what it took for the last
character that is not blank. The loop keeps what the scanner keeps, and at each of its heads it
remembers the last character of the source before it that is not blank.
-/

namespace CommentSweep.Script

def opensRegexBehind (preceders : Text) : Option Char → Bool
  | none => true
  | some c => preceders.contains c

/-- What the loop knows before a stride. -/
structure Head where
  mode : Mode := .code
  escaped : Bool := false
  prev : Option Char := none
  deriving DecidableEq, Repr

structure Stride where
  keep : Bool
  /-- How many characters are taken besides the first. -/
  more : Nat
  mode : Mode
  escapes : Bool
  deriving DecidableEq, Repr

def Head.stride (preceders : Text) (head : Head) (c : Char) (ahead : Text) : Stride :=
  if head.escaped then ⟨true, 0, head.mode, false⟩
  else
    match head.mode with
    | .line =>
        if c == '\n' then ⟨true, 0, .code, false⟩
        else if c == '\r' && ahead.head? == some '\n' then ⟨true, 1, .code, false⟩
        else ⟨false, 0, .line, false⟩
    | .block =>
        if c == '*' && ahead.head? == some '/' then ⟨false, 1, .code, false⟩
        else ⟨false, 0, .block, false⟩
    | .doc =>
        if c == '*' && ahead.head? == some '/' then ⟨true, 1, .code, false⟩
        else ⟨true, 0, .doc, false⟩
    | .code =>
        if c == '\\' then ⟨true, 0, .code, true⟩
        else if opensDoc (c :: ahead) then
          ⟨true, Text.through ['*', '/'] (ahead.drop 2) + 2, .code, false⟩
        else if c == '/' && ahead.head? == some '*' then ⟨false, 1, .block, false⟩
        else if c == '/' && ahead.head? == some '/' then ⟨false, 1, .line, false⟩
        else if c == '/' && opensRegexBehind preceders head.prev then ⟨true, 0, .regex false, false⟩
        else ⟨true, 0, (Quote.ofChar? c).elim .code .quoted, false⟩
    | .quoted quote =>
        if c == '\\' then ⟨true, 0, .quoted quote, true⟩
        else ⟨true, 0, if c == quote.char then .code else .quoted quote, false⟩
    | .regex inClass =>
        if c == '\\' then ⟨true, 0, .regex inClass, true⟩
        else if c == '[' then ⟨true, 0, .regex true, false⟩
        else if c == ']' then ⟨true, 0, .regex false, false⟩
        else ⟨true, 0, if c == '/' && !inClass then .code else .regex inClass, false⟩

def lookback (prev : Option Char) (taken : Text) : Option Char :=
  taken.foldl (fun prev c => if Text.isBlank c then prev else some c) prev

def Head.behind (head : Head) (stride : Stride) (taken : Text) : Head :=
  ⟨stride.mode, stride.escapes, lookback head.prev taken⟩

def Head.loop (preceders : Text) (head : Head) : Text → Text
  | [] => []
  | c :: ahead =>
      let stride := head.stride preceders c ahead
      let taken := c :: ahead.take stride.more
      (if stride.keep then taken else []) ++
        loop preceders (head.behind stride taken) (ahead.drop stride.more)
termination_by t => t.length
decreasing_by
  rw [List.length_drop, List.length_cons]
  omega

def strides (preceders source : Text) : Text :=
  Head.loop preceders {} source

/-- The heads that the loop comes to, with their places in the source. -/
inductive Reached (preceders source : Text) : Nat → Head → Prop
  | start : Reached preceders source 0 {}
  | stride {i : Nat} {head : Head} (h : Reached preceders source i head) {c : Char} {ahead : Text}
      (hsource : source.drop i = c :: ahead) :
      Reached preceders source (i + ((head.stride preceders c ahead).more + 1))
        (head.behind (head.stride preceders c ahead)
          (c :: ahead.take (head.stride preceders c ahead).more))

theorem lookback_eq (prev : Option Char) (taken : Text) :
    lookback prev taken = (Text.lastVisible taken).or prev := by
  induction taken generalizing prev with
  | nil => rfl
  | cons c taken ih =>
      rw [lookback, List.foldl_cons]
      refine (ih _).trans ?_
      rw [← List.singleton_append, Text.lastVisible_append, Option.or_assoc]
      cases hc : Text.isBlank c <;> simp [Text.lastVisible, hc]

theorem isBlank_lastVisible {t : Text} {c : Char} (h : c ∈ Text.lastVisible t) :
    Text.isBlank c = false := by
  have hmem := List.mem_of_getLast? h
  simpa using (List.mem_filter.mp hmem).2

/-- However long the strides were, the head of the loop remembers the last character before it that
is not blank. -/
theorem Reached.prev_eq {preceders source : Text} {i : Nat} {head : Head}
    (h : Reached preceders source i head) : head.prev = Text.lastVisible (source.take i) := by
  induction h with
  | start => rfl
  | @stride i head h c ahead hsource ih =>
      rw [List.take_add, hsource, List.take_succ_cons, Text.lastVisible_append]
      rw [Head.behind, lookback_eq, ih]

@[simp] theorem opensRegexBehind_regexPreceders (prev : Option Char) :
    opensRegexBehind regexPreceders prev = opensRegex prev := by
  cases prev with
  | none => rfl
  | some c => rfl

theorem Mode.read_code_plain {c : Char} (hback : c ≠ '\\') (hslash : c ≠ '/')
    (prev : Option Char) (ahead : Text) :
    Mode.code.read prev c ahead = ⟨true, (Quote.ofChar? c).elim .code .quoted, 0⟩ := by
  simp only [Mode.read, beq_iff_eq, if_neg hback, if_neg hslash]
  cases Quote.ofChar? c with
  | none => rfl
  | some quote => rfl

theorem exists_of_opensDoc {t : Text} (h : opensDoc t = true) :
    ∃ tail, t = '/' :: '*' :: '*' :: tail ∧ tail.head? ≠ some '/' := by
  unfold opensDoc at h
  split at h
  · next tail => exact ⟨tail, rfl, by simpa using h⟩
  · exact absurd h Bool.false_ne_true

theorem eq_cons_of_pair {c d e : Char} {ahead : Text}
    (h : (c == d && ahead.head? == some e) = true) : c = d ∧ ∃ tail, ahead = e :: tail := by
  obtain ⟨hc, hahead⟩ := Bool.and_eq_true_iff.mp h
  exact ⟨eq_of_beq hc, List.head?_eq_some_iff.mp (eq_of_beq hahead)⟩

namespace State

/-- The scanner is where the loop is. A backslash has the next character tied to it. -/
structure At (s : State) (head : Head) : Prop where
  mode : s.mode = head.mode
  prev : s.prev = head.prev
  tied : s.tied = if head.escaped then 1 else 0
  keep : head.escaped = true → s.keep = true

theorem At.of_untied {s : State} {mode : Mode} {prev : Option Char} (hmode : s.mode = mode)
    (hprev : s.prev = prev) (huntied : s.tied = 0) : s.At ⟨mode, false, prev⟩ :=
  ⟨hmode, hprev, huntied, fun h => absurd h Bool.false_ne_true⟩

/-- Of the characters of a stride the scanner keeps what the loop keeps, and behind them it is where
the loop is, unless the source ends there. -/
structure Tracks (s : State) (head : Head) (stride : Stride) (taken ahead : Text) : Prop where
  keeps : s.keeps taken ahead = if stride.keep then taken else []
  behind : ahead ≠ [] → (s.after taken ahead).At (head.behind stride taken)

def TracksStride (s : State) (head : Head) (c : Char) (ahead : Text) : Prop :=
  s.Tracks head (head.stride regexPreceders c ahead)
    (c :: ahead.take (head.stride regexPreceders c ahead).more)
    (ahead.drop (head.stride regexPreceders c ahead).more)

@[simp] theorem keeps_tied (mode : Mode) (k : Bool) (prev : Option Char) (t ahead : Text) :
    State.keeps ⟨mode, t.length, k, prev⟩ t ahead = if k then t else [] := by
  induction t generalizing prev with
  | nil => simp
  | cons c t ih => cases k <;> simp [ih]

@[simp] theorem after_tied (mode : Mode) (k : Bool) (prev : Option Char) (t ahead : Text) :
    State.after ⟨mode, t.length, k, prev⟩ t ahead = ⟨mode, 0, k, lookback prev t⟩ := by
  induction t generalizing prev with
  | nil => rfl
  | cons c t ih => simp [ih, lookback]

variable {s : State} {head : Head}

theorem At.tracks_read (hat : s.At head) (hescaped : head.escaped = false) {c : Char}
    {ahead : Text} {v : Verdict} (hread : head.mode.read head.prev c ahead = v)
    (htied : v.tied ≤ ahead.length) :
    s.Tracks head ⟨v.keep, v.tied, v.mode, false⟩ (c :: ahead.take v.tied)
      (ahead.drop v.tied) := by
  have huntied : s.tied = 0 := by rw [hat.tied, hescaped]; rfl
  have hstep := step_untied huntied c ahead
  have hlength : (ahead.take v.tied).length = v.tied := List.length_take_of_le htied
  rw [hat.mode, hat.prev, hread] at hstep
  nth_rewrite 1 [← hlength] at hstep
  constructor
  · rw [keeps_cons, List.take_append_drop, hstep, keeps_tied]
    cases v.keep <;> rfl
  · intro _
    rw [after_cons, List.take_append_drop, hstep, after_tied]
    exact At.of_untied rfl rfl rfl

theorem At.tracks_one (hat : s.At head) (hescaped : head.escaped = false) {c : Char}
    {ahead : Text} {keep : Bool} {mode : Mode}
    (hread : head.mode.read head.prev c ahead = ⟨keep, mode, 0⟩) :
    s.Tracks head ⟨keep, 0, mode, false⟩ [c] ahead :=
  hat.tracks_read hescaped hread (Nat.zero_le _)

theorem At.tracks_two (hat : s.At head) (hescaped : head.escaped = false) {c d : Char}
    {ahead : Text} {keep : Bool} {mode : Mode}
    (hread : head.mode.read head.prev c (d :: ahead) = ⟨keep, mode, 1⟩) :
    s.Tracks head ⟨keep, 1, mode, false⟩ [c, d] ahead :=
  hat.tracks_read hescaped hread (Nat.succ_le_succ (Nat.zero_le _))

theorem At.tracks_backslash (hat : s.At head) (hescaped : head.escaped = false) {ahead : Text}
    {mode : Mode} (hread : head.mode.read head.prev '\\' ahead = ⟨true, mode, 1⟩) :
    s.Tracks head ⟨true, 0, mode, true⟩ ['\\'] ahead := by
  have huntied : s.tied = 0 := by rw [hat.tied, hescaped]; rfl
  have hstep := step_untied huntied '\\' ahead
  rw [hat.mode, hat.prev, hread] at hstep
  constructor
  · rw [keeps_cons, List.nil_append, hstep]
    rfl
  · intro _
    rw [after_cons, List.nil_append, hstep]
    exact ⟨rfl, rfl, rfl, fun _ => rfl⟩

theorem At.tracks_escaped (hat : s.At head) (hescaped : head.escaped = true) (c : Char)
    (ahead : Text) : s.Tracks head ⟨true, 0, head.mode, false⟩ [c] ahead := by
  have htied : s.tied = 1 := by simp [hat.tied, hescaped]
  constructor
  · simp [htied, hat.keep hescaped]
  · intro _
    rw [after_cons, step_tied (by omega), htied, hat.prev]
    exact At.of_untied hat.mode rfl rfl

theorem At.tracks_completes (hat : s.At head) {taken ahead : Text} {keep : Bool} (more : Nat)
    (h : s.Completes taken ahead (if keep then taken else [])) :
    s.Tracks head ⟨keep, more, .code, false⟩ taken ahead where
  keeps := h.keeps
  behind := by
    intro hahead
    have hready := h.ready hahead
    have hprev : (s.after taken ahead).prev = lookback head.prev taken := by
      simp [lookback_eq, hat.prev]
    exact At.of_untied hready.mode hprev hready.untied

theorem At.eq_of_unescaped (hat : s.At head) (hescaped : head.escaped = false) :
    s = ⟨head.mode, 0, s.keep, head.prev⟩ := by
  have htied : s.tied = 0 := by rw [hat.tied, hescaped]; rfl
  cases s
  cases hat.mode
  cases hat.prev
  cases htied
  rfl

theorem At.tracks_crlf (hat : s.At head) (hescaped : head.escaped = false)
    (hmode : head.mode = .line) (ahead : Text) :
    s.Tracks head ⟨true, 1, .code, false⟩ ['\r', '\n'] ahead := by
  apply hat.tracks_completes
  rw [hat.eq_of_unescaped hescaped, hmode]
  exact Completes.read (v := ⟨true, .line, 0⟩) rfl rfl
    fun _ => Completes.read (v := ⟨true, .code, 0⟩) rfl rfl
      fun _ => Completes.done fun _ => ⟨rfl, rfl⟩

theorem At.tracks_doc (hat : s.At head) (hescaped : head.escaped = false)
    (hmode : head.mode = .code) {tail : Text} (hfourth : tail.head? ≠ some '/') :
    s.Tracks head ⟨true, Text.through ['*', '/'] tail + 2, .code, false⟩
      ('/' :: '*' :: '*' :: tail.take (Text.through ['*', '/'] tail))
      (tail.drop (Text.through ['*', '/'] tail)) := by
  have hread : Mode.code.read head.prev '/' ('*' :: '*' :: tail) = ⟨true, .doc, 2⟩ := by
    simp [Mode.read, opensDoc, hfourth]
  apply hat.tracks_completes
  rw [hat.eq_of_unescaped hescaped, hmode]
  have hsplit : '*' :: '*' :: tail.take (Text.through ['*', '/'] tail) ++
      tail.drop (Text.through ['*', '/'] tail) = '*' :: '*' :: tail := by
    rw [List.cons_append, List.cons_append, List.take_append_drop]
  exact Completes.read hsplit hread fun _ => Completes.tied fun _ => Completes.tied
    (completes_enclosed Mode.endsAtCloser_doc tail true)

theorem At.tracks_code (hat : s.At head) (hescaped : head.escaped = false)
    (hmode : head.mode = .code) (c : Char) (ahead : Text) :
    s.TracksStride head c ahead := by
  simp only [TracksStride, Head.stride, hescaped, hmode, Bool.false_eq_true, if_false,
    opensRegexBehind_regexPreceders]
  split
  · next hback =>
      obtain rfl := eq_of_beq hback
      exact hat.tracks_backslash hescaped (by rw [hmode]; rfl)
  next hback =>
  split
  · next hdoc =>
      obtain ⟨tail, htext, hfourth⟩ := exists_of_opensDoc hdoc
      obtain ⟨rfl, rfl⟩ := List.cons.inj htext
      exact hat.tracks_doc hescaped hmode hfourth
  next hdoc =>
  split
  · next hblock =>
      obtain ⟨rfl, tail, rfl⟩ := eq_cons_of_pair hblock
      exact hat.tracks_two hescaped (by simp [hmode, Mode.read, hdoc])
  next hblock =>
  split
  · next hline =>
      obtain ⟨rfl, tail, rfl⟩ := eq_cons_of_pair hline
      exact hat.tracks_two hescaped (by simp [hmode, Mode.read, hdoc])
  next hline =>
  -- No comment starts here, so only the lookback can tell a slash from a regex literal.
  have hslash : c = '/' → head.mode.read head.prev c ahead =
      if opensRegex head.prev then ⟨true, .regex false, 0⟩ else ⟨true, .code, 0⟩ := by
    rintro rfl
    rw [hmode]
    exact Mode.read_code_slash (by simpa using hblock) (by simpa using hline) head.prev
  split
  · next hregex =>
      obtain ⟨hc, hopens⟩ := Bool.and_eq_true_iff.mp hregex
      have hread := hslash (eq_of_beq hc)
      rw [if_pos hopens] at hread
      exact hat.tracks_one hescaped hread
  · next hregex =>
      by_cases hc : c = '/'
      · have hread := hslash hc
        have hcloses : ¬opensRegex head.prev = true := by simpa [hc] using hregex
        rw [if_neg hcloses] at hread
        subst hc
        exact hat.tracks_one hescaped hread
      · refine hat.tracks_one hescaped ?_
        rw [hmode]
        exact Mode.read_code_plain (by simpa using hback) hc head.prev ahead

theorem At.tracks_line (hat : s.At head) (hescaped : head.escaped = false)
    (hmode : head.mode = .line) (c : Char) (ahead : Text) : s.TracksStride head c ahead := by
  simp only [TracksStride, Head.stride, hescaped, hmode, Bool.false_eq_true, if_false]
  split
  · next hfeed => exact hat.tracks_one hescaped (by simp [hmode, Mode.read, hfeed])
  next hfeed =>
  split
  · next hcrlf =>
      obtain ⟨rfl, tail, rfl⟩ := eq_cons_of_pair hcrlf
      exact hat.tracks_crlf hescaped hmode tail
  · next hcrlf => exact hat.tracks_one hescaped (by simp [hmode, Mode.read, hfeed, hcrlf])

theorem At.tracks_closer (hat : s.At head) (hescaped : head.escaped = false) {c : Char}
    {ahead : Text} (keep : Bool)
    (hstride : head.stride regexPreceders c ahead =
      if c == '*' && ahead.head? == some '/' then ⟨keep, 1, .code, false⟩
      else ⟨keep, 0, head.mode, false⟩)
    (hread : head.mode.read head.prev c ahead =
      if c == '*' && ahead.head? == some '/' then ⟨keep, .code, 1⟩
      else ⟨keep, head.mode, 0⟩) : s.TracksStride head c ahead := by
  rw [TracksStride, hstride]
  split at hread
  · next hcloser =>
      obtain ⟨rfl, tail, rfl⟩ := eq_cons_of_pair hcloser
      exact hat.tracks_two hescaped hread
  · next hcloser =>
      rw [if_neg hcloser]
      exact hat.tracks_one hescaped hread

theorem At.tracks_quoted (hat : s.At head) (hescaped : head.escaped = false) {quote : Quote}
    (hmode : head.mode = .quoted quote) (c : Char) (ahead : Text) :
    s.TracksStride head c ahead := by
  simp only [TracksStride, Head.stride, hescaped, hmode, Bool.false_eq_true, if_false]
  split
  · next hback =>
      obtain rfl := eq_of_beq hback
      exact hat.tracks_backslash hescaped (by rw [hmode]; rfl)
  · next hback =>
      refine hat.tracks_one hescaped ?_
      rw [hmode, Mode.read, if_neg hback]
      split <;> rfl

theorem At.tracks_regex (hat : s.At head) (hescaped : head.escaped = false) {inClass : Bool}
    (hmode : head.mode = .regex inClass) (c : Char) (ahead : Text) :
    s.TracksStride head c ahead := by
  simp only [TracksStride, Head.stride, hescaped, hmode, Bool.false_eq_true, if_false]
  split
  · next hback =>
      obtain rfl := eq_of_beq hback
      exact hat.tracks_backslash hescaped (by rw [hmode]; rfl)
  next hback =>
  split
  · next hopens =>
      exact hat.tracks_one hescaped (by rw [hmode, Mode.read, if_neg hback, if_pos hopens])
  next hopens =>
  split
  · next hcloses =>
      exact hat.tracks_one hescaped
        (by rw [hmode, Mode.read, if_neg hback, if_neg hopens, if_pos hcloses])
  · next hcloses =>
      refine hat.tracks_one hescaped ?_
      rw [hmode, Mode.read, if_neg hback, if_neg hopens, if_neg hcloses]
      split <;> rfl

theorem At.tracks_stride (hat : s.At head) (c : Char) (ahead : Text) :
    s.TracksStride head c ahead := by
  cases hescaped : head.escaped with
  | true =>
      rw [TracksStride, Head.stride, if_pos hescaped]
      exact hat.tracks_escaped hescaped c ahead
  | false =>
      cases hmode : head.mode with
      | code => exact hat.tracks_code hescaped hmode c ahead
      | line => exact hat.tracks_line hescaped hmode c ahead
      | block =>
          exact hat.tracks_closer hescaped false (by simp [Head.stride, hescaped, hmode])
            (by rw [hmode]; rfl)
      | doc =>
          exact hat.tracks_closer hescaped true (by simp [Head.stride, hescaped, hmode])
            (by rw [hmode]; rfl)
      | quoted quote => exact hat.tracks_quoted hescaped hmode c ahead
      | regex inClass => exact hat.tracks_regex hescaped hmode c ahead

theorem keeps_eq_loop (head : Head) (t : Text) :
    ∀ s : State, s.At head → s.keeps t [] = head.loop regexPreceders t := by
  fun_induction Head.loop regexPreceders head t with
  | case1 head =>
      intro s _
      rfl
  | case2 head c ahead stride taken ih =>
      intro s hat
      have htracks := hat.tracks_stride c ahead
      have hsplit : c :: ahead = taken ++ ahead.drop stride.more := by
        rw [List.cons_append, List.take_append_drop]
      rw [hsplit, keeps_append, List.append_nil, htracks.keeps]
      congr 1
      by_cases hahead : ahead.drop stride.more = []
      · simp [hahead, Head.loop]
      · exact ih _ (htracks.behind hahead)

end State

theorem strides_eq_strip (source : Text) : strides regexPreceders source = strip source := by
  have hat : ({} : State).At {} := State.At.of_untied rfl rfl rfl
  rw [State.strip_eq, State.keeps_eq_loop {} source {} hat, strides]

theorem Reached.after_at {source : Text} {i : Nat} {head : Head}
    (h : Reached regexPreceders source i head) (hahead : source.drop i ≠ []) :
    (({} : State).after (source.take i) (source.drop i)).At head := by
  induction h with
  | start => exact State.At.of_untied rfl rfl rfl
  | @stride i head h c ahead hsource ih =>
      have hat := ih (by rw [hsource]; exact List.cons_ne_nil c ahead)
      rw [hsource] at hat
      have hrest : source.drop (i + ((head.stride regexPreceders c ahead).more + 1)) =
          ahead.drop (head.stride regexPreceders c ahead).more := by
        rw [← List.drop_drop, hsource, List.drop_succ_cons]
      rw [hrest] at hahead
      simpa [hrest, List.take_add, hsource, List.take_succ_cons, List.cons_append,
        List.take_append_drop] using (hat.tracks_stride c ahead).behind hahead

theorem Head.stride_congr {preceders others : Text} {head : Head}
    (h : opensRegexBehind preceders head.prev = opensRegexBehind others head.prev) (c : Char)
    (ahead : Text) : head.stride preceders c ahead = head.stride others c ahead := by
  simp only [Head.stride, h]

theorem isBlank_lookback {prev : Option Char} (h : ∀ c ∈ prev, Text.isBlank c = false)
    (taken : Text) : ∀ c ∈ lookback prev taken, Text.isBlank c = false := by
  intro c hc
  rw [lookback_eq] at hc
  rcases Option.or_eq_some_iff.mp hc with hlast | ⟨_, hprev⟩
  · exact isBlank_lastVisible hlast
  · exact h c hprev

theorem Head.loop_congr {preceders others : Text}
    (hagree : ∀ c, Text.isBlank c = false → preceders.contains c = others.contains c)
    {head : Head} (hprev : ∀ c ∈ head.prev, Text.isBlank c = false) (t : Text) :
    head.loop preceders t = head.loop others t := by
  fun_induction Head.loop preceders head t with
  | case1 head => rw [Head.loop]
  | case2 head c ahead stride taken ih =>
      have hopens : opensRegexBehind preceders head.prev = opensRegexBehind others head.prev := by
        cases hlast : head.prev with
        | none => rfl
        | some d => exact hagree d (hprev d hlast)
      have hstride : stride = head.stride others c ahead := Head.stride_congr hopens c ahead
      rw [Head.loop, ← hstride, ih (isBlank_lookback hprev _)]

theorem strides_visible_preceders (preceders source : Text) :
    strides (preceders.filter (!Text.isBlank ·)) source = strides preceders source := by
  refine Head.loop_congr ?_ ?_ source
  · intro c hc
    simp [hc]
  · intro c hc
    exact absurd hc (Option.not_mem_none c)

/-- At every head of the loop the lookback is the last character before it that is not blank, or
nothing if there is none. So it is never blank, and the line feed among the preceders decides
nothing: the loop keeps what the scanner keeps, with it and without it. -/
theorem lookback_at_every_head (source : Text) :
    (∀ i head, Reached regexPreceders source i head →
      head.prev = Text.lastVisible (source.take i) ∧
        (∀ c ∈ head.prev, Text.isBlank c = false) ∧
        (source.drop i ≠ [] →
          (({} : State).after (source.take i) (source.drop i)).At head)) ∧
    strides regexPreceders source = strip source ∧
    strides (regexPreceders.filter (· != '\n')) source = strip source := by
  have hvisible : regexPreceders.filter (!Text.isBlank ·) = regexPreceders.filter (· != '\n') := by
    decide
  refine ⟨?_, strides_eq_strip source, ?_⟩
  · intro i head hreached
    have hprev := hreached.prev_eq
    refine ⟨hprev, ?_, hreached.after_at⟩
    intro c hc
    rw [hprev] at hc
    exact isBlank_lastVisible hc
  · rw [← hvisible, strides_visible_preceders, strides_eq_strip]

end CommentSweep.Script
