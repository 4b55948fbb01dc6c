import CommentSweep.Proofs.Script.Token

/-!
The scanner reads a source token by token. For every kind of token, the scanner keeps of it what the
token's rule says and is between two tokens again behind it. By induction over the tokens, what a
scan keeps is what is kept of the tokens.
-/

namespace CommentSweep.Script

namespace State

/-- The scanner keeps `out` of `t`, and behind `t` it is between two tokens unless the source ends
there. -/
structure Completes (s : State) (t ahead out : Text) : Prop where
  keeps : s.keeps t ahead = out
  ready : ahead ≠ [] → (s.after t ahead).Ready

namespace Completes

theorem done {s : State} {ahead : Text} (hready : ahead ≠ [] → s.Ready) :
    s.Completes [] ahead [] :=
  ⟨rfl, hready⟩

theorem atEnd (s : State) : s.Completes [] [] [] :=
  done fun hahead => absurd rfl hahead

theorem read {mode : Mode} {v : Verdict} {k : Bool} {prev : Option Char} {c : Char}
    {t ahead whole out : Text} (hwhole : t ++ ahead = whole)
    (hread : mode.read prev c whole = v)
    (hrest : ∀ prev, State.Completes ⟨v.mode, v.tied, v.keep, prev⟩ t ahead out) :
    State.Completes ⟨mode, 0, k, prev⟩ (c :: t) ahead (if v.keep then c :: out else out) := by
  constructor
  · simp [hwhole, hread, (hrest _).keeps]
  · intro hahead
    simpa [hwhole, hread] using (hrest _).ready hahead

theorem tied {mode : Mode} {n : Nat} {k : Bool} {prev : Option Char} {c : Char}
    {t ahead out : Text}
    (hrest : ∀ prev, State.Completes ⟨mode, n, k, prev⟩ t ahead out) :
    State.Completes ⟨mode, n + 1, k, prev⟩ (c :: t) ahead (if k then c :: out else out) := by
  constructor
  · simp [(hrest _).keeps]
  · intro hahead
    simpa using (hrest _).ready hahead

end Completes

end State

open State

def Mode.EndsAtCloser (mode : Mode) (keep : Bool) : Prop :=
  ∀ prev c ahead, mode.read prev c ahead =
    if c == '*' && ahead.head? == some '/' then ⟨keep, .code, 1⟩ else ⟨keep, mode, 0⟩

theorem Mode.endsAtCloser_doc : Mode.doc.EndsAtCloser true := fun _ _ _ => rfl

theorem Mode.endsAtCloser_block : Mode.block.EndsAtCloser false := fun _ _ _ => rfl

theorem isPrefixOf_closer (c : Char) (rest : Text) :
    ['*', '/'].isPrefixOf (c :: rest) = (c == '*' && rest.head? == some '/') := by
  cases rest with
  | nil => simp [List.isPrefixOf]
  | cons d rest => simp [List.isPrefixOf, Bool.beq_comm]

theorem completes_enclosed {mode : Mode} {keep : Bool} (hmode : mode.EndsAtCloser keep)
    (t : Text) (k : Bool) (prev : Option Char) :
    State.Completes ⟨mode, 0, k, prev⟩ (t.take (Text.through ['*', '/'] t))
      (t.drop (Text.through ['*', '/'] t))
      (if keep then t.take (Text.through ['*', '/'] t) else []) := by
  induction t generalizing k prev with
  | nil => cases keep <;> exact Completes.atEnd _
  | cons c rest ih =>
      rw [Text.through, isPrefixOf_closer]
      cases hclose : c == '*' && rest.head? == some '/' with
      | true =>
          obtain ⟨hc, hrest⟩ : c = '*' ∧ rest.head? = some '/' := by simpa using hclose
          obtain ⟨tail, rfl⟩ := List.head?_eq_some_iff.mp hrest
          subst hc
          have hread : State.Completes ⟨mode, 0, k, prev⟩ ['*', '/'] tail
              (if keep then '*' :: (if keep then ['/'] else []) else if keep then ['/'] else []) :=
            Completes.read rfl (hmode _ _ _)
              fun _ => Completes.tied fun _ => Completes.done fun _ => ⟨rfl, rfl⟩
          cases keep <;> exact hread
      | false =>
          have hstay : mode.read prev c rest = ⟨keep, mode, 0⟩ := by
            rw [hmode, hclose]
            rfl
          have hread := Completes.read (k := k) (List.take_append_drop _ _) hstay (ih keep)
          cases keep <;> exact hread

theorem lineEnd_cons {c : Char} {body : Text} (hc : c ≠ '\n')
    (hpair : ¬(c = '\r' ∧ body = ['\n'])) : lineEnd (c :: body) = lineEnd body := by
  have hcrlf : ['\r', '\n'].isSuffixOf (c :: body) = ['\r', '\n'].isSuffixOf body := by
    rw [Bool.eq_iff_iff, List.isSuffixOf_iff_suffix, List.isSuffixOf_iff_suffix,
      List.suffix_cons_iff]
    constructor
    · rintro (hwhole | hbody)
      · injection hwhole with hhead htail
        exact absurd ⟨hhead.symm, htail.symm⟩ hpair
      · exact hbody
    · exact Or.inr
  have hlf : ['\n'].isSuffixOf (c :: body) = ['\n'].isSuffixOf body := by
    rw [Bool.eq_iff_iff, List.isSuffixOf_iff_suffix, List.isSuffixOf_iff_suffix,
      List.suffix_cons_iff]
    constructor
    · rintro (hwhole | hbody)
      · injection hwhole with hhead
        exact absurd hhead.symm hc
      · exact hbody
    · exact Or.inr
  rw [lineEnd, lineEnd, hcrlf, hlf]

theorem completes_line (t : Text) (k : Bool) (prev : Option Char) :
    State.Completes ⟨.line, 0, k, prev⟩ (t.take (Text.through ['\n'] t))
      (t.drop (Text.through ['\n'] t)) (lineEnd (t.take (Text.through ['\n'] t))) := by
  induction t generalizing k prev with
  | nil => exact Completes.atEnd _
  | cons c rest ih =>
      by_cases hc : c = '\n'
      · subst hc
        exact Completes.read (v := ⟨true, .code, 0⟩) rfl rfl
          fun _ => Completes.done fun _ => ⟨rfl, rfl⟩
      · have hthrough : Text.through ['\n'] (c :: rest) = Text.through ['\n'] rest + 1 := by
          simp [Text.through, List.isPrefixOf, Ne.symm hc]
        rw [hthrough, List.take_succ_cons, List.drop_succ_cons]
        by_cases hpair : c = '\r' ∧ rest.head? = some '\n'
        · obtain ⟨rfl, hrest⟩ := hpair
          obtain ⟨tail, rfl⟩ := List.head?_eq_some_iff.mp hrest
          exact Completes.read (v := ⟨true, .line, 0⟩) rfl rfl
            fun _ => Completes.read (v := ⟨true, .code, 0⟩) rfl rfl
              fun _ => Completes.done fun _ => ⟨rfl, rfl⟩
        · have hread : Mode.line.read prev c rest = ⟨false, .line, 0⟩ := by
            simpa [Mode.read, hc] using hpair
          rw [lineEnd_cons hc]
          · exact Completes.read (List.take_append_drop _ _) hread (ih false)
          · rintro ⟨hreturn, hbody⟩
            refine hpair ⟨hreturn, ?_⟩
            cases rest with
            | nil => simp at hbody
            | cons d tail =>
                have hpos : Text.through ['\n'] (d :: tail) ≠ 0 := by
                  rw [Text.through]
                  split <;> simp
                obtain ⟨n, hn⟩ := Nat.exists_eq_succ_of_ne_zero hpos
                rw [hn, List.take_succ_cons] at hbody
                injection hbody with hd
                rw [hd]
                rfl

theorem Quote.char_ne_backslash (quote : Quote) : quote.char ≠ '\\' := by
  cases quote <;> decide

theorem completes_quoted (quote : Quote) (t : Text) (k : Bool) (prev : Option Char) :
    State.Completes ⟨.quoted quote, 0, k, prev⟩ (t.take (quotedLength quote t))
      (t.drop (quotedLength quote t)) (t.take (quotedLength quote t)) := by
  fun_induction quotedLength quote t generalizing k prev with
  | case1 => exact Completes.atEnd _
  | case2 c rest ih =>
      exact Completes.read (v := ⟨true, .quoted quote, 1⟩) rfl rfl
        fun _ => Completes.tied (ih true)
  | case3 c rest hescape hquote =>
      have hc : c = quote.char := by simpa using hquote
      have hread : (Mode.quoted quote).read prev c rest = ⟨true, .code, 0⟩ := by
        simp [Mode.read, hc, quote.char_ne_backslash]
      exact Completes.read rfl hread fun _ => Completes.done fun _ => ⟨rfl, rfl⟩
  | case4 c rest hescape hquote ih =>
      by_cases hc : c = '\\'
      · have hrest : rest = [] := by
          cases rest with
          | nil => rfl
          | cons d tail => exact (hescape d tail hc rfl).elim
        subst hc hrest
        exact Completes.read (v := ⟨true, .quoted quote, 1⟩) rfl rfl fun _ => Completes.atEnd _
      · have hread : (Mode.quoted quote).read prev c rest = ⟨true, .quoted quote, 0⟩ := by
          simpa [Mode.read, hc] using hquote
        exact Completes.read (List.take_append_drop _ _) hread (ih true)

theorem completes_regex (inClass : Bool) (t : Text) (k : Bool) (prev : Option Char) :
    State.Completes ⟨.regex inClass, 0, k, prev⟩ (t.take (regexLength inClass t))
      (t.drop (regexLength inClass t)) (t.take (regexLength inClass t)) := by
  fun_induction regexLength inClass t generalizing k prev with
  | case1 => exact Completes.atEnd _
  | case2 inClass c rest ih =>
      exact Completes.read (v := ⟨true, .regex inClass, 1⟩) rfl rfl
        fun _ => Completes.tied (ih true)
  | case3 inClass rest ih =>
      exact Completes.read (v := ⟨true, .regex true, 0⟩) rfl rfl (ih true)
  | case4 inClass rest ih =>
      exact Completes.read (v := ⟨true, .regex false, 0⟩) rfl rfl (ih true)
  | case5 inClass c rest hescape hopen hshut hend =>
      obtain ⟨hc, hout⟩ : c = '/' ∧ inClass = false := by simpa using hend
      subst hc hout
      exact Completes.read (v := ⟨true, .code, 0⟩) rfl rfl
        fun _ => Completes.done fun _ => ⟨rfl, rfl⟩
  | case6 inClass c rest hescape hopen hshut hend ih =>
      by_cases hc : c = '\\'
      · have hrest : rest = [] := by
          cases rest with
          | nil => rfl
          | cons d tail => exact (hescape d tail hc rfl).elim
        subst hc hrest
        exact Completes.read (v := ⟨true, .regex inClass, 1⟩) rfl rfl fun _ => Completes.atEnd _
      · have hread : (Mode.regex inClass).read prev c rest = ⟨true, .regex inClass, 0⟩ := by
          have hopen : ¬c = '[' := hopen
          have hshut : ¬c = ']' := hshut
          simpa [Mode.read, hc, hopen, hshut] using hend
        exact Completes.read (List.take_append_drop _ _) hread (ih true)

theorem Quote.eq_char_of_ofChar? {c : Char} {quote : Quote} (h : Quote.ofChar? c = some quote) :
    c = quote.char := by
  unfold Quote.ofChar? at h
  split at h
  · next hc => cases h; exact eq_of_beq hc
  · split at h
    · next hc => cases h; exact eq_of_beq hc
    · split at h
      · next hc => cases h; exact eq_of_beq hc
      · cases h

inductive Token.Kind.Opens (prev : Option Char) : Text → Token.Kind → Prop
  | escape (tail : Text) : Opens prev ('\\' :: tail) .escape
  | doc {tail : Text} (hfourth : tail.head? ≠ some '/') :
      Opens prev ('/' :: '*' :: '*' :: tail) .doc
  | block {tail : Text} (hdoc : opensDoc ('/' :: '*' :: tail) = false) :
      Opens prev ('/' :: '*' :: tail) .block
  | line (tail : Text) : Opens prev ('/' :: '/' :: tail) .line
  | regex {tail : Text} (hstar : tail.head? ≠ some '*') (hslash : tail.head? ≠ some '/')
      (hprev : opensRegex prev = true) : Opens prev ('/' :: tail) .regex
  | divide {tail : Text} (hstar : tail.head? ≠ some '*') (hslash : tail.head? ≠ some '/')
      (hprev : opensRegex prev = false) : Opens prev ('/' :: tail) .plain
  | quoted (quote : Quote) (tail : Text) : Opens prev (quote.char :: tail) (.quoted quote)
  | plain {c : Char} {tail : Text} (hescape : c ≠ '\\') (hslash : c ≠ '/')
      (hquote : Quote.ofChar? c = none) : Opens prev (c :: tail) .plain

theorem Token.Kind.ofHead_star (prev : Option Char) (tail : Text) :
    ofHead prev ('/' :: '*' :: tail) =
      if opensDoc ('/' :: '*' :: tail) then .doc else .block := by
  cases tail with
  | nil => rfl
  | cons d tail =>
      by_cases hd : d = '*'
      · subst hd
        cases tail <;> simp [ofHead, opensDoc, List.isPrefixOf]
      · simp [ofHead, opensDoc, List.isPrefixOf, hd, Ne.symm hd]

theorem Token.Kind.ofHead_slash {tail : Text} (hstar : tail.head? ≠ some '*')
    (hslash : tail.head? ≠ some '/') (prev : Option Char) :
    ofHead prev ('/' :: tail) = if opensRegex prev then .regex else .plain := by
  have hquote : Quote.ofChar? '/' = none := by decide
  cases tail with
  | nil => simp [ofHead, List.isPrefixOf, hquote]
  | cons d tail =>
      have hd : '*' ≠ d := fun h => hstar (congrArg some h.symm)
      have hd' : '/' ≠ d := fun h => hslash (congrArg some h.symm)
      simp [ofHead, List.isPrefixOf, hquote, hd, hd']

theorem Token.Kind.opens_ofHead (prev : Option Char) (c : Char) (tail : Text) :
    Opens prev (c :: tail) (ofHead prev (c :: tail)) := by
  by_cases hescape : c = '\\'
  · subst hescape
    exact .escape tail
  by_cases hslash : c = '/'
  · subst hslash
    by_cases hstar : tail.head? = some '*'
    · obtain ⟨rest, rfl⟩ := List.head?_eq_some_iff.mp hstar
      rw [ofHead_star]
      cases hdoc : opensDoc ('/' :: '*' :: rest) with
      | false => exact .block hdoc
      | true =>
          obtain ⟨rest, rfl, hfourth⟩ := opensDoc_iff.mp hdoc
          exact .doc hfourth
    by_cases hline : tail.head? = some '/'
    · obtain ⟨rest, rfl⟩ := List.head?_eq_some_iff.mp hline
      exact .line rest
    rw [ofHead_slash hstar hline]
    cases hprev : opensRegex prev with
    | true => exact .regex hstar hline hprev
    | false => exact .divide hstar hline hprev
  · cases hquote : Quote.ofChar? c with
    | none =>
        have hhead : ofHead prev (c :: tail) = .plain := by
          simp [ofHead, List.isPrefixOf, Ne.symm hescape, Ne.symm hslash, hquote]
        rw [hhead]
        exact .plain hescape hslash hquote
    | some quote =>
        have hhead : ofHead prev (c :: tail) = .quoted quote := by
          simp [ofHead, List.isPrefixOf, Ne.symm hescape, Ne.symm hslash, hquote]
        rw [hhead, Quote.eq_char_of_ofChar? hquote]
        exact .quoted quote tail

theorem completes_atHead (k : Bool) (prev : Option Char) (c : Char) (tail : Text) :
    State.Completes ⟨.code, 0, k, prev⟩ (Token.atHead prev (c :: tail)).text
      (Token.behindHead prev (c :: tail)) (Token.atHead prev (c :: tail)).kept := by
  rw [Token.atHead, Token.behindHead]
  have hopens := Token.Kind.opens_ofHead prev c tail
  generalize Token.Kind.ofHead prev (c :: tail) = kind at hopens ⊢
  generalize c :: tail = t at hopens ⊢
  cases hopens with
  | escape tail =>
      cases tail with
      | nil => exact Completes.read (v := ⟨true, .code, 1⟩) rfl rfl fun _ => Completes.atEnd _
      | cons d tail =>
          exact Completes.read (v := ⟨true, .code, 1⟩) rfl rfl
            fun _ => Completes.tied fun _ => Completes.done fun _ => ⟨rfl, rfl⟩
  | @doc tail hfourth =>
      have hread : Mode.code.read prev '/' ('*' :: '*' :: tail) = ⟨true, .doc, 2⟩ := by
        simp [Mode.read, opensDoc, hfourth]
      exact Completes.read (List.take_append_drop _ ('*' :: '*' :: tail)) hread
        fun _ => Completes.tied fun _ => Completes.tied
          (completes_enclosed Mode.endsAtCloser_doc tail true)
  | @block tail hdoc =>
      have hread : Mode.code.read prev '/' ('*' :: tail) = ⟨false, .block, 1⟩ := by
        simp [Mode.read, hdoc]
      exact Completes.read (List.take_append_drop _ ('*' :: tail)) hread
        fun _ => Completes.tied (completes_enclosed Mode.endsAtCloser_block tail false)
  | line tail =>
      exact Completes.read (List.take_append_drop _ ('/' :: tail)) (v := ⟨false, .line, 1⟩) rfl
        fun _ => Completes.tied (completes_line tail false)
  | @regex tail hstar hslash hprev =>
      have hread : Mode.code.read prev '/' tail = ⟨true, .regex false, 0⟩ := by
        rw [Mode.read_code_slash hstar hslash, hprev]
        rfl
      exact Completes.read (List.take_append_drop _ tail) hread (completes_regex false tail true)
  | @divide tail hstar hslash hprev =>
      have hread : Mode.code.read prev '/' tail = ⟨true, .code, 0⟩ := by
        rw [Mode.read_code_slash hstar hslash, hprev]
        rfl
      exact Completes.read rfl hread fun _ => Completes.done fun _ => ⟨rfl, rfl⟩
  | quoted quote tail =>
      have hread : Mode.code.read prev quote.char tail = ⟨true, .quoted quote, 0⟩ := by
        cases quote <;> rfl
      exact Completes.read (List.take_append_drop _ tail) hread (completes_quoted quote tail true)
  | @plain c tail hescape hslash hquote =>
      have hread : Mode.code.read prev c tail = ⟨true, .code, 0⟩ := by
        simp [Mode.read, hescape, hslash, hquote]
      exact Completes.read rfl hread fun _ => Completes.done fun _ => ⟨rfl, rfl⟩

@[simp] theorem flatMap_text_tokensFrom (before rest : Text) :
    (tokensFrom before rest).flatMap Token.text = rest := by
  fun_induction tokensFrom before rest with
  | case1 => rfl
  | case2 before c tail ih =>
      rw [List.flatMap_cons, ih]
      exact Token.atHead_append_behindHead before.lastVisible (c :: tail)

theorem keeps_eq_flatMap_kept {s : State} {before rest : Text} (hready : s.Ready)
    (hprev : s.prev = before.lastVisible) :
    s.keeps rest [] = (tokensFrom before rest).flatMap Token.kept := by
  fun_induction tokensFrom before rest generalizing s with
  | case1 => rfl
  | case2 before c tail ih =>
      have hcode : State.Ready ⟨.code, 0, s.keep, before.lastVisible⟩ := ⟨rfl, rfl⟩
      have htoken := completes_atHead s.keep before.lastVisible c tail
      have hsplit := Token.atHead_append_behindHead before.lastVisible (c :: tail)
      rw [hready.keeps_congr hcode hprev, List.flatMap_cons]
      generalize Token.atHead before.lastVisible (c :: tail) = token at *
      generalize Token.behindHead before.lastVisible (c :: tail) = rest at *
      rw [← hsplit, keeps_append, List.append_nil, htoken.keeps]
      cases rest with
      | nil => simp [tokensFrom]
      | cons d rest =>
          rw [ih (htoken.ready (List.cons_ne_nil d rest))]
          simp

/-- A scan keeps of a source what is kept of its tokens, and the tokens make up the source. -/
theorem strip_eq_flatMap_kept (source : Text) :
    (tokens source).flatMap Token.text = source ∧
      strip source = (tokens source).flatMap Token.kept := by
  refine ⟨flatMap_text_tokensFrom [] source, ?_⟩
  rw [State.strip_eq]
  exact keeps_eq_flatMap_kept State.ready_start rfl

end CommentSweep.Script
