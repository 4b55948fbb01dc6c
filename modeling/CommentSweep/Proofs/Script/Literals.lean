import CommentSweep.Proofs.Registry.Answer
import CommentSweep.Proofs.Script.Lexing
import CommentSweep.Proofs.Text.Gap
import Mathlib

/-!
Literals and doc comments in a transformed text. A literal starts, and unless the source ends in it
also ends, with a character that belongs to no gap, so the closing of gaps treats it by itself: it
is found again with its own gaps closed, and hence verbatim exactly if it has none.
-/

namespace CommentSweep.Script

def literals (source : Text) : List Text :=
  ((tokens source).filter Token.isOpaque).map Token.text

/-- The spans stand in a text as they are, in order and apart from each other. -/
def OccurInOrder : (spans : List Text) → Text → Prop
  | [], _ => True
  | span :: spans, t => ∃ before after, t = before ++ (span ++ after) ∧ OccurInOrder spans after

theorem through_closed {word : Text} {t : Text} (h : t.drop (Text.through word t) ≠ []) :
    ∃ front, t.take (Text.through word t) = front ++ word := by
  induction t with
  | nil => exact absurd rfl h
  | cons c rest ih =>
      rw [Text.through] at h ⊢
      split
      · next hword =>
          refine ⟨[], ?_⟩
          exact (List.prefix_iff_eq_take.mp (List.isPrefixOf_iff_prefix.mp hword)).symm
      · next hword =>
          rw [if_neg hword, List.drop_succ_cons] at h
          obtain ⟨front, hfront⟩ := ih h
          exact ⟨c :: front, by rw [List.take_succ_cons, hfront, List.cons_append]⟩

theorem quotedLength_closed {quote : Quote} {t : Text}
    (h : t.drop (quotedLength quote t) ≠ []) :
    ∃ front, t.take (quotedLength quote t) = front ++ [quote.char] := by
  fun_induction quotedLength quote t with
  | case1 => exact absurd rfl h
  | case2 c rest ih =>
      obtain ⟨front, hfront⟩ := ih h
      exact ⟨'\\' :: c :: front, by simp [hfront]⟩
  | case3 c rest hescape hquote => exact ⟨[], by simpa using hquote⟩
  | case4 c rest hescape hquote ih =>
      obtain ⟨front, hfront⟩ := ih h
      exact ⟨c :: front, by simp [hfront]⟩

theorem regexLength_closed {inClass : Bool} {t : Text}
    (h : t.drop (regexLength inClass t) ≠ []) :
    ∃ front, t.take (regexLength inClass t) = front ++ ['/'] := by
  fun_induction regexLength inClass t with
  | case1 => exact absurd rfl h
  | case2 inClass c rest ih =>
      obtain ⟨front, hfront⟩ := ih h
      exact ⟨'\\' :: c :: front, by simp [hfront]⟩
  | case3 inClass rest ih =>
      obtain ⟨front, hfront⟩ := ih h
      exact ⟨'[' :: front, by simp [hfront]⟩
  | case4 inClass rest ih =>
      obtain ⟨front, hfront⟩ := ih h
      exact ⟨']' :: front, by simp [hfront]⟩
  | case5 inClass c rest hescape hopen hshut hend =>
      obtain ⟨hc, -⟩ : c = '/' ∧ inClass = false := by simpa using hend
      exact ⟨[], by simp [hc]⟩
  | case6 inClass c rest hescape hopen hshut hend ih =>
      obtain ⟨front, hfront⟩ := ih h
      exact ⟨c :: front, by simp [hfront]⟩

/-- A span that no gap reaches into, when `rest` follows it. -/
structure Fenced (span rest : Text) : Prop where
  first : ∃ c tail, Text.isSolid c = true ∧ span = c :: tail
  last : rest ≠ [] → ∃ front c, Text.isSolid c = true ∧ span = front ++ [c]

@[simp] theorem Quote.isSolid_char (quote : Quote) : Text.isSolid quote.char = true := by
  cases quote <;> decide

theorem fenced_atHead (prev : Option Char) (c : Char) (tail : Text)
    (hliteral : (Token.atHead prev (c :: tail)).isOpaque = true) :
    Fenced (Token.atHead prev (c :: tail)).text (Token.behindHead prev (c :: tail)) := by
  have hslash : Text.isSolid '/' = true := by decide
  rw [Token.atHead] at hliteral ⊢
  rw [Token.behindHead]
  have hopens := Token.Kind.opens_ofHead prev c tail
  generalize Token.Kind.ofHead prev (c :: tail) = kind at hopens hliteral ⊢
  generalize c :: tail = t at hopens hliteral ⊢
  cases hopens with
  | escape tail => cases hliteral
  | @doc tail hfourth =>
      refine ⟨⟨'/', _, hslash, rfl⟩, ?_⟩
      intro hrest
      obtain ⟨front, hfront⟩ := through_closed (t := tail) hrest
      refine ⟨'/' :: '*' :: '*' :: front ++ ['*'], '/', hslash, ?_⟩
      change '/' :: '*' :: '*' :: tail.take (Text.through ['*', '/'] tail) = _
      rw [hfront]
      simp
  | block hdoc => cases hliteral
  | line tail => cases hliteral
  | @regex tail hstar hline hprev =>
      refine ⟨⟨'/', _, hslash, rfl⟩, ?_⟩
      intro hrest
      obtain ⟨front, hfront⟩ := regexLength_closed (t := tail) hrest
      exact ⟨'/' :: front, '/', hslash, congrArg ('/' :: ·) hfront⟩
  | divide hstar hline hprev => cases hliteral
  | quoted quote tail =>
      refine ⟨⟨quote.char, _, quote.isSolid_char, rfl⟩, ?_⟩
      intro hrest
      obtain ⟨front, hfront⟩ := quotedLength_closed (t := tail) hrest
      exact ⟨quote.char :: front, quote.char, quote.isSolid_char,
        congrArg (quote.char :: ·) hfront⟩
  | plain hescape hline hquote => cases hliteral

theorem collapse_fenced {span rest : Text} (h : Fenced span rest) (before : Text) :
    Text.collapse (before ++ (span ++ rest)) =
      Text.collapse before ++ (Text.collapse span ++ Text.collapse rest) := by
  obtain ⟨c, tail, hc, rfl⟩ := h.first
  have hspan : Text.collapse (c :: tail) = c :: Text.collapse tail :=
    Text.collapse_append_solid hc [] tail
  rw [List.cons_append, Text.collapse_append_solid hc, hspan]
  cases rest with
  | nil => simp
  | cons d rest =>
      obtain ⟨front, e, he, hlast⟩ := h.last (List.cons_ne_nil d rest)
      cases front with
      | nil =>
          obtain ⟨-, rfl⟩ := List.cons.inj hlast
          simp
      | cons f front =>
          obtain ⟨-, rfl⟩ := List.cons.inj hlast
          have hinner : Text.collapse (front ++ [e]) = Text.collapse front ++ [e] :=
            Text.collapse_append_solid he front []
          have houter : Text.collapse (front ++ e :: d :: rest) =
              Text.collapse front ++ e :: Text.collapse (d :: rest) :=
            Text.collapse_append_solid he front (d :: rest)
          simp [hinner, houter]

theorem kept_of_isOpaque {token : Token} (h : token.isOpaque = true) :
    token.kept = token.text := by
  obtain ⟨kind, text⟩ := token
  cases kind with
  | doc => rfl
  | regex => rfl
  | quoted quote => rfl
  | escape => cases h
  | block => cases h
  | line => cases h
  | plain => cases h

theorem occurInOrder_collapse (before rest front : Text) :
    OccurInOrder
      ((((tokensFrom before rest).filter Token.isOpaque).map Token.text).map Text.collapse)
      (Text.collapse (front ++ (tokensFrom before rest).flatMap Token.kept)) := by
  induction before, rest using tokensFrom.induct generalizing front with
  | case1 before =>
      rw [tokensFrom]
      trivial
  | case2 before c tail ih =>
      have hfenced := fenced_atHead before.lastVisible c tail
      rw [tokensFrom, List.flatMap_cons]
      generalize Token.atHead before.lastVisible (c :: tail) = token at *
      generalize Token.behindHead before.lastVisible (c :: tail) = rest at *
      cases hliteral : token.isOpaque with
      | false =>
          rw [List.filter_cons_of_neg (by simp [hliteral]), ← List.append_assoc]
          exact ih (front ++ token.kept)
      | true =>
          have hrest : (tokensFrom (before ++ token.text) rest).flatMap Token.kept ≠ [] →
              rest ≠ [] := by
            rintro hne rfl
            rw [tokensFrom] at hne
            exact hne rfl
          have hspan := hfenced hliteral
          rw [List.filter_cons_of_pos hliteral, kept_of_isOpaque hliteral,
            collapse_fenced ⟨hspan.first, fun hne => hspan.last (hrest hne)⟩]
          exact ⟨Text.collapse front, _, rfl, ih []⟩

theorem occurInOrder_literals_collapse (raw : Text) :
    OccurInOrder ((literals raw).map Text.collapse) (Text.collapse (strip raw)) := by
  rw [State.strip_eq, @keeps_eq_flatMap_kept {} [] raw State.ready_start rfl]
  exact occurInOrder_collapse [] raw []

theorem not_hasGap_of_occurInOrder {spans : List Text} {t : Text} (hoccur : OccurInOrder spans t)
    (ht : ¬Text.HasGap t) : ∀ span ∈ spans, ¬Text.HasGap span := by
  induction spans generalizing t with
  | nil => exact nofun
  | cons span spans ih =>
      obtain ⟨before, after, rfl, hafter⟩ := hoccur
      have hbehind : ¬Text.HasGap after := by
        intro hgap
        have hall := hgap.append (before ++ span) []
        rw [List.append_nil, List.append_assoc] at hall
        exact ht hall
      rw [List.forall_mem_cons]
      exact ⟨fun hgap => ht (hgap.append before after), ih hafter hbehind⟩

theorem map_collapse_eq_self {spans : List Text} (h : ∀ span ∈ spans, ¬Text.HasGap span) :
    spans.map Text.collapse = spans := by
  rw [List.map_congr_left fun span hspan => Text.collapse_eq_self_iff.mpr (h span hspan)]
  exact List.map_id' spans

theorem transform_script {extension : Option String}
    (hscript : Strategy.forExtension? extension = some .script) (raw : Text) :
    ∃ t, (Registry.standard.transform extension raw).1 = .ok t ∧
      t.content = Text.collapse (strip raw) := by
  rw [Registry.isStandard_standard.transform_fst, hscript]
  exact ⟨_, rfl, rfl⟩

/-- In the transformed text of a script, every literal and doc comment of the source is found again
with its gaps closed, in order. All of them are found as they were exactly if none of them has a
gap. -/
theorem literals_verbatim_iff {extension : Option String}
    (hscript : Strategy.forExtension? extension = some .script) (raw : Text) :
    ∃ t, (Registry.standard.transform extension raw).1 = .ok t ∧
      OccurInOrder ((literals raw).map Text.collapse) t.content ∧
      (OccurInOrder (literals raw) t.content ↔
        ∀ literal ∈ literals raw, ¬Text.HasGap literal) := by
  obtain ⟨t, ht, hcontent⟩ := transform_script hscript raw
  refine ⟨t, ht, ?_, ?_⟩
  · rw [hcontent]
    exact occurInOrder_literals_collapse raw
  · rw [hcontent]
    constructor
    · intro hoccur
      exact not_hasGap_of_occurInOrder hoccur (Text.not_hasGap_collapse (strip raw))
    · intro hgaps
      have hoccur := occurInOrder_literals_collapse raw
      rw [map_collapse_eq_self hgaps] at hoccur
      exact hoccur

theorem literals_verbatim_template :
    Strategy.forExtension? (some ".js") = some .script ∧
      ∃ t, (Registry.standard.transform (some ".js")
          ['/', '*', 'c', '*', '/', '\x60', '\n', '\n', '\x60']).1 = .ok t ∧
        OccurInOrder [['\x60', '\n', '\n', '\x60']] t.content := by
  have hscript : Strategy.forExtension? (some ".js") = some .script := by decide
  have hliterals : literals ['/', '*', 'c', '*', '/', '\x60', '\n', '\n', '\x60'] =
      [['\x60', '\n', '\n', '\x60']] := by
    cbv
  obtain ⟨t, ht, -, hverbatim⟩ := literals_verbatim_iff hscript
    ['/', '*', 'c', '*', '/', '\x60', '\n', '\n', '\x60']
  rw [hliterals] at hverbatim
  refine ⟨hscript, t, ht, hverbatim.mpr ?_⟩
  intro literal hliteral
  rw [List.mem_singleton.mp hliteral]
  exact Text.collapse_eq_self_iff.mp (by decide)

/-- Blank lines inside a template are taken for a gap, so that the template changes. -/
theorem literals_not_verbatim_blank_lines :
    Strategy.forExtension? (some ".js") = some .script ∧
      ¬∃ t, (Registry.standard.transform (some ".js")
          ['\x60', '\n', '\n', '\n', '\x60']).1 = .ok t ∧
        OccurInOrder (literals ['\x60', '\n', '\n', '\n', '\x60']) t.content := by
  have hscript : Strategy.forExtension? (some ".js") = some .script := by decide
  refine ⟨hscript, ?_⟩
  rintro ⟨t, ht, hoccur⟩
  obtain ⟨u, hu, hcontent⟩ := transform_script hscript ['\x60', '\n', '\n', '\n', '\x60']
  obtain rfl : t = u := Except.ok.inj (ht.symm.trans hu)
  have hliterals : literals ['\x60', '\n', '\n', '\n', '\x60'] =
      [['\x60', '\n', '\n', '\n', '\x60']] := by
    cbv
  rw [hcontent, hliterals] at hoccur
  have hgaps := not_hasGap_of_occurInOrder hoccur (Text.not_hasGap_collapse _)
  have hline := Text.IsNewline.lf.isBlankLine
  exact hgaps _ (List.mem_singleton.mpr rfl)
    ⟨['\x60'], ['\n'], ['\n'], ['\n'], ['\x60'], .lf, hline, hline, rfl⟩

end CommentSweep.Script
