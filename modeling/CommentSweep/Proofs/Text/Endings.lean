import CommentSweep.Proofs.Text.Finished
import Mathlib

/-!
Texts in which every line ends with `\r\n`. Closing gaps keeps a text so. Finishing it does only if
a terminator is left between its visible characters, because the last terminator is chosen by what
trimming leaves.
-/

namespace CommentSweep.Text

def CrlfOnly (t : Text) : Prop :=
  ∀ before rest, t = before ++ '\n' :: rest → before.getLast? = some '\r'

/-- Every line feed stands right behind a carriage return, where `prev` stands before the text. -/
def FeedsFollow (prev : Option Char) : Text → Prop
  | [] => True
  | c :: t => (c = '\n' → prev = some '\r') ∧ FeedsFollow (some c) t

instance decidableFeedsFollow : (prev : Option Char) → (t : Text) → Decidable (FeedsFollow prev t)
  | _, [] => .isTrue trivial
  | _, c :: t =>
      have := decidableFeedsFollow (some c) t
      inferInstanceAs (Decidable (_ ∧ _))

@[simp] theorem feedsFollow_append {prev : Option Char} {t u : Text} :
    FeedsFollow prev (t ++ u) ↔ FeedsFollow prev t ∧ FeedsFollow (t.getLast?.or prev) u := by
  induction t generalizing prev with
  | nil => simp [FeedsFollow]
  | cons c t ih =>
      have hlast : (c :: t).getLast?.or prev = t.getLast?.or (some c) := by
        rw [List.getLast?_cons]
        cases t.getLast? <;> rfl
      rw [List.cons_append, FeedsFollow, FeedsFollow, ih, hlast, and_assoc]

theorem feedsFollow_iff {prev : Option Char} {t : Text} :
    FeedsFollow prev t ↔
      ∀ before rest, t = before ++ '\n' :: rest → before.getLast?.or prev = some '\r' := by
  constructor
  · rintro h before rest rfl
    exact (feedsFollow_append.mp h).2.1 rfl
  · intro h
    induction t generalizing prev with
    | nil => trivial
    | cons c t ih =>
        refine ⟨?_, ih ?_⟩
        · rintro rfl
          exact h [] t rfl
        · rintro before rest rfl
          have hlast := h (c :: before) rest rfl
          rw [List.getLast?_cons] at hlast
          rw [← hlast]
          cases before.getLast? <;> rfl

theorem crlfOnly_iff {t : Text} : CrlfOnly t ↔ FeedsFollow none t := by
  simp only [CrlfOnly, feedsFollow_iff, Option.or_none]

instance (t : Text) : Decidable (CrlfOnly t) :=
  decidable_of_iff (FeedsFollow none t) crlfOnly_iff.symm

namespace FeedsFollow

theorem of_not_mem {t : Text} (h : '\n' ∉ t) (prev : Option Char) : FeedsFollow prev t := by
  rw [feedsFollow_iff]
  rintro before rest rfl
  simp at h

theorem of_head {prev other : Option Char} {t : Text} (h : FeedsFollow prev t)
    (hhead : t.head? ≠ some '\n') : FeedsFollow other t := by
  cases t with
  | nil => trivial
  | cons c t => exact ⟨fun hc => absurd (congrArg some hc) hhead, h.2⟩

theorem head?_ne {prev : Option Char} {t : Text} (h : FeedsFollow prev t)
    (hprev : prev ≠ some '\r') : t.head? ≠ some '\n' := by
  intro hhead
  obtain ⟨rest, rfl⟩ := List.head?_eq_some_iff.mp hhead
  exact hprev (h.1 rfl)

end FeedsFollow

theorem Line.feedsFollow_append {line : Line} {prev : Option Char} {t : Text}
    (hprev : prev ≠ some '\r') :
    FeedsFollow prev (line.text ++ t) ↔
      line.ending = .crlf ∧ FeedsFollow (some '\n') t := by
  rw [Line.text, List.append_assoc, Text.feedsFollow_append,
    and_iff_right (FeedsFollow.of_not_mem line.noFeed prev)]
  cases hending : line.ending with
  | lf =>
      have hlast : line.content.getLast?.or prev ≠ some '\r' := by
        have hcontent := line.noReturn hending
        cases hempty : line.content.getLast? with
        | none => exact hprev
        | some c => rwa [hempty] at hcontent
      simp [Ending.text, FeedsFollow, hlast]
  | crlf => simp [Ending.text, FeedsFollow]

theorem Layout.feedsFollow_text (d : Layout) {prev : Option Char} (hprev : prev ≠ some '\r') :
    FeedsFollow prev d.text ↔ ∀ line ∈ d.lines, line.ending = .crlf := by
  induction d using cons_induction generalizing prev with
  | last t h =>
      refine iff_of_true ?_ (by simp)
      simpa [text] using FeedsFollow.of_not_mem h prev
  | cons line d ih =>
      rw [text_cons, Line.feedsFollow_append hprev, ih (by simp), lines_cons,
        List.forall_mem_cons]

theorem crlfOnly_iff_lines {t : Text} :
    CrlfOnly t ↔ ∀ line ∈ (layout t).lines, line.ending = .crlf := by
  simp [crlfOnly_iff, ← (layout t).feedsFollow_text (Option.some_ne_none '\r').symm]

theorem closeRun_crlf {before : Line} {run : List Line} (hbefore : before.ending = .crlf)
    (hrun : ∀ line ∈ run, line.ending = .crlf) :
    ∀ line ∈ closeRun before run, line.ending = .crlf := by
  rw [closeRun]
  split
  · simpa [Line.empty] using hbefore
  · exact hrun

theorem closeRuns_crlf {before : Line} {rs : List (List Line)} (hbefore : before.ending = .crlf)
    (hruns : ∀ line ∈ rs.flatten, line.ending = .crlf) :
    ∀ line ∈ closeRuns before rs, line.ending = .crlf := by
  induction rs generalizing before with
  | nil => nofun
  | cons run rs ih =>
      rw [List.flatten_cons, List.forall_mem_append] at hruns
      rw [closeRuns, List.forall_mem_append]
      refine ⟨closeRun_crlf hbefore hruns.1, ih ?_ hruns.2⟩
      cases hlast : run.getLast? with
      | none => exact hbefore
      | some line => exact hruns.1 line (List.mem_of_mem_getLast? hlast)

theorem CrlfOnly.collapse {t : Text} (h : CrlfOnly t) : CrlfOnly (collapse t) := by
  rw [crlfOnly_iff_lines] at h ⊢
  rw [layout_collapse, Layout.closed]
  cases hlines : (layout t).lines with
  | nil => simp [closeLines]
  | cons first rest =>
      rw [hlines, List.forall_mem_cons] at h
      refine List.forall_mem_cons.mpr ⟨h.1, closeRuns_crlf h.1 ?_⟩
      rw [runs, List.flatten_splitBy]
      exact h.2

@[simp] theorem hasCrlf_iff {t : Text} : hasCrlf t = true ↔ ['\r', '\n'] <:+: t := by
  induction t with
  | nil => simp [hasCrlf]
  | cons c t ih =>
      rw [hasCrlf, Bool.or_eq_true, ih, List.infix_cons_iff, List.cons_prefix_cons,
        Bool.and_eq_true, beq_iff_eq, beq_iff_eq, eq_comm]
      cases t with
      | nil => simp
      | cons d t => simp [List.cons_prefix_cons, eq_comm]

theorem Trimmed.crlf_suffix_iff {body : Text} (h : Trimmed body) :
    ['\r', '\n'] <:+ body ++ finalNewline body ↔ ['\r', '\n'] <:+: body := by
  rw [← hasCrlf_iff, finalNewline]
  cases hcrlf : hasCrlf body with
  | true => simp
  | false =>
      refine iff_of_false ?_ Bool.false_ne_true
      rintro ⟨front, hsplit⟩
      have hlast : body = front ++ ['\r'] := by
        rw [← List.singleton_append, ← List.append_assoc] at hsplit
        exact (List.append_cancel_right hsplit).symm
      have hvisible := h.last '\r' (by simp [hlast])
      exact absurd hvisible (by decide)

theorem CrlfOnly.trim {t : Text} (h : CrlfOnly t) : CrlfOnly (trim t) := by
  by_cases hempty : Text.trim t = []
  · rw [hempty, crlfOnly_iff]
    trivial
  · obtain ⟨before, behind, hsplit⟩ := isInfix_trim t
    rw [← hsplit, List.append_assoc, crlfOnly_iff, feedsFollow_append, feedsFollow_append] at h
    rw [crlfOnly_iff]
    apply h.2.1.of_head
    intro hhead
    exact absurd ((trimmed_trim hempty).head _ hhead) (by decide)

theorem CrlfOnly.mem_iff {t : Text} (h : CrlfOnly t) : '\n' ∈ t ↔ ['\r', '\n'] <:+: t := by
  constructor
  · intro hmem
    obtain ⟨before, rest, rfl⟩ := List.append_of_mem hmem
    obtain ⟨front, rfl⟩ := List.getLast?_eq_some_iff.mp (h before rest rfl)
    exact ⟨front, rest, by simp⟩
  · intro hwithin
    exact hwithin.mem (by simp)

theorem Trimmed.crlfOnly_append_iff {body : Text} (h : Trimmed body) (hcrlf : CrlfOnly body) :
    CrlfOnly (body ++ finalNewline body) ↔ '\n' ∈ body := by
  have hlast : body.getLast? ≠ some '\r' := fun hlast => absurd (h.last _ hlast) (by decide)
  rw [hcrlf.mem_iff, ← hasCrlf_iff, crlfOnly_iff, feedsFollow_append,
    and_iff_right (crlfOnly_iff.mp hcrlf), finalNewline]
  cases hasCrlf body with
  | true => simp [FeedsFollow]
  | false => simp [FeedsFollow, hlast]

theorem CrlfOnly.finish_iff {t : Text} (h : CrlfOnly t) :
    CrlfOnly (finish t) ↔ AllBlank t ∨ '\n' ∈ Text.trim t := by
  rw [finish_eq, ← trim_eq_nil_iff]
  split
  · next hempty =>
      refine iff_of_true ?_ (.inl hempty)
      rw [crlfOnly_iff]
      trivial
  · next hbody => rw [(trimmed_trim hbody).crlfOnly_append_iff h.trim, or_iff_right hbody]

end CommentSweep.Text
