import CommentSweep.Script

/-!
Traces of the scanner: what it keeps of a stretch of a source, and its state behind the stretch. A
stretch is read with the text that follows it in sight, so that traces can be joined and cut
anywhere.
-/

namespace CommentSweep

def Text.lastVisible (t : Text) : Option Char :=
  (t.filter (!Text.isBlank ·)).getLast?

@[simp] theorem Text.lastVisible_append (t u : Text) :
    Text.lastVisible (t ++ u) = (Text.lastVisible u).or (Text.lastVisible t) := by
  simp [Text.lastVisible, List.getLast?_append]

theorem Text.lastVisible_append_singleton (t : Text) (c : Char) :
    Text.lastVisible (t ++ [c]) =
      if Text.isBlank c then Text.lastVisible t else some c := by
  rw [Text.lastVisible_append]
  cases hc : Text.isBlank c <;> simp [Text.lastVisible, hc]

namespace Script

theorem opensDoc_iff {rest : Text} :
    opensDoc ('/' :: '*' :: rest) = true ↔
      ∃ tail, rest = '*' :: tail ∧ tail.head? ≠ some '/' := by
  constructor
  · intro hdoc
    cases rest with
    | nil => simp [opensDoc] at hdoc
    | cons c tail =>
        by_cases hc : c = '*'
        · subst hc
          exact ⟨tail, rfl, by simpa [opensDoc] using hdoc⟩
        · simp [opensDoc, hc] at hdoc
  · rintro ⟨tail, rfl, hfourth⟩
    simpa [opensDoc] using hfourth

theorem Mode.read_code_slash {ahead : Text} (hstar : ahead.head? ≠ some '*')
    (hslash : ahead.head? ≠ some '/') (prev : Option Char) :
    Mode.code.read prev '/' ahead =
      if opensRegex prev then ⟨true, .regex false, 0⟩ else ⟨true, .code, 0⟩ := by
  have hdoc : opensDoc ('/' :: ahead) = false := by
    cases ahead with
    | nil => rfl
    | cons c ahead =>
        have hc : ¬c = '*' := fun h => hstar (congrArg some h)
        simp [opensDoc, hc]
  simp [Mode.read, hdoc, hstar, hslash]

namespace State

/-- What the scanner keeps of `t` when `ahead` follows. -/
def keeps (s : State) : (t ahead : Text) → Text
  | [], _ => []
  | c :: t, ahead =>
      let next := s.step c (t ++ ahead)
      if next.1 then c :: next.2.keeps t ahead else next.2.keeps t ahead

def after (s : State) : (t ahead : Text) → State
  | [], _ => s
  | c :: t, ahead => (s.step c (t ++ ahead)).2.after t ahead

@[simp] theorem keeps_nil (s : State) (ahead : Text) : s.keeps [] ahead = [] := rfl

@[simp] theorem keeps_cons (s : State) (c : Char) (t ahead : Text) :
    s.keeps (c :: t) ahead =
      if (s.step c (t ++ ahead)).1 then c :: (s.step c (t ++ ahead)).2.keeps t ahead
      else (s.step c (t ++ ahead)).2.keeps t ahead := rfl

@[simp] theorem after_cons (s : State) (c : Char) (t ahead : Text) :
    s.after (c :: t) ahead = (s.step c (t ++ ahead)).2.after t ahead := rfl

@[simp] theorem keeps_append (s : State) (t u ahead : Text) :
    s.keeps (t ++ u) ahead =
      s.keeps t (u ++ ahead) ++ (s.after t (u ++ ahead)).keeps u ahead := by
  induction t generalizing s with
  | nil => rfl
  | cons c t ih =>
      simp only [List.cons_append, keeps_cons, after_cons, List.append_assoc, ih]
      split <;> rfl

@[simp] theorem after_append (s : State) (t u ahead : Text) :
    s.after (t ++ u) ahead = (s.after t (u ++ ahead)).after u ahead := by
  induction t generalizing s with
  | nil => rfl
  | cons c t ih => simp only [List.cons_append, after_cons, List.append_assoc, ih]

theorem scanFrom_eq (out : Text) (s : State) (t : Text) :
    scanFrom out s t = out.reverse ++ s.keeps t [] := by
  induction t generalizing out s with
  | nil => simp [scanFrom]
  | cons c t ih =>
      rw [scanFrom, keeps_cons, List.append_nil]
      rcases hstep : s.step c t with ⟨keep, next⟩
      cases keep with
      | true => simp [ih]
      | false => simp [ih]

theorem strip_eq (source : Text) : strip source = ({} : State).keeps source [] :=
  scanFrom_eq [] {} source

@[simp] theorem step_prev (s : State) (c : Char) (ahead : Text) :
    (s.step c ahead).2.prev = if Text.isBlank c then s.prev else some c := by
  unfold step
  cases s.tied with
  | zero => rfl
  | succ tied => rfl

@[simp] theorem step_untied {s : State} (huntied : s.tied = 0) (c : Char) (ahead : Text) :
    s.step c ahead =
      ((s.mode.read s.prev c ahead).keep,
        { mode := (s.mode.read s.prev c ahead).mode
          tied := (s.mode.read s.prev c ahead).tied
          keep := (s.mode.read s.prev c ahead).keep
          prev := if Text.isBlank c then s.prev else some c }) := by
  simp [step, huntied]

@[simp] theorem step_tied {s : State} (htied : s.tied ≠ 0) (c : Char) (ahead : Text) :
    s.step c ahead =
      (s.keep,
        { s with tied := s.tied - 1, prev := if Text.isBlank c then s.prev else some c }) := by
  obtain ⟨tied, hsucc⟩ := Nat.exists_eq_succ_of_ne_zero htied
  simp [step, hsucc]

@[simp] theorem after_prev (s : State) (t ahead : Text) :
    (s.after t ahead).prev = (Text.lastVisible t).or s.prev := by
  induction t generalizing s with
  | nil => rfl
  | cons c t ih =>
      rw [after_cons, ih, step_prev, ← List.singleton_append, Text.lastVisible_append,
        Option.or_assoc]
      cases hc : Text.isBlank c <;> simp [Text.lastVisible, hc]

structure Ready (s : State) : Prop where
  mode : s.mode = .code
  untied : s.tied = 0

instance (s : State) : Decidable s.Ready :=
  decidable_of_iff (s.mode = .code ∧ s.tied = 0)
    ⟨fun h => ⟨h.1, h.2⟩, fun h => ⟨h.mode, h.untied⟩⟩

theorem ready_start : Ready {} := ⟨rfl, rfl⟩

theorem Ready.step_congr {s u : State} (hs : s.Ready) (hu : u.Ready) (hprev : s.prev = u.prev)
    (c : Char) (ahead : Text) : s.step c ahead = u.step c ahead := by
  rw [step_untied hs.untied, step_untied hu.untied, hs.mode, hu.mode, hprev]

theorem Ready.keeps_congr {s u : State} (hs : s.Ready) (hu : u.Ready) (hprev : s.prev = u.prev)
    (t ahead : Text) : s.keeps t ahead = u.keeps t ahead := by
  cases t with
  | nil => rfl
  | cons c t => simp only [keeps_cons, hs.step_congr hu hprev]

end State

end Script

end CommentSweep
