import CommentSweep.Proofs.Job.Access

/-!
Two jobs side by side. One judgement says of two jobs what is true of their ends: where the first
one returns, so does the second, and where the first is broken off and they are tied, the second is
broken off for the same reason. Jobs that keep step among the same hazards, jobs that come to the
same, and a job among all hazards beside one among the faults of the system only are cases of it.
-/

namespace CommentSweep.Job

open Disk

/-- Of the two jobs `Ok` holds where the first returns, and `Off` where it is broken off. -/
def Relates (tied : Prop) (hazards : List Hazard) (x : Job α) (t : FileTree)
    (hazards' : List Hazard) (y : Job β) (u : FileTree) (Ok : α → β → FileTree → FileTree → Prop)
    (Off : Abort → FileTree → FileTree → Prop) : Prop :=
  Ensures hazards x t fun result t' _ =>
    match result with
    | .ok a => ∃ b u', Returns hazards' y u b u' ∧ Ok a b t' u'
    | .error abort => ∃ u', Off abort t' u' ∧ (tied → Ends hazards' y u (.error abort) u')

section

variable {tied : Prop} {hazards hazards' : List Hazard} {t t' u u' : FileTree} {x : Job α}
  {y : Job β} {f : α → Job γ} {g : β → Job δ} {Ok Ok' : α → β → FileTree → FileTree → Prop}
  {Off Off' : Abort → FileTree → FileTree → Prop} {R : γ → δ → FileTree → FileTree → Prop}

theorem Relates.bind (hxy : Relates tied hazards x t hazards' y u Ok Off)
    (hfg : ∀ a b t' u', Ok a b t' u' → Relates tied hazards (f a) t' hazards' (g b) u' R Off) :
    Relates tied hazards (x >>= f) t hazards' (y >>= g) u R Off := by
  refine Ensures.bind hxy ?_ ?_
  · rintro a t' _ ⟨b, u', hy, hOk⟩
    refine (hfg a b t' u' hOk).mono ?_
    intro result t'' _ hends
    cases result with
    | ok c =>
        obtain ⟨d, u'', hg, hR⟩ := hends
        exact ⟨d, u'', hy.bind hg, hR⟩
    | error abort =>
        obtain ⟨u'', hOff, hg⟩ := hends
        exact ⟨u'', hOff, fun htied => hy.bind (hg htied)⟩
  · rintro abort t' _ ⟨u', hOff, hy⟩
    exact ⟨u', hOff, fun htied => (hy htied).bind_error g⟩

theorem Relates.mono (h : Relates tied hazards x t hazards' y u Ok Off)
    (hOk : ∀ a b t' u', Ok a b t' u' → Ok' a b t' u')
    (hOff : ∀ abort t' u', Off abort t' u' → Off' abort t' u') :
    Relates tied hazards x t hazards' y u Ok' Off' := by
  refine Ensures.mono h ?_
  intro result t' _ hends
  cases result with
  | ok a =>
      obtain ⟨b, u', hy, h⟩ := hends
      exact ⟨b, u', hy, hOk _ _ _ _ h⟩
  | error abort =>
      obtain ⟨u', h, hy⟩ := hends
      exact ⟨u', hOff _ _ _ h, hy⟩

theorem Ends.relates {a : α} {b : β} (hx : Returns hazards x t a t')
    (hy : Returns hazards' y u b u') (h : Ok a b t' u') :
    Relates tied hazards x t hazards' y u Ok Off := by
  refine Ensures.mono hx ?_
  rintro _ _ _ ⟨rfl, rfl⟩
  exact ⟨b, u', hy, h⟩

theorem Ends.relates_error {abort : Abort} (hx : Ends hazards x t (.error abort) t')
    (hy : tied → Ends hazards' y u (.error abort) u') (h : Off abort t' u') :
    Relates tied hazards x t hazards' y u Ok Off := by
  refine Ensures.mono hx ?_
  rintro _ _ _ ⟨rfl, rfl⟩
  exact ⟨u', h, hy⟩

theorem Ends.bind_relates {a : α} {y : Job δ} {R : γ → δ → FileTree → FileTree → Prop}
    (hx : Returns hazards x t a t') (hf : Relates tied hazards (f a) t' hazards' y u R Off) :
    Relates tied hazards (x >>= f) t hazards' y u R Off :=
  hx.bind_ensures hf

theorem Ends.relates_bind {b : β} {x : Job γ} (hy : Returns hazards' y u b u')
    (hg : Relates tied hazards x t hazards' (g b) u' R Off) :
    Relates tied hazards x t hazards' (y >>= g) u R Off := by
  refine Ensures.mono hg ?_
  rintro (abort | c) t' _ hends
  · obtain ⟨u'', hOff, hends⟩ := hends
    exact ⟨u'', hOff, fun htied => hy.bind (hends htied)⟩
  · obtain ⟨d, u'', hends, hR⟩ := hends
    exact ⟨d, u'', hy.bind hends, hR⟩

theorem relates_foldlM {f : σ → α → Job σ} {g : τ → α → Job τ}
    {I : σ → τ → FileTree → FileTree → Prop} {items : List α}
    (hturn : ∀ item ∈ items, ∀ s s' t u, I s s' t u →
      Relates tied hazards (f s item) t hazards' (g s' item) u I Off)
    {s : σ} {s' : τ} (h : I s s' t u) :
    Relates tied hazards (items.foldlM f s) t hazards' (items.foldlM g s') u I Off := by
  induction items generalizing s s' t u with
  | nil => exact (returns_pure s).relates (returns_pure s') h
  | cons item items ih =>
      obtain ⟨hitem, hitems⟩ := List.forall_mem_cons.mp hturn
      rw [List.foldlM_cons, List.foldlM_cons]
      exact (hitem s s' t u h).bind fun a b t' u' hab => ih hitems hab

end

abbrev Alongside (tied : Prop) (hazards : List Hazard) (x : Job α) (t : FileTree) (y : Job β)
    (u : FileTree) (Q : α → β → FileTree → FileTree → Prop) : Prop :=
  Relates tied hazards x t hazards y u Q fun _ _ _ => True

section

variable {tied : Prop} {hazards : List Hazard} {t t' u u' tree : FileTree} {x : Job α} {y : Job β}
  {Q : α → β → FileTree → FileTree → Prop}

theorem Ends.alongside {a : α} {b : β} (hx : Returns hazards x t a t')
    (hy : Returns hazards y u b u') (h : Q a b t' u') : Alongside tied hazards x t y u Q :=
  hx.relates hy h

theorem alongside_pure {a : α} {b : β} (h : Q a b t u) :
    Alongside tied hazards (pure a) t (pure b) u Q :=
  (returns_pure a).alongside (returns_pure b) h

theorem alongside_access {kind : Access} {path : Path} {use : FileTree → Except Errno α}
    {use' : FileTree → Except Errno β} :
    Alongside tied hazards (access kind path use) t (access kind path use') u
      fun a b t' u' => Passable hazards kind path ∧ t' = t ∧ u' = u ∧
        a = attempt hazards kind path (use t) ∧ b = attempt hazards kind path (use' u) := by
  cases habort : abort? hazards kind path with
  | none =>
      exact (logs_access habort use).returns.alongside (logs_access habort use').returns
        ⟨passable_of_abort? habort, rfl, rfl, rfl, rfl⟩
  | some abort =>
      exact (ends_access habort use).relates_error (fun _ => ends_access habort use') trivial

theorem Idle.alongside_bind {f : α → Job β} {g : α → Job γ}
    {Q : β → γ → FileTree → FileTree → Prop} (hx : Idle hazards x tree)
    (hf : ∀ a, Returns hazards x tree a tree → Alongside tied hazards (f a) tree (g a) tree Q) :
    Alongside tied hazards (x >>= f) tree (x >>= g) tree Q := by
  have hsame : Alongside tied hazards x tree x tree fun a b t u =>
      a = b ∧ t = tree ∧ u = tree ∧ Returns hazards x tree a tree := by
    refine (Ensures.ends hx).mono ?_
    rintro result _ _ ⟨rfl, hends⟩
    cases result with
    | ok a => exact ⟨a, _, hends, rfl, rfl, rfl, hends⟩
    | error abort => exact ⟨_, trivial, fun _ => hends⟩
  refine hsame.bind ?_
  rintro a _ _ _ ⟨rfl, rfl, rfl, hreturns⟩
  exact hf a hreturns

/-- Two tied jobs that each keep step with an idle one return alike, and the idle one with them. -/
theorem Relates.through {z : Job γ} {R : α → γ → FileTree → FileTree → Prop}
    {S : β → γ → FileTree → FileTree → Prop} (hxy : Alongside True hazards x t y u Q)
    (hx : Alongside False hazards x t z tree R) (hy : Alongside False hazards y u z tree S)
    (hz : Idle hazards z tree) :
    Alongside True hazards x t y u fun a b t' u' =>
      ∃ c, Returns hazards z tree c tree ∧ R a c t' tree ∧ S b c u' tree := by
  refine (Ensures.and hxy hx).mono ?_
  rintro (abort | a) t' _ ⟨hboth, hleft⟩
  · exact hboth
  · obtain ⟨b, u', hreturns, -⟩ := hboth
    obtain ⟨c, after, hc, hR⟩ := hleft
    obtain ⟨_, _, _, ⟨hright, rfl, rfl⟩, -⟩ := Ensures.and hy hreturns
    obtain ⟨d, after', hd, hS⟩ := hright
    obtain ⟨_, _, _, ⟨rfl, -, rfl⟩, -⟩ := Ensures.and hz hc
    obtain ⟨hcd, rfl⟩ := Ends.unique hc hd
    cases hcd
    exact ⟨b, _, hreturns, c, hc, hR, hS⟩

theorem Relates.left (h : Alongside tied hazards x t y u Q) (c : γ) :
    Alongside False hazards x t (pure c) tree fun a d t' after =>
      d = c ∧ after = tree ∧ ∃ b u', Q a b t' u' := by
  refine Ensures.mono h ?_
  rintro (abort | a) t' _ hends
  · exact ⟨tree, trivial, False.elim⟩
  · obtain ⟨b, u', -, hQ⟩ := hends
    exact ⟨c, tree, returns_pure c, rfl, rfl, b, u', hQ⟩

end

/-- On trees with the property both jobs come to the same result and leave the same tree, which has
the property again. -/
def Alike (I : FileTree → Prop) (hazards : List Hazard) (x y : Job α) : Prop :=
  ∀ tree, I tree → Relates True hazards x tree hazards y tree (fun a b t u => a = b ∧ t = u ∧ I t)
    fun _ t u => t = u

section

variable {I : FileTree → Prop} {hazards : List Hazard}

theorem alike_pure (a : α) : Alike I hazards (pure a) (pure a) :=
  fun _ hI => (returns_pure a).relates (returns_pure a) ⟨rfl, rfl, hI⟩

theorem Alike.bind {x y : Job α} {f g : α → Job β} (hxy : Alike I hazards x y)
    (hfg : ∀ a, Alike I hazards (f a) (g a)) : Alike I hazards (x >>= f) (y >>= g) := by
  intro tree hI
  refine (hxy tree hI).bind ?_
  rintro a _ t _ ⟨rfl, rfl, ht⟩
  exact hfg a t ht

theorem Alike.behind {x : Job α} {a : α} {f : α → Job β} {y : Job β}
    (hx : ∀ tree, Returns hazards x tree a tree) (hf : Alike I hazards (f a) y) :
    Alike I hazards (x >>= f) y :=
  fun tree hI => (hx tree).bind_ensures (hf tree hI)

theorem alike_foldlM_flatMap {f : σ → α → Job σ} {g : σ → β → Job σ} {parts : α → List β}
    {items : List α}
    (hturn : ∀ item ∈ items, ∀ s, Alike I hazards (f s item) ((parts item).foldlM g s)) (s : σ) :
    Alike I hazards (items.foldlM f s) ((items.flatMap parts).foldlM g s) := by
  induction items generalizing s with
  | nil => exact alike_pure s
  | cons item items ih =>
      obtain ⟨hitem, hitems⟩ := List.forall_mem_cons.mp hturn
      rw [List.foldlM_cons, List.flatMap_cons, List.foldlM_append]
      exact (hitem s).bind fun s => ih hitems s

theorem Alike.exists_ends {x y : Job α} (h : Alike I hazards x y) {tree : FileTree} (hI : I tree) :
    ∃ result after, Ends hazards x tree result after ∧ Ends hazards y tree result after := by
  obtain ⟨result, after, _, ⟨hboth, hx⟩, -⟩ := Ensures.ends (h tree hI)
  cases result with
  | ok a =>
      obtain ⟨b, u, hy, rfl, rfl, -⟩ := hboth
      exact ⟨_, _, hx, hy⟩
  | error abort =>
      obtain ⟨u, rfl, hy⟩ := hboth
      exact ⟨_, _, hx, hy trivial⟩

end

def calm (hazards : List Hazard) : List Hazard :=
  hazards.filter (·.hindrance.isSystem)

/-- One job among all hazards, beside another among the faults of the system only. The first is
broken off with the tree as it was, which does not happen if it is safe, or both return and leave
the same tree. -/
def Weathers (hazards : List Hazard) (safe : Prop) (x : Job α) (y : Job β) (tree : FileTree)
    (Q : α → β → FileTree → Prop) : Prop :=
  Relates False hazards x tree (calm hazards) y tree (fun a b t u => t = u ∧ Q a b t)
    fun _ t _ => ¬safe ∧ t = tree

section

variable {hazards : List Hazard} {tree after : FileTree} {safe : Prop} {x : Job α} {y : Job β}
  {f : α → Job γ} {g : β → Job δ} {Q : α → β → FileTree → Prop} {R : γ → δ → FileTree → Prop}
  {kind : Access} {path : Path}

theorem mild_calm (hazards : List Hazard) : Mild (calm hazards) :=
  fun _ hmem => (List.mem_filter.mp hmem).2

@[simp] theorem met?_calm (h : Passable hazards kind path) :
    met? (calm hazards) kind path = met? hazards kind path := by
  induction hazards with
  | nil => rfl
  | cons hazard hazards ih =>
      rw [Passable, met?_cons] at h
      rw [calm, List.filter_cons, met?_cons]
      split at h
      · next hmeets => simp [h _ rfl, hmeets]
      · next hmeets =>
          rw [if_neg hmeets, ← ih h]
          split
          · simp [hmeets, calm]
          · rw [calm]

theorem Weathers.of_returns {a : α} {b : β} (hx : Returns hazards x tree a after)
    (hy : Returns (calm hazards) y tree b after) (h : Q a b after) :
    Weathers hazards safe x y tree Q :=
  hx.relates hy ⟨rfl, h⟩

theorem Weathers.of_ends {abort : Abort} (hx : Ends hazards x tree (.error abort) tree)
    (h : ¬safe) : Weathers hazards safe x y tree Q := by
  refine Ensures.mono hx ?_
  rintro _ after _ ⟨rfl, hafter⟩
  exact ⟨after, ⟨h, hafter⟩, False.elim⟩

theorem Weathers.cases (h : Weathers hazards safe x y tree Q) :
    (¬safe ∧ ∃ abort, Ends hazards x tree (.error abort) tree) ∨
      ∃ a b after, Returns hazards x tree a after ∧ Returns (calm hazards) y tree b after ∧
        Q a b after := by
  obtain ⟨result, after, _, ⟨hends, hx⟩, -⟩ := Ensures.ends h
  cases result with
  | ok a =>
      obtain ⟨b, u, hy, rfl, hQ⟩ := hends
      exact .inr ⟨a, b, _, hx, hy, hQ⟩
  | error abort =>
      obtain ⟨_, ⟨hsafe, rfl⟩, -⟩ := hends
      exact .inl ⟨hsafe, abort, hx⟩

theorem Weathers.bind {P : α → β → Prop}
    (hxy : Weathers hazards safe x y tree fun a b after => after = tree ∧ P a b)
    (hfg : ∀ a b, P a b → Weathers hazards safe (f a) (g b) tree R) :
    Weathers hazards safe (x >>= f) (y >>= g) tree R := by
  refine Relates.bind hxy ?_
  rintro a b _ _ ⟨rfl, rfl, hP⟩
  exact hfg a b hP

theorem Weathers.andThen (hxy : Weathers hazards safe x y tree Q)
    (hfg : ∀ a b after, Q a b after → ∃ c d, Returns hazards (f a) after c after ∧
      Returns (calm hazards) (g b) after d after ∧ R c d after) :
    Weathers hazards safe (x >>= f) (y >>= g) tree R := by
  refine Relates.bind hxy ?_
  rintro a b after _ ⟨rfl, hQ⟩
  obtain ⟨c, d, hf, hg, hR⟩ := hfg a b after hQ
  exact hf.relates hg ⟨rfl, hR⟩

theorem Weathers.mono {safe' : Prop} {Q' : α → β → FileTree → Prop}
    (h : Weathers hazards safe x y tree Q) (hsafe : safe' → safe)
    (hQ : ∀ a b after, Q a b after → Q' a b after) : Weathers hazards safe' x y tree Q' :=
  Relates.mono h (fun a b t _ hab => ⟨hab.1, hQ a b t hab.2⟩)
    fun _ _ _ hoff => ⟨fun h => hoff.1 (hsafe h), hoff.2⟩

theorem abort?_calm (h : abort? hazards kind path = none) :
    abort? (calm hazards) kind path = none := by
  rw [abort?, met?_calm (passable_of_abort? h), ← abort?, h]

@[simp] theorem opened_calm (h : Passable hazards kind path) (answer : Except Errno α) :
    opened (calm hazards) kind path answer = opened hazards kind path answer := by
  rw [opened, met?_calm h, ← opened]

@[simp] theorem strike?_calm (h : Passable hazards kind path) :
    strike? (calm hazards) kind path = strike? hazards kind path := by
  rw [strike?, met?_calm h, ← strike?]

@[simp] theorem attempt_calm (h : Passable hazards kind path) (answer : Except Errno α) :
    attempt (calm hazards) kind path answer = attempt hazards kind path answer := by
  rw [attempt, opened_calm h, strike?_calm h, ← attempt]

theorem weathers_access (hazards : List Hazard) (kind : Access) (path : Path)
    (use : FileTree → Except Errno α) (tree : FileTree) :
    Weathers hazards (Mild hazards ∧ path.isNullFree) (access kind path use)
      (access kind path use) tree
      fun a b after => after = tree ∧ a = b ∧ a = attempt (calm hazards) kind path (use tree) := by
  cases habort : abort? hazards kind path with
  | none =>
      have hsame := attempt_calm (passable_of_abort? habort) (use tree)
      exact .of_returns (logs_access habort use).returns
        (logs_access (abort?_calm habort) use).returns ⟨rfl, hsame.symm, hsame.symm⟩
  | some abort =>
      exact .of_ends (ends_access habort use) (not_mild_of_abort? habort)

theorem weathers_overwrite (hazards : List Hazard) (hwell : tree.WellFormed) (path : Path)
    (bytes : Bytes) :
    Weathers hazards (Mild hazards ∧ path.isNullFree) (overwrite path bytes)
      (overwrite path bytes) tree fun a b after => a = b ∧ tree.SameShape after := by
  cases habort : abort? hazards .write path with
  | none =>
      have hpass := passable_of_abort? habort
      have hcalm := opened_calm hpass
        (tree.overwrite path (arriving bytes (strike? (calm hazards) .write path)))
      rw [strike?_calm hpass] at hcalm
      cases hopened : opened hazards .write path
          (tree.overwrite path (arriving bytes (strike? hazards .write path))) with
      | error fault =>
          rw [hopened, ← strike?_calm hpass] at hcalm
          exact .of_returns (returns_overwrite_error habort hopened)
            (returns_overwrite_error (abort?_calm habort) hcalm) ⟨rfl, .refl tree⟩
      | ok after =>
          rw [hopened, ← strike?_calm hpass] at hcalm
          obtain ⟨location, old, -, hfile, rfl⟩ :=
            FileTree.overwrite_eq_ok_iff.mp (ok_of_opened hopened)
          exact .of_returns (returns_overwrite_ok habort hopened)
            (returns_overwrite_ok (abort?_calm habort) hcalm)
            ⟨congrArg written (strike?_calm hpass).symm, hwell.sameShape_put hfile _⟩
  | some abort =>
      exact .of_ends (ends_overwrite habort bytes) (not_mild_of_abort? habort)

end

end CommentSweep.Job
