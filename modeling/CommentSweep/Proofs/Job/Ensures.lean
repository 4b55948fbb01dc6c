import CommentSweep.Job

/-!
What a job comes to. A job looks at the tree and the hazards and not at the log, so whatever the log
holds, it comes to one end and adds the same records. One judgement says what is true of the result,
of the tree and of the records then. That a job returns a value, leaves the tree alone, upholds a
property of trees or adds certain records are cases of it.
-/

namespace CommentSweep.Job

open Disk

@[simp ↓] theorem run_bind (x : Job α) (f : α → Job β) (world : World) :
    (x >>= f).run.run world =
      match x.run.run world with
      | (.ok a, world) => (f a).run.run world
      | (.error abort, world) => (.error abort, world) := by
  change (match x.run.run world with
    | (result, world) => (ExceptT.bindCont f result).run world) = _
  rcases x.run.run world with ⟨abort | a, world⟩ <;> rfl

@[simp] theorem run_tree (world : World) : Job.tree.run.run world = (.ok world.tree, world) :=
  rfl

/-- Whatever the log holds, the job comes to a result and a tree and adds records, of which `Q`
holds. -/
def Ensures (hazards : List Hazard) (job : Job α) (tree : FileTree)
    (Q : Except Abort α → FileTree → List Log.Record → Prop) : Prop :=
  ∃ result after records, Q result after records ∧
    ∀ log, job.run.run ⟨tree, hazards, log⟩ = (result, ⟨after, hazards, log ++ records.toArray⟩)

section

variable {hazards : List Hazard} {tree after : FileTree} {x : Job α} {f : α → Job β}
  {P Q : Except Abort α → FileTree → List Log.Record → Prop}
  {R : Except Abort β → FileTree → List Log.Record → Prop}

theorem Ensures.of_run {result : Except Abort α} (h : Q result after [])
    (hrun : ∀ log, x.run.run ⟨tree, hazards, log⟩ = (result, ⟨after, hazards, log⟩)) :
    Ensures hazards x tree Q :=
  ⟨result, after, [], h, by simpa using hrun⟩

theorem ensures_pure {a : α} (h : Q (.ok a) tree []) : Ensures hazards (pure a) tree Q :=
  .of_run h fun _ => rfl

theorem ensures_throw {abort : Abort} (h : Q (.error abort) tree []) :
    Ensures hazards (throw abort) tree Q :=
  .of_run h fun _ => rfl

theorem ensures_tree {Q : Except Abort FileTree → FileTree → List Log.Record → Prop}
    (h : Q (.ok tree) tree []) : Ensures hazards Job.tree tree Q :=
  .of_run h fun _ => rfl

theorem ensures_hazards {Q : Except Abort (List Hazard) → FileTree → List Log.Record → Prop}
    (h : Q (.ok hazards) tree []) : Ensures hazards Job.hazards tree Q :=
  .of_run h fun _ => rfl

theorem ensures_setTree {Q : Except Abort Unit → FileTree → List Log.Record → Prop}
    (h : Q (.ok ()) after []) :
    Ensures hazards (modify fun world => { world with tree := after }) tree Q :=
  .of_run h fun _ => rfl

theorem ensures_say {record : Log.Record}
    {Q : Except Abort Unit → FileTree → List Log.Record → Prop} (h : Q (.ok ()) tree [record]) :
    Ensures hazards (say record) tree Q :=
  ⟨.ok (), tree, [record], h, fun log => by simp; rfl⟩

theorem Ensures.mono (h : Ensures hazards x tree P)
    (hPQ : ∀ result after records, P result after records → Q result after records) :
    Ensures hazards x tree Q := by
  obtain ⟨result, after, records, hP, hrun⟩ := h
  exact ⟨result, after, records, hPQ _ _ _ hP, hrun⟩

theorem Ensures.bind (hx : Ensures hazards x tree P)
    (hf : ∀ a after records, P (.ok a) after records →
      Ensures hazards (f a) after fun result last more => R result last (records ++ more))
    (hoff : ∀ abort after records, P (.error abort) after records →
      R (.error abort) after records) : Ensures hazards (x >>= f) tree R := by
  obtain ⟨result, middle, records, hP, hrun⟩ := hx
  cases result with
  | error abort =>
      exact ⟨.error abort, middle, records, hoff _ _ _ hP, fun log => by rw [run_bind, hrun]⟩
  | ok a =>
      obtain ⟨result, last, more, hR, hrest⟩ := hf a middle records hP
      refine ⟨result, last, records ++ more, hR, fun log => ?_⟩
      rw [run_bind, hrun]
      simp only [hrest, Array.append_assoc, List.append_toArray]

theorem Ensures.and (hP : Ensures hazards x tree P) (hQ : Ensures hazards x tree Q) :
    Ensures hazards x tree fun result after records =>
      P result after records ∧ Q result after records := by
  obtain ⟨result, after, records, hP, hrun⟩ := hP
  obtain ⟨result', after', records', hQ, hrun'⟩ := hQ
  have hboth := (hrun #[]).symm.trans (hrun' #[])
  rw [Array.empty_append, Array.empty_append] at hboth
  cases hboth
  exact ⟨result, after, records, ⟨hP, hQ⟩, hrun⟩

theorem Ensures.run {world : World} (h : Ensures world.hazards x world.tree Q) :
    ∃ records, Q (x.run.run world).1 (x.run.run world).2.tree records := by
  obtain ⟨_, _, records, hQ, hrun⟩ := h
  rw [hrun world.log]
  exact ⟨records, hQ⟩

/-- A loop whose turns keep an invariant, which may depend on the items that are done. -/
theorem ensures_foldlM {f : σ → α → Job σ} {items : List α}
    {I : List α → σ → FileTree → List Log.Record → Prop}
    {R : Except Abort σ → FileTree → List Log.Record → Prop}
    (hturn : ∀ done item rest s after records, items = done ++ item :: rest →
      I done s after records →
      Ensures hazards (f s item) after fun result last more =>
        match result with
        | .ok s => I (done ++ [item]) s last (records ++ more)
        | .error abort => R (.error abort) last (records ++ more))
    (hend : ∀ s after records, I items s after records → R (.ok s) after records)
    {s : σ} (h : I [] s tree []) : Ensures hazards (items.foldlM f s) tree R := by
  have hrest : ∀ rest done s after records, items = done ++ rest → I done s after records →
      Ensures hazards (rest.foldlM f s) after fun result last more =>
        R result last (records ++ more) := by
    intro rest
    induction rest with
    | nil =>
        intro done s after records hitems hI
        rw [List.append_nil] at hitems
        refine ensures_pure ?_
        rw [List.append_nil]
        exact hend s after records (hitems ▸ hI)
    | cons item rest ih =>
        intro done s after records hitems hI
        rw [List.foldlM_cons]
        refine (hturn done item rest s after records hitems hI).bind ?_ ?_
        · intro s last more hI
          have hnext := ih (done ++ [item]) s last (records ++ more) (by simp [hitems]) hI
          simpa only [List.append_assoc] using hnext
        · intro abort last more hR
          exact hR
  simpa using hrest items [] s tree [] rfl h

end

/-- Whatever the log holds, the job comes to the result and leaves the tree `after`. -/
def Ends (hazards : List Hazard) (job : Job α) (tree : FileTree) (result : Except Abort α)
    (after : FileTree) : Prop :=
  Ensures hazards job tree fun result' after' _ => result' = result ∧ after' = after

abbrev Returns (hazards : List Hazard) (job : Job α) (tree : FileTree) (a : α)
    (after : FileTree) : Prop :=
  Ends hazards job tree (.ok a) after

def Logs (hazards : List Hazard) (job : Job α) (tree : FileTree) (a : α)
    (records : List Log.Record) : Prop :=
  Ensures hazards job tree fun result after records' =>
    result = .ok a ∧ after = tree ∧ records' = records

abbrev Idle (hazards : List Hazard) (job : Job α) (tree : FileTree) : Prop :=
  Ensures hazards job tree fun _ after _ => after = tree

abbrev Keeps (job : Job α) : Prop :=
  ∀ hazards tree, Idle hazards job tree

/-- Where the tree has the property, it has it again when the job is over, even if that is broken
off. -/
def Upholds (I : FileTree → Prop) (job : Job α) : Prop :=
  ∀ hazards tree, I tree → Ensures hazards job tree fun _ after _ => I after

section

variable {hazards : List Hazard} {tree middle after : FileTree} {x : Job α} {f : α → Job β} {a : α}

theorem returns_pure (a : α) : Returns hazards (pure a) tree a tree :=
  ensures_pure ⟨rfl, rfl⟩

theorem returns_say (record : Log.Record) : Returns hazards (say record) tree () tree :=
  ensures_say ⟨rfl, rfl⟩

theorem ends_throw (abort : Abort) : Ends hazards (throw abort : Job α) tree (.error abort) tree :=
  ensures_throw ⟨rfl, rfl⟩

theorem Ends.run {result : Except Abort α} (h : Ends hazards x tree result after)
    (log : Array Log.Record) :
    ∃ log', x.run.run ⟨tree, hazards, log⟩ = (result, ⟨after, hazards, log'⟩) := by
  obtain ⟨_, _, records, ⟨rfl, rfl⟩, hrun⟩ := h
  exact ⟨_, hrun log⟩

theorem Ends.unique {result result' : Except Abort α} {after' : FileTree}
    (h : Ends hazards x tree result after) (h' : Ends hazards x tree result' after') :
    result = result' ∧ after = after' := by
  obtain ⟨_, _, _, ⟨⟨rfl, rfl⟩, rfl, rfl⟩, -⟩ := Ensures.and h h'
  exact ⟨rfl, rfl⟩

theorem Returns.unique {b : α} (ha : Returns hazards x tree a middle)
    (hb : Returns hazards x tree b after) : a = b :=
  Except.ok.inj (Ends.unique ha hb).1

theorem Ensures.ends {Q : Except Abort α → FileTree → List Log.Record → Prop}
    (h : Ensures hazards x tree Q) :
    Ensures hazards x tree fun result after records =>
      Q result after records ∧ Ends hazards x tree result after := by
  obtain ⟨result, after, records, hQ, hrun⟩ := h
  exact ⟨result, after, records, ⟨hQ, result, after, records, ⟨rfl, rfl⟩, hrun⟩, hrun⟩

theorem Ends.bind_ensures {Q : Except Abort β → FileTree → Prop}
    (hx : Returns hazards x tree a middle)
    (hf : Ensures hazards (f a) middle fun result after _ => Q result after) :
    Ensures hazards (x >>= f) tree fun result after _ => Q result after := by
  refine Ensures.bind hx ?_ ?_
  · rintro _ _ _ ⟨⟨⟩, rfl⟩
    exact hf
  · rintro _ _ _ ⟨⟨⟩, -⟩

theorem Ends.bind {result : Except Abort β} (hx : Returns hazards x tree a middle)
    (hf : Ends hazards (f a) middle result after) : Ends hazards (x >>= f) tree result after :=
  hx.bind_ensures hf

theorem Ends.bind_error {abort : Abort} (h : Ends hazards x tree (.error abort) after)
    (f : α → Job β) : Ends hazards (x >>= f) tree (.error abort) after := by
  refine Ensures.bind h ?_ ?_
  · rintro _ _ _ ⟨⟨⟩, -⟩
  · intro _ _ _ hends
    exact ⟨congrArg Except.error (Except.error.inj hends.1), hends.2⟩

theorem Ends.idle (h : Returns hazards x tree a tree) : Idle hazards x tree :=
  h.mono fun _ _ _ hends => hends.2

theorem Idle.bind (hx : Idle hazards x tree) (hf : ∀ a, Idle hazards (f a) tree) :
    Idle hazards (x >>= f) tree := by
  refine Ensures.bind hx ?_ fun _ _ _ hafter => hafter
  rintro a _ _ rfl
  exact hf a

theorem Idle.bind_ensures {Q : Except Abort β → FileTree → Prop} (hx : Idle hazards x tree)
    (hf : ∀ a, Returns hazards x tree a tree →
      Ensures hazards (f a) tree fun result after _ => Q result after)
    (hoff : ∀ abort, Ends hazards x tree (.error abort) tree → Q (.error abort) tree) :
    Ensures hazards (x >>= f) tree fun result after _ => Q result after := by
  refine Ensures.bind (Ensures.ends hx) ?_ ?_
  · rintro a _ _ ⟨rfl, hends⟩
    exact hf a hends
  · rintro abort _ _ ⟨rfl, hends⟩
    exact hoff abort hends

theorem Logs.returns {records : List Log.Record} (h : Logs hazards x tree a records) :
    Returns hazards x tree a tree :=
  h.mono fun _ _ _ hlogs => ⟨hlogs.1, hlogs.2.1⟩

theorem Logs.bind {b : β} {first second : List Log.Record} (hx : Logs hazards x tree a first)
    (hf : Logs hazards (f a) tree b second) : Logs hazards (x >>= f) tree b (first ++ second) := by
  refine Ensures.bind hx ?_ ?_
  · rintro _ _ _ ⟨⟨⟩, rfl, rfl⟩
    exact hf.mono fun _ _ _ hlogs => ⟨hlogs.1, hlogs.2.1, congrArg _ hlogs.2.2⟩
  · rintro _ _ _ ⟨⟨⟩, -⟩

theorem logs_pure (a : α) : Logs hazards (pure a) tree a [] :=
  ensures_pure ⟨rfl, rfl, rfl⟩

theorem logs_tree : Logs hazards Job.tree tree tree [] :=
  ensures_tree ⟨rfl, rfl, rfl⟩

theorem logs_hazards : Logs hazards Job.hazards tree hazards [] :=
  ensures_hazards ⟨rfl, rfl, rfl⟩

theorem logs_say (record : Log.Record) : Logs hazards (say record) tree () [record] :=
  ensures_say ⟨rfl, rfl, rfl⟩

theorem logs_foldlM {turn : List β → α → Job (List β)} {found : α → List β}
    {recordsOf : α → List Log.Record} {items : List α}
    (h : ∀ item ∈ items, ∀ seen,
      Logs hazards (turn seen item) tree (seen ++ found item) (recordsOf item)) (seen : List β) :
    Logs hazards (items.foldlM turn seen) tree (seen ++ items.flatMap found)
      (items.flatMap recordsOf) := by
  apply ensures_foldlM (I := fun done s after records =>
    s = seen ++ done.flatMap found ∧ after = tree ∧ records = done.flatMap recordsOf)
  · rintro done item rest _ _ _ rfl ⟨rfl, rfl, rfl⟩
    refine (h item (by simp) _).mono ?_
    rintro _ _ _ ⟨rfl, rfl, rfl⟩
    simp
  · rintro _ _ _ ⟨rfl, rfl, rfl⟩
    exact ⟨rfl, rfl, rfl⟩
  · simp

theorem logs_forM {f : α → Job Unit} {recordsOf : α → List Log.Record} {items : List α}
    (h : ∀ item ∈ items, Logs hazards (f item) tree () (recordsOf item)) :
    Logs hazards (items.forM f) tree () (items.flatMap recordsOf) := by
  induction items with
  | nil => exact logs_pure ()
  | cons item items ih =>
      obtain ⟨hitem, hitems⟩ := List.forall_mem_cons.mp h
      exact hitem.bind (ih hitems)

end

section

variable {I : FileTree → Prop} {x : Job α} {f : α → Job β}

theorem Keeps.bind (hx : Keeps x) (hf : ∀ a, Keeps (f a)) : Keeps (x >>= f) :=
  fun hazards tree => (hx hazards tree).bind fun a => hf a hazards tree

theorem Keeps.tree_eq (h : Keeps x) (world : World) : (x.run.run world).2.tree = world.tree := by
  obtain ⟨_, hafter⟩ := (h world.hazards world.tree).run
  exact hafter

theorem Keeps.upholds (h : Keeps x) : Upholds I x :=
  fun hazards tree hI => (h hazards tree).mono fun _ _ _ hafter => hafter ▸ hI

theorem upholds_of_returns {a : α} (h : ∀ hazards tree, Returns hazards x tree a tree) :
    Upholds I x :=
  Keeps.upholds fun hazards tree => (h hazards tree).idle

theorem keeps_of_upholds (h : ∀ tree, Upholds (· = tree) x) : Keeps x :=
  fun hazards tree => h tree hazards tree rfl

theorem upholds_pure (a : α) : Upholds I (pure a) :=
  fun _ _ hI => ensures_pure hI

theorem Upholds.bind (hx : Upholds I x) (hf : ∀ a, Upholds I (f a)) : Upholds I (x >>= f) :=
  fun hazards tree hI => (hx hazards tree hI).bind
    (fun a after _ hafter => hf a hazards after hafter) fun _ _ _ hafter => hafter

theorem upholds_foldlM {f : σ → α → Job σ} {items : List α}
    (hf : ∀ item ∈ items, ∀ s, Upholds I (f s item)) (s : σ) : Upholds I (items.foldlM f s) := by
  intro hazards tree hI
  apply ensures_foldlM (I := fun _ _ after _ => I after)
  · rintro done item rest s after _ rfl hafter
    refine (hf item (by simp) s hazards after hafter).mono ?_
    intro result _ _ hlast
    cases result <;> exact hlast
  · exact fun _ _ _ hafter => hafter
  · exact hI

theorem tree_bind_of_keeps (hf : ∀ a, Keeps (f a)) (world : World) :
    ((x >>= f).run.run world).2.tree = (x.run.run world).2.tree := by
  rw [run_bind]
  generalize x.run.run world = first
  obtain ⟨result, middle⟩ := first
  cases result with
  | error abort => rfl
  | ok a => exact (hf a).tree_eq middle

end

end CommentSweep.Job
