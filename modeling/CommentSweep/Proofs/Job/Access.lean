import CommentSweep.Proofs.Disk.Skeleton
import CommentSweep.Proofs.Job.Ensures

/-!
Accesses among hazards. An access is broken off by a hazard that is no fault of the system or by a
null character in its path; otherwise it fails or gives what the tree gives. In no case it touches
the tree, except that a write puts bytes into its file: all of them, or those that have arrived when
it is struck.
-/

namespace CommentSweep

open Disk

def Path.isNullFree (path : Path) : Bool :=
  path.parts.all FileTree.isNullFree

theorem Path.isNullFree_child {path : Path} (h : path.isNullFree) {name : String}
    (hname : FileTree.isNullFree name) : (path.child name).isNullFree := by
  rw [isNullFree] at h
  simp [isNullFree, child, h, hname]

theorem Path.isNullFree_of_locate {tree : FileTree} (hwell : tree.WellFormed) {path : Path}
    {location : Location} (h : tree.locate path = .ok location) : path.isNullFree := by
  rw [FileTree.locate] at h
  split at h
  · cases h
  · exact List.all_eq_true.mpr (FileTree.nullFree_of_follow hwell h)

namespace Hindrance

def abort? : Hindrance → Option Abort
  | .interrupt => some .interrupted
  | .crash message => some (.crashed message)
  | _ => none

def isSystem (hindrance : Hindrance) : Bool :=
  hindrance.abort?.isNone

end Hindrance

namespace Job

variable {hazards : List Hazard} {tree after : FileTree} {kind : Access} {path : Path}

theorem checkPath_eq (path : Path) :
    checkPath path = if path.isNullFree then pure () else throw .nullInPath := by
  have hany : path.parts.any (·.toList.contains '\x00') = !path.isNullFree := by
    rw [Path.isNullFree, List.not_all_eq_any_not]
    simp [FileTree.isNullFree]
  rw [checkPath, hany]
  cases path.isNullFree <;> rfl

theorem returns_checkPath (hnull : path.isNullFree) :
    Returns hazards (checkPath path) tree () tree := by
  rw [checkPath_eq, if_pos hnull]
  exact returns_pure ()

theorem keeps_checkPath (path : Path) : Keeps (checkPath path) := by
  intro hazards tree
  rw [checkPath_eq]
  split
  · exact ensures_pure rfl
  · exact ensures_throw rfl

/-- Every hazard is a fault of the system. -/
def Mild (hazards : List Hazard) : Prop :=
  ∀ hazard ∈ hazards, hazard.hindrance.isSystem

def Clear (hazards : List Hazard) (kind : Access) (path : Path) : Prop :=
  ∀ hazard ∈ hazards, ¬(hazard.path = path ∧ hazard.access = kind)

/-- A fault of the system keeps a file or directory from being opened. -/
def Barred (hazards : List Hazard) (kind : Access) (path : Path) : Prop :=
  ∃ errno isNamed, met? hazards kind path = some (.system errno isNamed)

/-- The hazard that an access meets first is a fault of the system, if it meets any. -/
def Passable (hazards : List Hazard) (kind : Access) (path : Path) : Prop :=
  ∀ hindrance, met? hazards kind path = some hindrance → hindrance.isSystem

instance (hazards : List Hazard) : Decidable (Mild hazards) :=
  inferInstanceAs (Decidable (∀ hazard ∈ hazards, hazard.hindrance.isSystem))

instance (hazards : List Hazard) (kind : Access) (path : Path) :
    Decidable (Clear hazards kind path) :=
  inferInstanceAs (Decidable (∀ hazard ∈ hazards, ¬(hazard.path = path ∧ hazard.access = kind)))

@[simp] theorem met?_cons (hazard : Hazard) (hazards : List Hazard) (kind : Access) (path : Path) :
    met? (hazard :: hazards) kind path =
      if hazard.path = path ∧ hazard.access = kind then some hazard.hindrance
      else met? hazards kind path := by
  rw [met?, List.find?_cons, met?]
  split <;> simp_all

theorem met?_eq_none_iff : met? hazards kind path = none ↔ Clear hazards kind path := by
  simp [met?, Clear]

theorem exists_mem_of_met? {hindrance : Hindrance} (h : met? hazards kind path = some hindrance) :
    ⟨path, kind, hindrance⟩ ∈ hazards := by
  obtain ⟨⟨place, access, met⟩, hfind, rfl⟩ := Option.map_eq_some_iff.mp h
  have hmatch := List.find?_some hfind
  simp only [Bool.and_eq_true, beq_iff_eq] at hmatch
  obtain ⟨rfl, rfl⟩ := hmatch
  exact List.mem_of_find?_eq_some hfind

theorem Mild.passable (h : Mild hazards) (kind : Access) (path : Path) :
    Passable hazards kind path :=
  fun _ hmet => h _ (exists_mem_of_met? hmet)

theorem Clear.passable (h : Clear hazards kind path) : Passable hazards kind path := by
  intro hindrance hmet
  rw [met?_eq_none_iff.mpr h] at hmet
  cases hmet

theorem Clear.strike?_eq_none (h : Clear hazards kind path) : strike? hazards kind path = none := by
  rw [strike?, met?_eq_none_iff.mpr h]

theorem Clear.not_barred (h : Clear hazards kind path) : ¬Barred hazards kind path := by
  rintro ⟨errno, isNamed, hmet⟩
  rw [met?_eq_none_iff.mpr h] at hmet
  cases hmet

theorem not_barred_of_strike? {struck : SystemFault × Nat}
    (h : strike? hazards kind path = some struck) : ¬Barred hazards kind path := by
  rintro ⟨errno, isNamed, hmet⟩
  rw [strike?, hmet] at h
  cases h

def abort? (hazards : List Hazard) (kind : Access) (path : Path) : Option Abort :=
  match met? hazards kind path with
  | some (.system _ _) => none
  | some .interrupt => some .interrupted
  | some (.crash message) => some (.crashed message)
  | _ => if path.isNullFree then none else some .nullInPath

def opened (hazards : List Hazard) (kind : Access) (path : Path) (answer : Except Errno α) :
    Except SystemFault α :=
  match met? hazards kind path with
  | some (.system errno isNamed) => .error (faultAt path errno isNamed)
  | _ => named path answer

/-- What an access comes to that the tree answers in this way. -/
def attempt (hazards : List Hazard) (kind : Access) (path : Path) (answer : Except Errno α) :
    Except SystemFault α :=
  match opened hazards kind path answer, strike? hazards kind path with
  | .ok _, some (fault, _) => .error fault
  | opened, _ => opened

theorem abort?_eq_none (hpass : Passable hazards kind path) (hnull : path.isNullFree) :
    abort? hazards kind path = none := by
  rw [abort?]
  cases hmet : met? hazards kind path with
  | none => simp [hnull]
  | some hindrance =>
      have hsystem := hpass hindrance hmet
      cases hindrance with
      | system errno isNamed => rfl
      | partway errno isNamed done => simp [hnull]
      | interrupt => cases hsystem
      | crash message => cases hsystem

theorem not_mild_of_abort? {abort : Abort} (h : abort? hazards kind path = some abort) :
    ¬(Mild hazards ∧ path.isNullFree) := by
  rintro ⟨hmild, hnull⟩
  rw [abort?_eq_none (hmild.passable kind path) hnull] at h
  cases h

theorem not_system_of_abort? {abort : Abort} (h : abort? hazards kind path = some abort)
    (fault : SystemFault) : abort ≠ .system fault := by
  rintro rfl
  rw [abort?] at h
  split at h
  · cases h
  · cases h
  · cases h
  · split at h <;> cases h

theorem passable_of_abort? (h : abort? hazards kind path = none) : Passable hazards kind path := by
  intro hindrance hmet
  rw [abort?, hmet] at h
  cases hindrance with
  | system errno isNamed => rfl
  | partway errno isNamed done => rfl
  | interrupt => cases h
  | crash message => cases h

theorem logs_opening (h : abort? hazards kind path = none) (use : FileTree → Except Errno α) :
    Logs hazards (opening kind path use) tree (opened hazards kind path (use tree)) [] := by
  have hfree (hnull : path.isNullFree) :
      Logs hazards (do checkPath path; return named path (use (← Job.tree))) tree
        (named path (use tree)) [] := by
    rw [checkPath_eq, if_pos hnull]
    exact (logs_pure ()).bind (logs_tree.bind (logs_pure _))
  refine logs_hazards.bind ?_
  rw [abort?] at h
  rw [opened]
  cases hmet : met? hazards kind path with
  | none =>
      exact hfree (by simpa [hmet] using h)
  | some hindrance =>
      rw [hmet] at h
      cases hindrance with
      | system errno isNamed => exact logs_pure _
      | partway errno isNamed done => exact hfree (by simpa using h)
      | interrupt => cases h
      | crash message => cases h

theorem ends_opening {abort : Abort} (h : abort? hazards kind path = some abort)
    (use : FileTree → Except Errno α) :
    Ends hazards (opening kind path use) tree (.error abort) tree := by
  have hnull (hpath : (if path.isNullFree then none else some Abort.nullInPath) = some abort) :
      Ends hazards (do checkPath path; return named path (use (← Job.tree))) tree
        (.error abort) tree := by
    split at hpath
    · cases hpath
    · next hnull =>
        cases hpath
        rw [checkPath_eq, if_neg hnull]
        exact (ends_throw _).bind_error _
  refine logs_hazards.returns.bind ?_
  rw [abort?] at h
  cases hmet : met? hazards kind path with
  | none =>
      rw [hmet] at h
      exact hnull h
  | some hindrance =>
      rw [hmet] at h
      cases hindrance with
      | system errno isNamed => cases h
      | partway errno isNamed done => exact hnull h
      | interrupt =>
          cases h
          exact ends_throw _
      | crash message =>
          cases h
          exact ends_throw _

theorem logs_access (h : abort? hazards kind path = none) (use : FileTree → Except Errno α) :
    Logs hazards (access kind path use) tree (attempt hazards kind path (use tree)) [] := by
  refine (logs_opening h use).bind ?_
  rw [attempt]
  cases opened hazards kind path (use tree) with
  | error fault => exact logs_pure _
  | ok answer =>
      refine logs_hazards.bind ?_
      cases strike? hazards kind path with
      | some struck => exact logs_pure _
      | none => exact logs_pure _

theorem ends_access {abort : Abort} (h : abort? hazards kind path = some abort)
    (use : FileTree → Except Errno α) :
    Ends hazards (access kind path use) tree (.error abort) tree :=
  (ends_opening h use).bind_error _

theorem keeps_access (kind : Access) (path : Path) (use : FileTree → Except Errno α) :
    Keeps (access kind path use) := by
  intro hazards tree
  cases habort : abort? hazards kind path with
  | none => exact (logs_access habort use).returns.idle
  | some abort => exact (ends_access habort use).mono fun _ _ _ hends => hends.2

theorem returns_access (hpass : Passable hazards kind path) (hnull : path.isNullFree)
    (use : FileTree → Except Errno α) :
    Returns hazards (access kind path use) tree (attempt hazards kind path (use tree)) tree :=
  (logs_access (abort?_eq_none hpass hnull) use).returns

@[simp] theorem named_ok (path : Path) (a : α) : named path (.ok a) = .ok a :=
  rfl

@[simp] theorem named_error (path : Path) (errno : Errno) :
    named path (.error errno : Except Errno α) = .error ⟨errno, some path.toString⟩ :=
  rfl

@[simp] theorem named_eq_ok_iff {answer : Except Errno α} {a : α} :
    named path answer = .ok a ↔ answer = .ok a := by
  cases answer <;> simp

theorem ok_of_opened {answer : Except Errno α} {a : α}
    (h : opened hazards kind path answer = .ok a) : answer = .ok a := by
  rw [opened] at h
  split at h
  · cases h
  · exact named_eq_ok_iff.mp h

theorem opened_ok (hazards : List Hazard) (kind : Access) (path : Path) (a : α) :
    opened hazards kind path (.ok a) = (opened hazards kind path (.ok ())).map fun _ => a := by
  rw [opened, opened]
  split <;> rfl

@[simp] theorem opened_eq_ok_iff :
    opened hazards kind path (.ok ()) = .ok () ↔ ¬Barred hazards kind path := by
  rw [opened, Barred]
  split
  · next errno isNamed hmet => simp [hmet]
  · next hmet => simpa using hmet

theorem opened_of_ok_attempt {answer : Except Errno α} {a : α}
    (h : attempt hazards kind path answer = .ok a) :
    opened hazards kind path answer = .ok a ∧ strike? hazards kind path = none := by
  rw [attempt] at h
  split at h
  · cases h
  · next hopened hstrike =>
      refine ⟨h, Option.eq_none_iff_forall_ne_some.mpr fun struck hstruck => ?_⟩
      exact hstrike a struck.1 struck.2 h hstruck

theorem ok_of_attempt {answer : Except Errno α} {a : α}
    (h : attempt hazards kind path answer = .ok a) : answer = .ok a :=
  ok_of_opened (opened_of_ok_attempt h).1

theorem attempt_of_clear (hclear : Clear hazards kind path) (answer : Except Errno α) :
    attempt hazards kind path answer = named path answer := by
  rw [attempt, hclear.strike?_eq_none, opened, met?_eq_none_iff.mpr hclear]
  cases named path answer <;> rfl

theorem attempt_eq_ok_iff (hpass : Passable hazards kind path) (answer : Except Errno α) (a : α) :
    attempt hazards kind path answer = .ok a ↔ Clear hazards kind path ∧ answer = .ok a := by
  constructor
  · intro h
    refine ⟨met?_eq_none_iff.mp (Option.eq_none_iff_forall_ne_some.mpr fun hindrance hmet => ?_),
      ok_of_attempt h⟩
    obtain ⟨hopened, hstrike⟩ := opened_of_ok_attempt h
    have hsystem := hpass hindrance hmet
    cases hindrance with
    | system errno isNamed => simp [opened, hmet] at hopened
    | partway errno isNamed done => simp [strike?, hmet] at hstrike
    | interrupt => cases hsystem
    | crash message => cases hsystem
  · rintro ⟨hclear, rfl⟩
    simp [attempt_of_clear hclear]

def written (struck : Option (SystemFault × Nat)) : Except SystemFault Unit :=
  match struck with
  | some (fault, _) => .error fault
  | none => .ok ()

section

variable {bytes : Bytes} (habort : abort? hazards .write path = none)

include habort

theorem returns_overwrite_error {fault : SystemFault}
    (h : opened hazards .write path
      (tree.overwrite path (arriving bytes (strike? hazards .write path))) = .error fault) :
    Returns hazards (overwrite path bytes) tree (.error fault) tree := by
  refine logs_hazards.returns.bind ((logs_opening habort _).returns.bind ?_)
  rw [h]
  exact returns_pure _

theorem returns_overwrite_ok
    (h : opened hazards .write path
      (tree.overwrite path (arriving bytes (strike? hazards .write path))) = .ok after) :
    Returns hazards (overwrite path bytes) tree (written (strike? hazards .write path)) after := by
  refine logs_hazards.returns.bind ((logs_opening habort _).returns.bind ?_)
  rw [h]
  have hset : Returns hazards (modify fun world => { world with tree := after }) tree () after :=
    ensures_setTree ⟨rfl, rfl⟩
  refine hset.bind ?_
  cases strike? hazards .write path with
  | some struck => exact returns_pure _
  | none => exact returns_pure _

end

theorem ends_overwrite {abort : Abort} (h : abort? hazards .write path = some abort)
    (bytes : Bytes) : Ends hazards (overwrite path bytes) tree (.error abort) tree :=
  logs_hazards.returns.bind ((ends_opening h _).bind_error _)

theorem ensures_overwrite {bytes : Bytes} :
    Ensures hazards (overwrite path bytes) tree fun result after _ =>
      result = .ok (.ok ()) → tree.overwrite path bytes = .ok after := by
  cases habort : abort? hazards .write path with
  | some abort =>
      refine (ends_overwrite habort bytes).mono ?_
      rintro _ _ _ ⟨rfl, -⟩ ⟨⟩
  | none =>
      cases hopened : opened hazards .write path
          (tree.overwrite path (arriving bytes (strike? hazards .write path))) with
      | error fault =>
          refine (returns_overwrite_error habort hopened).mono ?_
          rintro _ _ _ ⟨rfl, -⟩ ⟨⟩
      | ok after =>
          refine (returns_overwrite_ok habort hopened).mono ?_
          rintro _ _ _ ⟨rfl, rfl⟩ hwritten
          have hdone := ok_of_opened hopened
          cases hstruck : strike? hazards .write path with
          | some struck =>
              rw [hstruck] at hwritten
              cases hwritten
          | none =>
              rw [hstruck] at hdone
              exact hdone

section

variable {I : FileTree → Prop}

theorem upholds_access_bind {use : FileTree → Except Errno α} {f : Except SystemFault α → Job β}
    (hfault : ∀ fault, Upholds I (f (.error fault)))
    (hok : ∀ tree a, I tree → use tree = .ok a → Upholds I (f (.ok a))) :
    Upholds I (access kind path use >>= f) := by
  intro hazards tree hI
  cases habort : abort? hazards kind path with
  | some abort =>
      refine ((ends_access habort use).bind_error f).mono ?_
      rintro _ _ _ ⟨-, rfl⟩
      exact hI
  | none =>
      refine (logs_access habort use).returns.bind_ensures ?_
      cases hattempt : attempt hazards kind path (use tree) with
      | error fault => exact hfault fault hazards tree hI
      | ok a => exact hok tree a hI (ok_of_attempt hattempt) hazards tree hI

theorem upholds_overwrite {bytes : Bytes}
    (h : ∀ bytes tree after, I tree → tree.overwrite path bytes = .ok after → I after) :
    Upholds I (overwrite path bytes) := by
  intro hazards tree hI
  cases habort : abort? hazards .write path with
  | some abort =>
      refine (ends_overwrite habort bytes).mono ?_
      rintro _ _ _ ⟨-, rfl⟩
      exact hI
  | none =>
      cases hopened : opened hazards .write path
          (tree.overwrite path (arriving bytes (strike? hazards .write path))) with
      | error fault =>
          refine (returns_overwrite_error habort hopened).mono ?_
          rintro _ _ _ ⟨-, rfl⟩
          exact hI
      | ok after =>
          refine (returns_overwrite_ok habort hopened).mono ?_
          rintro _ _ _ ⟨-, rfl⟩
          exact h _ tree _ hI (ok_of_opened hopened)

end

end Job

end CommentSweep
