import CommentSweep.Proofs.Registry.Answer
import CommentSweep.Proofs.Text.Names
import Mathlib

/-!
Histories of a registry. Registrations and look-ups may come in any order: the calls so far decide
which entry a key has and which builder a look-up runs, the keys stay in their form, and no suffix
is lost.
-/

namespace CommentSweep.Registry

inductive Call where
  | register (suffix : String) (cleaner : Cleaner) (priority : Int)
  | registerLazy (suffix : String) (builder : Builder) (priority : Int)
  | lookup (suffix : Option String)

def step (r : Registry) : Call → Registry
  | .register suffix cleaner priority => r.register suffix cleaner priority
  | .registerLazy suffix builder priority => r.registerLazy suffix builder priority
  | .lookup suffix => (r.lookup suffix).registry

/-- The registry after some calls. The latest call stands first. -/
def after (r : Registry) (past : List Call) : Registry :=
  past.foldr (fun call r => r.step call) r

@[simp] theorem after_cons (r : Registry) (call : Call) (past : List Call) :
    r.after (call :: past) = (r.after past).step call :=
  rfl

@[simp] theorem after_append (r : Registry) (later past : List Call) :
    r.after (later ++ past) = (r.after past).after later :=
  List.foldr_append

theorem after_induction {motive : Registry → Prop} {r : Registry} (start : motive r)
    (step : ∀ r call, motive r → motive (r.step call)) (past : List Call) :
    motive (r.after past) := by
  induction past with
  | nil => exact start
  | cons call past ih => exact step _ call ih

structure IsKey (key : String) : Prop where
  dot : key.toList.head? = some '.'
  lower : Text.lowerString key = key

theorem isKey_keyOf (suffix : String) : IsKey (keyOf suffix) where
  dot := by
    rw [keyOf, Text.head?_lowerString]
    split
    · next hdot => exact beq_iff_eq.mp hdot
    · simp
  lower := Text.lowerString_lowerString _

theorem IsKey.keyOf_eq {key : String} (h : IsKey key) : keyOf key = key := by
  rw [keyOf, h.dot, if_pos (beq_self_eq_true _), h.lower]

structure Keyed (r : Registry) : Prop where
  eager : ∀ entry ∈ r.eager, IsKey entry.1
  pending : ∀ entry ∈ r.pending, IsKey entry.1

theorem keyed_empty : empty.Keyed :=
  ⟨nofun, nofun⟩

theorem isKey_of_mem_assign {table : List (String × α)} (h : ∀ entry ∈ table, IsKey entry.1)
    (suffix : String) (value : α) : ∀ entry ∈ assign (keyOf suffix) value table, IsKey entry.1 := by
  intro entry hentry
  rcases List.mem_cons.mp hentry with rfl | hrest
  · exact isKey_keyOf suffix
  · exact h entry (List.mem_filter.mp hrest).1

theorem Keyed.register {r : Registry} (h : r.Keyed) (suffix : String) (cleaner : Cleaner)
    (priority : Int) : (r.register suffix cleaner priority).Keyed := by
  constructor
  · rw [Registry.register]
    split
    · exact isKey_of_mem_assign h.eager suffix _
    · split
      · exact isKey_of_mem_assign h.eager suffix _
      · exact h.eager
  · intro entry hentry
    exact h.pending entry (List.mem_filter.mp hentry).1

theorem Keyed.step {r : Registry} (h : r.Keyed) (call : Call) : (r.step call).Keyed := by
  cases call with
  | register suffix cleaner priority => exact h.register suffix cleaner priority
  | registerLazy suffix builder priority =>
      exact ⟨h.eager, isKey_of_mem_assign h.pending suffix _⟩
  | lookup suffix =>
      have hserves := r.serves_lookup suffix
      rw [Registry.step]
      generalize r.lookup suffix = outcome at hserves ⊢
      cases hserves with
      | found => exact h
      | unknown => exact h
      | failed => exact ⟨h.eager, h.pending⟩
      | built =>
          have hnoted : { r with history := lookupKey suffix :: r.history }.Keyed :=
            ⟨h.eager, h.pending⟩
          exact hnoted.register _ _ _

theorem Keyed.after {r : Registry} (h : r.Keyed) (past : List Call) : (r.after past).Keyed :=
  after_induction h (fun _ call hr => hr.step call) past

theorem keyed_standard : standard.Keyed := by
  rw [standard_eq]
  apply List.foldlRecOn
  · exact keyed_empty
  · intro r hr entry _
    rw [bind]
    split
    · exact hr.step (.register entry.1 _ 0)
    · exact hr.step (.registerLazy entry.1 _ 0)

theorem lookup_eq_none_iff_not_mem {table : List (String × α)} {key : String} :
    table.lookup key = none ↔ key ∉ table.map (·.1) := by
  rw [List.lookup_eq_none_iff, List.mem_map]
  constructor
  · rintro h ⟨entry, hentry, rfl⟩
    simpa using h entry hentry
  · intro h entry hentry
    rw [bne_iff_ne]
    rintro rfl
    exact h ⟨entry, hentry, rfl⟩

@[simp] theorem mem_suffixes_iff {r : Registry} {key : String} :
    key ∈ r.suffixes ↔ ¬(r.eager.lookup key = none ∧ r.pending.lookup key = none) := by
  rw [suffixes, Text.mem_nameSet, List.mem_append, lookup_eq_none_iff_not_mem,
    lookup_eq_none_iff_not_mem, not_and_or, not_not, not_not]

theorem suffixes_eq_nameSet {r : Registry} {names : List String}
    (h : ∀ key, key ∈ r.suffixes ↔ key ∈ names) : r.suffixes = Text.nameSet names := by
  apply Text.nameSet_congr
  intro key
  simp [← h, suffixes]

theorem suffixes_lookup {r : Registry} (h : r.Keyed) (suffix : Option String) :
    (r.lookup suffix).registry.suffixes = r.suffixes := by
  have hserves := r.serves_lookup suffix
  generalize r.lookup suffix = outcome at hserves ⊢
  cases hserves with
  | found => rfl
  | unknown => rfl
  | failed => rfl
  | built heager hpending hbuild =>
      have hkey := (h.pending _ (mem_of_lookup_eq_some hpending)).keyOf_eq
      apply suffixes_eq_nameSet
      intro key
      have hbefore : key ∈ r.eager.map (·.1) ++ r.pending.map (·.1) ↔ key ∈ r.suffixes :=
        Text.mem_nameSet.symm
      rw [hbefore, mem_suffixes_iff, mem_suffixes_iff]
      by_cases hsame : key = lookupKey suffix
      · simp [hsame, hkey, hpending]
      · simp [hsame, hkey]

theorem suffixes_subset_step {r : Registry} (h : r.Keyed) (call : Call) :
    r.suffixes ⊆ (r.step call).suffixes := by
  intro key hkey
  cases call with
  | lookup suffix => rwa [step, suffixes_lookup h]
  | register suffix cleaner priority =>
      rw [mem_suffixes_iff] at hkey ⊢
      rw [step, lookup_eager_register, lookup_pending_register]
      by_cases hsame : key = keyOf suffix
      · simp [hsame]
      · simpa [hsame] using hkey
  | registerLazy suffix builder priority =>
      rw [mem_suffixes_iff] at hkey ⊢
      rw [step, eager_registerLazy, lookup_pending_registerLazy]
      by_cases hsame : key = keyOf suffix
      · simp [hsame]
      · simpa [hsame] using hkey

/-- The entry is the last one of the highest priority. The latest entry stands first. -/
def LastMaximal (made : List (Ranked α)) (entry : Ranked α) : Prop :=
  ∃ newer older, made = newer ++ entry :: older ∧
    (∀ other ∈ newer, other.priority < entry.priority) ∧
    ∀ other ∈ older, other.priority ≤ entry.priority

theorem LastMaximal.priority_le {made : List (Ranked α)} {entry : Ranked α}
    (h : LastMaximal made entry) : ∀ other ∈ made, other.priority ≤ entry.priority := by
  obtain ⟨newer, older, rfl, hnewer, holder⟩ := h
  intro other hother
  rcases List.mem_append.mp hother with hmem | hmem
  · exact le_of_lt (hnewer other hmem)
  · rcases List.mem_cons.mp hmem with rfl | hmem
    · exact le_refl _
    · exact holder other hmem

theorem lastMaximal_cons_iff {made : List (Ranked α)} {first entry : Ranked α} :
    LastMaximal (first :: made) entry ↔
      (entry = first ∧ ∀ other ∈ made, other.priority ≤ first.priority) ∨
        LastMaximal made entry ∧ first.priority < entry.priority := by
  constructor
  · rintro ⟨newer, older, hmade, hnewer, holder⟩
    cases newer with
    | nil =>
        cases hmade
        exact Or.inl ⟨rfl, holder⟩
    | cons latest newer =>
        cases hmade
        obtain ⟨hlatest, hnewer⟩ := List.forall_mem_cons.mp hnewer
        exact Or.inr ⟨⟨newer, older, rfl, hnewer, holder⟩, hlatest⟩
  · rintro (⟨rfl, holder⟩ | ⟨⟨newer, older, rfl, hnewer, holder⟩, hfirst⟩)
    · exact ⟨[], made, rfl, nofun, holder⟩
    · exact ⟨first :: newer, older, rfl, List.forall_mem_cons.mpr ⟨hfirst, hnewer⟩, holder⟩

def lastMaximal? (made : List (Ranked α)) : Option (Ranked α) :=
  made.foldr (fun new old? => some (prevail old? new)) none

theorem lastMaximal?_eq_some_iff {made : List (Ranked α)} {entry : Ranked α} :
    lastMaximal? made = some entry ↔ LastMaximal made entry := by
  induction made generalizing entry with
  | nil =>
      constructor
      · exact nofun
      · rintro ⟨newer, older, hmade, -⟩
        simp at hmade
  | cons first made ih =>
      rw [lastMaximal_cons_iff, ← ih]
      change some (prevail (lastMaximal? made) first) = some entry ↔ _
      cases hold : lastMaximal? made with
      | none =>
          have hempty : made = [] := by
            cases made with
            | nil => rfl
            | cons => cases hold
          simp [prevail, hempty, eq_comm]
      | some old =>
          have hbound := (ih.mp hold).priority_le
          have hmem : old ∈ made := by
            obtain ⟨newer, older, rfl, -⟩ := ih.mp hold
            simp
          rw [prevail]
          by_cases hrank : old.priority ≤ first.priority
          · have hall : ∀ other ∈ made, other.priority ≤ first.priority :=
              fun other hother => (hbound other hother).trans hrank
            rw [if_pos hrank]
            grind
          · rw [if_neg hrank]
            grind

def latestBuilder? (key : String) : List Call → Option (Ranked Builder)
  | [] => none
  | .registerLazy suffix builder priority :: past =>
      if key = keyOf suffix then some ⟨builder, priority⟩ else latestBuilder? key past
  | .register _ _ _ :: past => latestBuilder? key past
  | .lookup _ :: past => latestBuilder? key past

def Lookup.built? (outcome : Lookup) : Option Cleaner :=
  match outcome.ran, outcome.found with
  | some _, .ok found => found
  | _, _ => none

/-- The entry that a call registers for a key when it is made after the calls `past`. A look-up that
runs a builder with success registers what was built, with the priority of the builder. -/
def registration? (key : String) (past : List Call) : Call → Option (Ranked Cleaner)
  | .register suffix cleaner priority =>
      if key = keyOf suffix then some ⟨cleaner, priority⟩ else none
  | .registerLazy _ _ _ => none
  | .lookup suffix =>
      if key = lookupKey suffix then do
        let cleaner ← ((empty.after past).lookup suffix).built?
        let builder ← latestBuilder? key past
        return ⟨cleaner, builder.priority⟩
      else none

def registrations (key : String) : List Call → List (Ranked Cleaner)
  | [] => []
  | call :: past => (registration? key past call).toList ++ registrations key past

theorem pending_after {past : List Call} {key : String}
    (h : (empty.after past).eager.lookup key = none) :
    (empty.after past).pending.lookup key = latestBuilder? key past := by
  induction past with
  | nil => rfl
  | cons call past ih =>
      rw [after_cons] at h ⊢
      cases call with
      | register suffix cleaner priority =>
          rw [step, lookup_eager_register] at h
          have hne : key ≠ keyOf suffix := by
            rintro rfl
            simp at h
          rw [if_neg hne] at h
          simp [step, hne, ih h, latestBuilder?]
      | registerLazy suffix builder priority =>
          rw [step, eager_registerLazy] at h
          simp [step, latestBuilder?, ih h]
      | lookup suffix =>
          have hkeyed : (empty.after past).Keyed := keyed_empty.after past
          have hserves := (empty.after past).serves_lookup suffix
          rw [step] at h ⊢
          rw [latestBuilder?]
          generalize (empty.after past).lookup suffix = outcome at hserves h ⊢
          cases hserves with
          | found => exact ih h
          | unknown => exact ih h
          | failed => exact ih h
          | built heager hpending hbuild =>
              have hkey := (hkeyed.pending _ (mem_of_lookup_eq_some hpending)).keyOf_eq
              rw [lookup_eager_register, hkey] at h
              have hne : key ≠ lookupKey suffix := by
                rintro rfl
                simp at h
              rw [if_neg hne] at h
              simp [hkey, hne, ih h]

theorem eager_after (past : List Call) (key : String) :
    (empty.after past).eager.lookup key = lastMaximal? (registrations key past) := by
  induction past with
  | nil => rfl
  | cons call past ih =>
      have hnext (entry : Ranked Cleaner) :
          lastMaximal? (entry :: registrations key past) =
            some (prevail ((empty.after past).eager.lookup key) entry) := by
        rw [ih]
        rfl
      rw [after_cons, registrations]
      cases call with
      | register suffix cleaner priority =>
          rw [step, lookup_eager_register, registration?]
          split
          · exact (hnext _).symm
          · exact ih
      | registerLazy suffix builder priority => exact ih
      | lookup suffix =>
          have hkeyed : (empty.after past).Keyed := keyed_empty.after past
          have hserves := (empty.after past).serves_lookup suffix
          have hlatest := @pending_after past key
          rw [step, registration?]
          generalize (empty.after past).lookup suffix = outcome at hserves ⊢
          cases hserves with
          | found => simpa [Lookup.built?] using ih
          | unknown => simpa [Lookup.built?] using ih
          | failed => simpa [Lookup.built?] using ih
          | built heager hpending hbuild =>
              have hkey := (hkeyed.pending _ (mem_of_lookup_eq_some hpending)).keyOf_eq
              rw [lookup_eager_register, hkey]
              split
              · next hsame =>
                  subst hsame
                  rw [← hlatest heager, hpending]
                  exact (hnext _).symm
              · exact ih

theorem ran_lookup_eq_some_iff {r : Registry} {suffix : Option String} {builder : Builder} :
    (r.lookup suffix).ran = some builder ↔ r.eager.lookup (lookupKey suffix) = none ∧
      ∃ priority, r.pending.lookup (lookupKey suffix) = some ⟨builder, priority⟩ := by
  have hserves := r.serves_lookup suffix
  generalize r.lookup suffix = outcome at hserves ⊢
  cases hserves with
  | found heager => simp [heager]
  | unknown heager hpending => simp [heager, hpending]
  | @failed ranked error heager hpending =>
      obtain ⟨item, priority⟩ := ranked
      simp [heager, hpending]
  | @built ranked cleaner heager hpending =>
      obtain ⟨item, priority⟩ := ranked
      simp [heager, hpending]

theorem ran_lookup_of_eager {r : Registry} {suffix : Option String} {entry : Ranked Cleaner}
    (h : r.eager.lookup (lookupKey suffix) = some entry) : (r.lookup suffix).ran = none := by
  rw [Option.eq_none_iff_forall_ne_some]
  intro builder hran
  rw [ran_lookup_eq_some_iff, h] at hran
  exact absurd hran.1 nofun

theorem le_prevail (old new : Ranked α) : old.priority ≤ (prevail (some old) new).priority := by
  rw [prevail]
  split
  · next hrank => exact hrank
  · exact le_refl _

def Holds (r : Registry) (key : String) (priority : Int) : Prop :=
  ∃ entry, r.eager.lookup key = some entry ∧ priority ≤ entry.priority

theorem Holds.register {r : Registry} {key : String} {priority : Int} (h : r.Holds key priority)
    (suffix : String) (cleaner : Cleaner) (rank : Int) :
    (r.register suffix cleaner rank).Holds key priority := by
  obtain ⟨entry, heager, hrank⟩ := h
  rw [Holds, lookup_eager_register, heager]
  split
  · exact ⟨_, rfl, hrank.trans (le_prevail entry _)⟩
  · exact ⟨entry, rfl, hrank⟩

theorem Holds.step {r : Registry} {key : String} {priority : Int} (h : r.Holds key priority)
    (call : Call) : (r.step call).Holds key priority := by
  cases call with
  | register suffix cleaner rank => exact h.register suffix cleaner rank
  | registerLazy suffix builder rank => exact h
  | lookup suffix =>
      have hserves := r.serves_lookup suffix
      rw [Registry.step]
      generalize r.lookup suffix = outcome at hserves ⊢
      cases hserves with
      | found => exact h
      | unknown => exact h
      | failed => exact h
      | built =>
          have hnoted : { r with history := lookupKey suffix :: r.history }.Holds key priority := h
          exact hnoted.register _ _ _

theorem Holds.after {r : Registry} {key : String} {priority : Int} (h : r.Holds key priority)
    (past : List Call) : (r.after past).Holds key priority :=
  after_induction (motive := fun r => r.Holds key priority) h (fun _ call hr => hr.step call) past

/-- The entry of a key is the last one of the highest priority that was registered for it. A look-up
runs a builder only if its key has no entry, and then the builder that was registered last. A key
with an entry keeps one, of no lower priority, and no builder runs for it again. -/
theorem entries_follow_history (past : List Call) (key : String) :
    (∀ entry, (empty.after past).eager.lookup key = some entry ↔
      LastMaximal (registrations key past) entry) ∧
    (∀ suffix builder, lookupKey suffix = key →
      (((empty.after past).lookup suffix).ran = some builder ↔
        (empty.after past).eager.lookup key = none ∧
          ∃ priority, latestBuilder? key past = some ⟨builder, priority⟩)) ∧
    ∀ entry later, (empty.after past).eager.lookup key = some entry →
      (∃ entry', (empty.after (later ++ past)).eager.lookup key = some entry' ∧
        entry.priority ≤ entry'.priority) ∧
      ∀ suffix, lookupKey suffix = key →
        ((empty.after (later ++ past)).lookup suffix).ran = none := by
  refine ⟨?_, ?_, ?_⟩
  · intro entry
    rw [eager_after, lastMaximal?_eq_some_iff]
  · rintro suffix builder rfl
    rw [ran_lookup_eq_some_iff]
    refine and_congr_right fun heager => ?_
    rw [pending_after heager]
  · intro entry later heager
    have hholds : (empty.after past).Holds key entry.priority := ⟨entry, heager, le_refl _⟩
    have hlater : (empty.after (later ++ past)).Holds key entry.priority := by
      simpa using hholds.after later
    refine ⟨hlater, ?_⟩
    rintro suffix rfl
    obtain ⟨entry', heager', -⟩ := hlater
    exact ran_lookup_of_eager heager'

theorem lookup_of_no_dot {r : Registry} (h : r.Keyed) {suffix : Option String}
    (hdot : (suffix.getD "").toList.head? ≠ some '.') : r.lookup suffix = ⟨r, none, .ok none⟩ := by
  have hkey : ¬IsKey (lookupKey suffix) := fun hkey =>
    hdot ((Text.head?_lowerString _).mp hkey.dot)
  have hserves := r.serves_lookup suffix
  generalize r.lookup suffix = outcome at hserves ⊢
  cases hserves with
  | unknown => rfl
  | found heager => exact absurd (h.eager _ (mem_of_lookup_eq_some heager)) hkey
  | failed heager hpending => exact absurd (h.pending _ (mem_of_lookup_eq_some hpending)) hkey
  | built heager hpending => exact absurd (h.pending _ (mem_of_lookup_eq_some hpending)) hkey

theorem lookup_of_error {r : Registry} {suffix : Option String} {error : BuildError}
    (h : (r.lookup suffix).found = .error error) :
    (r.lookup suffix).registry = { r with history := lookupKey suffix :: r.history } ∧
      ∃ builder, (r.lookup suffix).ran = some builder := by
  have hserves := r.serves_lookup suffix
  generalize r.lookup suffix = outcome at hserves h ⊢
  cases hserves with
  | found => cases h
  | unknown => cases h
  | failed => exact ⟨rfl, _, rfl⟩
  | built => cases h

/-- However a registry came about, its keys start with a dot and are in lower case, so nothing is
found and nothing is run for a suffix without a dot. Look-ups serve the suffixes that they served
before and no call loses one. A builder that fails leaves both tables as they were, and is run
again. -/
theorem suffixes_persist {start : Registry} (hstart : start = empty ∨ start = standard)
    (past : List Call) :
    let r := start.after past
    (∀ key ∈ r.eager.map (·.1) ++ r.pending.map (·.1),
      key.toList.head? = some '.' ∧ Text.lowerString key = key) ∧
    (∀ suffix : Option String, (suffix.getD "").toList.head? ≠ some '.' →
      r.lookup suffix = ⟨r, none, .ok none⟩) ∧
    (∀ suffix, (r.lookup suffix).registry.suffixes = r.suffixes) ∧
    (∀ call, r.suffixes ⊆ (r.step call).suffixes) ∧
    ∀ suffix error, (r.lookup suffix).found = .error error →
      (r.lookup suffix).registry = { r with history := lookupKey suffix :: r.history } ∧
      ∃ builder, (r.lookup suffix).ran = some builder ∧
        ∀ again, lookupKey again = lookupKey suffix →
          ((r.lookup suffix).registry.lookup again).ran = some builder := by
  intro r
  have hkeyed : r.Keyed := by
    rcases hstart with rfl | rfl
    · exact keyed_empty.after past
    · exact keyed_standard.after past
  refine ⟨?_, fun suffix hdot => lookup_of_no_dot hkeyed hdot, suffixes_lookup hkeyed,
    suffixes_subset_step hkeyed, ?_⟩
  · intro key hkey
    have hform : IsKey key := by
      simp only [List.mem_append, List.mem_map] at hkey
      rcases hkey with ⟨entry, hentry, rfl⟩ | ⟨entry, hentry, rfl⟩
      · exact hkeyed.eager entry hentry
      · exact hkeyed.pending entry hentry
    exact ⟨hform.dot, hform.lower⟩
  · intro suffix error hfound
    obtain ⟨hregistry, builder, hran⟩ := lookup_of_error hfound
    refine ⟨hregistry, builder, hran, ?_⟩
    intro again hagain
    rw [ran_lookup_eq_some_iff] at hran
    rwa [hregistry, ran_lookup_eq_some_iff, hagain]

/-- A builder that fails once and makes a cleaner when it is run again. -/
def reluctant : Builder :=
  ⟨fun history => if history.contains ".x" then .ok (cleanerOf .hash) else .error .failed, none⟩

theorem suffixes_persist_failing_builder :
    let r := empty.after [.registerLazy "X" reluctant 0, .register "css" (cleanerOf .block) 0]
    let next := (r.lookup (some ".x")).registry
    (r.lookup (some ".x")).found = .error .failed ∧ next.eager = r.eager ∧
      next.pending = r.pending ∧
      (∃ builder, (r.lookup (some ".x")).ran = some builder ∧
        (next.lookup (some ".X")).ran = some builder) ∧
      (next.lookup (some ".X")).found = .ok (some (cleanerOf .hash)) ∧
      r.lookup (some "css") = ⟨r, none, .ok none⟩ := by
  intro r next
  obtain ⟨-, hdot, -, -, hfails⟩ := suffixes_persist (.inl rfl)
    [.registerLazy "X" reluctant 0, .register "css" (cleanerOf .block) 0]
  have hkey : lookupKey (some ".x") = ".x" ∧ lookupKey (some ".X") = ".x" := by decide +kernel
  have hkeys : keyOf "X" = ".x" ∧ keyOf "css" = ".css" := by decide +kernel
  have hanswer (history : List String) :
      r.answer history ".x" = (reluctant.build history).map some := by
    simp [r, answer, after, step, hkeys, empty]
  have hfound : (r.lookup (some ".x")).found = .error .failed := by
    rw [found_lookup, hkey.1, hanswer]
    rfl
  obtain ⟨hregistry, builder, hran, hagain⟩ := hfails (some ".x") .failed hfound
  have hnext : next = { r with history := ".x" :: r.history } := hkey.1 ▸ hregistry
  have hlater : (next.lookup (some ".X")).found = .ok (some (cleanerOf .hash)) := by
    rw [found_lookup, hkey.2, hnext]
    exact hanswer [".x"]
  exact ⟨hfound, by rw [hnext], by rw [hnext],
    ⟨builder, hran, hagain (some ".X") (hkey.2.trans hkey.1.symm)⟩, hlater,
    hdot (some "css") (by decide)⟩

theorem IsStandard.after_lookups {r : Registry} (h : r.IsStandard) (looked : List (Option String)) :
    (r.after (looked.map .lookup)).IsStandard := by
  induction looked with
  | nil => exact h
  | cons suffix looked ih => exact ih.lookup suffix

theorem IsStandard.suffixes_eq {r : Registry} (h : r.IsStandard) :
    r.suffixes = Text.sortNames (Strategy.byExtension.map (·.1)) := by
  have hnodup : (Strategy.byExtension.map (·.1)).Nodup := by decide +kernel
  have hnames : Text.nameSet (Strategy.byExtension.map (·.1)) =
      Text.sortNames (Strategy.byExtension.map (·.1)) :=
    congrArg Text.sortNames (Text.eraseDups_eq_self hnodup)
  rw [← hnames]
  apply suffixes_eq_nameSet
  intro key
  rw [mem_suffixes_iff, ← answer_eq_none_iff, h.answer_eq [], Except.ok.injEq,
    Option.map_eq_none_iff, lookup_eq_none_iff_not_mem, not_not]

/-- Whatever was looked up before, the standard registry answers with the strategy of an extension,
serves the extensions that have one, and transforms a text as it would have at first. -/
theorem standard_unmoved_by_lookups (looked : List (Option String)) :
    let r : Registry := standard.after (looked.map .lookup)
    (∀ extension, (r.lookup extension).found = .ok none ↔
      Strategy.forExtension? extension = none) ∧
    (∀ extension strategy, Strategy.forExtension? extension = some strategy →
      ∃ cleaner, (r.lookup extension).found = .ok (some cleaner) ∧
        ∀ source, cleaner.strip source = strategy.strip source) ∧
    r.suffixes = Text.sortNames (Strategy.byExtension.map (·.1)) ∧
    ∀ extension raw, (r.transform extension raw).1 = (standard.transform extension raw).1 ∧
      (r.transform extension raw).2 = standard.after ((extension :: looked).map .lookup) := by
  intro r
  have hstandard : r.IsStandard := isStandard_standard.after_lookups looked
  refine ⟨?_, ?_, hstandard.suffixes_eq, ?_⟩
  · intro extension
    rw [hstandard.found_lookup, Except.ok.injEq, Option.map_eq_none_iff]
  · intro extension strategy hstrategy
    refine ⟨cleanerOf strategy, ?_, fun source => rfl⟩
    rw [hstandard.found_lookup, hstrategy, Option.map_some]
  · intro extension raw
    refine ⟨?_, rfl⟩
    rw [hstandard.transform_fst, isStandard_standard.transform_fst]

end CommentSweep.Registry
