import CommentSweep.Proofs.Text.Lower
import CommentSweep.Registry

/-!
What a registry answers. The standard registry answers with the strategy of the extension, and
though a look-up can put a cleaner that was built in place of its builder, it goes on doing so.
-/

namespace CommentSweep.Registry

@[simp] theorem lookup_cons_ne {k name : String} (h : k ≠ name) (value : α)
    (table : List (String × α)) : ((name, value) :: table).lookup k = table.lookup k := by
  rw [List.lookup_cons, beq_eq_false_iff_ne.mpr h]

@[simp] theorem lookup_filter_ne (key k : String) (table : List (String × α)) :
    (table.filter (·.1 != key)).lookup k = if k = key then none else table.lookup k := by
  induction table with
  | nil => simp
  | cons entry table ih =>
      obtain ⟨name, value⟩ := entry
      by_cases hname : name = key
      · subst hname
        rw [List.filter_cons_of_neg (by simp), ih]
        by_cases hk : k = name <;> simp [hk]
      · rw [List.filter_cons_of_pos (by simpa using hname)]
        by_cases hk : k = name
        · subst hk
          simp [hname]
        · simp [hk, ih]

@[simp] theorem lookup_assign (key k : String) (value : α) (table : List (String × α)) :
    (assign key value table).lookup k = if k = key then some value else table.lookup k := by
  rw [assign]
  by_cases hk : k = key <;> simp [hk]

theorem mem_of_lookup_eq_some {table : List (String × α)} {key : String} {value : α}
    (h : table.lookup key = some value) : (key, value) ∈ table := by
  obtain ⟨front, back, rfl, -⟩ := List.lookup_eq_some_iff.mp h
  simp

/-- The entry that a key keeps when it is given a new one. -/
def prevail (old? : Option (Ranked α)) (new : Ranked α) : Ranked α :=
  match old? with
  | none => new
  | some old => if old.priority ≤ new.priority then new else old

@[simp] theorem lookup_eager_register (r : Registry) (suffix : String) (cleaner : Cleaner)
    (priority : Int) (k : String) :
    (r.register suffix cleaner priority).eager.lookup k =
      if k = keyOf suffix then some (prevail (r.eager.lookup k) ⟨cleaner, priority⟩)
      else r.eager.lookup k := by
  rw [register]
  by_cases hk : k = keyOf suffix
  · subst hk
    cases hold : r.eager.lookup (keyOf suffix) with
    | none => simp [prevail]
    | some old => by_cases hrank : old.priority ≤ priority <;> simp [hrank, hold, prevail]
  · simp [hk, apply_ite (List.lookup k)]

@[simp] theorem lookup_pending_register (r : Registry) (suffix : String) (cleaner : Cleaner)
    (priority : Int) (k : String) :
    (r.register suffix cleaner priority).pending.lookup k =
      if k = keyOf suffix then none else r.pending.lookup k :=
  lookup_filter_ne _ _ _

@[simp] theorem eager_registerLazy (r : Registry) (suffix : String) (builder : Builder)
    (priority : Int) : (r.registerLazy suffix builder priority).eager = r.eager :=
  rfl

@[simp] theorem lookup_pending_registerLazy (r : Registry) (suffix : String) (builder : Builder)
    (priority : Int) (k : String) :
    (r.registerLazy suffix builder priority).pending.lookup k =
      if k = keyOf suffix then some ⟨builder, priority⟩ else r.pending.lookup k :=
  lookup_assign _ _ _ _

def lookupKey (suffix : Option String) : String :=
  Text.lowerString (suffix.getD "")

inductive Serves (r : Registry) (key : String) : Lookup → Prop
  | found {entry : Ranked Cleaner} (heager : r.eager.lookup key = some entry) :
      Serves r key ⟨r, none, .ok (some entry.item)⟩
  | unknown (heager : r.eager.lookup key = none) (hpending : r.pending.lookup key = none) :
      Serves r key ⟨r, none, .ok none⟩
  | failed {ranked : Ranked Builder} {error : BuildError} (heager : r.eager.lookup key = none)
      (hpending : r.pending.lookup key = some ranked)
      (hbuild : ranked.item.build r.history = .error error) :
      Serves r key ⟨{ r with history := key :: r.history }, some ranked.item, .error error⟩
  | built {ranked : Ranked Builder} {cleaner : Cleaner} (heager : r.eager.lookup key = none)
      (hpending : r.pending.lookup key = some ranked)
      (hbuild : ranked.item.build r.history = .ok cleaner) :
      Serves r key
        ⟨{ r with history := key :: r.history }.register key cleaner ranked.priority,
          some ranked.item, .ok (some cleaner)⟩

theorem serves_lookup (r : Registry) (suffix : Option String) :
    Serves r (lookupKey suffix) (r.lookup suffix) := by
  rw [lookup, ← lookupKey]
  cases heager : r.eager.lookup (lookupKey suffix) with
  | some entry => exact .found heager
  | none =>
      cases hpending : r.pending.lookup (lookupKey suffix) with
      | none => exact .unknown heager hpending
      | some ranked =>
          cases hbuild : ranked.item.build r.history with
          | error error => simpa only [hbuild] using Serves.failed heager hpending hbuild
          | ok cleaner => simpa only [hbuild] using Serves.built heager hpending hbuild

/-- What a look-up of a key finds when the builders of these keys have run. -/
def answer (r : Registry) (history : List String) (key : String) :
    Except BuildError (Option Cleaner) :=
  match r.eager.lookup key, r.pending.lookup key with
  | some entry, _ => .ok (some entry.item)
  | none, some ranked => (ranked.item.build history).map some
  | none, none => .ok none

theorem found_lookup (r : Registry) (suffix : Option String) :
    (r.lookup suffix).found = r.answer r.history (lookupKey suffix) := by
  have hserves := r.serves_lookup suffix
  rw [answer]
  generalize r.lookup suffix = outcome at hserves ⊢
  cases hserves with
  | found heager => rw [heager]
  | unknown heager hpending => rw [heager, hpending]
  | failed heager hpending hbuild => simp [heager, hpending, hbuild, Except.map]
  | built heager hpending hbuild => simp [heager, hpending, hbuild, Except.map]

theorem answer_eq_none_iff {r : Registry} {history : List String} {key : String} :
    r.answer history key = .ok none ↔
      r.eager.lookup key = none ∧ r.pending.lookup key = none := by
  rw [answer]
  cases r.eager.lookup key with
  | some entry => simp
  | none =>
      cases r.pending.lookup key with
      | none => simp
      | some ranked => cases hbuild : ranked.item.build history <;> simp [hbuild, Except.map]

/-- Every builder waits under a key as registration makes them, so that its cleaner is found there.
-/
def Canonical (r : Registry) : Prop :=
  ∀ entry ∈ r.pending, keyOf entry.1 = entry.1

theorem canonical_register {r : Registry} (h : r.Canonical) (suffix : String)
    (cleaner : Cleaner) (priority : Int) : (r.register suffix cleaner priority).Canonical := by
  intro entry hentry
  exact h entry (List.mem_filter.mp hentry).1

def cleanerOf (strategy : Strategy) : Cleaner :=
  ⟨strategy.name, strategy.strip⟩

def bind (r : Registry) (entry : String × Strategy) : Registry :=
  match entry.2 with
  | .script => r.register entry.1 (cleanerOf entry.2) 0
  | _ => r.registerLazy entry.1 ⟨fun _ => .ok (cleanerOf entry.2), none⟩ 0

theorem standard_eq : standard = Strategy.byExtension.foldl bind empty := by
  unfold standard
  apply congrArg (fun step => Strategy.byExtension.foldl step empty)
  funext r entry
  obtain ⟨suffix, strategy⟩ := entry
  cases strategy <;> rfl

/-- The registry answers by a table of strategies, whatever has been built by now. -/
structure Binds (r : Registry) (table : List (String × Strategy)) : Prop where
  canonical : r.Canonical
  answer_eq : ∀ history key, r.answer history key = .ok ((table.lookup key).map cleanerOf)

theorem binds_empty : Binds empty [] :=
  ⟨nofun, fun _ _ => rfl⟩

@[simp] theorem lookup_snoc (table : List (String × α)) (name : String) (value : α) (k : String) :
    (table ++ [(name, value)]).lookup k =
      (table.lookup k).or (if k = name then some value else none) := by
  rw [List.lookup_append]
  by_cases hk : k = name <;> simp [hk]

theorem Binds.eager_eq_none {r : Registry} {table : List (String × Strategy)} (h : r.Binds table)
    {key : String} (hkey : table.lookup key = none) : r.eager.lookup key = none := by
  have hanswer := h.answer_eq [] key
  rw [hkey] at hanswer
  exact (answer_eq_none_iff.mp hanswer).1

theorem Binds.register {r : Registry} {table : List (String × Strategy)} (h : r.Binds table)
    {name : String} (hkey : keyOf name = name) (hfresh : table.lookup name = none)
    (strategy : Strategy) :
    (r.register name (cleanerOf strategy) 0).Binds (table ++ [(name, strategy)]) where
  canonical := canonical_register h.canonical name _ 0
  answer_eq := by
    intro history k
    by_cases hk : k = name
    · simp [answer, hk, hkey, hfresh, h.eager_eq_none hfresh, prevail]
    · simpa [answer, hk, hkey] using h.answer_eq history k

theorem Binds.registerLazy {r : Registry} {table : List (String × Strategy)} (h : r.Binds table)
    {name : String} (hkey : keyOf name = name) (hfresh : table.lookup name = none)
    (strategy : Strategy) :
    (r.registerLazy name ⟨fun _ => .ok (cleanerOf strategy), none⟩ 0).Binds
      (table ++ [(name, strategy)]) where
  canonical := by
    intro entry hentry
    rw [Registry.registerLazy, hkey, assign] at hentry
    rcases List.mem_cons.mp hentry with rfl | hrest
    · exact hkey
    · exact h.canonical entry (List.mem_filter.mp hrest).1
  answer_eq := by
    intro history k
    by_cases hk : k = name
    · simp [answer, hk, hkey, hfresh, h.eager_eq_none hfresh, Except.map]
    · simpa [answer, hk, hkey] using h.answer_eq history k

theorem Binds.bind {r : Registry} {table : List (String × Strategy)} (h : r.Binds table)
    {entry : String × Strategy} (hkey : keyOf entry.1 = entry.1)
    (hfresh : table.lookup entry.1 = none) : (r.bind entry).Binds (table ++ [entry]) := by
  obtain ⟨name, strategy⟩ := entry
  cases strategy with
  | script => exact h.register hkey hfresh .script
  | block => exact h.registerLazy hkey hfresh .block
  | markup => exact h.registerLazy hkey hfresh .markup
  | hash => exact h.registerLazy hkey hfresh .hash
  | cStyle => exact h.registerLazy hkey hfresh .cStyle
  | php => exact h.registerLazy hkey hfresh .php
  | passthrough => exact h.registerLazy hkey hfresh .passthrough

theorem Binds.foldl {r : Registry} {table entries : List (String × Strategy)} (h : r.Binds table)
    (hkeys : ∀ entry ∈ entries, keyOf entry.1 = entry.1)
    (hnodup : ((table ++ entries).map (·.1)).Nodup) :
    (entries.foldl Registry.bind r).Binds (table ++ entries) := by
  induction entries generalizing r table with
  | nil => simpa using h
  | cons entry entries ih =>
      obtain ⟨hkey, hkeys⟩ := List.forall_mem_cons.mp hkeys
      have hfresh : table.lookup entry.1 = none := by
        rw [List.lookup_eq_none_iff]
        intro other hother
        rw [List.map_append, List.nodup_append] at hnodup
        have hne := hnodup.2.2 other.1 (List.mem_map_of_mem hother) entry.1 (by simp)
        simpa using Ne.symm hne
      have hsplit : table ++ entry :: entries = (table ++ [entry]) ++ entries := by simp
      rw [hsplit] at hnodup ⊢
      exact ih (h.bind hkey hfresh) hkeys hnodup

theorem keyOf_eq_self {suffix : String} (hdot : suffix.toList.head? = some '.')
    (hlower : suffix.toList.all Text.isLowerAscii = true) : keyOf suffix = suffix := by
  rw [keyOf, hdot, if_pos (beq_self_eq_true _), Text.lowerString_eq_self hlower]

theorem standard_binds : standard.Binds Strategy.byExtension := by
  have hkeys : ∀ entry ∈ Strategy.byExtension, entry.1.toList.head? = some '.' ∧
      entry.1.toList.all Text.isLowerAscii = true := by
    decide +kernel
  rw [standard_eq]
  refine binds_empty.foldl ?_ (by decide +kernel)
  intro entry hentry
  exact keyOf_eq_self (hkeys entry hentry).1 (hkeys entry hentry).2

theorem Binds.lookup {r : Registry} {table : List (String × Strategy)} (h : r.Binds table)
    (suffix : Option String) : (r.lookup suffix).registry.Binds table := by
  have hserves := r.serves_lookup suffix
  generalize r.lookup suffix = outcome at hserves ⊢
  cases hserves with
  | found => exact h
  | unknown => exact h
  | failed => exact ⟨h.canonical, h.answer_eq⟩
  | @built ranked cleaner heager hpending hbuild =>
      generalize lookupKey suffix = key at heager hpending ⊢
      have hkey : keyOf key = key := h.canonical (key, ranked) (mem_of_lookup_eq_some hpending)
      have hcanonical : { r with history := key :: r.history }.Canonical := h.canonical
      refine ⟨canonical_register hcanonical _ _ _, ?_⟩
      intro history k
      by_cases hk : k = key
      · have hanswer := h.answer_eq r.history key
        simp only [answer, heager, hpending, hbuild, Except.map] at hanswer
        simpa [answer, hk, hkey, heager, prevail] using hanswer
      · simpa [answer, hk, hkey] using h.answer_eq history k

abbrev IsStandard (r : Registry) : Prop :=
  r.Binds Strategy.byExtension

theorem isStandard_standard : standard.IsStandard :=
  standard_binds

theorem IsStandard.found_lookup {r : Registry} (h : r.IsStandard) (extension : Option String) :
    (r.lookup extension).found = .ok ((Strategy.forExtension? extension).map cleanerOf) := by
  rw [Registry.found_lookup, h.answer_eq]
  rfl

theorem IsStandard.transform_fst {r : Registry} (h : r.IsStandard) (extension : Option String)
    (raw : Text) :
    (r.transform extension raw).1 =
      .ok (Transformed.of ((Strategy.forExtension? extension).map cleanerOf) raw) := by
  rw [transform, h.found_lookup]
  rfl

theorem IsStandard.transform_eq {r : Registry} (h : r.IsStandard) (extension : Option String)
    (raw : Text) :
    r.transform extension raw =
      (.ok (Transformed.of ((Strategy.forExtension? extension).map cleanerOf) raw),
        (r.transform extension raw).2) :=
  Prod.ext (h.transform_fst extension raw) rfl

theorem IsStandard.transform_snd {r : Registry} (h : r.IsStandard) (extension : Option String)
    (raw : Text) : (r.transform extension raw).2.IsStandard :=
  h.lookup extension

end CommentSweep.Registry
