import CommentSweep.Proofs.Registry.Answer
import Mathlib

/-!
Registries whose builders do not fail. A registry is mended by spare cleaners for the builders that
fail. Look-ups that do not come by such a builder find the same in the mended registry.
-/

namespace CommentSweep

def Builder.mend (builder : Builder) (spare : Cleaner) : Builder :=
  { builder with build := fun history => .ok ((builder.build history).toOption.getD spare) }

@[simp] theorem Builder.build_mend {builder : Builder} {history : List String} {cleaner : Cleaner}
    (h : builder.build history = .ok cleaner) (spare : Cleaner) :
    (builder.mend spare).build history = .ok cleaner := by
  simp [mend, h, Except.toOption]

namespace Registry

/-- The registry, with a spare cleaner for each suffix whose builder fails. -/
def mend (r : Registry) (spare : String → Cleaner) : Registry :=
  { r with
    pending := r.pending.map fun entry =>
      (entry.1, { entry.2 with item := entry.2.item.mend (spare entry.1) }) }

def Sound (r : Registry) : Prop :=
  ∀ entry ∈ r.pending, ∀ history, ∃ cleaner, entry.2.item.build history = .ok cleaner

variable {r : Registry} {spare : String → Cleaner}

theorem sound_mend (r : Registry) (spare : String → Cleaner) : (r.mend spare).Sound := by
  intro entry hentry
  obtain ⟨old, -, rfl⟩ := List.mem_map.mp hentry
  exact fun _ => ⟨_, rfl⟩

@[simp] theorem lookup_pending_mend (r : Registry) (spare : String → Cleaner) (key : String) :
    (r.mend spare).pending.lookup key =
      (r.pending.lookup key).map fun ranked =>
        { ranked with item := ranked.item.mend (spare key) } := by
  rw [mend]
  generalize r.pending = table
  induction table with
  | nil => rfl
  | cons entry table ih =>
      obtain ⟨name, ranked⟩ := entry
      by_cases hkey : key = name
      · subst hkey
        simp
      · simpa [hkey] using ih

@[simp] theorem mend_register (suffix : String) (cleaner : Cleaner) (priority : Int) :
    (r.register suffix cleaner priority).mend spare =
      (r.mend spare).register suffix cleaner priority := by
  simp only [mend, register, List.filter_map]
  rfl

theorem lookup_mend {suffix : Option String} {found : Option Cleaner}
    (h : (r.lookup suffix).found = .ok found) :
    ((r.mend spare).lookup suffix).found = .ok found ∧
      ((r.mend spare).lookup suffix).registry = (r.lookup suffix).registry.mend spare := by
  have hserves := r.serves_lookup suffix
  have heagers : (r.mend spare).eager = r.eager := rfl
  have hhistory : (r.mend spare).history = r.history := rfl
  have hpendings := r.lookup_pending_mend spare (lookupKey suffix)
  generalize r.lookup suffix = outcome at hserves h ⊢
  rw [lookup, ← lookupKey, heagers]
  cases hserves with
  | found heager =>
      rw [heager]
      exact ⟨h, rfl⟩
  | unknown heager hpending =>
      rw [hpending] at hpendings
      rw [heager, hpendings]
      exact ⟨h, rfl⟩
  | failed => cases h
  | @built ranked cleaner heager hpending hbuild =>
      rw [hpending, Option.map_some] at hpendings
      rw [heager, hpendings]
      simp only [hhistory, Builder.build_mend hbuild, mend_register]
      exact ⟨h, rfl⟩

theorem transform_mend {extension : Option String} {raw : Text} {t : Transformed}
    (h : (r.transform extension raw).1 = .ok t) :
    (r.mend spare).transform extension raw = (.ok t, (r.transform extension raw).2.mend spare) := by
  rw [transform] at h ⊢
  cases hfound : (r.lookup extension).found with
  | error e => simp [hfound, Except.map] at h
  | ok found =>
      obtain ⟨hmended, hregistry⟩ := @lookup_mend r spare extension found hfound
      rw [transform, hmended, hregistry]
      rw [hfound] at h
      exact Prod.ext h rfl

namespace Sound

theorem transform_fst (h : r.Sound) (extension : Option String) (raw : Text) :
    ∃ t, (r.transform extension raw).1 = .ok t := by
  have hserves := r.serves_lookup extension
  rw [transform]
  generalize r.lookup extension = outcome at hserves ⊢
  cases hserves with
  | found => exact ⟨_, rfl⟩
  | unknown => exact ⟨_, rfl⟩
  | failed heager hpending hbuild =>
      obtain ⟨cleaner, hcleaner⟩ := h _ (mem_of_lookup_eq_some hpending) r.history
      rw [hcleaner] at hbuild
      cases hbuild
  | built => exact ⟨_, rfl⟩

theorem transform_snd (h : r.Sound) (extension : Option String) (raw : Text) :
    (r.transform extension raw).2.Sound := by
  have hserves := r.serves_lookup extension
  rw [transform]
  generalize r.lookup extension = outcome at hserves ⊢
  cases hserves with
  | found => exact h
  | unknown => exact h
  | failed => exact h
  | built =>
      intro entry hentry
      exact h entry (List.mem_filter.mp hentry).1

end Sound

end Registry

end CommentSweep
