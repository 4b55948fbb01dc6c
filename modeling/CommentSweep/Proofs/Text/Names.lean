import CommentSweep.Text
import Mathlib

/-!
Sets of names. Which names there are decides the set; their order and their repetitions do not.
-/

namespace CommentSweep.Text

theorem nodup_eraseDups : (names : List String) → names.eraseDups.Nodup
  | [] => List.nodup_nil
  | name :: names => by
      rw [List.eraseDups_cons, List.nodup_cons]
      constructor
      · rw [List.mem_eraseDups, List.mem_filter]
        simp
      · exact nodup_eraseDups _
termination_by names => names.length
decreasing_by exact Nat.lt_succ_of_le (List.length_filter_le _ _)

theorem eraseDups_eq_self {names : List String} (h : names.Nodup) : names.eraseDups = names := by
  induction names with
  | nil => rfl
  | cons name names ih =>
      obtain ⟨hname, hnames⟩ := List.nodup_cons.mp h
      have hfilter : names.filter (fun other => !other == name) = names := by
        rw [List.filter_eq_self]
        intro other hother
        simpa using ne_of_mem_of_not_mem hother hname
      rw [List.eraseDups_cons, hfilter, ih hnames]

theorem sortNames_perm (names : List String) : (sortNames names).Perm names :=
  List.mergeSort_perm _ _

theorem pairwise_sortNames (names : List String) : (sortNames names).Pairwise (· ≤ ·) := by
  have hsorted : (sortNames names).Pairwise fun a b => decide (a ≤ b) = true := by
    apply List.pairwise_mergeSort
    · intro a b c hab hbc
      rw [decide_eq_true_eq] at hab hbc ⊢
      exact le_trans hab hbc
    · intro a b
      simpa using le_total a b
  exact hsorted.imp of_decide_eq_true

theorem sortNames_congr {names other : List String} (h : names.Perm other) :
    sortNames names = sortNames other := by
  apply List.Perm.eq_of_pairwise ?_ (pairwise_sortNames names) (pairwise_sortNames other)
  · exact (sortNames_perm names).trans (h.trans (sortNames_perm other).symm)
  · intro a b _ _
    exact le_antisymm

@[simp] theorem mem_nameSet {name : String} {names : List String} :
    name ∈ nameSet names ↔ name ∈ names := by
  rw [nameSet, (sortNames_perm _).mem_iff, List.mem_eraseDups]

theorem nameSet_congr {names other : List String} (h : ∀ name, name ∈ names ↔ name ∈ other) :
    nameSet names = nameSet other := by
  apply sortNames_congr
  rw [List.perm_ext_iff_of_nodup (nodup_eraseDups names) (nodup_eraseDups other)]
  intro name
  rw [List.mem_eraseDups, List.mem_eraseDups, h]

end CommentSweep.Text
