import CommentSweep.Proofs.Ignore.Marks
import Mathlib

/-!
How the matches of a rule set are weighed. One more rule that ignores by directory marks only can
make paths ignored, and it admits none: further matches overrule its ruling as easily as they
overrule what was said without it. This holds of every fair way to weigh matches.
-/

namespace CommentSweep.Ignore

/-- What a match makes of the ruling on a path. -/
abbrev Weighing :=
  (path : Text) → Option Ruling → Pattern → Option Ruling

def judge (weigh : Weighing) (rules : Rules) (path : String) : Bool :=
  (rules.foldl (weigh (relativePath path.toList)) none).any Ruling.ignores

theorem isIgnored_eq_judge : isIgnored = judge Ruling.update := by
  funext rules path
  rw [isIgnored, judge]
  cases rules.foldl (Ruling.update (relativePath path.toList)) none with
  | none => rfl
  | some ruling => rfl

namespace Ruling

/-- The weighing in which a match that ignores what lies below a directory takes over whatever was
said before. -/
def updateEagerly : Weighing := fun path ruling pattern =>
  match pattern.matcher.find? path with
  | none => ruling
  | some marked =>
      if pattern.ignores && marked then some ⟨true, false⟩ else update path ruling pattern

def Slight (ruling : Option Ruling) : Prop :=
  ∀ old ∈ ruling, old.byName = false

theorem slight_none : Slight none := nofun

theorem slight_marked (ignores : Bool) : Slight (some ⟨ignores, false⟩) := by
  intro old hold
  cases hold
  rfl

/-- The rulings are the same, or nothing was said by name and the second ignores by a directory
mark. -/
def Weaker (ruling other : Option Ruling) : Prop :=
  ruling = other ∨ Slight ruling ∧ other = some ⟨true, false⟩

theorem Weaker.ignores {ruling other : Option Ruling} (h : Weaker ruling other)
    (hignores : ruling.any Ruling.ignores = true) : other.any Ruling.ignores = true := by
  rcases h with rfl | ⟨-, rfl⟩
  · exact hignores
  · rfl

end Ruling

open Ruling

/-- Only matches count, and every match takes over from a ruling that was not by name. -/
structure Weighing.Fair (weigh : Weighing) : Prop where
  keeps : ∀ {path pattern}, pattern.matcher.find? path = none →
    ∀ ruling, weigh path ruling pattern = ruling
  takes : ∀ {path pattern marked}, pattern.matcher.find? path = some marked →
    ∀ {ruling}, Slight ruling → weigh path ruling pattern = some ⟨pattern.ignores, !marked⟩

theorem fair_update : Weighing.Fair Ruling.update where
  keeps := by
    intro path pattern hfind ruling
    simp only [Ruling.update, hfind]
  takes := by
    intro path pattern marked hfind ruling hslight
    simp only [Ruling.update, hfind]
    cases ruling with
    | none => rfl
    | some old => simp [hslight old rfl]

theorem fair_updateEagerly : Weighing.Fair Ruling.updateEagerly where
  keeps := by
    intro path pattern hfind ruling
    simp only [Ruling.updateEagerly, hfind]
  takes := by
    intro path pattern marked hfind ruling hslight
    simp only [Ruling.updateEagerly, hfind]
    split
    · next htaken =>
        obtain ⟨hignores, rfl⟩ := Bool.and_eq_true_iff.mp htaken
        rw [hignores]
        rfl
    · exact fair_update.takes hfind hslight

namespace Weighing.Fair

variable {weigh : Weighing} (hfair : weigh.Fair) {path : Text}

include hfair

theorem weaker {ruling other : Option Ruling} (h : Weaker ruling other) (pattern : Pattern) :
    Weaker (weigh path ruling pattern) (weigh path other pattern) := by
  rcases h with rfl | ⟨hslight, rfl⟩
  · exact .inl rfl
  · cases hfind : pattern.matcher.find? path with
    | none =>
        rw [hfair.keeps hfind, hfair.keeps hfind]
        exact .inr ⟨hslight, rfl⟩
    | some marked =>
        rw [hfair.takes hfind hslight, hfair.takes hfind (slight_marked true)]
        exact .inl rfl

theorem slight {ruling : Option Ruling} (h : Slight ruling) {pattern : Pattern}
    (hmarks : pattern.matcher.OnlyMarks) : Slight (weigh path ruling pattern) := by
  cases hfind : pattern.matcher.find? path with
  | none => rwa [hfair.keeps hfind]
  | some marked =>
      rw [hfair.takes hfind h, hmarks path marked hfind]
      exact slight_marked _

theorem slight_foldl {rules : Rules} (hmarks : ∀ pattern ∈ rules, pattern.matcher.OnlyMarks)
    {ruling : Option Ruling} (h : Slight ruling) : Slight (rules.foldl (weigh path) ruling) := by
  induction rules generalizing ruling with
  | nil => exact h
  | cons pattern rules ih =>
      obtain ⟨hpattern, hrules⟩ := List.forall_mem_cons.mp hmarks
      exact ih hrules (hfair.slight h hpattern)

theorem weaker_added {ruling : Option Ruling} (h : Slight ruling) {pattern : Pattern}
    (hmarks : pattern.matcher.OnlyMarks) (hignores : pattern.ignores = true) :
    Weaker ruling (weigh path ruling pattern) := by
  cases hfind : pattern.matcher.find? path with
  | none => exact .inl (hfair.keeps hfind ruling).symm
  | some marked =>
      rw [hfair.takes hfind h, hmarks path marked hfind, hignores]
      exact .inr ⟨h, rfl⟩

/-- A rule that ignores by directory marks, put behind rules that match by such marks only, admits
no path. -/
theorem judge_insert {front : Rules} (hfront : ∀ pattern ∈ front, pattern.matcher.OnlyMarks)
    {pattern : Pattern} (hmarks : pattern.matcher.OnlyMarks) (hignores : pattern.ignores = true)
    (back : Rules) {name : String} (h : judge weigh (front ++ back) name = true) :
    judge weigh (front ++ pattern :: back) name = true := by
  rw [judge, List.foldl_append] at h ⊢
  generalize relativePath name.toList = path at h ⊢
  have hslight : Slight (front.foldl (weigh path) none) := hfair.slight_foldl hfront slight_none
  have hadded : Weaker (front.foldl (weigh path) none)
      (weigh path (front.foldl (weigh path) none) pattern) :=
    hfair.weaker_added hslight hmarks hignores
  exact (List.foldl_rel hadded fun later _ _ _ hweaker => hfair.weaker hweaker later).ignores h

end Weighing.Fair

@[simp] theorem isSome_update (path : Text) (ruling : Option Ruling) (pattern : Pattern) :
    (Ruling.update path ruling pattern).isSome =
      (ruling.isSome || (pattern.matcher.find? path).isSome) := by
  rw [Ruling.update]
  cases pattern.matcher.find? path with
  | none => rw [Option.isSome_none, Bool.or_false]
  | some marked =>
      cases ruling with
      | none => rfl
      | some old =>
          dsimp only
          split <;> rfl

@[simp] theorem isSome_foldl_update (path : Text) (rules : Rules) (ruling : Option Ruling) :
    (rules.foldl (Ruling.update path) ruling).isSome =
      (ruling.isSome || rules.any fun pattern => (pattern.matcher.find? path).isSome) := by
  induction rules generalizing ruling with
  | nil => simp
  | cons pattern rules ih => simp [ih, isSome_update, Bool.or_assoc]

theorem ignores_of_mem_update {path : Text} {ruling : Option Ruling} {pattern : Pattern}
    (hpattern : pattern.ignores = true) (hruling : ∀ old ∈ ruling, old.ignores = true) :
    ∀ new ∈ Ruling.update path ruling pattern, new.ignores = true := by
  intro new hnew
  rw [Ruling.update] at hnew
  split at hnew
  · exact hruling new hnew
  · split at hnew
    · split at hnew
      · exact hruling new hnew
      · cases hnew
        exact hpattern
    · cases hnew
      exact hpattern

theorem ignores_of_mem_foldl_update {path : Text} {rules : Rules}
    (hrules : ∀ pattern ∈ rules, pattern.ignores = true) {ruling : Option Ruling}
    (hruling : ∀ old ∈ ruling, old.ignores = true) :
    ∀ new ∈ rules.foldl (Ruling.update path) ruling, new.ignores = true := by
  induction rules generalizing ruling with
  | nil => exact hruling
  | cons pattern rules ih =>
      obtain ⟨hpattern, hrules⟩ := List.forall_mem_cons.mp hrules
      exact ih hrules (ignores_of_mem_update hpattern hruling)

theorem isIgnored_iff_of_ignores {rules : Rules}
    (hrules : ∀ pattern ∈ rules, pattern.ignores = true) (path : String) :
    isIgnored rules path = true ↔
      ∃ pattern ∈ rules, (pattern.matcher.find? (relativePath path.toList)).isSome = true := by
  have hsome := isSome_foldl_update (relativePath path.toList) rules none
  have hruling : ∀ old ∈ (none : Option Ruling), old.ignores = true := by simp
  have hignores : ∀ new ∈ rules.foldl (Ruling.update (relativePath path.toList)) none,
      new.ignores = true := ignores_of_mem_foldl_update hrules hruling
  rw [isIgnored_eq_judge, judge]
  cases hlast : rules.foldl (Ruling.update (relativePath path.toList)) none with
  | none => simpa [hlast] using hsome
  | some last => simpa [hlast, hignores last hlast] using hsome

theorem exists_of_rulesOf_append {first second : List String} {rules : Rules}
    (h : rulesOf (first ++ second) = .ok rules) :
    ∃ front back, rulesOf first = .ok front ∧ rulesOf second = .ok back ∧
      rules = front ++ back := by
  induction first generalizing rules with
  | nil => exact ⟨[], rules, rfl, h, rfl⟩
  | cons line first ih =>
      obtain ⟨pattern?, hline, h⟩ := exists_of_bind_eq_ok h
      obtain ⟨others, hothers, h⟩ := exists_of_bind_eq_ok h
      obtain ⟨front, back, hfront, hback, rfl⟩ := ih hothers
      cases h
      refine ⟨pattern?.toList ++ front, back, ?_, hback, (List.append_assoc ..).symm⟩
      rw [rulesOf, hline, hfront]
      rfl

def dirLines (dirs : List String) : List String :=
  (dirs.filter (· != "")).map fun dir => dirName dir ++ "/"

theorem ruleLines_eq (dirs files lines : List String) :
    ruleLines dirs files lines = dirLines dirs ++ (files.filter (· != "") ++ lines) :=
  List.append_assoc ..

@[simp] theorem dirLines_append (front back : List String) :
    dirLines (front ++ back) = dirLines front ++ dirLines back := by
  simp only [dirLines, List.filter_append, List.map_append]

@[simp] theorem dirLines_empty (dirs : List String) : dirLines ("" :: dirs) = dirLines dirs := rfl

@[simp] theorem dirLines_cons {dir : String} (hdir : dir ≠ "") (dirs : List String) :
    dirLines (dir :: dirs) = (dirName dir ++ "/") :: dirLines dirs := by
  simp [dirLines, hdir]

theorem onlyMarks_of_dirLines {dirs : List String} {rules : Rules}
    (h : rulesOf (dirLines dirs) = .ok rules) :
    ∀ pattern ∈ rules, pattern.matcher.OnlyMarks := by
  rw [dirLines] at h
  generalize dirs.filter (· != "") = dirs at h
  induction dirs generalizing rules with
  | nil =>
      cases h
      exact nofun
  | cons dir dirs ih =>
      obtain ⟨pattern?, hline, h⟩ := exists_of_bind_eq_ok h
      obtain ⟨others, hothers, h⟩ := exists_of_bind_eq_ok h
      cases h
      intro pattern hpattern
      rcases List.mem_append.mp hpattern with hfirst | hrest
      · rw [Option.mem_toList] at hfirst
        cases hfirst
        exact (onlyMarks_of_ofLine? hline).1
      · exact ih hothers pattern hrest

theorem head?_dirName_ne {dir : String} (h : dir.toList.head? ≠ some '!') :
    (dirName dir).toList.head? ≠ some '!' := by
  have hprefix : (dirName dir).toList <+: dir.toList := by
    rw [dirName, String.toList_ofList]
    exact List.rdropWhile_prefix _ _
  obtain ⟨slashes, hslashes⟩ := hprefix
  intro hhead
  rw [← hslashes, List.head?_append, hhead] at h
  exact h rfl

theorem exists_of_more_dirs {front back files lines : List String} {dir : String}
    (hdir : dir.toList.head? ≠ some '!') {rules more : Rules}
    (hrules : rulesOf (ruleLines (front ++ back) files lines) = .ok rules)
    (hmore : rulesOf (ruleLines (front ++ dir :: back) files lines) = .ok more) :
    ∃ (before after : Rules) (pattern? : Option Pattern),
      rules = before ++ after ∧ more = before ++ (pattern?.toList ++ after) ∧
      (∀ pattern ∈ before, pattern.matcher.OnlyMarks) ∧
      ∀ pattern ∈ pattern?, pattern.matcher.OnlyMarks ∧ pattern.ignores = true := by
  rw [ruleLines_eq, dirLines_append, List.append_assoc] at hrules hmore
  obtain ⟨before, after, hbefore, hafter, rfl⟩ := exists_of_rulesOf_append hrules
  obtain ⟨before', rest, hbefore', hrest, rfl⟩ := exists_of_rulesOf_append hmore
  obtain rfl : before = before' := Except.ok.inj (hbefore.symm.trans hbefore')
  have hmarks := onlyMarks_of_dirLines hbefore
  by_cases hempty : dir = ""
  · subst hempty
    rw [dirLines_empty] at hrest
    obtain rfl : after = rest := Except.ok.inj (hafter.symm.trans hrest)
    exact ⟨before, after, none, rfl, rfl, hmarks, nofun⟩
  · rw [dirLines_cons hempty, List.cons_append] at hrest
    obtain ⟨pattern?, hline, hrest⟩ := exists_of_bind_eq_ok hrest
    obtain ⟨others, hothers, hrest⟩ := exists_of_bind_eq_ok hrest
    obtain rfl : after = others := Except.ok.inj (hafter.symm.trans hothers)
    cases hrest
    refine ⟨before, after, pattern?, rfl, rfl, hmarks, ?_⟩
    intro pattern hpattern
    cases hpattern
    obtain ⟨hmarks, hignores⟩ := onlyMarks_of_ofLine? hline
    exact ⟨hmarks, hignores.trans (bne_iff_ne.mpr (head?_dirName_ne hdir))⟩

theorem judge_of_more_dirs {weigh : Weighing} (hfair : weigh.Fair)
    {front back files lines : List String} {dir : String} (hdir : dir.toList.head? ≠ some '!')
    {rules more : Rules} (hrules : rulesOf (ruleLines (front ++ back) files lines) = .ok rules)
    (hmore : rulesOf (ruleLines (front ++ dir :: back) files lines) = .ok more) {path : String}
    (h : judge weigh rules path = true) : judge weigh more path = true := by
  obtain ⟨before, after, pattern?, rfl, rfl, hbefore, hpattern⟩ :=
    exists_of_more_dirs hdir hrules hmore
  cases pattern? with
  | none => exact h
  | some pattern =>
      obtain ⟨hmarks, hignores⟩ := hpattern pattern rfl
      exact hfair.judge_insert hbefore hmarks hignores after h

end CommentSweep.Ignore
