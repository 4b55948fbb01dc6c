import CommentSweep.Path
import CommentSweep.Proofs.Text.Finished
import CommentSweep.Proofs.Text.Lower
import CommentSweep.Proofs.Text.Names
import Mathlib

/-!
The files that the extensions select. Two texts are brought into normal form, each in its own way:
the extension that is asked for, and the name of a file. The file is selected if the two forms
agree.
-/

namespace CommentSweep

namespace Path

theorem name?_ofString {dir name : String} (hdir : dir = "" ∨ ∃ above, dir = above ++ "/")
    (hslash : '/' ∉ name.toList) (hlength : 2 ≤ name.toList.length) :
    (Path.ofString (dir ++ name)).name? = some name := by
  have hempty : name ≠ "" := by
    rintro rfl
    exact absurd hlength (by decide)
  have hdot : name ≠ "." := by
    rintro rfl
    exact absurd hlength (by decide)
  have hparts : ∃ above, (dir ++ name).toList.splitOn '/' = above ++ [name.toList] := by
    rcases hdir with rfl | ⟨above, rfl⟩
    · exact ⟨[], by rw [String.empty_append, List.splitOn_eq_singleton hslash, List.nil_append]⟩
    · refine ⟨above.toList.splitOn '/', ?_⟩
      have htext : (above ++ "/" ++ name).toList = above.toList ++ '/' :: name.toList := by simp
      rw [htext, List.splitOn_append_cons_self, List.splitOn_eq_singleton hslash]
  obtain ⟨above, hparts⟩ := hparts
  unfold Path.name? Path.ofString
  simp only [hparts]
  simp [hempty, hdot]

theorem suffixOf_append {stem extension : Text} (hstem : stem ≠ []) (hdot : '.' ∉ extension) :
    suffixOf (stem ++ '.' :: extension) = if extension = [] then [] else '.' :: extension := by
  have hlast : ∀ c ∈ extension.reverse, (c != '.') = true := by
    intro c hc
    rw [bne_iff_ne]
    exact ne_of_mem_of_not_mem (List.mem_reverse.mp hc) hdot
  have htail : (stem ++ '.' :: extension).reverse.takeWhile (· != '.') = extension.reverse := by
    rw [List.reverse_append, List.reverse_cons, List.append_assoc,
      List.takeWhile_append_of_pos hlast]
    simp
  have hlength : 0 < stem.length := List.length_pos_iff.mpr hstem
  have hfront : ¬((stem ++ '.' :: extension).take
      ((stem ++ '.' :: extension).length - extension.length)).length ≤ 1 := by
    simp only [List.length_take, List.length_append, List.length_cons]
    omega
  rw [suffixOf, htail, List.reverse_reverse]
  simp only [hfront]
  simp

end Path

namespace Extension

structure IsNormal (extension : String) : Prop where
  dot : extension.toList.head? = some '.'
  lower : Text.lowerString extension = extension
  trimmed : Text.Trimmed extension.toList

theorem trimmed_dot {word : Text} (hlast : ∀ c ∈ word.getLast?, Text.isBlank c = false) :
    Text.Trimmed ('.' :: word) := by
  refine ⟨List.cons_ne_nil _ _, ?_, ?_⟩
  · rintro c ⟨⟩
    decide
  · intro c hc
    rw [List.getLast?_cons] at hc
    cases hword : word.getLast? with
    | none =>
        rw [hword] at hc
        obtain rfl := Option.some.inj hc
        decide
    | some d =>
        rw [hword] at hc
        exact hlast c (hword.trans hc)

theorem isNormal_dot {word : Text} (hlower : ∀ c ∈ word, Text.IsLower c)
    (hlast : ∀ c ∈ word.getLast?, Text.isBlank c = false) :
    IsNormal (String.ofList ('.' :: word)) where
  dot := by rw [String.toList_ofList, List.head?_cons]
  lower := by
    rw [Text.lowerString, String.toList_ofList, Text.lower_dot, Text.lower,
      Text.lowerFrom_eq_self hlower]
  trimmed := by
    rw [String.toList_ofList]
    exact trimmed_dot hlast

theorem normalizeOne?_dot {token : String} {rest : Text}
    (h : Text.lower (Text.trim token.toList) = '.' :: rest) :
    normalizeOne? token = some (String.ofList ('.' :: rest)) := by
  rw [normalizeOne?, h]
  rfl

theorem normalizeOne?_bare {token : String} {word : Text}
    (h : Text.lower (Text.trim token.toList) = word) (hne : word ≠ [])
    (hdot : word.head? ≠ some '.') :
    normalizeOne? token = some (String.ofList ('.' :: word)) := by
  rw [normalizeOne?, h]
  split
  · exact absurd rfl hne
  · exact absurd rfl hdot
  · rfl

theorem isBlank_getLast?_trim (t : Text) :
    ∀ c ∈ (Text.trim t).getLast?, Text.isBlank c = false := by
  by_cases hne : Text.trim t = []
  · rw [hne]
    intro c hc
    exact absurd hc (Option.not_mem_none c)
  · exact (Text.trimmed_trim hne).last

theorem isNormal_of_normalizeOne? {token extension : String}
    (h : normalizeOne? token = some extension) : IsNormal extension := by
  cases hword : Text.lower (Text.trim token.toList) with
  | nil =>
      rw [normalizeOne?, hword] at h
      cases h
  | cons c rest =>
      have hlower : ∀ d ∈ c :: rest, Text.IsLower d := by
        rw [← hword]
        exact fun d => Text.isLower_of_mem_lowerFrom
      have hlast : ∀ d ∈ (c :: rest).getLast?, Text.isBlank d = false := by
        rw [← hword]
        exact Text.isBlank_getLast?_lowerFrom (isBlank_getLast?_trim token.toList) []
      by_cases hdot : c = '.'
      · subst hdot
        rw [normalizeOne?_dot hword] at h
        obtain rfl := Option.some.inj h
        apply isNormal_dot
        · exact fun d hd => hlower d (List.mem_cons_of_mem _ hd)
        · intro d hd
          apply hlast
          rw [List.getLast?_cons, hd]
          rfl
      · rw [normalizeOne?_bare hword (List.cons_ne_nil c rest) (by simpa using hdot)] at h
        obtain rfl := Option.some.inj h
        exact isNormal_dot hlower hlast

theorem IsNormal.normalizeOne? {extension : String} (h : IsNormal extension) :
    normalizeOne? extension = some extension := by
  obtain ⟨rest, htext⟩ := List.head?_eq_some_iff.mp h.dot
  have hlower : Text.lower (Text.trim extension.toList) = '.' :: rest := by
    rw [h.trimmed.trim_eq, ← htext]
    exact String.ofList_inj.mp (h.lower.trans String.ofList_toList.symm)
  rw [normalizeOne?_dot hlower, ← htext, String.ofList_toList]

@[simp] theorem mem_normalize_iff {extension : String} {tokens : List String} :
    extension ∈ normalize tokens ↔ ∃ token ∈ tokens, normalizeOne? token = some extension := by
  simp [normalize]

theorem isNormal_of_mem_normalize {extension : String} {tokens : List String}
    (h : extension ∈ normalize tokens) : IsNormal extension := by
  obtain ⟨token, -, htoken⟩ := mem_normalize_iff.mp h
  exact isNormal_of_normalizeOne? htoken

theorem normalize_congr {tokens others : List String}
    (h : ∀ token, token ∈ tokens ↔ token ∈ others) : normalize tokens = normalize others := by
  apply Text.nameSet_congr
  intro extension
  simp only [List.mem_filterMap, h]

@[simp] theorem normalize_normalize (tokens : List String) :
    normalize (normalize tokens) = normalize tokens := by
  apply Text.nameSet_congr
  intro extension
  rw [List.mem_filterMap]
  constructor
  · rintro ⟨other, hother, hself⟩
    rw [(isNormal_of_mem_normalize hother).normalizeOne?] at hself
    obtain rfl := Option.some.inj hself
    exact List.mem_filterMap.mpr (mem_normalize_iff.mp hother)
  · intro hmem
    have hextension : extension ∈ normalize tokens :=
      mem_normalize_iff.mpr (List.mem_filterMap.mp hmem)
    exact ⟨extension, hextension, (isNormal_of_mem_normalize hextension).normalizeOne?⟩

/-- A token that is asked for without its dot. -/
structure IsBare (token : String) : Prop where
  trimmed : Text.Trimmed token.toList
  no_dot : '.' ∉ token.toList
  no_slash : '/' ∉ token.toList

theorem ofList_dot (t : Text) : String.ofList ('.' :: t) = "." ++ String.ofList t := by
  rw [← List.singleton_append, String.ofList_append]

theorem IsBare.normalizeOne? {token : String} (h : IsBare token) :
    Extension.normalizeOne? token = some ("." ++ Text.lowerString token) := by
  have hne : Text.lower token.toList ≠ [] := fun hnil =>
    h.trimmed.ne_nil (Text.lowerFrom_eq_nil_iff.mp hnil)
  have hdot : (Text.lower token.toList).head? ≠ some '.' := fun hhead =>
    h.no_dot ((Text.mem_lowerFrom_iff (by decide) [] _).mp (List.mem_of_mem_head? hhead))
  rw [normalizeOne?_bare (congrArg Text.lower h.trimmed.trim_eq) hne hdot, ofList_dot]
  rfl

theorem IsBare.normalizeOne?_dotted {token : String} (h : IsBare token) :
    Extension.normalizeOne? ("." ++ token) = some ("." ++ Text.lowerString token) := by
  have htext : ("." ++ token).toList = '.' :: token.toList := String.toList_append
  have hlower : Text.lower (Text.trim ("." ++ token).toList) = '.' :: Text.lower token.toList := by
    simp [htext, (trimmed_dot h.trimmed.last).trim_eq]
  rw [normalizeOne?_dot hlower, ofList_dot]
  rfl

theorem ofPath_ofString {dir stem ending : String}
    (hdir : dir = "" ∨ ∃ above, dir = above ++ "/") (hstem : stem ≠ "")
    (hstemSlash : '/' ∉ stem.toList) (hslash : '/' ∉ ending.toList) (hdot : '.' ∉ ending.toList) :
    ofPath (Path.ofString (dir ++ (stem ++ "." ++ ending))) =
      if ending = "" then "" else "." ++ Text.lowerString ending := by
  have hne : stem.toList ≠ [] := by simpa using hstem
  have htext : (stem ++ "." ++ ending).toList = stem.toList ++ '.' :: ending.toList := by simp
  have hname : (Path.ofString (dir ++ (stem ++ "." ++ ending))).name? =
      some (stem ++ "." ++ ending) := by
    apply Path.name?_ofString hdir
    · rw [htext]
      simp [hstemSlash, hslash]
    · have hlength := List.length_pos_iff.mpr hne
      rw [htext, List.length_append, List.length_cons]
      omega
  rw [ofPath, Path.suffix, hname]
  simp only [htext, Path.suffixOf_append hne hdot]
  by_cases hending : ending = ""
  · subst hending
    rfl
  · have hword : ending.toList ≠ [] := by simpa using hending
    rw [if_neg hending, if_neg hword, Text.lowerString, String.toList_ofList, Text.lower_dot,
      ofList_dot]
    rfl

theorem IsBare.isAllowed_iff {token dir stem ending : String} (h : IsBare token)
    (hdir : dir = "" ∨ ∃ above, dir = above ++ "/") (hstem : stem ≠ "")
    (hstemSlash : '/' ∉ stem.toList) (hslash : '/' ∉ ending.toList) (hdot : '.' ∉ ending.toList)
    {written : String} (hwritten : written = token ∨ written = "." ++ token) :
    isAllowed (normalize [written]) (Path.ofString (dir ++ (stem ++ "." ++ ending))) = true ↔
      Text.lowerString ending = Text.lowerString token := by
  have hone : Extension.normalizeOne? written = some ("." ++ Text.lowerString token) := by
    rcases hwritten with rfl | rfl
    · exact h.normalizeOne?
    · exact h.normalizeOne?_dotted
  rw [isAllowed, List.contains_iff_mem, mem_normalize_iff,
    ofPath_ofString hdir hstem hstemSlash hslash hdot]
  simp only [List.mem_singleton, exists_eq_left, hone, Option.some.injEq]
  by_cases hending : ending = ""
  · subst hending
    have hne : Text.lower token.toList ≠ [] := fun hnil =>
      h.trimmed.ne_nil (Text.lowerFrom_eq_nil_iff.mp hnil)
    rw [if_pos rfl]
    apply iff_of_false
    · simp [← String.toList_inj]
    · intro hempty
      exact hne (String.ofList_inj.mp hempty).symm
  · rw [if_neg hending]
    simp [← String.toList_inj, eq_comm]

theorem mem_iff_of_lowerString_eq {word other : String}
    (h : Text.lowerString word = Text.lowerString other) {c : Char} (hc : c.toNat < 65) :
    c ∈ word.toList ↔ c ∈ other.toList := by
  have hlower : Text.lower word.toList = Text.lower other.toList := String.ofList_inj.mp h
  rw [← Text.mem_lowerFrom_iff hc [] word.toList, ← Text.lower, hlower, Text.lower,
    Text.mem_lowerFrom_iff hc]

/-- Normalizing is idempotent, and neither the order nor the repetition of the tokens counts. What
it gives has a dot and is in lower case, and it selects exactly the files whose ending is the one
that was asked for, whatever the case of the two and with or without the dot. -/
theorem extensions_select_by_ending :
    (∀ tokens, normalize (normalize tokens) = normalize tokens) ∧
    (∀ tokens others : List String, (∀ token, token ∈ tokens ↔ token ∈ others) →
      normalize tokens = normalize others) ∧
    (∀ tokens, ∀ extension ∈ normalize tokens,
      extension.toList.head? = some '.' ∧ Text.lowerString extension = extension) ∧
    (∀ dir stem token written : String, (dir = "" ∨ ∃ above, dir = above ++ "/") → stem ≠ "" →
      '/' ∉ stem.toList → IsBare token → (written = token ∨ written = "." ++ token) →
      (∀ ending, Text.lowerString ending = Text.lowerString token →
        isAllowed (normalize [written]) (Path.ofString (dir ++ (stem ++ "." ++ ending))) = true) ∧
      (∀ ending, '.' ∉ ending.toList → '/' ∉ ending.toList →
        Text.lowerString ending ≠ Text.lowerString token →
        isAllowed (normalize [written]) (Path.ofString (dir ++ (stem ++ "." ++ ending))) =
          false)) := by
  refine ⟨normalize_normalize, fun _ _ => normalize_congr, ?_, ?_⟩
  · intro tokens extension hmem
    have hnormal := isNormal_of_mem_normalize hmem
    exact ⟨hnormal.dot, hnormal.lower⟩
  · intro dir stem token written hdir hstem hstemSlash htoken hwritten
    constructor
    · intro ending hsame
      have hdot : '.' ∉ ending.toList := fun h =>
        htoken.no_dot ((mem_iff_of_lowerString_eq hsame (by decide)).mp h)
      have hslash : '/' ∉ ending.toList := fun h =>
        htoken.no_slash ((mem_iff_of_lowerString_eq hsame (by decide)).mp h)
      exact (htoken.isAllowed_iff hdir hstem hstemSlash hslash hdot hwritten).mpr hsame
    · intro ending hdot hslash hother
      rw [← Bool.not_eq_true, htoken.isAllowed_iff hdir hstem hstemSlash hslash hdot hwritten]
      exact hother

/-- The sign for a temperature scale is a capital letter too, and the stem may be made of dots. -/
theorem extensions_select_by_ending_kelvin :
    isAllowed (normalize ["." ++ "mk"])
        (Path.ofString ("/x//./" ++ (".." ++ "." ++ "M\u212a"))) = true ∧
      isAllowed (normalize ["." ++ "mk"])
        (Path.ofString ("/x//./" ++ (".." ++ "." ++ "m"))) = false := by
  have hbare : IsBare "mk" := ⟨⟨by decide, by simp [Text.isBlank], by simp [Text.isBlank]⟩,
    by decide, by decide⟩
  obtain ⟨hsame, hother⟩ := extensions_select_by_ending.2.2.2 "/x//./" ".." "mk" ("." ++ "mk")
    (.inr ⟨"/x//.", by decide⟩) (by decide) (by decide) hbare (.inr rfl)
  exact ⟨hsame "M\u212a" (by decide +kernel),
    hother "m" (by decide) (by decide) (by decide +kernel)⟩

end Extension

end CommentSweep
