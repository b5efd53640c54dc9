import Mathlib.Data.Nat.Digits.Lemmas
import OpenWop.Certification.Registry
import OpenWop.Js.NumberText

/-!
# Derived requirement ids

The id of one test is its scenario file's stem and a slug of its title. The slug is always a
kebab-case text, so the id follows the grammar and its file is read back from it.
-/

namespace OpenWop.RequirementIds

open OpenWop.Js
open OpenWop.Certification (fileStem scenarioFileOfItId)

/-- `[a-z0-9]`. -/
def isWordUnit (u : UInt16) : Bool := (unit 'a' ≤ u && u ≤ unit 'z') || isDigit u

/-- `[a-z0-9]+`. -/
def isWord (s : JsString) : Bool := s ≠ [] && s.all isWordUnit

/-- `[a-z0-9]+(?:-[a-z0-9]+)*`. -/
def isKebab (s : JsString) : Bool := (splitOn s (unit '-')).all isWord

/-- `[2-9][0-9]*`. -/
def isCounter : JsString → Bool
  | [] => false
  | u :: s => unit '2' ≤ u && u ≤ unit '9' && s.all isDigit

/-- `IT_ID_PREFIX`. -/
def itIdPrefix : JsString := js "openwop.it."

/-- `IT_ID_GRAMMAR`: the slug may be followed by `~` and a counter. -/
def itIdGrammar (id : JsString) : Bool :=
  startsWith id itIdPrefix &&
    match splitOn (id.drop itIdPrefix.length) (unit '.') with
    | [stem, title] => isKebab stem &&
      match splitOn title (unit '~') with
      | [slug] => isKebab slug
      | [slug, counter] => isKebab slug && isCounter counter
      | _ => false
    | _ => false

/-- `.replace(/[^a-z0-9]+/g, '-')`; `inRun` inside a run already replaced. -/
def foldRuns (inRun : Bool) : JsString → JsString
  | [] => []
  | u :: s =>
    if isWordUnit u then u :: foldRuns false s
    else if inRun then foldRuns true s
    else unit '-' :: foldRuns true s

/-- The hyphens at the end cut off. -/
def trimEnd (s : JsString) : JsString := s.rdropWhile (· = unit '-')

/-- `.replace(/^-+|-+$/g, '')`. -/
def trimHyphens (s : JsString) : JsString := trimEnd (s.dropWhile (· = unit '-'))

/-- `MAX_SLUG`. -/
def maxSlug : Nat := 80

/-- `slugTitle`, for the `toLowerCase` of the language. -/
def slugTitle (toLowerCase : JsString → JsString) (title : JsString) : JsString :=
  let s := trimHyphens (foldRuns false (toLowerCase title))
  let capped := if maxSlug < s.length then trimEnd (s.take maxSlug) else s
  if 0 < capped.length then capped else js "untitled"

/-- `itRequirementId`. -/
def itRequirementId (toLowerCase : JsString → JsString) (scenarioFile title : JsString) :
    JsString :=
  itIdPrefix ++ fileStem scenarioFile ++ js "." ++ slugTitle toLowerCase title

section Kebab

theorem isWordUnit_ne {u v : UInt16} (h : isWordUnit u = true) (hv : isWordUnit v = false) :
    u ≠ v := by
  rintro rfl
  exact absurd (h.symm.trans hv) (by decide)

/-- Words joined by single hyphens. -/
theorem isKebab_of {s : JsString} (hne : s ≠ [])
    (hunits : ∀ u ∈ s, isWordUnit u = true ∨ u = unit '-') (hlead : ¬ [unit '-'] <+: s)
    (htail : ¬ [unit '-'] <:+ s) (hdouble : ¬ [unit '-', unit '-'] <:+: s) : isKebab s = true := by
  rw [isKebab, List.all_eq_true]
  intro w hw
  have hpiece : w ≠ [] := by
    rintro rfl
    rcases nil_mem_splitOn hw with h | h | h | h
    exacts [hne h, hlead h, htail h, hdouble h]
  have hword : ∀ u ∈ w, isWordUnit u = true := by
    intro u hu
    obtain ⟨hs, hu⟩ := exists_mem_splitOn.mp ⟨w, hw, hu⟩
    exact (hunits u hs).resolve_right hu
  simpa [isWord, hpiece] using hword

theorem isKebab_units {s : JsString} (h : isKebab s = true) :
    ∀ u ∈ s, isWordUnit u = true ∨ u = unit '-' := by
  intro u hu
  by_cases hyphen : u = unit '-'
  · exact Or.inr hyphen
  · obtain ⟨w, hw, hu⟩ := exists_mem_splitOn.mpr ⟨hu, hyphen⟩
    have hword := List.all_eq_true.mp h w hw
    rw [isWord, Bool.and_eq_true, List.all_eq_true] at hword
    exact Or.inl (hword.2 u hu)

theorem isKebab_not_mem {s : JsString} {v : UInt16} (h : isKebab s = true)
    (hword : isWordUnit v = false) (hyphen : v ≠ unit '-') : v ∉ s := by
  intro hv
  rcases isKebab_units h v hv with hv | hv
  · exact isWordUnit_ne hv hword rfl
  · exact hyphen hv

theorem isKebab_ne_nil {s : JsString} (h : isKebab s = true) : s ≠ [] := by
  rintro rfl
  exact absurd h (by decide)

end Kebab

section Slugging

theorem foldRuns_units (inRun : Bool) (s : JsString) :
    ∀ u ∈ foldRuns inRun s, isWordUnit u = true ∨ u = unit '-' := by
  induction s generalizing inRun with
  | nil => simp [foldRuns]
  | cons v s ih =>
    rw [foldRuns]
    split
    · next hv =>
      rw [List.forall_mem_cons]
      exact ⟨Or.inl hv, ih false⟩
    · split
      · exact ih true
      · rw [List.forall_mem_cons]
        exact ⟨Or.inr rfl, ih true⟩

/-- One hyphen at most for a run, and none where its hyphen is already out. -/
theorem foldRuns_single (inRun : Bool) (s : JsString) :
    ¬ [unit '-', unit '-'] <:+: foldRuns inRun s ∧
      (inRun = true → ¬ [unit '-'] <+: foldRuns inRun s) := by
  induction s generalizing inRun with
  | nil => simp [foldRuns]
  | cons v s ih =>
    rw [foldRuns]
    split
    · next hv =>
      have hne : unit '-' ≠ v := (isWordUnit_ne hv (by decide)).symm
      simp [List.infix_cons_iff, hne, (ih false).1]
    · split
      · exact ⟨(ih true).1, fun _ => (ih true).2 rfl⟩
      · next hrun =>
        refine ⟨?_, fun h => absurd h hrun⟩
        rw [List.infix_cons_iff, List.cons_prefix_cons, not_or]
        exact ⟨fun h => (ih true).2 rfl h.2, (ih true).1⟩

theorem trimEnd_lead (s : JsString) : trimEnd s <+: s := List.rdropWhile_prefix _ s

theorem trimEnd_tail (s : JsString) : ¬ [unit '-'] <:+ trimEnd s := by
  rintro ⟨t, ht⟩
  have hagain : trimEnd (trimEnd s) = trimEnd s := List.rdropWhile_idempotent _ s
  have hshort : trimEnd (t ++ [unit '-']) = trimEnd t :=
    List.rdropWhile_concat_pos _ t (unit '-') (by simp)
  rw [← ht, hshort] at hagain
  have hlen := (trimEnd_lead t).length_le
  rw [hagain, List.length_append, List.length_singleton] at hlen
  omega

theorem dropHyphens_lead (s : JsString) : ¬ [unit '-'] <+: s.dropWhile (· = unit '-') := by
  induction s with
  | nil => simp
  | cons u s ih =>
    rw [List.dropWhile_cons]
    split
    · exact ih
    · next hu =>
      rw [List.cons_prefix_cons]
      exact fun h => hu (by simp [h.1])

theorem trimHyphens_part (s : JsString) : trimHyphens s <:+: s :=
  (trimEnd_lead _).isInfix.trans (List.dropWhile_suffix _).isInfix

theorem trimHyphens_lead (s : JsString) : ¬ [unit '-'] <+: trimHyphens s :=
  fun h => dropHyphens_lead s (h.trans (trimEnd_lead _))

/-- Every part of the folded text that neither starts nor ends with a hyphen is kebab-case. -/
theorem isKebab_foldRuns_part {title part : JsString} (hin : part <:+: foldRuns false title)
    (hne : part ≠ []) (hlead : ¬ [unit '-'] <+: part) (htail : ¬ [unit '-'] <:+ part) :
    isKebab part = true :=
  isKebab_of hne (fun u hu => foldRuns_units false title u (hin.subset hu)) hlead htail
    fun h => (foldRuns_single false title).1 (h.trans hin)

/-- The slug of any title is kebab-case. -/
theorem isKebab_slugTitle (toLowerCase : JsString → JsString) (title : JsString) :
    isKebab (slugTitle toLowerCase title) = true := by
  let s := trimHyphens (foldRuns false (toLowerCase title))
  let capped := if maxSlug < s.length then trimEnd (s.take maxSlug) else s
  have hslug : slugTitle toLowerCase title = if 0 < capped.length then capped else js "untitled" :=
    rfl
  have hcut : capped <+: s ∧ ¬ [unit '-'] <:+ capped := by
    by_cases hlong : maxSlug < s.length
    · simp only [capped, if_pos hlong]
      exact ⟨(trimEnd_lead _).trans (List.take_prefix _ s), trimEnd_tail _⟩
    · simp only [capped, if_neg hlong]
      exact ⟨List.prefix_rfl, trimEnd_tail _⟩
  rw [hslug]
  split
  · next hpos =>
    refine isKebab_foldRuns_part (hcut.1.isInfix.trans (trimHyphens_part _))
      (List.length_pos_iff.mp hpos) (fun h => ?_) hcut.2
    exact trimHyphens_lead _ (h.trans hcut.1)
  · decide

end Slugging

section Files

theorem scenarioFileOfItId_prefixed (rest : JsString) :
    scenarioFileOfItId (js "openwop.it." ++ rest) =
      match indexOf rest (js ".") with
      | some (dot + 1) => some (rest.take (dot + 1) ++ js ".test.ts")
      | _ => none := by
  have hrest : (js "openwop.it." ++ rest).drop (js "openwop.it.").length = rest := List.drop_left
  rw [scenarioFileOfItId, if_pos (startsWith_append (js "openwop.it.") rest)]
  change (match indexOf ((js "openwop.it." ++ rest).drop (js "openwop.it.").length) (js ".") with
    | some (dot + 1) =>
      some (((js "openwop.it." ++ rest).drop (js "openwop.it.").length).take (dot + 1) ++
        js ".test.ts")
    | _ => none) = _
  rw [hrest]

/-- The file of a derived id, counter or not, is read back from the id. -/
theorem scenarioFileOfItId_append {stem : JsString} (h : isKebab stem = true) (rest : JsString) :
    scenarioFileOfItId (itIdPrefix ++ (stem ++ unit '.' :: rest)) =
      some (stem ++ js ".test.ts") := by
  have hdot : unit '.' ∉ stem := isKebab_not_mem h (by decide) (by decide)
  have hcut : indexOf (stem ++ unit '.' :: rest) (js ".") = some stem.length := indexOf_append hdot
  have htake : (stem ++ unit '.' :: rest).take stem.length = stem := List.take_left
  obtain ⟨n, hn⟩ := Nat.exists_eq_succ_of_ne_zero
    fun h0 => isKebab_ne_nil h (List.length_eq_zero_iff.mp h0)
  rw [hn] at hcut htake
  rw [itIdPrefix, scenarioFileOfItId_prefixed, hcut]
  change some ((stem ++ unit '.' :: rest).take n.succ ++ js ".test.ts") = _
  rw [htake]

/-- A derived id follows the grammar where what follows the slug is nothing or a counter. -/
theorem itIdGrammar_append {stem title : JsString} (hstem : isKebab stem = true)
    (htitle : unit '.' ∉ title) :
    itIdGrammar (itIdPrefix ++ (stem ++ unit '.' :: title)) =
      match splitOn title (unit '~') with
      | [slug] => isKebab slug
      | [slug, counter] => isKebab slug && isCounter counter
      | _ => false := by
  have hdot : unit '.' ∉ stem := isKebab_not_mem hstem (by decide) (by decide)
  rw [itIdGrammar, startsWith_append, List.drop_left, splitOn_append hdot,
    splitOn_of_not_mem htitle, Bool.true_and]
  change (isKebab stem && _) = _
  rw [hstem, Bool.true_and]

theorem itIdGrammar_bare {stem slug : JsString} (hstem : isKebab stem = true)
    (hslug : isKebab slug = true) :
    itIdGrammar (itIdPrefix ++ (stem ++ unit '.' :: slug)) = true := by
  have htilde : unit '~' ∉ slug := isKebab_not_mem hslug (by decide) (by decide)
  rw [itIdGrammar_append hstem (isKebab_not_mem hslug (by decide) (by decide)),
    splitOn_of_not_mem htilde]
  exact hslug

theorem itIdGrammar_counted {stem slug counter : JsString} (hstem : isKebab stem = true)
    (hslug : isKebab slug = true) (hdigits : ∀ u ∈ counter, isDigit u = true) :
    itIdGrammar (itIdPrefix ++ (stem ++ unit '.' :: (slug ++ unit '~' :: counter))) =
      isCounter counter := by
  have htilde : unit '~' ∉ slug := isKebab_not_mem hslug (by decide) (by decide)
  have hcounter : unit '~' ∉ counter := fun h => absurd (hdigits _ h) (by decide)
  have htitle : unit '.' ∉ slug ++ unit '~' :: counter := by
    rw [List.mem_append, List.mem_cons, not_or, not_or]
    exact ⟨isKebab_not_mem hslug (by decide) (by decide), by decide,
      fun h => absurd (hdigits _ h) (by decide)⟩
  rw [itIdGrammar_append hstem htitle, splitOn_append htilde, splitOn_of_not_mem hcounter]
  change (isKebab slug && isCounter counter) = isCounter counter
  rw [hslug, Bool.true_and]

end Files

section Counters

/-- A positive number is written as a digit other than `0` and further digits. -/
theorem decimal_eq_cons {n : Nat} (h : n ≠ 0) : ∃ d rest, 0 < d ∧ d < 10 ∧
    (∀ u ∈ rest, isDigit u = true) ∧ decimal n = UInt16.ofNat (48 + d) :: rest := by
  have hne : Nat.digits 10 n ≠ [] := Nat.digits_ne_nil_iff_ne_zero.mpr h
  have hlt : ∀ d ∈ Nat.digits 10 n, d < 10 := fun d => Nat.digits_lt_base (by norm_num)
  have hpos : 0 < (Nat.digits 10 n).length := List.length_pos_iff.mpr hne
  have hpad : 1 - (Nat.digits 10 n).length = 0 := by omega
  let front := (Nat.digits 10 n).dropLast
  refine ⟨(Nat.digits 10 n).getLast hne, (front.map fun d => UInt16.ofNat (48 + d)).reverse,
    Nat.pos_of_ne_zero (Nat.getLast_digit_ne_zero 10 h), hlt _ (List.getLast_mem hne), ?_, ?_⟩
  · intro u hu
    obtain ⟨d, hd, rfl⟩ := List.mem_map.mp (List.mem_reverse.mp hu)
    exact isDigit_digitUnit (hlt d (List.mem_of_mem_dropLast hd))
  · rw [decimal, List.rightpad, List.length_reverse, List.length_map, hpad, List.replicate_zero,
      List.append_nil]
    conv_lhs => rw [← List.dropLast_append_getLast hne]
    rw [List.map_append, List.reverse_append]
    rfl

theorem decimal_digits {n : Nat} (h : n ≠ 0) : ∀ u ∈ decimal n, isDigit u = true := by
  obtain ⟨d, rest, -, hd, hrest, heq⟩ := decimal_eq_cons h
  rw [heq, List.forall_mem_cons]
  exact ⟨isDigit_digitUnit hd, hrest⟩

/-- The grammar's counters are the numbers without a leading `1`. -/
theorem isCounter_decimal {n : Nat} (h : n ≠ 0) :
    isCounter (decimal n) = true ↔ (decimal n).head? ≠ some (unit '1') := by
  obtain ⟨d, rest, hpos, hd, hrest, heq⟩ := decimal_eq_cons h
  have hlow : unit '2' ≤ UInt16.ofNat (48 + d) ↔ 50 ≤ 48 + d := by
    rw [UInt16.le_iff_toNat_le, toNat_digitUnit hd]
    rfl
  have hhigh : UInt16.ofNat (48 + d) ≤ unit '9' := by
    rw [UInt16.le_iff_toNat_le, toNat_digitUnit hd]
    change 48 + d ≤ 57
    omega
  have hone : UInt16.ofNat (48 + d) = unit '1' ↔ 48 + d = 49 := by
    rw [← UInt16.toNat_inj, toNat_digitUnit hd]
    rfl
  rw [heq, isCounter, List.head?_cons, Bool.and_eq_true, Bool.and_eq_true, decide_eq_true_eq,
    decide_eq_true_eq, List.all_eq_true, ne_eq, Option.some.injEq, hlow, hone]
  refine ⟨fun hcount => by omega, fun hne => ⟨⟨by omega, hhigh⟩, hrest⟩⟩

end Counters

end OpenWop.RequirementIds
