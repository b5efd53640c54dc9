import OpenWop.Eval.JsonMatch

/-!
# Resolving a localized section

A section holds a base payload and overlays by locale. `resolveSection` looks for the overlay of
the negotiated locale, then of its language and script, then of its language; the algorithm it
amends, `resolveSectionRfc0103`, has no step for scripts. A locale that is no key may still name
something every object inherits, which is truthy and has nothing of its own to spread.
-/

namespace OpenWop.Content

open OpenWop.Js OpenWop.Eval

section Algorithm

/-- `Section`. -/
structure ContentSection where
  data : List (JsString × Json)
  /-- `localizations`, which may be absent or `null`. -/
  localizations : Option (List (JsString × Json))

/-- `section.localizations ?? {}`. -/
def ContentSection.loc (s : ContentSection) : List (JsString × Json) := s.localizations.getD []

/-- The value in a condition. -/
def isTruthy : Accessed → Bool
  | .json .null | .json (.bool false) | .json (.num .nan) | .json (.str []) => false
  | .json (.num (.finite d)) => d.coefficient != 0
  | .json _ => true
  | .undefined => false
  | .function | .objectPrototype => true

/-- The members of a value under its indices. -/
def indexed (values : List Json) : List (JsString × Json) :=
  values.zipIdx.map fun p => (decimal p.2, p.1)

/-- What `...v` copies. -/
def spread : Accessed → List (JsString × Json)
  | .json (.obj members) => members
  | .json (.arr items) => indexed items
  | .json (.str s) => indexed (s.map fun u => .str [u])
  | _ => []

/-- `{ ...data, ...overlay }`. -/
def merged (data : List (JsString × Json)) (overlay : Accessed) : List (JsString × Json) :=
  (spread overlay).foldl (fun out m => Record.set out m.1 m.2) data

/-- `if (loc[key]) return { ...section.data, ...loc[key] }`. -/
def overlay? (s : ContentSection) (key : JsString) : Option (List (JsString × Json)) :=
  (((Accessed.json (.obj s.loc)).access key).filter isTruthy).map (merged s.data)

def isLower (u : UInt16) : Bool := unit 'a' ≤ u && u ≤ unit 'z'

def isUpper (u : UInt16) : Bool := unit 'A' ≤ u && u ≤ unit 'Z'

/-- `new RegExp(LOCALE_KEY_PATTERN_RFC0103).test(key)`. -/
def isLocaleKeyRfc0103 : JsString → Bool
  | [a, b] => isLower a && isLower b
  | [a, b, c, d, e] => isLower a && isLower b && c = unit '-' && isUpper d && isUpper e
  | _ => false

/-- `/^[A-Za-z]{4}$/.test(part)`. -/
def isScript (part : JsString) : Bool :=
  part.length = 4 && part.all fun u => isLower u || isUpper u

/-- The key of the script family of a locale with at least three parts. -/
def scriptFamily? (parts : List JsString) : Option JsString :=
  match parts with
  | language :: script :: _ :: _ =>
    if isScript script then some (language ++ js "-" ++ script) else none
  | _ => none

/-- `resolveSection`. -/
def resolveSection (s : ContentSection) (negotiatedLocale baseLocale : JsString) :
    List (JsString × Json) :=
  if negotiatedLocale = baseLocale ∨ s.loc.length = 0 then s.data
  else
    let parts := splitOn negotiatedLocale (unit '-')
    match overlay? s negotiatedLocale with
    | some content => content
    | none =>
      match (scriptFamily? parts).bind (overlay? s) with
      | some content => content
      | none =>
        if parts.length ≥ 2 then (overlay? s (parts.headD [])).getD s.data else s.data

/-- `resolveSectionRfc0103`. -/
def resolveSectionRfc0103 (s : ContentSection) (negotiatedLocale baseLocale : JsString) :
    List (JsString × Json) :=
  if negotiatedLocale = baseLocale ∨ s.loc.length = 0 then s.data
  else
    match overlay? s negotiatedLocale with
    | some content => content
    | none =>
      if includes negotiatedLocale (js "-") then
        (overlay? s ((splitOn negotiatedLocale (unit '-')).headD [])).getD s.data
      else s.data

end Algorithm

section Agreement

variable {s : ContentSection} {language script : JsString}

/-- No inherited name has a hyphen. -/
theorem access_eq_none_of_hyphen {members : List (JsString × Json)} {key : JsString}
    (hyphen : unit '-' ∈ key) (hkey : key ∉ Record.keys members) :
    (Accessed.json (.obj members)).access key = none := by
  have hnone : ∀ name ∈ proto :: inheritedFunctions, unit '-' ∉ name := by decide
  have hown := Record.get?_eq_none_iff.mpr hkey
  have hproto : key ≠ proto := by
    rintro rfl
    exact hnone proto (List.mem_cons_self ..) hyphen
  have hfunction : key ∉ inheritedFunctions := fun h =>
    hnone key (List.mem_cons_of_mem _ h) hyphen
  rw [Accessed.access]
  simp only [hown, hproto, hfunction, if_false]

/-- A language and a script of four letters make no key of the frozen pattern. -/
theorem not_isLocaleKey_of_script (h : isScript script = true) :
    isLocaleKeyRfc0103 (language ++ js "-" ++ script) = false := by
  have hlength : script.length = 4 := by
    rw [isScript, Bool.and_eq_true, decide_eq_true_eq] at h
    exact h.1
  cases hkey : isLocaleKeyRfc0103 (language ++ js "-" ++ script) with
  | false => rfl
  | true =>
    exfalso
    have hlen : (language ++ js "-" ++ script).length = language.length + 5 := by
      rw [List.length_append, List.length_append, hlength]
      rfl
    unfold isLocaleKeyRfc0103 at hkey
    split at hkey
    · next a b heq =>
      rw [heq] at hlen
      simp at hlen
    · next a b c d e heq =>
      have hnil : language = [] := by
        rw [heq] at hlen
        exact List.length_eq_zero_iff.mp (by simpa using hlen.symm)
      subst hnil
      have ha : a = unit '-' := by
        have hhead := congrArg List.head? heq
        simpa [js, utf16Units, unit] using hhead.symm
      subst ha
      have hlower : isLower (unit '-') = false := by decide
      rw [hlower] at hkey
      simp at hkey
    · cases hkey

/-- In a section of frozen keys there is no script family. -/
theorem overlay?_scriptFamily (h : ∀ key ∈ Record.keys s.loc, isLocaleKeyRfc0103 key = true)
    (parts : List JsString) : (scriptFamily? parts).bind (overlay? s) = none := by
  rw [Option.bind_eq_none_iff]
  intro key hkey
  obtain ⟨language, script, hscript, rfl⟩ : ∃ language script, isScript script = true ∧
      language ++ js "-" ++ script = key := by
    unfold scriptFamily? at hkey
    split at hkey
    · next language script _ _ =>
      split at hkey
      · next hscript => exact ⟨language, script, hscript, Option.some.inj hkey⟩
      · cases hkey
    · cases hkey
  have hnot : language ++ js "-" ++ script ∉ Record.keys s.loc := fun hmem =>
    absurd (h _ hmem) (by rw [not_isLocaleKey_of_script hscript]; decide)
  have hyphen : unit '-' ∈ language ++ js "-" ++ script :=
    List.mem_append_left _ (List.mem_append_right _ (List.mem_singleton_self _))
  rw [overlay?, access_eq_none_of_hyphen hyphen hnot]
  rfl

/-- A locale has several parts exactly when it has a hyphen. -/
theorem two_le_length_parts_iff (locale : JsString) :
    (splitOn locale (unit '-')).length ≥ 2 ↔ includes locale (js "-") = true := by
  rw [show js "-" = [unit '-'] from rfl, includes_singleton]
  constructor
  · intro h
    by_contra hnot
    rw [splitOn_of_not_mem hnot] at h
    simp at h
  · exact two_le_length_splitOn

/-- On every section whose keys match the frozen pattern the amended algorithm returns what the
frozen one returns. -/
theorem resolveSection_eq_rfc0103
    (h : ∀ key ∈ Record.keys s.loc, isLocaleKeyRfc0103 key = true)
    (negotiatedLocale baseLocale : JsString) :
    resolveSection s negotiatedLocale baseLocale =
      resolveSectionRfc0103 s negotiatedLocale baseLocale := by
  rw [resolveSection, resolveSectionRfc0103]
  split
  · rfl
  · dsimp only
    rw [overlay?_scriptFamily h]
    dsimp only
    simp only [two_le_length_parts_iff]

/-- A section with a language, and a locale with a script and a region. -/
theorem resolveSection_portuguese :
    resolveSection ⟨[(js "h", .str (js "a"))],
        some [(js "pt", .obj [(js "h", .str (js "b"))]), (js "pt-BR", .obj [])]⟩
      (js "pt-Latn-PT") (js "en") =
    resolveSectionRfc0103 ⟨[(js "h", .str (js "a"))],
        some [(js "pt", .obj [(js "h", .str (js "b"))]), (js "pt-BR", .obj [])]⟩
      (js "pt-Latn-PT") (js "en") :=
  resolveSection_eq_rfc0103 (by decide) (js "pt-Latn-PT") (js "en")

end Agreement

end OpenWop.Content
