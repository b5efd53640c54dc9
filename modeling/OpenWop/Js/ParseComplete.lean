import OpenWop.Js.ParseSound

/-!
# What is admitted is accepted

Every admitted text of the grammar is read to the end of its tree, when what follows
cannot extend a number and the fuel covers the text. No reader that is given this much
fuel stops for want of it.
-/

namespace OpenWop.Js

open Grammar

section Tokens

/-- What can follow a value: whitespace, a comma or the end of an array or an object. -/
def Follows (r : JsString) : Prop :=
  ∀ u ∈ r.head?, isWs u = true ∨ u = unit ',' ∨ u = unit ']' ∨ u = unit '\x7d'

theorem follows_nil : Follows [] := fun _ h => nomatch h

theorem follows_cons {u : UInt16} {r : JsString}
    (h : isWs u = true ∨ u = unit ',' ∨ u = unit ']' ∨ u = unit '\x7d') : Follows (u :: r) := by
  rintro v ⟨⟩
  exact h

theorem Follows.ws {w r : JsString} (hw : Ws w) (h : Follows r) : Follows (w ++ r) := by
  cases w with
  | nil => exact h
  | cons u w => exact follows_cons (Or.inl (hw u List.mem_cons_self))

/-- What can follow a value does not extend a number. -/
theorem Follows.head {r : JsString} (h : Follows r) : ∀ u ∈ r.head?, isDigit u = false ∧
    u ≠ unit '.' ∧ u ≠ unit 'e' ∧ u ≠ unit 'E' := by
  intro u hu
  rcases h u hu with hw | rfl | rfl | rfl
  · simp only [isWs, Bool.or_eq_true, decide_eq_true_eq] at hw
    rcases hw with ((rfl | rfl) | rfl) | rfl <;> decide
  all_goals decide

theorem skipWs_append {w s : JsString} (hw : Ws w) (hs : ∀ u ∈ s.head?, isWs u = false) :
    skipWs (w ++ s) = s := by
  rw [skipWs, List.dropWhile_append_of_pos hw]
  cases s with
  | nil => rfl
  | cons u s => exact List.dropWhile_cons_of_neg (by simp [hs u rfl])

theorem spanDigits_append {ds r : JsString} (hds : ∀ u ∈ ds, isDigit u = true)
    (hr : ∀ u ∈ r.head?, isDigit u = false) : spanDigits (ds ++ r) = (ds, r) := by
  rw [spanDigits, List.span_eq_takeWhile_dropWhile, List.takeWhile_append_of_pos hds,
    List.dropWhile_append_of_pos hds]
  cases r with
  | nil => simp
  | cons u r =>
    rw [List.takeWhile_cons_of_neg (by simp [hr u rfl]), List.dropWhile_cons_of_neg (by simp [hr u rfl]),
      List.append_nil]

theorem matchInteger_complete {i r : JsString} (h : IsInteger i)
    (hr : ∀ u ∈ r.head?, isDigit u = false) : matchInteger (i ++ r) = some (i, r) := by
  rcases h with rfl | ⟨⟨hne, hdigits⟩, hhead⟩
  · rfl
  · cases i with
    | nil => exact absurd rfl hne
    | cons u ds =>
      rw [List.forall_mem_cons] at hdigits
      have hu : u ≠ unit '0' := by simpa using hhead
      rw [List.cons_append, matchInteger, if_neg hu, if_pos hdigits.1, spanDigits_append hdigits.2 hr]

theorem matchFraction_complete {f : Option JsString} {r : JsString} (h : ∀ s ∈ f, IsDigits s)
    (hr : ∀ u ∈ r.head?, isDigit u = false ∧ u ≠ unit '.') :
    matchFraction ((f.map (unit '.' :: ·)).getD [] ++ r) = (f, r) := by
  cases f with
  | none =>
    cases r with
    | nil => rfl
    | cons u r => simp [matchFraction, (hr u rfl).2]
  | some s =>
    obtain ⟨hne, hdigits⟩ := h s rfl
    rw [Option.map_some, Option.getD_some, List.cons_append, matchFraction,
      spanDigits_append hdigits fun u hu => (hr u hu).1]
    simp [hne]

theorem matchSign_complete {sign : Option UInt16} {r : JsString}
    (h : ∀ u ∈ sign, u = unit '+' ∨ u = unit '-') (hr : ∀ u ∈ r.head?, isDigit u = true) :
    matchSign (sign.toList ++ r) = (sign, r) := by
  cases sign with
  | none =>
    cases r with
    | nil => rfl
    | cons u r =>
      have hne : ∀ v, isDigit v = false → u ≠ v := by
        rintro v hv rfl
        rw [hr u rfl] at hv
        cases hv
      simp [matchSign, hne (unit '+') (by decide), hne (unit '-') (by decide)]
  | some u =>
    rw [Option.toList_some, List.singleton_append, matchSign, if_pos]
    simpa using h u rfl

theorem matchExponent_complete {x : Option ExponentPart} {r : JsString} (h : ∀ y ∈ x, y.Valid)
    (hr : Follows r) : matchExponent ((x.map ExponentPart.text).getD [] ++ r) = (x, r) := by
  cases x with
  | none =>
    cases r with
    | nil => rfl
    | cons u r =>
      obtain ⟨_, _, he, hE⟩ := hr.head u rfl
      simp [matchExponent, he, hE]
  | some y =>
    obtain ⟨marker, sign, digits⟩ := y
    obtain ⟨hmarker, hsign, hne, hdigits⟩ := h _ rfl
    dsimp only at hmarker hsign hne hdigits
    have hspan := spanDigits_append hdigits fun u hu => (hr.head u hu).1
    have hfirst : ∀ u ∈ (digits ++ r).head?, isDigit u = true := by
      intro u hu
      rw [List.head?_append_of_ne_nil _ hne] at hu
      exact hdigits u (List.mem_of_mem_head? hu)
    rw [Option.map_some, Option.getD_some, ExponentPart.text, List.cons_append, List.append_assoc,
      matchExponent]
    simp only [matchSign_complete hsign hfirst, hspan]
    rw [if_pos]
    simpa [hne] using hmarker

/-- What follows the fraction of a literal does not extend it. -/
theorem head_exponent {x : Option ExponentPart} {r : JsString} (h : ∀ y ∈ x, y.Valid)
    (hr : Follows r) : ∀ u ∈ ((x.map ExponentPart.text).getD [] ++ r).head?,
      isDigit u = false ∧ u ≠ unit '.' := by
  intro u hu
  cases x with
  | none => exact ⟨(hr.head u hu).1, (hr.head u hu).2.1⟩
  | some y =>
    obtain rfl : y.marker = u := Option.some.inj hu
    rcases (h y rfl).marker with he | hE
    · rw [he]
      decide
    · rw [hE]
      decide

/-- What follows the integer part of a literal does not extend it. -/
theorem head_fraction {f : Option JsString} {r : JsString}
    (hr : ∀ u ∈ r.head?, isDigit u = false ∧ u ≠ unit '.') :
    ∀ u ∈ ((f.map (unit '.' :: ·)).getD [] ++ r).head?, isDigit u = false := by
  intro u hu
  cases f with
  | none => exact (hr u hu).1
  | some s =>
    obtain rfl : unit '.' = u := Option.some.inj hu
    decide

theorem IsInteger.exists_cons {i : JsString} (h : IsInteger i) :
    ∃ u s, i = u :: s ∧ isDigit u = true := by
  rcases h with rfl | ⟨⟨hne, hdigits⟩, _⟩
  · exact ⟨unit '0', [], rfl, by decide⟩
  · obtain ⟨u, s, rfl⟩ := List.exists_cons_of_ne_nil hne
    exact ⟨u, s, rfl, hdigits u List.mem_cons_self⟩

theorem matchMinus_complete (negative : Bool) {i r : JsString} (h : IsInteger i) :
    matchMinus ((if negative then [unit '-'] else []) ++ (i ++ r)) = (negative, i ++ r) := by
  obtain ⟨u, s, rfl, hu⟩ := h.exists_cons
  cases negative with
  | true => rfl
  | false =>
    have hne : u ≠ unit '-' := by
      rintro rfl
      exact absurd hu (by decide)
    exact if_neg hne

/-- A literal is matched, up to what cannot extend it. -/
theorem matchNumber_complete {l : NumberLiteral} (h : l.Valid) {r : JsString} (hr : Follows r) :
    matchNumber (l.text ++ r) = some (l, r) := by
  have hexponent := matchExponent_complete h.exponent hr
  have hfraction := matchFraction_complete h.fraction (head_exponent h.exponent hr)
  have hinteger := matchInteger_complete h.integer
    (head_fraction (f := l.fraction) (head_exponent h.exponent hr))
  have htext : l.text ++ r = (if l.negative then [unit '-'] else []) ++ (l.integer ++
      ((l.fraction.map (unit '.' :: ·)).getD [] ++
        ((l.exponent.map ExponentPart.text).getD [] ++ r))) := by
    simp [NumberLiteral.text, NumberLiteral.fractionText, NumberLiteral.exponentText]
  rw [htext, matchNumber, matchMinus_complete l.negative h.integer, hinteger, Option.map_some]
  simp only [hfraction, hexponent]

theorem readNumber_complete {l : NumberLiteral} (h : l.Valid)
    (hadmitted : JsonTree.literalAdmitted l = true) (n : Nat) {r : JsString} (hr : Follows r) :
    readNumber n (l.text ++ r) = .ok (.num l.value, r) := by
  simp only [JsonTree.literalAdmitted, Bool.and_eq_true, Bool.or_eq_true, Bool.not_eq_true',
    decide_eq_true_eq] at hadmitted
  rw [readNumber, matchNumber_complete h hr]
  have hrange : (l.isInteger && JsonTree.maxExact < digitsValue l.integer) = false := by
    rcases hadmitted.1 with hi | hle
    · rw [hi, Bool.false_and]
    · rw [decide_eq_false (by omega), Bool.and_false]
  dsimp only
  rw [hrange, if_neg (by decide)]
  cases hv : l.value with
  | finite d => rfl
  | nan =>
    rw [hv] at hadmitted
    exact absurd hadmitted.2 (by decide)
  | infinity b =>
    rw [hv] at hadmitted
    exact absurd hadmitted.2 (by simp)

/-- A text of units is scanned up to its closing quote. -/
theorem scanString_complete {x out : JsString} (h : Chars x out) (n : Nat) (r : JsString) :
    scanString n (x ++ unit '"' :: r) = .ok (out, r) := by
  induction h with
  | nil => rw [List.nil_append, scanString.eq_def]; simp
  | unescaped control quote backslash _ ih =>
    rw [List.cons_append, scanString.eq_def]
    simp only [quote, backslash, control, if_false, ih]
    rfl
  | @escape e u x s short _ ih =>
    have hne : e ≠ unit 'u' := by
      rintro rfl
      cases short
    rw [List.cons_append, List.cons_append, scanString.eq_def]
    simp only [hne, if_false, if_true, short, ih]
    rfl
  | unicode hex _ ih =>
    simp only [List.cons_append]
    rw [scanString.eq_def]
    simp only [if_true, List.all_eq_true.mpr hex, ih]
    rfl

/-- A string without lone surrogates is read, whatever follows it. -/
theorem readString_complete {x out : JsString} (h : Str x out) (hwf : isWellFormed out = true)
    (n : Nat) (r : JsString) : readString n (x ++ r) = .ok (out, r) := by
  obtain ⟨hx⟩ := h
  rw [List.cons_append, List.append_assoc, List.singleton_append, readString, if_pos rfl,
    scanString_complete hx]
  have hcheck := checkString_eq_ok.mpr hwf
  simp only [bind, Except.bind, hcheck]
  rfl

end Tokens

section Values

/-- Every admitted text of the tree is read, after whitespace and before what can follow it. -/
def ReadComplete (t : JsonTree) : Prop := ∀ x, Value x t → t.isAdmitted = true →
  ∀ n fuel w r, Ws w → Follows r → 2 * (w ++ (x ++ r)).length + 2 ≤ fuel →
    readValue n fuel (w ++ (x ++ r)) = .ok (t.value, r)

theorem NumberLiteral.Valid.exists_cons {l : NumberLiteral} (h : l.Valid) :
    ∃ c s, l.text = c :: s ∧ (c = unit '-' ∨ isDigit c = true) := by
  obtain ⟨u, s, hi, hu⟩ := h.integer.exists_cons
  rw [NumberLiteral.text, hi]
  cases l.negative with
  | true => exact ⟨unit '-', _, rfl, Or.inl rfl⟩
  | false => exact ⟨u, _, rfl, Or.inr hu⟩

theorem not_ws_of_isDigit {c : UInt16} (h : isDigit c = true) : isWs c = false := by
  rw [← Bool.not_eq_true]
  intro hw
  simp only [isWs, Bool.or_eq_true, decide_eq_true_eq] at hw
  rcases hw with ((rfl | rfl) | rfl) | rfl <;> exact absurd h (by decide)

/-- A value starts with a unit that is no whitespace and ends nothing. -/
theorem exists_cons_of_value {x : JsString} {t : JsonTree} (h : Value x t) :
    ∃ c s, x = c :: s ∧ isWs c = false ∧ c ≠ unit ']' := by
  cases h with
  | num hl =>
    obtain ⟨c, s, hx, hc⟩ := hl.exists_cons
    refine ⟨c, s, hx, ?_⟩
    rcases hc with rfl | hd
    · decide
    · refine ⟨not_ws_of_isDigit hd, ?_⟩
      rintro rfl
      exact absurd hd (by decide)
  | str hs =>
    obtain ⟨hs⟩ := hs
    exact ⟨_, _, rfl, by decide, by decide⟩
  | _ => exact ⟨_, _, rfl, by decide, by decide⟩

theorem head_value_append {x : JsString} {t : JsonTree} (h : Value x t) (s : JsString) :
    (∀ u ∈ (x ++ s).head?, isWs u = false) ∧ (x ++ s).head? ≠ some (unit ']') := by
  obtain ⟨c, y, rfl, hws, hne⟩ := exists_cons_of_value h
  constructor
  · rintro u ⟨⟩
    exact hws
  · simpa using hne

/-- An element is read up to a delimiter, but for the whitespace before that. -/
theorem ReadComplete.element {t : JsonTree} (h : ReadComplete t) (hadmitted : t.isAdmitted = true)
    {x : JsString} (hx : Element x t) {d : UInt16} (hd : d = unit ',' ∨ d = unit ']' ∨ d = unit '\x7d')
    (n fuel : Nat) (s : JsString) (hfuel : 2 * (x ++ d :: s).length + 2 ≤ fuel) :
    ∃ r, readValue n fuel (x ++ d :: s) = .ok (t.value, r) ∧ skipWs r = d :: s := by
  obtain ⟨hw, hy, hw'⟩ := hx
  rename_i w w' y
  have hfollows : Follows (w' ++ d :: s) := Follows.ws hw' (follows_cons (Or.inr hd))
  refine ⟨w' ++ d :: s, ?_, skipWs_append hw' ?_⟩
  · rw [List.append_assoc, List.append_assoc] at hfuel ⊢
    exact h y hy hadmitted n fuel w _ hw hfollows hfuel
  · rintro u ⟨⟩
    rcases hd with rfl | rfl | rfl <;> decide

/-- Elements are read up to the end of the array. -/
theorem readItems_complete {ts : List JsonTree} (ih : ∀ t ∈ ts, ReadComplete t)
    (hadmitted : ∀ t ∈ ts, t.isAdmitted = true) {x : JsString} (h : Elements x ts) (n fuel : Nat)
    (r : JsString) (hfuel : 2 * (x ++ unit ']' :: r).length + 3 ≤ fuel) :
    readItems n fuel (x ++ unit ']' :: r) = .ok (ts.map JsonTree.value, r) := by
  induction ts generalizing x fuel with
  | nil => cases h
  | cons t ts ihts =>
    obtain ⟨fuel, rfl⟩ : ∃ f, fuel = f + 1 := ⟨fuel - 1, by omega⟩
    rw [List.forall_mem_cons] at ih hadmitted
    cases h with
    | one h =>
      obtain ⟨r', hread, hskip⟩ := ih.1.element hadmitted.1 h (d := unit ']') (by simp) n fuel r
        (by omega)
      rw [readItems, hread]
      simp only [bind, Except.bind, hskip]
      rfl
    | @cons y z _ _ h hs =>
      rw [List.append_assoc, List.cons_append] at hfuel ⊢
      simp only [List.length_append, List.length_cons] at hfuel
      obtain ⟨r', hread, hskip⟩ := ih.1.element hadmitted.1 h (d := unit ',') (by simp) n fuel
        (z ++ unit ']' :: r) (by simp only [List.length_append, List.length_cons]; omega)
      have hrest := ihts ih.2 hadmitted.2 hs fuel
        (by simp only [List.length_append, List.length_cons]; omega)
      rw [readItems, hread]
      simp only [bind, Except.bind, hskip, hrest]
      rfl

/-- Members with distinct new names are read up to the end of the object. -/
theorem readMembers_complete {ms : List (JsString × JsonTree)} (ih : ∀ m ∈ ms, ReadComplete m.2)
    (hadmitted : ∀ m ∈ ms, isWellFormed m.1 = true ∧ m.2.isAdmitted = true)
    (hnodup : (Record.keys ms).Nodup) (seen : List JsString) (hseen : ∀ k ∈ Record.keys ms, k ∉ seen)
    {x : JsString} (h : Members x ms) (n fuel : Nat) (r : JsString)
    (hfuel : 2 * (x ++ unit '\x7d' :: r).length + 3 ≤ fuel) :
    readMembers n fuel seen (x ++ unit '\x7d' :: r) = .ok (JsonTree.memberValues ms, r) := by
  induction ms generalizing x fuel seen with
  | nil => cases h
  | cons m ms ihms =>
    obtain ⟨fuel, rfl⟩ : ∃ f, fuel = f + 1 := ⟨fuel - 1, by omega⟩
    obtain ⟨k, t⟩ := m
    rw [List.forall_mem_cons] at ih hadmitted
    rw [Record.keys_cons, List.nodup_cons] at hnodup
    rw [Record.keys_cons, List.forall_mem_cons] at hseen
    -- The name and the colon are read alike whatever ends the member.
    have hname : ∀ {w w' y : JsString} (s : JsString), Ws w → Str y k → Ws w' →
        readString n (skipWs (w ++ (y ++ (w' ++ unit ':' :: s)))) = .ok (k, w' ++ unit ':' :: s) ∧
          skipWs (w' ++ unit ':' :: s) = unit ':' :: s := by
      intro w w' y s hw hy hw'
      rw [skipWs_append hw, skipWs_append hw']
      · exact ⟨readString_complete hy hadmitted.1.1 n _, rfl⟩
      · rintro u ⟨⟩
        decide
      · obtain ⟨_⟩ := hy
        rintro u ⟨⟩
        decide
    cases h with
    | one h =>
      obtain ⟨hw, hy, hw', hx⟩ := h
      rename_i w w' y z
      simp only [List.append_assoc, List.cons_append] at hfuel ⊢
      obtain ⟨hkey, hcolon⟩ := hname (z ++ unit '\x7d' :: r) hw hy hw'
      simp only [List.length_append, List.length_cons] at hfuel
      obtain ⟨r', hread, hskip⟩ := ih.1.element hadmitted.1.2 hx (d := unit '\x7d') (by simp) n
        fuel r (by simp only [List.length_append, List.length_cons]; omega)
      rw [readMembers, hkey]
      simp only [bind, Except.bind, hseen.1, if_false, hcolon, hread, hskip]
      rfl
    | @cons y' z' _ _ h hs =>
      obtain ⟨hw, hy, hw', hx⟩ := h
      rename_i w w' y z
      simp only [List.append_assoc, List.cons_append] at hfuel ⊢
      obtain ⟨hkey, hcolon⟩ := hname (z ++ unit ',' :: (z' ++ unit '\x7d' :: r)) hw hy hw'
      simp only [List.length_append, List.length_cons] at hfuel
      obtain ⟨r', hread, hskip⟩ := ih.1.element hadmitted.1.2 hx (d := unit ',') (by simp) n
        fuel (z' ++ unit '\x7d' :: r)
        (by simp only [List.length_append, List.length_cons]; omega)
      have hrest := ihms ih.2 hadmitted.2 hnodup.2 (k :: seen)
        (fun k' hk' hmem => (List.mem_cons.mp hmem).elim (fun he => hnodup.1 (he ▸ hk'))
          (hseen.2 k' hk')) hs fuel (by simp only [List.length_append, List.length_cons]; omega)
      rw [readMembers, hkey]
      simp only [bind, Except.bind, hseen.1, if_false, hcolon, hread, hskip, hrest]
      rfl

/-- The text less the whitespace it starts with. -/
structure Skipped (x y : JsString) (close : UInt16) : Prop where
  skip : ∀ s, skipWs (x ++ s) = y ++ s
  length : y.length ≤ x.length
  head : ∀ s, (y ++ s).head? ≠ some close

theorem elements_skip {x : JsString} {ts : List JsonTree} (h : Elements x ts) :
    ∃ y, Elements y ts ∧ Skipped x y (unit ']') := by
  -- The whitespace before the first value is left out, whatever follows that value.
  have hskip : ∀ {w z : JsString} {t : JsonTree} (s' : JsString), Ws w → Value z t →
      Skipped (w ++ (z ++ s')) (z ++ s') (unit ']') := by
    intro w z t s' hw hz
    refine ⟨fun s => ?_, by simp, fun s => ?_⟩
    · rw [List.append_assoc, List.append_assoc]
      exact skipWs_append hw (head_value_append hz _).1
    · rw [List.append_assoc]
      exact (head_value_append hz _).2
  cases h with
  | one h =>
    obtain ⟨hw, hz, hw'⟩ := h
    exact ⟨_, .one (.value (w := []) (by simp [Ws]) hz hw'), hskip _ hw hz⟩
  | cons h hs =>
    obtain ⟨hw, hz, hw'⟩ := h
    refine ⟨_, .cons (.value (w := []) (by simp [Ws]) hz hw') hs, ?_⟩
    simp only [List.nil_append, List.append_assoc]
    exact hskip _ hw hz

theorem members_skip {x : JsString} {ms : List (JsString × JsonTree)} (h : Members x ms) :
    ∃ y, Members y ms ∧ Skipped x y (unit '\x7d') := by
  have hskip : ∀ {w z k : JsString} (s' : JsString), Ws w → Str z k →
      Skipped (w ++ (z ++ s')) (z ++ s') (unit '\x7d') := by
    intro w z k s' hw hz
    obtain ⟨_⟩ := hz
    refine ⟨fun s => ?_, by simp, fun s => by simp; decide⟩
    rw [List.append_assoc]
    refine skipWs_append hw ?_
    rintro u ⟨⟩
    decide
  cases h with
  | one h =>
    obtain ⟨hw, hz, hw', ht⟩ := h
    exact ⟨_, .one (.named (w := []) (by simp [Ws]) hz hw' ht), hskip _ hw hz⟩
  | cons h hs =>
    obtain ⟨hw, hz, hw', ht⟩ := h
    refine ⟨_, .cons (.named (w := []) (by simp [Ws]) hz hw' ht) hs, ?_⟩
    simp only [List.nil_append, List.append_assoc]
    exact hskip _ hw hz

theorem startsWith_cons_of_ne {c u : UInt16} (h : u ≠ c) (s name : JsString) :
    startsWith (c :: s) (u :: name) = false := by
  simp [startsWith, List.isPrefixOf, h]

/-- A number is read where its literal starts. -/
theorem readValue_number {c : UInt16} (hc : c = unit '-' ∨ isDigit c = true) (n fuel : Nat)
    {s rest : JsString} (hskip : skipWs s = c :: rest) :
    readValue n (fuel + 1) s = readNumber n (c :: rest) := by
  have hne : ∀ v, isDigit v = false → v ≠ unit '-' → c ≠ v := by
    rintro v hv hm rfl
    rcases hc with rfl | hd
    · exact hm rfl
    · rw [hd] at hv
      cases hv
  have htrue : startsWith (c :: rest) (js "true") = false :=
    startsWith_cons_of_ne (hne (unit 't') (by decide) (by decide)).symm rest (js "rue")
  have hfalse : startsWith (c :: rest) (js "false") = false :=
    startsWith_cons_of_ne (hne (unit 'f') (by decide) (by decide)).symm rest (js "alse")
  have hnull : startsWith (c :: rest) (js "null") = false :=
    startsWith_cons_of_ne (hne (unit 'n') (by decide) (by decide)).symm rest (js "ull")
  rw [readValue, hskip]
  dsimp only
  rw [if_neg (hne _ (by decide) (by decide)), if_neg (hne _ (by decide) (by decide)),
    if_neg (hne _ (by decide) (by decide)), htrue, hfalse, hnull, if_neg (by decide),
    if_neg (by decide), if_neg (by decide), if_pos]
  simpa using hc

/-- It is enough to read the tree from where its text starts. -/
theorem readComplete_of_skip {t : JsonTree} (h : ∀ x, Value x t → t.isAdmitted = true →
    ∀ n fuel s r, skipWs s = x ++ r → Follows r → 2 * (x ++ r).length + 1 ≤ fuel →
      readValue n (fuel + 1) s = .ok (t.value, r)) : ReadComplete t := by
  intro x hx hadmitted n fuel w r hw hr hfuel
  obtain ⟨fuel, rfl⟩ : ∃ f, fuel = f + 1 := ⟨fuel - 1, by omega⟩
  refine h x hx hadmitted n fuel _ r (skipWs_append hw (head_value_append hx r).1) hr ?_
  rw [List.length_append] at hfuel
  omega

theorem readComplete_arr {items : List JsonTree} (ih : ∀ t ∈ items, ReadComplete t) :
    ReadComplete (.arr items) := by
  refine readComplete_of_skip fun x hx hadmitted n fuel s r hskip hr hfuel => ?_
  rw [JsonTree.isAdmitted, JsonTree.itemsAdmitted_iff] at hadmitted
  rw [readValue, hskip, JsonTree.value, JsonTree.itemValues_eq]
  cases hx with
  | @emptyArr w hw =>
    have hclose : skipWs (w ++ [unit ']'] ++ r) = unit ']' :: r := by
      rw [List.append_assoc]
      exact skipWs_append hw (by rintro u ⟨⟩; decide)
    simp only [List.cons_append, hclose]
    rfl
  | @arr z _ hz =>
    obtain ⟨y, hy, hskipped⟩ := elements_skip hz
    have hopen : skipWs (z ++ [unit ']'] ++ r) = y ++ unit ']' :: r := by
      rw [List.append_assoc, hskipped.skip]
      rfl
    have hlength := hskipped.length
    simp only [List.length_append, List.length_cons, List.length_nil] at hfuel
    have hread := readItems_complete ih hadmitted hy n fuel r
      (by simp only [List.length_append, List.length_cons]; omega)
    simp only [List.cons_append, hopen]
    rw [if_neg (by decide), if_pos trivial, if_neg (hskipped.head _), hread]
    rfl

theorem readComplete_obj {members : List (JsString × JsonTree)}
    (ih : ∀ m ∈ members, ReadComplete m.2) : ReadComplete (.obj members) := by
  refine readComplete_of_skip fun x hx hadmitted n fuel s r hskip hr hfuel => ?_
  rw [JsonTree.isAdmitted, Bool.and_eq_true, decide_eq_true_eq, JsonTree.membersAdmitted_iff]
    at hadmitted
  rw [readValue, hskip, JsonTree.value]
  cases hx with
  | @emptyObj w hw =>
    have hclose : skipWs (w ++ [unit '\x7d'] ++ r) = unit '\x7d' :: r := by
      rw [List.append_assoc]
      exact skipWs_append hw (by rintro u ⟨⟩; decide)
    simp only [List.cons_append, hclose]
    rfl
  | @obj z _ hz =>
    obtain ⟨y, hy, hskipped⟩ := members_skip hz
    have hopen : skipWs (z ++ [unit '\x7d'] ++ r) = y ++ unit '\x7d' :: r := by
      rw [List.append_assoc, hskipped.skip]
      rfl
    have hlength := hskipped.length
    simp only [List.length_append, List.length_cons, List.length_nil] at hfuel
    have hread := readMembers_complete ih hadmitted.2 hadmitted.1 [] (by simp) hy n
      fuel r (by simp only [List.length_append, List.length_cons]; omega)
    simp only [List.cons_append, hopen]
    rw [if_pos trivial, if_neg (hskipped.head _), hread]
    rfl

/-- Every tree is read from each of its texts. -/
theorem readValue_complete (t : JsonTree) : ReadComplete t := by
  induction t with
  | null =>
    refine readComplete_of_skip fun x hx hadmitted n fuel s r hskip hr hfuel => ?_
    cases hx
    rw [readValue, hskip]
    rfl
  | bool b =>
    refine readComplete_of_skip fun x hx hadmitted n fuel s r hskip hr hfuel => ?_
    rw [readValue, hskip]
    cases hx with
    | true => rfl
    | false => rfl
  | num l =>
    refine readComplete_of_skip fun x hx hadmitted n fuel s r hskip hr hfuel => ?_
    cases hx with
    | num hvalid =>
      obtain ⟨c, z, hl, hc⟩ := hvalid.exists_cons
      have hcons : l.text ++ r = c :: (z ++ r) := by rw [hl, List.cons_append]
      rw [readValue_number hc n fuel (hskip.trans hcons), ← hcons]
      exact readNumber_complete hvalid hadmitted n hr
  | str out =>
    refine readComplete_of_skip fun x hx hadmitted n fuel s r hskip hr hfuel => ?_
    cases hx with
    | str hs =>
      have hread := readString_complete hs hadmitted n r
      obtain ⟨_⟩ := hs
      rw [readValue, hskip]
      simp only [List.cons_append] at hread ⊢
      rw [if_neg (by decide), if_neg (by decide), if_pos trivial, hread]
      rfl
  | arr items ih => exact readComplete_arr ih
  | obj members ih => exact readComplete_obj ih

/-- What is admitted is parsed to its value. -/
theorem parseIJson_complete {text : JsString} {t : JsonTree} (h : Text text t)
    (hadmitted : t.isAdmitted = true) : parseIJson text = .ok t.value := by
  obtain ⟨hw, hx, hw'⟩ := h
  rename_i w w' x
  have hfollows : Follows w' := by
    have hend := Follows.ws hw' follows_nil
    rwa [List.append_nil] at hend
  have hskip : skipWs w' = [] := by
    have hend := skipWs_append (s := []) hw' (by simp)
    rwa [List.append_nil] at hend
  rw [parseIJson, readValue_complete t x hx hadmitted _ _ w w' hw hfollows le_rfl]
  simp only [bind, Except.bind, hskip]
  rfl

end Values

section Fuel

variable {α β : Type}

/-- The reader returns or refuses. -/
def Settles (r : Parse α) : Prop := r ≠ .error .outOfFuel

theorem settles_ok (a : α) : Settles (.ok a : Parse α) := fun h => nomatch h

theorem settles_refused (refusal : JcsRefusal) : Settles (.error (.refused refusal) : Parse α) :=
  fun h => nomatch h

theorem Settles.bind {r : Parse α} {f : α → Parse β} (h : Settles r)
    (hf : ∀ a, r = .ok a → Settles (f a)) : Settles (r >>= f) := by
  cases r with
  | ok a => exact hf a rfl
  | error stop =>
    cases stop with
    | refused refusal => exact settles_refused refusal
    | outOfFuel => exact absurd rfl h

theorem settles_scanString (n : Nat) (s : JsString) : Settles (scanString n s) := by
  fun_induction scanString n s with
  | case4 _ _ _ _ _ _ _ ih => exact ih.bind fun _ _ => settles_ok _
  | case7 _ _ _ _ _ _ ih => exact ih.bind fun _ _ => settles_ok _
  | case10 _ _ _ _ _ ih => exact ih.bind fun _ _ => settles_ok _
  | case2 => exact settles_ok _
  | _ => exact settles_refused _

theorem settles_readString (n : Nat) (s : JsString) : Settles (readString n s) := by
  have hcheck : ∀ out, Settles (checkString out) := by
    intro out
    unfold checkString
    split
    · exact settles_ok _
    · exact settles_refused _
  cases s with
  | nil => exact settles_refused _
  | cons q s =>
    rw [readString]
    split
    · exact (settles_scanString n s).bind fun _ _ => (hcheck _).bind fun _ _ => settles_ok _
    · exact settles_refused _

theorem settles_readNumber (n : Nat) (s : JsString) : Settles (readNumber n s) := by
  unfold readNumber
  split
  · exact settles_refused _
  · split
    · exact settles_refused _
    · split
      · exact settles_ok _
      · exact settles_refused _

/-- A value leaves less than it was given. -/
theorem length_of_readValue {n fuel : Nat} {s r : JsString} {v : Json}
    (h : readValue n fuel s = .ok (v, r)) : r.length < s.length := by
  obtain ⟨w, x, t, _, hx, _, _, rfl⟩ := (reads_sound fuel).1 n s v r h
  obtain ⟨c, y, rfl, _⟩ := exists_cons_of_value hx
  simp only [List.length_append, List.length_cons]
  omega

theorem length_skipWs_le (s : JsString) : (skipWs s).length ≤ s.length :=
  List.length_dropWhile_le ..

theorem length_of_readString {n : Nat} {s r out : JsString} (h : readString n s = .ok (out, r)) :
    r.length < s.length := by
  obtain ⟨x, hx, _, rfl⟩ := readString_sound h
  obtain ⟨_⟩ := hx
  simp only [List.length_append, List.length_cons]
  omega

/-- With two units of fuel for each unit of text every reader settles. -/
theorem reads_settle (n fuel : Nat) :
    (∀ s : JsString, 2 * s.length + 2 ≤ fuel → Settles (readValue n fuel s)) ∧
    (∀ s : JsString, 2 * s.length + 3 ≤ fuel → Settles (readItems n fuel s)) ∧
    (∀ seen (s : JsString), 2 * s.length + 3 ≤ fuel → Settles (readMembers n fuel seen s)) := by
  induction fuel with
  | zero => exact ⟨fun _ h => by omega, fun _ h => by omega, fun _ _ h => by omega⟩
  | succ fuel ih =>
    obtain ⟨hvalue, hitems, hmembers⟩ := ih
    refine ⟨fun s hs => ?_, fun s hs => ?_, fun seen s hs => ?_⟩
    · rw [readValue]
      have hskip := length_skipWs_le s
      cases hc : skipWs s with
      | nil => exact settles_refused _
      | cons c rest =>
        rw [hc, List.length_cons] at hskip
        have hrest := length_skipWs_le rest
        dsimp only
        split
        · split
          · exact settles_ok _
          · exact (hmembers _ _ (by omega)).bind fun _ _ => settles_ok _
        split
        · split
          · exact settles_ok _
          · exact (hitems _ (by omega)).bind fun _ _ => settles_ok _
        split
        · exact (settles_readString _ _).bind fun _ _ => settles_ok _
        split
        · exact settles_ok _
        split
        · exact settles_ok _
        split
        · exact settles_ok _
        split
        · exact settles_readNumber _ _
        · exact settles_refused _
    · rw [readItems]
      refine (hvalue s (by omega)).bind fun p hp => ?_
      have hlt := length_of_readValue hp
      have hskip := length_skipWs_le p.2
      dsimp only
      cases hd : skipWs p.2 with
      | nil => exact settles_refused _
      | cons d rest =>
        rw [hd, List.length_cons] at hskip
        dsimp only
        split
        · exact settles_ok _
        split
        · exact (hitems _ (by omega)).bind fun _ _ => settles_ok _
        · exact settles_refused _
    · rw [readMembers]
      refine (settles_readString _ _).bind fun p hp => ?_
      have hlt := length_of_readString hp
      have hskip := length_skipWs_le s
      have hskip' := length_skipWs_le p.2
      dsimp only
      split
      · exact settles_refused _
      cases hc : skipWs p.2 with
      | nil => exact settles_refused _
      | cons c rest =>
        rw [hc, List.length_cons] at hskip'
        dsimp only
        split
        swap
        · exact settles_refused _
        refine (hvalue rest (by omega)).bind fun q hq => ?_
        have hlt' := length_of_readValue hq
        have hskip'' := length_skipWs_le q.2
        cases hd : skipWs q.2 with
        | nil => exact settles_refused _
        | cons d rest' =>
          rw [hd, List.length_cons] at hskip''
          dsimp only
          split
          · exact settles_ok _
          split
          · exact (hmembers _ _ (by omega)).bind fun _ _ => settles_ok _
          · exact settles_refused _

/-- Every text is parsed or refused. -/
theorem parseIJson_settles (text : JsString) : Settles (parseIJson text) := by
  rw [parseIJson]
  refine ((reads_settle _ _).1 text le_rfl).bind fun p _ => ?_
  dsimp only
  split
  · exact settles_ok _
  · exact settles_refused _

end Fuel

/-- Every text is parsed or refused, and parsed exactly when it is a JSON text without what is
removed from the grammar, to the value of its tree. -/
theorem parseIJson_accepts (text : JsString) :
    ((∃ v, parseIJson text = .ok v) ∨ ∃ refusal, parseIJson text = .error (.refused refusal)) ∧
      ∀ v, parseIJson text = .ok v ↔ ∃ t, Text text t ∧ t.isAdmitted = true ∧ v = t.value := by
  constructor
  · have hsettles := parseIJson_settles text
    cases h : parseIJson text with
    | ok v => exact Or.inl ⟨v, rfl⟩
    | error stop =>
      cases stop with
      | refused refusal => exact Or.inr ⟨refusal, rfl⟩
      | outOfFuel => exact absurd h hsettles
  · intro v
    constructor
    · exact parseIJson_sound
    · rintro ⟨t, ht, hadmitted, rfl⟩
      exact parseIJson_complete ht hadmitted

end OpenWop.Js
