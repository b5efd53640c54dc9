import OpenWop.Js.ParseIJson

/-!
# What the parser accepts is admitted

Every reader that succeeds has read a text of the grammar: what it leaves is the rest
of the text, and what it returns is the value of the tree, which is admitted.
-/

namespace OpenWop.Js

open Grammar

theorem Parse.bind_eq_ok {α β : Type} {r : Parse α} {f : α → Parse β} {b : β} :
    r >>= f = .ok b ↔ ∃ a, r = .ok a ∧ f a = .ok b := by
  cases r with
  | error stop => exact iff_of_false (fun h => nomatch h) fun ⟨_, h, _⟩ => nomatch h
  | ok a =>
    constructor
    · intro h
      exact ⟨a, rfl, h⟩
    · rintro ⟨a', ha, h⟩
      cases ha
      exact h

/-- A reader that puts one item before those another one returns. -/
theorem Parse.cons_eq_ok {α γ : Type} {x : Parse (List α × γ)} {a : α} {l : List α} {r : γ} :
    (do let (out, r) ← x; return (a :: out, r)) = .ok (l, r) ↔
      ∃ l', x = .ok (l', r) ∧ l = a :: l' := by
  rw [Parse.bind_eq_ok]
  constructor
  · rintro ⟨⟨l', r'⟩, hx, h⟩
    cases h
    exact ⟨l', hx, rfl⟩
  · rintro ⟨l', hx, rfl⟩
    exact ⟨_, hx, rfl⟩

section Tokens

theorem skipWs_split (s : JsString) : ∃ w, Ws w ∧ s = w ++ skipWs s :=
  ⟨s.takeWhile isWs, fun _ hu => List.mem_takeWhile_imp hu, List.takeWhile_append_dropWhile.symm⟩

theorem spanDigits_split (s : JsString) :
    (∀ u ∈ (spanDigits s).1, isDigit u = true) ∧ s = (spanDigits s).1 ++ (spanDigits s).2 := by
  rw [spanDigits, List.span_eq_takeWhile_dropWhile]
  exact ⟨fun _ hu => List.mem_takeWhile_imp hu, List.takeWhile_append_dropWhile.symm⟩

theorem matchInteger_sound {s i r : JsString} (h : matchInteger s = some (i, r)) :
    IsInteger i ∧ s = i ++ r := by
  cases s with
  | nil => cases h
  | cons u s =>
    obtain ⟨hdigits, hsplit⟩ := spanDigits_split s
    rw [matchInteger] at h
    split at h
    · next hz =>
      cases h
      exact ⟨Or.inl (by rw [hz]), rfl⟩
    · next hz =>
      split at h
      · next hd =>
        cases h
        refine ⟨Or.inr ⟨⟨by simp, List.forall_mem_cons.mpr ⟨hd, hdigits⟩⟩, by simpa using hz⟩, ?_⟩
        rw [List.cons_append, ← hsplit]
      · cases h

theorem matchFraction_sound (s : JsString) :
    (∀ f ∈ (matchFraction s).1, IsDigits f) ∧
      s = ((matchFraction s).1.map (unit '.' :: ·)).getD [] ++ (matchFraction s).2 := by
  cases s with
  | nil => simp [matchFraction]
  | cons u s =>
    obtain ⟨hdigits, hsplit⟩ := spanDigits_split s
    rw [matchFraction]
    split
    · next h =>
      simp only [Bool.and_eq_true, decide_eq_true_eq] at h
      obtain ⟨rfl, hne⟩ := h
      refine ⟨?_, ?_⟩
      · rintro f ⟨⟩
        exact ⟨hne, hdigits⟩
      · simpa using hsplit
    · simp

theorem matchSign_sound (s : JsString) :
    (∀ u ∈ (matchSign s).1, u = unit '+' ∨ u = unit '-') ∧
      s = (matchSign s).1.toList ++ (matchSign s).2 := by
  cases s with
  | nil => simp [matchSign]
  | cons u s =>
    rw [matchSign]
    split
    · next h =>
      rw [Bool.or_eq_true, decide_eq_true_eq, decide_eq_true_eq] at h
      exact ⟨by rintro v ⟨⟩; exact h, rfl⟩
    · simp

theorem matchExponent_sound (s : JsString) :
    (∀ x ∈ (matchExponent s).1, x.Valid) ∧
      s = ((matchExponent s).1.map ExponentPart.text).getD [] ++ (matchExponent s).2 := by
  cases s with
  | nil => simp [matchExponent]
  | cons u s =>
    obtain ⟨hsign, hs⟩ := matchSign_sound s
    obtain ⟨hdigits, hsplit⟩ := spanDigits_split (matchSign s).2
    simp only [matchExponent]
    split
    · next h =>
      simp only [Bool.and_eq_true, Bool.or_eq_true, decide_eq_true_eq] at h
      refine ⟨?_, ?_⟩
      · rintro x ⟨⟩
        exact ⟨h.1, hsign, h.2, hdigits⟩
      · simp only [Option.map_some, Option.getD_some, ExponentPart.text, List.cons_append,
          List.append_assoc, ← hsplit, ← hs]
    · simp

theorem matchMinus_sound (s : JsString) :
    s = (if (matchMinus s).1 then [unit '-'] else []) ++ (matchMinus s).2 := by
  cases s with
  | nil => rfl
  | cons u s =>
    rw [matchMinus]
    split
    · next h => simp [h]
    · rfl

/-- What the number pattern matches is a literal. -/
theorem matchNumber_sound {s r : JsString} {l : NumberLiteral} (h : matchNumber s = some (l, r)) :
    l.Valid ∧ s = l.text ++ r := by
  have hminus := matchMinus_sound s
  rw [matchNumber, Option.map_eq_some_iff] at h
  obtain ⟨⟨i, r₁⟩, hi, h⟩ := h
  cases h
  obtain ⟨hinteger, hi⟩ := matchInteger_sound hi
  obtain ⟨hfraction, hf⟩ := matchFraction_sound r₁
  obtain ⟨hexponent, hx⟩ := matchExponent_sound (matchFraction r₁).2
  refine ⟨⟨hinteger, hfraction, hexponent⟩, ?_⟩
  dsimp only
  calc s = (if (matchMinus s).1 then [unit '-'] else []) ++ (i ++ r₁) := by rw [← hi]; exact hminus
    _ = (if (matchMinus s).1 then [unit '-'] else []) ++ (i ++
          (((matchFraction r₁).1.map (unit '.' :: ·)).getD [] ++
            (((matchExponent (matchFraction r₁).2).1.map ExponentPart.text).getD [] ++
              (matchExponent (matchFraction r₁).2).2))) := by rw [← hx, ← hf]
    _ = _ := by simp [NumberLiteral.text, NumberLiteral.fractionText, NumberLiteral.exponentText]

/-- A scanned string is a text of the grammar. -/
theorem scanString_sound {n : Nat} {s out r : JsString} (h : scanString n s = .ok (out, r)) :
    ∃ x, Chars x out ∧ s = x ++ unit '"' :: r := by
  fun_induction scanString n s generalizing out r with
  | case1 => cases h
  | case2 s =>
    cases h
    exact ⟨[], .nil, rfl⟩
  | case3 => cases h
  | case4 a b c d s hex _ ih =>
    obtain ⟨out', hs, rfl⟩ := Parse.cons_eq_ok.mp h
    obtain ⟨x, hx, rfl⟩ := ih hs
    exact ⟨_, .unicode (List.all_eq_true.mp hex) hx, rfl⟩
  | case5 => cases h
  | case6 => cases h
  | case7 e s _ u short _ ih =>
    obtain ⟨out', hs, rfl⟩ := Parse.cons_eq_ok.mp h
    obtain ⟨x, hx, rfl⟩ := ih hs
    exact ⟨_, .escape short hx, rfl⟩
  | case8 => cases h
  | case9 => cases h
  | case10 u s quote backslash control ih =>
    obtain ⟨out', hs, rfl⟩ := Parse.cons_eq_ok.mp h
    obtain ⟨x, hx, rfl⟩ := ih hs
    exact ⟨_, .unescaped control quote backslash hx, rfl⟩

theorem checkString_eq_ok {out : JsString} : checkString out = .ok () ↔ isWellFormed out = true := by
  have h := Json.accepts_assertWellFormed (js "a string") out ()
  unfold checkString
  split
  · next hok => simpa [hok] using h
  · next e he => simpa [he] using h

/-- A string that is read is a string of the grammar without lone surrogates. -/
theorem readString_sound {n : Nat} {s out r : JsString} (h : readString n s = .ok (out, r)) :
    ∃ x, Str x out ∧ isWellFormed out = true ∧ s = x ++ r := by
  cases s with
  | nil => cases h
  | cons q s =>
    rw [readString] at h
    split at h
    · next hq =>
      obtain ⟨⟨out', r'⟩, hscan, h⟩ := Parse.bind_eq_ok.mp h
      obtain ⟨_, hcheck, h⟩ := Parse.bind_eq_ok.mp h
      cases h
      obtain ⟨x, hx, rfl⟩ := scanString_sound hscan
      exact ⟨_, .quoted hx, checkString_eq_ok.mp hcheck, by simp [hq]⟩
    · cases h

/-- A number that is read is an admitted literal. -/
theorem readNumber_sound {n : Nat} {s r : JsString} {v : Json} (h : readNumber n s = .ok (v, r)) :
    ∃ l : NumberLiteral, l.Valid ∧ JsonTree.literalAdmitted l = true ∧ s = l.text ++ r ∧
      v = .num l.value := by
  unfold readNumber at h
  split at h
  · cases h
  · next l r' hmatch =>
    split at h
    · cases h
    · next hrange =>
      split at h
      · next d hd =>
        cases h
        obtain ⟨hvalid, hs⟩ := matchNumber_sound hmatch
        refine ⟨l, hvalid, ?_, hs, by rw [hd]⟩
        simpa [JsonTree.literalAdmitted, hd, ← Bool.not_eq_true, imp_iff_not_or] using hrange
      · cases h

end Tokens

section Values

/-- A value that is read is a value of the grammar, after whitespace. -/
def ValueSound (fuel : Nat) : Prop := ∀ n s v r, readValue n fuel s = .ok (v, r) →
  ∃ w x t, Ws w ∧ Value x t ∧ t.isAdmitted = true ∧ v = t.value ∧ s = w ++ (x ++ r)

/-- Items that are read are elements of the grammar, up to the end of the array. -/
def ItemsSound (fuel : Nat) : Prop := ∀ n s vs r, readItems n fuel s = .ok (vs, r) →
  ∃ x ts, Elements x ts ∧ (∀ t ∈ ts, t.isAdmitted = true) ∧ vs = ts.map JsonTree.value ∧
    s = x ++ unit ']' :: r

/-- Members that are read are members of the grammar with new and distinct names, up to the end of
the object. -/
def MembersSound (fuel : Nat) : Prop := ∀ n seen s ms r, readMembers n fuel seen s = .ok (ms, r) →
  ∃ x ts, Members x ts ∧ (∀ m ∈ ts, isWellFormed m.1 = true ∧ m.2.isAdmitted = true) ∧
    (Record.keys ts).Nodup ∧ (∀ k ∈ Record.keys ts, k ∉ seen) ∧ ms = JsonTree.memberValues ts ∧
    s = x ++ unit '\x7d' :: r

theorem startsWith_split {s name : JsString} (h : startsWith s name = true) :
    s = name ++ s.drop name.length := by
  obtain ⟨t, rfl⟩ := startsWith_iff.mp h
  rw [List.drop_left]

theorem head?_split {s : JsString} {u : UInt16} (h : s.head? = some u) : s = u :: s.tail := by
  cases s with
  | nil => cases h
  | cons v s =>
    cases h
    rfl

theorem readValue_sound {fuel : Nat} (hitems : ItemsSound fuel) (hmembers : MembersSound fuel) :
    ValueSound (fuel + 1) := by
  intro n s v r h
  obtain ⟨w, hw, hs⟩ := skipWs_split s
  rw [readValue] at h
  cases hskip : skipWs s with
  | nil =>
    rw [hskip] at h
    cases h
  | cons c rest =>
    rw [hskip] at h hs
    dsimp only at h
    -- What is left to show in each branch is that the text from `c` on is a value and `r`.
    suffices hvalue : ∃ x t, Value x t ∧ t.isAdmitted = true ∧ v = t.value ∧ c :: rest = x ++ r by
      obtain ⟨x, t, hx, hadmitted, hv, hc⟩ := hvalue
      exact ⟨w, x, t, hw, hx, hadmitted, hv, by rw [hs, hc]⟩
    obtain ⟨w', hw', hrest⟩ := skipWs_split rest
    generalize skipWs rest = q at h hrest
    split at h
    · next hc =>
      subst hc hrest
      split at h
      · next hempty =>
        cases h
        rw [head?_split hempty]
        exact ⟨_, _, .emptyObj hw', rfl, rfl, by simp⟩
      · obtain ⟨⟨ms, r'⟩, hm, h⟩ := Parse.bind_eq_ok.mp h
        cases h
        obtain ⟨x, ts, hx, hadmitted, hnodup, _, rfl, rfl⟩ := hmembers _ _ _ _ _ hm
        refine ⟨_, _, .obj (hx.ws hw'), ?_, rfl, by simp⟩
        rw [JsonTree.isAdmitted, Bool.and_eq_true, decide_eq_true_eq, JsonTree.membersAdmitted_iff]
        exact ⟨hnodup, hadmitted⟩
    split at h
    · next hc =>
      subst hc hrest
      split at h
      · next hempty =>
        cases h
        rw [head?_split hempty]
        exact ⟨_, _, .emptyArr hw', rfl, rfl, by simp⟩
      · obtain ⟨⟨vs, r'⟩, hi, h⟩ := Parse.bind_eq_ok.mp h
        cases h
        obtain ⟨x, ts, hx, hadmitted, rfl, rfl⟩ := hitems _ _ _ _ hi
        refine ⟨_, _, .arr (hx.ws hw'), ?_, ?_, by simp⟩
        · rw [JsonTree.isAdmitted, JsonTree.itemsAdmitted_iff]
          exact hadmitted
        · rw [JsonTree.value, JsonTree.itemValues_eq]
    split at h
    · obtain ⟨⟨out, r'⟩, hstring, h⟩ := Parse.bind_eq_ok.mp h
      cases h
      obtain ⟨x, hx, hwf, hsplit⟩ := readString_sound hstring
      exact ⟨x, .str out, .str hx, hwf, rfl, hsplit⟩
    split at h
    · next htrue =>
      cases h
      exact ⟨_, _, .true, rfl, rfl, startsWith_split htrue⟩
    split at h
    · next hfalse =>
      cases h
      exact ⟨_, _, .false, rfl, rfl, startsWith_split hfalse⟩
    split at h
    · next hnull =>
      cases h
      exact ⟨_, _, .null, rfl, rfl, startsWith_split hnull⟩
    split at h
    · obtain ⟨l, hvalid, hadmitted, hsplit, rfl⟩ := readNumber_sound h
      exact ⟨_, _, .num hvalid, hadmitted, rfl, hsplit⟩
    · cases h

theorem readItems_sound {fuel : Nat} (hvalue : ValueSound fuel) (hitems : ItemsSound fuel) :
    ItemsSound (fuel + 1) := by
  intro n s vs r h
  rw [readItems] at h
  obtain ⟨⟨v, r'⟩, hv, hloop⟩ := Parse.bind_eq_ok.mp h
  obtain ⟨w, x, t, hw, hx, hadmitted, rfl, rfl⟩ := hvalue _ _ _ _ hv
  obtain ⟨w', hw', hr'⟩ := skipWs_split r'
  clear h hv
  dsimp only at hloop
  generalize skipWs r' = q at hloop hr'
  cases q with
  | nil => cases hloop
  | cons d rest =>
    subst hr'
    dsimp only at hloop
    have helement : Element (w ++ (x ++ w')) t := .value hw hx hw'
    split at hloop
    · next hd =>
      cases hloop
      exact ⟨_, [t], .one helement, by simpa using hadmitted, rfl, by simp [hd]⟩
    split at hloop
    · next hd =>
      obtain ⟨vs, hvs, rfl⟩ := Parse.cons_eq_ok.mp hloop
      obtain ⟨y, ts, hy, hall, rfl, rfl⟩ := hitems _ _ _ _ hvs
      exact ⟨_, t :: ts, .cons helement hy, List.forall_mem_cons.mpr ⟨hadmitted, hall⟩, rfl,
        by simp [hd]⟩
    · cases hloop

theorem readMembers_sound {fuel : Nat} (hvalue : ValueSound fuel) (hmembers : MembersSound fuel) :
    MembersSound (fuel + 1) := by
  intro n seen s ms r h
  rw [readMembers] at h
  obtain ⟨⟨k, r₁⟩, hk, h⟩ := Parse.bind_eq_ok.mp h
  obtain ⟨y, hy, hwf, hsplit⟩ := readString_sound hk
  obtain ⟨w, hw, hs⟩ := skipWs_split s
  rw [hsplit] at hs
  dsimp only at h
  split at h
  · cases h
  next hnew =>
  obtain ⟨w₁, hw₁, hr₁⟩ := skipWs_split r₁
  generalize skipWs r₁ = q at h hr₁
  cases q with
  | nil => cases h
  | cons c rest =>
    dsimp only at h
    split at h
    swap
    · cases h
    next hc =>
    obtain ⟨⟨v, r₂⟩, hv, h⟩ := Parse.bind_eq_ok.mp h
    obtain ⟨w₂, x, t, hw₂, hx, hadmitted, rfl, hrest⟩ := hvalue _ _ _ _ hv
    obtain ⟨w₃, hw₃, hr₂⟩ := skipWs_split r₂
    dsimp only at h
    generalize skipWs r₂ = q at h hr₂
    cases q with
    | nil => cases h
    | cons d rest' =>
      dsimp only at h
      have hmember : Member (w ++ (y ++ (w₁ ++ unit ':' :: (w₂ ++ (x ++ w₃))))) (k, t) :=
        .named hw hy hw₁ (.value hw₂ hx hw₃)
      have hall : s = w ++ (y ++ (w₁ ++ unit ':' :: (w₂ ++ (x ++ w₃)))) ++ d :: rest' := by
        rw [hs, hr₁, hc, hrest, hr₂]
        simp
      split at h
      · next hd =>
        cases h
        exact ⟨_, [(k, t)], .one hmember, by simpa using ⟨hwf, hadmitted⟩, by simp,
          by simpa using hnew, rfl, by rw [hall, hd]⟩
      split at h
      · next hd =>
        obtain ⟨ms, hms, rfl⟩ := Parse.cons_eq_ok.mp h
        obtain ⟨z, ts, hz, hmall, hnodup, hseen, rfl, rfl⟩ := hmembers _ _ _ _ _ hms
        refine ⟨_, (k, t) :: ts, .cons hmember hz, List.forall_mem_cons.mpr ⟨⟨hwf, hadmitted⟩, hmall⟩,
          ?_, ?_, rfl, by rw [hall, hd]; simp⟩
        · rw [Record.keys_cons, List.nodup_cons]
          exact ⟨fun hkey => hseen k hkey List.mem_cons_self, hnodup⟩
        · rw [Record.keys_cons, List.forall_mem_cons]
          exact ⟨hnew, fun k' hk' hmem => hseen k' hk' (List.mem_cons_of_mem _ hmem)⟩
      · cases h

/-- The readers are sound, whatever the fuel. -/
theorem reads_sound (fuel : Nat) : ValueSound fuel ∧ ItemsSound fuel ∧ MembersSound fuel := by
  induction fuel with
  | zero =>
    refine ⟨fun n s v r h => ?_, fun n s vs r h => ?_, fun n seen s ms r h => ?_⟩
    · cases h
    · cases h
    · cases h
  | succ fuel ih =>
    exact ⟨readValue_sound ih.2.1 ih.2.2, readItems_sound ih.1 ih.2.1, readMembers_sound ih.1 ih.2.2⟩

/-- What is parsed is a text of the grammar, admitted, with that value. -/
theorem parseIJson_sound {text : JsString} {v : Json} (h : parseIJson text = .ok v) :
    ∃ t, Text text t ∧ t.isAdmitted = true ∧ v = t.value := by
  rw [parseIJson] at h
  obtain ⟨⟨v', r⟩, hv, h⟩ := Parse.bind_eq_ok.mp h
  obtain ⟨w, x, t, hw, hx, hadmitted, rfl, rfl⟩ := (reads_sound _).1 _ _ _ _ hv
  obtain ⟨w', hw', hr⟩ := skipWs_split r
  dsimp only at h
  generalize skipWs r = q at h hr
  cases q with
  | nil =>
    cases h
    rw [hr, List.append_nil]
    exact ⟨t, .value hw hx hw', hadmitted, rfl⟩
  | cons c rest => cases h

end Values

end OpenWop.Js
