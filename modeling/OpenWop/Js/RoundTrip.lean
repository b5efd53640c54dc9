import OpenWop.Js.GrammarUnique

/-!
# Round trips of canonical JSON

The canonical text of an I-JSON value is a text of the grammar whose tree has the normal
form of the value. It is parsed back when no number in it is written with digits only
and is out of range, and refused otherwise.
-/

namespace OpenWop.Js

open Grammar

section Numbers

/-- The decimal is the one selected for a double, when the number is finite. -/
def JsNumber.IsDouble : JsNumber → Prop
  | .finite d => d.IsDouble
  | _ => True

/-- The absolute value of an integer. -/
def Decimal.absolute (d : Decimal) : Nat := d.coefficient * 10 ^ d.exponent.toNat

/-- An integer is within `±(2^53 - 1)`. -/
def JsNumber.InSafeRange : JsNumber → Prop
  | .finite d => 0 ≤ d.exponent → d.absolute ≤ JsonTree.maxExact
  | _ => True

/-- An integer is within `±(2^53 - 1)`, or so large that it is written with an exponent. -/
def JsNumber.ReadsBack : JsNumber → Prop
  | .finite d => 0 ≤ d.exponent → d.absolute ≤ JsonTree.maxExact ∨ 10 ^ 21 ≤ d.absolute
  | _ => True

instance (n : JsNumber) : Decidable n.IsDouble :=
  match n with
  | .finite d => inferInstanceAs (Decidable d.IsDouble)
  | .nan => isTrue trivial
  | .infinity _ => isTrue trivial

instance (n : JsNumber) : Decidable n.InSafeRange :=
  match n with
  | .finite d => inferInstanceAs (Decidable (0 ≤ d.exponent → d.absolute ≤ JsonTree.maxExact))
  | .nan => isTrue trivial
  | .infinity _ => isTrue trivial

theorem JsNumber.InSafeRange.readsBack {n : JsNumber} (h : n.InSafeRange) : n.ReadsBack := by
  cases n with
  | finite d => exact fun he => Or.inl (h he)
  | nan => trivial
  | infinity b => trivial

@[simp] theorem JsNumber.readsBack_unsigned {n : JsNumber} : n.unsigned.ReadsBack ↔ n.ReadsBack := by
  cases n with
  | finite d =>
    unfold JsNumber.unsigned Decimal.unsigned
    dsimp only
    split
    · rfl
    · rfl
  | nan => rfl
  | infinity b => rfl

theorem JsNumber.IsDouble.unsigned {n : JsNumber} (h : n.IsDouble) : n.unsigned.IsDouble := by
  cases n with
  | finite d => exact Decimal.IsDouble.unsigned h
  | nan => trivial
  | infinity b => trivial

/-- A decimal is written with digits only when it is an integer below `10^21`. -/
theorem Decimal.plainDigits_iff {d : Decimal} :
    d.PlainDigits ↔ 0 ≤ d.exponent ∧ d.absolute < 10 ^ 21 := by
  unfold PlainDigits absolute
  refine and_congr_right fun he => ?_
  obtain ⟨k, hk⟩ := Int.eq_ofNat_of_zero_le he
  have hlength : (digitsText d.coefficient).length = (Nat.digits 10 d.coefficient).length := by
    simp [digitsText]
  rw [hlength, hk, Int.toNat_natCast]
  rcases Nat.eq_zero_or_pos d.coefficient with hc | hc
  · have hz : d.exponent = 0 := (d.normal.resolve_left (by simp [hc])).2
    obtain rfl : k = 0 := by omega
    simp [hc]
  rcases Nat.lt_or_ge 21 k with hlt | hle
  · refine iff_of_false (by omega) (not_lt.mpr ?_)
    calc 10 ^ 21 ≤ 10 ^ k := Nat.pow_le_pow_right (by decide) hlt.le
      _ ≤ d.coefficient * 10 ^ k := Nat.le_mul_of_pos_left _ hc
  · have hpow : 10 ^ 21 = 10 ^ (21 - k) * 10 ^ k := by rw [← Nat.pow_add, Nat.sub_add_cancel hle]
    rw [hpow, Nat.mul_lt_mul_right (by positivity), ← Nat.digits_length_le_iff (by decide)]
    omega

/-- The literal of a double is admitted when the double reads back. -/
theorem literalAdmitted_iff {d : Decimal} (hd : d.IsDouble) {l : NumberLiteral}
    (hn : l.negative = d.unsigned.negative) (hm : l.magnitude = d.magnitude)
    (hi : l.isInteger = true ↔ d.PlainDigits) :
    JsonTree.literalAdmitted l = true ↔ (JsNumber.finite d).ReadsBack := by
  rw [JsonTree.literalAdmitted, hd.value_literal hn hm, Bool.and_true]
  have habsolute : l.isInteger = true → digitsValue l.integer = d.absolute := by
    intro hint
    have he := (hi.mp hint).1
    obtain ⟨negative, integer, fraction, exponent⟩ := l
    simp only [NumberLiteral.isInteger, Bool.and_eq_true, Option.isNone_iff_eq_none] at hint
    obtain ⟨rfl, rfl⟩ := hint
    rw [Decimal.magnitude, ← Int.toNat_of_nonneg he, zpow_natCast] at hm
    simp only [NumberLiteral.magnitude, Option.getD_none, Option.map_none, List.append_nil,
      List.length_nil, Nat.cast_zero, sub_zero, zpow_zero, mul_one] at hm
    exact_mod_cast hm
  rw [Decimal.plainDigits_iff] at hi
  rw [Bool.or_eq_true, Bool.not_eq_true', decide_eq_true_eq]
  change _ ↔ (0 ≤ d.exponent → d.absolute ≤ JsonTree.maxExact ∨ 10 ^ 21 ≤ d.absolute)
  cases hint : l.isInteger with
  | true =>
    obtain ⟨he, hlt⟩ := hi.mp hint
    rw [habsolute hint, or_iff_right (by decide)]
    exact ⟨fun h _ => Or.inl h, fun h => (h he).resolve_right hlt.not_ge⟩
  | false =>
    refine iff_of_true (Or.inl rfl) fun he => Or.inr (not_lt.mp fun hlt => ?_)
    rw [hi.mpr ⟨he, hlt⟩] at hint
    cases hint

end Numbers

namespace Json

mutual

/-- The numbers of a value, at any depth. -/
def numbers : Json → List JsNumber
  | .num n => [n]
  | .arr items => itemNumbers items
  | .obj members => memberNumbers members
  | _ => []

/-- The numbers of the items. -/
def itemNumbers : List Json → List JsNumber
  | [] => []
  | v :: vs => numbers v ++ itemNumbers vs

/-- The numbers of the member values. -/
def memberNumbers : List (JsString × Json) → List JsNumber
  | [] => []
  | (_, v) :: ms => numbers v ++ memberNumbers ms

end

theorem mem_itemNumbers {items : List Json} {n : JsNumber} :
    n ∈ itemNumbers items ↔ ∃ v ∈ items, n ∈ numbers v := by
  induction items with
  | nil => simp [itemNumbers]
  | cons v vs ih => simp [itemNumbers, ih]

theorem mem_memberNumbers {members : List (JsString × Json)} {n : JsNumber} :
    n ∈ memberNumbers members ↔ ∃ m ∈ members, n ∈ numbers m.2 := by
  induction members with
  | nil => simp [memberNumbers]
  | cons m ms ih =>
    obtain ⟨k, v⟩ := m
    simp [memberNumbers, ih]

/-- The numbers of the normal form are the numbers, unsigned. -/
theorem mem_numbers_normalize {v : Json} {n : JsNumber} :
    n ∈ numbers (normalize v) ↔ ∃ m ∈ numbers v, n = m.unsigned := by
  induction v with
  | null => simp [normalize, numbers]
  | bool b => simp [normalize, numbers]
  | num m => simp [normalize, numbers]
  | str s => simp [normalize, numbers]
  | arr vs ih =>
    rw [normalize, numbers, numbers, normalizeItems_eq, mem_itemNumbers]
    simp only [List.mem_map, exists_exists_and_eq_and, mem_itemNumbers]
    constructor
    · rintro ⟨v, hv, hn⟩
      obtain ⟨m, hm, rfl⟩ := (ih v hv).mp hn
      exact ⟨m, ⟨v, hv, hm⟩, rfl⟩
    · rintro ⟨m, ⟨v, hv, hm⟩, rfl⟩
      exact ⟨v, hv, (ih v hv).mpr ⟨m, hm, rfl⟩⟩
  | obj ms ih =>
    rw [normalize, numbers, numbers, normalizeMembers_eq, mem_memberNumbers]
    simp only [mem_sortBy, List.mem_map, exists_exists_and_eq_and, mem_memberNumbers]
    constructor
    · rintro ⟨m, hm, hn⟩
      obtain ⟨n', hn', rfl⟩ := (ih m hm).mp hn
      exact ⟨n', ⟨m, hm, hn'⟩, rfl⟩
    · rintro ⟨n', ⟨m, hm, hn'⟩, rfl⟩
      exact ⟨m, hm, (ih m hm).mpr ⟨n', hn', rfl⟩⟩

/-- Normal forms are fixed. -/
theorem normalize_normalize (v : Json) : normalize (normalize v) = normalize v := by
  induction v with
  | null => rfl
  | bool b => rfl
  | num n => cases n <;> simp [normalize, JsNumber.unsigned]
  | str s => rfl
  | arr vs ih =>
    rw [normalize, normalize, Json.arr.injEq, normalizeItems_eq, normalizeItems_eq, List.map_map]
    exact List.map_congr_left ih
  | obj ms ih =>
    rw [normalize, normalize, Json.obj.injEq, normalizeMembers_eq, normalizeMembers_eq,
      sortBy_map_fst, sortBy_map_fst, sortBy_map_fst, List.map_map, sortBy_sortBy]
    refine List.map_congr_left fun m hm => ?_
    exact congrArg (Prod.mk m.1) (ih m (mem_sortBy.mp hm))

/-- The normal form of an I-JSON value is I-JSON. -/
theorem isIJson_normalize {v : Json} (h : isIJson v = true) : isIJson (normalize v) = true := by
  induction v with
  | null => rfl
  | bool b => rfl
  | num n =>
    cases n with
    | finite d => rfl
    | nan => cases h
    | infinity b => cases h
  | str s => exact h
  | arr vs ih =>
    rw [isIJson, isIJsonItems_iff] at h
    rw [normalize, isIJson, normalizeItems_eq, isIJsonItems_iff, List.forall_mem_map]
    exact fun v hm => ih v hm (h v hm)
  | obj ms ih =>
    rw [isIJson, Bool.and_eq_true, decide_eq_true_eq, isIJsonMembers_iff] at h
    have hkeys := ((sortBy_perm (codeUnitOrder.on Prod.fst) (normalizeMembers ms)).map Prod.fst).nodup_iff
    rw [normalize, isIJson, Bool.and_eq_true, decide_eq_true_eq, isIJsonMembers_iff]
    constructor
    · refine hkeys.mpr ?_
      have hnames := keys_normalizeMembers ms
      rw [Record.keys] at hnames
      rw [hnames]
      exact h.1
    · intro m hm
      rw [mem_sortBy, normalizeMembers_eq, List.mem_map] at hm
      obtain ⟨m', hm', rfl⟩ := hm
      exact ⟨(h.2 m' hm').1, ih m' hm' (h.2 m' hm').2⟩

end Json

section Texts

theorem not_lt_of_isSurrogate {u : UInt16} (h : isSurrogate u = true) : ¬ u < 32 := by
  rw [UInt16.lt_iff_toNat_lt]
  simp only [isSurrogate, isHighSurrogate, isLowSurrogate, Bool.or_eq_true, Bool.and_eq_true,
    decide_eq_true_eq, UInt16.le_iff_toNat_le] at h
  have hhigh : (0xd800 : UInt16).toNat = 0xd800 := rfl
  have hlow : (0xdc00 : UInt16).toNat = 0xdc00 := rfl
  have hspace : (32 : UInt16).toNat = 32 := rfl
  omega

/-- The escape of a control character stands for it. -/
theorem chars_unicodeEscape {x s : JsString} (h : Chars x s) {u : UInt16} (hu : u < 32) :
    Chars (unicodeEscape u ++ x) (u :: s) := by
  have hall : ∀ n : Fin 32, [hexDigit (n.val / 4096 % 16), hexDigit (n.val / 256 % 16),
      hexDigit (n.val / 16 % 16), hexDigit (n.val % 16)].all isHexDigit = true ∧
      hexUnit (hexDigit (n.val / 4096 % 16)) (hexDigit (n.val / 256 % 16))
        (hexDigit (n.val / 16 % 16)) (hexDigit (n.val % 16)) = UInt16.ofNat n.val := by decide
  have hlt : u.toNat < 32 := UInt16.lt_iff_toNat_lt.mp hu
  obtain ⟨hhex, hunit⟩ := hall ⟨u.toNat, hlt⟩
  have hchars := Chars.unicode (List.all_eq_true.mp hhex) h
  rw [hunit, UInt16.ofNat_toNat] at hchars
  exact hchars

/-- The code word of a unit stands for it. -/
theorem chars_writeUnit {x s : JsString} (h : Chars x s) (u : UInt16) :
    Chars (writeUnit u ++ x) (u :: s) := by
  unfold writeUnit
  split
  · next hs =>
    have hne : ∀ v : UInt16, isSurrogate v = false → u ≠ v := by
      rintro v hv rfl
      rw [hs] at hv
      cases hv
    exact .unescaped (not_lt_of_isSurrogate hs) (hne _ (by decide)) (hne _ (by decide)) h
  next hs =>
  unfold escapeUnit
  split
  · next hu => rw [hu]; exact .escape rfl h
  split
  · next hu => rw [hu]; exact .escape rfl h
  split
  · next hu => rw [hu]; exact .escape rfl h
  split
  · next hu => rw [hu]; exact .escape rfl h
  split
  · next hu => rw [hu]; exact .escape rfl h
  split
  · next hu => rw [hu]; exact .escape rfl h
  split
  · next hu => rw [hu]; exact .escape rfl h
  next hquote hbackslash _ _ _ _ _ =>
  rw [isSurrogate, Bool.or_eq_true, not_or] at hs
  split
  · next hcontrol => exact chars_unicodeEscape h (by simpa [hs] using hcontrol)
  · next hcontrol =>
    refine .unescaped (fun hlt => hcontrol ?_) hquote hbackslash h
    simp [hlt]

/-- A quoted string is a string of the grammar. -/
theorem str_quote {s : JsString} (h : isWellFormed s = true) : Str (quote s) s := by
  rw [quote, quoteBody_eq h]
  refine .quoted ?_
  clear h
  induction s with
  | nil => exact .nil
  | cons u s ih =>
    rw [List.flatMap_cons]
    exact chars_writeUnit ih u

/-- The tree is one of the text of the value, which it has, and is admitted when the numbers of the
value are read back. -/
structure IsTreeOf (v : Json) (t : JsonTree) : Prop where
  text : Value (Json.stringify v) t
  value : t.value = v
  admitted : t.isAdmitted = true ↔ ∀ n ∈ v.numbers, n.ReadsBack

theorem exists_tree_num {d : Decimal} (hplain : d.unsigned = d) (hd : d.IsDouble) :
    ∃ t, IsTreeOf (.num (.finite d)) t := by
  obtain ⟨l, hvalid, ht, hn, hm, hi⟩ := d.exists_literal
  refine ⟨.num l, ⟨?_, ?_, ?_⟩⟩
  · rw [Json.stringify, ← ht]
    exact .num hvalid
  · rw [JsonTree.value, hd.value_literal hn hm, hplain]
  · rw [JsonTree.isAdmitted, literalAdmitted_iff hd hn hm hi]
    simp [Json.numbers]

/-- What is related to each item is related to the list. -/
theorem exists_forall₂ {α β : Type} {R : α → β → Prop} {l : List α} (h : ∀ a ∈ l, ∃ b, R a b) :
    ∃ l', List.Forall₂ R l l' := by
  induction l with
  | nil => exact ⟨[], .nil⟩
  | cons a l ih =>
    rw [List.forall_mem_cons] at h
    obtain ⟨b, hb⟩ := h.1
    obtain ⟨l', hl'⟩ := ih h.2
    exact ⟨b :: l', .cons hb hl'⟩

theorem IsTreeOf.element {v : Json} {t : JsonTree} (h : IsTreeOf v t) :
    Element (Json.stringify v) t := by
  have hnil : Ws [] := by simp [Ws]
  have helement := Element.value hnil h.text hnil
  rwa [List.nil_append, List.append_nil] at helement

/-- Trees of the values are elements of their texts. -/
theorem elements_separated {v : Json} {vs : List Json} {ts : List JsonTree}
    (h : List.Forall₂ IsTreeOf (v :: vs) ts) :
    Elements (Delimited.separated (unit ',') ((v :: vs).map Json.stringify)) ts := by
  induction vs generalizing v ts with
  | nil =>
    cases h with
    | cons hv hnil =>
      cases hnil
      exact .one hv.element
  | cons w vs ih =>
    cases h with
    | cons hv hvs =>
      rw [List.map_cons, Delimited.separated_cons, if_neg (by simp)]
      exact .cons hv.element (ih hvs)

theorem exists_tree_arr {vs : List Json} (ih : ∀ v ∈ vs, ∃ t, IsTreeOf v t) :
    ∃ t, IsTreeOf (.arr vs) t := by
  obtain ⟨ts, hts⟩ := exists_forall₂ ih
  refine ⟨.arr ts, ⟨?_, ?_, ?_⟩⟩
  · rw [Json.stringify, Json.join_unit, Json.stringifyItems_eq]
    cases vs with
    | nil =>
      obtain ⟨⟩ := hts
      exact .emptyArr (by simp [Ws, Delimited.separated])
    | cons v vs => exact .arr (elements_separated hts)
  · rw [JsonTree.value, JsonTree.itemValues_eq, Json.arr.injEq]
    clear ih
    induction hts with
    | nil => rfl
    | cons hv _ ih' => rw [List.map_cons, hv.value, ih']
  · rw [JsonTree.isAdmitted, JsonTree.itemsAdmitted_iff, Json.numbers]
    clear ih
    induction hts with
    | nil => simp [Json.itemNumbers]
    | cons hv _ ih' =>
      rw [List.forall_mem_cons, ih', hv.admitted, Json.itemNumbers, List.forall_mem_append]

/-- A member and its tree. -/
def IsMemberOf (m : JsString × Json) (m' : JsString × JsonTree) : Prop :=
  m.1 = m'.1 ∧ isWellFormed m.1 = true ∧ IsTreeOf m.2 m'.2

theorem IsMemberOf.member {m : JsString × Json} {m' : JsString × JsonTree} (h : IsMemberOf m m') :
    Member (Json.memberText m) m' := by
  obtain ⟨k, v⟩ := m
  obtain ⟨k', t⟩ := m'
  obtain ⟨rfl, hwf, ht⟩ := h
  have hnil : Ws [] := by simp [Ws]
  have hmember := Member.named hnil (str_quote hwf) hnil ht.element
  rwa [List.nil_append, List.nil_append] at hmember

theorem members_separated {m : JsString × Json} {ms : List (JsString × Json)}
    {ts : List (JsString × JsonTree)} (h : List.Forall₂ IsMemberOf (m :: ms) ts) :
    Members (Delimited.separated (unit ',') ((m :: ms).map Json.memberText)) ts := by
  induction ms generalizing m ts with
  | nil =>
    cases h with
    | cons hm hnil =>
      cases hnil
      exact .one hm.member
  | cons m' ms ih =>
    cases h with
    | cons hm hms =>
      rw [List.map_cons, Delimited.separated_cons, if_neg (by simp)]
      exact .cons hm.member (ih hms)

theorem exists_tree_obj {ms : List (JsString × Json)} (hkeys : (Record.keys ms).Nodup)
    (ih : ∀ m ∈ ms, isWellFormed m.1 = true ∧ ∃ t, IsTreeOf m.2 t) :
    ∃ t, IsTreeOf (.obj ms) t := by
  have hmember : ∀ m ∈ ms, ∃ m', IsMemberOf m m' := by
    intro m hm
    obtain ⟨hwf, t, ht⟩ := ih m hm
    exact ⟨(m.1, t), rfl, hwf, ht⟩
  obtain ⟨ts, hts⟩ := exists_forall₂ hmember
  have hnames : Record.keys ts = Record.keys ms := by
    clear ih hmember hkeys
    induction hts with
    | nil => rfl
    | cons hm _ ih' => rw [Record.keys_cons, Record.keys_cons, hm.1, ih']
  refine ⟨.obj ts, ⟨?_, ?_, ?_⟩⟩
  · have htexts : Json.stringifyMembers ms = ms.map Json.memberText := Json.stringifyMembers_eq ms
    rw [Json.stringify, Json.join_unit, htexts]
    cases ms with
    | nil =>
      obtain ⟨⟩ := hts
      exact .emptyObj (by simp [Ws, Delimited.separated])
    | cons m ms => exact .obj (members_separated hts)
  · rw [JsonTree.value, JsonTree.memberValues_eq, Json.obj.injEq]
    clear ih hmember hkeys hnames
    induction hts with
    | nil => rfl
    | cons hm _ ih' => rw [List.map_cons, ih', ← hm.1, hm.2.2.value]
  · rw [JsonTree.isAdmitted, Bool.and_eq_true, decide_eq_true_eq, hnames,
      JsonTree.membersAdmitted_iff, Json.numbers]
    rw [and_iff_right hkeys]
    clear ih hmember hkeys hnames
    induction hts with
    | nil => simp [Json.memberNumbers]
    | @cons m m' _ _ hm _ ih' =>
      rw [List.forall_mem_cons, ih', hm.2.2.admitted, ← hm.1, and_iff_right hm.2.1]
      rw [Json.memberNumbers, List.forall_mem_append]

/-- The text of a plain I-JSON value of doubles has a tree. -/
theorem exists_tree {v : Json} (hplain : v.isPlain = true) (hv : v.isIJson = true)
    (hd : ∀ n ∈ v.numbers, n.IsDouble) : ∃ t, IsTreeOf v t := by
  induction v with
  | null => exact ⟨.null, .null, rfl, by simp [JsonTree.isAdmitted, Json.numbers]⟩
  | bool b =>
    refine ⟨.bool b, ?_, rfl, by simp [JsonTree.isAdmitted, Json.numbers]⟩
    cases b with
    | true => exact .true
    | false => exact .false
  | num n =>
    cases n with
    | finite d =>
      exact exists_tree_num (by simpa [Json.isPlain] using hplain) (hd (.finite d) (by simp [Json.numbers]))
    | nan => cases hplain
    | infinity b => cases hplain
  | str s =>
    refine ⟨.str s, .str (str_quote hv), rfl, ?_⟩
    rw [JsonTree.isAdmitted]
    exact iff_of_true hv (by simp [Json.numbers])
  | arr vs ih =>
    rw [Json.isPlain, Json.plainItems_iff] at hplain
    rw [Json.isIJson, Json.isIJsonItems_iff] at hv
    refine exists_tree_arr fun v hm => ih v hm (hplain v hm) (hv v hm) fun n hn => hd n ?_
    exact Json.mem_itemNumbers.mpr ⟨v, hm, hn⟩
  | obj ms ih =>
    rw [Json.isPlain, Json.plainMembers_iff] at hplain
    rw [Json.isIJson, Bool.and_eq_true, decide_eq_true_eq, Json.isIJsonMembers_iff] at hv
    refine exists_tree_obj hv.1 fun m hm => ⟨(hv.2 m hm).1, ih m hm (hplain m hm).2 (hv.2 m hm).2
      fun n hn => hd n ?_⟩
    exact Json.mem_memberNumbers.mpr ⟨m, hm, hn⟩

end Texts

section RoundTrips

theorem JsNumber.finite_of_admitted {l : NumberLiteral} (h : JsonTree.literalAdmitted l = true) :
    ∃ d : Decimal, l.value = .finite d ∧ d.IsDouble := by
  rw [JsonTree.literalAdmitted, Bool.and_eq_true] at h
  cases hv : l.value with
  | finite d => exact ⟨d, rfl, isDouble_of_nearestNumber l.magnitude_nonneg hv⟩
  | nan =>
    rw [hv] at h
    exact absurd h.2 (by decide)
  | infinity b =>
    rw [hv] at h
    exact absurd h.2 (by simp)

/-- The value of an admitted tree is an I-JSON value of doubles. -/
theorem isIJson_of_admitted {t : JsonTree} (h : t.isAdmitted = true) :
    t.value.isIJson = true ∧ ∀ n ∈ t.value.numbers, n.IsDouble := by
  induction t with
  | null => exact ⟨rfl, by simp [JsonTree.value, Json.numbers]⟩
  | bool b => exact ⟨rfl, by simp [JsonTree.value, Json.numbers]⟩
  | num l =>
    obtain ⟨d, hl, hd⟩ := JsNumber.finite_of_admitted h
    rw [JsonTree.value, hl]
    exact ⟨rfl, by simpa [Json.numbers, JsNumber.IsDouble] using hd⟩
  | str s => exact ⟨h, by simp [JsonTree.value, Json.numbers]⟩
  | arr ts ih =>
    rw [JsonTree.isAdmitted, JsonTree.itemsAdmitted_iff] at h
    rw [JsonTree.value, JsonTree.itemValues_eq, Json.isIJson, Json.isIJsonItems_iff, Json.numbers,
      List.forall_mem_map]
    refine ⟨fun t ht => (ih t ht (h t ht)).1, fun n hn => ?_⟩
    obtain ⟨v, hv, hn⟩ := Json.mem_itemNumbers.mp hn
    obtain ⟨t, ht, rfl⟩ := List.mem_map.mp hv
    exact (ih t ht (h t ht)).2 n hn
  | obj ms ih =>
    rw [JsonTree.isAdmitted, Bool.and_eq_true, decide_eq_true_eq, JsonTree.membersAdmitted_iff] at h
    have hkeys : Record.keys (ms.map fun m => (m.1, m.2.value)) = Record.keys ms :=
      Record.keys_mapValues JsonTree.value ms
    rw [JsonTree.value, JsonTree.memberValues_eq, Json.isIJson, Bool.and_eq_true, decide_eq_true_eq,
      hkeys, Json.isIJsonMembers_iff, Json.numbers, List.forall_mem_map]
    refine ⟨⟨h.1, fun m hm => ⟨(h.2 m hm).1, (ih m hm (h.2 m hm).2).1⟩⟩, fun n hn => ?_⟩
    obtain ⟨m', hm', hn⟩ := Json.mem_memberNumbers.mp hn
    obtain ⟨m, hm, rfl⟩ := List.mem_map.mp hm'
    exact (ih m hm (h.2 m hm).2).2 n hn

/-- The canonical text of an I-JSON value of doubles is parsed exactly when its numbers are read
back, and then to the normal form of the value. -/
theorem parseIJson_canonical {v : Json} (hv : v.isIJson = true) (hd : ∀ n ∈ v.numbers, n.IsDouble)
    (w : Json) : parseIJson (Json.stringify (Json.normalize v)) = .ok w ↔
      (∀ n ∈ v.numbers, n.ReadsBack) ∧ w = Json.normalize v := by
  have hdn : ∀ n ∈ (Json.normalize v).numbers, n.IsDouble := by
    intro n hn
    obtain ⟨m, hm, rfl⟩ := Json.mem_numbers_normalize.mp hn
    exact (hd m hm).unsigned
  have hreads : (∀ n ∈ (Json.normalize v).numbers, n.ReadsBack) ↔ ∀ n ∈ v.numbers, n.ReadsBack := by
    constructor
    · intro h m hm
      exact JsNumber.readsBack_unsigned.mp (h _ (Json.mem_numbers_normalize.mpr ⟨m, hm, rfl⟩))
    · intro h n hn
      obtain ⟨m, hm, rfl⟩ := Json.mem_numbers_normalize.mp hn
      exact JsNumber.readsBack_unsigned.mpr (h m hm)
  obtain ⟨t, ht⟩ := exists_tree (Json.isPlain_normalize hv) (Json.isIJson_normalize hv) hdn
  rw [(parseIJson_accepts _).2 w, ← hreads, ← ht.admitted]
  constructor
  · rintro ⟨t', ht', hadmitted, rfl⟩
    obtain rfl := text_unique ht' ht.element
    exact ⟨hadmitted, ht.value⟩
  · rintro ⟨hadmitted, rfl⟩
    exact ⟨t, ht.element, hadmitted, ht.value.symm⟩

/-- Canonicalizing text is writing the normal form of what is parsed. -/
theorem canonicalizeText_eq_ok {text t : JsString} : canonicalizeText text = .ok t ↔
    ∃ v, parseIJson text = .ok v ∧ t = Json.stringify (Json.normalize v) := by
  rw [canonicalizeText, Parse.bind_eq_ok]
  refine exists_congr fun v => and_congr_right fun hv => ?_
  obtain ⟨_, _, hadmitted, rfl⟩ := parseIJson_sound hv
  have hok := (Json.accepts_canonicalJSON _ _).mpr
    ⟨Json.isPlain_normalize (isIJson_of_admitted hadmitted).1, rfl⟩
  rw [hok]
  exact ⟨fun h => (Except.ok.inj h).symm, fun h => by rw [h]; rfl⟩

end RoundTrips

/-- An I-JSON value whose integers are in range is parsed back from its canonical text, and the
canonical text of a text is its own canonical text exactly when no integer in it is written with
digits only and out of range. -/
theorem canonical_roundTrip :
    (∀ v : Json, v.isIJson = true → (∀ n ∈ v.numbers, n.IsDouble) →
      (∀ n ∈ v.numbers, n.InSafeRange) →
        ∃ t w, Json.canonicalJSON v = .ok t ∧ parseIJson t = .ok w ∧ Json.Equal w v) ∧
    (∀ text v, parseIJson text = .ok v → ∃ t, canonicalizeText text = .ok t ∧
      (canonicalizeText t = .ok t ↔ ∀ n ∈ v.numbers, n.ReadsBack)) := by
  constructor
  · intro v hv hd hsafe
    have hok := (Json.accepts_canonicalJSON v _).mpr ⟨Json.isPlain_normalize hv, rfl⟩
    refine ⟨_, _, hok, (parseIJson_canonical hv hd _).mpr ⟨fun n hn => (hsafe n hn).readsBack, rfl⟩, ?_⟩
    rw [Json.equal_iff_normalize (Json.isIJson_normalize hv) hv, Json.normalize_normalize]
  · intro text v h
    refine ⟨_, canonicalizeText_eq_ok.mpr ⟨v, h, rfl⟩, ?_⟩
    obtain ⟨t, _, hadmitted, rfl⟩ := parseIJson_sound h
    obtain ⟨hv, hd⟩ := isIJson_of_admitted hadmitted
    rw [canonicalizeText_eq_ok]
    constructor
    · rintro ⟨w, hw, _⟩
      exact ((parseIJson_canonical hv hd w).mp hw).1
    · intro hreads
      exact ⟨_, (parseIJson_canonical hv hd _).mpr ⟨hreads, rfl⟩, by rw [Json.normalize_normalize]⟩

/-- A value with one number, and a text of two numbers. -/
theorem canonical_roundTrip_small :
    (∃ t w, Json.canonicalJSON (.obj [(js "a", .num (.ofNat 12))]) = .ok t ∧ parseIJson t = .ok w ∧
      Json.Equal w (.obj [(js "a", .num (.ofNat 12))])) ∧
    ∃ t, canonicalizeText (js "[1e21, -0]") = .ok t ∧ canonicalizeText t = .ok t := by
  have hparse : parseIJson (js "[1e21, -0]") =
      .ok (.arr [.num (.finite ⟨false, 1, 21, by decide⟩), .num (.finite ⟨true, 0, 0, by decide⟩)]) := by
    decide +kernel
  refine ⟨canonical_roundTrip.1 _ (by decide) ?_ ?_, ?_⟩
  · have hd : (JsNumber.ofNat 12).IsDouble := by decide +kernel
    simpa [Json.numbers, Json.memberNumbers] using hd
  · have hs : (JsNumber.ofNat 12).InSafeRange := by decide +kernel
    simpa [Json.numbers, Json.memberNumbers] using hs
  · obtain ⟨t, ht, hagain⟩ := canonical_roundTrip.2 _ _ hparse
    refine ⟨t, ht, hagain.mpr ?_⟩
    simp [Json.numbers, Json.itemNumbers, JsNumber.ReadsBack, Decimal.absolute]

/-- The canonical text of `1e20` is an integer literal out of range. -/
theorem canonicalizeText_not_idempotent :
    ¬ ∀ text t, canonicalizeText text = .ok t → canonicalizeText t = .ok t := by
  intro h
  have hfirst : canonicalizeText (js "1e20") = .ok (js "100000000000000000000") := by decide +kernel
  have hsecond := h _ _ hfirst
  revert hsecond
  decide +kernel

end OpenWop.Js
