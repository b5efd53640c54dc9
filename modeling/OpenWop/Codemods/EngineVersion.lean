import OpenWop.Codemods.Walk
import OpenWop.Js.IntegerText

/-!
# `engineVersion` as an integer

The codemod makes a Number of every `engineVersion` that is a string of digits, at any depth. The
Number should be written with that string, the rest should stay, and a second run should change
nothing. It is so where the string is below `10 ^ 21` and the shortest decimal of a double, and no
member is named `__proto__`.
-/

namespace OpenWop.Codemods.EngineVersion

open OpenWop.Js OpenWop.Evidence OpenWop.Codemods

section Source

/-- `id`. -/
def codemodId : JsString := js "openwop.codemod.engine-version-unify"

/-- `INT.test(s)`: `^(0|[1-9][0-9]*)$`. -/
def isInt : JsString → Bool
  | [] => false
  | u :: rest => u = unit '0' && rest.isEmpty || (isDigit u && u ≠ unit '0' && rest.all isDigit)

/-- `Number.parseInt(s, 10)` of a text of digits. -/
def parseInt (s : JsString) : JsNumber := nearestNumber false (digitsValue s)

/-- The value of an `engineVersion` that is not refused. -/
def accepted : Json → Bool
  | .num n => n.isInteger && JsNumber.le (.ofNat 0) n
  | .str s => isInt s
  | _ => false

/-- What is written in place of the value. -/
def unified : Json → Json
  | .str s => .num (parseInt s)
  | v => v

/-- The value of the member `engineVersion`, or the refusal. -/
def rewrite (path : JsString) (val : Json) : Except Thrown Json :=
  if accepted val then .ok (unified val)
  else .error (.error (codemodId ++ js ": " ++ path ++ js ".engineVersion is " ++ val.stringify ++
    js ", not the decimal rendering of a non-negative integer; refusing"))

theorem rewrite_ok {path : JsString} {v w : Json} :
    rewrite path v = .ok w ↔ accepted v = true ∧ unified v = w := by
  rw [rewrite]
  split
  · next h => simp [h]
  · next h => simp [h]

theorem isObject_of_accepted {v : Json} (h : accepted v = true) :
    Json.isObject (some v) = false := by
  cases v with
  | arr items => cases h
  | obj members => cases h
  | null | bool _ | num _ | str _ => rfl

/-- Every member named `engineVersion` is taken. -/
def rule : Rule where
  takes name _ := name = js "engineVersion"
  rewrite path _ val := rewrite path val
  uniform _ _ _ _ _ h := rewrite_ok.mpr (rewrite_ok.mp h)
  scalar _ _ _ _ _ h := isObject_of_accepted (rewrite_ok.mp h).1
  alike _ _ _ _ _ := rfl

theorem takes_iff {k : JsString} {v : Json} : rule.takes k v = true ↔ k = js "engineVersion" :=
  decide_eq_true_iff

theorem rule_rewrite_ok {path k : JsString} {v w : Json} :
    rule.rewrite path k v = .ok w ↔ accepted v = true ∧ unified v = w := rewrite_ok

/-- What is thrown for a document of another kind. -/
def refusal : JsString :=
  codemodId ++ js ": input must be a run snapshot, a run event, or an array of them"

/-- `transform(doc)`. -/
def transform (doc : Json) : Except Thrown Json := transformWith rule refusal doc

end Source

section Property

/-- A string is written as a Number whose decimal rendering it is, and another value stays. -/
def Written (_name : JsString) (v w : Json) : Prop :=
  match v with
  | .str s => ∃ n : JsNumber, w = .num n ∧ n.text = s
  | v => w = v

/-- What the codemod makes of the document: the strings it converts are written so, all other members
and items stay, and a second run changes nothing. -/
def Unifies (doc : Json) : Prop :=
  ∀ out, transform doc = .ok out → Rewritten rule Written doc out ∧ transform out = .ok out

/-- The value of the digits is below `10 ^ 21` and is the shortest decimal of a double. -/
def Exact (s : JsString) : Prop :=
  digitsValue s < 10 ^ 21 ∧ (Decimal.ofNat (digitsValue s)).IsDouble

instance (s : JsString) : Decidable (Exact s) :=
  inferInstanceAs (Decidable (digitsValue s < 10 ^ 21 ∧ (Decimal.ofNat (digitsValue s)).IsDouble))

/-- Every `engineVersion` that is a string is exact as a Number. -/
def ExactVersions (doc : Json) : Prop :=
  ∀ members, HasObject doc members → ∀ s, (js "engineVersion", .str s) ∈ members → Exact s

/-- Some `engineVersion` is neither a natural number nor the digits of one. -/
def HasOther (doc : Json) : Prop :=
  ∃ members, HasObject doc members ∧ ∃ v, (js "engineVersion", v) ∈ members ∧ accepted v = false

end Property

section Correct

theorem isInteger_of_isInt {s : JsString} (h : isInt s = true) : IsInteger s := by
  cases s with
  | nil => cases h
  | cons u rest =>
    simp only [isInt, Bool.or_eq_true, Bool.and_eq_true, decide_eq_true_eq, List.isEmpty_iff,
      List.all_eq_true] at h
    rcases h with ⟨rfl, rfl⟩ | ⟨⟨hu, hne⟩, hrest⟩
    · exact Or.inl rfl
    · exact Or.inr ⟨⟨List.cons_ne_nil _ _, List.forall_mem_cons.mpr ⟨hu, hrest⟩⟩, by simpa using hne⟩

theorem exact_of_lt {s : JsString} (h : digitsValue s < 2 ^ 53) : Exact s :=
  ⟨h.trans (by norm_num), isDouble_ofNat h⟩

/-- Exactly the exact strings are the text of what they are parsed as. -/
theorem written_unified_iff {name : JsString} {v : Json} (h : accepted v = true) :
    Written name v (unified v) ↔ ∀ s, v = .str s → Exact s := by
  cases v with
  | null | bool _ | arr _ | obj _ => cases h
  | num n => exact iff_of_true rfl nofun
  | str s =>
    have htext : (parseInt s).text = s ↔ Exact s := text_nearestNumber_iff (isInteger_of_isInt h)
    simp only [Written, unified, Json.num.injEq, exists_eq_left', Json.str.injEq, forall_eq', htext]

/-- What an exact string is parsed as is accepted, and stays. -/
theorem accepted_unified {v : Json} (h : accepted v = true) (hexact : ∀ s, v = .str s → Exact s) :
    accepted (unified v) = true ∧ unified (unified v) = unified v := by
  cases v with
  | null | bool _ | arr _ | obj _ => cases h
  | num n => exact ⟨h, rfl⟩
  | str s =>
    refine ⟨?_, rfl⟩
    have hdouble := (hexact s rfl).2
    rw [Decimal.IsDouble, JsNumber.negative_ofNat, JsNumber.magnitude_ofNat] at hdouble
    have hle : JsNumber.le (.ofNat 0) (.ofNat (digitsValue s)) = true :=
      (JsNumber.le_iff (JsNumber.rank_ofNat _) (JsNumber.rank_ofNat _)).mpr (WithBot.coe_le_coe.mpr
        (WithTop.coe_le_coe.mpr (by exact_mod_cast Nat.zero_le _)))
    rw [unified, parseInt, hdouble, accepted, Bool.and_eq_true]
    exact ⟨decide_eq_true (ofNat_parts _).1, hle⟩

/-- The codemod refuses these documents only. -/
theorem refused_iff {doc : Json} : Refused rule doc ↔ HasOther doc := by
  constructor
  · rintro ⟨members, hin, ⟨k, v⟩, hm, htakes, hno⟩
    obtain rfl := takes_iff.mp htakes
    refine ⟨members, hin, v, hm, ?_⟩
    rw [← Bool.not_eq_true]
    exact fun haccepted => hno _ (rule_rewrite_ok.mpr ⟨haccepted, rfl⟩)
  · rintro ⟨members, hin, v, hm, hno⟩
    refine ⟨members, hin, _, hm, takes_iff.mpr rfl, fun w hw => ?_⟩
    rw [(rule_rewrite_ok.mp hw).1] at hno
    cases hno

/-- On a document that is not refused the codemod does what it should exactly where no member is
named `__proto__` and every `engineVersion` is exact as a Number. -/
theorem unifies_iff (doc : Json) (hdoc : Enumerated doc) :
    Unifies doc ↔ HasOther doc ∨ NoProto doc ∧ ExactVersions doc := by
  have hstays : ∀ k v w, rule.takes k v = true → rule.rewrite (js "$") k v = .ok w →
      Written k v w → rule.takes k w = true ∧ rule.rewrite (js "$") k w = .ok w := by
    intro k v w htakes hw hwritten
    obtain ⟨haccepted, rfl⟩ := rule_rewrite_ok.mp hw
    have hexact := (written_unified_iff haccepted).mp hwritten
    exact ⟨htakes, rule_rewrite_ok.mpr (accepted_unified haccepted hexact)⟩
  refine (conforms_iff hdoc hstays).trans ?_
  rw [refused_iff]
  by_cases hother : HasOther doc
  · exact iff_of_true (Or.inl hother) (Or.inl hother)
  rw [or_iff_right hother, or_iff_right hother]
  refine and_congr_right fun _ => forall₂_congr fun members hin => ?_
  constructor
  · intro h s hs
    have haccepted : accepted (.str s) = true := by
      rw [← Bool.not_eq_false]
      exact fun hno => hother ⟨members, hin, .str s, hs, hno⟩
    have hwritten := h _ hs (takes_iff.mpr rfl) _ (rule_rewrite_ok.mpr ⟨haccepted, rfl⟩)
    exact (written_unified_iff haccepted).mp hwritten s rfl
  · rintro h ⟨k, v⟩ hm htakes w hw
    obtain rfl := takes_iff.mp htakes
    obtain ⟨haccepted, rfl⟩ := rule_rewrite_ok.mp hw
    refine (written_unified_iff haccepted).mpr fun s hs => h s ?_
    obtain rfl : v = .str s := hs
    exact hm

/-- A run event with the digits of 9. -/
theorem unifies_nine : Unifies (.obj [(js "engineVersion", .str (js "9"))]) := by
  have hobject : ∀ {members},
      HasObject (.obj [(js "engineVersion", .str (js "9"))]) members →
        members = [(js "engineVersion", .str (js "9"))] := by
    rintro members (_ | _ | ⟨hm, hin⟩)
    · rfl
    · obtain rfl := List.mem_singleton.mp hm
      cases hin
  refine (unifies_iff _ fun members hin => ?_).mpr (Or.inr ⟨fun members hin => ?_,
    fun members hin s hs => ?_⟩)
  · rw [hobject hin]
    exact ⟨List.pairwise_singleton _ _, List.nodup_singleton _⟩
  · rw [hobject hin]
    decide
  · rw [hobject hin] at hs
    obtain rfl : s = js "9" := by simpa using hs
    exact exact_of_lt (by decide)

/-- The first odd number above `2 ^ 53` is written as the number below it. -/
theorem not_unifies_odd : ¬ Unifies (.obj [(js "engineVersion", .str (js "9007199254740993"))]) := by
  intro h
  have hout : transform (.obj [(js "engineVersion", .str (js "9007199254740993"))]) =
      .ok (.obj [(js "engineVersion", .num (.ofNat 9007199254740992))]) := by decide +kernel
  obtain ⟨⟨⟨-, hwritten⟩, -⟩, -⟩ := h _ hout
  rw [if_pos (takes_iff.mpr rfl)] at hwritten
  obtain ⟨n, hn, htext⟩ := hwritten
  obtain rfl := Json.num.inj hn
  revert htext
  decide +kernel

end Correct

end OpenWop.Codemods.EngineVersion
