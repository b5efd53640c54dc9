import OpenWop.Core.Delimited
import OpenWop.Js.Stringify

/-!
# Reading quoted strings back

A quoted well-formed string is a sequence of code words, one for each code unit, up to
the closing quote, which no word starts with. Words can be read back one by one.
-/

namespace OpenWop.Js

section Words

/-- A unit is half of a pair. -/
def isSurrogate (u : UInt16) : Bool := isHighSurrogate u || isLowSurrogate u

/-- The code word of a unit of a well-formed string. -/
def writeUnit (u : UInt16) : JsString := if isSurrogate u then [u] else escapeUnit u

/-- The value of a hexadecimal digit. -/
def hexValue (u : UInt16) : Nat := if u.toNat < 58 then u.toNat - 48 else u.toNat - 87

/-- The unit a short escape stands for. -/
def unescape (u : UInt16) : UInt16 :=
  if u = unit 'b' then 8 else if u = unit 't' then 9 else if u = unit 'n' then 10
  else if u = unit 'f' then 12 else if u = unit 'r' then 13 else u

/-- The unit an escape after its backslash stands for, and what follows it. -/
def readEscape : JsString → Option (UInt16 × JsString)
  | [] => none
  | x :: s =>
    if x = unit 'u' then
      match s with
      | a :: b :: c :: d :: rest =>
        some (UInt16.ofNat (hexValue a * 4096 + hexValue b * 256 + hexValue c * 16 + hexValue d), rest)
      | _ => none
    else some (unescape x, s)

/-- The first unit of a text of code words, and what follows it. -/
def readUnit : JsString → Option (UInt16 × JsString)
  | [] => none
  | u :: s => if u = unit '\\' then readEscape s else some (u, s)

/-- A control character is read back from its escape. -/
theorem readUnit_unicodeEscape {u : UInt16} (h : u < 32) (s : JsString) :
    readUnit (unicodeEscape u ++ s) = some (u, s) := by
  have hread : ∀ n : Fin 32, hexValue (hexDigit (n.val / 4096 % 16)) * 4096 +
      hexValue (hexDigit (n.val / 256 % 16)) * 256 + hexValue (hexDigit (n.val / 16 % 16)) * 16 +
      hexValue (hexDigit (n.val % 16)) = n.val := by decide
  have hlt : u.toNat < 32 := UInt16.lt_iff_toNat_lt.mp h
  have hval : readUnit (unicodeEscape u ++ s) =
      some (UInt16.ofNat (hexValue (hexDigit (u.toNat / 4096 % 16)) * 4096 +
        hexValue (hexDigit (u.toNat / 256 % 16)) * 256 + hexValue (hexDigit (u.toNat / 16 % 16)) * 16 +
        hexValue (hexDigit (u.toNat % 16))), s) := rfl
  rw [hval, hread ⟨u.toNat, hlt⟩, UInt16.ofNat_toNat]

/-- A code word is read back, whatever follows it. -/
theorem readUnit_writeUnit (u : UInt16) (s : JsString) :
    readUnit (writeUnit u ++ s) = some (u, s) := by
  rw [writeUnit]
  split
  · next hs =>
    have hne : u ≠ unit '\\' := by
      rintro rfl
      exact absurd hs (by decide)
    rw [List.cons_append, readUnit, if_neg hne, List.nil_append]
  next hs =>
  rw [escapeUnit]
  split
  · next h => rw [h]; rfl
  split
  · next h => rw [h]; rfl
  split
  · next h => rw [h]; rfl
  split
  · next h => rw [h]; rfl
  split
  · next h => rw [h]; rfl
  split
  · next h => rw [h]; rfl
  split
  · next h => rw [h]; rfl
  next hne _ _ _ _ _ =>
  split
  · next hcontrol =>
    have hlt : u < 32 := by
      rw [isSurrogate, Bool.or_eq_true, not_or] at hs
      simpa [hs] using hcontrol
    exact readUnit_unicodeEscape hlt s
  · exact if_neg hne

/-- No code word starts with a quote. -/
theorem head_writeUnit (u : UInt16) (s : JsString) : (writeUnit u ++ s).head? ≠ some (unit '"') := by
  intro h
  have hread := readUnit_writeUnit u s
  rcases hw : writeUnit u ++ s with _ | ⟨v, t⟩
  · rw [hw] at h
    cases h
  · rw [hw] at h hread
    cases h
    rw [readUnit, if_neg (by decide)] at hread
    cases hread
    have hword : writeUnit (unit '"') = [unit '\\', unit '"'] := rfl
    rw [hword] at hw
    exact absurd (List.cons.inj hw).1 (by decide)

end Words

section Strings

/-- A well-formed string is written word by word. -/
theorem quoteBody_eq {s : JsString} (h : isWellFormed s = true) :
    quoteBody s = s.flatMap writeUnit := by
  induction s using isWellFormed.induct with
  | case1 => rfl
  | case2 u =>
    simp only [isWellFormed, Bool.and_eq_true, Bool.not_eq_true'] at h
    simp [quoteBody, writeUnit, isSurrogate, h]
  | case3 u v rest hu ih =>
    simp only [isWellFormed, hu, if_true, Bool.and_eq_true] at h
    simp [quoteBody, writeUnit, isSurrogate, hu, h.1, ih h.2]
  | case4 u v rest hu ih =>
    simp only [isWellFormed, hu, Bool.false_eq_true, if_false, Bool.and_eq_true,
      Bool.not_eq_true'] at h
    have hw : writeUnit u = escapeUnit u := by simp [writeUnit, isSurrogate, hu, h.1]
    rw [quoteBody, if_neg (by simp [hu]), ih h.2, ← hw]
    rfl

/-- A quoted string is read back, whatever follows it. -/
theorem quote_append_inj {s t r r' : JsString} (hs : isWellFormed s = true)
    (ht : isWellFormed t = true) (h : quote s ++ r = quote t ++ r') : s = t ∧ r = r' := by
  rw [quote, quote, quoteBody_eq hs, quoteBody_eq ht] at h
  rw [List.cons_append, List.cons_append, List.append_assoc, List.append_assoc] at h
  have hbody := (List.cons.inj h).2
  refine Delimited.flatMap_inj (fun a _ b _ x y hxy => ?_) (fun a _ => head_writeUnit a)
    (fun b _ => head_writeUnit b) hbody
  have hread := congrArg readUnit hxy
  rw [readUnit_writeUnit, readUnit_writeUnit] at hread
  simpa using hread

theorem not_surrogate_escapeUnit {u : UInt16} (h : isSurrogate u = false) :
    ∀ v ∈ escapeUnit u, isSurrogate v = false := by
  have hhex : ∀ n : Nat, isSurrogate (hexDigit (n % 16)) = false := by
    intro n
    have hall : ∀ m : Fin 16, isSurrogate (hexDigit m.val) = false := by decide
    exact hall ⟨n % 16, Nat.mod_lt _ (by decide)⟩
  have hpair : ∀ a b, isSurrogate a = false → isSurrogate b = false →
      ∀ v ∈ [a, b], isSurrogate v = false := by
    intro a b ha hb
    exact List.forall_mem_cons.mpr ⟨ha, List.forall_mem_singleton.mpr hb⟩
  rw [escapeUnit]
  repeat' split
  all_goals first
    | exact hpair _ _ rfl rfl
    | simpa using h
    | skip
  have hb : isSurrogate (unit '\\') = false := by decide
  have hu : isSurrogate (unit 'u') = false := by decide
  simp [unicodeEscape, hb, hu, hhex]

theorem isWellFormed_escapeUnit {u : UInt16} (h : isSurrogate u = false) :
    isWellFormed (escapeUnit u) = true :=
  isWellFormed_of_no_surrogates fun v hv => by
    simpa [isSurrogate] using not_surrogate_escapeUnit h v hv

theorem isWellFormed_quoteBody {s : JsString} (h : isWellFormed s = true) :
    isWellFormed (quoteBody s) = true := by
  induction s using isWellFormed.induct with
  | case1 => rfl
  | case2 u =>
    simp only [isWellFormed, Bool.and_eq_true, Bool.not_eq_true'] at h
    exact isWellFormed_escapeUnit (by simp [isSurrogate, h])
  | case3 u v rest hu ih =>
    simp only [isWellFormed, hu, if_true, Bool.and_eq_true] at h
    simp [quoteBody, hu, h.1, isWellFormed, ih h.2]
  | case4 u v rest hu ih =>
    simp only [isWellFormed, hu, Bool.false_eq_true, if_false, Bool.and_eq_true,
      Bool.not_eq_true'] at h
    rw [quoteBody, if_neg (by simp [hu])]
    exact isWellFormed_append (isWellFormed_escapeUnit (by simp [isSurrogate, hu, h.1])) (ih h.2)

/-- A quoted well-formed string is well formed. -/
theorem isWellFormed_quote {s : JsString} (h : isWellFormed s = true) :
    isWellFormed (quote s) = true :=
  @isWellFormed_append [unit '"'] _ (by decide)
    (isWellFormed_append (isWellFormed_quoteBody h) (by decide))

end Strings

end OpenWop.Js
