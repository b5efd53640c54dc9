import OpenWop.Otlp.Shape

/-!
# Where the decoder reads an export as proto3 does

The two readings of a trace export differ in its attribute values, its texts and the parents
of its spans. A value is compared through the first field it knows, which the decoder takes,
and the last one, which proto3 takes.
-/

namespace OpenWop.Otlp

open OpenWop.Js PbReader

section Texts

/-- The three bytes of a byte order mark. -/
def orderMark : List UInt8 := [0xef, 0xbb, 0xbf]

def dropMark (bytes : List UInt8) : List UInt8 :=
  if orderMark.isPrefixOf bytes then bytes.drop 3 else bytes

/-- The text starts with no byte order mark. -/
def Unmarked (bytes : List UInt8) : Prop := ¬ orderMark <+: bytes

variable {bytes bytes' : List UInt8}

theorem textDecode_eq (bytes : List UInt8) : textDecode bytes = utf8Text (dropMark bytes) := rfl

theorem dropMark_eq_self : dropMark bytes = bytes ↔ Unmarked bytes := by
  unfold dropMark Unmarked
  by_cases h : orderMark <+: bytes
  · obtain ⟨rest, rfl⟩ := h
    rw [if_pos (by simp)]
    refine ⟨fun heq => ?_, fun hn => absurd (List.prefix_append _ _) hn⟩
    have hlen := congrArg List.length heq
    simp only [orderMark, List.length_drop, List.length_append, List.length_cons,
      List.length_nil] at hlen
    omega
  · rw [if_neg (by simpa using h)]
    simp [h]

/-- What follows a byte order mark is the UTF-8 of a text as well. -/
theorem IsUtf8.dropMark (h : IsUtf8 bytes) : IsUtf8 (dropMark bytes) := by
  unfold Otlp.dropMark
  by_cases hm : orderMark <+: bytes
  · obtain ⟨rest, rfl⟩ := hm
    have hmark : String.utf8EncodeChar '\uFEFF' = orderMark := by decide
    have hdecode : utf8Decode (orderMark ++ rest) = '\uFEFF' :: utf8Decode rest := by
      rw [← hmark]
      exact decodeBytes_utf8EncodeChar _ rest
    rw [if_pos (by simp)]
    unfold IsUtf8 at h ⊢
    rw [hdecode, List.flatMap_cons, hmark] at h
    exact List.append_cancel_left h
  · rwa [if_neg (by simpa using hm)]

theorem utf8Text_inj (h : IsUtf8 bytes) (h' : IsUtf8 bytes') :
    utf8Text bytes = utf8Text bytes' ↔ bytes = bytes' := by
  refine ⟨fun ht => ?_, congrArg utf8Text⟩
  have hs := congrArg scalars ht
  rw [scalars_utf8Text, scalars_utf8Text] at hs
  rw [← h, ← h', hs]

theorem textDecode_eq_utf8Text (h : IsUtf8 bytes) (h' : IsUtf8 bytes') :
    textDecode bytes = utf8Text bytes' ↔ dropMark bytes = bytes' := by
  rw [textDecode_eq, utf8Text_inj h.dropMark h']

end Texts

section Numbers

theorem integerText_inj {n n' : Int} (h : integerText n = integerText n') : n = n' := by
  have hminus : ∀ m k, unit '-' :: decimal m ≠ decimal k := by
    intro m k hd
    have hle := le_of_mem_decimal (hd ▸ List.mem_cons_self : unit '-' ∈ decimal k)
    have hunit : (unit '-').toNat = 45 := rfl
    omega
  unfold integerText at h
  split at h <;> split at h
  · have := decimal_inj (List.cons.inj h).2
    omega
  · exact absurd h (hminus _ _)
  · exact absurd h.symm (hminus _ _)
  · have := decimal_inj h
    omega
end Numbers

section Variants

/-- What a field says of an attribute value, whatever the rules are. -/
inductive Variant where
  | string (s : List UInt8)
  | bool (n : Nat)
  | int (n : Nat)
  | double (b : List UInt8)
  | array (values : List (List UInt8))
  | kvlist (values : List (List UInt8))
  | bytes (b : List UInt8)

def variantOf (f : Field) : Option Variant :=
  match f.number, f.payload with
  | 1, .len s => some (.string s)
  | 2, .varint n => some (.bool n)
  | 3, .varint n => some (.int n)
  | 4, .i64 b => some (.double b)
  | 5, .len m => some (.array (messages 1 m))
  | 6, .len m => some (.kvlist (messages 1 m))
  | 7, .len b => some (.bytes b)
  | _, _ => none

def variants (m : List UInt8) : List Variant := (fields m).filterMap variantOf

def variantShape (D : Dialect) (anyShape : List UInt8 → JsonAnyValue) : Variant → JsonAnyValue
  | .string s => .stringValue (D.text s)
  | .bool n => .boolValue (n != 0)
  | .int n => .intValue (integerText (D.int n))
  | .double b => .doubleValue (doubleOfBits (littleEndian b))
  | .array values => .arrayValue (values.map anyShape)
  | .kvlist values => .kvlistValue (values.map (keyValueShapeWith D anyShape))
  | .bytes b => .bytesValue (hexText b)

theorem anyValueContent_eq (D : Dialect) (anyShape : List UInt8 → JsonAnyValue) (f : Field) :
    anyValueContent D anyShape f = (variantOf f).map (variantShape D anyShape) := by
  obtain ⟨number, payload⟩ := f
  unfold anyValueContent variantOf
  dsimp only
  split
  iterate 7 rfl
  simp_all

/-- What a field of a valid message says. -/
def ValidVariant (validAny : List UInt8 → Prop) : Variant → Prop
  | .string s => IsUtf8 s
  | .int n => n < 2 ^ 64
  | .array values => ∀ m ∈ values, validAny m
  | .kvlist values => ∀ m ∈ values, ValidMessage (keyValueSchema validAny) m
  | .bool _ | .double _ | .bytes _ => True

/-- A varint of the format has 64 bits. -/
theorem payloadOf_varint_lt {wireType n : Nat} {bytes rest : List UInt8}
    (h : payloadOf wireType bytes = .ok (.varint n, rest)) : n < 2 ^ 64 := by
  obtain rfl : wireType = wireVarint := wireType_of_payload h
  simp only [payloadOf, if_true] at h
  cases hv : varintOf 10 bytes with
  | error e => simp [hv, Except.bind] at h
  | ok q =>
    simp only [hv, Except.bind] at h
    split at h
    · next hlt =>
      cases h
      exact hlt
    · cases h

theorem fieldsUpTo_varint_lt {k n : Nat} {bytes : List UInt8} {fs : List Field}
    (h : fieldsUpTo k bytes = .ok fs) {f : Field} (hf : f ∈ fs) (hn : f.payload = .varint n) :
    n < 2 ^ 64 := by
  induction k generalizing bytes fs with
  | zero =>
    cases bytes with
    | nil =>
      cases h
      simp at hf
    | cons b bs => cases h
  | succ k ih =>
    by_cases hb : bytes = []
    · subst hb
      cases h
      simp at hf
    · obtain ⟨k', g, rest, fs', hk, hfield, hrest, rfl⟩ := fieldsUpTo_cons hb h
      obtain rfl : k = k' := by omega
      obtain rfl | hf := List.mem_cons.mp hf
      · obtain ⟨tag, after, payload, rest', _, hp, heq⟩ := fieldOf_cases hfield
        cases heq
        dsimp only at hn
        subst hn
        exact payloadOf_varint_lt hp
      · exact ih hrest hf

theorem mem_fields {schema : Field → Prop} {m : List UInt8} (h : ValidMessage schema m) {f : Field}
    (hf : f ∈ fields m) : schema f ∧ ∀ n, f.payload = .varint n → n < 2 ^ 64 := by
  obtain ⟨fs, hfs, hs⟩ := h
  rw [fields_eq hfs] at hf
  exact ⟨hs f hf, fun n => fieldsUpTo_varint_lt hfs hf⟩

/-- The LEN fields with a number are what the schema says of them. -/
theorem valid_of_mem_messages {schema : Field → Prop} {valid : List UInt8 → Prop} {number : Nat}
    {m b : List UInt8} (h : ValidMessage schema m)
    (hs : ∀ f, schema f → f.number = number → IsLen valid f) (hb : b ∈ messages number m) :
    valid b := by
  obtain ⟨f, hf, hlen⟩ := List.mem_filterMap.mp hb
  unfold lenBytes at hlen
  split at hlen
  · next hnum =>
    obtain ⟨bytes, hp, hvalid⟩ := hs f (mem_fields h hf).1 hnum
    simp only [hp, Option.some.injEq] at hlen
    exact hlen ▸ hvalid
  · cases hlen

theorem valid_of_mem_variants {validAny : List UInt8 → Prop} {m : List UInt8}
    (h : ValidMessage (anyValueSchema validAny) m) {v : Variant} (hv : v ∈ variants m) :
    ValidVariant validAny v := by
  obtain ⟨⟨number, payload⟩, hf, hvariant⟩ := List.mem_filterMap.mp hv
  obtain ⟨hs, hlt⟩ := mem_fields h hf
  unfold variantOf at hvariant
  dsimp only at hvariant hs hlt
  split at hvariant
  · cases hvariant
    obtain ⟨_, heq, hutf⟩ := hs
    cases heq
    exact hutf
  · cases hvariant
    trivial
  · cases hvariant
    exact hlt _ rfl
  · cases hvariant
    trivial
  · cases hvariant
    obtain ⟨_, heq, hm⟩ := hs
    cases heq
    exact fun b => valid_of_mem_messages hm fun _ hf => hf
  · cases hvariant
    obtain ⟨_, heq, hm⟩ := hs
    cases heq
    exact fun b => valid_of_mem_messages hm fun _ hf => hf
  · cases hvariant
    trivial
  · cases hvariant

end Variants

section Alike

/-- The key that counts, of an attribute without one the empty one. -/
def keyBytes (m : List UInt8) : List UInt8 := ((messages 1 m).getLast?).getD []

/-- The value that counts, of an attribute without one the empty one. -/
def valueBytes (m : List UInt8) : List UInt8 := ((messages 2 m).getLast?).getD []

/-- The key of the first attribute, less a byte order mark, is that of the second, and the
values agree. -/
def AlikeKeyValueWith (alikeAny : List UInt8 → List UInt8 → Prop) (m m' : List UInt8) : Prop :=
  dropMark (keyBytes m) = keyBytes m' ∧ alikeAny (valueBytes m) (valueBytes m')

/-- The decoder's reading of the first is proto3's reading of the second. -/
def AlikeVariant (alikeAny : List UInt8 → List UInt8 → Prop) : Variant → Variant → Prop
  | .string s, .string s' => dropMark s = s'
  | .bool n, .bool n' => n = 0 ↔ n' = 0
  | .int n, .int n' => n = n' ∧ n < 2 ^ 63
  | .double b, .double b' => doubleOfBits (littleEndian b) = doubleOfBits (littleEndian b')
  | .array values, .array values' => List.Forall₂ alikeAny values values'
  | .kvlist values, .kvlist values' => List.Forall₂ (AlikeKeyValueWith alikeAny) values values'
  | .bytes b, .bytes b' => b = b'
  | _, _ => False

/-- The first field known of the one value is like the last one of the other. -/
def AlikeAnyUpTo : Nat → List UInt8 → List UInt8 → Prop
  | 0, _, _ => True
  | depth + 1, m, m' =>
    Option.Rel (AlikeVariant (AlikeAnyUpTo depth)) (variants m).head? (variants m').getLast?

def AlikeAnyValue (m : List UInt8) : Prop := AlikeAnyUpTo (m.length + 1) m m

variable {validAny : List UInt8 → Prop} {alikeAny : List UInt8 → List UInt8 → Prop}
  {anyShape anyShape' : List UInt8 → JsonAnyValue} {m m' : List UInt8}

theorem keyValueShapeWith_eq (D : Dialect) (ht : D.text [] = []) (m : List UInt8) :
    keyValueShapeWith D anyShape m = (D.text (keyBytes m), anyShape (valueBytes m)) := by
  rw [keyValueShapeWith, keyBytes]
  cases (messages 1 m).getLast? with
  | none => rw [Option.map_none, Option.getD_none, Option.getD_none, ht]; rfl
  | some b => rfl

theorem isUtf8_keyBytes (h : ValidMessage (keyValueSchema validAny) m) : IsUtf8 (keyBytes m) := by
  rw [keyBytes]
  cases hb : (messages 1 m).getLast? with
  | none => rfl
  | some b =>
    refine valid_of_mem_messages h (fun f hs hn => ?_) (List.mem_of_getLast? hb)
    simpa [keyValueSchema, hn] using hs

theorem valid_valueBytes (h : ValidMessage (keyValueSchema validAny) m) :
    valueBytes m = [] ∨ validAny (valueBytes m) := by
  rw [valueBytes]
  cases hb : (messages 2 m).getLast? with
  | none => exact Or.inl rfl
  | some b =>
    refine Or.inr (valid_of_mem_messages h (fun f hs hn => ?_) (List.mem_of_getLast? hb))
    simpa [keyValueSchema, hn] using hs

/-- The readings of two kinds of messages agree exactly where the relation holds. -/
def Compares {α : Type} (valid : List UInt8 → Prop) (shape shape' : List UInt8 → α)
    (alike : List UInt8 → List UInt8 → Prop) : Prop :=
  ∀ m m', valid m → valid m' → (shape m = shape' m' ↔ alike m m')

theorem Compares.map {α : Type} {valid : List UInt8 → Prop} {shape shape' : List UInt8 → α}
    {alike : List UInt8 → List UInt8 → Prop} (h : Compares valid shape shape' alike)
    {l l' : List (List UInt8)} (hl : ∀ m ∈ l, valid m) (hl' : ∀ m ∈ l', valid m) :
    l.map shape = l'.map shape' ↔ List.Forall₂ alike l l' := by
  induction l generalizing l' with
  | nil => cases l' <;> simp
  | cons m l ih =>
    cases l' with
    | nil => simp
    | cons m' l' =>
      rw [List.forall_mem_cons] at hl hl'
      rw [List.map_cons, List.map_cons, List.cons.injEq, List.forall₂_cons,
        h m m' hl.1 hl'.1, ih hl.2 hl'.2]

theorem compares_keyValue
    (hany : Compares (fun m => m = [] ∨ validAny m) anyShape anyShape' alikeAny) :
    Compares (ValidMessage (keyValueSchema validAny)) (keyValueShapeWith decoderDialect anyShape)
      (keyValueShapeWith proto3 anyShape') (AlikeKeyValueWith alikeAny) := by
  intro m m' h h'
  rw [keyValueShapeWith_eq decoderDialect rfl, keyValueShapeWith_eq proto3 rfl, Prod.mk.injEq]
  exact and_congr (textDecode_eq_utf8Text (isUtf8_keyBytes h) (isUtf8_keyBytes h'))
    (hany _ _ (valid_valueBytes h) (valid_valueBytes h'))

theorem intText_eq {n n' : Nat} (h : n' < 2 ^ 64) :
    integerText n = integerText (signedWord n') ↔ n = n' ∧ n < 2 ^ 63 := by
  have hinj : integerText n = integerText (signedWord n') ↔ (n : Int) = signedWord n' :=
    ⟨integerText_inj, congrArg integerText⟩
  rw [hinj, signedWord]
  split
  · omega
  · omega

theorem variantShape_eq_iff
    (hany : Compares (fun m => m = [] ∨ validAny m) anyShape anyShape' alikeAny)
    {v v' : Variant} (h : ValidVariant validAny v) (h' : ValidVariant validAny v') :
    variantShape decoderDialect anyShape v = variantShape proto3 anyShape' v' ↔
      AlikeVariant alikeAny v v' := by
  cases v <;> cases v'
  case string.string s s' =>
    rw [variantShape, variantShape, JsonAnyValue.stringValue.injEq]
    exact textDecode_eq_utf8Text h h'
  case bool.bool n n' =>
    rw [variantShape, variantShape, JsonAnyValue.boolValue.injEq, AlikeVariant, Bool.eq_iff_iff,
      bne_iff_ne, bne_iff_ne, not_iff_not]
  case int.int n n' =>
    rw [variantShape, variantShape, JsonAnyValue.intValue.injEq]
    exact intText_eq h'
  case double.double b b' =>
    rw [variantShape, variantShape, JsonAnyValue.doubleValue.injEq, AlikeVariant]
  case array.array l l' =>
    rw [variantShape, variantShape, JsonAnyValue.arrayValue.injEq]
    exact hany.map (fun m hm => Or.inr (h m hm)) fun m hm => Or.inr (h' m hm)
  case kvlist.kvlist l l' =>
    rw [variantShape, variantShape, JsonAnyValue.kvlistValue.injEq]
    exact (compares_keyValue hany).map h h'
  case bytes.bytes b b' =>
    rw [variantShape, variantShape, JsonAnyValue.bytesValue.injEq]
    exact ⟨hexText_inj, congrArg hexText⟩
  all_goals simp [variantShape, AlikeVariant]

theorem variantShape_ne_empty (D : Dialect) (v : Variant) : variantShape D anyShape v ≠ .empty := by
  cases v <;> simp [variantShape]

theorem anyValueShapeUpTo_succ (D : Dialect) (depth : Nat) (m : List UInt8) :
    anyValueShapeUpTo D (depth + 1) m =
      (D.pick ((variants m).map (variantShape D (anyValueShapeUpTo D depth)))).getD .empty := by
  have hcontent : anyValueContent D (anyValueShapeUpTo D depth) =
      fun f => (variantOf f).map (variantShape D (anyValueShapeUpTo D depth)) :=
    funext (anyValueContent_eq D _)
  rw [anyValueShapeUpTo, hcontent, variants, List.map_filterMap]

theorem compares_anyValueUpTo (depth : Nat) :
    Compares (fun m => m = [] ∨ ValidAnyValueUpTo depth m) (anyValueShapeUpTo decoderDialect depth)
      (anyValueShapeUpTo proto3 depth) (AlikeAnyUpTo depth) := by
  induction depth with
  | zero => exact fun m m' _ _ => iff_of_true rfl trivial
  | succ depth ih =>
    intro m m' h h'
    have hvalid : ∀ b, b = [] ∨ ValidAnyValueUpTo (depth + 1) b → ∀ v ∈ variants b,
        ValidVariant (ValidAnyValueUpTo depth) v := by
      intro b hb v hv
      obtain rfl | hb := hb
      · simp [variants, fields, fieldsOf, fieldsUpTo, Except.toOption] at hv
      · exact valid_of_mem_variants hb hv
    rw [anyValueShapeUpTo_succ, anyValueShapeUpTo_succ, AlikeAnyUpTo]
    change (List.head? _).getD _ = (List.getLast? _).getD _ ↔ _
    rw [List.head?_map, List.getLast?_map]
    cases hv : (variants m).head? with
    | none =>
      cases hv' : (variants m').getLast? with
      | none => exact iff_of_true rfl Option.Rel.none
      | some v' => exact iff_of_false (variantShape_ne_empty _ v').symm (by rintro ⟨⟩)
    | some v =>
      cases hv' : (variants m').getLast? with
      | none => exact iff_of_false (variantShape_ne_empty _ v) (by rintro ⟨⟩)
      | some v' =>
        have hshape := variantShape_eq_iff ih (hvalid m h v (List.mem_of_head? hv))
          (hvalid m' h' v' (List.mem_of_getLast? hv'))
        exact hshape.trans ⟨Option.Rel.some, fun hrel => by cases hrel; assumption⟩

end Alike

section Exports

/-- The key starts with no byte order mark, and the value is read alike. -/
def AlikeKeyValue (m : List UInt8) : Prop :=
  Unmarked (keyBytes m) ∧ AlikeAnyValue (valueBytes m)

def AlikeResource (m : List UInt8) : Prop := ∀ kv ∈ messages 1 m, AlikeKeyValue kv

/-- The last parent of a span counts, or none does. -/
def AlikeParent (ids : List (List UInt8)) : Prop :=
  ids.getLast? = some [] → ∀ id ∈ ids, id = []

structure AlikeSpan (m : List UInt8) : Prop where
  name : ∀ name ∈ (messages 5 m).getLast?, Unmarked name
  parent : AlikeParent (messages 4 m)
  attributes : ∀ kv ∈ messages 9 m, AlikeKeyValue kv

def AlikeScopeSpans (m : List UInt8) : Prop := ∀ span ∈ messages 2 m, AlikeSpan span

structure AlikeResourceSpans (m : List UInt8) : Prop where
  resource : ∀ resource ∈ (messages 1 m).getLast?, AlikeResource resource
  scopeSpans : ∀ scopeSpans ∈ messages 2 m, AlikeScopeSpans scopeSpans

/-- The decoder reads the export as proto3 does. -/
def AlikeTraces (m : List UInt8) : Prop := ∀ spans ∈ messages 1 m, AlikeResourceSpans spans

variable {m : List UInt8}

theorem keyValueShape_eq_iff (h : ValidKeyValue m) :
    keyValueShape decoderDialect m = keyValueShape proto3 m ↔ AlikeKeyValue m := by
  have hkey := isUtf8_keyBytes h
  unfold keyValueShape
  rw [keyValueShapeWith_eq decoderDialect rfl, keyValueShapeWith_eq proto3 rfl, Prod.mk.injEq]
  have hvalue : valueBytes m = [] ∨ ValidAnyValue (valueBytes m) := valid_valueBytes h
  exact and_congr ((textDecode_eq_utf8Text hkey hkey).trans dropMark_eq_self)
    (compares_anyValueUpTo _ _ _ hvalue hvalue)

theorem map_keyValueShape_eq_iff {l : List (List UInt8)} (hl : ∀ kv ∈ l, ValidKeyValue kv) :
    l.map (keyValueShape decoderDialect) = l.map (keyValueShape proto3) ↔
      ∀ kv ∈ l, AlikeKeyValue kv := by
  rw [List.map_inj_left]
  exact forall₂_congr fun kv hkv => keyValueShape_eq_iff (hl kv hkv)

theorem resourceShape_eq_iff (h : ValidResource m) :
    resourceShape decoderDialect m = resourceShape proto3 m ↔ AlikeResource m := by
  rw [resourceShape, resourceShape, JsonResource.mk.injEq]
  exact map_keyValueShape_eq_iff fun kv => valid_of_mem_messages h fun _ hf => hf

theorem someAttributes_inj {l l' : List JsonKeyValue} :
    someAttributes l = someAttributes l' ↔ l = l' := by
  cases l <;> cases l' <;> simp [someAttributes]

theorem parent_eq_iff (ids : List (List UInt8)) :
    decoderDialect.parent (ids.map hexText) = proto3.parent (ids.map hexText) ↔
      AlikeParent ids := by
  have hempty : ∀ id : List UInt8, hexText id = [] ↔ id = [] := by
    intro id
    cases id <;> simp [hexText, hexByte]
  induction ids using List.reverseRecOn with
  | nil => exact iff_of_true rfl (fun h => by cases h)
  | append_singleton ids id _ =>
    rw [AlikeParent, List.getLast?_concat]
    change (List.filter _ _).getLast? = Option.filter _ (List.getLast? _) ↔ _
    rw [List.map_append, List.map_singleton, List.filter_append, List.getLast?_concat]
    by_cases hid : id = []
    · subst hid
      have hlast : ((ids.map hexText).filter (! ·.isEmpty)).getLast? = none ↔
          ∀ id ∈ ids, id = [] := by
        simp only [List.getLast?_eq_none_iff, List.filter_eq_nil_iff, List.forall_mem_map,
          Bool.not_eq_true', List.isEmpty_eq_false_iff, not_not, ne_eq, hempty]
      have hall : (∀ id ∈ ids ++ [[]], id = []) ↔ ∀ id ∈ ids, id = [] := by
        rw [List.forall_mem_append]
        simp
      have hnil : [hexText []].filter (! ·.isEmpty) = [] := rfl
      rw [hnil, List.append_nil, hall]
      exact hlast.trans (by simp)
    · have hne : (! (hexText id).isEmpty) = true := by simp [hempty, hid]
      have hone : [hexText id].filter (! ·.isEmpty) = [hexText id] := List.filter_cons_of_pos hne
      rw [hone, List.getLast?_concat, Option.filter_some, if_pos hne]
      simp [hid]

theorem spanShape_eq_iff (h : ValidSpan m) :
    spanShape decoderDialect m = spanShape proto3 m ↔ AlikeSpan m := by
  have hname : ((messages 5 m).getLast?.map decoderDialect.text =
      (messages 5 m).getLast?.map proto3.text) ↔
        ∀ name ∈ (messages 5 m).getLast?, Unmarked name := by
    cases hlast : (messages 5 m).getLast? with
    | none => exact iff_of_true rfl nofun
    | some name =>
      have hutf : IsUtf8 name := by
        refine valid_of_mem_messages h (fun f hs hn => ?_) (List.mem_of_getLast? hlast)
        simpa [spanSchema, hn] using hs
      have htext : decoderDialect.text name = proto3.text name ↔ Unmarked name :=
        (textDecode_eq_utf8Text hutf hutf).trans dropMark_eq_self
      simpa using htext
  have hattributes : ∀ kv ∈ messages 9 m, ValidKeyValue kv := fun kv =>
    valid_of_mem_messages h fun f hs hn => by simpa [spanSchema, hn] using hs
  have hfields : spanShape decoderDialect m = spanShape proto3 m ↔
      (decoderDialect.parent ((messages 4 m).map hexText) =
        proto3.parent ((messages 4 m).map hexText)) ∧
      (messages 5 m).getLast?.map decoderDialect.text = (messages 5 m).getLast?.map proto3.text ∧
      someAttributes ((messages 9 m).map (keyValueShape decoderDialect)) =
        someAttributes ((messages 9 m).map (keyValueShape proto3)) := by
    simp [spanShape]
  rw [hfields, parent_eq_iff, hname, someAttributes_inj, map_keyValueShape_eq_iff hattributes]
  exact ⟨fun ⟨hp, hn, ha⟩ => ⟨hn, hp, ha⟩, fun ⟨hn, hp, ha⟩ => ⟨hp, hn, ha⟩⟩

theorem scopeSpansShape_eq_iff (h : ValidScopeSpans m) :
    scopeSpansShape decoderDialect m = scopeSpansShape proto3 m ↔ AlikeScopeSpans m := by
  rw [scopeSpansShape, scopeSpansShape, JsonScopeSpans.mk.injEq, List.map_inj_left]
  exact forall₂_congr fun span hspan =>
    spanShape_eq_iff (valid_of_mem_messages h (fun _ hf => hf) hspan)

theorem resourceSpansShape_eq_iff (h : ValidResourceSpans m) :
    resourceSpansShape decoderDialect m = resourceSpansShape proto3 m ↔ AlikeResourceSpans m := by
  have hresource : ((messages 1 m).getLast?.map (resourceShape decoderDialect) =
      (messages 1 m).getLast?.map (resourceShape proto3)) ↔
        ∀ resource ∈ (messages 1 m).getLast?, AlikeResource resource := by
    cases hlast : (messages 1 m).getLast? with
    | none => exact iff_of_true rfl nofun
    | some resource =>
      have hvalid : ValidResource resource := by
        refine valid_of_mem_messages h (fun f hs hn => ?_) (List.mem_of_getLast? hlast)
        simpa [resourceSpansSchema, hn] using hs
      simpa using resourceShape_eq_iff hvalid
  have hscopes : ∀ scopeSpans ∈ messages 2 m, ValidScopeSpans scopeSpans := fun scopeSpans =>
    valid_of_mem_messages h fun f hs hn => by simpa [resourceSpansSchema, hn] using hs
  rw [resourceSpansShape, resourceSpansShape, JsonResourceSpans.mk.injEq, hresource,
    List.map_inj_left]
  rw [forall₂_congr fun scopeSpans hs => scopeSpansShape_eq_iff (hscopes scopeSpans hs)]
  exact ⟨fun ⟨hr, hs⟩ => ⟨hr, hs⟩, fun ⟨hr, hs⟩ => ⟨hr, hs⟩⟩

theorem traceShape_eq_iff (h : ValidTraceRequest m) :
    traceShape decoderDialect m = traceShape proto3 m ↔ AlikeTraces m := by
  rw [traceShape, traceShape, JsonExportTraceServiceRequest.mk.injEq, List.map_inj_left]
  exact forall₂_congr fun spans hspans =>
    resourceSpansShape_eq_iff (valid_of_mem_messages h (fun _ hf => hf) hspans)

end Exports

section Samples

/-- A short LEN field. -/
def lenField (number : Nat) (b : List UInt8) : List UInt8 :=
  UInt8.ofNat (8 * number + 2) :: UInt8.ofNat b.length :: b

theorem varintOf_short {n t : Nat} (hn : n < 128) (rest : List UInt8) :
    varintOf (t + 1) (UInt8.ofNat n :: rest) = .ok (n, rest) := by
  have htoNat : (UInt8.ofNat n).toNat = n := toNat_byte (by omega)
  rw [varintOf, htoNat, if_pos (by omega)]

variable {number : Nat} {b : List UInt8}

theorem fieldsOf_lenField (hn : number < 15) (hb : b.length < 128) :
    fieldsOf (lenField number b) = .ok [⟨number, .len b⟩] := by
  have htag : tagOf (lenField number b) = .ok (⟨number, wireLen⟩, UInt8.ofNat b.length :: b) := by
    rw [tagOf, lenField, varintOf_short (by omega)]
    have hlt : 8 * number + 2 < 2 ^ 32 := by omega
    have hnumber : (8 * number + 2) / 8 = number := by omega
    have hwire : (8 * number + 2) % 8 = 2 := by omega
    simp only [Except.bind, if_pos hlt, hnumber, hwire]
    rfl
  have hpayload : payloadOf wireLen (UInt8.ofNat b.length :: b) = .ok (.len b, []) := by
    simp [payloadOf, wireLen, wireVarint, wireI64, varintOf_short hb, Except.bind, Except.map,
      takeBytes]
  have hfield : fieldOf (lenField number b) = .ok (⟨number, .len b⟩, []) := by
    simp only [fieldOf, htag, Except.bind, hpayload, Except.map]
  rw [fieldsOf, lenField, List.length_cons, fieldsUpTo, ← lenField, hfield]
  rfl

theorem validMessage_lenField {schema : Field → Prop} (hn : number < 15) (hb : b.length < 128)
    (hs : schema ⟨number, .len b⟩) : ValidMessage schema (lenField number b) :=
  ⟨_, fieldsOf_lenField hn hb, by simpa using hs⟩

theorem messages_lenField (hn : number < 15) (hb : b.length < 128) (k : Nat) :
    messages k (lenField number b) = if number = k then [b] else [] := by
  rw [messages, fields_eq (fieldsOf_lenField hn hb)]
  unfold lenBytes
  by_cases hk : number = k <;> simp [hk]

/-- An export of one span with one attribute. -/
def oneAttribute (value : List UInt8) : List UInt8 :=
  lenField 1 (lenField 2 (lenField 2 (lenField 9 (lenField 2 value))))

variable {value : List UInt8}

theorem valid_oneAttribute (hlen : value.length < 64) (hv : ValidAnyValue value) :
    ValidTraceRequest (oneAttribute value) := by
  refine validMessage_lenField (by omega) (by simp [lenField]; omega) fun _ => ⟨_, rfl, ?_⟩
  refine validMessage_lenField (by omega) (by simp [lenField]; omega) ⟨_, rfl, ?_⟩
  refine validMessage_lenField (by omega) (by simp [lenField]; omega) fun _ => ⟨_, rfl, ?_⟩
  refine validMessage_lenField (by omega) (by simp [lenField]; omega) ⟨_, rfl, ?_⟩
  exact validMessage_lenField (by omega) (by omega) ⟨_, rfl, hv⟩

theorem mem_messages_lenField (hn : number < 15) (hb : b.length < 128) :
    b ∈ messages number (lenField number b) := by
  rw [messages_lenField hn hb, if_pos rfl]
  exact List.mem_singleton_self b

/-- Of such an export only the value matters. -/
theorem alike_oneAttribute (hlen : value.length < 64) :
    AlikeTraces (oneAttribute value) ↔ AlikeAnyValue value := by
  have hkey : keyBytes (lenField 2 value) = [] := by
    rw [keyBytes, messages_lenField (by omega) (by omega), if_neg (by omega)]
    rfl
  have hvalue : valueBytes (lenField 2 value) = value := by
    rw [valueBytes, messages_lenField (by omega) (by omega), if_pos rfl]
    rfl
  have hspan : AlikeSpan (lenField 9 (lenField 2 value)) ↔ AlikeKeyValue (lenField 2 value) := by
    have hb : (lenField 2 value).length < 128 := by simp [lenField]; omega
    refine ⟨fun h => h.attributes _ (mem_messages_lenField (by omega) hb), fun h => ⟨?_, ?_, ?_⟩⟩
    · rw [messages_lenField (by omega) hb]
      simp
    · rw [messages_lenField (by omega) hb]
      exact nofun
    · rw [messages_lenField (by omega) hb]
      simpa using h
  have hspans : AlikeResourceSpans (lenField 2 (lenField 2 (lenField 9 (lenField 2 value)))) ↔
      AlikeSpan (lenField 9 (lenField 2 value)) := by
    have hb : (lenField 9 (lenField 2 value)).length < 100 := by simp [lenField]; omega
    have hb' : (lenField 2 (lenField 9 (lenField 2 value))).length < 128 := by
      rw [lenField]
      simp only [List.length_cons]
      omega
    refine ⟨fun h => h.scopeSpans _ (mem_messages_lenField (by omega) hb') _
      (mem_messages_lenField (by omega) (by omega)), fun h => ⟨?_, ?_⟩⟩
    · rw [messages_lenField (by omega) hb']
      simp
    · rw [messages_lenField (by omega) hb', if_pos rfl]
      intro scopeSpans hs span hspan
      obtain rfl := List.mem_singleton.mp hs
      rw [messages_lenField (by omega) (by omega), if_pos rfl, List.mem_singleton] at hspan
      exact hspan ▸ h
  have hb : (lenField 2 (lenField 2 (lenField 9 (lenField 2 value)))).length < 128 := by
    simp [lenField]
    omega
  have htraces : AlikeTraces (oneAttribute value) ↔
      AlikeResourceSpans (lenField 2 (lenField 2 (lenField 9 (lenField 2 value)))) := by
    rw [AlikeTraces, oneAttribute, messages_lenField (by omega) hb, if_pos rfl]
    simp
  have hunmarked : Unmarked [] := by simp [Unmarked, orderMark]
  rw [htraces, hspans, hspan, AlikeKeyValue, hkey, hvalue]
  exact and_iff_right hunmarked

end Samples

section Decoding

/-- The decoder gives the export's value in exactly these cases. -/
theorem decodesValue_iff (buf : Uint8Array) (h : ValidTraceRequest buf.bytes) :
    decodeExportTraceServiceRequest buf = .ok (traceShape proto3 buf.bytes) ↔
      AlikeTraces buf.bytes := by
  rw [decodeExportTraceServiceRequest_eq buf h, Except.ok.injEq, traceShape_eq_iff h]

/-- `int_value: 5`. -/
def intFive : List UInt8 := [0x18, 5]

theorem fieldsOf_intFive : fieldsOf intFive = .ok [⟨3, .varint 5⟩] := rfl

theorem valid_intFive : ValidAnyValue intFive :=
  ⟨_, fieldsOf_intFive, by simp [anyValueSchema, IsVarint]⟩

theorem alike_intFive : AlikeAnyValue intFive := by
  have hv : variants intFive = [.int 5] := by
    rw [variants, fields_eq fieldsOf_intFive]
    rfl
  rw [AlikeAnyValue, AlikeAnyUpTo, hv]
  exact Option.Rel.some ⟨rfl, by norm_num⟩

/-- The export of one span with the attribute `5`. -/
def fiveBuffer : Uint8Array := ⟨oneAttribute intFive, by decide⟩

theorem decodesValue_five : decodeExportTraceServiceRequest fiveBuffer =
    .ok (traceShape proto3 fiveBuffer.bytes) :=
  (decodesValue_iff fiveBuffer (valid_oneAttribute (by decide) valid_intFive)).mpr
    ((alike_oneAttribute (by decide)).mpr alike_intFive)

/-- `int_value: -1`. -/
def intMinusOne : List UInt8 := 0x18 :: (List.replicate 9 0xff ++ [1])

theorem fieldsOf_intMinusOne : fieldsOf intMinusOne = .ok [⟨3, .varint (2 ^ 64 - 1)⟩] := rfl

/-- The attribute `-1` is read as `18446744073709551615`. -/
theorem not_decodesValue : ¬ ∀ buf : Uint8Array, ValidTraceRequest buf.bytes →
    decodeExportTraceServiceRequest buf = .ok (traceShape proto3 buf.bytes) := by
  intro h
  have hvalid : ValidTraceRequest (oneAttribute intMinusOne) :=
    valid_oneAttribute (by decide)
      ⟨_, fieldsOf_intMinusOne, by simp [anyValueSchema, IsVarint]⟩
  have hread := h ⟨oneAttribute intMinusOne, by decide⟩ hvalid
  rw [decodeExportTraceServiceRequest_eq _ hvalid, Except.ok.injEq, traceShape_eq_iff hvalid,
    alike_oneAttribute (by decide)] at hread
  have hv : variants intMinusOne = [.int (2 ^ 64 - 1)] := by
    rw [variants, fields_eq fieldsOf_intMinusOne]
    rfl
  rw [AlikeAnyValue, AlikeAnyUpTo, hv] at hread
  cases hread with
  | some hint => exact absurd hint.2 (by norm_num)

end Decoding

end OpenWop.Otlp
