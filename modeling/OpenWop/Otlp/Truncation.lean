import OpenWop.Otlp.Shape

/-!
# Where the decoders look for the end of a message

Every read of a decoder is checked, or it skips a payload without looking at its end. The
kinds of messages are listed with what their decoders do with a field, and a message is
turned away exactly when a check on the way fails. So no decoder reads past the range of
its reader or fails to end, and the fields that run past the end unseen are the skipped ones.
-/

namespace OpenWop.Otlp

open OpenWop.Js PbReader

section Kinds

/-- The messages the decoders know. -/
inductive Kind where
  | traces
  | resourceSpans
  | scopeSpans
  | span
  | resource
  | keyValue
  | anyValue
  | arrayValue
  | kvlist
  | metrics
  | resourceMetrics
  | scopeMetrics
  | metric
  | dataPoints
  | dataPoint
  deriving DecidableEq, Repr

/-- What a decoder does with a field. -/
inductive Reading where
  | varint
  | i64
  | len
  | message (kind : Kind)
  | skip (wireType : Nat)
  deriving DecidableEq, Repr

/-- The fields a decoder knows, by number. -/
def Kind.known : Kind → Nat → Option Reading
  | .traces, 1 => some (.message .resourceSpans)
  | .resourceSpans, 1 => some (.message .resource)
  | .resourceSpans, 2 => some (.message .scopeSpans)
  | .scopeSpans, 2 => some (.message .span)
  | .span, 1 | .span, 2 | .span, 4 | .span, 5 => some .len
  | .span, 7 | .span, 8 => some .i64
  | .span, 9 => some (.message .keyValue)
  | .resource, 1 => some (.message .keyValue)
  | .keyValue, 1 => some .len
  | .keyValue, 2 => some (.message .anyValue)
  | .anyValue, 1 | .anyValue, 7 => some .len
  | .anyValue, 2 | .anyValue, 3 => some .varint
  | .anyValue, 4 => some .i64
  | .anyValue, 5 => some (.message .arrayValue)
  | .anyValue, 6 => some (.message .kvlist)
  | .arrayValue, 1 => some (.message .anyValue)
  | .kvlist, 1 => some (.message .keyValue)
  | .metrics, 1 => some (.message .resourceMetrics)
  | .resourceMetrics, 1 => some (.message .resource)
  | .resourceMetrics, 2 => some (.message .scopeMetrics)
  | .scopeMetrics, 2 => some (.message .metric)
  | .metric, 1 | .metric, 2 | .metric, 3 => some .len
  | .metric, 5 | .metric, 7 | .metric, 9 => some (.message .dataPoints)
  | .dataPoints, 1 => some (.message .dataPoint)
  | .dataPoint, 4 | .dataPoint, 6 => some .i64
  | .dataPoint, 7 => some (.message .keyValue)
  | _, _ => none

/-- The numbers of those fields. -/
def Kind.numbers : Kind → List Nat
  | .traces | .resource | .arrayValue | .kvlist | .metrics | .dataPoints => [1]
  | .resourceSpans | .keyValue | .resourceMetrics => [1, 2]
  | .scopeSpans | .scopeMetrics => [2]
  | .span => [1, 2, 4, 5, 7, 8, 9]
  | .anyValue => [1, 2, 3, 4, 5, 6, 7]
  | .metric => [1, 2, 3, 5, 7, 9]
  | .dataPoint => [4, 6, 7]

theorem Kind.known_eq_none {kind : Kind} {n : Nat} (h : n ∉ kind.numbers) :
    kind.known n = none := by
  unfold Kind.known
  split <;> simp_all [Kind.numbers]

/-- The decoder switches on the number alone. -/
def Kind.byNumber : Kind → Bool
  | .span | .anyValue | .metric | .dataPoint => true
  | _ => false

/-- What the decoder of a kind does with a field of that tag. -/
def Kind.reading (kind : Kind) (tag : Tag) : Reading :=
  if kind.byNumber = true ∨ tag.wireType = wireLen then
    (kind.known tag.fieldNumber).getD (.skip tag.wireType)
  else .skip tag.wireType

/-- The decoder returns after a field of that tag. -/
def Kind.ends (kind : Kind) (tag : Tag) : Bool :=
  decide (kind = .anyValue) && (kind.known tag.fieldNumber).isSome

/-- What the bytes of a payload leave, as far as they are checked. -/
def Reading.rest (bytes : List UInt8) : Reading → Except Flaw (List UInt8)
  | .varint => (varintOf 10 bytes).map Prod.snd
  | .i64 => (payloadOf wireI64 bytes).map Prod.snd
  | .len | .message _ => (payloadOf wireLen bytes).map Prod.snd
  | .skip 0 => (varintOf 10 bytes).map Prod.snd
  | .skip 1 => .ok (bytes.drop 8)
  | .skip 2 => (varintOf 10 bytes).map fun p => p.2.drop p.1
  | .skip 5 => .ok (bytes.drop 4)
  | .skip _ => .error .malformed

/-- The tag at the front as `readTag` has it. -/
def looseTagOf (bytes : List UInt8) : Except Flaw (Tag × List UInt8) :=
  (varintOf 10 bytes).map fun p =>
    (⟨bigintNumber p.1 % 2 ^ 32 / 8, bigintNumber p.1 % 8⟩, p.2)

end Kinds

section Checks

/-- A check of a decoder fails: on a tag, on a payload, inside an embedded message, or on a
later field, unless the decoder has returned before it. -/
inductive Caught : Kind → List UInt8 → Prop where
  | tag {kind m e} : m ≠ [] → looseTagOf m = .error e → Caught kind m
  | payload {kind m tag after e} : looseTagOf m = .ok (tag, after) →
      (kind.reading tag).rest after = .error e → Caught kind m
  | inside {kind inner m tag after b rest} : looseTagOf m = .ok (tag, after) →
      kind.reading tag = .message inner → payloadOf wireLen after = .ok (.len b, rest) →
      Caught inner b → Caught kind m
  | later {kind m tag after rest} : looseTagOf m = .ok (tag, after) → kind.ends tag = false →
      (kind.reading tag).rest after = .ok rest → Caught kind rest → Caught kind m

/-- Some field of the message, or of a message in it, runs past the end of its message. -/
inductive Overruns : Kind → List UInt8 → Prop where
  | here {kind m} : m ≠ [] → fieldOf m = .error .overrun → Overruns kind m
  | inside {kind inner m number b rest} : fieldOf m = .ok (⟨number, .len b⟩, rest) →
      kind.known number = some (.message inner) → Overruns inner b → Overruns kind m
  | later {kind m f rest} : fieldOf m = .ok (f, rest) → Overruns kind rest → Overruns kind m

/-- A check fails on a payload. -/
def Reading.Trips (reading : Reading) (bytes : List UInt8) : Prop :=
  (∃ e, reading.rest bytes = .error e) ∨
    ∃ inner b rest, reading = .message inner ∧ payloadOf wireLen bytes = .ok (.len b, rest) ∧
      Caught inner b

variable {kind : Kind} {m after : List UInt8} {tag : Tag}

theorem not_caught_nil : ¬ Caught kind [] := by
  intro h
  cases h with
  | tag hne _ => exact hne rfl
  | payload ht _ => cases ht
  | inside ht _ _ _ => cases ht
  | later ht _ _ _ => cases ht

/-- A message is caught at its first field, or at a later one. -/
theorem caught_iff (ht : looseTagOf m = .ok (tag, after)) :
    Caught kind m ↔ (kind.reading tag).Trips after ∨
      kind.ends tag = false ∧ ∃ rest, (kind.reading tag).rest after = .ok rest ∧
        Caught kind rest := by
  constructor
  · intro h
    cases h with
    | tag _ he => simp [ht] at he
    | payload ht' he =>
      cases ht.symm.trans ht'
      exact Or.inl (Or.inl ⟨_, he⟩)
    | inside ht' hr hp hc =>
      cases ht.symm.trans ht'
      exact Or.inl (Or.inr ⟨_, _, _, hr, hp, hc⟩)
    | later ht' hend hrest hc =>
      cases ht.symm.trans ht'
      exact Or.inr ⟨hend, _, hrest, hc⟩
  · rintro ((⟨e, he⟩ | ⟨inner, b, rest, hr, hp, hc⟩) | ⟨hend, rest, hrest, hc⟩)
    · exact .payload ht he
    · exact .inside ht hr hp hc
    · exact .later ht hend hrest hc

/-- After a first field that is fine the later ones decide. -/
theorem caught_iff_rest {rest : List UInt8} (ht : looseTagOf m = .ok (tag, after))
    (htrips : ¬ (kind.reading tag).Trips after) (hend : kind.ends tag = false)
    (hrest : (kind.reading tag).rest after = .ok rest) : Caught kind m ↔ Caught kind rest := by
  rw [caught_iff ht]
  constructor
  · rintro (h | ⟨_, rest', hrest', hc⟩)
    · exact absurd h htrips
    · cases hrest.symm.trans hrest'
      exact hc
  · exact fun hc => Or.inr ⟨hend, rest, hrest, hc⟩

theorem looseTagOf_length {p : Tag × List UInt8} (h : looseTagOf m = .ok p) :
    p.2.length < m.length := by
  unfold looseTagOf at h
  cases hv : varintOf 10 m with
  | error e => simp [hv, Except.map] at h
  | ok q =>
    simp only [hv, Except.map] at h
    cases h
    exact varintOf_length hv

theorem exists_of_map_ok {α β ε : Type} {x : Except ε α} {g : α → β} {b : β}
    (h : x.map g = .ok b) : ∃ a, x = .ok a ∧ g a = b := by
  cases x with
  | error e => cases h
  | ok a => exact ⟨a, rfl, Except.ok.inj h⟩

theorem rest_length {reading : Reading} {rest : List UInt8} (h : reading.rest after = .ok rest) :
    rest.length ≤ after.length := by
  unfold Reading.rest at h
  split at h
  · obtain ⟨p, hv, rfl⟩ := exists_of_map_ok h
    exact (varintOf_length hv).le
  · obtain ⟨p, hp, rfl⟩ := exists_of_map_ok h
    exact payloadOf_length hp
  · obtain ⟨p, hp, rfl⟩ := exists_of_map_ok h
    exact payloadOf_length hp
  · obtain ⟨p, hp, rfl⟩ := exists_of_map_ok h
    exact payloadOf_length hp
  · obtain ⟨p, hv, rfl⟩ := exists_of_map_ok h
    exact (varintOf_length hv).le
  · cases h
    simp
  · obtain ⟨p, hv, rfl⟩ := exists_of_map_ok h
    have := varintOf_length hv
    rw [List.length_drop]
    omega
  · cases h
    simp
  · cases h

theorem payloadOf_wireLen_length {b rest : List UInt8}
    (h : payloadOf wireLen after = .ok (.len b, rest)) : b.length ≤ after.length := by
  simp only [payloadOf, wireLen, wireVarint, wireI64, OfNat.ofNat_ne_zero, OfNat.ofNat_ne_one,
    if_false, if_true] at h
  cases hv : varintOf 10 after with
  | error f => simp [hv, Except.bind] at h
  | ok q =>
    have := varintOf_length hv
    cases ht : takeBytes q.1 q.2 with
    | error f => simp [hv, ht, Except.bind, Except.map] at h
    | ok q' =>
      obtain ⟨hle, rfl⟩ := takeBytes_eq ht
      simp only [hv, ht, Except.bind, Except.map] at h
      cases h
      rw [List.length_take]
      omega

end Checks

section Outcomes

variable {α σ : Type} {kind inner : Kind} {m after : List UInt8} {tag : Tag} {reading : Reading}
  {r : PbReader} {bound : Nat}

/-- The decoder throws an error of its own exactly when the condition holds. -/
def Outcome (x : Except DecodeError α) (caught : Prop) : Prop :=
  match x with
  | .ok _ => ¬ caught
  | .error e => e.Thrown ∧ caught

/-- The decoder catches what there is to catch in shorter messages than that. -/
def Decides (decode : PbReader → Except DecodeError α) (kind : Kind) (bound : Nat) : Prop :=
  ∀ r m, r.Holds m → m.length < bound → Outcome (decode r) (Caught kind m)

/-- A read of a payload, checked as the reading says. -/
def Checks (x : Except DecodeError (α × PbReader)) (reading : Reading) (bytes : List UInt8) :
    Prop :=
  match x with
  | .ok p => ¬ reading.Trips bytes ∧ ∃ rest, reading.rest bytes = .ok rest ∧ p.2.Holds rest
  | .error e => e.Thrown ∧ reading.Trips bytes

/-- A turn over a field, checked as the kind says. -/
def TurnChecks (x : Except DecodeError (Turn σ)) (kind : Kind) (tag : Tag) (bytes : List UInt8) :
    Prop :=
  match x with
  | .ok (.next _ r) => ¬ (kind.reading tag).Trips bytes ∧ kind.ends tag = false ∧
      ∃ rest, (kind.reading tag).rest bytes = .ok rest ∧ r.Holds rest
  | .ok (.stop _) => ¬ (kind.reading tag).Trips bytes ∧ kind.ends tag = true
  | .error e => e.Thrown ∧ (kind.reading tag).Trips bytes

def HandlerChecks (handle : Handler σ) (kind : Kind) (bound : Nat) : Prop :=
  ∀ s tag r after, r.Holds after → after.length < bound → TurnChecks (handle s tag r) kind tag after

theorem Checks.continuing {x : Except DecodeError (α × PbReader)} (h : Checks x reading after)
    (hr : kind.reading tag = reading) (hend : kind.ends tag = false) (set : α → σ) :
    TurnChecks (continuing x set) kind tag after := by
  subst hr
  cases x with
  | error e => exact h
  | ok p => exact ⟨h.1, hend, h.2⟩

theorem Checks.returning {x : Except DecodeError (α × PbReader)} (h : Checks x reading after)
    (hr : kind.reading tag = reading) (hend : kind.ends tag = true) (set : α → σ) :
    TurnChecks (returning x set) kind tag after := by
  subst hr
  cases x with
  | error e => exact h
  | ok p => exact ⟨h.1, hend⟩

theorem Checks.map {β : Type} {x : Except DecodeError (α × PbReader)} (h : Checks x reading after)
    (g : α → β) : Checks (x.map fun p => (g p.1, p.2)) reading after := by
  cases x with
  | error e => exact h
  | ok p => exact h

theorem Outcome.map {β : Type} {x : Except DecodeError α} {caught : Prop} (h : Outcome x caught)
    (g : α → β) : Outcome (x.map g) caught := by
  cases x with
  | error e => exact h
  | ok v => exact h

theorem trips_iff (hr : ∀ inner, reading ≠ .message inner) :
    reading.Trips after ↔ ∃ e, reading.rest after = .error e :=
  ⟨fun h => h.resolve_right fun ⟨inner, _, _, hm, _⟩ => hr inner hm, Or.inl⟩

/-- A check of a reading that is no message fails where nothing is left. -/
theorem checks_ok {x : Except DecodeError (α × PbReader)} {p : α × PbReader} {rest : List UInt8}
    (hr : ∀ inner, reading ≠ .message inner) (hx : x = .ok p)
    (hrest : reading.rest after = .ok rest)
    (h : p.2.Holds rest) : Checks x reading after := by
  subst hx
  refine ⟨?_, rest, hrest, h⟩
  rw [trips_iff hr, hrest]
  simp

theorem checks_error {x : Except DecodeError (α × PbReader)} {e : DecodeError} {f : Flaw}
    (hx : x = .error e) (he : e.Thrown) (hrest : reading.rest after = .error f) :
    Checks x reading after := by
  subst hx
  exact ⟨he, Or.inl ⟨f, hrest⟩⟩

theorem readVarint_checks (h : r.Holds after) : Checks r.readVarint .varint after := by
  cases hv : varintOf 10 after with
  | error f =>
    obtain ⟨e, he, ht⟩ := readVarint_error h hv
    exact checks_error he ht (by rw [Reading.rest, hv]; rfl)
  | ok p =>
    obtain ⟨r', hr', hh, _⟩ := readVarint_ok h hv
    exact checks_ok nofun hr' (by rw [Reading.rest, hv]; rfl) hh

theorem payloadOf_wireLen_ok {p : Payload × List UInt8} (h : payloadOf wireLen after = .ok p) :
    ∃ b, p = (.len b, p.2) := by
  obtain ⟨payload, rest⟩ := p
  have hw := wireType_of_payload h
  cases payload with
  | len b => exact ⟨b, rfl⟩
  | varint n => cases hw
  | i64 b => cases hw
  | i32 b => cases hw

theorem readLengthDelimited_checks (h : r.Holds after) :
    Checks r.readLengthDelimited .len after := by
  cases hp : payloadOf wireLen after with
  | error f =>
    obtain ⟨e, he, ht⟩ := readLengthDelimited_error h hp
    exact checks_error he ht (by rw [Reading.rest, hp]; rfl)
  | ok p =>
    obtain ⟨b, hb⟩ := payloadOf_wireLen_ok hp
    rw [hb] at hp
    obtain ⟨r', hr', hh⟩ := readLengthDelimited_ok h hp
    exact checks_ok nofun hr' (by rw [Reading.rest, hp]; rfl) hh

theorem readFixed64Uint_checks (h : r.Holds after) : Checks r.readFixed64Uint .i64 after := by
  cases hp : payloadOf wireI64 after with
  | error f =>
    obtain ⟨e, he, ht⟩ := readFixed64Uint_error h hp
    exact checks_error he ht (by rw [Reading.rest, hp]; rfl)
  | ok p =>
    obtain ⟨_, rfl⟩ := payloadOf_wireI64_ok hp
    obtain ⟨r', hr', hh⟩ := readFixed64Uint_ok h hp
    exact checks_ok nofun hr' (by rw [Reading.rest, hp]; rfl) hh

theorem readDouble_checks (h : r.Holds after) : Checks r.readDouble .i64 after := by
  cases hp : payloadOf wireI64 after with
  | error f =>
    obtain ⟨e, he, ht⟩ := readDouble_error h hp
    exact checks_error he ht (by rw [Reading.rest, hp]; rfl)
  | ok p =>
    obtain ⟨_, rfl⟩ := payloadOf_wireI64_ok hp
    obtain ⟨r', hr', hh⟩ := readDouble_ok h hp
    exact checks_ok nofun hr' (by rw [Reading.rest, hp]; rfl) hh

theorem embedded_checks {decode : PbReader → Except DecodeError α}
    (hd : Decides decode inner bound) (h : r.Holds after) (hlen : after.length < bound) :
    Checks (embedded decode r) (.message inner) after := by
  cases hp : payloadOf wireLen after with
  | error f =>
    obtain ⟨e, he, ht⟩ := readMessage_error h hp
    refine checks_error ?_ ht (by rw [Reading.rest, hp]; rfl)
    simp only [embedded, he, bind, Except.bind]
  | ok p =>
    obtain ⟨b, hb⟩ := payloadOf_wireLen_ok hp
    rw [hb] at hp
    obtain ⟨m, r', hr', hm, hh⟩ := readMessage_ok h hp
    have hrest : (Reading.message inner).rest after = .ok p.2 := by
      rw [Reading.rest, hp]
      rfl
    have htrips : (Reading.message inner).Trips after ↔ Caught inner b := by
      constructor
      · rintro (⟨e, he⟩ | ⟨inner', b', rest', hk, hp', hc⟩)
        · simp [hrest] at he
        · cases hk
          cases hp.symm.trans hp'
          exact hc
      · exact fun hc => Or.inr ⟨inner, b, p.2, rfl, hp, hc⟩
    have hout := hd m b hm ((payloadOf_wireLen_length hp).trans_lt hlen)
    have hx : embedded decode r = (decode m).map fun v => (v, r') := by
      simp only [embedded, hr', bind, Except.bind, pure, Except.pure]
      cases decode m <;> rfl
    rw [hx]
    cases hdec : decode m with
    | error e =>
      rw [hdec] at hout
      exact ⟨hout.1, htrips.mpr hout.2⟩
    | ok v =>
      rw [hdec] at hout
      exact ⟨mt htrips.mp hout, p.2, hrest, hh⟩

/-- A length beyond the bytes leaves none, as the number it is rounded to. -/
theorem drop_bigintNumber {n : Nat} (h : m.length < 2 ^ 53) :
    m.drop (bigintNumber n) = m.drop n := by
  by_cases hn : n < 2 ^ 53
  · rw [bigintNumber, if_pos hn]
  · have hle : m.length ≤ bigintNumber n := by
      by_contra hlt
      have := (bigintNumber_le_iff (n := n) h).mp (by omega)
      omega
    rw [List.drop_of_length_le hle, List.drop_of_length_le (by omega)]

theorem skipping_checks {s : σ} (h : r.Holds after)
    (hr : kind.reading tag = .skip tag.wireType) (hend : kind.ends tag = false) :
    TurnChecks (skipping s tag r) kind tag after := by
  have hnext : ∀ r' rest, r.skip tag.wireType = .ok r' →
      (Reading.skip tag.wireType).rest after = .ok rest → r'.Holds rest →
      TurnChecks (skipping s tag r) kind tag after := by
    intro r' rest hr' hrest hh
    rw [skipping, hr']
    have hskip : ∀ inner, Reading.skip tag.wireType ≠ .message inner := by
      rintro inner ⟨⟩
    refine ⟨?_, hend, rest, hr ▸ hrest, hh⟩
    rw [hr, trips_iff hskip, hrest]
    simp
  have hthrow : ∀ e f, r.skip tag.wireType = .error e → e.Thrown →
      (Reading.skip tag.wireType).rest after = .error f →
      TurnChecks (skipping s tag r) kind tag after := by
    intro e f he ht hrest
    rw [skipping, he]
    exact ⟨ht, hr ▸ Or.inl ⟨f, hrest⟩⟩
  have hmalformed : r.skip tag.wireType = .error (.unknownWireType tag.wireType) →
      (Reading.skip tag.wireType).rest after = .error .malformed →
      TurnChecks (skipping s tag r) kind tag after := fun he hrest =>
    hthrow _ .malformed he (by simp [DecodeError.Thrown]) hrest
  generalize tag.wireType = w at hnext hthrow hmalformed
  rcases w with _ | _ | _ | _ | _ | _ | n
  · cases hv : varintOf 10 after with
    | error f =>
      obtain ⟨e, he, ht⟩ := readVarint_error h hv
      exact hthrow e f (by simp [skip, wireVarint, he, Except.map]) ht
        (by simp [Reading.rest, hv, Except.map])
    | ok p =>
      obtain ⟨r', hr', hh, _⟩ := readVarint_ok h hv
      exact hnext r' p.2 (by simp [skip, wireVarint, hr', Except.map])
        (by simp [Reading.rest, hv, Except.map]) hh
  · exact hnext (r.advance 8) _ (by simp [skip, wireVarint, wireI64]) rfl (h.advance 8)
  · cases hv : varintOf 10 after with
    | error f =>
      obtain ⟨e, he, ht⟩ := readVarintNumber_error h hv
      exact hthrow e f (by simp [skip, wireVarint, wireI64, wireLen, he, Except.map]) ht
        (by simp [Reading.rest, hv, Except.map])
    | ok p =>
      obtain ⟨r', hr', hh, _⟩ := readVarintNumber_ok h hv
      refine hnext (r'.advance (bigintNumber p.1)) (p.2.drop p.1)
        (by simp [skip, wireVarint, wireI64, wireLen, hr', Except.map])
        (by simp [Reading.rest, hv, Except.map]) ?_
      have hadvance := hh.advance (bigintNumber p.1)
      rwa [drop_bigintNumber hh.bounded] at hadvance
  · exact hmalformed (by simp [skip, wireVarint, wireI64, wireLen, wireI32]) rfl
  · exact hmalformed (by simp [skip, wireVarint, wireI64, wireLen, wireI32]) rfl
  · exact hnext (r.advance 4) _ (by simp [skip, wireVarint, wireI64, wireLen, wireI32]) rfl
      (h.advance 4)
  · exact hmalformed (by simp [skip, wireVarint, wireI64, wireLen, wireI32]) rfl

end Outcomes

section Loop

variable {σ : Type} {kind : Kind} {m : List UInt8} {handle : Handler σ} {bound : Nat} {r : PbReader}

theorem readTag_ok_of_loose {p : Tag × List UInt8} (h : r.Holds m) (ht : looseTagOf m = .ok p) :
    ∃ r', r.readTag = .ok (p.1, r') ∧ r'.Holds p.2 := by
  obtain ⟨q, hq, rfl⟩ := exists_of_map_ok ht
  obtain ⟨r', hr', hh, _⟩ := readVarintNumber_ok h hq
  exact ⟨r', by rw [readTag, hr']; rfl, hh⟩

theorem readTag_error_of_loose {f : Flaw} (h : r.Holds m) (ht : looseTagOf m = .error f) :
    ∃ e, r.readTag = .error e ∧ e.Thrown := by
  cases hv : varintOf 10 m with
  | error f =>
    obtain ⟨e, he, hthrown⟩ := readVarintNumber_error h hv
    exact ⟨e, by rw [readTag, he]; rfl, hthrown⟩
  | ok p => simp [looseTagOf, hv, Except.map] at ht

/-- The loop over the fields of a message catches what there is to catch. -/
theorem turns_outcome (hh : HandlerChecks handle kind bound) {n : Nat} (s : σ) (h : r.Holds m)
    (hn : m.length ≤ n) (hbound : m.length ≤ bound) :
    Outcome (turns handle n s r) (Caught kind m) := by
  induction n generalizing s r m with
  | zero =>
    obtain rfl : m = [] := List.length_eq_zero_iff.mp (by omega)
    have hmore : ¬ r.hasMore = true := by simp [h.hasMore]
    rw [turns, if_neg hmore]
    exact not_caught_nil
  | succ n ih =>
    by_cases hm : m = []
    · subst hm
      have hmore : ¬ r.hasMore = true := by simp [h.hasMore]
      rw [turns, if_neg hmore]
      exact not_caught_nil
    rw [turns, if_pos (h.hasMore.mpr hm)]
    cases ht : looseTagOf m with
    | error f =>
      obtain ⟨e, he, hthrown⟩ := readTag_error_of_loose h ht
      rw [he]
      exact ⟨hthrown, .tag hm ht⟩
    | ok p =>
      obtain ⟨tag, after⟩ := p
      obtain ⟨r', hr', hafter⟩ := readTag_ok_of_loose h ht
      have hlt : after.length < m.length := looseTagOf_length ht
      have hturn := hh s tag r' after hafter (by omega)
      simp only [hr', bind, Except.bind]
      split
      · next e he =>
        rw [he] at hturn
        exact ⟨hturn.1, (caught_iff ht).mpr (Or.inl hturn.2)⟩
      · next t hnext =>
        rw [hnext] at hturn
        cases t with
        | stop s' =>
          intro hc
          rcases (caught_iff ht).mp hc with htrips | ⟨hend, _⟩
          · exact hturn.1 htrips
          · rw [hturn.2] at hend
            cases hend
        | next s' r'' =>
          obtain ⟨htrips, hend, rest, hrest, hholds⟩ := hturn
          have hle := rest_length hrest
          rw [caught_iff_rest ht htrips hend hrest]
          exact ih s' hholds (by omega) (by omega)

theorem each_outcome (hh : HandlerChecks handle kind bound) (s : σ) (h : r.Holds m)
    (hbound : m.length ≤ bound) : Outcome (each handle s r) (Caught kind m) :=
  turns_outcome hh s h h.size.le hbound

end Loop

section Decoders

variable {α : Type} {kind inner : Kind} {bound : Nat} {tag : Tag}

theorem Decides.of_handler {σ : Type} {handle : Handler σ} (hh : HandlerChecks handle kind bound)
    (s : σ) : Decides (each handle s) kind (bound + 1) :=
  fun _ _ h hm => each_outcome hh s h (by omega)

theorem Decides.mono {decode : PbReader → Except DecodeError α} {bound' : Nat}
    (hd : Decides decode kind bound') (h : bound ≤ bound') : Decides decode kind bound :=
  fun r m hr hm => hd r m hr (by omega)

theorem Decides.map {β : Type} {decode : PbReader → Except DecodeError α}
    (hd : Decides decode kind bound) (g : α → β) :
    Decides (fun r => (decode r).map g) kind bound :=
  fun r m hr hm => (hd r m hr hm).map g

theorem reading_of_known {reading : Reading} (hk : kind.byNumber = true)
    (h : kind.known tag.fieldNumber = some reading) : kind.reading tag = reading := by
  rw [Kind.reading, if_pos (Or.inl hk), h, Option.getD_some]

theorem reading_of_len {reading : Reading} (hw : tag.wireType = wireLen)
    (h : kind.known tag.fieldNumber = some reading) : kind.reading tag = reading := by
  rw [Kind.reading, if_pos (Or.inr hw), h, Option.getD_some]

theorem reading_of_unknown (h : kind.known tag.fieldNumber = none) :
    kind.reading tag = .skip tag.wireType := by
  rw [Kind.reading, h, Option.getD_none, ite_self]

theorem reading_of_not_len (hk : kind.byNumber = false) (hw : tag.wireType ≠ wireLen) :
    kind.reading tag = .skip tag.wireType := by
  rw [Kind.reading, if_neg (by simp [hk, hw])]

theorem ends_of_ne (h : kind ≠ .anyValue) : kind.ends tag = false := by
  simp [Kind.ends, h]

/-- A decoder that pushes what it reads from one kind of field. -/
theorem decides_decodeAll {decode : PbReader → Except DecodeError α} {number : Nat}
    (hd : Decides decode inner bound) (hb : kind.byNumber = false)
    (hn : kind.numbers = [number]) (hk : kind.known number = some (.message inner))
    (hne : kind ≠ .anyValue) : Decides (decodeAll number decode) kind (bound + 1) := by
  refine Decides.of_handler (fun values tag r after hr hlen => ?_) []
  unfold pushing
  split
  · next h =>
    have hknown : kind.known tag.fieldNumber = some (.message inner) := by rw [h.1, hk]
    exact (embedded_checks hd hr hlen).continuing (reading_of_len h.2 hknown) (ends_of_ne hne) _
  · next h =>
    refine skipping_checks hr ?_ (ends_of_ne hne)
    by_cases hw : tag.wireType = wireLen
    · have hnumber : tag.fieldNumber ≠ number := fun hnumber => h ⟨hnumber, hw⟩
      exact reading_of_unknown (Kind.known_eq_none (by simpa [hn] using hnumber))
    · exact reading_of_not_len hb hw

/-- A decoder with two kinds of fields, which it tells apart by number and wire type. -/
theorem turnChecks_two {σ : Type} {x y : Except DecodeError (Turn σ)} {s : σ} {r : PbReader}
    {after : List UInt8} (h : r.Holds after) (hb : kind.byNumber = false) (hne : kind ≠ .anyValue)
    (hx : tag.fieldNumber = 1 → tag.wireType = wireLen → TurnChecks x kind tag after)
    (hy : tag.fieldNumber = 2 → tag.wireType = wireLen → TurnChecks y kind tag after)
    (hn : kind.numbers = [1, 2]) :
    TurnChecks (if tag.fieldNumber = 1 ∧ tag.wireType = wireLen then x
      else if tag.fieldNumber = 2 ∧ tag.wireType = wireLen then y
      else skipping s tag r) kind tag after := by
  split
  · next h1 => exact hx h1.1 h1.2
  split
  · next h2 => exact hy h2.1 h2.2
  · next h1 h2 =>
    refine skipping_checks h ?_ (ends_of_ne hne)
    by_cases hw : tag.wireType = wireLen
    · have hnumber : tag.fieldNumber ∉ kind.numbers := by
        rw [hn]
        simp only [List.mem_cons, List.not_mem_nil, or_false]
        rintro (h | h)
        · exact h1 ⟨h, hw⟩
        · exact h2 ⟨h, hw⟩
      exact reading_of_unknown (Kind.known_eq_none hnumber)
    · exact reading_of_not_len hb hw

theorem decides_keyValue {decodeAny : PbReader → Except DecodeError JsonAnyValue}
    (hany : Decides decodeAny .anyValue bound) :
    Decides (decodeKeyValueWith decodeAny) .keyValue (bound + 1) := by
  refine Decides.of_handler (fun kv tag r after hr hlen => ?_) ([], JsonAnyValue.empty)
  have hkey : Checks r.readString .len after := (readLengthDelimited_checks hr).map _
  exact turnChecks_two hr rfl (by decide)
    (fun hn hw => hkey.continuing (reading_of_len hw (by rw [hn]; rfl)) rfl _)
    (fun hn hw => (embedded_checks hany hr hlen).continuing
      (reading_of_len hw (by rw [hn]; rfl)) rfl _)
    rfl

theorem decides_anyValueUpTo (depth : Nat) :
    Decides (decodeAnyValueUpTo depth) .anyValue depth := by
  induction depth with
  | zero => exact fun r m _ hm => absurd hm (by omega)
  | succ depth ih =>
    refine Decides.of_handler (fun v tag r after hr hlen => ?_) JsonAnyValue.empty
    obtain ⟨number, wireType⟩ := tag
    have harray : Decides (decodeAll 1 (decodeAnyValueUpTo depth)) .arrayValue depth :=
      (decides_decodeAll ih rfl rfl rfl (by decide)).mono (by omega)
    have hkvlist : Decides (decodeAll 1 (decodeKeyValueWith (decodeAnyValueUpTo depth)))
        .kvlist depth :=
      (decides_decodeAll (decides_keyValue ih) rfl rfl rfl (by decide)).mono (by omega)
    unfold anyValueField
    dsimp only
    split
    · have hread : Checks r.readString .len after := (readLengthDelimited_checks hr).map _
      exact hread.returning rfl rfl _
    · have hread : Checks r.readVarintNumber .varint after := (readVarint_checks hr).map _
      exact hread.returning rfl rfl _
    · exact (readVarint_checks hr).returning rfl rfl _
    · exact (readDouble_checks hr).returning rfl rfl _
    · exact (embedded_checks harray hr hlen).returning rfl rfl _
    · exact (embedded_checks hkvlist hr hlen).returning rfl rfl _
    · have hread : Checks r.readBytesAsHex .len after := (readLengthDelimited_checks hr).map _
      exact hread.returning rfl rfl _
    · have hknown : Kind.anyValue.known number = none :=
        Kind.known_eq_none (by simp_all [Kind.numbers])
      exact skipping_checks hr (reading_of_unknown hknown) (by simp [Kind.ends, hknown])

theorem decides_anyValue : Decides decodeAnyValue .anyValue bound := by
  intro r m h _
  rw [decodeAnyValue, ← h.size]
  exact decides_anyValueUpTo _ r m h (Nat.lt_succ_self _)

theorem decides_keyValueMessage : Decides decodeKeyValue .keyValue bound :=
  (decides_keyValue decides_anyValue).mono (Nat.le_succ _)

theorem decides_arrayValue : Decides (decodeAll 1 decodeAnyValue) .arrayValue bound :=
  (decides_decodeAll decides_anyValue rfl rfl rfl (by decide)).mono (Nat.le_succ _)

theorem decides_kvlist : Decides (decodeAll 1 decodeKeyValue) .kvlist bound :=
  (decides_decodeAll decides_keyValueMessage rfl rfl rfl (by decide)).mono
    (Nat.le_succ _)

theorem decides_resource : Decides decodeResource .resource bound :=
  ((decides_decodeAll decides_keyValueMessage rfl rfl rfl (by decide)).mono
    (Nat.le_succ _)).map _

theorem decides_span : Decides decodeSpan .span bound := by
  refine ((Decides.of_handler (fun s tag r after hr hlen => ?_) ⟨emptySpan, []⟩ :
    Decides (each spanField _) .span (bound + 1)).mono (Nat.le_succ _)).map _
  obtain ⟨number, wireType⟩ := tag
  have hhex : Checks r.readBytesAsHex .len after := (readLengthDelimited_checks hr).map _
  have hstring : Checks r.readString .len after := (readLengthDelimited_checks hr).map _
  unfold spanField
  dsimp only
  split
  · exact hhex.continuing rfl rfl _
  · exact hhex.continuing rfl rfl _
  · exact hhex.continuing rfl rfl _
  · exact hstring.continuing rfl rfl _
  · exact (readFixed64Uint_checks hr).continuing rfl rfl _
  · exact (readFixed64Uint_checks hr).continuing rfl rfl _
  · exact (embedded_checks decides_keyValueMessage hr hlen).continuing rfl rfl _
  · have hknown : Kind.span.known number = none :=
      Kind.known_eq_none (by simp_all [Kind.numbers])
    exact skipping_checks hr (reading_of_unknown hknown) rfl

theorem decides_scopeSpans : Decides decodeScopeSpans .scopeSpans bound :=
  ((decides_decodeAll decides_span rfl rfl rfl (by decide)).mono (Nat.le_succ _)).map _

theorem decides_resourceSpans : Decides decodeResourceSpans .resourceSpans bound := by
  refine (Decides.of_handler (fun s tag r after hr hlen => ?_) ⟨none, []⟩ :
    Decides (each resourceSpansField _) .resourceSpans (bound + 1)).mono (Nat.le_succ _)
  exact turnChecks_two hr rfl (by decide)
    (fun hn hw => (embedded_checks decides_resource hr hlen).continuing
      (reading_of_len hw (by rw [hn]; rfl)) rfl _)
    (fun hn hw => (embedded_checks decides_scopeSpans hr hlen).continuing
      (reading_of_len hw (by rw [hn]; rfl)) rfl _)
    rfl

theorem decides_traces : Decides (decodeAll 1 decodeResourceSpans) .traces bound :=
  (decides_decodeAll decides_resourceSpans rfl rfl rfl (by decide)).mono
    (Nat.le_succ _)

theorem decides_dataPoint : Decides decodeNumberDataPoint .dataPoint bound := by
  refine ((Decides.of_handler (fun s tag r after hr hlen => ?_) ⟨⟨none, none, none⟩, []⟩ :
    Decides (each dataPointField _) .dataPoint (bound + 1)).mono (Nat.le_succ _)).map _
  obtain ⟨number, wireType⟩ := tag
  have hint : Checks r.readFixed64Int .i64 after := (readFixed64Uint_checks hr).map signedWord
  unfold dataPointField
  dsimp only
  split
  · exact (readDouble_checks hr).continuing rfl rfl _
  · exact hint.continuing rfl rfl _
  · exact (embedded_checks decides_keyValueMessage hr hlen).continuing rfl rfl _
  · have hknown : Kind.dataPoint.known number = none :=
      Kind.known_eq_none (by simp_all [Kind.numbers])
    exact skipping_checks hr (reading_of_unknown hknown) rfl

theorem decides_dataPoints : Decides decodeDataPointContainer .dataPoints bound :=
  ((decides_decodeAll decides_dataPoint rfl rfl rfl (by decide)).mono (Nat.le_succ _)).map _

theorem decides_metric : Decides decodeMetric .metric bound := by
  refine (Decides.of_handler (fun s tag r after hr hlen => ?_)
    ⟨none, none, none, none, none, none⟩ :
    Decides (each metricField _) .metric (bound + 1)).mono (Nat.le_succ _)
  obtain ⟨number, wireType⟩ := tag
  have hstring : Checks r.readString .len after := (readLengthDelimited_checks hr).map _
  have hpoints := embedded_checks decides_dataPoints hr hlen
  unfold metricField
  dsimp only
  split
  · exact hstring.continuing rfl rfl _
  · exact hstring.continuing rfl rfl _
  · exact hstring.continuing rfl rfl _
  · exact hpoints.continuing rfl rfl _
  · exact hpoints.continuing rfl rfl _
  · exact hpoints.continuing rfl rfl _
  · have hknown : Kind.metric.known number = none :=
      Kind.known_eq_none (by simp_all [Kind.numbers])
    exact skipping_checks hr (reading_of_unknown hknown) rfl

theorem decides_scopeMetrics : Decides decodeScopeMetrics .scopeMetrics bound :=
  ((decides_decodeAll decides_metric rfl rfl rfl (by decide)).mono (Nat.le_succ _)).map _

theorem decides_resourceMetrics : Decides decodeResourceMetrics .resourceMetrics bound := by
  refine (Decides.of_handler (fun s tag r after hr hlen => ?_) ⟨none, []⟩ :
    Decides (each resourceMetricsField _) .resourceMetrics (bound + 1)).mono (Nat.le_succ _)
  exact turnChecks_two hr rfl (by decide)
    (fun hn hw => (embedded_checks decides_resource hr hlen).continuing
      (reading_of_len hw (by rw [hn]; rfl)) rfl _)
    (fun hn hw => (embedded_checks decides_scopeMetrics hr hlen).continuing
      (reading_of_len hw (by rw [hn]; rfl)) rfl _)
    rfl

theorem decides_metrics : Decides (decodeAll 1 decodeResourceMetrics) .metrics bound :=
  (decides_decodeAll decides_resourceMetrics rfl rfl rfl (by decide)).mono
    (Nat.le_succ _)

end Decoders

section Requests

/-- The decoder of a kind, what it returns put aside. -/
def Kind.run (kind : Kind) (r : PbReader) : Except DecodeError Unit :=
  match kind with
  | .traces => (decodeAll 1 decodeResourceSpans r).map fun _ => ()
  | .resourceSpans => (decodeResourceSpans r).map fun _ => ()
  | .scopeSpans => (decodeScopeSpans r).map fun _ => ()
  | .span => (decodeSpan r).map fun _ => ()
  | .resource => (decodeResource r).map fun _ => ()
  | .keyValue => (decodeKeyValue r).map fun _ => ()
  | .anyValue => (decodeAnyValue r).map fun _ => ()
  | .arrayValue => (decodeAll 1 decodeAnyValue r).map fun _ => ()
  | .kvlist => (decodeAll 1 decodeKeyValue r).map fun _ => ()
  | .metrics => (decodeAll 1 decodeResourceMetrics r).map fun _ => ()
  | .resourceMetrics => (decodeResourceMetrics r).map fun _ => ()
  | .scopeMetrics => (decodeScopeMetrics r).map fun _ => ()
  | .metric => (decodeMetric r).map fun _ => ()
  | .dataPoints => (decodeDataPointContainer r).map fun _ => ()
  | .dataPoint => (decodeNumberDataPoint r).map fun _ => ()

/-- Every decoder, on every range of a buffer, throws exactly where a check fails. -/
theorem Kind.run_outcome (kind : Kind) {r : PbReader} {m : List UInt8} (h : r.Holds m) :
    Outcome (kind.run r) (Caught kind m) := by
  have hlt := Nat.lt_succ_self m.length
  cases kind
  case traces => exact (decides_traces r m h hlt).map _
  case resourceSpans => exact (decides_resourceSpans r m h hlt).map _
  case scopeSpans => exact (decides_scopeSpans r m h hlt).map _
  case span => exact (decides_span r m h hlt).map _
  case resource => exact (decides_resource r m h hlt).map _
  case keyValue => exact (decides_keyValueMessage r m h hlt).map _
  case anyValue => exact (decides_anyValue r m h hlt).map _
  case arrayValue => exact (decides_arrayValue r m h hlt).map _
  case kvlist => exact (decides_kvlist r m h hlt).map _
  case metrics => exact (decides_metrics r m h hlt).map _
  case resourceMetrics => exact (decides_resourceMetrics r m h hlt).map _
  case scopeMetrics => exact (decides_scopeMetrics r m h hlt).map _
  case metric => exact (decides_metric r m h hlt).map _
  case dataPoints => exact (decides_dataPoints r m h hlt).map _
  case dataPoint => exact (decides_dataPoint r m h hlt).map _

/-- The decoder ends, and throws where a field runs past the end of its message. -/
structure Guarded {α : Type} (kind : Kind) (x : Except DecodeError α) (m : List UInt8) : Prop where
  ends : x ≠ .error .exhausted
  rejects : Overruns kind m → ∃ e, x = .error e

/-- No decoder reads a byte outside the range of its reader: it needs none there. -/
def StaysWithin : Prop :=
  ∀ (kind : Kind) r m, r.Holds m → kind.run r ≠ .error .noByte

theorem staysWithin : StaysWithin := by
  intro kind r m h hx
  have hout := kind.run_outcome h
  rw [hx] at hout
  exact hout.1.1 rfl

theorem guarded_iff {α : Type} {kind : Kind} {x : Except DecodeError α} {m : List UInt8}
    (h : Outcome x (Caught kind m)) : Guarded kind x m ↔ (Overruns kind m → Caught kind m) := by
  cases x with
  | error e =>
    exact iff_of_true ⟨fun he => h.1.2 (Except.error.inj he), fun _ => ⟨e, rfl⟩⟩ fun _ => h.2
  | ok v =>
    constructor
    · intro hg ho
      obtain ⟨e, he⟩ := hg.rejects ho
      cases he
    · exact fun hc => ⟨nofun, fun ho => absurd (hc ho) h⟩

/-- The decoders turn away the messages with a field past the end where a check fails. -/
theorem turnsAwayOverruns_iff (buf : Uint8Array) :
    (Guarded .traces (decodeExportTraceServiceRequest buf) buf.bytes ∧
      Guarded .metrics (decodeExportMetricsServiceRequest buf) buf.bytes ∧ StaysWithin) ↔
    (Overruns .traces buf.bytes → Caught .traces buf.bytes) ∧
      (Overruns .metrics buf.bytes → Caught .metrics buf.bytes) := by
  have hlt := Nat.lt_succ_self buf.bytes.length
  have htraces := (decides_traces _ _ buf.holds hlt).map JsonExportTraceServiceRequest.mk
  have hmetrics := (decides_metrics _ _ buf.holds hlt).map JsonExportMetricsServiceRequest.mk
  rw [decodeExportTraceServiceRequest, decodeExportMetricsServiceRequest, guarded_iff htraces,
    guarded_iff hmetrics]
  exact and_congr_right fun _ => and_iff_left staysWithin

/-- An unknown I64 field with one byte is taken for a request without spans. -/
theorem not_turnsAwayOverruns : ¬ ∀ buf : Uint8Array,
    Guarded .traces (decodeExportTraceServiceRequest buf) buf.bytes ∧
      Guarded .metrics (decodeExportMetricsServiceRequest buf) buf.bytes ∧ StaysWithin := by
  intro h
  obtain ⟨e, he⟩ := (h ⟨[0x11, 0x00], by decide⟩).1.rejects (.here nofun rfl)
  have hok : decodeExportTraceServiceRequest ⟨[0x11, 0x00], by decide⟩ = .ok ⟨[]⟩ := rfl
  rw [hok] at he
  cases he

end Requests

end OpenWop.Otlp
