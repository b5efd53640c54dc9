import OpenWop.Caching.Witness
import OpenWop.Js.ToNumber

/-!
# What a leg finds of a conforming host

Against a conforming host an attempt meets two states of the resource, and what the probe observes
is read off them. A leg finds nothing exactly when every probe is decided by states on which the
host's answer is the wanted one.
-/

namespace OpenWop.Caching

open OpenWop.Js

section Attempts

/-- The condition built from a tag is false for the current one. -/
def Probe.hits (p : Probe) (t current : EntityTag) : Bool := noneMatchFails (p.value t.text) current

/-- The representation moves between the two requests, and the answer shows it. -/
def Probe.moves (p : Probe) (r : Representation) (c : Current) : Bool :=
  match c with
  | .available r' => p.want = 304 && !p.hits r.tag r'.tag && r'.tag.value ≠ r.tag.value
  | .unavailable _ _ => false

/-- What the two requests of a probe's last attempt meet, from a request on, with so many attempts
left after the first one, and the next request; none where the probe is unreadable. -/
def settledFrom (h : History) (p : Probe) : Nat → Nat → Option (Representation × Current × Nat)
  | left, i =>
    match h i, h (i + 1) with
    | some (.available r), some c =>
      if p.moves r c then
        match left with
        | 0 => some (r, c, i + 2)
        | left + 1 => settledFrom h p left (i + 2)
      else some (r, c, i + 2)
    | _, _ => none

/-- What decides a probe. -/
structure Reading where
  probe : Probe
  first : Representation
  second : Current

/-- What decides the probes of a leg; none where one of them is unreadable. -/
def readings (h : History) : List Probe → Nat → Option (List Reading)
  | [], _ => some []
  | p :: ps, i =>
    match settledFrom h p 3 i with
    | none => none
    | some (r, c, next) => (readings h ps next).map (⟨p, r, c⟩ :: ·)

/-- The resource is still there, and the condition holds of it as the probe wants. -/
def Reading.AsWanted (a : Reading) : Prop :=
  ∃ r, a.second = .available r ∧ (a.probe.hits a.first.tag r.tag = true ↔ a.probe.want = 304)

/-- A representation the condition is false for has the tag and the `Vary` of the first one. -/
def Reading.SameHeaders (a : Reading) : Prop :=
  ∀ r, a.second = .available r → a.probe.hits a.first.tag r.tag = true →
    r.tag.value = a.first.tag.value ∧
      ∀ vary, a.first.vary = some vary → varySet r.vary = varySet (some vary)

end Attempts

section Tags

theorem trim_quoted {s : JsString} (u : UInt16) (hu : isTrimmed u = false) :
    trim (u :: (s ++ [unit '"'])) = u :: (s ++ [unit '"']) := by
  have hd : (u :: (s ++ [unit '"'])).dropWhile isTrimmed = u :: (s ++ [unit '"']) :=
    List.dropWhile_cons_of_neg (by simp [hu])
  rw [trim, hd, List.rdropWhile_eq_self_iff]
  intro hne
  rw [List.getLast_cons (by simp), List.getLast_append_singleton]
  decide

/-- The opaque part of a tag is the tag without its weakness. -/
theorem opaqueOf_text (t : EntityTag) : opaqueOf t.text = t.quoted := by
  rw [EntityTag.text]
  split
  · have htrim : trim (js "W/" ++ t.quoted) = js "W/" ++ t.quoted :=
      trim_quoted (s := unit '/' :: unit '"' :: t.value) (unit 'W') (by decide)
    have hstarts : startsWith (js "W/" ++ t.quoted) (js "W/") = true :=
      startsWith_iff.mpr (List.prefix_append _ _)
    rw [opaqueOf, htrim, if_pos hstarts]
    rfl
  · have htrim : trim t.quoted = t.quoted := trim_quoted (s := t.value) (unit '"') (by decide)
    have hstarts : startsWith t.quoted (js "W/") = false := by
      have hw : js "W/" = [unit 'W', unit '/'] := by decide
      have hne : (unit 'W' == unit '"') = false := by decide
      rw [startsWith, hw, EntityTag.quoted, List.isPrefixOf, hne, Bool.false_and]
    rw [opaqueOf, htrim, if_neg (by rw [hstarts]; exact Bool.false_ne_true)]

theorem quoted_inj {t t' : EntityTag} : t.quoted = t'.quoted ↔ t.value = t'.value := by
  rw [EntityTag.quoted, EntityTag.quoted, List.cons.injEq, List.append_cancel_right_eq]
  simp

/-- The tag a host does not have. -/
def noSuchEntityTag : EntityTag where
  weak := false
  value := js "openwop-conformance-no-such-tag"
  valid := by decide

/-- The other tag a host does not have. -/
def noSuchEntityTag2 : EntityTag where
  weak := false
  value := js "openwop-conformance-no-such-tag-2"
  valid := by decide

theorem text_noSuchEntityTag : noSuchEntityTag.text = noSuchTag := by decide

theorem text_noSuchEntityTag2 : noSuchEntityTag2.text = noSuchTag2 := by decide

/-- The probes of one tag are false for its own representation. -/
theorem exactProbe_hits (t current : EntityTag) :
    exactProbe.hits t current = decide (t.value = current.value) := noneMatchFails_text t current

theorem noCacheProbe_hits (t current : EntityTag) :
    noCacheProbe.hits t current = decide (t.value = current.value) := noneMatchFails_text t current

theorem weakProbe_hits (t current : EntityTag) :
    weakProbe.hits t current = decide (t.value = current.value) := by
  have htext : weakProbe.value t.text = ({ t with weak := true } : EntityTag).text := by
    change js "W/" ++ opaqueOf t.text = _
    rw [opaqueOf_text]
    rfl
  rw [Probe.hits, htext, noneMatchFails_text]

theorem listProbe_hits (t current : EntityTag) : listProbe.hits t current =
    (decide (noSuchEntityTag.value = current.value) || decide (t.value = current.value)) := by
  have htext : listProbe.value t.text =
      join (js ", ") ([noSuchEntityTag, t].map EntityTag.text) := by
    rw [List.map_cons, List.map_singleton, text_noSuchEntityTag]
    rfl
  rw [Probe.hits, htext, noneMatchFails_join]
  simp

theorem starProbe_hits (t current : EntityTag) : starProbe.hits t current = true := by
  rw [Probe.hits, noneMatchFails, starProbe, decide_eq_true rfl, Bool.true_or]

theorem otherListProbe_hits (t current : EntityTag) : otherListProbe.hits t current =
    (decide (noSuchEntityTag.value = current.value) ||
      decide (noSuchEntityTag2.value = current.value)) := by
  have htext : otherListProbe.value t.text =
      join (js ", ") ([noSuchEntityTag, noSuchEntityTag2].map EntityTag.text) := by
    rw [List.map_cons, List.map_singleton, text_noSuchEntityTag, text_noSuchEntityTag2]
    rfl
  rw [Probe.hits, htext, noneMatchFails_join]
  simp

theorem otherWeakProbe_hits (t current : EntityTag) : otherWeakProbe.hits t current =
    decide (noSuchEntityTag.value = current.value) := by
  have htext : js "W/" ++ noSuchTag = ({ noSuchEntityTag with weak := true } : EntityTag).text := by
    decide
  have hvalue : otherWeakProbe.value t.text = js "W/" ++ noSuchTag := rfl
  rw [Probe.hits, hvalue, htext, noneMatchFails_text]

end Tags

section Observing

/-- The headers of a probe's second request carry its condition. -/
def Probe.Plain (p : Probe) : Prop :=
  ∀ sent, Record.get? (p.extra ++ [(js "If-None-Match", sent)]) (js "If-None-Match") = some sent

/-- What a probe observes of a representation and the state of the resource after it. -/
def observedOf (p : Probe) (r : Representation) (c : Current) : Observed :=
  let sent := p.value r.tag.text
  let res := answer c (p.extra ++ [(js "If-None-Match", sent)])
  { probe := p, tag := r.tag.text, sent := sent, okVary := r.vary, status := res.status
    bodyLength := res.length, etag := res.etag, vary := res.vary }

theorem answer_plain (r : Representation) : answer (.available r) [] =
    { status := 200, etag := some r.tag.text, vary := r.vary, length := r.length } := rfl

theorem answer_unavailable {status : Nat} (hs : status ≠ 200 ∧ status ≠ 304) (headers : Headers) :
    answer (.unavailable status hs) headers =
      { status := status, etag := none, vary := none, length := 0 } := rfl

variable {p : Probe}

theorem answer_hit (hp : p.Plain) {t : EntityTag} {r : Representation}
    (hhit : p.hits t r.tag = true) :
    answer (.available r) (p.extra ++ [(js "If-None-Match", p.value t.text)]) =
      { status := 304, etag := some r.tag.text, vary := r.vary, length := 0 } := by
  rw [Probe.hits] at hhit
  rw [answer, hp, Option.any_some, if_pos hhit]

theorem answer_miss (hp : p.Plain) {t : EntityTag} {r : Representation}
    (hmiss : p.hits t r.tag = false) :
    answer (.available r) (p.extra ++ [(js "If-None-Match", p.value t.text)]) =
      { status := 200, etag := some r.tag.text, vary := r.vary, length := r.length } := by
  have hne : ¬ noneMatchFails (p.value t.text) r.tag = true := by
    rw [show noneMatchFails (p.value t.text) r.tag = false from hmiss]
    exact Bool.false_ne_true
  rw [answer, hp, Option.any_some, if_neg hne]

/-- The witness sees the representation move exactly when the answer shows another tag. -/
theorem observedOf_moved (hp : p.Plain) (r : Representation) (c : Current) :
    (observedOf p r c).moved = p.moves r c := by
  cases c with
  | unavailable status hs =>
    rw [Observed.moved, observedOf, answer_unavailable, Probe.moves]
    simp [hs.1]
  | available r' =>
    rw [Probe.moves, Observed.moved, observedOf]
    cases hhit : p.hits r.tag r'.tag with
    | true =>
      rw [answer_hit hp hhit]
      simp
    | false =>
      rw [answer_miss hp hhit]
      simp [opaqueOf_text, quoted_inj]

variable {h : History} {left i : Nat}

/-- One attempt against a conforming host. -/
theorem observeFrom_attempt (hp : p.Plain) {r : Representation} {c : Current}
    (hi : h i = some (.available r)) (hnext : h (i + 1) = some c) :
    observeFrom (serve h) p left i =
      if p.moves r c then
        match left with
        | 0 => (.observed (observedOf p r c), i + 2)
        | left + 1 => observeFrom (serve h) p left (i + 2)
      else (.observed (observedOf p r c), i + 2) := by
  have hfirst : serve h i [] = some (answer (.available r) []) := by rw [serve, hi, Option.map_some]
  have hsecond : serve h (i + 1) (p.extra ++ [(js "If-None-Match", p.value r.tag.text)]) =
      some (answer c (p.extra ++ [(js "If-None-Match", p.value r.tag.text)])) := by
    rw [serve, hnext, Option.map_some]
  obtain ⟨u, s, htag, _⟩ := r.tag.exists_head
  rw [← observedOf_moved hp]
  conv_lhs => unfold observeFrom
  rw [hfirst, answer_plain]
  simp only [ne_eq, not_true_eq_false, if_false, htag]
  rw [← htag, hsecond]
  rfl

theorem settledFrom_attempt {r : Representation} {c : Current}
    (hi : h i = some (.available r)) (hnext : h (i + 1) = some c) :
    settledFrom h p left i =
      if p.moves r c then
        match left with
        | 0 => some (r, c, i + 2)
        | left + 1 => settledFrom h p left (i + 2)
      else some (r, c, i + 2) := by
  conv_lhs => unfold settledFrom
  rw [hi, hnext]

/-- Without a representation first and an answer after it the probe is unreadable. -/
theorem observeFrom_unreadable
    (hne : ∀ r c, h i = some (.available r) → h (i + 1) = some c → False) :
    settledFrom h p left i = none ∧
      ∃ reason next, observeFrom (serve h) p left i = (.unreadable reason, next) := by
  unfold settledFrom observeFrom
  cases hi : h i with
  | none => simp [serve, hi]
  | some first =>
    cases first with
    | unavailable status hs => simp [serve, hi, answer_unavailable, hs.1]
    | available r =>
      cases hnext : h (i + 1) with
      | some c => exact (hne r c hi hnext).elim
      | none =>
        obtain ⟨u, s, htag, _⟩ := r.tag.exists_head
        simp [serve, hi, hnext, answer_plain, htag]

/-- What a probe observes of a conforming host. -/
theorem observeFrom_serve (hp : p.Plain) :
    (∃ r c next, settledFrom h p left i = some (r, c, next) ∧
        observeFrom (serve h) p left i = (.observed (observedOf p r c), next)) ∨
      (settledFrom h p left i = none ∧
        ∃ reason next, observeFrom (serve h) p left i = (.unreadable reason, next)) := by
  induction left generalizing i with
  | zero =>
    by_cases hmet : ∃ r c, h i = some (.available r) ∧ h (i + 1) = some c
    · obtain ⟨r, c, hi, hnext⟩ := hmet
      refine .inl ⟨r, c, i + 2, ?_⟩
      rw [settledFrom_attempt hi hnext, observeFrom_attempt hp hi hnext]
      simp
    · exact .inr (observeFrom_unreadable fun r c hi hnext => hmet ⟨r, c, hi, hnext⟩)
  | succ left ih =>
    by_cases hmet : ∃ r c, h i = some (.available r) ∧ h (i + 1) = some c
    · obtain ⟨r, c, hi, hnext⟩ := hmet
      rw [settledFrom_attempt hi hnext, observeFrom_attempt hp hi hnext]
      by_cases hmoves : p.moves r c
      · rw [if_pos hmoves, if_pos hmoves]
        exact ih
      · rw [if_neg hmoves, if_neg hmoves]
        exact .inl ⟨r, c, i + 2, rfl, rfl⟩
    · exact .inr (observeFrom_unreadable fun r c hi hnext => hmet ⟨r, c, hi, hnext⟩)

end Observing

end OpenWop.Caching
