import OpenWop.Caching.Settled

/-!
# The verdict on a conforming host

A representation that moves is told from a host that ignores the header only where the deciding
attempt shows it: an answer of 304 never counts as a move, and neither does the last attempt.
-/

namespace OpenWop.Caching

open OpenWop.Js

section Judged

variable {p : Probe} {r : Representation} {c : Current}

/-- The match judgement of what a probe observes. -/
theorem judgeMatch_eq_nil_iff (hp : p.Plain) (hwant : p.want = 304 ∨ p.want = 200) :
    judgeMatch (observedOf p r c) = [] ↔ (Reading.mk p r c).AsWanted := by
  rw [judgeMatch, List.append_eq_nil_iff]
  cases c with
  | unavailable status hs =>
    have hne : status ≠ p.want := by
      rcases hwant with hwant | hwant <;> rw [hwant]
      · exact hs.2
      · exact hs.1
    rw [observedOf, answer_unavailable]
    simp [Reading.AsWanted, hne]
  | available r' =>
    cases hhit : p.hits r.tag r'.tag with
    | true =>
      rw [observedOf, answer_hit hp hhit]
      rcases hwant with hwant | hwant <;> simp [Reading.AsWanted, hhit, hwant]
    | false =>
      rw [observedOf, answer_miss hp hhit]
      rcases hwant with hwant | hwant <;> simp [Reading.AsWanted, hhit, hwant]

/-- The headers judgement of what a probe observes. -/
theorem judge304Headers_eq_nil_iff (hp : p.Plain) :
    judge304Headers (observedOf p r c) = [] ↔ (Reading.mk p r c).SameHeaders := by
  rw [judge304Headers]
  cases c with
  | unavailable status hs =>
    rw [observedOf, answer_unavailable]
    simp [Reading.SameHeaders, hs.2]
  | available r' =>
    cases hhit : p.hits r.tag r'.tag with
    | false =>
      rw [observedOf, answer_miss hp hhit]
      simp [Reading.SameHeaders, hhit]
    | true =>
      rw [observedOf, answer_hit hp hhit]
      cases hvary : r.vary <;> simp [Reading.SameHeaders, hhit, hvary, opaqueOf_text, quoted_inj]

end Judged

section Legs

variable {h : History} {judge : Observed → List JsString} {Good : Reading → Prop}

/-- The findings over the probes of a leg, when each probe is judged by what decides it. -/
theorem each_serve {ps : List Probe} (hps : ∀ p ∈ ps, p.Plain ∧ ∀ r c,
      (judge (observedOf p r c) = [] ↔ Good ⟨p, r, c⟩)) (i : Nat) :
    (∃ l findings seen, readings h ps i = some l ∧
        each (serve h) judge ps i = .observed findings seen ∧
        seen = l.map (fun a => observedOf a.probe a.first a.second) ∧
        (findings = [] ↔ ∀ a ∈ l, Good a)) ∨
      (readings h ps i = none ∧ ∃ reason, each (serve h) judge ps i = .unreadable reason) := by
  induction ps generalizing i with
  | nil => exact .inl ⟨[], [], [], rfl, rfl, rfl, by simp⟩
  | cons p ps ih =>
    have hp := hps p List.mem_cons_self
    rw [readings, each, observeProbe]
    rcases @observeFrom_serve p h 3 i hp.1 with
      ⟨r, c, next, hsettled, hobserved⟩ | ⟨hsettled, reason, next, hobserved⟩
    · rw [hsettled, hobserved]
      rcases ih (fun q hq => hps q (List.mem_cons_of_mem p hq)) next with
        ⟨l, findings, seen, hreadings, heach, hseen, hgood⟩ | ⟨hreadings, reason, heach⟩
      · refine .inl ⟨⟨p, r, c⟩ :: l, judge (observedOf p r c) ++ findings,
          observedOf p r c :: seen, ?_, ?_, ?_, ?_⟩
        · simp [hreadings]
        · simp [heach]
        · rw [hseen, List.map_cons]
        · rw [List.append_eq_nil_iff, hp.2, hgood, List.forall_mem_cons]
      · exact .inr ⟨by simp [hreadings], reason, by simp [heach]⟩
    · rw [hsettled, hobserved]
      exact .inr ⟨rfl, reason, rfl⟩

/-- A leg finds nothing exactly when every probe that decides it is good; an unreadable leg
finds nothing. -/
theorem each_findings_eq_nil_iff {ps : List Probe} (hps : ∀ p ∈ ps, p.Plain ∧ ∀ r c,
      (judge (observedOf p r c) = [] ↔ Good ⟨p, r, c⟩)) :
    (each (serve h) judge ps 0).findings = [] ↔
      ∀ l, readings h ps 0 = some l → ∀ a ∈ l, Good a := by
  rcases each_serve (h := h) hps 0 with
    ⟨l, findings, seen, hreadings, heach, _, hgood⟩ | ⟨hreadings, reason, heach⟩
  · rw [heach, hreadings, LegOutcome.findings, hgood]
    simp
  · rw [heach, hreadings, LegOutcome.findings]
    simp

theorem plain_matchProbes {p : Probe} (hp : p ∈ matchProbes) : p.Plain := by
  simp only [matchProbes, List.mem_cons, List.not_mem_nil, or_false] at hp
  rcases hp with rfl | rfl | rfl | rfl | rfl <;> exact fun _ => rfl

theorem want_matchProbes {p : Probe} (hp : p ∈ matchProbes) : p.want = 304 ∨ p.want = 200 := by
  simp only [matchProbes, List.mem_cons, List.not_mem_nil, or_false] at hp
  rcases hp with rfl | rfl | rfl | rfl | rfl
  · exact .inl rfl
  · exact .inl rfl
  · exact .inl rfl
  · exact .inr rfl
  · exact .inr rfl

theorem plain_noCacheProbe : noCacheProbe.Plain := by
  intro sent
  have hne : js "Cache-Control" ≠ js "If-None-Match" := by decide
  rw [noCacheProbe, List.singleton_append, Record.get?, if_neg hne, Record.get?, if_pos rfl]

theorem plain_headersProbes {p : Probe} (hp : p ∈ headersProbes) : p.Plain := by
  rcases List.mem_cons.mp hp with rfl | hp
  · exact fun _ => rfl
  · exact plain_matchProbes (List.mem_of_mem_filter hp)

/-- The headers leg without a 304 has nothing to find. -/
theorem headersLeg_findings (get : Get) (hnone : ∀ findings seen,
      each get judge304Headers headersProbes 0 = .observed findings seen →
        (seen.any fun o => o.status = 304) = false → findings = []) :
    (headersLeg get).findings = (each get judge304Headers headersProbes 0).findings := by
  rw [headersLeg]
  cases heach : each get judge304Headers headersProbes 0 with
  | unreadable reason => rfl
  | observed findings seen =>
    cases hseen : seen.any fun o => o.status = 304 with
    | true => simp [hseen]
    | false => simp [hseen, LegOutcome.findings, hnone findings seen heach hseen]

theorem each_judge304Headers_of_no304 {get : Get} {ps : List Probe} {i : Nat}
    {findings : List JsString} {seen : List Observed}
    (heach : each get judge304Headers ps i = .observed findings seen)
    (hseen : (seen.any fun o => o.status = 304) = false) : findings = [] := by
  induction ps generalizing i findings seen with
  | nil =>
    rw [each] at heach
    cases heach
    rfl
  | cons p ps ih =>
    rw [each] at heach
    split at heach
    · cases heach
    · next obs next _ =>
      split at heach
      · cases heach
      · next findings' seen' hrest =>
        cases heach
        rw [List.any_cons, Bool.or_eq_false_iff] at hseen
        have hstatus : obs.status ≠ 304 := by simpa using hseen.1
        rw [judge304Headers, if_pos hstatus, List.nil_append]
        exact ih hrest hseen.2

/-- Whatever the resource does between the requests, each leg finds nothing of a conforming host
exactly when every probe is decided as wanted. -/
theorem findings_eq_nil_iff (h : History) :
    ((matchLeg (serve h)).findings = [] ↔
        ∀ l, readings h matchProbes 0 = some l → ∀ a ∈ l, a.AsWanted) ∧
      ((noCacheLeg (serve h)).findings = [] ↔
        ∀ l, readings h [noCacheProbe] 0 = some l → ∀ a ∈ l, a.AsWanted) ∧
      ((headersLeg (serve h)).findings = [] ↔
        ∀ l, readings h headersProbes 0 = some l → ∀ a ∈ l, a.SameHeaders) := by
  refine ⟨?_, ?_, ?_⟩
  · exact each_findings_eq_nil_iff fun p hp =>
      ⟨plain_matchProbes hp, fun r c => judgeMatch_eq_nil_iff (plain_matchProbes hp)
        (want_matchProbes hp)⟩
  · refine each_findings_eq_nil_iff fun p hp => ?_
    rw [List.mem_singleton.mp hp]
    exact ⟨plain_noCacheProbe, fun r c => judgeMatch_eq_nil_iff plain_noCacheProbe (.inl rfl)⟩
  · rw [headersLeg_findings _ fun findings seen => each_judge304Headers_of_no304]
    exact each_findings_eq_nil_iff fun p hp =>
      ⟨plain_headersProbes hp, fun r c => judge304Headers_eq_nil_iff (plain_headersProbes hp)⟩

/-- A representation of that tag alone. -/
def taggedOnly (value : JsString) (h : value.all isEtagUnit = true) : Representation :=
  { tag := ⟨false, value, h⟩, vary := none, length := 2 }

/-- A resource whose representation changes once, before the last request of the headers leg. -/
def changedOnce : History := fun i =>
  some (.available
    (if i < 7 then taggedOnly (js "a") (by decide) else taggedOnly (js "b") (by decide)))

/-- One change right before the request for any tag makes the headers leg accuse the host. -/
theorem changedOnce_accused : (headersLeg (serve changedOnce)).findings =
    [js "star: the 304 MUST carry the ETag of the representation (\"a\"); it carried \"b\""] := by
  decide +kernel

end Legs

end OpenWop.Caching
