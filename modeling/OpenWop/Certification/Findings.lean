import OpenWop.Certification.Rows
import OpenWop.Certification.VerifyV2

/-!
# What the verifier finds on derived rows

The rows of a derivation as a bundle carries them, and the verifier's findings about
files, prefix groups and any-of groups read off those rows.
-/

namespace OpenWop.Certification

open OpenWop.Js OpenWop.Ledger

section Bundle

/-- A derived row as the bundle carries it. -/
def DerivedRequirement.toBundle (r : DerivedRequirement) : BundleV2Requirement where
  requirementId := r.requirementId
  scenarioId := r.scenarioId
  disposition := r.disposition.text
  assertionCount := r.assertionCount.map JsNumber.ofNat
  detail := r.detail

/-- The totals of a derivation as the bundle carries them. -/
def Totals.toBundle (totals : Totals) : Record JsString JsNumber :=
  [(js "executedPass", .ofNat totals.executedPass), (js "executedFail", .ofNat totals.executedFail),
    (js "skipped", .ofNat totals.skipped), (js "inapplicable", .ofNat totals.inapplicable),
    (js "blocked", .ofNat totals.blocked)]

/-- A bundle with the rows and the totals of a derivation. -/
def Derivation.toBundle (derivation : Derivation) (document : Json) (claimedProfiles : List JsString)
    (discovery rest : List (JsString × Json)) : BundleV2 where
  bundleVersion := js "2"
  document
  discovery
  claimedProfiles
  totals := derivation.totals.toBundle
  requirements := derivation.requirements.map DerivedRequirement.toBundle
  rest

end Bundle

section Text

theorem Disposition.text_inj {d d' : Disposition} : d.text = d'.text ↔ d = d' := by
  cases d <;> cases d' <;> decide

theorem toBundle_disposition {r : DerivedRequirement} {d : Disposition} :
    r.toBundle.disposition = d.text ↔ r.disposition = d :=
  Disposition.text_inj

@[simp] theorem isPass_toBundle (r : DerivedRequirement) :
    isPass r.toBundle = decide (r.disposition = .executedPass) := by
  simp [isPass, DerivedRequirement.toBundle, Disposition.text_inj]

@[simp] theorem isPositive_ofNat (n : Nat) : isPositive (JsNumber.ofNat n) = decide (0 < n) := by
  rcases Nat.eq_zero_or_pos n with rfl | hn
  · rfl
  · have hc : (stripZeros n n 0).1 ≠ 0 := fun h => by
      have hv := (stripZeros_value n n 0).2
      rw [h, Nat.zero_mul] at hv
      omega
    simp [JsNumber.ofNat, Decimal.ofNat, Nat.ne_of_gt hn, isPositive, hc, hn]

@[simp] theorem isWitnessedPass_toBundle (r : DerivedRequirement) :
    isWitnessedPass r.toBundle = r.witnessed := by
  rw [isWitnessedPass, isPass_toBundle, DerivedRequirement.witnessed, DerivedRequirement.toBundle]
  cases r.assertionCount <;> simp

@[simp] theorem isUnclassifiedReturn_toBundle (r : DerivedRequirement) :
    isUnclassifiedReturn r.toBundle =
      decide (r.disposition = .blocked ∧ r.detail = some unclassifiedReturnDetail) := by
  simp [isUnclassifiedReturn, DerivedRequirement.toBundle, Disposition.text_inj]

@[simp] theorem isCertifiable_toBundle (r : DerivedRequirement) :
    isCertifiable r.toBundle = decide (r.disposition ∈ certifiable) := by
  simp [isCertifiable, DerivedRequirement.toBundle, Disposition.text_inj]

end Text

section Verifier

variable {rows : List DerivedRequirement} {profile : JsString}

theorem firstRow_toBundle (hn : (rows.map DerivedRequirement.requirementId).Nodup) (id : JsString) :
    firstRow (rows.map DerivedRequirement.toBundle) id =
      (rowById rows id).map DerivedRequirement.toBundle := by
  rw [firstRow, List.find?_map]
  change (rows.find? fun r => r.requirementId = id).map _ = _
  refine congrArg _ (Option.ext fun r => ?_)
  constructor
  · intro h
    have hid : r.requirementId = id := by simpa only [decide_eq_true_eq] using List.find?_some h
    exact hid ▸ rowById_of_mem hn (List.mem_of_find?_eq_some h)
  · intro h
    obtain ⟨hm, rfl⟩ := mem_of_rowById h
    rcases hf : rows.find? (fun q => q.requirementId = r.requirementId) with _ | q
    · have hne := List.find?_eq_none.mp hf r hm
      simp at hne
    · have hid : q.requirementId = r.requirementId := by
        simpa only [decide_eq_true_eq] using List.find?_some hf
      have hq := List.inj_on_of_nodup_map hn (List.mem_of_find?_eq_some hf) hm hid
      exact hf.trans (congrArg some hq)

/-- The finding about a required file, from its row. -/
theorem fileFinding_met_iff (hn : (rows.map DerivedRequirement.requirementId).Nodup)
    {file : JsString} (hb : scenarioBasename file = file) :
    (fileFinding (rows.map DerivedRequirement.toBundle) profile file).2 = .met ↔
      ∃ r, rowById rows (requirementIdForScenario file) = some r ∧ (r.witnessed = true ∨
        r.disposition = .skipped ∨ r.disposition = .inapplicable) := by
  rw [fileFinding, hb, firstRow_toBundle hn]
  rcases hr : rowById rows (requirementIdForScenario file) with _ | r
  · simp [scopedRejection]
  · rcases r with ⟨id, scenario, d, detail, count⟩
    rcases Nat.eq_zero_or_pos (count.getD 0) with hc | hc <;> cases d <;>
      simp [scopedRejection, certifiable, DerivedRequirement.witnessed, hc]
    all_goals split_ifs <;> simp

/-- The finding about a prefix group, from the rows it is read from. -/
theorem prefixFinding_met_iff {bundleRows : List BundleV2Requirement} {p : JsString} :
    (prefixFinding bundleRows profile p).2 = .met ↔
      (∃ r ∈ consideredRows bundleRows p, isWitnessedPass r = true) ∧
        ∀ r ∈ consideredRows bundleRows p, isVacuousRow r = false := by
  unfold prefixFinding
  dsimp only
  split
  · next h => simp [scopedRejection, List.length_eq_zero_iff.mp h]
  · split
    · next hv =>
      obtain ⟨r, hr⟩ := List.exists_mem_of_length_pos hv
      have hm := List.mem_filter.mp hr
      simp only [scopedRejection, reduceCtorEq, false_iff, not_and, not_forall]
      exact fun _ => ⟨r, hm.1, by simp [hm.2]⟩
    · next hv =>
      have hall : ∀ r ∈ consideredRows bundleRows p, isVacuousRow r = false := by
        simpa [List.filter_eq_nil_iff] using hv
      split
      · next hw => exact iff_of_true rfl ⟨by simpa using hw, hall⟩
      · next hw => exact iff_of_false (by simp) fun h => hw (by simpa using h.1)

/-- The finding about an any-of group with a summary row. -/
theorem anyOfFinding_met_iff (hn : (rows.map DerivedRequirement.requirementId).Nodup)
    {g : List JsString} {r : DerivedRequirement}
    (hr : rowById rows (requirementIdForAnyOf g) = some r) :
    (anyOfFinding (rows.map DerivedRequirement.toBundle) profile g).2 = .met ↔
      r.witnessed = true := by
  have hc : consideredMembers (rows.map DerivedRequirement.toBundle) g = [r.toBundle] := by
    simp [consideredMembers, firstRow_toBundle hn, hr]
  rw [anyOfFinding, hc]
  rcases r with ⟨id, scenario, d, detail, count⟩
  rcases Nat.eq_zero_or_pos (count.getD 0) with hz | hz <;> cases d <;>
    simp [scopedRejection, DerivedRequirement.witnessed, hz, toBundle_disposition]

/-- When the verifier certifies a profile with a floor. -/
theorem certified_iff {bundle : BundleV2} {files : List JsString} {floor : ProfileFloor}
    (h : requiredFor profile bundle.document = some (files, floor)) :
    (verifyProfileV2 bundle profile).certified = true ↔
      profileDerivable bundle.document profile = true ∧
      (∀ file ∈ files, (fileFinding bundle.requirements profile file).2 = .met) ∧
      (∀ p ∈ floor.requiredAnyPrefix, (prefixFinding bundle.requirements profile p).2 = .met) ∧
      (∀ g ∈ floor.requiredAnyOf, (anyOfFinding bundle.requirements profile g).2 = .met) ∧
      (floor.discoveryOnly = true ∨ ¬ (files = [] ∧ floor.requiredAnyPrefix = [] ∧
        floor.requiredAnyOf = [])) := by
  have hmet : ∀ findings : List (JsString × Finding),
      (findings.filterMap (fun f => f.2.rejection?) = [] ∧
        (findings.filter fun f => f.2 = .notCertifiable).map Prod.fst = []) ↔
      ∀ f ∈ findings, f.2 = .met := fun findings => by
    rw [List.filterMap_eq_nil_iff, List.map_eq_nil_iff, List.filter_eq_nil_iff, ← forall₂_and]
    refine forall₂_congr fun f _ => ?_
    cases f.2 <;> simp [Finding.rejection?]
  rw [verifyProfileV2, h]
  simp only [decide_eq_true_eq]
  refine and_congr_right fun _ => ?_
  rw [← and_assoc, hmet]
  simp [or_imp, forall_and, and_assoc]

end Verifier

end OpenWop.Certification
