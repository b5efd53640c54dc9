import OpenWop.Js.NumberOrder
import OpenWop.Webhook.Front

/-!
# How long a retry schedule is waited for

The window of a wait follows the bound a host advertises, the backoff it advertises, or neither. An
operator can raise it, and an hour is its maximum.
-/

namespace OpenWop.Webhook

open OpenWop.Js

section Window

def retryWaitFloorMs : JsNumber := .ofNat 20000

def defaultRetryWaitCapMs : JsNumber := .ofNat 90000

def maxRetryWaitCapMs : JsNumber := .ofNat 3600000

def retryWaitEnv : JsString := js "OPENWOP_WEBHOOK_RETRY_WAIT_MS"

def advertisedBoundGraceMs : JsNumber := .ofNat 30000

/-- `MAX_RETRY_WAIT_MS`. -/
def maxRetryWaitMs : JsNumber := maxRetryWaitCapMs

/-- What of `webhooks.retryPolicy` sets a window. -/
structure AdvertisedRetryPolicy where
  backoff : Option Json
  maxElapsedMs : Option Json
  deriving DecidableEq, Repr

/-- The advertised bound, if it is a positive integer. -/
def advertisedMaxElapsedMs (policy : Option AdvertisedRetryPolicy) : Option JsNumber :=
  match policy.bind (·.maxElapsedMs) with
  | some (.num v) => if v.isInteger && JsNumber.le (.ofNat 1) v then some v else none
  | _ => none

def pastAdvertisedBound (policy : Option AdvertisedRetryPolicy) (waitedMs : JsNumber) : Bool :=
  match advertisedMaxElapsedMs policy with
  | none => false
  | some bound => JsNumber.le (bound.add advertisedBoundGraceMs) waitedMs

/-- The cap, which an operator can raise and not lower. -/
def retryWaitCapMs (env : ProcessEnv) : JsNumber :=
  match (env retryWaitEnv).elim .nan stringToNumber with
  | .finite d =>
    if JsNumber.lt (.finite d) defaultRetryWaitCapMs then defaultRetryWaitCapMs
    else JsNumber.min (JsNumber.floor (.finite d)) maxRetryWaitCapMs
  | _ => defaultRetryWaitCapMs

/-- `String(policy.backoff ?? '')` is one of the two that take time. -/
def AdvertisedRetryPolicy.backsOff (policy : AdvertisedRetryPolicy) : Bool :=
  let backoff := match policy.backoff with
    | none | some .null => []
    | some v => v.text
  backoff == js "exponential" || backoff == js "fixed"

def retryWaitFor (policy : Option AdvertisedRetryPolicy) (capMs : JsNumber) : JsNumber :=
  match policy with
  | none => retryWaitFloorMs
  | some p =>
    match advertisedMaxElapsedMs policy with
    | some bound =>
      JsNumber.min maxRetryWaitMs (JsNumber.max (bound.add advertisedBoundGraceMs) capMs)
    | none => if p.backsOff then JsNumber.min maxRetryWaitMs capMs else retryWaitFloorMs

inductive RetryWaitPath where
  | advertisedBound
  | cap
  | floor
  deriving DecidableEq, Repr

structure RetryWaitSelection where
  path : RetryWaitPath
  windowMs : JsNumber
  maxElapsedMs : Option JsNumber
  capMs : JsNumber
  deriving DecidableEq, Repr

/-- The window, and which of the three set it. -/
def retryWaitSelection (policy : Option AdvertisedRetryPolicy) (capMs : JsNumber) :
    RetryWaitSelection :=
  let windowMs := retryWaitFor policy capMs
  match policy with
  | none => ⟨.floor, windowMs, none, capMs⟩
  | some p =>
    match advertisedMaxElapsedMs policy with
    | some bound =>
      ⟨if JsNumber.le capMs (bound.add advertisedBoundGraceMs) then .advertisedBound else .cap,
        windowMs, some bound, capMs⟩
    | none => ⟨if p.backsOff then .cap else .floor, windowMs, none, capMs⟩

end Window

section Bounds

open JsNumber

variable {policy : Option AdvertisedRetryPolicy} {cap cap' : JsNumber} {bound : JsNumber}

/-- An advertised bound is a positive natural number. -/
theorem exists_nat_of_advertised (h : advertisedMaxElapsedMs policy = some bound) :
    ∃ m : ℕ, 0 < m ∧ bound = .ofNat m := by
  unfold advertisedMaxElapsedMs at h
  split at h
  · split at h
    · next hv =>
      cases h
      rw [Bool.and_eq_true] at hv
      obtain ⟨hint, hle⟩ := hv
      cases bound with
      | nan => cases hint
      | infinity n => cases hint
      | finite d =>
        rw [le_iff (rank_ofNat 1) rfl] at hle
        have hone : (1 : ℚ) ≤ d.value := by exact_mod_cast hle
        have hsign : d.negative = false := by
          by_contra hs
          rw [Decimal.value, if_pos (Bool.not_eq_false _ ▸ hs)] at hone
          linarith [d.magnitude_nonneg]
        rw [Decimal.value, hsign, if_neg Bool.false_ne_true] at hone
        obtain ⟨e, he⟩ := Int.eq_ofNat_of_zero_le (of_decide_eq_true hint)
        have hnat : d.magnitude = ((d.coefficient * 10 ^ e : ℕ) : ℚ) := by
          rw [Decimal.magnitude, he, zpow_natCast]
          push_cast
          rfl
        refine ⟨d.coefficient * 10 ^ e, ?_, ?_⟩
        · rw [hnat] at hone
          exact Nat.cast_pos.mp (zero_lt_one.trans_le hone)
        · rw [JsNumber.ofNat]
          congr 1
          apply decimal_eq
          · rw [hsign, negative_ofNat]
          · rw [hnat, magnitude_ofNat]
    · cases h
  · cases h

theorem advertised_pos {m : ℕ} (h : advertisedMaxElapsedMs policy = some (.ofNat m)) : 0 < m := by
  obtain ⟨n, hn, heq⟩ := exists_nat_of_advertised h
  rw [ofNat_injective heq]
  exact hn

/-- A window cut at the maximum lies between the floor and the maximum, and grows. -/
theorem le_min_max {x y : JsNumber} (hx : le retryWaitFloorMs x = true) (hxy : le x y = true) :
    (le retryWaitFloorMs (min maxRetryWaitMs x) = true ∧
      le (min maxRetryWaitMs x) maxRetryWaitMs = true) ∧
      le (min maxRetryWaitMs x) (min maxRetryWaitMs y) = true := by
  obtain ⟨_, a, hf, ha, hfa⟩ := exists_rank_of_le hx
  obtain ⟨_, b, ha', hb, hab⟩ := exists_rank_of_le hxy
  obtain rfl := Option.some.inj (ha.symm.trans ha')
  have hmax : rank maxRetryWaitMs = some (finiteRank (3600000 : ℕ)) := rank_ofNat _
  obtain rfl := Option.some.inj ((rank_ofNat 20000).symm.trans hf)
  have hfm : finiteRank ((20000 : ℕ) : ℚ) ≤ finiteRank ((3600000 : ℕ) : ℚ) :=
    WithBot.coe_le_coe.mpr (WithTop.coe_le_coe.mpr (by norm_num))
  have hx' := rank_min hmax ha
  exact ⟨⟨(le_iff hf hx').mpr (le_inf hfm hfa), (le_iff hx' hmax).mpr inf_le_left⟩,
    (le_iff hx' (rank_min hmax hb)).mpr (inf_le_inf_left _ hab)⟩

/-- The wider of a sum and a cap grows with the cap. -/
theorem le_max_max {x : JsNumber} (hx : le (.ofNat 30001) x = true)
    (h : le retryWaitFloorMs cap = true) (hcap : le cap cap' = true) :
    le retryWaitFloorMs (max x cap) = true ∧ le (max x cap) (max x cap') = true := by
  obtain ⟨_, r, -, hr, -⟩ := exists_rank_of_le hx
  obtain ⟨f, c, hf, hc, hfc⟩ := exists_rank_of_le h
  obtain ⟨_, c', hc₂, hc', hcc⟩ := exists_rank_of_le hcap
  obtain rfl := Option.some.inj (hc.symm.trans hc₂)
  have hmax := rank_max hr hc
  exact ⟨(le_iff hf hmax).mpr (hfc.trans le_sup_right),
    (le_iff hmax (rank_max hr hc')).mpr (sup_le_sup_left hcc _)⟩

theorem le_floor_max : le retryWaitFloorMs retryWaitFloorMs = true ∧
    le retryWaitFloorMs maxRetryWaitMs = true := by
  constructor
  · exact (le_iff (rank_ofNat _) (rank_ofNat _)).mpr le_rfl
  · refine (le_iff (rank_ofNat _) (rank_ofNat _)).mpr ?_
    exact WithBot.coe_le_coe.mpr (WithTop.coe_le_coe.mpr (by norm_num))

/-- The window lies between the floor and the maximum and grows with the cap. -/
theorem retryWaitFor_bounds (policy : Option AdvertisedRetryPolicy)
    (h : le retryWaitFloorMs cap = true) (hcap : le cap cap' = true) :
    (le retryWaitFloorMs (retryWaitFor policy cap) = true ∧
      le (retryWaitFor policy cap) maxRetryWaitMs = true) ∧
      le (retryWaitFor policy cap) (retryWaitFor policy cap') = true := by
  have hfloor := le_floor_max
  cases policy with
  | none => exact ⟨hfloor, hfloor.1⟩
  | some p =>
    simp only [retryWaitFor]
    cases hb : advertisedMaxElapsedMs (some p) with
    | some bound =>
      obtain ⟨m, hm, rfl⟩ := exists_nat_of_advertised hb
      have hsum : le (.ofNat 30001) ((JsNumber.ofNat m).add advertisedBoundGraceMs) = true :=
        le_add_ofNat (l := 1) (n := 30000) hm one_pos (by norm_num)
      obtain ⟨hlow, hgrow⟩ := le_max_max hsum h hcap
      exact le_min_max hlow hgrow
    | none =>
      cases p.backsOff with
      | true => exact le_min_max h hcap
      | false => exact ⟨hfloor, hfloor.1⟩

/-- A bound that fits under the maximum with the grace is waited for, and is the window when no
higher cap is. -/
theorem window_of_le {m : ℕ} (hm : 0 < m) (hle : m + 30000 ≤ 3600000)
    (h : le retryWaitFloorMs cap = true) :
    (le cap ((JsNumber.ofNat m).add advertisedBoundGraceMs) = true →
      min maxRetryWaitMs (max ((JsNumber.ofNat m).add advertisedBoundGraceMs) cap) =
        (JsNumber.ofNat m).add advertisedBoundGraceMs) ∧
      le ((JsNumber.ofNat m).add advertisedBoundGraceMs)
        (min maxRetryWaitMs (max ((JsNumber.ofNat m).add advertisedBoundGraceMs) cap)) = true := by
  have hsum : (JsNumber.ofNat m).add advertisedBoundGraceMs = .ofNat (m + 30000) :=
    add_ofNat hm (by omega)
  obtain ⟨_, c, -, hc, -⟩ := exists_rank_of_le h
  have hr := rank_ofNat (m + 30000)
  have hmax : rank maxRetryWaitMs = some (finiteRank (3600000 : ℕ)) := rank_ofNat _
  have hfits : finiteRank ((m + 30000 : ℕ) : ℚ) ≤ finiteRank ((3600000 : ℕ) : ℚ) :=
    WithBot.coe_le_coe.mpr (WithTop.coe_le_coe.mpr (by exact_mod_cast hle))
  rw [hsum]
  constructor
  · intro hcap
    rw [max_eq_left hr hc ((le_iff hc hr).mp hcap) (negative_ofNat _)]
    rcases hfits.lt_or_eq with hlt | heq
    · exact min_eq_right hmax hr hlt
    · have hm' : m + 30000 = 3600000 := by
        have := WithTop.coe_inj.mp (WithBot.coe_inj.mp heq)
        exact_mod_cast this
      rw [hm']
      decide +kernel
  · exact (le_iff hr (rank_min hmax (rank_max hr hc))).mpr (le_inf hfits le_sup_left)

/-- A greater bound is cut at the maximum. -/
theorem window_of_lt {m : ℕ} (hm : 3600000 < m + 30000) (h : le retryWaitFloorMs cap = true) :
    min maxRetryWaitMs (max ((JsNumber.ofNat m).add advertisedBoundGraceMs) cap) = maxRetryWaitMs ∧
      le ((JsNumber.ofNat m).add advertisedBoundGraceMs) maxRetryWaitMs = false := by
  have hsum : le (.ofNat 3600001) ((JsNumber.ofNat m).add advertisedBoundGraceMs) = true :=
    le_add_ofNat (l := 3570001) (n := 30000) (by omega) (by norm_num) (by norm_num)
  obtain ⟨_, r, hl, hr, hle⟩ := exists_rank_of_le hsum
  obtain ⟨_, c, -, hc, -⟩ := exists_rank_of_le h
  obtain rfl := Option.some.inj ((rank_ofNat 3600001).symm.trans hl)
  have hmax : rank maxRetryWaitMs = some (finiteRank (3600000 : ℕ)) := rank_ofNat _
  have hlt : finiteRank ((3600000 : ℕ) : ℚ) < r :=
    lt_of_lt_of_le (WithBot.coe_lt_coe.mpr (WithTop.coe_lt_coe.mpr (by norm_num))) hle
  have hwide := rank_max hr hc
  constructor
  · rw [min_of_rank hmax hwide, lt_eq_false hwide hmax (hlt.le.trans le_sup_left),
      (lt_iff hmax hwide).mpr (hlt.trans_le le_sup_left)]
    rfl
  · exact Bool.eq_false_iff.mpr (mt (le_iff hr hmax).mp hlt.not_ge)

end Bounds

section Selection

open JsNumber

/-- The window is in range and grows with the cap. A bound that fits under the maximum with the grace
sets the window that its path names, and a full wait passes it. A greater bound is cut at the
maximum, and no wait of the window passes it. -/
theorem retryWaitSelection_judged (policy : Option AdvertisedRetryPolicy) (cap : JsNumber)
    (h : le retryWaitFloorMs cap = true) :
    (le retryWaitFloorMs (retryWaitSelection policy cap).windowMs = true ∧
      le (retryWaitSelection policy cap).windowMs maxRetryWaitMs = true) ∧
    (∀ cap', le cap cap' = true →
      le (retryWaitSelection policy cap).windowMs (retryWaitSelection policy cap').windowMs = true) ∧
    ((retryWaitSelection policy cap).path = .advertisedBound →
      ∃ m : ℕ, advertisedMaxElapsedMs policy = some (.ofNat m)) ∧
    ∀ m : ℕ, advertisedMaxElapsedMs policy = some (.ofNat m) →
      (m + 30000 ≤ 3600000 →
        ((retryWaitSelection policy cap).path = .advertisedBound →
          (retryWaitSelection policy cap).windowMs = .ofNat (m + 30000)) ∧
        pastAdvertisedBound policy (retryWaitSelection policy cap).windowMs = true) ∧
      (3600000 < m + 30000 →
        (retryWaitSelection policy cap).windowMs = maxRetryWaitMs ∧
        pastAdvertisedBound policy (retryWaitSelection policy cap).windowMs = false) := by
  have hwindow : ∀ c, (retryWaitSelection policy c).windowMs = retryWaitFor policy c := by
    intro c
    unfold retryWaitSelection
    cases policy with
    | none => rfl
    | some p => cases advertisedMaxElapsedMs (some p) <;> rfl
  have hrefl : le cap cap = true := by
    obtain ⟨_, c, -, hc, -⟩ := exists_rank_of_le h
    exact (le_iff hc hc).mpr le_rfl
  simp only [hwindow]
  refine ⟨(retryWaitFor_bounds policy h hrefl).1,
    fun cap' hcap => (retryWaitFor_bounds policy h hcap).2, ?_, ?_⟩
  · intro hpath
    cases hb : advertisedMaxElapsedMs policy with
    | some bound =>
      obtain ⟨m, -, rfl⟩ := exists_nat_of_advertised hb
      exact ⟨m, rfl⟩
    | none =>
      exfalso
      cases policy with
      | none => cases hpath
      | some p =>
        simp only [retryWaitSelection, hb] at hpath
        split at hpath <;> cases hpath
  · intro m hb
    cases policy with
    | none => cases hb
    | some p =>
      have hm := advertised_pos hb
      simp only [retryWaitFor, retryWaitSelection, pastAdvertisedBound, hb]
      constructor
      · intro hle
        obtain ⟨hpath, hpast⟩ := window_of_le hm hle h
        refine ⟨fun hadv => ?_, hpast⟩
        rw [hpath (by by_contra hn; rw [if_neg hn] at hadv; cases hadv)]
        exact add_ofNat hm (by omega)
      · intro hlt
        obtain ⟨hcut, hpast⟩ := window_of_lt hlt h
        rw [hcut]
        exact ⟨rfl, hpast⟩

theorem judged_advertised :
    le retryWaitFloorMs defaultRetryWaitCapMs = true ∧
      (retryWaitSelection (some ⟨some (.str (js "exponential")), some (.num (.ofNat 540000))⟩)
        defaultRetryWaitCapMs).windowMs = .ofNat 570000 := by
  have hfloor : le retryWaitFloorMs defaultRetryWaitCapMs = true := by decide +kernel
  refine ⟨hfloor, ?_⟩
  have hfits := ((retryWaitSelection_judged
    (some ⟨some (.str (js "exponential")), some (.num (.ofNat 540000))⟩) _ hfloor).2.2.2 540000
      (by decide +kernel)).1 (by norm_num)
  exact hfits.1 (by decide +kernel)

/-- A bound of two hours is cut at the maximum, and no full wait passes it. A cap of a second is the
window of a policy that backs off. -/
theorem cut_bound_not_judged :
    pastAdvertisedBound (some ⟨some (.str (js "fixed")), some (.num (.ofNat 7200000))⟩)
      (retryWaitSelection (some ⟨some (.str (js "fixed")), some (.num (.ofNat 7200000))⟩)
        defaultRetryWaitCapMs).windowMs = false ∧
      le retryWaitFloorMs
        (retryWaitSelection (some ⟨some (.str (js "fixed")), none⟩) (.ofNat 1000)).windowMs = false := by
  decide +kernel

end Selection

section Cap

open JsNumber

/-- The cap of a run is never below the default. -/
theorem le_retryWaitCapMs (env : ProcessEnv) :
    le defaultRetryWaitCapMs (retryWaitCapMs env) = true := by
  have hdefault := rank_ofNat 90000
  have hself : le defaultRetryWaitCapMs defaultRetryWaitCapMs = true :=
    (le_iff hdefault hdefault).mpr le_rfl
  unfold retryWaitCapMs
  split
  · next d _ =>
    split
    · exact hself
    · next hlt =>
      have hvalue : ((90000 : ℕ) : ℚ) ≤ d.value := by
        by_contra hn
        refine hlt ((lt_iff rfl hdefault).mpr ?_)
        exact WithBot.coe_lt_coe.mpr (WithTop.coe_lt_coe.mpr (not_le.mp hn))
      have hfloor : (90000 : ℤ) ≤ ⌊d.value⌋ := Int.le_floor.mpr (by exact_mod_cast hvalue)
      have hsign : d.negative = false := by
        by_contra hs
        rw [Decimal.value, if_pos (Bool.not_eq_false _ ▸ hs)] at hvalue
        have := d.magnitude_nonneg
        push_cast at hvalue
        linarith
      have hle : le (.ofNat 90000) (JsNumber.floor (.finite d)) = true := by
        rw [JsNumber.floor, if_neg (by omega), hsign]
        refine le_nearestNumber (by norm_num) ?_
        rw [← Int.cast_abs, abs_of_nonneg (by omega)]
        exact_mod_cast hfloor
      obtain ⟨_, r, hr', hr, hler⟩ := exists_rank_of_le hle
      obtain rfl := Option.some.inj (hdefault.symm.trans hr')
      have hmax : rank maxRetryWaitCapMs = some (finiteRank (3600000 : ℕ)) := rank_ofNat _
      refine (le_iff hdefault (rank_min hr hmax)).mpr (le_inf hler ?_)
      exact WithBot.coe_le_coe.mpr (WithTop.coe_le_coe.mpr (by norm_num))
  · exact hself

end Cap

end OpenWop.Webhook
