import OpenWop.Js.IntegerText
import OpenWop.Js.Writes
import OpenWop.Trigger.Double

/-!
# Runs of the trigger double

What every request leaves of the subscriptions and of the runs: ids and numbers are fresh, a
delivered `webhook-id` keeps its run, and the runs are those of the delivered ids, one for each.
-/

namespace OpenWop.Trigger

open OpenWop.Js OpenWop.Core

section Ids

theorem digitsValue_padded (k : Nat) : digitsValue (padded k) = k := by
  rw [padded, digitsValue_append, digitsValue_zeros, Nat.zero_mul, Nat.zero_add, digitsValue_eq_ofDigits]
  exact ofDigits_decimal k

theorem padded_inj {k l : Nat} (h : padded k = padded l) : k = l := by
  rw [← digitsValue_padded k, h, digitsValue_padded]

theorem mintedId_inj {kind : JsString} {k l : Nat} (h : mintedId kind k = mintedId kind l) :
    k = l := by
  rw [mintedId, mintedId] at h
  exact padded_inj (List.append_cancel_left h)

end Ids

section Sound

/-- The subscriptions stand under their ids, which are minted, and are numbered from 1. -/
structure Listed (subs : Map JsString Sub) (seq : Nat) : Prop where
  own : ∀ key sub, subs.get? key = some sub → sub.id = key
  minted : ∀ key ∈ subs.keys, ∃ k ≤ seq, key = mintedId (js "sub") k
  numbers : subs.values.map Sub.n = List.range' 1 subs.entries.length

/-- The ids of the runs are minted. -/
def Minted (runs : Map JsString (List Json)) (seq : Nat) : Prop :=
  ∀ key ∈ runs.keys, ∃ k ≤ seq, key = mintedId (js "run") k

/-- What every state of the double is like, whatever the defect. -/
structure Sound (s : Double) : Prop where
  subs : Listed s.subs s.seq
  runs : Minted s.runs s.seq

variable {subs : Map JsString Sub} {runs : Map JsString (List Json)} {seq seq' : Nat} {s : Double}
  {sub sub' : Sub} {env : Env} {req : Request}

theorem Listed.mono (h : Listed subs seq) (hle : seq ≤ seq') : Listed subs seq' :=
  ⟨h.own, fun key hkey => (h.minted key hkey).imp fun _ hk => ⟨hk.1.trans hle, hk.2⟩, h.numbers⟩

theorem Minted.mono (h : Minted runs seq) (hle : seq ≤ seq') : Minted runs seq' := fun key hkey =>
  (h key hkey).imp fun _ hk => ⟨hk.1.trans hle, hk.2⟩

theorem Listed.get? (h : Listed subs seq) (hsub : sub ∈ subs.values) :
    subs.get? sub.id = some sub := by
  obtain ⟨key, hkey⟩ := Map.mem_values_iff.mp hsub
  rw [h.own key sub hkey, hkey]

/-- The entries around a subscription, before and after it is written. -/
theorem Listed.split (h : Listed subs seq) (hsub : sub ∈ subs.values) (sub' : Sub) :
    ∃ before after, subs.entries = before ++ (sub.id, sub) :: after ∧
      (subs.set sub.id sub').entries = before ++ (sub.id, sub') :: after :=
  Record.set_split (h.get? hsub) sub'

/-- A subscription is changed in place. -/
theorem Listed.set (h : Listed subs seq) (hsub : sub ∈ subs.values) (sub' : Sub)
    (hid : sub'.id = sub.id) (hn : sub'.n = sub.n) : Listed (subs.set sub.id sub') seq := by
  obtain ⟨before, after, hold, hnew⟩ := h.split hsub sub'
  have hkeys : (subs.set sub.id sub').keys = subs.keys := by
    simp only [Map.keys, Record.keys, hold, hnew, List.map_append, List.map_cons]
  refine ⟨fun key v hv => ?_, fun key hkey => h.minted key (hkeys ▸ hkey), ?_⟩
  · rw [Map.get?_set] at hv
    split at hv
    · next hk =>
      obtain rfl := Option.some.inj hv
      rw [hid, hk]
    · exact h.own key v hv
  · have hnumbers := h.numbers
    simp only [Map.values, Record.values, hold, List.map_append, List.map_cons, List.length_append,
      List.length_cons] at hnumbers
    simp only [Map.values, Record.values, hnew, List.map_append, List.map_cons, List.length_append,
      List.length_cons, hn, hnumbers]

/-- The id that is minted next is no key. -/
theorem Listed.fresh (h : Listed subs seq) {k : Nat} (hk : seq < k) :
    mintedId (js "sub") k ∉ subs.keys := by
  intro hin
  obtain ⟨l, hl, heq⟩ := h.minted _ hin
  have hkl := mintedId_inj heq
  omega

theorem Minted.fresh (h : Minted runs seq) {k : Nat} (hk : seq < k) :
    mintedId (js "run") k ∉ runs.keys := by
  intro hin
  obtain ⟨l, hl, heq⟩ := h _ hin
  have hkl := mintedId_inj heq
  omega

/-- A subscription is added at the end. -/
theorem Listed.add (h : Listed subs seq) (hid : sub.id = mintedId (js "sub") (seq + 1))
    (hn : sub.n = subs.entries.length + 1) :
    (subs.set sub.id sub).entries = subs.entries ++ [(sub.id, sub)] ∧
      Listed (subs.set sub.id sub) (seq + 1) := by
  have hfresh : sub.id ∉ subs.keys := hid ▸ h.fresh (Nat.lt_succ_self seq)
  have hset : (subs.set sub.id sub).entries = subs.entries ++ [(sub.id, sub)] :=
    Record.set_of_not_mem sub hfresh
  refine ⟨hset, fun key v hv => ?_, fun key hkey => ?_, ?_⟩
  · rw [Map.get?_set] at hv
    split at hv
    · next hk =>
      obtain rfl := Option.some.inj hv
      exact hk.symm
    · exact h.own key v hv
  · rw [Map.keys, hset, Record.keys, List.map_append, List.mem_append] at hkey
    obtain hold | hnew := hkey
    · obtain ⟨k, hk, heq⟩ := h.minted key hold
      exact ⟨k, by omega, heq⟩
    · rw [List.map_singleton, List.mem_singleton] at hnew
      exact ⟨seq + 1, le_rfl, hnew.trans hid⟩
  · have hnumbers := h.numbers
    rw [Map.values, Record.values] at hnumbers ⊢
    rw [hset, List.map_append, List.map_append, hnumbers, List.length_append, List.length_singleton,
      List.range'_concat, List.map_singleton, List.map_singleton, hn, Nat.one_mul, Nat.add_comm]

/-- A run is added at the end. -/
theorem Minted.add (h : Minted runs seq) (events : List Json) :
    (runs.set (mintedId (js "run") (seq + 1)) events).keys =
        runs.keys ++ [mintedId (js "run") (seq + 1)] ∧
      Minted (runs.set (mintedId (js "run") (seq + 1)) events) (seq + 3) := by
  have hentries : (runs.set (mintedId (js "run") (seq + 1)) events).entries =
      runs.entries ++ [(mintedId (js "run") (seq + 1), events)] :=
    Record.set_of_not_mem events (h.fresh (Nat.lt_succ_self seq))
  have hset : (runs.set (mintedId (js "run") (seq + 1)) events).keys =
      runs.keys ++ [mintedId (js "run") (seq + 1)] := by
    rw [Map.keys, hentries, Record.keys, List.map_append, List.map_singleton]
    rfl
  refine ⟨hset, fun key hkey => ?_⟩
  rw [hset, List.mem_append, List.mem_singleton] at hkey
  obtain hold | rfl := hkey
  · obtain ⟨k, hk, heq⟩ := h key hold
    exact ⟨k, by omega, heq⟩
  · exact ⟨seq + 1, by omega, rfl⟩

/-- What a request may do: nothing, register a subscription, refuse a post, or start a run for a
`webhook-id` that was not delivered, unless the defect is to start one again. -/
theorem next_cases (env : Env) (s : Double) (req : Request) :
    next env s req = s ∨ next env s req = (register s req).1 ∨
      (∃ sub ∈ s.subs.values, next env s req = (refuse env s sub req).1) ∨
      ∃ sub ∈ s.subs.values, ∃ id, next env s req = (startFor s sub id).1 ∧
        (sub.seen.get? id = none ∨ s.defect = .dedupNewRun) := by
  unfold next handle
  split
  · exact Or.inl rfl
  · exact Or.inr (Or.inl rfl)
  · next digits =>
    unfold ingest
    split
    · exact Or.inl rfl
    · next sub hfind =>
      have hsub := List.mem_of_find?_eq_some hfind
      split_ifs
      · exact Or.inr (Or.inr (Or.inl ⟨sub, hsub, rfl⟩))
      · unfold deliver
        split
        · split_ifs with hdefect
          · exact Or.inr (Or.inr (Or.inr ⟨sub, hsub, _, rfl, Or.inr hdefect⟩))
          · exact Or.inl rfl
        · next hnone => exact Or.inr (Or.inr (Or.inr ⟨sub, hsub, _, rfl, Or.inl hnone⟩))
  · exact Or.inl rfl
  · exact Or.inl rfl
  · exact Or.inl rfl

/-- The state after a registration. -/
theorem register_cases (s : Double) (req : Request) : (register s req).1 = s ∨
    ∃ sub : Sub, sub.id = mintedId (js "sub") (s.seq + 1) ∧ sub.n = s.subs.entries.length + 1 ∧
      sub.seen = .empty ∧ sub.state = js "active" ∧
      (register s req).1 = { s with subs := s.subs.set sub.id sub, seq := s.seq + 1 } := by
  unfold register
  split
  · exact Or.inl rfl
  · next mode _ => exact Or.inr ⟨_, rfl, rfl, rfl, rfl, rfl⟩

/-- The state after a refused post. -/
theorem refuse_fst (env : Env) (s : Double) (sub : Sub) (req : Request) :
    (refuse env s sub req).1 = if s.defect = .refusedStartsRun then
      (startRun (refusedState env s sub req) sub).1 else refusedState env s sub req := by
  rw [refuse]
  split_ifs <;> rfl

theorem le_refusedState_seq (env : Env) (s : Double) (sub : Sub) (req : Request) :
    s.seq ≤ (refusedState env s sub req).seq := by
  rw [refusedState]
  split_ifs
  · exact Nat.le_refl _
  · exact Nat.le_succ _

@[simp] theorem next_defect (env : Env) (s : Double) (req : Request) :
    (next env s req).defect = s.defect := by
  rcases next_cases env s req with h | h | ⟨sub, -, h⟩ | ⟨sub, -, id, h, -⟩
  · rw [h]
  · rw [h]
    rcases register_cases s req with h | ⟨sub, -, -, -, -, h⟩ <;> rw [h]
  · rw [h, refuse_fst]
    split_ifs <;> rfl
  · rw [h]
    rfl

theorem sound_reset (before : Double) (defect : Defect) : Sound (before.reset defect) where
  subs := ⟨fun _ _ h => (Option.some_ne_none _ h.symm).elim, fun _ h => (List.not_mem_nil h).elim, rfl⟩
  runs _ h := (List.not_mem_nil h).elim

theorem Sound.next (h : Sound s) (req : Request) : Sound (next env s req) := by
  rcases next_cases env s req with heq | heq | ⟨sub, hsub, heq⟩ | ⟨sub, hsub, id, heq, -⟩
  · rwa [heq]
  · rw [heq]
    rcases register_cases s req with heq | ⟨sub, hid, hn, -, -, heq⟩
    · rwa [heq]
    · rw [heq]
      exact ⟨(h.subs.add hid hn).2, h.runs.mono (Nat.le_succ _)⟩
  · have hle := le_refusedState_seq env s sub req
    have hset : Listed (refusedState env s sub req).subs (refusedState env s sub req).seq :=
      (h.subs.set hsub (refusedSub env s sub req) rfl rfl).mono hle
    rw [heq, refuse_fst]
    split_ifs
    · exact ⟨hset.mono (Nat.le_add_right _ 3), ((h.runs.mono hle).add _).2⟩
    · exact ⟨hset, h.runs.mono hle⟩
  · rw [heq]
    have hset := h.subs.set hsub { sub with seen := sub.seen.set id (mintedId (js "run") (s.seq + 1)) }
      rfl rfl
    exact ⟨hset.mono (Nat.le_add_right _ 3), (h.runs.add _).2⟩

end Sound

section Once

variable {s s' before : Double} {defect : Defect} {env : Env}

/-- The runs of the delivered ids of all subscriptions. -/
def Double.delivered (s : Double) : List JsString := s.subs.values.flatMap fun sub => sub.seen.values

/-- The runs are those of the delivered ids, one for each. -/
def Once (s : Double) : Prop := s.runs.keys.Perm s.delivered

/-- The runs delivered, after a subscription is written. -/
theorem delivered_set {subs : Map JsString Sub} {seq : Nat} {sub : Sub} (sub' : Sub)
    (h : Listed subs seq) (hsub : sub ∈ subs.values) :
    ∃ before after, subs.values.flatMap (fun sub => sub.seen.values) =
        before ++ sub.seen.values ++ after ∧
      (subs.set sub.id sub').values.flatMap (fun sub => sub.seen.values) =
        before ++ sub'.seen.values ++ after := by
  obtain ⟨before, after, hold, hnew⟩ := h.split hsub sub'
  refine ⟨(Record.values before).flatMap fun sub => sub.seen.values,
    (Record.values after).flatMap fun sub => sub.seen.values, ?_, ?_⟩
  · rw [Map.values, hold, Record.values, List.map_append, List.map_cons, List.flatMap_append,
      List.flatMap_cons, List.append_assoc]
    rfl
  · rw [Map.values, hnew, Record.values, List.map_append, List.map_cons, List.flatMap_append,
      List.flatMap_cons, List.append_assoc]
    rfl

/-- A new run for a new id. -/
theorem once_startFor (hs : Sound s) (h : Once s) {sub : Sub} (hsub : sub ∈ s.subs.values)
    {id : JsString} (hid : sub.seen.get? id = none) : Once (startFor s sub id).1 := by
  have hvalues : (sub.seen.set id (mintedId (js "run") (s.seq + 1))).values =
      sub.seen.values ++ [mintedId (js "run") (s.seq + 1)] := by
    have hset : (sub.seen.set id (mintedId (js "run") (s.seq + 1))).entries = _ :=
      Record.set_of_not_mem _ (Record.get?_eq_none_iff.mp hid)
    rw [Map.values, hset, Record.values, List.map_append]
    rfl
  obtain ⟨before, after, hold, hnew⟩ := delivered_set
    { sub with seen := sub.seen.set id (mintedId (js "run") (s.seq + 1)) } hs.subs hsub
  have hkeys : (startFor s sub id).1.runs.keys = s.runs.keys ++ [mintedId (js "run") (s.seq + 1)] :=
    (hs.runs.add _).1
  have hdelivered : (startFor s sub id).1.delivered =
      before ++ (sub.seen.values ++ [mintedId (js "run") (s.seq + 1)]) ++ after :=
    hnew.trans (by rw [hvalues])
  rw [Once, Double.delivered, hold] at h
  rw [Once, hkeys, hdelivered]
  refine (h.append_right _).trans ?_
  simp only [List.append_assoc]
  exact (List.perm_append_comm.append_left _).append_left _

theorem Once.next (hs : Sound s) (h : Once s) (hdedup : s.defect ≠ .dedupNewRun)
    (hstarts : s.defect ≠ .refusedStartsRun) (req : Request) : Once (next env s req) := by
  rcases next_cases env s req with heq | heq | ⟨sub, hsub, heq⟩ | ⟨sub, hsub, id, heq, hid⟩
  · rwa [heq]
  · rw [heq]
    rcases register_cases s req with heq | ⟨sub, hid, hn, hseen, -, heq⟩
    · rwa [heq]
    · rw [heq, Once, Double.delivered, Map.values, (hs.subs.add hid hn).1, Record.values,
        List.map_append, List.flatMap_append, List.map_singleton, List.flatMap_singleton, hseen]
      exact (List.append_nil s.delivered).symm ▸ h
  · rw [heq, refuse_fst, if_neg hstarts]
    obtain ⟨before, after, hold, hnew⟩ := delivered_set (refusedSub env s sub req) hs.subs hsub
    have hsame : (refusedState env s sub req).delivered = s.delivered := hnew.trans hold.symm
    rw [Once, hsame]
    exact h
  · rw [heq]
    exact once_startFor hs h hsub (hid.resolve_right hdedup)

/-- Without the defects that start a run again or for a refused post, whatever requests come, the
runs are those of the delivered `webhook-id`s of the subscriptions, one for each. -/
theorem runs_perm_delivered (h : Reached env before defect s) (hdedup : defect ≠ .dedupNewRun)
    (hstarts : defect ≠ .refusedStartsRun) : s.runs.keys.Perm s.delivered := by
  have hall : (Sound s ∧ s.defect = defect) ∧ Once s := by
    refine h.invariant (I := fun s => (Sound s ∧ s.defect = defect) ∧ Once s)
      ⟨⟨sound_reset before defect, rfl⟩, List.Perm.refl _⟩ ?_
    rintro s req ⟨⟨hs, hd⟩, honce⟩ -
    exact ⟨⟨hs.next req, (next_defect env s req).trans hd⟩,
      honce.next hs (hd ▸ hdedup) (hd ▸ hstarts) req⟩
  exact hall.2

/-- An HMAC and a clock for fixed requests. -/
def zeroEnv : Env where
  hmac _ _ := Vector.replicate 32 0
  iso _ := []

/-- A double that has seen no request. -/
def idle : Double where
  defect := .none
  url := []
  subs := .empty
  runs := .empty
  seq := 0

/-- A registration without verification. -/
def openRegistration : Request where
  method := js "POST"
  path := js "/trigger-subscriptions"
  query := []
  headers := []
  body := []
  json := some (.obj [])
  now := 0

/-- A post to the first subscription. -/
def openPost : Request where
  method := js "POST"
  path := js "/ingest/1"
  query := []
  headers := [(js "webhook-id", js "msg")]
  body := []
  json := none
  now := 0

theorem runs_perm_delivered_openPost :
    let s := next zeroEnv (next zeroEnv (idle.reset .none) openRegistration) openPost
    s.runs.keys.Perm s.delivered :=
  runs_perm_delivered ((Core.Reachable.start.step trivial).step trivial) (by decide) (by decide)

end Once

end OpenWop.Trigger
