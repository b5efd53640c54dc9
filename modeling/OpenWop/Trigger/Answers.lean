import OpenWop.Trigger.Runs

/-!
# Answers of the trigger double

A `webhook-id` that was delivered stays delivered with its run, so each later post of it that is
taken is answered with that run.
-/

namespace OpenWop.Trigger

open OpenWop.Js OpenWop.Core

section Delivered

variable {env : Env} {s s' before : Double} {defect : Defect} {subs : Map JsString Sub} {seq n : Nat}
  {sub other : Sub} {id runId : JsString}

/-- The subscription with that number delivered the id, with the run. -/
def Delivered (s : Double) (n : Nat) (id runId : JsString) : Prop :=
  ∃ sub ∈ s.subs.values, sub.n = n ∧ sub.seen.get? id = some runId

/-- Numbers tell subscriptions apart. -/
theorem Listed.eq_of_n (h : Listed subs seq) (hsub : sub ∈ subs.values) (hother : other ∈ subs.values)
    (hn : other.n = sub.n) : other = sub := by
  have hnodup : (subs.values.map Sub.n).Nodup := h.numbers ▸ List.nodup_range'
  exact List.inj_on_of_nodup_map hnodup hother hsub hn

/-- The subscription a post is for. -/
theorem Listed.find? (h : Listed subs seq) (hsub : sub ∈ subs.values) (hn : sub.n = n) :
    subs.values.find? (fun sub => sub.n = n) = some sub := by
  have hsome : (subs.values.find? fun sub => sub.n = n).isSome :=
    List.find?_isSome.mpr ⟨sub, hsub, decide_eq_true hn⟩
  obtain ⟨found, hfound⟩ := Option.isSome_iff_exists.mp hsome
  have hmem := List.mem_of_find?_eq_some hfound
  have hfn : found.n = n := of_decide_eq_true (List.find?_some hfound :)
  rw [hfound, h.eq_of_n hsub hmem (hfn.trans hn.symm)]

/-- What stands in the list after a subscription is written. -/
theorem Listed.mem_set (h : Listed subs seq) (hsub : sub ∈ subs.values) (sub' : Sub) :
    sub' ∈ (subs.set sub.id sub').values ∧
      ∀ other ∈ subs.values, other = sub ∨ other ∈ (subs.set sub.id sub').values := by
  obtain ⟨before, after, hold, hnew⟩ := h.split hsub sub'
  simp only [Map.values, Record.values, hold, hnew, List.map_append, List.map_cons, List.mem_append,
    List.mem_cons, true_or, or_true, true_and]
  rintro other (hother | rfl | hother)
  · exact Or.inr (Or.inl hother)
  · exact Or.inl rfl
  · exact Or.inr (Or.inr (Or.inr hother))

/-- A delivered id stays so when the subscription is written with the ids it had. -/
theorem Delivered.set (h : Delivered s n id runId) (hs : Sound s) (hsub : sub ∈ s.subs.values)
    (sub' : Sub) (hn : sub'.n = sub.n)
    (hseen : ∀ run, sub.seen.get? id = some run → sub'.seen.get? id = some run)
    (hsubs : s'.subs = s.subs.set sub.id sub') : Delivered s' n id runId := by
  obtain ⟨other, hother, hnum, hget⟩ := h
  obtain ⟨hmem, hrest⟩ := hs.subs.mem_set hsub sub'
  rcases hrest other hother with rfl | hkept
  · exact ⟨sub', hsubs ▸ hmem, hn.trans hnum, hseen runId hget⟩
  · exact ⟨other, hsubs ▸ hkept, hnum, hget⟩

theorem Delivered.next (h : Delivered s n id runId) (hs : Sound s) (hdedup : s.defect ≠ .dedupNewRun)
    (req : Request) : Delivered (next env s req) n id runId := by
  rcases next_cases env s req with heq | heq | ⟨sub, hsub, heq⟩ | ⟨sub, hsub, id', heq, hnew⟩
  · rwa [heq]
  · rw [heq]
    rcases register_cases s req with heq | ⟨sub, hid, hn, -, -, heq⟩
    · rwa [heq]
    · obtain ⟨other, hother, hnum, hget⟩ := h
      refine ⟨other, ?_, hnum, hget⟩
      rw [heq, Map.values, (hs.subs.add hid hn).1, Record.values, List.map_append]
      exact List.mem_append_left _ hother
  · have hkept : Delivered (refusedState env s sub req) n id runId :=
      h.set hs hsub (refusedSub env s sub req) rfl (fun _ hrun => hrun) rfl
    rw [heq, refuse_fst]
    split_ifs
    · exact hkept
    · exact hkept
  · rw [heq]
    refine h.set hs hsub { sub with seen := sub.seen.set id' (mintedId (js "run") (s.seq + 1)) } rfl
      (fun run hrun => ?_) rfl
    -- The id of the new run is another one, since this one has a run.
    have hne : id ≠ id' := by
      rintro rfl
      rw [hnew.resolve_right hdedup] at hrun
      exact Option.some_ne_none _ hrun.symm
    rw [Map.get?_set, if_neg hne, hrun]

/-- What a post to a subscription runs. -/
theorem ingest_eq (h : Listed s.subs seq) (hsub : sub ∈ s.subs.values) {req : Request}
    {digits : JsString} (hn : sub.n = digitsValue digits) : ingest env s req digits =
      if isGood env s sub req = false ∧ sub.mode = .str (js "required") then refuse env s sub req
      else deliver s sub (req.header (js "webhook-id")) := by
  rw [ingest, h.find? hsub hn]

/-- A post of a delivered id, when it is taken. -/
theorem Delivered.ingest (h : Delivered s n id runId) (hs : Sound s)
    (hdedup : s.defect ≠ .dedupNewRun) {req : Request} {digits : JsString}
    (hn : digitsValue digits = n) (hid : req.header (js "webhook-id") = id) :
    ingest env s req digits = (s, some (.run 200 (js "duplicate") runId)) ∨
      ∃ sub ∈ s.subs.values, sub.n = n ∧ sub.mode = .str (js "required") ∧
        isGood env s sub req = false ∧ ingest env s req digits = refuse env s sub req := by
  obtain ⟨sub, hsub, hnum, hget⟩ := h
  rw [ingest_eq hs.subs hsub (hnum.trans hn.symm)]
  split_ifs with hbad
  · exact Or.inr ⟨sub, hsub, hnum, hbad.2, hbad.1, rfl⟩
  · refine Or.inl ?_
    rw [hid, deliver, hget]
    exact if_neg hdedup

end Delivered

section Answers

variable {env : Env} {s s' before : Double} {defect : Defect}

/-- The subscription of `openRegistration`. -/
def openSub : Sub where
  id := mintedId (js "sub") 1
  n := 1
  mode := .str (js "none")
  secret := secretOf 1
  state := js "active"
  seen := .empty
  dead := []

/-- The double after `openRegistration`. -/
def opened : Double := { idle with subs := Map.empty.set openSub.id openSub, seq := 1 }

end Answers

end OpenWop.Trigger
