import OpenWop.Core.History
import OpenWop.OAuth.AsDouble

/-!
# Exchanges of codes

However requests come and their bodies end, a code is exchanged once at most, and only with the
redirect URI it was issued for and a verifier of its challenge. Refresh tokens come from exchanges,
and each token request is recorded as it is answered. A request without a verifier counts as one
with the empty verifier.
-/

namespace OpenWop.OAuth

open OpenWop.Js OpenWop.Core

section Property

/-- The token request was answered with a token, for that grant. -/
def Granted (grant : JsString) (params : Params) (answer : Answer) : Prop :=
  Record.get? params (js "grant_type") = some grant ∧ answer.status = 200

instance (grant : JsString) (params : Params) (answer : Answer) :
    Decidable (Granted grant params answer) :=
  inferInstanceAs (Decidable (_ ∧ _))

/-- The code of a successful exchange. -/
def Event.exchanged? : Event → Option JsString
  | .token _ params answer =>
    if Granted (js "authorization_code") params answer then Record.get? params (js "code") else none
  | _ => none

/-- The refresh token of a successful exchange. -/
def Event.handedOut? : Event → Option Json
  | .token _ params answer =>
    if Granted (js "authorization_code") params answer then answer.member? (js "refresh_token")
    else none
  | _ => none

/-- A token request that was answered, with the status of the answer. -/
def Event.tokenAnswer? : Event → Option (Params × Nat)
  | .token _ params answer => some (params, answer.status)
  | _ => none

/-- The number of a token request that was answered. -/
def Event.answered? : Event → Option Nat
  | .token id _ _ => some id
  | _ => none

/-- The number of a token request that came. -/
def Event.arrived? : Event → Option Nat
  | .arrived id => some id
  | _ => none

/-- The codes exchanged successfully. -/
def exchanged (events : List Event) : List JsString := events.filterMap Event.exchanged?

/-- The refresh tokens handed out by successful exchanges. -/
def handedOut (events : List Event) : List Json := events.filterMap Event.handedOut?

/-- The token requests answered, with the status of the answer. -/
def tokenAnswers (events : List Event) : List (Params × Nat) :=
  events.filterMap Event.tokenAnswer?

/-- The token requests answered, by their numbers. -/
def answered (events : List Event) : List Nat := events.filterMap Event.answered?

/-- The token requests that came, by their numbers. -/
def arrived (events : List Event) : List Nat := events.filterMap Event.arrived?

theorem filterMap_concat {α β : Type} (f : α → Option β) (events : List α) (e : α) :
    (events ++ [e]).filterMap f = events.filterMap f ++ (f e).toList := by
  rw [List.filterMap_append, List.filterMap_cons, List.filterMap_nil]
  cases f e <;> rfl

/-- The verifier is that of the challenge, under the method it was sent with. -/
def Matches (web : Web) (method : Option JsString) (challenge verifier : JsString) : Prop :=
  (if method = some (js "S256") then web.S256 verifier else verifier) = challenge

/-- A successful exchange carries what was sent for its code. -/
def Carries (web : Web) (verifierOf : Params → Option JsString) (before : List Event) :
    Event → Prop
  | .token _ params answer => Granted (js "authorization_code") params answer →
    ∃ code sent uri, Record.get? params (js "code") = some code ∧ (code, sent) ∈ issued before ∧
      Record.get? sent (js "redirect_uri") = some uri ∧
      Record.get? params (js "redirect_uri") = some uri ∧
      ∀ challenge, Record.get? sent (js "code_challenge") = some challenge →
        ∃ verifier, verifierOf params = some verifier ∧
          Matches web (Record.get? sent (js "code_challenge_method")) challenge verifier
  | _ => True

/-- A successful refresh has a token of an exchange before it. -/
def Refreshes (before : List Event) : Event → Prop
  | .token _ params answer => Granted (js "refresh_token") params answer →
    ∃ token, Record.get? params (js "refresh_token") = some token ∧ .str token ∈ handedOut before
  | _ => True

/-- What should hold of a run. -/
structure Sound (web : Web) (verifierOf : Params → Option JsString) (r : Run) : Prop where
  distinct : (Record.keys (issued r.events)).Nodup
  once : (exchanged r.events).Nodup
  carries : Each (Carries web verifierOf) r.events
  refreshes : Each Refreshes r.events
  recorded : r.state.tokenRequests.map (fun t => (t.params, t.status)) = tokenAnswers r.events
  arrivedOnce : (arrived r.events).Nodup
  accounted : (arrived r.events).Perm (answered r.events ++ Record.keys r.state.awaited)

/-- The verifier a request carries. -/
def carriedVerifier (params : Params) : Option JsString :=
  Record.get? params (js "code_verifier")

/-- The verifier a request is taken to carry: without one, the empty text. -/
def readVerifier (params : Params) : Option JsString :=
  some ((Record.get? params (js "code_verifier")).getD [])

end Property

section Steps

variable {web : Web} {issuer : JsString}

/-- A code may have been marked as used. -/
def MayMark (codes codes' : Map JsString CodeRecord) : Prop :=
  codes' = codes ∨
    ∃ code c, codes.get? code = some c ∧ codes' = codes.set code { c with used := true }

/-- How a token request is settled. -/
inductive TokenStep (web : Web) (s s' : State) (params : Params) (answer : Answer) : Prop where
  | refused (status : answer.status = 400) (refresh : s'.refresh = s.refresh)
      (codes : MayMark s.codes s'.codes)
  | exchanged (c : CodeRecord) (rt : JsString)
      (granted : Granted (js "authorization_code") params answer)
      (found : s.codes.get? ((Record.get? params (js "code")).getD []) = some c)
      (unused : c.used = false)
      (codes : s'.codes =
        s.codes.set ((Record.get? params (js "code")).getD []) { c with used := true })
      (uri : Record.get? params (js "redirect_uri") = some c.redirectUri)
      (verified : verifies web c params = true) (nonempty : rt ≠ [])
      (refresh : s'.refresh = s.refresh ++ [rt])
      (answer : answer.member? (js "refresh_token") = some (.str rt))
  | refreshed (granted : Granted (js "refresh_token") params answer)
      (found : (Record.get? params (js "refresh_token")).getD [] ∈ s.refresh)
      (codes : s'.codes = s.codes) (refresh : s'.refresh = s.refresh)

theorem getD_eq {o : Option JsString} {t : JsString} (ht : t ≠ []) (h : o.getD [] = t) :
    o = some t := by
  cases o with
  | none => exact absurd h.symm ht
  | some s => exact congrArg some h

theorem token_step (s : State) (params : Params) (now : Nat) (rr ra : JsString) :
    TokenStep web s (token web s params now rr ra).1 params (token web s params now rr ra).2 := by
  unfold token
  dsimp only
  split
  · next hgrant =>
    unfold exchange
    dsimp only
    split
    · exact .refused rfl rfl (Or.inl rfl)
    · next c hc =>
      split
      · exact .refused rfl rfl (Or.inl rfl)
      · next hused =>
        split
        · exact .refused rfl rfl (Or.inr ⟨_, c, hc, rfl⟩)
        · next huri =>
          split
          · exact .refused rfl rfl (Or.inr ⟨_, c, hc, rfl⟩)
          · next hverifies =>
            have hrt : js "rt-" ++ rr ≠ [] :=
              List.append_ne_nil_of_left_ne_nil (by decide) rr
            exact .exchanged c _ ⟨getD_eq (by decide) hgrant, rfl⟩ hc (by simpa using hused) rfl
              (not_not.mp huri) (by simpa using hverifies) hrt rfl rfl
  · split
    · next hgrant =>
      unfold refreshGrant
      dsimp only
      split
      · exact .refused rfl rfl (Or.inl rfl)
      · next hfound =>
        rw [Bool.not_eq_true, Bool.or_eq_false_iff] at hfound
        exact .refreshed ⟨getD_eq (by decide) hgrant, rfl⟩ (by simpa using hfound.2) rfl rfl
    · exact .refused rfl rfl (Or.inl rfl)

/-- A token request that was settled is in the record, with the status of its answer. -/
def RecordedBy (s s' : State) (params : Params) (answer : Answer) : Prop :=
  s'.tokenRequests.map (fun t => (t.params, t.status)) =
      s.tokenRequests.map (fun t => (t.params, t.status)) ++ [(params, answer.status)] ∧
    s'.awaited = s.awaited ∧ s'.received = s.received

theorem recordedBy_refuse (s : State) (params : Params) (now : Nat) (reason error : JsString) :
    RecordedBy s (refuse s params now reason error).1 params
      (refuse s params now reason error).2 :=
  ⟨List.map_append, rfl, rfl⟩

theorem token_recordedBy (s : State) (params : Params) (now : Nat) (rr ra : JsString) :
    RecordedBy s (token web s params now rr ra).1 params (token web s params now rr ra).2 := by
  unfold token
  dsimp only
  split
  · unfold exchange
    dsimp only
    split
    · exact recordedBy_refuse ..
    split
    · exact recordedBy_refuse ..
    split
    · exact recordedBy_refuse ..
    split
    · exact recordedBy_refuse ..
    · exact ⟨List.map_append, rfl, rfl⟩
  · split
    · unfold refreshGrant
      dsimp only
      split
      · exact recordedBy_refuse ..
      · exact ⟨List.map_append, rfl, rfl⟩
    · exact recordedBy_refuse ..

/-- What a request does before its first await. The record of token requests and the refresh tokens
stay as they are. -/
structure Kept (s s' : State) : Prop where
  tokenRequests : s'.tokenRequests = s.tokenRequests
  refresh : s'.refresh = s.refresh
  received : s'.received = s.received + 1

inductive RequestStep (s s' : State) : Event → Prop where
  | failed (codes : s'.codes = s.codes) (awaited : s'.awaited = s.awaited) :
      RequestStep s s' (.failed s.received)
  | replied (answer : Answer) (codes : s'.codes = s.codes) (awaited : s'.awaited = s.awaited) :
      RequestStep s s' (.replied s.received answer)
  | authorized (params : Params) (uri code : JsString) (answer : Option Answer)
      (sent : Record.get? params (js "redirect_uri") = some uri) (nonempty : code ≠ [])
      (codes : s'.codes = s.codes.set code (codeRecord params uri))
      (awaited : s'.awaited = s.awaited) :
      RequestStep s s' (.authorized s.received params code answer)
  | arrived (contentType : Option JsString) (codes : s'.codes = s.codes)
      (awaited : s'.awaited = s.awaited ++ [(s.received, contentType)]) :
      RequestStep s s' (.arrived s.received)

theorem handle_step (s : State) (req : Request) (now : Nat) (random : JsString) :
    Kept s (handle web issuer s req now random).1 ∧
      RequestStep s (handle web issuer s req now random).1
        (handle web issuer s req now random).2 := by
  unfold handle
  dsimp only
  split
  · exact ⟨⟨rfl, rfl, rfl⟩, .failed rfl rfl⟩
  · next url _ =>
    split
    · exact ⟨⟨rfl, rfl, rfl⟩, .replied _ rfl rfl⟩
    split
    · unfold authorize
      dsimp only
      split
      · exact ⟨⟨rfl, rfl, rfl⟩, .replied _ rfl rfl⟩
      · next uri huri =>
        split
        · exact ⟨⟨rfl, rfl, rfl⟩, .replied _ rfl rfl⟩
        · have hcode : js "code-" ++ random ≠ [] :=
            List.append_ne_nil_of_left_ne_nil (by decide) random
          exact ⟨⟨rfl, rfl, rfl⟩, .authorized _ uri _ _ huri hcode rfl rfl⟩
    split
    · exact ⟨⟨rfl, rfl, rfl⟩, .arrived req.contentType rfl rfl⟩
    · exact ⟨⟨rfl, rfl, rfl⟩, .replied _ rfl rfl⟩

end Steps

section Invariant

variable {web : Web} {issuer : JsString} {r : Run} {s : State}

/-- What the tables say about the events so far. -/
structure Inv (web : Web) (r : Run) : Prop extends Sound web readVerifier r where
  known : ∀ code c, r.state.codes.get? code = some c → code ≠ [] ∧
    ∃ sent, (code, sent) ∈ issued r.events ∧
      Record.get? sent (js "redirect_uri") = some c.redirectUri ∧
      c.challenge = Record.get? sent (js "code_challenge") ∧
      c.method = Record.get? sent (js "code_challenge_method")
  used : ∀ code ∈ exchanged r.events, ∃ c, r.state.codes.get? code = some c ∧ c.used = true
  tokens : ∀ t ∈ r.state.refresh, t ≠ [] ∧ .str t ∈ handedOut r.events
  numbers : ∀ id ∈ arrived r.events, id < r.state.received

theorem inv_initial : Inv web .initial where
  distinct := List.nodup_nil
  once := List.nodup_nil
  carries := each_nil
  refreshes := each_nil
  recorded := rfl
  arrivedOnce := List.nodup_nil
  accounted := List.Perm.nil
  known := nofun
  used := nofun
  tokens := nofun
  numbers := nofun

/-- The settings are not part of it. -/
theorem Inv.congr (h : Inv web r) (hrequests : s.tokenRequests = r.state.tokenRequests)
    (hcodes : s.codes = r.state.codes) (hrefresh : s.refresh = r.state.refresh)
    (hawaited : s.awaited = r.state.awaited) (hreceived : r.state.received ≤ s.received) :
    Inv web ⟨s, r.events⟩ where
  distinct := h.distinct
  once := h.once
  carries := h.carries
  refreshes := h.refreshes
  recorded := by rw [hrequests, h.recorded]
  arrivedOnce := h.arrivedOnce
  accounted := by rw [hawaited]; exact h.accounted
  known := by rw [hcodes]; exact h.known
  used := by rw [hcodes]; exact h.used
  tokens := by rw [hrefresh]; exact h.tokens
  numbers := fun id hid => (h.numbers id hid).trans_le hreceived

/-- What a turn with that event has to show. -/
theorem Inv.concat {e : Event} (h : Inv web r)
    (hdistinct : (Record.keys (issued (r.events ++ [e]))).Nodup)
    (hcarries : Carries web readVerifier r.events e) (hrefreshes : Refreshes r.events e)
    (hnew : ∀ code ∈ e.exchanged?, code ∉ exchanged r.events)
    (hrecorded : s.tokenRequests.map (fun t => (t.params, t.status)) =
      r.state.tokenRequests.map (fun t => (t.params, t.status)) ++ e.tokenAnswer?.toList)
    (harrived : ∀ id ∈ e.arrived?, id = r.state.received)
    (haccounted : (Record.keys r.state.awaited ++ e.arrived?.toList).Perm
      (e.answered?.toList ++ Record.keys s.awaited))
    (hreceived : r.state.received + e.arrived?.toList.length ≤ s.received)
    (hknown : ∀ code c, s.codes.get? code = some c →
      (∃ c', r.state.codes.get? code = some c' ∧ c.redirectUri = c'.redirectUri ∧
        c.challenge = c'.challenge ∧ c.method = c'.method) ∨
      code ≠ [] ∧ ∃ sent, e.issued? = some (code, sent) ∧
        Record.get? sent (js "redirect_uri") = some c.redirectUri ∧
        c.challenge = Record.get? sent (js "code_challenge") ∧
        c.method = Record.get? sent (js "code_challenge_method"))
    (hused : ∀ code c, r.state.codes.get? code = some c → c.used = true →
      ∃ c', s.codes.get? code = some c' ∧ c'.used = true)
    (hused' : ∀ code ∈ e.exchanged?, ∃ c, s.codes.get? code = some c ∧ c.used = true)
    (htokens : ∀ t ∈ s.refresh, t ∈ r.state.refresh ∨ t ≠ [] ∧ e.handedOut? = some (.str t)) :
    Inv web ⟨s, r.events ++ [e]⟩ where
  distinct := hdistinct
  once := by
    rw [exchanged, filterMap_concat, List.nodup_append]
    refine ⟨h.once, Option.toList_nodup _, fun a ha b hb => ?_⟩
    rintro rfl
    exact hnew a (Option.mem_toList.mp hb) ha
  carries := each_concat.mpr ⟨h.carries, hcarries⟩
  refreshes := each_concat.mpr ⟨h.refreshes, hrefreshes⟩
  recorded := by rw [tokenAnswers, filterMap_concat, hrecorded, h.recorded, tokenAnswers]
  arrivedOnce := by
    rw [arrived, filterMap_concat, List.nodup_append]
    refine ⟨h.arrivedOnce, Option.toList_nodup _, fun a ha b hb => ?_⟩
    rintro rfl
    have hlt := h.numbers a ha
    rw [harrived a (Option.mem_toList.mp hb)] at hlt
    exact lt_irrefl _ hlt
  accounted := by
    rw [arrived, answered, filterMap_concat, filterMap_concat, List.append_assoc]
    refine (h.accounted.append_right _).trans ?_
    rw [List.append_assoc]
    exact haccounted.append_left _
  known := by
    intro code c hc
    rw [issued, filterMap_concat]
    rcases hknown code c hc with ⟨c', hc', huri, hchallenge, hmethod⟩ | ⟨hne, sent, hsent, hrest⟩
    · obtain ⟨hne, sent, hin, hrest⟩ := h.known code c' hc'
      rw [huri, hchallenge, hmethod]
      exact ⟨hne, sent, List.mem_append_left _ hin, hrest⟩
    · exact ⟨hne, sent, List.mem_append_right _ (Option.mem_toList.mpr hsent), hrest⟩
  used := by
    intro code hcode
    rw [exchanged, filterMap_concat, List.mem_append, Option.mem_toList] at hcode
    rcases hcode with hcode | hcode
    · obtain ⟨c, hc, hu⟩ := h.used code hcode
      exact hused code c hc hu
    · exact hused' code hcode
  tokens := by
    intro t ht
    rw [handedOut, filterMap_concat, List.mem_append, Option.mem_toList]
    rcases htokens t ht with ht | ⟨hne, ht⟩
    · exact (h.tokens t ht).imp_right Or.inl
    · exact ⟨hne, Or.inr ht⟩
  numbers := by
    intro id hid
    rw [arrived, filterMap_concat, List.mem_append, Option.mem_toList] at hid
    rcases hid with hid | hid
    · have hlt := h.numbers id hid
      dsimp only
      omega
    · have hlen : e.arrived?.toList.length = 1 := by rw [Option.mem_def.mp hid]; rfl
      rw [harrived id hid]
      dsimp only
      omega

/-- A request that comes keeps the invariant, if the code it draws is fresh. -/
theorem Inv.request {e : Event} (h : Inv web r) (hkept : Kept r.state s)
    (hstep : RequestStep r.state s e) (hfresh : (Record.keys (issued (r.events ++ [e]))).Nodup) :
    Inv web ⟨s, r.events ++ [e]⟩ := by
  obtain ⟨hrequests, hrefresh, hreceived⟩ := hkept
  have htokens : ∀ t ∈ s.refresh, t ∈ r.state.refresh ∨ t ≠ [] ∧ e.handedOut? = some (.str t) :=
    fun t ht => Or.inl (hrefresh ▸ ht)
  have hrecorded : s.tokenRequests.map (fun t => (t.params, t.status)) =
      r.state.tokenRequests.map (fun t => (t.params, t.status)) ++ [] := by
    rw [hrequests, List.append_nil]
  have hkept : s.codes = r.state.codes → (∀ code c, s.codes.get? code = some c →
      ∃ c', r.state.codes.get? code = some c' ∧ c.redirectUri = c'.redirectUri ∧
        c.challenge = c'.challenge ∧ c.method = c'.method) ∧
      ∀ code c, r.state.codes.get? code = some c → c.used = true →
        ∃ c', s.codes.get? code = some c' ∧ c'.used = true := by
    intro hcodes
    rw [hcodes]
    exact ⟨fun code c hc => ⟨c, hc, rfl, rfl, rfl⟩, fun code c hc hu => ⟨c, hc, hu⟩⟩
  have hnone : ∀ {α : Type} {p : α → Prop}, ∀ a ∈ (none : Option α), p a := by
    rintro α p a ⟨⟩
  cases hstep with
  | failed hcodes hawaited =>
    obtain ⟨hknown, hused⟩ := hkept hcodes
    refine h.concat hfresh trivial trivial hnone hrecorded hnone ?_
      (by rw [hreceived]; simp [Event.arrived?])
      (fun code c hc => Or.inl (hknown code c hc)) hused hnone htokens
    rw [hawaited]
    simp [Event.arrived?, Event.answered?]
  | replied answer hcodes hawaited =>
    obtain ⟨hknown, hused⟩ := hkept hcodes
    refine h.concat hfresh trivial trivial hnone hrecorded hnone ?_
      (by rw [hreceived]; simp [Event.arrived?])
      (fun code c hc => Or.inl (hknown code c hc)) hused hnone htokens
    rw [hawaited]
    simp [Event.arrived?, Event.answered?]
  | arrived contentType hcodes hawaited =>
    obtain ⟨hknown, hused⟩ := hkept hcodes
    refine h.concat hfresh trivial trivial hnone hrecorded ?_ ?_
      (by rw [hreceived]; simp [Event.arrived?])
      (fun code c hc => Or.inl (hknown code c hc)) hused hnone htokens
    · rintro id ⟨⟩
      rfl
    · rw [hawaited]
      simp [Event.arrived?, Event.answered?, Record.keys]
  | authorized params uri code answer hsent hne hcodes hawaited =>
    -- the code is new, so it is none of those in the table
    have hother : ∀ code' c, r.state.codes.get? code' = some c → code' ≠ code := by
      rintro _ c hc rfl
      obtain ⟨-, sent, hin, -⟩ := h.known _ c hc
      rw [issued, filterMap_concat, Record.keys, List.map_append, List.nodup_append] at hfresh
      exact hfresh.2.2 _ (List.mem_map_of_mem (f := Prod.fst) hin) _ (List.mem_singleton_self _) rfl
    refine h.concat hfresh trivial trivial hnone hrecorded hnone ?_
      (by rw [hreceived]; simp [Event.arrived?]) ?_ ?_ hnone htokens
    · rw [hawaited]
      simp [Event.arrived?, Event.answered?]
    · intro code' c hc
      rw [hcodes, Map.get?_set] at hc
      split at hc
      · next heq =>
        obtain rfl := Option.some.inj hc
        exact Or.inr ⟨heq ▸ hne, params, by rw [heq]; rfl, hsent, rfl, rfl⟩
      · exact Or.inl ⟨c, hc, rfl, rfl, rfl⟩
    · intro code' c hc hu
      rw [hcodes, Map.get?_set, if_neg (hother code' c hc)]
      exact ⟨c, hc, hu⟩

/-- Codes that may have been marked are the same codes. -/
theorem MayMark.kept {codes codes' : Map JsString CodeRecord} (h : MayMark codes codes') :
    (∀ code c, codes'.get? code = some c → ∃ c', codes.get? code = some c' ∧
      c.redirectUri = c'.redirectUri ∧ c.challenge = c'.challenge ∧ c.method = c'.method) ∧
    ∀ code c, codes.get? code = some c → c.used = true →
      ∃ c', codes'.get? code = some c' ∧ c'.used = true := by
  rcases h with rfl | ⟨code, c, hc, rfl⟩
  · exact ⟨fun code c hc => ⟨c, hc, rfl, rfl, rfl⟩, fun code c hc hu => ⟨c, hc, hu⟩⟩
  · constructor
    · intro code' c' hc'
      rw [Map.get?_set] at hc'
      split at hc'
      · next heq =>
        obtain rfl := Option.some.inj hc'
        exact ⟨c, heq ▸ hc, rfl, rfl, rfl⟩
      · exact ⟨c', hc', rfl, rfl, rfl⟩
    · intro code' c' hc' hu
      rw [Map.get?_set]
      split
      · exact ⟨_, rfl, rfl⟩
      · exact ⟨c', hc', hu⟩

theorem keys_erase_perm {V : Type} {m : Record Nat V} (hm : (Record.keys m).Nodup) {id : Nat}
    (hid : id ∈ Record.keys m) : (Record.keys m).Perm (id :: Record.keys (Record.erase m id)) := by
  have hkeys : Record.keys (Record.erase m id) = (Record.keys m).erase id := by
    rw [hm.erase_eq_filter, Record.keys, Record.keys, Record.erase, List.filter_map]
    congr 1
    refine List.filter_congr fun e _ => ?_
    by_cases he : e.1 = id <;> simp [he]
  rw [hkeys]
  exact List.perm_cons_erase hid

theorem granted_unique {grant grant' : JsString} {params : Params} {answer : Answer}
    (h : Granted grant params answer) (h' : Granted grant' params answer) : grant = grant' :=
  Option.some.inj (h.1.symm.trans h'.1)

theorem not_granted {grant : JsString} {params : Params} {answer : Answer}
    (h : answer.status = 400) : ¬ Granted grant params answer := fun hg =>
  absurd (h.symm.trans hg.2) (by decide)

/-- The verifier that was accepted matches. -/
theorem matches_of_verifies {c : CodeRecord} {params : Params} {challenge : JsString}
    (h : verifies web c params = true) (hc : c.challenge = some challenge) :
    ∃ verifier, readVerifier params = some verifier ∧ Matches web c.method challenge verifier := by
  refine ⟨_, rfl, ?_⟩
  simp only [verifies, hc] at h
  rw [Matches]
  split at h
  · next hmethod => rw [if_pos hmethod]; exact of_decide_eq_true h
  · next hmethod => rw [if_neg hmethod]; exact of_decide_eq_true h

/-- A token request that is settled keeps the invariant. -/
theorem Inv.token {id : Nat} {params : Params} {answer : Answer} (h : Inv web r)
    (hid : id ∈ Record.keys r.state.awaited)
    (hrecord : RecordedBy { r.state with awaited := Record.erase r.state.awaited id } s params answer)
    (hstep : TokenStep web { r.state with awaited := Record.erase r.state.awaited id } s params
      answer) : Inv web ⟨s, r.events ++ [.token id params answer]⟩ := by
  obtain ⟨hrecorded, hawaited, hreceived⟩ := hrecord
  have hdistinct : (Record.keys (issued (r.events ++ [.token id params answer]))).Nodup := by
    rw [issued, filterMap_concat]
    exact (List.append_nil (issued r.events)).symm ▸ h.distinct
  have haccounted : (Record.keys r.state.awaited ++ []).Perm ([id] ++ Record.keys s.awaited) := by
    have hnodup := (List.nodup_append.mp (h.accounted.nodup_iff.mp h.arrivedOnce)).2.1
    rw [hawaited, List.append_nil]
    exact keys_erase_perm hnodup hid
  have hle : r.state.received + 0 ≤ s.received := hreceived.ge
  cases hstep with
  | refused hstatus hrefresh hcodes =>
    have hno : ∀ {grant}, ¬ Granted grant params answer := not_granted hstatus
    obtain ⟨hknown, hused⟩ := hcodes.kept
    have hexchanged : (Event.token id params answer).exchanged? = none := if_neg hno
    refine h.concat hdistinct (fun hg => absurd hg hno) (fun hg => absurd hg hno) ?_ hrecorded nofun
      haccounted hle (fun code c hc => Or.inl (hknown code c hc)) hused ?_
      fun t ht => Or.inl (hrefresh ▸ ht)
    · rw [hexchanged]
      nofun
    · rw [hexchanged]
      nofun
  | exchanged c rt granted found unused codes uri verified nonempty refresh handed =>
    obtain ⟨hknown, hused⟩ := MayMark.kept (Or.inr ⟨_, c, found, codes⟩)
    obtain ⟨hne, sent, hin, hsent, hchallenge, hmethod⟩ := h.known _ c found
    have hcode := getD_eq hne rfl
    have hexchanged : (Event.token id params answer).exchanged? =
        some ((Record.get? params (js "code")).getD []) := (if_pos granted).trans hcode
    have hother : ¬ Granted (js "refresh_token") params answer := fun hg =>
      absurd (granted_unique granted hg) (by decide)
    refine h.concat hdistinct (fun _ => ⟨_, sent, c.redirectUri, hcode, hin, hsent, uri, ?_⟩)
      (fun hg => absurd hg hother) ?_ hrecorded nofun haccounted hle
      (fun code c hc => Or.inl (hknown code c hc)) hused ?_ ?_
    · intro challenge hch
      rw [← hmethod]
      exact matches_of_verifies verified (hchallenge.trans hch)
    · rw [hexchanged]
      rintro _ ⟨⟩ hmem
      obtain ⟨c', hc', hu⟩ := h.used _ hmem
      obtain rfl := Option.some.inj (found.symm.trans hc')
      rw [unused] at hu
      cases hu
    · rw [hexchanged]
      rintro _ ⟨⟩
      exact ⟨_, by rw [codes, Map.get?_set_self], rfl⟩
    · intro t ht
      rw [refresh, List.mem_append, List.mem_singleton] at ht
      refine ht.imp_right ?_
      rintro rfl
      exact ⟨nonempty, (if_pos granted).trans handed⟩
  | refreshed granted found codes refresh =>
    obtain ⟨hknown, hused⟩ := MayMark.kept (Or.inl codes)
    have hother : ¬ Granted (js "authorization_code") params answer := fun hg =>
      absurd (granted_unique granted hg) (by decide)
    have hexchanged : (Event.token id params answer).exchanged? = none := if_neg hother
    obtain ⟨hne, hhanded⟩ := h.tokens _ found
    refine h.concat hdistinct (fun hg => absurd hg hother)
      (fun _ => ⟨_, getD_eq hne rfl, hhanded⟩) ?_ hrecorded nofun haccounted hle
      (fun code c hc => Or.inl (hknown code c hc)) hused ?_ fun t ht => Or.inl (refresh ▸ ht)
    · rw [hexchanged]
      nofun
    · rw [hexchanged]
      nofun

/-- A turn keeps the invariant, if the code it draws is fresh. -/
theorem Inv.next (h : Inv web r) {a : Action} (hfresh : FreshCode web issuer r a) :
    Inv web (r.next web issuer a) := by
  cases a with
  | request req now random =>
    obtain ⟨hkept, hstep⟩ := @handle_step web issuer r.state req now random
    exact h.request hkept hstep hfresh
  | bodyEnds id body now rr ra =>
    rw [Run.next, step]
    cases hget : Record.get? r.state.awaited id with
    | none =>
      dsimp only [Option.toList]
      rw [List.append_nil]
      exact h
    | some contentType =>
      exact h.token (Record.get?_isSome_iff.mp (by rw [hget]; rfl)) (token_recordedBy ..)
        (token_step ..)
  | setIssParameterSupported v | setCodeChallengeMethods v | setMetadataOverride v
  | setRefreshRevoked v =>
    rw [Run.next, step]
    dsimp only [Option.toList]
    rw [List.append_nil]
    exact h.congr rfl rfl rfl rfl le_rfl

theorem inv_of_runs (h : Runs web issuer r) : Inv web r :=
  Reachable.invariant inv_initial (fun _ _ hs hfresh => hs.next hfresh) h

end Invariant

section Server

/-- In every run each code is exchanged once at most, with what was sent for it, refresh tokens come
from exchanges, and each token request is recorded once, as it is answered. -/
theorem runs_sound (web : Web) (issuer : JsString) (r : Run) (h : Runs web issuer r) :
    Sound web readVerifier r := (inv_of_runs h).toSound

/-- The digest of the empty text. -/
def emptyS256 : JsString := js "47DEQpj8HBSa-_TImW-5JCeuQeRkm5NMpJWZG3hSuFU"

/-- An authorization request with the challenge of the empty text. -/
def authorizeUrl : JsString :=
  js "/authorize?response_type=code&redirect_uri=a%3Ab&code_challenge_method=S256&code_challenge=" ++
    emptyS256

def sentParams : Params :=
  [(js "response_type", js "code"), (js "redirect_uri", js "a:b"),
   (js "code_challenge_method", js "S256"), (js "code_challenge", emptyS256)]

def sampleCode : JsString := js "code-000102030405060708090a0b"

/-- The body of a token request without a verifier. -/
def tokenBody : JsString :=
  js "grant_type=authorization_code&redirect_uri=a%3Ab&code=" ++ sampleCode

def tokenParams : Params :=
  [(js "grant_type", js "authorization_code"), (js "redirect_uri", js "a:b"),
   (js "code", sampleCode)]

/-- The runtime on these requests. -/
def sampleWeb : Web where
  parseUrl url :=
    if url = js "/token" then some ⟨url, []⟩
    else if url = authorizeUrl then some ⟨js "/authorize", sentParams⟩
    else none
  withSearch url search :=
    if url = js "a:b" ∧ search = [(js "code", sampleCode), (js "iss", js "https://as")] then
      some (js "a:b?code=" ++ sampleCode ++ js "&iss=https%3A%2F%2Fas")
    else none
  urlForm body := if body = tokenBody then tokenParams else []
  jsonForm _ := none
  S256 verifier := if verifier = [] then emptyS256 else []

/-- The code is exchanged without a verifier. -/
def sampleActions : List Action :=
  [.request ⟨js "GET", some authorizeUrl, none⟩ 0 (js "000102030405060708090a0b"),
   .request ⟨js "POST", some (js "/token"), none⟩ 1 [],
   .bodyEnds 1 tokenBody 2 (js "10") (js "11")]

def sampleRun : Run := sampleActions.foldl (Run.next sampleWeb (js "https://as")) .initial

/-- A run of actions in which all codes differ. -/
theorem runs_foldl {web : Web} {issuer : JsString} {actions : List Action}
    (h : (Record.keys (issued (actions.foldl (Run.next web issuer) .initial).events)).Nodup) :
    Runs web issuer (actions.foldl (Run.next web issuer) .initial) := by
  induction actions using List.reverseRecOn with
  | nil => exact .start
  | append_singleton actions a ih =>
    rw [List.foldl_concat] at h ⊢
    refine .step (ih ?_) h
    rw [issued, Run.next, List.filterMap_append, Record.keys, List.map_append] at h
    exact (List.nodup_append.mp h).1

def sampleEvents : List Event :=
  [.authorized 0 sentParams sampleCode
     (some (.redirect (js "a:b?code=" ++ sampleCode ++ js "&iss=https%3A%2F%2Fas"))),
   .arrived 1,
   .token 1 tokenParams
     (.json 200 (.obj [(js "access_token", .str (js "at-11")), (js "token_type", .str (js "Bearer")),
       (js "expires_in", .num (.ofNat 3600)), (js "refresh_token", .str (js "rt-10")),
       (js "scope", .str [])]))]

theorem events_sampleRun : sampleRun.events = sampleEvents := by decide +kernel

theorem runs_sample : Runs sampleWeb (js "https://as") sampleRun := by
  apply runs_foldl
  rw [show sampleActions.foldl (Run.next sampleWeb (js "https://as")) .initial = sampleRun from rfl,
    events_sampleRun]
  exact List.nodup_singleton sampleCode

theorem runs_sound_sample : Runs sampleWeb (js "https://as") sampleRun ∧
    sampleRun.events = sampleEvents ∧ Sound sampleWeb readVerifier sampleRun :=
  ⟨runs_sample, events_sampleRun, runs_sound _ _ _ runs_sample⟩

/-- An exchange need not carry a verifier. -/
theorem not_sound_carried :
    ¬ ∀ web issuer r, Runs web issuer r → Sound web carriedVerifier r := by
  intro h
  have hcarries := (h _ _ _ runs_sample).carries
  rw [events_sampleRun] at hcarries
  obtain ⟨code, sent, uri, -, hin, -, -, hverified⟩ := hcarries (sampleEvents.take 2) _ [] rfl
    ⟨by decide +kernel, rfl⟩
  have hin : (code, sent) ∈ [(sampleCode, sentParams)] := hin
  rw [List.mem_singleton] at hin
  obtain rfl : sent = sentParams := congrArg Prod.snd hin
  obtain ⟨verifier, hverifier, -⟩ := hverified emptyS256 (by decide +kernel)
  have hnone : carriedVerifier tokenParams = none := by decide +kernel
  exact absurd (hnone.symm.trans hverifier) (by simp)

end Server

end OpenWop.OAuth
