import OpenWop.Webhook.Front

/-!
# One front for many fakes

A fake that does not own the pinned port is reached under a nonce behind the front's path. The owner
of the port takes the front's path off each request, and hands a request under a nonce to the fake
that is registered with it.
-/

namespace OpenWop.FrontMux

open OpenWop.Js OpenWop.Webhook

section Source

/-- What `new URL(raw)` has that is read here. -/
structure Url where
  origin : ParsedUrl
  pathname : JsString
  deriving DecidableEq, Repr

/-- The handlers registered behind each front, by their nonces. -/
abbrev Registry (Handler : Type) := Map JsString (Map JsString Handler)

variable {Handler : Type} (parseUrl : JsString → Option Url) (env : ProcessEnv) (frontEnv : JsString)

/-- `pinnedPort(portEnv)`. -/
def pinnedPort (portEnv : JsString) : JsNumber :=
  let n := stringToNumber ((env portEnv).getD [])
  if n.isInteger && JsNumber.lt (.ofNat 0) n && JsNumber.lt n (.ofNat 65536) then n else .ofNat 0

/-- `registerBehindFront(frontEnv, nonce, handler)`. -/
def registerBehindFront (registry : Registry Handler) (nonce : JsString) (handler : Handler) :
    Registry Handler :=
  registry.set frontEnv (((registry.get? frontEnv).getD .empty).set nonce handler)

/-- `unregisterBehindFront(frontEnv, nonce)`. -/
def unregisterBehindFront (registry : Registry Handler) (nonce : JsString) : Registry Handler :=
  match registry.get? frontEnv with
  | none => registry
  | some handlers => registry.set frontEnv (handlers.erase nonce)

/-- `frontPath(frontEnv)`. -/
def frontPath : JsString :=
  let raw := trim ((env frontEnv).getD [])
  if raw = [] then [] else ((parseUrl raw).map fun url => stripSlashes url.pathname).getD []

/-- `s.replace(/^(?=\?)/, '/')`. -/
def slashQuery (s : JsString) : JsString :=
  if s.head? = some (unit '?') then unit '/' :: s else s

/-- `withoutFrontPath(frontEnv, url)`. -/
def withoutFrontPath (url : JsString) : JsString :=
  let pre := frontPath parseUrl env frontEnv
  if pre = [] then url
  else if url = pre then [unit '/']
  else if startsWith url (pre ++ [unit '/']) || startsWith url (pre ++ [unit '?']) then
    slashQuery (url.drop pre.length)
  else url

/-- What becomes of a request. -/
inductive Routed (Handler : Type) where
  /-- `false` is returned, and the request has that url. -/
  | own (url : JsString)
  | dispatched (handler : Handler) (url : JsString)
  | answered (status : Nat) (error : JsString)
  deriving DecidableEq, Repr

/-- Where the nonce ends: before the first `/` or `?`. -/
def nonceEnd (rest : JsString) : Nat :=
  match indexOf rest [unit '/'], indexOf rest [unit '?'] with
  | none, none => rest.length
  | none, some q => q
  | some slash, none => slash
  | some slash, some q => min slash q

/-- `routeFronted(frontEnv, req, res)`. -/
def routeFronted (registry : Registry Handler) (url? : Option JsString) : Routed Handler :=
  let url := withoutFrontPath parseUrl env frontEnv (url?.getD [unit '/'])
  if !startsWith url frontMuxPrefix then .own url
  else
    let rest := url.drop frontMuxPrefix.length
    let nonce := rest.take (nonceEnd rest)
    match (registry.get? frontEnv).bind fun handlers => handlers.get? nonce with
    | none => .answered 404 (js "no suite fake is registered under this nonce")
    | some target =>
      let tail := rest.drop (nonceEnd rest)
      .dispatched target (if startsWith tail [unit '/'] then tail else unit '/' :: tail)

/-- `frontedEndpoint(frontEnv, portEnv, localUrl, boundPort, nonce)`. -/
def frontedEndpoint (portEnv localUrl : JsString) (boundPort : Nat) (nonce : JsString) :
    Except JsString JsString :=
  (resolvePublicFront (fun raw => (parseUrl raw).map Url.origin) env frontEnv localUrl).map
    fun front =>
      if !front.tunnelled then localUrl
      else
        let base := stripSlashes front.url
        if JsNumber.ofNat boundPort = pinnedPort env portEnv then base
        else base ++ frontMuxPrefix ++ nonce

end Source

section Property

variable {Handler : Type} (parseUrl : JsString → Option Url) (env : ProcessEnv) (frontEnv : JsString)

/-- The operator's front, as it is written. -/
def frontText : JsString := trim ((env frontEnv).getD [])

/-- The front is set, and is accepted. -/
def Accepted : Prop := frontText env frontEnv ≠ [] ∧ ∀ localUrl, ∃ front,
  resolvePublicFront (fun raw => (parseUrl raw).map Url.origin) env frontEnv localUrl = .ok front

/-- What a client appends to an address: nothing, a path or a query. -/
def IsSuffix (s : JsString) : Prop :=
  s = [] ∨ s.head? = some (unit '/') ∨ s.head? = some (unit '?')

/-- The url of a request for it on the fake's own listener. -/
def ownUrl (s : JsString) : JsString := if s.head? = some (unit '/') then s else unit '/' :: s

/-- A nonce without `/` and `?`. -/
def IsNonce (nonce : JsString) : Prop := unit '/' ∉ nonce ∧ unit '?' ∉ nonce

/-- The address of the nonce behind the front has the front's path, and behind it the nonce as it
is written. -/
def ReadsAsWritten (nonce : JsString) : Prop :=
  (parseUrl (stripSlashes (frontText env frontEnv) ++ frontMuxPrefix ++ nonce)).map Url.pathname =
    some (frontPath parseUrl env frontEnv ++ frontMuxPrefix ++ nonce)

/-- The fakes registered one after the other. -/
def registerAll (fakes : List (JsString × Handler)) : Registry Handler :=
  fakes.foldl (fun registry fake => registerBehindFront frontEnv registry fake.1 fake.2) .empty

/-- The url of a request for the front itself. -/
def frontUrl (s : JsString) : JsString :=
  if frontPath parseUrl env frontEnv = [] then ownUrl s else frontPath parseUrl env frontEnv ++ s

/-- What the front should do for these fakes. -/
structure Muxes (readable : JsString → Prop) (portEnv : JsString) (fakes : List (JsString × Handler)) :
    Prop where
  dispatches : ∀ nonce handler, (nonce, handler) ∈ fakes → readable nonce →
    ∀ (localUrl : JsString) (boundPort : Nat), JsNumber.ofNat boundPort ≠ pinnedPort env portEnv →
    ∃ endpoint url, frontedEndpoint parseUrl env frontEnv portEnv localUrl boundPort nonce =
        .ok endpoint ∧ parseUrl endpoint = some url ∧ ∀ suffix, IsSuffix suffix →
      routeFronted parseUrl env frontEnv (registerAll frontEnv fakes) (some (url.pathname ++ suffix)) =
        .dispatched handler (ownUrl suffix)
  refuses : ∀ nonce, IsNonce nonce → nonce ∉ Record.keys fakes → ∀ suffix, IsSuffix suffix →
    routeFronted parseUrl env frontEnv (registerAll frontEnv fakes)
        (some (frontPath parseUrl env frontEnv ++ frontMuxPrefix ++ nonce ++ suffix)) =
      .answered 404 (js "no suite fake is registered under this nonce")
  keeps : ∀ suffix, IsSuffix suffix → startsWith suffix frontMuxPrefix = false →
    routeFronted parseUrl env frontEnv (registerAll frontEnv fakes)
      (some (frontUrl parseUrl env frontEnv suffix)) = .own (ownUrl suffix)

end Property

section Paths

variable {parseUrl : JsString → Option Url} {env : ProcessEnv} {frontEnv : JsString}
  {suffix : JsString}

theorem startsWith_unit {s : JsString} {c : UInt16} : startsWith s [c] = true ↔ s.head? = some c := by
  rw [startsWith_iff]
  cases s with
  | nil => simp
  | cons u t =>
    rw [List.cons_prefix_cons, List.head?_cons, Option.some.injEq, and_iff_left (List.nil_prefix ..),
      eq_comm]

theorem ownUrl_of_path (h : suffix.head? = some (unit '/')) : ownUrl suffix = suffix := if_pos h

/-- The front's path is taken off a request for the front. -/
theorem withoutFrontPath_frontUrl (h : IsSuffix suffix) :
    withoutFrontPath parseUrl env frontEnv (frontUrl parseUrl env frontEnv suffix) =
      ownUrl suffix := by
  rw [withoutFrontPath, frontUrl]
  generalize frontPath parseUrl env frontEnv = pre
  by_cases hpre : pre = []
  · rw [if_pos hpre, if_pos hpre]
  rw [if_neg hpre, if_neg hpre]
  cases suffix with
  | nil => rw [List.append_nil, if_pos rfl, ownUrl, if_neg (by simp)]
  | cons u t =>
    have hne : pre ++ u :: t ≠ pre := by simp
    have hstarts : ∀ c, u = c → startsWith (pre ++ u :: t) (pre ++ [c]) = true := by
      rintro c rfl
      rw [startsWith_iff]
      exact ⟨t, by simp⟩
    have hcond : (startsWith (pre ++ u :: t) (pre ++ [unit '/']) ||
        startsWith (pre ++ u :: t) (pre ++ [unit '?'])) = true := by
      rw [Bool.or_eq_true]
      rcases h with h | h | h
      · cases h
      · exact Or.inl (hstarts _ (Option.some.inj h))
      · exact Or.inr (hstarts _ (Option.some.inj h))
    rw [if_neg hne, if_pos hcond, List.drop_left, slashQuery, ownUrl]
    rcases h with h | h | h
    · cases h
    · rw [if_pos h, h, if_neg (by decide)]
    · rw [if_pos h, h, if_neg (by decide)]

/-- A nonce ends where its suffix begins. -/
theorem nonceEnd_append {nonce : JsString} (hnonce : IsNonce nonce) (h : IsSuffix suffix) :
    nonceEnd (nonce ++ suffix) = nonce.length := by
  have hle : ∀ {c i}, c ∉ nonce → indexOf (nonce ++ suffix) [c] = some i → nonce.length ≤ i := by
    intro c i hc hi
    obtain ⟨front, rest, heq, -, rfl⟩ := indexOf_eq_some hi
    by_contra hlt
    obtain ⟨t, ht⟩ := List.prefix_of_prefix_length_le (List.prefix_append front (c :: rest))
      (heq ▸ List.prefix_append nonce suffix) (not_le.mp hlt).le
    cases t with
    | nil => simp [← ht] at hlt
    | cons v t =>
      rw [← ht, List.append_assoc] at heq
      have hv := (List.cons.inj (List.append_cancel_left heq)).1
      exact hc (by rw [← ht, ← hv]; simp)
  unfold nonceEnd
  rcases h with rfl | h | h
  · rw [List.append_nil, indexOf_of_not_mem hnonce.1, indexOf_of_not_mem hnonce.2]
  · obtain ⟨t, rfl⟩ : ∃ t, suffix = unit '/' :: t := by
      cases suffix with
      | nil => cases h
      | cons u t => exact ⟨t, by rw [Option.some.inj h]⟩
    rw [indexOf_append hnonce.1]
    cases hq : indexOf (nonce ++ unit '/' :: t) [unit '?'] with
    | none => rfl
    | some q => exact min_eq_left (hle hnonce.2 hq)
  · obtain ⟨t, rfl⟩ : ∃ t, suffix = unit '?' :: t := by
      cases suffix with
      | nil => cases h
      | cons u t => exact ⟨t, by rw [Option.some.inj h]⟩
    rw [indexOf_append hnonce.2]
    cases hslash : indexOf (nonce ++ unit '?' :: t) [unit '/'] with
    | none => rfl
    | some slash => exact min_eq_right (hle hnonce.1 hslash)

end Paths

section Registered

variable {Handler : Type} {frontEnv : JsString} {fakes : List (JsString × Handler)}

/-- The handler of a nonce. -/
def handlerOf (frontEnv : JsString) (registry : Registry Handler) (nonce : JsString) :
    Option Handler := (registry.get? frontEnv).bind fun handlers => handlers.get? nonce

theorem handlerOf_register (registry : Registry Handler) (nonce nonce' : JsString)
    (handler : Handler) : handlerOf frontEnv (registerBehindFront frontEnv registry nonce handler) nonce' =
      if nonce' = nonce then some handler else handlerOf frontEnv registry nonce' := by
  rw [handlerOf, registerBehindFront, Map.get?_set_self, Option.bind_some, Map.get?_set, handlerOf]
  cases registry.get? frontEnv <;> rfl

theorem registerAll_concat (fake : JsString × Handler) : registerAll frontEnv (fakes ++ [fake]) =
    registerBehindFront frontEnv (registerAll frontEnv fakes) fake.1 fake.2 :=
  List.foldl_concat ..

theorem handlerOf_registerAll_eq_none {nonce : JsString} (h : nonce ∉ Record.keys fakes) :
    handlerOf frontEnv (registerAll frontEnv fakes) nonce = none := by
  induction fakes using List.reverseRecOn with
  | nil => rfl
  | append_singleton fakes fake ih =>
    rw [Record.keys, List.map_append, List.mem_append, not_or] at h
    rw [registerAll_concat, handlerOf_register, if_neg, ih h.1]
    exact fun heq => h.2 (heq ▸ List.mem_singleton_self _)

/-- Each fake is found under its nonce. -/
theorem handlerOf_registerAll (hdistinct : (Record.keys fakes).Nodup) {nonce : JsString}
    {handler : Handler} (h : (nonce, handler) ∈ fakes) :
    handlerOf frontEnv (registerAll frontEnv fakes) nonce = some handler := by
  induction fakes using List.reverseRecOn with
  | nil => cases h
  | append_singleton fakes fake ih =>
    rw [Record.keys, List.map_append, List.nodup_append] at hdistinct
    rw [registerAll_concat, handlerOf_register]
    rcases List.mem_append.mp h with h | h
    · have hne : nonce ≠ fake.1 := fun heq =>
        hdistinct.2.2 nonce (List.mem_map_of_mem (f := Prod.fst) h) _ (List.mem_singleton_self _) heq
      rw [if_neg hne, ih hdistinct.1 h]
    · obtain rfl := List.mem_singleton.mp h
      rw [if_pos rfl]

end Registered

section Routes

variable {Handler : Type} {parseUrl : JsString → Option Url} {env : ProcessEnv} {frontEnv : JsString}
  {registry : Registry Handler} {suffix nonce : JsString}

/-- A request for the front that is for no nonce stays with the owner of the port. -/
theorem routeFronted_own (h : IsSuffix suffix) (hfx : startsWith suffix frontMuxPrefix = false) :
    routeFronted parseUrl env frontEnv registry (some (frontUrl parseUrl env frontEnv suffix)) =
      .own (ownUrl suffix) := by
  have hown : startsWith (ownUrl suffix) frontMuxPrefix = false := by
    rw [ownUrl]
    split
    · exact hfx
    · next hslash =>
      rcases h with rfl | h | h
      · decide
      · exact absurd h hslash
      · cases suffix with
        | nil => cases h
        | cons u t =>
          rw [Option.some.inj h]
          rfl
  rw [routeFronted, Option.getD_some, withoutFrontPath_frontUrl h]
  dsimp only
  rw [hown, if_pos (by decide)]

/-- A request under a nonce is for what is registered there. -/
theorem routeFronted_nonce (hnonce : IsNonce nonce) (h : IsSuffix suffix) :
    routeFronted parseUrl env frontEnv registry
        (some (frontPath parseUrl env frontEnv ++ frontMuxPrefix ++ nonce ++ suffix)) =
      match handlerOf frontEnv registry nonce with
      | none => .answered 404 (js "no suite fake is registered under this nonce")
      | some handler => .dispatched handler (ownUrl suffix) := by
  have hpath : (frontMuxPrefix ++ (nonce ++ suffix)).head? = some (unit '/') := rfl
  have hurl : frontPath parseUrl env frontEnv ++ frontMuxPrefix ++ nonce ++ suffix =
      frontUrl parseUrl env frontEnv (frontMuxPrefix ++ (nonce ++ suffix)) := by
    rw [frontUrl, ownUrl_of_path hpath]
    split
    · next hpre => rw [hpre, List.nil_append, List.append_assoc]
    · rw [List.append_assoc, List.append_assoc]
  rw [routeFronted, Option.getD_some, hurl, withoutFrontPath_frontUrl (Or.inr (Or.inl hpath)),
    ownUrl_of_path hpath]
  dsimp only
  rw [startsWith_append, if_neg (by decide), List.drop_left, nonceEnd_append hnonce h,
    List.take_left, List.drop_left, ← handlerOf]
  cases handlerOf frontEnv registry nonce with
  | none => rfl
  | some handler =>
    dsimp only
    rw [ownUrl]
    simp only [startsWith_unit]

end Routes

section Fronts

variable {Handler : Type} {parseUrl : JsString → Option Url} {env : ProcessEnv}
  {frontEnv : JsString}

/-- An accepted front is handed out as it is written, less its trailing slashes at most. -/
theorem exists_front (h : Accepted parseUrl env frontEnv) (localUrl : JsString) : ∃ url,
    resolvePublicFront (fun raw => (parseUrl raw).map Url.origin) env frontEnv localUrl =
        .ok ⟨url, true⟩ ∧ stripSlashes url = stripSlashes (frontText env frontEnv) := by
  obtain ⟨hraw, hall⟩ := h
  obtain ⟨front, hfront⟩ := hall localUrl
  refine ⟨if frontEnv = webhookFrontEnv then frontText env frontEnv
    else stripSlashes (frontText env frontEnv), ?_, ?_⟩
  · rw [frontText] at hraw
    rw [frontText]
    unfold resolvePublicFront at hfront ⊢
    dsimp only at hfront ⊢
    rw [if_neg hraw] at hfront ⊢
    split at hfront
    · cases hfront
    · next parsed _ =>
      by_cases hprotocol : parsed.protocol ≠ js "https:"
      · rw [if_pos hprotocol] at hfront
        cases hfront
      rw [if_neg hprotocol] at hfront ⊢
      split at hfront
      · cases hfront
      · next hhost => rw [if_neg hhost]
  · split
    · rfl
    · exact List.rdropWhile_idempotent ..

/-- Behind an accepted front each fake is reached under its nonce, a nonce of no fake is answered,
and the front's own requests stay. -/
theorem muxes_of_accepted (parseUrl : JsString → Option Url) (env : ProcessEnv)
    (frontEnv portEnv : JsString) (fakes : List (JsString × Handler))
    (haccepted : Accepted parseUrl env frontEnv) (hdistinct : (Record.keys fakes).Nodup)
    (hnonces : ∀ nonce ∈ Record.keys fakes, IsNonce nonce) :
    Muxes parseUrl env frontEnv (ReadsAsWritten parseUrl env frontEnv) portEnv fakes where
  dispatches nonce handler hmem hreads localUrl boundPort hport := by
    obtain ⟨front, hfront, hstrip⟩ := exists_front haccepted localUrl
    obtain ⟨url, hurl, hpath⟩ := Option.map_eq_some_iff.mp hreads
    refine ⟨_, url, ?_, hurl, fun suffix h => ?_⟩
    · rw [frontedEndpoint, hfront, ← hstrip]
      simp only [Except.map, Bool.not_true, Bool.false_eq_true, if_false, if_neg hport]
    · rw [hpath, routeFronted_nonce (hnonces _ (List.mem_map_of_mem (f := Prod.fst) hmem)) h,
        handlerOf_registerAll hdistinct hmem]
  refuses nonce hnonce hnew suffix h := by
    rw [routeFronted_nonce hnonce h, handlerOf_registerAll_eq_none hnew]
  keeps _ h hfx := routeFronted_own h hfx

/-- A front with a path, and the addresses behind it of a nonce and of one that begins a
fragment. -/
def sampleUrl (raw : JsString) : Option Url :=
  if raw = js "https://a.b/hook/" then some ⟨⟨js "https:", js "a.b"⟩, js "/hook/"⟩
  else if raw = js "https://a.b/hook/fx/01" then some ⟨⟨js "https:", js "a.b"⟩, js "/hook/fx/01"⟩
  else if raw = js "https://a.b/hook/fx/#" then some ⟨⟨js "https:", js "a.b"⟩, js "/hook/fx/"⟩
  else none

def sampleEnv : ProcessEnv := fun name =>
  if name = js "FRONT_URL" then some (js "https://a.b/hook/") else none

theorem accepted_sample : Accepted sampleUrl sampleEnv (js "FRONT_URL") := by
  have hraw : trim ((sampleEnv (js "FRONT_URL")).getD []) ≠ [] := by decide +kernel
  refine ⟨hraw, fun localUrl => ⟨⟨js "https://a.b/hook", true⟩, ?_⟩⟩
  -- the local address is not read
  have hfront : resolvePublicFront (fun raw => (sampleUrl raw).map Url.origin) sampleEnv
      (js "FRONT_URL") [] = .ok ⟨js "https://a.b/hook", true⟩ := by decide +kernel
  rw [← hfront, resolvePublicFront, resolvePublicFront, if_neg hraw, if_neg hraw]

theorem muxes_sample : ReadsAsWritten sampleUrl sampleEnv (js "FRONT_URL") (js "01") ∧
    Muxes sampleUrl sampleEnv (js "FRONT_URL")
      (ReadsAsWritten sampleUrl sampleEnv (js "FRONT_URL")) (js "FRONT_PORT") [(js "01", 1)] := by
  have hnonce : ∀ nonce ∈ Record.keys [(js "01", 1)], IsNonce nonce := by
    intro nonce h
    obtain rfl := List.mem_singleton.mp h
    exact ⟨by decide, by decide⟩
  have hreads : ReadsAsWritten sampleUrl sampleEnv (js "FRONT_URL") (js "01") := by
    unfold ReadsAsWritten
    decide +kernel
  exact ⟨hreads,
    muxes_of_accepted _ _ _ _ _ accepted_sample (List.nodup_singleton _) hnonce⟩

/-- A nonce that the URL parser reads as a fragment is not found behind the front. -/
theorem not_muxes_fragment : ¬ ∀ (parseUrl : JsString → Option Url) (env : ProcessEnv)
    (frontEnv portEnv : JsString) (fakes : List (JsString × Nat)), Accepted parseUrl env frontEnv →
    (Record.keys fakes).Nodup → (∀ nonce ∈ Record.keys fakes, IsNonce nonce) →
    Muxes parseUrl env frontEnv (fun _ => True) portEnv fakes := by
  intro h
  have hnonce : ∀ nonce ∈ Record.keys [(js "#", 1)], IsNonce nonce := by
    intro nonce h
    obtain rfl := List.mem_singleton.mp h
    exact ⟨by decide, by decide⟩
  have hmux := h sampleUrl sampleEnv (js "FRONT_URL") (js "FRONT_PORT") [(js "#", 1)] accepted_sample
    (List.nodup_singleton _) hnonce
  obtain ⟨endpoint, url, hendpoint, hurl, hroute⟩ := hmux.dispatches (js "#") 1
    (List.mem_singleton_self _) trivial [] 1 (by decide +kernel)
  have heq : frontedEndpoint sampleUrl sampleEnv (js "FRONT_URL") (js "FRONT_PORT") [] 1 (js "#") =
      .ok (js "https://a.b/hook/fx/#") := by decide +kernel
  obtain rfl := Except.ok.inj (heq.symm.trans hendpoint)
  have hparsed : sampleUrl (js "https://a.b/hook/fx/#") =
      some ⟨⟨js "https:", js "a.b"⟩, js "/hook/fx/"⟩ := by decide +kernel
  obtain rfl := Option.some.inj (hparsed.symm.trans hurl)
  have hrouted := hroute [] (Or.inl rfl)
  revert hrouted
  decide +kernel

end Fronts

end OpenWop.FrontMux
