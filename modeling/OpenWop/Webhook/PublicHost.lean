import OpenWop.Core.Delimited
import OpenWop.Webhook.Front

/-!
# Which hosts a public front may have

A URL has a domain, an IPv4 address or an IPv6 address for its host, and its `hostname` is the text
of one of them. The front is screened by that text, against local names and addresses.
-/

namespace OpenWop.Webhook

open OpenWop.Js

section Hosts

/-- The host of a URL. -/
inductive UrlHost where
  | domain (name : JsString) (lower : name.map lowerHostUnit = name)
  | ipv4 (a b c d : Fin 256)
  | ipv6 (pieces : Fin 8 → UInt16)

/-- A piece of an IPv6 address, in hexadecimal without leading zeros. -/
def hexPiece (piece : UInt16) : JsString :=
  if piece = 0 then [unit '0']
  else (Nat.digits 16 piece.toNat).reverse.map fun d =>
    UInt16.ofNat (if d < 10 then 48 + d else 87 + d)

/-- How many zeros stand at the front. -/
def zerosAhead (pieces : List UInt16) : Nat := (pieces.takeWhile (· == 0)).length

/-- The first longest run of two or more zeros, by its start and length. -/
def compressedRun (pieces : List UInt16) : Option (Nat × Nat) :=
  ((List.range pieces.length).map fun i => (i, zerosAhead (pieces.drop i))).foldl
    (fun best run => if 1 < run.2 ∧ (best.elim 0 Prod.snd) < run.2 then some run else best) none

/-- The text of an IPv6 address between its brackets. -/
def ipv6Text (pieces : List UInt16) : JsString :=
  let joined := fun (ps : List UInt16) => join [unit ':'] (ps.map hexPiece)
  match compressedRun pieces with
  | none => joined pieces
  | some (start, length) =>
    joined (pieces.take start) ++ js "::" ++ joined (pieces.drop (start + length))

/-- The `hostname` of a URL. -/
def UrlHost.hostname : UrlHost → JsString
  | .domain name _ => name
  | .ipv4 a b c d =>
    decimal a ++ unit '.' :: (decimal b ++ unit '.' :: (decimal c ++ unit '.' :: decimal d))
  | .ipv6 pieces => unit '[' :: (ipv6Text (List.ofFn pieces) ++ [unit ']'])

/-- A loopback, RFC 1918, link-local or unique-local address. -/
def UrlHost.isLocalAddress : UrlHost → Bool
  | .domain _ _ => false
  | .ipv4 a b _ _ => a == 127 || a == 10 || (a == 172 && (16 ≤ b && b ≤ 31)) ||
    (a == 192 && b == 168) || (a == 169 && b == 254)
  | .ipv6 pieces => List.ofFn pieces == [0, 0, 0, 0, 0, 0, 0, 1] ||
    pieces 0 &&& 0xfe00 == 0xfc00 || pieces 0 &&& 0xffc0 == 0xfe80

/-- The text starts like a local address, without being one. -/
def looksLocal (name : JsString) : Bool := isLoopback name || isPrivate name

example : ipv6Text [0xfe80, 0, 0, 0, 1, 0, 0, 0xab] = js "fe80::1:0:0:ab" := by decide +kernel

end Hosts

section Octets

/-- A front of a dotted text is compared field by field. -/
theorem startsWith_field {x y rest after : JsString} {c : UInt16} (hx : c ∉ x) (hy : c ∉ y) :
    startsWith (x ++ c :: rest) (y ++ c :: after) = true ↔ x = y ∧ startsWith rest after = true := by
  have hne : ∀ {z : JsString}, c ∉ z → ∀ u ∈ z, ¬ u = c := fun hz u hu h => hz (h ▸ hu)
  have hstop : ∀ t, Delimited.Stops (· = c) (c :: t) := fun t => Delimited.stops_cons rfl
  rw [startsWith_iff, startsWith_iff]
  constructor
  · rintro ⟨t, ht⟩
    rw [List.append_assoc, List.cons_append] at ht
    obtain ⟨hxy, hrest⟩ :=
      Delimited.append_inj_of_stops (hne hy) (hne hx) (hstop _) (hstop _) ht
    exact ⟨hxy.symm, t, (List.cons.inj hrest).2⟩
  · rintro ⟨rfl, t, rfl⟩
    exact ⟨t, by simp⟩

theorem dot_not_mem_decimal (n : ℕ) : unit '.' ∉ decimal n := fun h =>
  absurd (le_of_mem_decimal h) (by decide)

theorem startsWith_decimal {m n : ℕ} {rest after : JsString} :
    startsWith (decimal m ++ unit '.' :: rest) (decimal n ++ unit '.' :: after) = true ↔
      m = n ∧ startsWith rest after = true := by
  rw [startsWith_field (dot_not_mem_decimal m) (dot_not_mem_decimal n)]
  exact and_congr_left fun _ => ⟨decimal_inj, fun h => h ▸ rfl⟩

/-- The text of an octet is one, two or three digits. -/
theorem decimal_octet : ∀ b : Fin 256, decimal b =
    if b < 10 then [UInt16.ofNat (48 + b)]
    else if b < 100 then [UInt16.ofNat (48 + b / 10), UInt16.ofNat (48 + b % 10)]
    else [UInt16.ofNat (48 + b / 100), UInt16.ofNat (48 + b / 10 % 10), UInt16.ofNat (48 + b % 10)] := by
  decide +kernel

/-- The digits `1[6-9]`, `2\d` and `3[01]` are those of the numbers from 16 to 31. -/
theorem second_octet : ∀ b : Fin 256, 10 ≤ b → b < 100 →
    ((UInt16.ofNat (48 + b / 10) == unit '1' && (unit '6' ≤ UInt16.ofNat (48 + b % 10) &&
        UInt16.ofNat (48 + b % 10) ≤ unit '9')) ||
      (UInt16.ofNat (48 + b / 10) == unit '2' && isDigit (UInt16.ofNat (48 + b % 10))) ||
      (UInt16.ofNat (48 + b / 10) == unit '3' && (UInt16.ofNat (48 + b % 10) == unit '0' ||
        UInt16.ofNat (48 + b % 10) == unit '1'))) = (16 ≤ b && b ≤ 31) := by
  decide +kernel

theorem third_octet : ∀ b : Fin 256, (UInt16.ofNat (48 + b % 10) == unit '.') = false := by
  decide +kernel

theorem isPrivate172_dotted (a b : Fin 256) (rest : JsString) :
    isPrivate172 (decimal a ++ unit '.' :: (decimal b ++ unit '.' :: rest)) =
      (a == 172 && (16 ≤ b && b ≤ 31)) := by
  have hfield : startsWith (decimal a ++ unit '.' :: (decimal b ++ unit '.' :: rest))
      (decimal 172 ++ [unit '.']) = true ↔ (a : ℕ) = 172 ∧ _ = true :=
    startsWith_decimal
  have htext : js "172." = decimal 172 ++ [unit '.'] := by decide +kernel
  by_cases ha : a = 172
  · subst ha
    have hstart : startsWith (decimal (172 : Fin 256) ++ unit '.' :: (decimal b ++ unit '.' :: rest))
        (js "172.") = true := htext ▸ hfield.mpr ⟨rfl, rfl⟩
    have hdrop : (decimal (172 : Fin 256) ++ unit '.' :: (decimal b ++ unit '.' :: rest)).drop 4 =
        decimal b ++ unit '.' :: rest := rfl
    rw [isPrivate172, hstart, hdrop, Bool.true_and, beq_self_eq_true, Bool.true_and]
    rw [decimal_octet b]
    split_ifs with h10 h100
    · -- the second of the three units is the dot
      have hrange : (decide (16 ≤ b) && decide (b ≤ 31)) = false := by
        rw [decide_eq_false (not_le.mpr (h10.trans (by decide))), Bool.false_and]
      have hsix : decide (unit '6' ≤ unit '.') = false := by decide
      have hdigit : isDigit (unit '.') = false := by decide
      have hzero : (unit '.' == unit '0') = false := by decide
      have hone : (unit '.' == unit '1') = false := by decide
      rw [hrange]
      cases rest with
      | nil => rfl
      | cons w rest => simp [hsix, hdigit, hzero, hone]
    · exact (Bool.true_and _).trans (second_octet b (not_lt.mp h10) h100)
    · have hrange : (decide (16 ≤ b) && decide (b ≤ 31)) = false := by
        rw [decide_eq_false (not_le.mpr (lt_of_lt_of_le (by decide) (not_lt.mp h100))),
          Bool.and_false]
      have hdigit : (UInt16.ofNat (48 + b % 10) == unit '.') = false := third_octet b
      rw [hrange]
      exact (congrArg (· && _) hdigit).trans (Bool.false_and _)
  · have hstart : startsWith (decimal a ++ unit '.' :: (decimal b ++ unit '.' :: rest))
        (js "172.") = false := by
      rw [htext]
      refine Bool.eq_false_iff.mpr fun h => ha (Fin.ext ?_)
      exact (hfield.mp h).1
    rw [isPrivate172, hstart, Bool.false_and, beq_eq_false_iff_ne.mpr ha, Bool.false_and]

/-- The text of an octet starts with a digit. -/
theorem head_octet (b : Fin 256) (rest : JsString) :
    ∃ v t, decimal b ++ rest = v :: t ∧ isDigit v = true := by
  have hhead : ∀ b : Fin 256, (decimal b).head?.any isDigit = true := by decide +kernel
  have hb := hhead b
  cases hd : decimal b with
  | nil =>
    rw [hd] at hb
    cases hb
  | cons v t =>
    rw [hd] at hb
    exact ⟨v, t ++ rest, rfl, hb⟩

theorem startsWith_one (a n : Fin 256) (rest : JsString) :
    startsWith (decimal a ++ unit '.' :: rest) (decimal n ++ [unit '.']) = (a == n) := by
  rw [Bool.eq_iff_iff, startsWith_decimal, beq_iff_eq, Fin.ext_iff]
  exact and_iff_left rfl

theorem startsWith_two (a b n m : Fin 256) (rest : JsString) :
    startsWith (decimal a ++ unit '.' :: (decimal b ++ unit '.' :: rest))
      (decimal n ++ unit '.' :: (decimal m ++ [unit '.'])) = (a == n && b == m) := by
  rw [Bool.eq_iff_iff, startsWith_decimal, startsWith_one, Bool.and_eq_true, beq_iff_eq (a := a),
    Fin.ext_iff]

end Octets

section Screen

/-- The text of an IPv4 address looks local exactly when the address is. -/
theorem looksLocal_ipv4 (a b c d : Fin 256) :
    looksLocal (UrlHost.ipv4 a b c d).hostname = (UrlHost.ipv4 a b c d).isLocalAddress := by
  have h127 : js "127." = decimal (127 : Fin 256) ++ [unit '.'] := by decide +kernel
  have h10 : js "10." = decimal (10 : Fin 256) ++ [unit '.'] := by decide +kernel
  have h192 : js "192.168." = decimal (192 : Fin 256) ++
      unit '.' :: (decimal (168 : Fin 256) ++ [unit '.']) := by decide +kernel
  have h169 : js "169.254." = decimal (169 : Fin 256) ++
      unit '.' :: (decimal (254 : Fin 256) ++ [unit '.']) := by decide +kernel
  -- a text that starts with a digit is none of the names
  obtain ⟨v, t, hv, hdigit⟩ := head_octet a
    (unit '.' :: (decimal b ++ unit '.' :: (decimal c ++ unit '.' :: decimal d)))
  have hletter : ∀ (u : UInt16) (after : JsString), isDigit u = false →
      startsWith (v :: t) (u :: after) = false ∧ (v :: t == u :: after) = false := by
    intro u after hu
    have hne : v ≠ u := by
      rintro rfl
      rw [hdigit] at hu
      cases hu
    constructor
    · refine Bool.eq_false_iff.mpr fun h => ?_
      obtain ⟨_, hs⟩ := startsWith_iff.mp h
      exact hne (List.cons.inj hs).1.symm
    · exact beq_eq_false_iff_ne.mpr fun h => hne (List.cons.inj h).1
  have hlocalhost := (hletter (unit 'l') (js "ocalhost") rfl).2
  have hsix := (hletter (unit ':') (js ":1") rfl).2
  have hfc := (hletter (unit 'f') (js "c") rfl).1
  have hfd := (hletter (unit 'f') (js "d") rfl).1
  rw [← hv] at hlocalhost hsix hfc hfd
  have hnames : js "localhost" = unit 'l' :: js "ocalhost" ∧ js "::1" = unit ':' :: js ":1" ∧
      js "fc" = unit 'f' :: js "c" ∧ js "fd" = unit 'f' :: js "d" := by decide
  rw [looksLocal, isLoopback, isPrivate, UrlHost.hostname, isPrivate172_dotted, h127, h10, h192,
    h169, startsWith_one, startsWith_one, startsWith_two, startsWith_two, hnames.1, hnames.2.1,
    hnames.2.2.1, hnames.2.2.2, hlocalhost, hsix, hfc, hfd, UrlHost.isLocalAddress]
  simp only [Bool.false_or, Bool.or_false]
  ac_rfl

/-- The text of an IPv6 address never looks local, for its bracket. -/
theorem looksLocal_bracket (rest : JsString) : looksLocal (unit '[' :: rest) = false := rfl

theorem looksLocal_ipv6 (pieces : Fin 8 → UInt16) :
    looksLocal (UrlHost.ipv6 pieces).hostname = false := looksLocal_bracket _

/-- The host is one whose text shows whether it is local: not a local IPv6 address, and not a domain
other than `localhost` that starts like a local address. -/
def UrlHost.Telling : UrlHost → Prop
  | .domain name _ => name = js "localhost" ∨ looksLocal name = false
  | .ipv4 _ _ _ _ => True
  | .ipv6 pieces => (UrlHost.ipv6 pieces).isLocalAddress = false

/-- What `new URL(raw)` gives, when the parser gives the protocol and the host. -/
def parsedUrl (parse : JsString → Option (JsString × UrlHost)) (raw : JsString) :
    Option ParsedUrl :=
  (parse raw).map fun url => ⟨url.1, url.2.hostname⟩

/-- Only a public https front is accepted, and every https front with a domain is, except
`localhost`. -/
def Screens (parse : JsString → Option (JsString × UrlHost)) (env : ProcessEnv)
    (envName localUrl : JsString) : Prop :=
  let raw := trim ((env envName).getD [])
  let resolved := resolvePublicFront (parsedUrl parse) env envName localUrl
  (∀ url, resolved = .ok ⟨url, true⟩ → ∃ host, parse raw = some (js "https:", host) ∧
    host.hostname ≠ js "localhost" ∧ host.isLocalAddress = false) ∧
  ∀ name lower, raw ≠ [] → parse raw = some (js "https:", .domain name lower) →
    name ≠ js "localhost" → ∃ url, resolved = .ok ⟨url, true⟩

theorem looksLocal_lower (host : UrlHost) :
    looksLocal (host.hostname.map lowerHostUnit) = looksLocal host.hostname := by
  cases host with
  | domain name lower => exact congrArg looksLocal lower
  | ipv4 a b c d =>
    have hoctet : ∀ b : Fin 256, (decimal b).map lowerHostUnit = decimal b := by decide +kernel
    have hdot : lowerHostUnit (unit '.') = unit '.' := rfl
    simp only [UrlHost.hostname, List.map_append, List.map_cons, hoctet, hdot]
  | ipv6 pieces => exact (looksLocal_bracket _).trans (looksLocal_bracket _).symm

/-- An https front is screened by the text of its host. -/
theorem resolvePublicFront_https {parse : JsString → Option (JsString × UrlHost)} {env : ProcessEnv}
    {envName : JsString} {host : UrlHost} (hraw : trim ((env envName).getD []) ≠ [])
    (h : parse (trim ((env envName).getD [])) = some (js "https:", host)) (localUrl : JsString) :
    (∃ url, resolvePublicFront (parsedUrl parse) env envName localUrl = .ok ⟨url, true⟩) ↔
      looksLocal host.hostname = false := by
  have hparsed : parsedUrl parse (trim ((env envName).getD [])) =
      some ⟨js "https:", host.hostname⟩ := by rw [parsedUrl, h, Option.map_some]
  have hlower := looksLocal_lower host
  rw [looksLocal] at hlower
  simp only [resolvePublicFront, if_neg hraw, hparsed, ne_eq, not_true_eq_false, if_false, hlower]
  cases looksLocal host.hostname with
  | true => simp
  | false => simp

/-- Any other front is refused or not there. -/
theorem https_of_resolvePublicFront {parse : JsString → Option (JsString × UrlHost)}
    {env : ProcessEnv} {envName localUrl url : JsString}
    (h : resolvePublicFront (parsedUrl parse) env envName localUrl = .ok ⟨url, true⟩) :
    trim ((env envName).getD []) ≠ [] ∧
      ∃ host, parse (trim ((env envName).getD [])) = some (js "https:", host) := by
  simp only [resolvePublicFront] at h
  split at h
  · cases h
  · next hraw =>
    refine ⟨hraw, ?_⟩
    cases hp : parse (trim ((env envName).getD [])) with
    | none =>
      simp only [parsedUrl, hp, Option.map_none] at h
      cases h
    | some parsed =>
      obtain ⟨protocol, host⟩ := parsed
      simp only [parsedUrl, hp, Option.map_some] at h
      split at h
      · cases h
      · next hprotocol =>
        rw [ne_eq, not_not] at hprotocol
        exact ⟨host, by rw [hprotocol]⟩

/-- The front is screened as it should be exactly when the text of its host shows whether the host is
local. -/
theorem resolvePublicFront_screens_iff (parse : JsString → Option (JsString × UrlHost))
    (env : ProcessEnv) (envName localUrl : JsString) :
    Screens parse env envName localUrl ↔ trim ((env envName).getD []) = [] ∨
      ∀ host, parse (trim ((env envName).getD [])) = some (js "https:", host) → host.Telling := by
  constructor
  · rintro ⟨hpublic, hnames⟩
    refine or_iff_not_imp_left.mpr fun hraw host hparse => ?_
    have hscreen := resolvePublicFront_https hraw hparse localUrl
    cases host with
    | domain name lower =>
      refine or_iff_not_imp_left.mpr fun hname => ?_
      exact hscreen.mp (hnames name lower hraw hparse hname)
    | ipv4 a b c d => trivial
    | ipv6 pieces =>
      obtain ⟨url, hurl⟩ := hscreen.mpr (looksLocal_ipv6 pieces)
      obtain ⟨host, hhost, -, hlocal⟩ := hpublic url hurl
      rw [hparse, Option.some.injEq, Prod.mk.injEq] at hhost
      rw [← hhost.2] at hlocal
      exact hlocal
  · intro htelling
    constructor
    · intro url hurl
      obtain ⟨hraw, host, hparse⟩ := https_of_resolvePublicFront hurl
      have hlooks := (resolvePublicFront_https hraw hparse localUrl).mp ⟨url, hurl⟩
      have htold := htelling.resolve_left hraw host hparse
      refine ⟨host, hparse, ?_, ?_⟩
      · intro hname
        rw [hname] at hlooks
        revert hlooks
        decide
      · cases host with
        | domain name lower => rfl
        | ipv4 a b c d => rw [← looksLocal_ipv4, hlooks]
        | ipv6 pieces => exact htold
    · intro name lower hraw hparse hname
      have htold := htelling.resolve_left hraw _ hparse
      exact (resolvePublicFront_https hraw hparse localUrl).mpr (htold.resolve_left hname)

/-- The loopback address of IPv6 is accepted, and a domain that starts with `10.` is refused. -/
theorem loopback_accepted :
    ¬ Screens (fun _ => some (js "https:", .ipv6 fun i => if i = 7 then 1 else 0))
      (fun _ => some (js "https://[::1]/")) webhookFrontEnv (js "http://127.0.0.1:9000") ∧
    ¬ Screens (fun _ => some (js "https:", .domain (js "10.example.com") (by decide)))
      (fun _ => some (js "https://10.example.com/")) webhookFrontEnv
      (js "http://127.0.0.1:9000") := by
  constructor
  · rintro ⟨hpublic, -⟩
    have hscreen := @resolvePublicFront_https
      (fun _ => some (js "https:", .ipv6 fun i => if i = 7 then 1 else 0))
      (fun _ => some (js "https://[::1]/")) webhookFrontEnv _ (by decide) rfl
    obtain ⟨url, hurl⟩ := (hscreen (js "http://127.0.0.1:9000")).mpr (looksLocal_ipv6 _)
    obtain ⟨host, hhost, -, hlocal⟩ := hpublic url hurl
    rw [Option.some.injEq, Prod.mk.injEq] at hhost
    rw [← hhost.2] at hlocal
    revert hlocal
    decide
  · rintro ⟨-, hnames⟩
    have hscreen := @resolvePublicFront_https
      (fun _ => some (js "https:", .domain (js "10.example.com") (by decide)))
      (fun _ => some (js "https://10.example.com/")) webhookFrontEnv _ (by decide) rfl
    have hlooks := (hscreen (js "http://127.0.0.1:9000")).mp
      (hnames _ (by decide) (by decide) rfl (by decide))
    revert hlooks
    decide

end Screen

end OpenWop.Webhook
