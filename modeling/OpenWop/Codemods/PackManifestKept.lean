import OpenWop.Codemods.PeerFiling

/-!
# What the manifest codemod keeps

A manifest that is not refused should come out with every range under the key of its family, every
facet and every entry member, and should come out of a second run as it is. It does where no two
spellings of one family disagree, no peer is named as a member every object inherits, and the
signature names no other scheme.
-/

namespace OpenWop.Codemods.PackManifest

open OpenWop.Js OpenWop.Eval OpenWop.Content OpenWop.Codemods

section Property

/-- The peers of a manifest. -/
def peersOf (doc : Record JsString Json) : Record JsString Json :=
  membersOf (Record.get? doc (js "peerDependencies"))

/-- The entries about its peers. -/
def entriesOf (doc : Record JsString Json) : Record JsString Json :=
  membersOf (Record.get? doc (js "peerDependenciesMeta"))

/-- Where the entry under this key belongs: with the peer of that name. -/
def entryHome (doc : Record JsString Json) (k : JsString) : JsString :=
  if k ∈ Record.keys (peersOf doc) then home k else k

/-- Every member of the signature stays, but that the key is named by `keyId` and the method by the
v2 scheme. -/
structure SigningKept (s t : Record JsString Json) : Prop where
  members : ∀ k v, k ≠ js "publicKeyRef" → k ≠ js "method" → Record.get? s k = some v →
    Record.get? t k = some v
  keyId : ∀ v, Record.get? s (js "publicKeyRef") = some v → Record.get? t (js "keyId") = some v
  scheme : (Record.get? s (js "method")).isSome → Record.get? t (js "scheme") = some canonicalScheme

/-- Every member of the entry stays, and every facet it lists. -/
def EntryKept (e : Json) (e' : Option Json) : Prop :=
  e'.isSome ∧
    (∀ n v, n ≠ js "facets" → Json.member? e n = some v → Json.read? e' n = some v) ∧
    ∀ f ∈ facetsOf (some e), f ∈ facetsOf e'

/-- Every fact of the first manifest is one of the second. -/
structure Keeps (doc out : Record JsString Json) : Prop where
  members : ∀ k v, k ≠ js "signing" → k ≠ js "peerDependencies" → k ≠ js "peerDependenciesMeta" →
    Record.get? doc k = some v → Record.get? out k = some v
  signing : ∀ s, Record.get? doc (js "signing") = some (.obj s) →
    ∃ t, Record.get? out (js "signing") = some (.obj t) ∧ SigningKept s t
  unsigned : ∀ v, Record.get? doc (js "signing") = some v → Json.isObject (some v) = false →
    Record.get? out (js "signing") = some v
  ranges : ∀ m ∈ peersOf doc, Record.get? (peersOf out) (home m.1) = some m.2
  facets : ∀ m ∈ peersOf doc, ∀ f ∈ facetsNamed m.1,
    f ∈ facetsOf (Record.get? (entriesOf out) (home m.1))
  entries : ∀ k e, Record.get? (entriesOf doc) k = some e →
    EntryKept e (Record.get? (entriesOf out) (entryHome doc k))

/-- What the codemod makes of the manifest, where it does not refuse: every fact is kept, and a
second run changes nothing. -/
def Migrates (doc : Record JsString Json) : Prop :=
  ∀ out, transform (.obj doc) = .ok out →
    ∃ members, out = .obj members ∧ Keeps doc members ∧ transform out = .ok out

/-- The manifest has the types of its schemas: names for the keys of the signature, ranges for the
peers, and entries about them. -/
structure Typed (doc : Record JsString Json) : Prop where
  signing : ∀ s, Record.get? doc (js "signing") = some (.obj s) →
    ∀ k ∈ [js "keyId", js "publicKeyRef"], ∀ v, Record.get? s k = some v → ∃ t, v = .str t
  peers : ∀ v, Record.get? doc (js "peerDependencies") = some v →
    ∃ ms, v = .obj ms ∧ (Record.keys ms).Nodup ∧ ∀ m ∈ ms, ∃ range, m.2 = .str range
  entries : ∀ v, Record.get? doc (js "peerDependenciesMeta") = some v →
    ∃ ms, v = .obj ms ∧ Entries ms

/-- The range has a ceiling above major 2. -/
def admitsV2 (doc : Record JsString Json) : Bool :=
  match Json.read? (Record.get? doc (js "engines")) (js "openwop") with
  | some (.str range) =>
    (ceiling? (trim range)).any fun major => !JsNumber.le (stringToNumber major) (.ofNat 2)
  | _ => false

/-- The two names of the key agree, and the method or the scheme is known. -/
def relabels (s : Record JsString Json) : Bool :=
  ((Record.get? s (js "publicKeyRef")).all fun ref =>
    (Record.get? s (js "keyId")).all fun keyId => Bundle.strictEquals (some keyId) (some ref)) &&
  match Record.get? s (js "method") with
  | some method => method = .str (js "manual")
  | none => Record.get? s (js "scheme") = some canonicalScheme

/-- The manifest is refused for its ceiling, its signature or a peer it declares. -/
def Refused (doc : Record JsString Json) : Prop :=
  admitsV2 doc = false ∨
    (∃ v, Record.get? doc (js "signing") = some v ∧ Json.isObject (some v) = true ∧
      relabels (spread (.json v)) = false) ∨
    ∃ m ∈ peersOf doc, aliasOf? m.1 = none ∧ isKey m.1 = false

/-- No peer is named as an inherited member, no other scheme is named beside a method, and the
spellings of one family do not disagree: they carry one range, their entries give no member two
values, and where the family lists facets, or an alias names some, they list no others. -/
structure Consistent (doc : Record JsString Json) : Prop where
  own : ∀ m ∈ peersOf doc, isInherited m.1 = false
  scheme : ∀ s, Record.get? doc (js "signing") = some (.obj s) →
    (Record.get? s (js "method")).isSome → ∀ v, Record.get? s (js "scheme") = some v →
      v = canonicalScheme
  ranges : ∀ m ∈ peersOf doc, ∀ n ∈ peersOf doc, home m.1 = home n.1 → m.2 = n.2
  entries : ∀ k l e f, Record.get? (entriesOf doc) k = some e →
    Record.get? (entriesOf doc) l = some f → entryHome doc k = entryHome doc l →
      ∀ n v w, n ≠ js "facets" → Json.member? e n = some v → Json.member? f n = some w → v = w
  facets : ∀ k e, Record.get? (entriesOf doc) k = some e →
    let family := Record.get? (entriesOf doc) (entryHome doc k)
    let others := named (peersOf doc) (entryHome doc k)
    (Json.read? family (js "facets")).isSome ∨ others ≠ [] →
      ∀ f ∈ facetsOf (some e), f ∈ facetsOf family ∨ f ∈ others

end Property

section Signing

variable {s t : Record JsString Json}

theorem withKeyId_ok : withKeyId s = .ok t ↔
    ((Record.get? s (js "publicKeyRef")).all fun ref =>
      (Record.get? s (js "keyId")).all fun keyId =>
        Bundle.strictEquals (some keyId) (some ref)) = true ∧
    t = (Record.get? s (js "publicKeyRef")).elim s fun ref =>
      Record.erase (Record.set s (js "keyId") ref) (js "publicKeyRef") := by
  rw [withKeyId]
  cases Record.get? s (js "publicKeyRef") with
  | none => simp [eq_comm]
  | some ref =>
    cases hkey : Record.get? s (js "keyId") with
    | none => simp [eq_comm]
    | some keyId => by_cases hsame : Bundle.strictEquals (some keyId) (some ref) = true <;>
        simp [hsame, refuse, eq_comm]

theorem withScheme_ok : withScheme s = .ok t ↔
    (match Record.get? s (js "method") with
      | some method => (method = .str (js "manual") : Bool)
      | none => Record.get? s (js "scheme") = some canonicalScheme) = true ∧
    t = if (Record.get? s (js "method")).isSome then
      Record.set (Record.erase s (js "method")) (js "scheme") canonicalScheme else s := by
  rw [withScheme]
  cases hmethod : Record.get? s (js "method") with
  | none =>
    by_cases hscheme : Record.get? s (js "scheme") = some canonicalScheme <;>
      simp [hscheme, refuse, eq_comm]
  | some method =>
    by_cases hmanual : method = .str (js "manual")
    · subst hmanual
      have hnames : js "manual" ≠ js "ed25519" ∧ js "manual" ≠ js "sigstore" := by decide
      simp only [Json.str.injEq, hnames.1, hnames.2, if_false, decide_true, true_and,
        Option.isSome_some, if_true, ne_eq, not_true_eq_false, Except.ok.injEq]
      exact eq_comm
    · simp only [hmanual, decide_false, Bool.false_eq_true, false_and, iff_false]
      split_ifs <;> simp [refuse]

/-- Naming the key by `keyId` touches no other member. -/
theorem get?_withKeyId (h : withKeyId s = .ok t) {k : JsString} (hk : k ≠ js "publicKeyRef")
    (hk' : k ≠ js "keyId") : Record.get? t k = Record.get? s k := by
  rw [(withKeyId_ok.mp h).2]
  cases Record.get? s (js "publicKeyRef") with
  | none => rfl
  | some ref => rw [Option.elim_some, Record.get?_erase, if_neg hk, Record.get?_set, if_neg hk']

theorem get?_keyId (h : withKeyId s = .ok t) : Record.get? t (js "publicKeyRef") = none ∧
    Record.get? t (js "keyId") =
      (Record.get? s (js "publicKeyRef")).or (Record.get? s (js "keyId")) := by
  rw [(withKeyId_ok.mp h).2]
  cases href : Record.get? s (js "publicKeyRef") with
  | none => exact ⟨href, rfl⟩
  | some ref =>
    have hne : js "keyId" ≠ js "publicKeyRef" := by decide
    rw [Option.elim_some, Record.get?_erase_self, Record.get?_erase, if_neg hne,
      Record.get?_set_self]
    exact ⟨rfl, rfl⟩

theorem get?_withScheme (h : withScheme s = .ok t) {k : JsString} (hk : k ≠ js "method")
    (hk' : k ≠ js "scheme") : Record.get? t k = Record.get? s k := by
  rw [(withScheme_ok.mp h).2]
  split
  · rw [Record.get?_set, if_neg hk', Record.get?_erase, if_neg hk]
  · rfl

theorem get?_scheme (h : withScheme s = .ok t) : Record.get? t (js "method") = none ∧
    Record.get? t (js "scheme") = some canonicalScheme := by
  obtain ⟨hsome, ht⟩ := withScheme_ok.mp h
  rw [ht]
  cases hmethod : Record.get? s (js "method") with
  | none =>
    rw [hmethod, decide_eq_true_iff] at hsome
    exact ⟨hmethod, hsome⟩
  | some method =>
    have hne : js "method" ≠ js "scheme" := by decide
    rw [Option.isSome_some, if_pos rfl, Record.get?_set, if_neg hne, Record.get?_erase_self,
      Record.get?_set_self]
    exact ⟨rfl, rfl⟩

variable {u : Record JsString Json}

/-- The relabelled signature keeps every member, if it names no other scheme. -/
theorem signingKept (hkeyId : withKeyId s = .ok u) (hscheme : withScheme u = .ok t)
    (htyped : ∀ k ∈ [js "keyId", js "publicKeyRef"], ∀ v, Record.get? s k = some v →
      ∃ w, v = .str w)
    (hsame : (Record.get? s (js "method")).isSome → ∀ v, Record.get? s (js "scheme") = some v →
      v = canonicalScheme) : SigningKept s t := by
  have hkey := (get?_keyId hkeyId).2
  have hfinal : Record.get? t (js "keyId") = Record.get? u (js "keyId") :=
    get?_withScheme hscheme (by decide) (by decide)
  refine ⟨fun k v hk hk' hv => ?_, fun v hv => ?_, fun _ => (get?_scheme hscheme).2⟩
  · by_cases hid : k = js "keyId"
    · subst hid
      rw [hfinal, hkey]
      cases href : Record.get? s (js "publicKeyRef") with
      | none => rw [Option.none_or, hv]
      | some ref =>
        have hagree := (withKeyId_ok.mp hkeyId).1
        rw [href, hv, Option.all_some, Option.all_some] at hagree
        obtain ⟨a, rfl⟩ := htyped _ (List.mem_cons_self ..) v hv
        obtain ⟨b, rfl⟩ := htyped _ (List.mem_cons_of_mem _ (List.mem_singleton_self _)) ref href
        have hab : a = b := of_decide_eq_true hagree
        rw [hab]
        rfl
    · have hu := get?_withKeyId hkeyId hk hid
      by_cases hs : k = js "scheme"
      · subst hs
        have hmethod : Record.get? u (js "method") = Record.get? s (js "method") :=
          get?_withKeyId hkeyId (by decide) (by decide)
        rw [(withScheme_ok.mp hscheme).2]
        split
        · next hsome => rw [Record.get?_set_self, hsame (hmethod ▸ hsome) v hv]
        · rw [hu, hv]
      · rw [get?_withScheme hscheme hk' hs, hu, hv]
  · rw [hfinal, hkey, hv, Option.some_or]

theorem withKeyId_again (h : Record.get? t (js "publicKeyRef") = none) : withKeyId t = .ok t := by
  rw [withKeyId_ok, h]
  exact ⟨rfl, rfl⟩

theorem withScheme_again (h : Record.get? t (js "method") = none)
    (h' : Record.get? t (js "scheme") = some canonicalScheme) : withScheme t = .ok t := by
  rw [withScheme_ok, h, h']
  exact ⟨decide_eq_true rfl, rfl⟩

/-- A signature is refused exactly where it does not relabel. -/
theorem relabels_iff : relabels s = true ↔ ∃ u t, withKeyId s = .ok u ∧ withScheme u = .ok t := by
  rw [relabels, Bool.and_eq_true]
  constructor
  · rintro ⟨hagree, hmethod⟩
    have hkeyId := withKeyId_ok.mpr ⟨hagree, rfl⟩
    refine ⟨_, _, hkeyId, withScheme_ok.mpr ⟨?_, rfl⟩⟩
    rwa [get?_withKeyId hkeyId (by decide) (by decide),
      get?_withKeyId hkeyId (by decide) (by decide)]
  · rintro ⟨u, t, hkeyId, hscheme⟩
    refine ⟨(withKeyId_ok.mp hkeyId).1, ?_⟩
    have hmethod := (withScheme_ok.mp hscheme).1
    rwa [get?_withKeyId hkeyId (by decide) (by decide),
      get?_withKeyId hkeyId (by decide) (by decide)] at hmethod

end Signing

section Stages

variable {doc out : Record JsString Json}

theorem get?_withKind {k : JsString} (hk : k ≠ js "kind") :
    Record.get? (withKind doc) k = Record.get? doc k := by
  rw [withKind]
  split
  · rfl
  · exact Record.get?_set_of_ne _ _ hk

theorem withKind_eq (h : (Record.get? doc (js "kind")).isSome) : withKind doc = doc := if_pos h

theorem isSome_kind (doc : Record JsString Json) :
    (Record.get? (withKind doc) (js "kind")).isSome := by
  by_cases h : (Record.get? doc (js "kind")).isSome
  · rwa [withKind_eq h]
  · rw [withKind, if_neg h, Record.get?_set_self]
    rfl

theorem checkCeiling_ok : checkCeiling doc = .ok () ↔ admitsV2 doc = true := by
  rw [checkCeiling, admitsV2]
  generalize Json.read? (Record.get? doc (js "engines")) (js "openwop") = v
  rcases v with _ | v
  · simp [refuse]
  · cases v with
    | str range =>
      cases hrange : ceiling? (trim range) with
      | none => simp [refuse, hrange]
      | some major =>
        by_cases hle : JsNumber.le (stringToNumber major) (.ofNat 2) = true <;>
          simp [hle, refuse, hrange]
    | null | bool _ | num _ | arr _ | obj _ => simp [refuse]

theorem admitsV2_congr (h : Record.get? out (js "engines") = Record.get? doc (js "engines")) :
    admitsV2 out = admitsV2 doc := by rw [admitsV2, admitsV2, h]

/-- What the signature block becomes, all other members being kept. -/
structure Signed (doc out : Record JsString Json) : Prop where
  others : ∀ k, k ≠ js "signing" → Record.get? out k = Record.get? doc k
  block : ∀ v, Record.get? doc (js "signing") = some v → Json.isObject (some v) = true →
    ∃ u t, withKeyId (spread (.json v)) = .ok u ∧ withScheme u = .ok t ∧
      Record.get? out (js "signing") = some (.obj t)
  absent : Json.isObject (Record.get? doc (js "signing")) = false →
    Record.get? out (js "signing") = Record.get? doc (js "signing")

theorem signed_of_ok (h : withSigning doc = .ok out) : Signed doc out := by
  rw [withSigning] at h
  cases hv : Record.get? doc (js "signing") with
  | none =>
    rw [hv] at h
    obtain rfl := Except.ok.inj h
    exact ⟨fun _ _ => rfl, fun v hv' _ => (nomatch hv.symm.trans hv'), fun _ => rfl⟩
  | some v =>
    simp only [hv] at h
    by_cases hobject : Json.isObject (some v) = true
    · rw [if_pos hobject] at h
      simp only [bind_ok, pure, Except.pure, Except.ok.injEq] at h
      obtain ⟨u, hu, t, ht, rfl⟩ := h
      refine ⟨fun k hk => Record.get?_set_of_ne _ _ hk, fun w hw _ => ?_, fun hno => ?_⟩
      · obtain rfl := Option.some.inj (hv.symm.trans hw)
        exact ⟨u, t, hu, ht, Record.get?_set_self _ _ _⟩
      · rw [hv, hobject] at hno
        cases hno
    · rw [if_neg hobject] at h
      obtain rfl := Except.ok.inj h
      refine ⟨fun _ _ => rfl, fun w hw hobj => ?_, fun _ => rfl⟩
      obtain rfl := Option.some.inj (hv.symm.trans hw)
      exact absurd hobj hobject

theorem withSigning_total (h : ∀ v, Record.get? doc (js "signing") = some v →
    Json.isObject (some v) = true → relabels (spread (.json v)) = true) :
    ∃ out, withSigning doc = .ok out := by
  rw [withSigning]
  cases hv : Record.get? doc (js "signing") with
  | none => exact ⟨doc, rfl⟩
  | some v =>
    by_cases hobject : Json.isObject (some v) = true
    · obtain ⟨u, t, hu, ht⟩ := relabels_iff.mp (h v hv hobject)
      refine ⟨Record.set doc (js "signing") (.obj t), ?_⟩
      simp only [hobject, if_true, hu, bind_ok, pure, Except.pure]
      exact ⟨u, rfl, t, ht, rfl⟩
    · exact ⟨doc, if_neg hobject⟩

theorem withSigning_again (h : ∀ v, Record.get? doc (js "signing") = some v →
    Json.isObject (some v) = true → ∃ t, v = .obj t ∧ Record.get? t (js "publicKeyRef") = none ∧
      Record.get? t (js "method") = none ∧ Record.get? t (js "scheme") = some canonicalScheme) :
    withSigning doc = .ok doc := by
  rw [withSigning]
  cases hv : Record.get? doc (js "signing") with
  | none => rfl
  | some v =>
    by_cases hobject : Json.isObject (some v) = true
    · obtain ⟨t, rfl, href, hmethod, hscheme⟩ := h v hv hobject
      have hset := Record.set_eq_self hv
      simp only [hobject, if_true, bind_ok, pure, Except.pure]
      exact ⟨t, withKeyId_again href, t, withScheme_again hmethod hscheme, by rw [hset]⟩
    · exact if_neg hobject

/-- What the peers and their entries become, all other members being kept. -/
structure Filing (doc out : Record JsString Json) (st : Filed) : Prop where
  others : ∀ k, k ≠ js "peerDependencies" → k ≠ js "peerDependenciesMeta" →
    Record.get? out k = Record.get? doc k
  filed : filePeers ⟨[], entriesOf doc⟩ (peersOf doc) = .ok st
  peers : Record.get? out (js "peerDependencies") = none ∧ st.peers = [] ∨
    Record.get? out (js "peerDependencies") = some (.obj st.peers)
  entries : Record.get? out (js "peerDependenciesMeta") =
    if st.entries.isEmpty then Record.get? doc (js "peerDependenciesMeta")
    else some (.obj st.entries)

theorem spread_entries (h : ∀ v, Record.get? doc (js "peerDependenciesMeta") = some v →
    ∃ ms, v = .obj ms) :
    spread (accessed (Record.get? doc (js "peerDependenciesMeta"))) = entriesOf doc := by
  rw [entriesOf]
  cases hv : Record.get? doc (js "peerDependenciesMeta") with
  | none => rfl
  | some v =>
    obtain ⟨ms, rfl⟩ := h v hv
    rfl

theorem filing_of_ok (hpeers : ∀ v, Record.get? doc (js "peerDependencies") = some v →
      ∃ ms, v = .obj ms)
    (hentries : ∀ v, Record.get? doc (js "peerDependenciesMeta") = some v → ∃ ms, v = .obj ms)
    (h : withPeers doc = .ok out) : ∃ st, Filing doc out st := by
  rw [withPeers] at h
  cases hv : Record.get? doc (js "peerDependencies") with
  | none =>
    rw [hv] at h
    obtain rfl := Except.ok.inj h
    have hnone : peersOf doc = [] := by rw [peersOf, hv]; rfl
    refine ⟨⟨[], entriesOf doc⟩, fun _ _ _ => rfl, by rw [hnone]; rfl, Or.inl ⟨hv, rfl⟩, ?_⟩
    rw [entriesOf]
    cases hw : Record.get? doc (js "peerDependenciesMeta") with
    | none => rfl
    | some w =>
      obtain ⟨ms, rfl⟩ := hentries w hw
      exact (ite_self _).symm
  | some v =>
    obtain ⟨ms, rfl⟩ := hpeers v hv
    have hms : peersOf doc = ms := by rw [peersOf, hv]; rfl
    have hspread : spread (.json (.obj ms)) = ms := rfl
    simp only [hv, Json.isObject, if_true, spread_entries hentries, hspread, bind_ok, pure,
      Except.pure] at h
    obtain ⟨st, hst, h⟩ := h
    have hne : js "peerDependencies" ≠ js "peerDependenciesMeta" := by decide
    refine ⟨st, ?_⟩
    by_cases hempty : st.entries.isEmpty = true
    · rw [if_pos hempty] at h
      obtain rfl := Except.ok.inj h
      refine ⟨fun k hk _ => Record.get?_set_of_ne _ _ hk, hms ▸ hst,
        Or.inr (Record.get?_set_self _ _ _), ?_⟩
      rw [if_pos hempty, Record.get?_set_of_ne _ _ hne.symm]
    · rw [if_neg hempty] at h
      obtain rfl := Except.ok.inj h
      refine ⟨fun k hk hk' => ?_, hms ▸ hst, Or.inr ?_, ?_⟩
      · rw [Record.get?_set_of_ne _ _ hk', Record.get?_set_of_ne _ _ hk]
      · rw [Record.get?_set_of_ne _ _ hne, Record.get?_set_self]
      · rw [if_neg hempty, Record.get?_set_self]

theorem withPeers_total
    (hpeers : ∀ v, Record.get? doc (js "peerDependencies") = some v → ∃ ms, v = .obj ms)
    (hmembers : ∀ v, Record.get? doc (js "peerDependenciesMeta") = some v →
      ∃ ms, v = .obj ms ∧ Entries ms)
    (hknown : ∀ m ∈ peersOf doc, (aliasOf? m.1).isSome ∨ isKey m.1 = true) :
    ∃ out, withPeers doc = .ok out := by
  rw [withPeers]
  cases hv : Record.get? doc (js "peerDependencies") with
  | none => exact ⟨doc, rfl⟩
  | some v =>
    obtain ⟨ms, rfl⟩ := hpeers v hv
    have hms : peersOf doc = ms := by rw [peersOf, hv]; rfl
    have hspread : spread (.json (.obj ms)) = ms := rfl
    have hentries : Entries (entriesOf doc) := by
      rw [entriesOf]
      cases hw : Record.get? doc (js "peerDependenciesMeta") with
      | none => exact nofun
      | some w =>
        obtain ⟨entries, rfl, h⟩ := hmembers w hw
        exact h
    have hnil : Entries (Filed.mk [] (entriesOf doc)).entries := hentries
    obtain ⟨st, hst, -⟩ := filePeers_total hnil (hms ▸ hknown)
    have hmeta := spread_entries fun w hw => (hmembers w hw).imp fun _ h => h.1
    simp only [Json.isObject, if_true, hmeta, hspread, bind_ok, pure, Except.pure]
    by_cases hempty : st.entries.isEmpty = true
    · exact ⟨_, st, hst, if_pos hempty⟩
    · exact ⟨_, st, hst, if_neg hempty⟩

/-- Peers that are filed under declaration-file keys are filed so again. -/
theorem withPeers_again
    (hpeers : ∀ v, Record.get? doc (js "peerDependencies") = some v → ∃ ms, v = .obj ms ∧
      (Record.keys ms).Nodup ∧ ∀ m ∈ ms, aliasOf? m.1 = none ∧ isKey m.1 = true)
    (hentries : ∀ v, Record.get? doc (js "peerDependenciesMeta") = some v → ∃ ms, v = .obj ms) :
    withPeers doc = .ok doc := by
  rw [withPeers]
  cases hv : Record.get? doc (js "peerDependencies") with
  | none => rfl
  | some v =>
    obtain ⟨ms, rfl, hnodup, hkeys⟩ := hpeers v hv
    have hspread : spread (.json (.obj ms)) = ms := rfl
    have hfile : filePeers ⟨[], entriesOf doc⟩ ms = .ok ⟨ms, entriesOf doc⟩ := by
      rw [filePeers_keys hkeys, Record.foldl_set_nil hnodup]
    simp only [Json.isObject, if_true, spread_entries hentries, hspread, bind_ok, pure, Except.pure]
    refine ⟨_, hfile, ?_⟩
    rw [Record.set_eq_self hv]
    split
    · rfl
    · next hne =>
      have hmeta : Record.get? doc (js "peerDependenciesMeta") = some (.obj (entriesOf doc)) := by
        rw [entriesOf] at hne ⊢
        cases hw : Record.get? doc (js "peerDependenciesMeta") with
        | none =>
          rw [hw] at hne
          exact absurd rfl hne
        | some w =>
          obtain ⟨entries, rfl⟩ := hentries w hw
          rfl
      rw [Record.set_eq_self hmeta]

end Stages

section Correct

variable {doc r : Record JsString Json} {st : Filed}

/-- What a run makes of a manifest, its stages one after the other. -/
structure Ran (doc r : Record JsString Json) (st : Filed) : Prop where
  ceiling : admitsV2 doc = true
  members : ∀ k v, k ≠ js "signing" → k ≠ js "peerDependencies" → k ≠ js "peerDependenciesMeta" →
    Record.get? doc k = some v → Record.get? r k = some v
  signed : ∃ d, Signed (withKind doc) d ∧
    Record.get? r (js "signing") = Record.get? d (js "signing")
  filed : filePeers ⟨[], entriesOf doc⟩ (peersOf doc) = .ok st
  peers : peersOf r = st.peers
  entries : st.entries ≠ [] → entriesOf r = st.entries
  again : transform (.obj r) = .ok (.obj r)

theorem transform_ok {out : Json} : transform (.obj doc) = .ok out ↔ admitsV2 doc = true ∧
    ∃ d r, withSigning (withKind doc) = .ok d ∧ withPeers d = .ok r ∧ out = .obj r := by
  have hceiling : admitsV2 (withKind doc) = admitsV2 doc :=
    admitsV2_congr (get?_withKind (by decide))
  rw [transform, bind_ok]
  simp only [bind_ok, pure, Except.pure, Except.ok.injEq]
  constructor
  · rintro ⟨⟨⟩, hcheck, d, hd, r, hr, rfl⟩
    exact ⟨hceiling ▸ checkCeiling_ok.mp hcheck, d, r, hd, hr, rfl⟩
  · rintro ⟨hadmits, d, r, hd, hr, rfl⟩
    exact ⟨(), checkCeiling_ok.mpr (hceiling.trans hadmits), d, hd, r, hr, rfl⟩

theorem membersOf_typed (htyped : Typed doc) : (Record.keys (peersOf doc)).Nodup ∧
    Entries (entriesOf doc) := by
  rw [peersOf, entriesOf]
  constructor
  · cases hv : Record.get? doc (js "peerDependencies") with
    | none => exact List.nodup_nil
    | some v =>
      obtain ⟨ms, rfl, hms, -⟩ := htyped.peers v hv
      exact hms
  · cases hv : Record.get? doc (js "peerDependenciesMeta") with
    | none => exact nofun
    | some v =>
      obtain ⟨ms, rfl, hms⟩ := htyped.entries v hv
      exact hms

theorem ran_of_ok (htyped : Typed doc) {out : Json} (h : transform (.obj doc) = .ok out) :
    ∃ r st, out = .obj r ∧ Ran doc r st := by
  obtain ⟨hadmits, d, r, hd, hr, rfl⟩ := transform_ok.mp h
  have hsigned := signed_of_ok hd
  have hpeer : Record.get? d (js "peerDependencies") = Record.get? doc (js "peerDependencies") :=
    (hsigned.others _ (by decide)).trans (get?_withKind (by decide))
  have hmeta : Record.get? d (js "peerDependenciesMeta") =
      Record.get? doc (js "peerDependenciesMeta") :=
    (hsigned.others _ (by decide)).trans (get?_withKind (by decide))
  have hobjects : ∀ v, Record.get? d (js "peerDependenciesMeta") = some v → ∃ ms, v = .obj ms :=
    fun v hv => (htyped.entries v (hmeta ▸ hv)).imp fun _ h => h.1
  obtain ⟨st, hfiling⟩ := filing_of_ok
    (fun v hv => (htyped.peers v (hpeer ▸ hv)).imp fun _ h => h.1) hobjects hr
  have hpeersOf : peersOf d = peersOf doc := by rw [peersOf, hpeer, ← peersOf]
  have hentriesOf : entriesOf d = entriesOf doc := by rw [entriesOf, hmeta, ← entriesOf]
  have hfiled := hfiling.filed
  rw [hpeersOf, hentriesOf] at hfiled
  have hranges := holdsRanges_of_ok hfiled
  have hmembers : ∀ k, k ≠ js "signing" → k ≠ js "peerDependencies" →
      k ≠ js "peerDependenciesMeta" → Record.get? r k = Record.get? (withKind doc) k :=
    fun k hs hp hm => (hfiling.others k hp hm).trans (hsigned.others k hs)
  have hsignature : Record.get? r (js "signing") = Record.get? d (js "signing") :=
    hfiling.others _ (by decide) (by decide)
  refine ⟨r, st, rfl, hadmits, fun k v hs hp hm hv => ?_, ⟨d, hsigned, hsignature⟩, hfiled, ?_,
    fun hne => ?_, ?_⟩
  · rw [hmembers k hs hp hm]
    by_cases hk : k = js "kind"
    · subst hk
      rwa [withKind_eq (by rw [hv]; rfl)]
    · rwa [get?_withKind hk]
  · rw [peersOf]
    rcases hfiling.peers with ⟨hnone, hnil⟩ | hsome
    · rw [hnone, hnil]
      rfl
    · rw [hsome]
      rfl
  · rw [entriesOf, hfiling.entries, if_neg (by rwa [List.isEmpty_iff])]
    rfl
  · have hkind : withKind r = r := withKind_eq (by
      rw [hmembers _ (by decide) (by decide) (by decide)]
      exact isSome_kind doc)
    have hengines : admitsV2 r = true := by
      refine Eq.trans (admitsV2_congr ?_) hadmits
      rw [hmembers _ (by decide) (by decide) (by decide), get?_withKind (by decide)]
    have hsign : withSigning r = .ok r := by
      refine withSigning_again fun v hv hobject => ?_
      rw [hsignature] at hv
      cases hsome : Json.isObject (Record.get? (withKind doc) (js "signing")) with
      | false =>
        rw [← hsigned.absent hsome, hv, hobject] at hsome
        cases hsome
      | true =>
        obtain ⟨w, hw⟩ : ∃ w, Record.get? (withKind doc) (js "signing") = some w :=
          Option.ne_none_iff_exists'.mp fun hnone => by
            rw [hnone] at hsome
            cases hsome
        obtain ⟨u, t, hu, ht, hblock⟩ := hsigned.block w hw (hw ▸ hsome)
        refine ⟨t, Option.some.inj (hv.symm.trans hblock), ?_, (get?_scheme ht).1,
          (get?_scheme ht).2⟩
        rw [get?_withScheme ht (by decide) (by decide), (get?_keyId hu).1]
    have hagain : withPeers r = .ok r := by
      refine withPeers_again (fun v hv => ?_) fun v hv => ?_
      · rcases hfiling.peers with ⟨hnone, -⟩ | hsome
        · rw [hnone] at hv
          cases hv
        · refine ⟨st.peers, Option.some.inj (hv.symm.trans hsome), hranges.nodup, fun m hm => ?_⟩
          exact hranges.isKey (List.mem_map_of_mem hm)
      · rw [hfiling.entries] at hv
        split at hv
        · exact hobjects v hv
        · exact ⟨_, (Option.some.inj hv).symm⟩
    exact transform_ok.mpr ⟨hengines, r, r, by rw [hkind, hsign], hagain, rfl⟩

/-- Where the manifest is not refused, it is rewritten. -/
theorem transform_total (htyped : Typed doc) (h : ¬ Refused doc) :
    ∃ out, transform (.obj doc) = .ok out := by
  rw [Refused, not_or, not_or] at h
  obtain ⟨hadmits, hsigning, hpeers⟩ := h
  have hsame : ∀ k, k ≠ js "kind" → Record.get? (withKind doc) k = Record.get? doc k :=
    fun k hk => get?_withKind hk
  have hrelabels : ∀ v, Record.get? (withKind doc) (js "signing") = some v →
      Json.isObject (some v) = true → relabels (spread (.json v)) = true := by
    intro v hv hobject
    rw [hsame _ (by decide)] at hv
    rw [← Bool.not_eq_false]
    exact fun hno => hsigning ⟨v, hv, hobject, hno⟩
  obtain ⟨d, hd⟩ := withSigning_total hrelabels
  have hothers := (signed_of_ok hd).others
  have hget : ∀ k, k ≠ js "kind" → k ≠ js "signing" → Record.get? d k = Record.get? doc k :=
    fun k hk hs => (hothers k hs).trans (hsame k hk)
  have hpeer := hget (js "peerDependencies") (by decide) (by decide)
  have hmeta := hget (js "peerDependenciesMeta") (by decide) (by decide)
  have hpeersOf : peersOf d = peersOf doc := by rw [peersOf, hpeer, ← peersOf]
  have hknown : ∀ m ∈ peersOf d, (aliasOf? m.1).isSome ∨ isKey m.1 = true := by
    intro m hm
    rw [hpeersOf] at hm
    by_cases hnone : aliasOf? m.1 = none
    · refine Or.inr ?_
      rw [← Bool.not_eq_false]
      exact fun hkey => hpeers ⟨m, hm, hnone, hkey⟩
    · exact Or.inl (Option.isSome_iff_ne_none.mpr hnone)
  obtain ⟨r, hr⟩ := withPeers_total (fun v hv => (htyped.peers v (hpeer ▸ hv)).imp fun _ h => h.1)
    (fun v hv => htyped.entries v (hmeta ▸ hv)) hknown
  exact ⟨_, transform_ok.mpr ⟨(Bool.not_eq_false _).mp hadmits, d, r, hd, hr, rfl⟩⟩

/-- A refused manifest is not rewritten. -/
theorem not_refused (htyped : Typed doc) {out : Json} (h : transform (.obj doc) = .ok out) :
    ¬ Refused doc := by
  obtain ⟨r, st, rfl, hran⟩ := ran_of_ok htyped h
  obtain ⟨-, d, r', hd, -, -⟩ := transform_ok.mp h
  rintro (hadmits | ⟨v, hv, hobject, hno⟩ | ⟨m, hm, hnone, hkey⟩)
  · rw [hran.ceiling] at hadmits
    cases hadmits
  · have hv' : Record.get? (withKind doc) (js "signing") = some v :=
      (get?_withKind (by decide)).trans hv
    obtain ⟨u, t, hu, ht, -⟩ := (signed_of_ok hd).block v hv' hobject
    rw [relabels_iff.mpr ⟨u, t, hu, ht⟩] at hno
    cases hno
  · rcases (holdsRanges_of_ok hran.filed).known m hm with h | h
    · rw [hnone] at h
      cases h
    · rw [hkey] at h
      cases h

theorem get?_home (k : JsString) : Record.get? aliases (home k) = none := by
  rw [home]
  cases hrow : Record.get? aliases k with
  | none => exact hrow
  | some a => exact get?_family hrow

theorem entryHome_cases (doc : Record JsString Json) (k : JsString) :
    Record.get? aliases (entryHome doc k) = none ∨ entryHome doc k = k := by
  rw [entryHome]
  split
  · exact Or.inl (get?_home k)
  · exact Or.inr rfl

/-- Only facts that agree can all be kept. -/
theorem consistent_of_keeps (htyped : Typed doc) (hran : Ran doc r st) (hkeeps : Keeps doc r) :
    Consistent doc := by
  obtain ⟨hnodup, hentries⟩ := membersOf_typed htyped
  have hranges := holdsRanges_of_ok hran.filed
  have hown : ∀ m ∈ peersOf doc, isInherited m.1 = false := by
    intro m hm
    rw [← Bool.not_eq_true]
    intro hinherited
    have hrow : Record.get? aliases m.1 = none := by
      cases hrow : Record.get? aliases m.1 with
      | none => rfl
      | some a =>
        rw [isInherited_row hrow] at hinherited
        cases hinherited
    have hheld := hkeeps.ranges m hm
    have hhome : home m.1 = m.1 := by
      rw [home, hrow]
      rfl
    rw [hhome, hran.peers] at hheld
    have hkey := hranges.isKey (Record.get?_isSome_iff.mp (Option.isSome_of_eq_some hheld))
    rw [(aliasOf?_none hkey.1).2] at hinherited
    cases hinherited
  refine ⟨hown, fun s hs hmethod v hv => ?_, fun m hm n hn heq => ?_,
    fun k l e f hk hl heq n v w hn hv hw => ?_, fun k e hk => ?_⟩
  · obtain ⟨t, -, hkept⟩ := hkeeps.signing s hs
    have hv' := hkept.members _ v (by decide) (by decide) hv
    exact Option.some.inj (hv'.symm.trans (hkept.scheme hmethod))
  · have hm' := hkeeps.ranges m hm
    rw [heq] at hm'
    exact Option.some.inj (hm'.symm.trans (hkeeps.ranges n hn))
  · have hv' := (hkeeps.entries k e hk).2.1 n v hn hv
    rw [heq] at hv'
    exact Option.some.inj (hv'.symm.trans ((hkeeps.entries l f hl).2.1 n w hn hw))
  · intro family others hlisted f hf
    have hholds := holdsEntries_of_ok hentries hown hnodup hran.filed
    have hfinal : entriesOf r = st.entries :=
      hran.entries (hholds.ne_nil (Option.isSome_of_eq_some hk))
    have hkept := (hkeeps.entries k e hk).2.2 f hf
    rw [hfinal] at hkept
    rcases entryHome_cases doc k with hhome | hhome
    · by_cases hnil : others = []
      · have hread := hholds.member _ (js "facets") hhome (Or.inr hnil)
        obtain ⟨v, hv⟩ := Option.isSome_iff_exists.mp (hlisted.resolve_right (· hnil))
        rw [show Json.read? (Record.get? (entriesOf doc) (entryHome doc k)) (js "facets") = some v
          from hv, Option.some_or] at hread
        left
        rwa [facetsOf, hread, ← hv, ← facetsOf] at hkept
      · exact (hholds.facets _ hhome hnil f).mp hkept
    · left
      change f ∈ facetsOf (Record.get? (entriesOf doc) (entryHome doc k))
      rwa [hhome, hk]

theorem plain_unique : ∀ r ∈ aliases, ∀ r' ∈ aliases, r.2.family = r'.2.family →
    r.2.facets = none → r.1 = r'.1 := by decide +kernel

theorem entryHome_eq {k : JsString} (hrow : Record.get? aliases k = none) :
    entryHome doc k = k := by
  rw [entryHome, home, hrow]
  exact ite_self k

theorem entryHome_source {k family : JsString} (hk : k ∈ sources (peersOf doc) family) :
    entryHome doc k = family := by
  obtain ⟨hin, hfamily⟩ := mem_sources.mp hk
  rw [entryHome, if_pos hin, home, hfamily, Option.getD_some]

theorem exists_source {given : Record JsString Json} {keys : List JsString} {k n : JsString}
    {v : Json} (hk : k ∈ keys) (hv : Json.read? (Record.get? given k) n = some v) :
    ∃ w, keys.findSome? (fun k => Json.read? (Record.get? given k) n) = some w := by
  rw [← Option.isSome_iff_exists, List.findSome?_isSome_iff]
  exact ⟨k, hk, Option.isSome_of_eq_some hv⟩

/-- Every entry is kept under its home. -/
theorem entryKept (hconsistent : Consistent doc)
    (hholds : HoldsEntries (entriesOf doc) (peersOf doc) st.entries) {k : JsString} {e : Json}
    (hk : Record.get? (entriesOf doc) k = some e) :
    EntryKept e (Record.get? st.entries (entryHome doc k)) := by
  rcases hrow : Record.get? aliases k with _ | a
  · rw [entryHome_eq hrow]
    refine ⟨hholds.present k hrow (Or.inl (Option.isSome_of_eq_some hk)), fun n v hn hv => ?_,
      fun f hf => ?_⟩
    · rw [hholds.member k n hrow (Or.inl hn), hk]
      exact congrArg (Option.or · _) hv
    · by_cases hnil : named (peersOf doc) k = []
      · cases hv : Json.read? (some e) (js "facets") with
        | none =>
          rw [facetsOf_none hv] at hf
          cases hf
        | some v =>
          have hread := hholds.member k (js "facets") hrow (Or.inr hnil)
          rw [hk, hv, Option.some_or] at hread
          rwa [facetsOf, hread, ← hv, ← facetsOf]
      · exact (hholds.facets k hrow hnil f).mpr (Or.inl (hk ▸ hf))
  by_cases hin : k ∈ Record.keys (peersOf doc)
  swap
  · have hhome : entryHome doc k = k := if_neg hin
    rw [hhome, hholds.spelled k (by rw [hrow]; rfl), if_neg hin, hk]
    exact ⟨rfl, fun _ _ _ hv => hv, fun _ hf => hf⟩
  have hsource : k ∈ sources (peersOf doc) a.family := mem_sources.mpr ⟨hin, by rw [hrow]; rfl⟩
  have hhome := entryHome_source hsource
  have hfamily := get?_family hrow
  have hself : entryHome doc a.family = a.family := entryHome_eq hfamily
  have hfacets := hconsistent.facets k e hk
  rw [hhome] at hfacets ⊢
  refine ⟨hholds.present _ hfamily (Or.inr ⟨k, hsource, Option.isSome_of_eq_some hk⟩),
    fun n v hn hv => ?_, fun f hf => ?_⟩
  · have hread : Json.read? (Record.get? (entriesOf doc) k) n = some v := by rw [hk]; exact hv
    rw [hholds.member _ n hfamily (Or.inl hn)]
    cases hown : Json.read? (Record.get? (entriesOf doc) a.family) n with
    | some w =>
      obtain ⟨own, hown', hw⟩ := Option.bind_eq_some_iff.mp hown
      rw [Option.some_or, hconsistent.entries k a.family e own hk hown' (hhome.trans hself.symm) n v w
        hn hv hw]
    | none =>
      rw [Option.none_or]
      obtain ⟨w, hw⟩ := exists_source hsource hread
      obtain ⟨l, hl, hlw⟩ := List.exists_of_findSome?_eq_some hw
      obtain ⟨other, hother, hw'⟩ := Option.bind_eq_some_iff.mp hlw
      rw [hw, hconsistent.entries k l e other hk hother
        (hhome.trans (entryHome_source hl).symm) n v w hn hv hw']
  · by_cases hnil : named (peersOf doc) a.family = []
    · have hmember := hholds.member _ (js "facets") hfamily (Or.inr hnil)
      cases hown : Json.read? (Record.get? (entriesOf doc) a.family) (js "facets") with
      | some v =>
        rw [hown, Option.some_or] at hmember
        rw [facetsOf, hmember, ← hown, ← facetsOf]
        refine (hfacets (Or.inl (Option.isSome_of_eq_some hown)) f hf).resolve_right ?_
        rw [hnil]
        exact List.not_mem_nil
      | none =>
        -- the family has no other alias
        have hplain := (named_eq_nil_iff hrow hsource).mp hnil
        cases hv : Json.read? (some e) (js "facets") with
        | none =>
          rw [facetsOf_none hv] at hf
          cases hf
        | some v =>
          obtain ⟨w, hw⟩ := exists_source hsource (hk ▸ hv)
          obtain ⟨l, hl, hlw⟩ := List.exists_of_findSome?_eq_some hw
          obtain ⟨b, hb, hbfamily⟩ := Option.map_eq_some_iff.mp (mem_sources.mp hl).2
          have hkl : k = l := plain_unique _ (Record.mem_of_get? hrow) _ (Record.mem_of_get? hb)
            hbfamily.symm hplain
          rw [hown, Option.none_or, hw, ← hlw, ← hkl, hk] at hmember
          rwa [facetsOf, hmember, ← facetsOf]
    · exact (hholds.facets _ hfamily hnil f).mpr (hfacets (Or.inr hnil) f hf)

/-- Facts that agree are all kept. -/
theorem keeps_of_consistent (htyped : Typed doc) (hran : Ran doc r st)
    (hconsistent : Consistent doc) : Keeps doc r := by
  obtain ⟨hnodup, hentries⟩ := membersOf_typed htyped
  have hown := hconsistent.own
  have hranges := holdsRanges_of_ok hran.filed
  have hholds := holdsEntries_of_ok hentries hown hnodup hran.filed
  obtain ⟨d, hsigned, hsignature⟩ := hran.signed
  have hkind : Record.get? (withKind doc) (js "signing") = Record.get? doc (js "signing") :=
    get?_withKind (by decide)
  refine ⟨hran.members, fun s hs => ?_, fun v hv hobject => ?_, fun m hm => ?_,
    fun m hm f hf => ?_, fun k e hk => ?_⟩
  · obtain ⟨u, t, hu, ht, hblock⟩ := hsigned.block _ (hkind.trans hs) rfl
    refine ⟨t, hsignature.trans hblock, signingKept hu ht (htyped.signing s hs) ?_⟩
    exact hconsistent.scheme s hs
  · rw [hsignature, hsigned.absent (by rw [hkind, hv]; exact hobject), hkind, hv]
  · have htarget : target m.1 = home m.1 := target_of_not_inherited (hown m hm)
    obtain ⟨v, hv⟩ := Option.isSome_iff_exists.mp (hranges.filed m hm)
    obtain ⟨n, hn, hsame, rfl⟩ := hranges.declared _ v hv
    rw [target_of_not_inherited (hown n hn), htarget] at hsame
    rw [hran.peers, ← htarget, hv, hconsistent.ranges m hm n hn hsame.symm]
  · cases hrow : Record.get? aliases m.1 with
    | none =>
      rw [facetsNamed, hrow] at hf
      cases hf
    | some a =>
      have hsource : m.1 ∈ sources (peersOf doc) a.family :=
        mem_sources.mpr ⟨List.mem_map_of_mem hm, by rw [hrow]; rfl⟩
      have hnamed : f ∈ named (peersOf doc) a.family := List.mem_flatMap.mpr ⟨m.1, hsource, hf⟩
      have hlisted := (hholds.facets _ (get?_family hrow) (List.ne_nil_of_mem hnamed) f).mpr
        (Or.inr hnamed)
      have hne : st.entries ≠ [] := by
        intro hnil
        rw [hnil] at hlisted
        cases hlisted
      have hhome : home m.1 = a.family := by
        rw [home, hrow]
        rfl
      rwa [hran.entries hne, hhome]
  · rw [hran.entries (hholds.ne_nil (Option.isSome_of_eq_some hk))]
    exact entryKept hconsistent hholds hk

/-- The codemod keeps every fact of a manifest it does not refuse exactly where the facts agree, and
then a second run changes nothing. -/
theorem migrates_iff (doc : Record JsString Json) (htyped : Typed doc) :
    Migrates doc ↔ Refused doc ∨ Consistent doc := by
  constructor
  · intro h
    by_cases hrefused : Refused doc
    · exact Or.inl hrefused
    · obtain ⟨out, hout⟩ := transform_total htyped hrefused
      obtain ⟨r, st, rfl, hran⟩ := ran_of_ok htyped hout
      obtain ⟨members, heq, hkeeps, -⟩ := h _ hout
      obtain rfl := Json.obj.inj heq
      exact Or.inr (consistent_of_keeps htyped hran hkeeps)
  · intro h out hout
    obtain ⟨r, st, rfl, hran⟩ := ran_of_ok htyped hout
    have hconsistent := h.resolve_left (not_refused htyped hout)
    exact ⟨r, rfl, keeps_of_consistent htyped hran hconsistent, hran.again⟩

/-- A published manifest with these peers and entries. -/
def manifest (peers entries : Record JsString Json) : Record JsString Json :=
  [(js "name", .str (js "core.a.b")), (js "version", .str (js "1.0.0")),
   (js "integrity", .str (js "sha256-AA==")), (js "runtime", .obj [(js "language", .str (js "wasm"))]),
   (js "nodes", .arr [.obj [(js "typeId", .str (js "t")), (js "version", .str (js "1.0.0")),
     (js "category", .str (js "c")), (js "role", .str (js "r"))]]),
   (js "engines", .obj [(js "openwop", .str (js ">=2.0.0 <3.0.0"))]),
   (js "peerDependencies", .obj peers), (js "peerDependenciesMeta", .obj entries)]

theorem typed_manifest {peers entries : Record JsString Json} (hnodup : (Record.keys peers).Nodup)
    (hpeers : ∀ m ∈ peers, ∃ range, m.2 = .str range) (hentries : Entries entries) :
    Typed (manifest peers entries) where
  signing := nofun
  peers _ hv := ⟨peers, (Option.some.inj hv).symm, hnodup, hpeers⟩
  entries _ hv := ⟨entries, (Option.some.inj hv).symm, hentries⟩

/-- An optional peer under its v1 spelling. -/
theorem migrates_optional : Migrates (manifest [(js "host.fs", .str (js "1"))]
    [(js "host.fs", .obj [(js "optional", .bool true)])]) := by
  have hone : ∀ {k : JsString} {e : Json},
      Record.get? [(js "host.fs", Json.obj [(js "optional", .bool true)])] k = some e →
        e = .obj [(js "optional", .bool true)] := fun h =>
    congrArg Prod.snd (List.mem_singleton.mp (Record.mem_of_get? h))
  refine (migrates_iff _ (typed_manifest (by decide) ?_ fun k e hk => ?_)).mpr
    (Or.inr ⟨by decide +kernel, nofun, by decide +kernel, fun k l e f hk hl _ n v w _ hv hw => ?_,
      fun k e hk _ f hf => ?_⟩)
  · exact fun m hm => ⟨js "1", congrArg Prod.snd (List.mem_singleton.mp hm)⟩
  · rw [hone hk]
    exact ⟨_, rfl, List.nodup_singleton _, nofun⟩
  · rw [hone hk] at hv
    rw [hone hl] at hw
    exact Option.some.inj (hv.symm.trans hw)
  · rw [hone hk] at hf
    cases hf

/-- Of two ranges for one family one is dropped. -/
theorem not_migrates_two : ¬ Migrates (manifest [(js "host.fs", .str (js "1")),
    (js "fs", .str (js "2"))] []) := by
  intro h
  have hout : transform (.obj (manifest [(js "host.fs", .str (js "1")),
      (js "fs", .str (js "2"))] [])) = .ok (.obj
        (manifest [(js "fs", .str (js "2"))] [] ++ [(js "kind", .str (js "node"))])) := by
    decide +kernel
  obtain ⟨members, heq, hkeeps, -⟩ := h _ hout
  obtain rfl := Json.obj.inj heq
  have hrange := hkeeps.ranges (js "host.fs", .str (js "1")) (List.mem_cons_self ..)
  revert hrange
  decide +kernel

end Correct

end OpenWop.Codemods.PackManifest
