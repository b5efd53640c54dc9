import OpenWop.Evidence.Redacted

/-!
# Evidence without secrets

A scrubbed document should hold no secret, keep all its members and stay as it is when it is
scrubbed again. It does where no secret is found in a marker or over the edge of one, the names of
an object are written apart, and a name `__proto__` does not stay.
-/

namespace OpenWop.Evidence

open OpenWop.Js OpenWop.Audit OpenWop.Replace OpenWop.Redaction

section Documents

/-- An object of the document, at any depth. -/
inductive HasObject : Json → List (JsString × Json) → Prop
  | here (members : List (JsString × Json)) : HasObject (.obj members) members
  | item {items : List Json} {v : Json} {members : List (JsString × Json)} (hv : v ∈ items)
      (h : HasObject v members) : HasObject (.arr items) members
  | member {outer : List (JsString × Json)} {m : JsString × Json}
      {members : List (JsString × Json)} (hm : m ∈ outer) (h : HasObject m.2 members) :
      HasObject (.obj outer) members

theorem mem_strings_arr {items : List Json} {s : JsString} :
    s ∈ (Json.arr items).strings ↔ ∃ v ∈ items, s ∈ v.strings := by
  simp only [Json.strings, Json.leaves, Json.memberNames, List.mem_append, Json.mem_itemLeaves,
    Json.mem_itemMemberNames, ← exists_or, ← and_or_left]

theorem mem_strings_obj {members : List (JsString × Json)} {s : JsString} :
    s ∈ (Json.obj members).strings ↔ ∃ m ∈ members, s = m.1 ∨ s ∈ m.2.strings := by
  simp only [Json.strings, Json.leaves, Json.memberNames, List.mem_append, Json.mem_memberLeaves,
    Json.mem_membersNames, ← exists_or, ← and_or_left]
  exact exists_congr fun m => and_congr_right fun _ => or_left_comm

variable {sha256 : Sha256} {live : List JsString}

/-- The strings of the scrubbed document are scrubbed strings. -/
theorem mem_strings_scrubValue {v : Json} {t : JsString}
    (h : t ∈ (scrubValue sha256 live v).strings) :
    ∃ s ∈ v.strings, t = scrubText sha256 live s := by
  induction v with
  | null => cases h
  | bool b => cases h
  | num n => cases h
  | str s => exact ⟨s, List.mem_singleton_self s, List.mem_singleton.mp h⟩
  | arr items ih =>
    rw [scrubValue, scrubItems_eq, mem_strings_arr] at h
    obtain ⟨w, hw, ht⟩ := h
    obtain ⟨v, hv, rfl⟩ := List.mem_map.mp hw
    obtain ⟨s, hs, heq⟩ := ih v hv ht
    exact ⟨s, mem_strings_arr.mpr ⟨v, hv, hs⟩, heq⟩
  | obj members ih =>
    rw [scrubValue, mem_strings_obj] at h
    obtain ⟨n, hn, ht⟩ := h
    have hn := mem_of_mem_assignAll hn
    rw [scrubMembers_eq] at hn
    obtain ⟨m, hm, rfl⟩ := List.mem_map.mp hn
    rcases ht with rfl | ht
    · exact ⟨m.1, mem_strings_obj.mpr ⟨m, hm, Or.inl rfl⟩, rfl⟩
    · obtain ⟨s, hs, heq⟩ := ih m hm ht
      exact ⟨s, mem_strings_obj.mpr ⟨m, hm, Or.inr hs⟩, heq⟩

/-- The scrubbed names of every object differ, and none is `__proto__`. -/
def KeepsNames (sha256 : Sha256) (live : List JsString) (v : Json) : Prop :=
  ∀ members, HasObject v members →
    (Record.keys (scrubMembers sha256 live members)).Nodup ∧
      js "__proto__" ∉ Record.keys (scrubMembers sha256 live members)

/-- Then no string is lost. -/
theorem scrubText_mem_strings {v : Json} (hkeeps : KeepsNames sha256 live v) {s : JsString}
    (hs : s ∈ v.strings) : scrubText sha256 live s ∈ (scrubValue sha256 live v).strings := by
  induction v with
  | null => cases hs
  | bool b => cases hs
  | num n => cases hs
  | str t => exact List.mem_singleton.mpr (congrArg _ (List.mem_singleton.mp hs))
  | arr items ih =>
    obtain ⟨v, hv, hs⟩ := mem_strings_arr.mp hs
    rw [scrubValue, scrubItems_eq, mem_strings_arr]
    exact ⟨_, List.mem_map_of_mem hv, ih v hv (fun ms hms => hkeeps ms (.item hv hms)) hs⟩
  | obj members ih =>
    obtain ⟨m, hm, hs⟩ := mem_strings_obj.mp hs
    obtain ⟨hnodup, hproto⟩ := hkeeps members (.here members)
    have hmem : (scrubText sha256 live m.1, scrubValue sha256 live m.2) ∈
        assignAll (scrubMembers sha256 live members) := by
      rw [(assignAll_perm hnodup hproto).mem_iff, scrubMembers_eq]
      exact List.mem_map_of_mem (f := fun m =>
        (scrubText sha256 live m.1, scrubValue sha256 live m.2)) hm
    rw [scrubValue, mem_strings_obj]
    refine ⟨_, hmem, hs.imp (congrArg _) fun hs => ?_⟩
    exact ih m hm (fun ms hms => hkeeps ms (.member hm hms)) hs

/-- Where every string is left as it is the second time, the document is. -/
theorem scrubValue_scrubValue {v : Json} (h : ∀ s ∈ v.strings,
    scrubText sha256 live (scrubText sha256 live s) = scrubText sha256 live s) :
    scrubValue sha256 live (scrubValue sha256 live v) = scrubValue sha256 live v := by
  induction v with
  | null => rfl
  | bool b => rfl
  | num n => rfl
  | str s =>
    rw [scrubValue, scrubValue]
    exact congrArg Json.str (h s (List.mem_singleton_self s))
  | arr items ih =>
    rw [scrubValue, scrubValue, scrubItems_eq, scrubItems_eq, List.map_map]
    refine congrArg Json.arr (List.map_congr_left fun v hv => ?_)
    exact ih v hv fun s hs => h s (mem_strings_arr.mpr ⟨v, hv, hs⟩)
  | obj members ih =>
    have hsame : scrubMembers sha256 live (assignAll (scrubMembers sha256 live members)) =
        assignAll (scrubMembers sha256 live members) := by
      rw [scrubMembers_eq sha256 live (assignAll _)]
      refine (List.map_congr_left fun n hn => ?_).trans (List.map_id _)
      have hn := mem_of_mem_assignAll hn
      rw [scrubMembers_eq] at hn
      obtain ⟨m, hm, rfl⟩ := List.mem_map.mp hn
      have hname := h m.1 (mem_strings_obj.mpr ⟨m, hm, Or.inl rfl⟩)
      have hvalue := ih m hm fun s hs => h s (mem_strings_obj.mpr ⟨m, hm, Or.inr hs⟩)
      exact Prod.ext hname hvalue
    rw [scrubValue, scrubValue, hsame, assignAll_assignAll]

end Documents

section Property

variable (sha256 : Sha256) (doc : Json) (secrets : List JsString)

/-- No secret is left outside a digest, every object keeps the number of its members, and nothing
changes the second time. -/
structure Scrubbed : Prop where
  removed : ∀ secret ∈ secrets, trim secret ≠ [] →
    ∀ s ∈ (scrubEvidence sha256 doc secrets).value.strings, isHexDigest s = false →
      includes s secret = false
  kept : ∀ members, HasObject doc members → ∃ out,
    (scrubEvidence sha256 (.obj members) secrets).value = .obj out ∧ out.length = members.length
  again : (scrubEvidence sha256 (scrubEvidence sha256 doc secrets).value secrets).value =
    (scrubEvidence sha256 doc secrets).value

/-- A name with its secrets cut out and the markers written in their places. -/
def writtenName (live : List JsString) (name : JsString) : JsString :=
  if Spared live name then name
  else write (cutOut (redactionMarker sha256) live (plain name))

/-- In the strings of the document no secret is found in a marker or over the edge of one, the
names of an object are written apart, and a name `__proto__` has a secret in it. -/
structure Apart (live : List JsString) : Prop where
  strings : ∀ s ∈ doc.strings, Spared live s ∨ Clear (redactionMarker sha256) live s
  names : ∀ members, HasObject doc members →
    (members.map fun m => writtenName sha256 live m.1).Nodup
  proto : ∀ members, HasObject doc members → js "__proto__" ∈ Record.keys members →
    ∃ secret ∈ live, includes (js "__proto__") secret = true

/-- In the strings of the document no secret is found over the edge of a marker at its turn. -/
def TurnsApart (live : List JsString) : Prop :=
  ∀ s ∈ doc.strings, Spared live s ∨ TurnsClear (redactionMarker sha256) live s

/-- There is no secret to look for, or the document keeps markers and secrets apart. -/
def Scrubbable : Prop := liveSecrets secrets = [] ∨ Apart sha256 doc (liveSecrets secrets)

end Property

section Strings

variable {sha256 : Sha256} {live : List JsString} {s : JsString}

theorem spared_proto (live : List JsString) : ¬ Spared live (js "__proto__") := by
  rintro ⟨h, -⟩
  revert h
  decide

/-- A name is written as it is scrubbed where it keeps markers and secrets apart. -/
theorem writtenName_eq (hlive : ∀ x ∈ live, x ≠ [])
    (h : Spared live s ∨ TurnsClear (redactionMarker sha256) live s) :
    writtenName sha256 live s = scrubText sha256 live s := by
  by_cases hs : Spared live s
  · rw [writtenName, scrubText, if_pos hs, if_pos hs]
  · rw [writtenName, scrubText, if_neg hs, if_neg hs,
      write_cutOut hlive (h.resolve_left hs), write_plain]

/-- A digest has no guillemet. -/
theorem isHexDigest_of_guillemet (h : unit '«' ∈ s) : isHexDigest s = false := by
  have hrun : ∀ t, unit '«' ∈ t → isHexRun t = false := by
    intro t ht
    have hall : t.all (digitValue · < 16) = false := by
      rw [List.all_eq_false]
      exact ⟨unit '«', ht, by decide⟩
    rw [isHexRun, hall, Bool.and_false]
  rw [isHexDigest, hrun s h, Bool.false_or, Bool.and_eq_false_iff]
  rw [← List.take_append_drop 7 s, List.mem_append] at h
  rcases h with hlead | hrest
  · left
    rw [decide_eq_false_iff_not]
    intro heq
    have hmem := List.mem_map_of_mem (f := lowerUnit) hlead
    rw [heq] at hmem
    revert hmem
    decide
  · exact Or.inr (hrun _ hrest)

/-- Only `__proto__` is scrubbed to `__proto__`, and only without a secret in it. -/
theorem scrubText_eq_proto (hlive : ∀ x ∈ live, x ≠ []) :
    scrubText sha256 live s = js "__proto__" ↔
      s = js "__proto__" ∧ ∀ x ∈ live, ¬ x <:+: js "__proto__" := by
  constructor
  · intro h
    by_cases hs : Spared live s
    · rw [scrubText, if_pos hs] at h
      exact absurd (h ▸ hs) (spared_proto live)
    · have hfree : ∀ x ∈ live, ¬ x <:+: s := by
        intro x hx hin
        have hmem : unit '«' ∈ scrubText sha256 live s :=
          guillemet_mem_scrubText hlive hs hx hin
        rw [h] at hmem
        revert hmem
        decide
      rw [scrubText_of_free hfree] at h
      exact ⟨h, h ▸ hfree⟩
  · rintro ⟨rfl, hfree⟩
    exact scrubText_of_free hfree

/-- A string of a clear document is free of the secrets, or a digest. -/
theorem scrubText_free (hlive : ∀ x ∈ live, x ≠ [])
    (h : Spared live s ∨ Clear (redactionMarker sha256) live s) :
    Spared live (scrubText sha256 live s) ∨ ∀ x ∈ live, ¬ x <:+: scrubText sha256 live s := by
  by_cases hs : Spared live s
  · rw [scrubText, if_pos hs]
    exact Or.inl hs
  · rw [scrubText, if_neg hs]
    exact Or.inr fun x hx => (h.resolve_left hs).not_isInfix hlive hx

/-- What is spared or free of the secrets is left as it is. -/
theorem scrubText_eq_self (h : Spared live s ∨ ∀ x ∈ live, ¬ x <:+: s) :
    scrubText sha256 live s = s := by
  rcases h with hs | hfree
  · rw [scrubText, if_pos hs]
  · exact scrubText_of_free hfree

end Strings

section Documents

variable {sha256 : Sha256} {doc : Json} {secrets : List JsString}

/-- The object that `scrubEvidence` makes of an object. -/
theorem scrubEvidence_obj (hlive : liveSecrets secrets ≠ []) (members : List (JsString × Json)) :
    (scrubEvidence sha256 (.obj members) secrets).value =
      .obj (assignAll (scrubMembers sha256 (liveSecrets secrets) members)) := by
  rw [scrubEvidence_value, if_neg hlive, scrubValue]

theorem length_scrubMembers (live : List JsString) (members : List (JsString × Json)) :
    (scrubMembers sha256 live members).length = members.length := by
  rw [scrubMembers_eq, List.length_map]

theorem keys_scrubMembers (live : List JsString) (members : List (JsString × Json)) :
    Record.keys (scrubMembers sha256 live members) =
      members.map fun m => scrubText sha256 live m.1 := by
  rw [Record.keys, scrubMembers_eq, List.map_map]
  rfl

/-- No member is lost exactly where the names are kept. -/
theorem keepsNames_iff (hlive : liveSecrets secrets ≠ []) :
    KeepsNames sha256 (liveSecrets secrets) doc ↔ ∀ members, HasObject doc members → ∃ out,
      (scrubEvidence sha256 (.obj members) secrets).value = .obj out ∧
        out.length = members.length := by
  refine forall₂_congr fun members _ => ?_
  rw [scrubEvidence_obj hlive, ← length_assignAll_iff, length_scrubMembers]
  constructor
  · exact fun h => ⟨_, rfl, h⟩
  · rintro ⟨out, heq, h⟩
    rw [Json.obj.inj heq]
    exact h

/-- Without a live secret the document is returned as it is. -/
theorem scrubbed_of_no_live (h : liveSecrets secrets = []) : Scrubbed sha256 doc secrets := by
  have hvalue : ∀ v, (scrubEvidence sha256 v secrets).value = v := fun v => by
    rw [scrubEvidence_value, if_pos h]
  refine ⟨fun secret hs hblank => ?_, fun members _ => ⟨members, hvalue _, rfl⟩, ?_⟩
  · have hmem := mem_liveSecrets.mpr ⟨hs, hblank⟩
    rw [h] at hmem
    cases hmem
  · rw [hvalue, hvalue]

theorem name_mem_strings {members : List (JsString × Json)} (h : HasObject doc members)
    {m : JsString × Json} (hm : m ∈ members) : m.1 ∈ doc.strings := by
  induction h with
  | here members => exact mem_strings_obj.mpr ⟨m, hm, Or.inl rfl⟩
  | item hv _ ih => exact mem_strings_arr.mpr ⟨_, hv, ih hm⟩
  | member hn _ ih => exact mem_strings_obj.mpr ⟨_, hn, Or.inr (ih hm)⟩

theorem Apart.keepsNames (h : Apart sha256 doc (liveSecrets secrets)) :
    KeepsNames sha256 (liveSecrets secrets) doc := by
  intro members hobj
  have hlive : ∀ x ∈ liveSecrets secrets, x ≠ [] := ne_nil_of_mem_liveSecrets
  rw [keys_scrubMembers]
  constructor
  · have hnames : (members.map fun m => scrubText sha256 (liveSecrets secrets) m.1) =
        members.map fun m => writtenName sha256 (liveSecrets secrets) m.1 := by
      refine List.map_congr_left fun m hm => (writtenName_eq hlive ?_).symm
      exact (h.strings m.1 (name_mem_strings hobj hm)).imp_right Clear.atTurn
    rw [hnames]
    exact h.names members hobj
  · intro hmem
    obtain ⟨m, hm, heq⟩ := List.mem_map.mp hmem
    obtain ⟨hproto, hfree⟩ := (scrubText_eq_proto hlive).mp heq
    have hkey : js "__proto__" ∈ Record.keys members := hproto ▸ List.mem_map_of_mem hm
    obtain ⟨secret, hsecret, hin⟩ := h.proto members hobj hkey
    exact hfree secret hsecret (includes_iff.mp hin)

/-- A document that keeps markers and secrets apart is scrubbed. -/
theorem Apart.scrubbed (hlive : liveSecrets secrets ≠ [])
    (h : Apart sha256 doc (liveSecrets secrets)) : Scrubbed sha256 doc secrets := by
  have hfree : ∀ s ∈ doc.strings, Spared (liveSecrets secrets) (scrubText sha256 _ s) ∨
      ∀ x ∈ liveSecrets secrets, ¬ x <:+: scrubText sha256 (liveSecrets secrets) s := fun s hs =>
    scrubText_free ne_nil_of_mem_liveSecrets (h.strings s hs)
  refine ⟨fun secret hs hblank t ht hdigest => ?_, (keepsNames_iff hlive).mp h.keepsNames, ?_⟩
  · rw [scrubEvidence_value, if_neg hlive] at ht
    obtain ⟨s, hs', rfl⟩ := mem_strings_scrubValue ht
    rw [← Bool.not_eq_true, includes_iff]
    rcases hfree s hs' with hspared | hfree
    · rw [hspared.1] at hdigest
      cases hdigest
    · exact hfree secret (mem_liveSecrets.mpr ⟨hs, hblank⟩)
  · rw [scrubEvidence_value, if_neg hlive, scrubEvidence_value, if_neg hlive]
    exact scrubValue_scrubValue fun s hs => scrubText_eq_self (hfree s hs)

/-- Where no secret is found over an edge at its turn, only such documents are scrubbed. -/
theorem Apart.of_scrubbed (hlive : liveSecrets secrets ≠ [])
    (hturns : TurnsApart sha256 doc (liveSecrets secrets)) (h : Scrubbed sha256 doc secrets) :
    Apart sha256 doc (liveSecrets secrets) := by
  have hne : ∀ x ∈ liveSecrets secrets, x ≠ [] := ne_nil_of_mem_liveSecrets
  have hkeeps := (keepsNames_iff hlive).mpr h.kept
  have hvalue := scrubEvidence_value sha256 doc secrets
  rw [if_neg hlive] at hvalue
  refine ⟨fun s hs => ?_, fun members hobj => ?_, fun members hobj hproto => ?_⟩
  · by_cases hspared : Spared (liveSecrets secrets) s
    · exact Or.inl hspared
    have hturn := (hturns s hs).resolve_left hspared
    have htext : write (cutOut (redactionMarker sha256) (liveSecrets secrets) (plain s)) =
        scrubText sha256 (liveSecrets secrets) s := by
      rw [← writtenName_eq hne (Or.inr hturn), writtenName, if_neg hspared]
    -- a string with a marker is no digest
    have hfree : ∀ x ∈ liveSecrets secrets, ∀ r, Sum.inr r ∈ cutOut (redactionMarker sha256)
        (liveSecrets secrets) (plain s) → ¬ x <:+: scrubText sha256 (liveSecrets secrets) s := by
      intro x hx r hr
      have hguillemet : unit '«' ∈ r := forall_mark_cutOut (P := fun r => unit '«' ∈ r) hne
        (fun x _ => guillemet_mem_redactionMarker sha256 x)
        (fun x hx r => mem_replaceAll_of_mem (hne x hx) (guillemet_mem_redactionMarker sha256 x))
        (fun r hr => absurd hr mark_not_mem_plain) hr
      have hdigest : isHexDigest (scrubText sha256 (liveSecrets secrets) s) = false :=
        isHexDigest_of_guillemet (htext ▸ (isInfix_write_of_mem hr).subset hguillemet)
      obtain ⟨hsecret, hblank⟩ := mem_liveSecrets.mp hx
      have hmem := scrubText_mem_strings hkeeps hs
      rw [← includes_iff, h.removed x hsecret hblank _ (hvalue ▸ hmem) hdigest]
      exact Bool.false_ne_true
    refine Or.inr ⟨hturn, fun x hx hacross => ?_, fun x hx r hr hin => ?_⟩
    · have hin := hacross.isInfix
      obtain ⟨front, r, back, heq, -⟩ := hacross
      have hr := List.mem_append_right front (List.mem_cons_self (a := Sum.inr r) (l := back))
      exact hfree x hx r (heq ▸ hr) (htext ▸ hin)
    · exact hfree x hx r hr (htext ▸ hin.trans (isInfix_write_of_mem hr))
  · have hnodup := (hkeeps members hobj).1
    rw [keys_scrubMembers] at hnodup
    have hnames : (members.map fun m => writtenName sha256 (liveSecrets secrets) m.1) =
        members.map fun m => scrubText sha256 (liveSecrets secrets) m.1 :=
      List.map_congr_left fun m hm => writtenName_eq hne (hturns m.1 (name_mem_strings hobj hm))
    rw [hnames]
    exact hnodup
  · by_contra hnone
    push Not at hnone
    obtain ⟨m, hm, hname⟩ := List.mem_map.mp hproto
    have hfree : ∀ x ∈ liveSecrets secrets, ¬ x <:+: js "__proto__" := fun x hx hin =>
      hnone x hx (includes_iff.mpr hin)
    refine (hkeeps members hobj).2 ?_
    rw [keys_scrubMembers, List.mem_map]
    exact ⟨m, hm, (scrubText_eq_proto hne).mpr ⟨hname, hfree⟩⟩

/-- A secret without guillemets is found over no edge. -/
theorem turnsApart_of_no_guillemets
    (h : ∀ x ∈ liveSecrets secrets, unit '«' ∉ x ∧ unit '»' ∉ x) :
    TurnsApart sha256 doc (liveSecrets secrets) := fun s _ => Or.inr <|
  turnsClear_of_fenced ne_nil_of_mem_liveSecrets
    (fun x _ => fenced_redactionMarker sha256 x) h s

/-- A document that keeps markers and secrets apart is scrubbed as it should be, and no other is
where no secret is found over the edge of a marker at its turn, as where none has a guillemet. -/
theorem scrubEvidence_scrubbed (sha256 : Sha256) (doc : Json) (secrets : List JsString) :
    (Scrubbable sha256 doc secrets → Scrubbed sha256 doc secrets) ∧
      (TurnsApart sha256 doc (liveSecrets secrets) →
        (Scrubbed sha256 doc secrets → Scrubbable sha256 doc secrets)) ∧
      ((∀ x ∈ liveSecrets secrets, unit '«' ∉ x ∧ unit '»' ∉ x) →
        TurnsApart sha256 doc (liveSecrets secrets)) := by
  refine ⟨fun h => ?_, fun hturns h => ?_, turnsApart_of_no_guillemets⟩
  · by_cases hlive : liveSecrets secrets = []
    · exact scrubbed_of_no_live hlive
    · exact (h.resolve_left hlive).scrubbed hlive
  · by_cases hlive : liveSecrets secrets = []
    · exact Or.inl hlive
    · exact Or.inr (Apart.of_scrubbed hlive hturns h)

/-- The digest of `SESAME`. -/
def sesameDigest : Sha256 := fun _ =>
  #v[189, 159, 116, 174, 50, 82, 218, 142, 79, 239, 88, 224, 192, 10, 249, 33,
    144, 127, 112, 121, 118, 95, 228, 149, 76, 61, 67, 177, 148, 214, 239, 190]

/-- A secret of capital letters is in no marker. -/
theorem sesame_scrubbed : Scrubbed sesameDigest
    (.obj [(js "detail", .str (js "say SESAME twice: SESAME"))]) [js "SESAME"] := by
  refine (scrubEvidence_scrubbed _ _ _).1 (Or.inr ?_)
  have hlive : liveSecrets [js "SESAME"] = [js "SESAME"] := by decide
  rw [hlive]
  have hclear : ∀ s, Clear (redactionMarker sesameDigest) [js "SESAME"] s :=
    clear_of_no_word_in_mark (a := unit '«') (b := unit '»') (by decide)
      (fun x _ => fenced_redactionMarker sesameDigest x) (by decide) (by decide)
  refine ⟨fun s _ => Or.inr (hclear s), fun members hobj => ?_, fun members hobj => ?_⟩
  · cases hobj with
    | here => exact List.nodup_singleton _
    | member hm hin => rw [List.mem_singleton.mp hm] at hin; cases hin
  · cases hobj with
    | here => exact fun hproto => absurd hproto (by decide)
    | member hm hin => rw [List.mem_singleton.mp hm] at hin; cases hin

/-- The digest of `redacted`. -/
def redactedDigest : Sha256 := fun _ =>
  #v[182, 137, 25, 175, 240, 1, 216, 54, 98, 73, 64, 58, 37, 68, 251, 162,
    216, 51, 8, 79, 26, 210, 40, 57, 182, 49, 10, 173, 172, 182, 161, 56]

/-- The marker of the secret `redacted` has that secret in it. -/
theorem redacted_not_scrubbed : ¬ Scrubbed redactedDigest
    (.obj [(js "detail", .str (js "redacted"))]) [js "redacted"] := by
  intro h
  have hvalue : (scrubEvidence redactedDigest (.obj [(js "detail", .str (js "redacted"))])
      [js "redacted"]).value = .obj [(js "detail", .str (js "«redacted:b68919aff001»"))] := by
    decide
  have hfound : includes (js "«redacted:b68919aff001»") (js "redacted") = true := by decide
  have hleft := h.removed (js "redacted") (List.mem_singleton_self _) (by decide)
    (js "«redacted:b68919aff001»")
  rw [hvalue, hfound] at hleft
  exact Bool.noConfusion (hleft (by decide) (by decide))

end Documents

end OpenWop.Evidence
