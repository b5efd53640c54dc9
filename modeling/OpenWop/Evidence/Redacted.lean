import OpenWop.Core.Redaction
import OpenWop.Evidence.Scrub

/-!
# What scrubbing leaves

Every string is scrubbed by itself: it is spared, or the secrets are replaced in it one after the
other. An object is filled again under the scrubbed names. So the scrubbed document is free of the
secrets where every string is, and no member is lost where the scrubbed names of an object differ.
-/

namespace OpenWop.Evidence

open OpenWop.Js OpenWop.Audit OpenWop.Replace OpenWop.Redaction

section Secrets

theorem mem_liveSecrets {secrets : List JsString} {s : JsString} :
    s ∈ liveSecrets secrets ↔ s ∈ secrets ∧ trim s ≠ [] := by
  rw [liveSecrets, mem_sortBy, mem_uniq, List.mem_filter, decide_eq_true_eq]

/-- A secret that is looked for is not empty. -/
theorem ne_nil_of_mem_liveSecrets {secrets : List JsString} :
    ∀ s ∈ liveSecrets secrets, s ≠ [] := by
  rintro s hs rfl
  exact (mem_liveSecrets.mp hs).2 rfl

variable (sha256 : Sha256)

/-- A marker stands in guillemets. -/
theorem fenced_redactionMarker (secret : JsString) :
    Fenced (unit '«') (unit '»') (redactionMarker sha256 secret) :=
  ⟨js "redacted:" ++ slice (sha256Hex sha256 secret) 0 12, by
    rw [redactionMarker, List.append_assoc]
    rfl⟩

theorem guillemet_mem_redactionMarker (secret : JsString) :
    unit '«' ∈ redactionMarker sha256 secret := by
  obtain ⟨inner, heq⟩ := fenced_redactionMarker sha256 secret
  rw [heq]
  exact List.mem_append_left _ (List.mem_singleton_self _)

end Secrets

section Strings

variable {sha256 : Sha256} {live : List JsString}

/-- The string is a digest as a whole, and no secret itself. -/
def Spared (live : List JsString) (s : JsString) : Prop := isHexDigest s = true ∧ s ∉ live

instance (live : List JsString) (s : JsString) : Decidable (Spared live s) :=
  inferInstanceAs (Decidable (_ ∧ _))

/-- The string as the loop over the secrets leaves it. -/
def scrubText (sha256 : Sha256) (live : List JsString) (s : JsString) : JsString :=
  if Spared live s then s else replaceEach (redactionMarker sha256) live s

theorem foldl_scrubSecret (s : JsString) (hit : Bool) :
    (live.foldl (scrubSecret sha256) (s, hit)).1 =
      replaceEach (redactionMarker sha256) live s := by
  induction live generalizing s hit with
  | nil => rfl
  | cons secret live ih =>
    rw [List.foldl_cons, replaceEach_cons, scrubSecret]
    split
    · rw [ih, join_pieces secret (redactionMarker sha256 secret) [] s 0]
      rfl
    · next h =>
      rw [includes_iff] at h
      rw [ih, replaceAll_of_not_isInfix h]

theorem scrubString_fst (path s : JsString) :
    (scrubString sha256 live path s).1 = scrubText sha256 live s := by
  by_cases h : isHexDigest s = true ∧ s ∉ live
  · have hs : Spared live s := h
    rw [scrubString, scrubText, if_pos h, if_pos hs]
  · have hs : ¬ Spared live s := h
    rw [scrubString, scrubText, if_neg h, if_neg hs]
    exact foldl_scrubSecret s false

/-- A string without secrets is left as it is. -/
theorem scrubText_of_free {s : JsString} (h : ∀ x ∈ live, ¬ x <:+: s) :
    scrubText sha256 live s = s := by
  rw [scrubText, replaceEach_of_free h, ite_self]

/-- A string with a secret that is not spared gets a marker. -/
theorem guillemet_mem_scrubText {s x : JsString} (hlive : ∀ x ∈ live, x ≠ []) (hs : ¬ Spared live s)
    (hx : x ∈ live) (h : x <:+: s) : unit '«' ∈ scrubText sha256 live s := by
  rw [scrubText, if_neg hs]
  exact mem_replaceEach_of_isInfix hlive (fun x _ => guillemet_mem_redactionMarker sha256 x) hx h

end Strings

section Values

variable (sha256 : Sha256) (live : List JsString)

mutual

/-- The document as `walk` leaves it. -/
def scrubValue : Json → Json
  | .str s => .str (scrubText sha256 live s)
  | .arr items => .arr (scrubItems items)
  | .obj members => .obj (assignAll (scrubMembers members))
  | v => v

def scrubItems : List Json → List Json
  | [] => []
  | v :: items => scrubValue v :: scrubItems items

/-- The members as they are assigned. -/
def scrubMembers : List (JsString × Json) → List (JsString × Json)
  | [] => []
  | (k, v) :: members => (scrubText sha256 live k, scrubValue v) :: scrubMembers members

end

theorem scrubItems_eq (items : List Json) :
    scrubItems sha256 live items = items.map (scrubValue sha256 live) := by
  induction items with
  | nil => rfl
  | cons v items ih => rw [scrubItems, ih, List.map_cons]

theorem scrubMembers_eq (members : List (JsString × Json)) : scrubMembers sha256 live members =
    members.map fun m => (scrubText sha256 live m.1, scrubValue sha256 live m.2) := by
  induction members with
  | nil => rfl
  | cons m members ih => rw [scrubMembers, ih, List.map_cons]

/-- The path only matters for what is reported. -/
theorem walk_fst (path : JsString) (v : Json) :
    (walk sha256 live path v).1 = scrubValue sha256 live v := by
  induction v generalizing path with
  | null => rfl
  | bool b => rfl
  | num n => rfl
  | str s =>
    rw [walk, scrubValue]
    exact congrArg Json.str (scrubString_fst path s)
  | arr items ih =>
    rw [walk, scrubValue]
    suffices ∀ i, (walkItems sha256 live path i items).1 = scrubItems sha256 live items
      from congrArg Json.arr (this 0)
    induction items with
    | nil => exact fun _ => rfl
    | cons x items ih' =>
      intro i
      rw [walkItems, scrubItems]
      exact congrArg₂ List.cons (ih x (List.mem_cons_self ..) _)
        (ih' (fun v hv => ih v (List.mem_cons_of_mem x hv)) (i + 1))
  | obj members ih =>
    rw [walk, scrubValue]
    suffices ∀ out, (walkMembers sha256 live path out members).1 =
        (scrubMembers sha256 live members).foldl (fun out m => assign out m.1 m.2) out
      from congrArg Json.obj (this [])
    induction members with
    | nil => exact fun _ => rfl
    | cons m members ih' =>
      intro out
      obtain ⟨k, x⟩ := m
      have hx := ih (k, x) (List.mem_cons_self ..) (path ++ (js "." ++ k))
      have hrest := ih' fun m hm => ih m (List.mem_cons_of_mem _ hm)
      rw [walkMembers, scrubMembers, List.foldl_cons]
      dsimp only
      rw [hrest, scrubString_fst, hx]

/-- `scrubEvidence` with no live secret changes nothing. -/
theorem scrubEvidence_value (v : Json) (secrets : List JsString) :
    (scrubEvidence sha256 v secrets).value =
      if liveSecrets secrets = [] then v else scrubValue sha256 (liveSecrets secrets) v := by
  rw [scrubEvidence]
  split
  · rfl
  · exact walk_fst sha256 _ _ v

end Values

end OpenWop.Evidence
