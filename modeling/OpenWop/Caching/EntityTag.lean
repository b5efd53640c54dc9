import OpenWop.Js.Text
import OpenWop.Js.Record

/-!
# Entity tags

A host answers a conditional request by comparing the listed tags weakly with the tag of the
representation that is current at that request.
-/

namespace OpenWop.Caching

open OpenWop.Js

section Tags

/-- A unit that may stand between the quotes of an entity tag. -/
def isEtagUnit (u : UInt16) : Bool := u = 0x21 || (0x23 ≤ u && u ≤ 0x7e) || (0x80 ≤ u && u ≤ 0xff)

/-- An entity tag. -/
structure EntityTag where
  weak : Bool
  value : JsString
  valid : value.all isEtagUnit = true
  deriving DecidableEq

/-- The opaque part of a tag, with its quotes. -/
def EntityTag.quoted (t : EntityTag) : JsString := unit '"' :: (t.value ++ [unit '"'])

/-- The tag as it stands in a header. -/
def EntityTag.text (t : EntityTag) : JsString := if t.weak then js "W/" ++ t.quoted else t.quoted

/-- A quoted text read from the front of a text, with the rest. -/
def readQuoted : JsString → Option (JsString × JsString)
  | [] => none
  | u :: s =>
    if u = unit '"' then
      match s.dropWhile (· ≠ unit '"') with
      | [] => none
      | _ :: after => some (s.takeWhile (· ≠ unit '"'), after)
    else none

/-- A tag read from the front of a text, with the rest. -/
def readTag (s : JsString) : Option (EntityTag × JsString) :=
  let weak := startsWith s (js "W/")
  (readQuoted (if weak then s.drop 2 else s)).bind fun r =>
    if h : r.1.all isEtagUnit = true then some (⟨weak, r.1, h⟩, r.2) else none

/-- The tags of a list, read up to the first text that is none; so many at most. -/
def readTags : Nat → JsString → List EntityTag
  | 0, _ => []
  | fuel + 1, s =>
    match readTag s with
    | none => []
    | some (t, after) =>
      match after with
      | [] => [t]
      | u :: rest =>
        if u = unit ',' then
          t :: readTags fuel (rest.dropWhile fun u => u = unit ' ' || u = 9)
        else [t]

/-- `If-None-Match` is false for a representation of that tag: a listed tag agrees with it in the
weak comparison, or the header is `*`. -/
def noneMatchFails (header : JsString) (tag : EntityTag) : Bool :=
  header = js "*" || (readTags header.length header).any fun t => t.value = tag.value

end Tags

section Host

/-- A representation, as far as its headers tell. -/
structure Representation where
  tag : EntityTag
  vary : Option JsString
  length : Nat
  deriving DecidableEq

/-- What the resource is at a request. -/
inductive Current where
  | available (r : Representation)
  /-- The resource answers another status, whatever the condition. -/
  | unavailable (status : Nat) (h : status ≠ 200 ∧ status ≠ 304)
  deriving DecidableEq

/-- `OpenWOPResponse`, as far as the witness reads it. -/
structure Response where
  status : Nat
  etag : Option JsString
  vary : Option JsString
  length : Nat
  deriving DecidableEq

/-- The headers of a request. -/
abbrev Headers := Record JsString JsString

/-- What a conforming host answers. -/
def answer (current : Current) (headers : Headers) : Response :=
  match current with
  | .unavailable status _ => { status := status, etag := none, vary := none, length := 0 }
  | .available r =>
    if (Record.get? headers (js "If-None-Match")).any fun header => noneMatchFails header r.tag then
      { status := 304, etag := some r.tag.text, vary := r.vary, length := 0 }
    else { status := 200, etag := some r.tag.text, vary := r.vary, length := r.length }

/-- What the resource is at each request; none where the request could not be made. -/
abbrev History := Nat → Option Current

/-- Sends the request of that number; none when it could not be made. -/
abbrev Get := Nat → Headers → Option Response

/-- The conforming host of a history. -/
def serve (history : History) : Get := fun i headers => (history i).map fun c => answer c headers

end Host

section Reading

theorem EntityTag.ne_quote (t : EntityTag) {u : UInt16} (h : u ∈ t.value) : u ≠ unit '"' := by
  rintro rfl
  exact absurd (List.all_eq_true.mp t.valid _ h) (by decide)

theorem readQuoted_quoted (t : EntityTag) (after : JsString) :
    readQuoted (t.quoted ++ after) = some (t.value, after) := by
  have hunit : ∀ u ∈ t.value, decide (u ≠ unit '"') = true := fun u hu =>
    decide_eq_true (t.ne_quote hu)
  have htext : t.quoted ++ after = unit '"' :: (t.value ++ unit '"' :: after) := by
    simp [EntityTag.quoted]
  rw [htext, readQuoted, if_pos rfl, List.dropWhile_append_of_pos hunit,
    List.takeWhile_append_of_pos hunit, List.dropWhile_cons_of_neg (by simp),
    List.takeWhile_cons_of_neg (by simp), List.append_nil]

/-- A tag is read off the front of a text. -/
theorem readTag_text (t : EntityTag) (after : JsString) :
    readTag (t.text ++ after) = some (t, after) := by
  rw [EntityTag.text]
  split
  · next hweak =>
    have hstarts : startsWith (js "W/" ++ t.quoted ++ after) (js "W/") = true :=
      startsWith_iff.mpr (by rw [List.append_assoc]; exact List.prefix_append _ _)
    have hdrop : (js "W/" ++ t.quoted ++ after).drop 2 = t.quoted ++ after := rfl
    rw [readTag, hstarts, if_pos rfl, hdrop, readQuoted_quoted, Option.bind_some, dif_pos t.valid,
      ← hweak]
  · next hstrong =>
    have hstarts : startsWith (t.quoted ++ after) (js "W/") = false := by
      have hw : js "W/" = [unit 'W', unit '/'] := by decide
      have hne : (unit 'W' == unit '"') = false := by decide
      rw [startsWith, hw, EntityTag.quoted, List.cons_append, List.isPrefixOf, hne, Bool.false_and]
    rw [readTag, hstarts, if_neg Bool.false_ne_true, readQuoted_quoted, Option.bind_some,
      dif_pos t.valid, ← Bool.eq_false_iff.mpr hstrong]

/-- A tag begins with no blank. -/
theorem EntityTag.exists_head (t : EntityTag) :
    ∃ u s, t.text = u :: s ∧ ¬ (u = unit ' ' ∨ u = 9) := by
  rw [text]
  split
  · exact ⟨unit 'W', unit '/' :: t.quoted, rfl, by decide⟩
  · exact ⟨unit '"', t.value ++ [unit '"'], rfl, by decide⟩

theorem join_cons_cons (separator s s' : JsString) (parts : List JsString) :
    join separator (s :: s' :: parts) = s ++ separator ++ join separator (s' :: parts) := rfl

theorem exists_join_text (t : EntityTag) (ts : List EntityTag) :
    ∃ u s, join (js ", ") ((t :: ts).map EntityTag.text) = u :: s ∧ ¬ (u = unit ' ' ∨ u = 9) := by
  obtain ⟨u, s, htext, hu⟩ := t.exists_head
  cases ts with
  | nil => exact ⟨u, s, htext, hu⟩
  | cons next ts =>
    refine ⟨u, s ++ js ", " ++ join (js ", ") ((next :: ts).map EntityTag.text), ?_, hu⟩
    rw [List.map_cons, List.map_cons, join_cons_cons, htext]
    rfl

/-- The tags of a list as it is written: separated by a comma and a blank. -/
theorem readTags_join (t : EntityTag) (ts : List EntityTag) {fuel : Nat} (h : ts.length < fuel) :
    readTags fuel (join (js ", ") ((t :: ts).map EntityTag.text)) = t :: ts := by
  induction ts generalizing t fuel with
  | nil =>
    obtain ⟨fuel, rfl⟩ := Nat.exists_eq_succ_of_ne_zero (Nat.ne_of_gt h)
    have hread := readTag_text t []
    rw [List.append_nil] at hread
    rw [List.map_singleton, join, readTags, hread]
  | cons next ts ih =>
    obtain ⟨fuel, rfl⟩ := Nat.exists_eq_succ_of_ne_zero (Nat.ne_of_gt (Nat.zero_lt_of_lt h))
    obtain ⟨u, s, hjoin, hu⟩ := exists_join_text next ts
    have hread := readTag_text t (js ", " ++ join (js ", ") ((next :: ts).map EntityTag.text))
    have hseparator : js ", " = [unit ',', unit ' '] := by decide
    have hlist : join (js ", ") ((t :: next :: ts).map EntityTag.text) =
        t.text ++ (js ", " ++ join (js ", ") ((next :: ts).map EntityTag.text)) := by
      rw [List.map_cons, List.map_cons, join_cons_cons, List.append_assoc]
    have hdrop : (unit ' ' :: join (js ", ") ((next :: ts).map EntityTag.text)).dropWhile
        (fun u => u = unit ' ' || u = 9) = join (js ", ") ((next :: ts).map EntityTag.text) := by
      rw [hjoin, List.dropWhile_cons_of_pos (by simp),
        List.dropWhile_cons_of_neg (by simpa using hu)]
    rw [hlist, readTags, hread, hseparator]
    simp only [List.cons_append, List.nil_append, if_true]
    rw [hseparator] at hdrop ih
    rw [hdrop, ih next (by simpa using h)]

theorem length_join_text (t : EntityTag) (ts : List EntityTag) :
    ts.length < (join (js ", ") ((t :: ts).map EntityTag.text)).length := by
  induction ts generalizing t with
  | nil =>
    obtain ⟨u, s, htext, _⟩ := t.exists_head
    simp [join, htext]
  | cons next ts ih =>
    obtain ⟨u, s, htext, _⟩ := t.exists_head
    have hnext := ih next
    rw [List.map_cons] at hnext
    rw [List.map_cons, List.map_cons, join_cons_cons, List.length_append, List.length_append, htext]
    simp only [List.length_cons]
    omega

/-- A listed tag fails the condition exactly for the representations that agree with it. -/
theorem noneMatchFails_join (t : EntityTag) (ts : List EntityTag) (tag : EntityTag) :
    noneMatchFails (join (js ", ") ((t :: ts).map EntityTag.text)) tag =
      (t :: ts).any fun t => t.value = tag.value := by
  have hstar : join (js ", ") ((t :: ts).map EntityTag.text) ≠ js "*" := by
    intro h
    have hread := readTags_join t ts (length_join_text t ts)
    have hnone : readTags (js "*").length (js "*") = [] := by decide
    rw [h, hnone] at hread
    cases hread
  rw [noneMatchFails, readTags_join t ts (length_join_text t ts), decide_eq_false hstar,
    Bool.false_or]

theorem noneMatchFails_text (t tag : EntityTag) :
    noneMatchFails t.text tag = decide (t.value = tag.value) := by
  have h := noneMatchFails_join t [] tag
  rwa [List.map_singleton, join, List.any_cons, List.any_nil, Bool.or_false] at h

end Reading

end OpenWop.Caching
