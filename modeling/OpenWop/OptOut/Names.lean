import OpenWop.Certification.Derive

/-!
# The opt-outs a bundle's rows name

A skipped row carries the name of an operator opt-out in its detail, behind the name of the
environment variable; a gate's own row carries it in its id. The verifier collects the names
of all skipped rows and refuses a discovery document that advertises one of them.
-/

namespace OpenWop.OptOut

open OpenWop.Js OpenWop.Ledger OpenWop.Certification

section Text

/-- `[a-z]`. -/
def isLowerCase (u : UInt16) : Bool := unit 'a' ≤ u && u ≤ unit 'z'

/-- `[A-Za-z0-9_.-]`. -/
def isNameUnit (u : UInt16) : Bool :=
  isLowerCase u || (unit 'A' ≤ u && u ≤ unit 'Z') || (unit '0' ≤ u && u ≤ unit '9') ||
    u = unit '_' || u = unit '.' || u = unit '-'

/-- The text before a name. -/
def optOutMarker : JsString := js "OPENWOP_OPTED_OUT_PROFILES: "

/-- The match of `OPT_OUT_DETAIL` at the start of a text, as its group. -/
def nameAfterMarker (s : JsString) : Option JsString :=
  if startsWith s optOutMarker then
    match s.drop optOutMarker.length with
    | [] => none
    | u :: t => if isLowerCase u then some (u :: t.takeWhile isNameUnit) else none
  else none

/-- `OPT_OUT_DETAIL.exec(d)`: the group of the first match. -/
def optOutDetail : JsString → Option JsString
  | [] => none
  | u :: s => (nameAfterMarker (u :: s)).or (optOutDetail s)

/-- A name that `OPT_OUT_DETAIL` reads whole. -/
def IsOptOutName (name : JsString) : Prop :=
  ∃ u t, name = u :: t ∧ isLowerCase u = true ∧ ∀ v ∈ t, isNameUnit v = true

/-- The text goes on with something no name contains, if it goes on. -/
def EndsName (s : JsString) : Prop := ∀ u ∈ s.head?, isNameUnit u = false

/-- A marker begins with a capital letter. -/
theorem nameAfterMarker_of_ne {u : UInt16} (hu : u ≠ unit 'O') (s : JsString) :
    nameAfterMarker (u :: s) = none := by
  have hs : startsWith (u :: s) optOutMarker = false := by
    rw [Bool.eq_false_iff, Ne, startsWith_iff]
    intro h
    obtain ⟨t, ht⟩ := h
    have hm : optOutMarker = unit 'O' :: optOutMarker.tail := by decide
    rw [hm, List.cons_append, List.cons.injEq] at ht
    exact hu ht.1.symm
  simp [nameAfterMarker, hs]

/-- A text without that letter matches nowhere. -/
theorem optOutDetail_append {p : JsString} (hp : unit 'O' ∉ p) (s : JsString) :
    optOutDetail (p ++ s) = optOutDetail s := by
  induction p with
  | nil => rfl
  | cons u p ih =>
    rw [List.mem_cons, not_or] at hp
    rw [List.cons_append, optOutDetail, nameAfterMarker_of_ne (Ne.symm hp.1), Option.none_or,
      ih hp.2]

theorem takeWhile_name {t s : JsString} (ht : ∀ v ∈ t, isNameUnit v = true) (hs : EndsName s) :
    (t ++ s).takeWhile isNameUnit = t := by
  rw [List.takeWhile_append_of_pos ht]
  rcases s with _ | ⟨u, s⟩
  · simp
  · have hu : isNameUnit u = false := hs u rfl
    simp [hu]

/-- A name behind the marker is read whole. -/
theorem optOutDetail_marker {name s : JsString} (hn : IsOptOutName name) (hs : EndsName s) :
    optOutDetail (optOutMarker ++ name ++ s) = some name := by
  obtain ⟨u, t, rfl, hu, ht⟩ := hn
  have hm : optOutMarker = unit 'O' :: optOutMarker.tail := by decide
  have hw : startsWith (optOutMarker ++ (u :: t) ++ s) optOutMarker = true := by
    rw [startsWith_iff, List.append_assoc]
    exact List.prefix_append ..
  have hn : nameAfterMarker (optOutMarker ++ (u :: t) ++ s) = some (u :: t) := by
    rw [nameAfterMarker, if_pos hw, List.append_assoc, List.drop_left]
    simp [hu, takeWhile_name ht hs]
  rw [hm, List.cons_append, List.cons_append, optOutDetail, ← List.cons_append,
    ← List.cons_append, ← hm, hn, Option.some_or]

end Text

section Rows

/-- What the verifier reads of a bundle's row. -/
structure BundleRow where
  id : JsString
  result : Disposition
  detail : Option JsString
  deriving DecidableEq, Repr

/-- The bundle row of a derived requirement. -/
def bundleRow (r : DerivedRequirement) : BundleRow := ⟨r.requirementId, r.disposition, r.detail⟩

/-- `OPT_OUT_ROW`. -/
def optOutRow : JsString := js "openwop.profile."

/-- The names one row gives. -/
def namesOfRow (r : BundleRow) : List JsString :=
  if r.result ≠ .skipped then []
  else
    let d := r.detail.getD []
    (if startsWith r.id optOutRow ∧ includes d (js "OPENWOP_OPTED_OUT_PROFILES") then
      [r.id.drop optOutRow.length] else []) ++ (optOutDetail d).toList

/-- `optedOutFromRows`. -/
def optedOutFromRows (rows : List BundleRow) : List JsString :=
  sortBy codeUnitOrder (uniq (rows.flatMap namesOfRow))

theorem mem_optedOutFromRows {rows : List BundleRow} {name : JsString} :
    name ∈ optedOutFromRows rows ↔ ∃ r ∈ rows, name ∈ namesOfRow r := by
  rw [optedOutFromRows, mem_sortBy, mem_uniq, List.mem_flatMap]

/-- A skipped row gives the name its detail has. -/
theorem mem_namesOfRow {r : BundleRow} {name d : JsString} (hr : r.result = .skipped)
    (hd : r.detail = some d) (h : optOutDetail d = some name) : name ∈ namesOfRow r := by
  simp [namesOfRow, hr, hd, h]

end Rows

section Verifier

/-- A refusal of the verifier. -/
structure Rejection where
  kind : JsString
  detail : JsString
  deriving DecidableEq, Repr

/-- `root[key]` is an object. Without a member of that name, `__proto__` is one too. -/
def isFamily (document : Json) (key : JsString) : Bool :=
  match document.member? key with
  | some (.obj _) => true
  | some _ => false
  | none => key = js "__proto__"

/-- The document advertises a profile or a family. -/
def isAdvertised (derivable : JsString → Bool) (document : Json) (name : JsString) : Bool :=
  if startsWith name (js "family.") then isFamily document (name.drop (js "family.").length)
  else derivable name

/-- The refusal of an opt-out that the document advertises. -/
def advertisedOptOut (name : JsString) : Rejection where
  kind := js "opted-out-but-advertised"
  detail := name ++ js " is recorded as an operator opt-out, but the captured discovery document " ++
    js "advertises it — a host MUST NOT both advertise and opt out of the same profile " ++
    js "(RFC 0148 §B)"

/-- The refusals `verifyBundleV3` adds for opt-outs, once it has a document whose digest is the
signed one and a catalog that decides what it derives. -/
def optOutRejections (derivable : JsString → Bool) (document : Json) (rows : List BundleRow) :
    List Rejection :=
  ((optedOutFromRows rows).filter (isAdvertised derivable document)).map advertisedOptOut

/-- A row's name is refused when it is advertised. -/
theorem mem_optOutRejections {derivable : JsString → Bool} {document : Json}
    {rows : List BundleRow} {name : JsString} (hn : name ∈ optedOutFromRows rows)
    (ha : isAdvertised derivable document name = true) :
    advertisedOptOut name ∈ optOutRejections derivable document rows :=
  List.mem_map_of_mem (List.mem_filter.mpr ⟨hn, ha⟩)

end Verifier

end OpenWop.OptOut
