import Mathlib.Data.Multiset.OrderedMonoid
import OpenWop.Js.Json

/-!
# Re-fired attempts of a replay fork

`refiredAttempts` matches the rows of a fork's effect ledger against the parent's by a key, the
texts of the node, the attempt and the instant joined by bars. Each parent row covers one fork row
of its key. Two different triples can have one key: a bar inside a text, or a number and the string
that reads like it. `String` throws for an object with a `toString` of its own.
-/

namespace OpenWop.Replay

open OpenWop.Js

section Rows

mutual

/-- `String(v)`, or nothing where it throws. -/
def stringOf : Json → Option JsString
  | .arr items => (itemStrings items).map (join (js ","))
  | .obj members =>
    if js "toString" ∈ Record.keys members then none else some (js "[object Object]")
  | v => some v.text

/-- The texts a joined array has; `null` reads as nothing. -/
def itemStrings : List Json → Option (List JsString)
  | [] => some []
  | .null :: vs => (itemStrings vs).map ([] :: ·)
  | v :: vs => do
    let s ← stringOf v
    let rest ← itemStrings vs
    some (s :: rest)

end

/-- `EffectRow`: what the matching reads of a row. -/
structure EffectRow where
  nodeId : Option Json
  attempt : Option Json
  /-- `at`. -/
  instant : Option Json
  deriving DecidableEq, Repr

/-- `String(v)` of a member that may be undefined. -/
def memberString : Option Json → Option JsString
  | none => some (js "undefined")
  | some v => stringOf v

/-- `key`. -/
def key (r : EffectRow) : Option JsString := do
  let nodeId ← memberString r.nodeId
  let attempt ← memberString r.attempt
  let instant ← memberString r.instant
  some (nodeId ++ js "|" ++ attempt ++ js "|" ++ instant)

/-- `available.set(key(r), (available.get(key(r)) ?? 0) + 1)`. -/
def count (available : Map JsString Nat) (r : EffectRow) : Option (Map JsString Nat) := do
  let k ← key r
  some (available.set k ((available.get? k).getD 0 + 1))

/-- The second loop: the fork rows that no available row covers. -/
def uncovered : Map JsString Nat → List EffectRow → Option (List EffectRow)
  | _, [] => some []
  | available, r :: fork => do
    let k ← key r
    let n := (available.get? k).getD 0
    if n > 0 then uncovered (available.set k (n - 1)) fork
    else (uncovered available fork).map (r :: ·)

/-- `refiredAttempts`, or nothing where it throws. -/
def refiredAttempts (parent fork : List EffectRow) : Option (List EffectRow) := do
  let available ← parent.foldlM count Map.empty
  uncovered available fork

end Rows

section Matching

/-- The rows of a key. -/
def named (k : JsString) (rows : List EffectRow) : List EffectRow :=
  rows.filter fun r => key r = some k

variable {available available' : Map JsString Nat} {parent fork out : List EffectRow} {k : JsString}
  {r : EffectRow}

theorem mem_named : r ∈ named k fork ↔ r ∈ fork ∧ key r = some k := by
  simp [named]

theorem named_cons_of_eq (h : key r = some k) (rows : List EffectRow) :
    named k (r :: rows) = r :: named k rows :=
  List.filter_cons_of_pos (by simpa using h)

theorem named_cons_of_ne (h : key r ≠ some k) (rows : List EffectRow) :
    named k (r :: rows) = named k rows :=
  List.filter_cons_of_neg (by simpa using h)

/-- After the first loop every key is available as often as it was counted. -/
theorem get?_foldlM_count (h : parent.foldlM count available = some available') (k : JsString) :
    (available'.get? k).getD 0 = (available.get? k).getD 0 + (named k parent).length := by
  induction parent generalizing available with
  | nil =>
    obtain rfl := Option.some.inj h
    rfl
  | cons r parent ih =>
    rw [List.foldlM_cons] at h
    obtain ⟨next, hnext, h⟩ := Option.bind_eq_some_iff.mp h
    obtain ⟨l, hl, hset⟩ := Option.bind_eq_some_iff.mp hnext
    obtain rfl := Option.some.inj hset
    rw [ih h, Map.get?_set]
    by_cases hk : k = l
    · subst hk
      rw [if_pos rfl, Option.getD_some, named_cons_of_eq hl, List.length_cons]
      omega
    · rw [if_neg hk, named_cons_of_ne (by simpa [hl] using Ne.symm hk)]

/-- The first loop ends when every key can be written. -/
theorem isSome_foldlM_count (h : ∀ r ∈ parent, (key r).isSome) (available : Map JsString Nat) :
    (parent.foldlM count available).isSome := by
  induction parent generalizing available with
  | nil => rfl
  | cons r parent ih =>
    obtain ⟨hr, h⟩ := List.forall_mem_cons.mp h
    obtain ⟨k, hk⟩ := Option.isSome_iff_exists.mp hr
    rw [List.foldlM_cons, count, hk]
    exact ih h _

theorem isSome_of_foldlM_count (h : (parent.foldlM count available).isSome) :
    ∀ r ∈ parent, (key r).isSome := by
  induction parent generalizing available with
  | nil => exact fun r hr => by cases hr
  | cons r parent ih =>
    rw [List.foldlM_cons, count] at h
    cases hk : key r with
    | none => simp [hk] at h
    | some k =>
      rw [hk] at h
      exact List.forall_mem_cons.mpr ⟨by simp [hk], ih h⟩

/-- Of each key the second loop drops as many rows as are available. -/
theorem named_uncovered (h : uncovered available fork = some out) (k : JsString) :
    named k out = (named k fork).drop ((available.get? k).getD 0) := by
  induction fork generalizing available out with
  | nil =>
    obtain rfl := Option.some.inj h
    simp [named]
  | cons r fork ih =>
    obtain ⟨l, hl, h⟩ := Option.bind_eq_some_iff.mp h
    dsimp only at h
    split at h
    · next hpos =>
      rw [ih h, Map.get?_set]
      by_cases hk : k = l
      · subst hk
        rw [if_pos rfl, Option.getD_some, named_cons_of_eq hl]
        obtain ⟨n, hn⟩ := Nat.exists_eq_add_of_lt hpos
        rw [hn, show 0 + n + 1 - 1 = n by omega, show 0 + n + 1 = n + 1 by omega,
          List.drop_succ_cons]
      · rw [if_neg hk, named_cons_of_ne (by simpa [hl] using Ne.symm hk)]
    · next hzero =>
      obtain ⟨rest, hrest, rfl⟩ := Option.map_eq_some_iff.mp h
      by_cases hk : k = l
      · subst hk
        have hn : (available.get? k).getD 0 = 0 := by omega
        rw [named_cons_of_eq hl, named_cons_of_eq hl, ih hrest, hn, List.drop_zero, List.drop_zero]
      · have hne : key r ≠ some k := by simpa [hl] using Ne.symm hk
        rw [named_cons_of_ne hne, named_cons_of_ne hne, ih hrest]

theorem isSome_uncovered (h : ∀ r ∈ fork, (key r).isSome) (available : Map JsString Nat) :
    (uncovered available fork).isSome := by
  induction fork generalizing available with
  | nil => rfl
  | cons r fork ih =>
    obtain ⟨hr, h⟩ := List.forall_mem_cons.mp h
    obtain ⟨k, hk⟩ := Option.isSome_iff_exists.mp hr
    simp only [uncovered, hk, Option.bind_eq_bind, Option.bind_some]
    split
    · exact ih h _
    · simpa using ih h _

theorem isSome_of_uncovered (h : (uncovered available fork).isSome) :
    ∀ r ∈ fork, (key r).isSome := by
  induction fork generalizing available with
  | nil => exact fun r hr => by cases hr
  | cons r fork ih =>
    cases hk : key r with
    | none => simp [uncovered, hk] at h
    | some k =>
      simp only [uncovered, hk, Option.bind_eq_bind, Option.bind_some] at h
      refine List.forall_mem_cons.mpr ⟨by simp [hk], ?_⟩
      split at h
      · exact ih h
      · exact ih (by simpa using h)

/-- The matching ends exactly when the key of every row can be written. -/
theorem isSome_refiredAttempts_iff : (refiredAttempts parent fork).isSome ↔
    ∀ r ∈ parent ++ fork, (key r).isSome := by
  rw [List.forall_mem_append, refiredAttempts]
  constructor
  · intro h
    cases hparent : parent.foldlM count Map.empty with
    | none => simp [hparent] at h
    | some available =>
      rw [hparent] at h
      exact ⟨isSome_of_foldlM_count (by rw [hparent]; rfl), isSome_of_uncovered h⟩
  · rintro ⟨hparent, hfork⟩
    obtain ⟨available, hsome⟩ := Option.isSome_iff_exists.mp
      (isSome_foldlM_count hparent Map.empty)
    rw [hsome]
    exact isSome_uncovered hfork available

/-- Of each key the fork rows after the first ones are reported, as many left out as the parent
has. -/
theorem named_refiredAttempts (h : refiredAttempts parent fork = some out) (k : JsString) :
    named k out = (named k fork).drop (named k parent).length := by
  obtain ⟨available, hcount, h⟩ := Option.bind_eq_some_iff.mp h
  rw [named_uncovered h, get?_foldlM_count hcount]
  simp

theorem sublist_of_uncovered (h : uncovered available fork = some out) : out.Sublist fork := by
  induction fork generalizing available out with
  | nil =>
    obtain rfl := Option.some.inj h
    exact List.Sublist.refl _
  | cons r fork ih =>
    obtain ⟨l, -, h⟩ := Option.bind_eq_some_iff.mp h
    dsimp only at h
    split at h
    · exact (ih h).cons r
    · obtain ⟨rest, hrest, rfl⟩ := Option.map_eq_some_iff.mp h
      exact (ih hrest).cons_cons r

/-- Only rows of the fork are reported. -/
theorem mem_of_mem_refiredAttempts (h : refiredAttempts parent fork = some out) (hr : r ∈ out) :
    r ∈ fork := by
  obtain ⟨available, -, h⟩ := Option.bind_eq_some_iff.mp h
  exact (sublist_of_uncovered h).subset hr

/-- How often a triple is reported. -/
theorem count_refiredAttempts (h : refiredAttempts parent fork = some out) (hk : key r = some k) :
    out.count r = ((named k fork).drop (named k parent).length).count r := by
  rw [← named_refiredAttempts h, named, List.count_filter (by simpa using hk)]

end Matching

section Difference

/-- The reported rows are the fork's less the parent's, triple by triple. -/
structure ByTriple (parent fork : List EffectRow) : Prop where
  /-- Whatever the order of the lists, the multiset difference is reported. -/
  difference : ∀ parent' fork', parent'.Perm parent → fork'.Perm fork →
    ∃ out, refiredAttempts parent' fork' = some out ∧
      (out : Multiset EffectRow) = (fork : Multiset EffectRow) - (parent : Multiset EffectRow)
  /-- Nothing is reported when no triple occurs more often in the fork. -/
  nothing : refiredAttempts parent fork = some [] ↔ ∀ r, fork.count r ≤ parent.count r
  /-- The order of the lists does not change how many rows are reported. -/
  ordered : ∀ parent' fork', parent'.Perm parent → fork'.Perm fork →
    (refiredAttempts parent' fork').map List.length = (refiredAttempts parent fork).map List.length
  /-- An attempt the parent never made is reported. -/
  unmade : ∀ r ∈ fork, r ∉ parent → ∃ out, refiredAttempts parent fork = some out ∧ r ∈ out

/-- The keys tell the triples apart where it matters. -/
structure KeysTell (parent fork : List EffectRow) : Prop where
  /-- Every key can be written. -/
  written : ∀ r ∈ parent ++ fork, (key r).isSome
  /-- Of a key the parent has no row, or every triple of the fork as often, or there is one triple
  only. -/
  told : ∀ k, named k parent = [] ∨ (∀ r ∈ named k fork, fork.count r ≤ parent.count r) ∨
    ∃ t, ∀ r ∈ named k parent ++ named k fork, r = t

variable {parent parent' fork fork' out : List EffectRow} {k : JsString} {r : EffectRow}

theorem named_perm (h : fork'.Perm fork) (k : JsString) : (named k fork').Perm (named k fork) :=
  h.filter _

theorem named_append (k : JsString) (rows rows' : List EffectRow) :
    named k (rows ++ rows') = named k rows ++ named k rows' := List.filter_append ..

theorem count_named (hk : key r = some k) (rows : List EffectRow) :
    (named k rows).count r = rows.count r :=
  List.count_filter (by simpa using hk)

theorem count_eq_zero_of_ne {t : EffectRow} {rows : List EffectRow} (h : ∀ r ∈ rows, r = t)
    (hne : r ≠ t) : rows.count r = 0 :=
  List.count_eq_zero.mpr fun hr => hne (h r hr)

/-- Where the keys tell, every triple is reported as often as the fork has it more. -/
theorem KeysTell.count_drop (h : KeysTell parent fork) (hfork : fork'.Perm fork)
    (hk : key r = some k) : ((named k fork').drop (named k parent).length).count r =
      fork.count r - parent.count r := by
  rw [← count_named hk fork, ← count_named hk parent]
  have hperm := named_perm hfork k
  rcases h.told k with hnone | hle | ⟨t, ht⟩
  · rw [hnone, List.length_nil, List.drop_zero, hperm.count_eq]
    simp
  · have hsub : (named k fork).Subperm (named k parent) := by
      refine List.subperm_ext_iff.mpr fun s hs => ?_
      have hks := (mem_named.mp hs).2
      rw [count_named hks, count_named hks]
      exact hle s hs
    have hlength := hsub.length_le
    rw [List.drop_eq_nil_of_le (by rw [hperm.length_eq]; exact hlength), List.count_nil]
    have hcount := hsub.count_le r
    omega
  · have hfork' : ∀ s ∈ named k fork', s = t := fun s hs =>
      ht s (List.mem_append_right _ (hperm.mem_iff.mp hs))
    by_cases hr : r = t
    · subst hr
      have hall (rows : List EffectRow) (hrows : ∀ s ∈ rows, s = r) :
          rows.count r = rows.length := List.count_eq_length.mpr fun s hs => (hrows s hs).symm
      rw [hall _ fun s hs => hfork' s (List.mem_of_mem_drop hs), List.length_drop,
        hperm.length_eq, hall _ fun s hs => ht s (List.mem_append_right _ hs),
        hall _ fun s hs => ht s (List.mem_append_left _ hs)]
    · rw [count_eq_zero_of_ne (fun s hs => hfork' s (List.mem_of_mem_drop hs)) hr,
        count_eq_zero_of_ne (fun s hs => ht s (List.mem_append_right _ hs)) hr, Nat.zero_sub]

/-- A row without a key is in neither list. -/
theorem KeysTell.count_of_none (h : KeysTell parent fork) (hk : key r = none) :
    fork.count r = 0 ∧ parent.count r = 0 := by
  constructor <;> refine List.count_eq_zero.mpr fun hr => ?_
  · simpa [hk] using h.written r (List.mem_append_right _ hr)
  · simpa [hk] using h.written r (List.mem_append_left _ hr)

theorem KeysTell.difference (h : KeysTell parent fork) (hparent : parent'.Perm parent)
    (hfork : fork'.Perm fork) : ∃ out, refiredAttempts parent' fork' = some out ∧
      (out : Multiset EffectRow) = (fork : Multiset EffectRow) - (parent : Multiset EffectRow) := by
  have hwritten : ∀ r ∈ parent' ++ fork', (key r).isSome := fun r hr =>
    h.written r ((hparent.append hfork).mem_iff.mp hr)
  obtain ⟨out, hout⟩ := Option.isSome_iff_exists.mp (isSome_refiredAttempts_iff.mpr hwritten)
  refine ⟨out, hout, Multiset.ext.mpr fun r => ?_⟩
  rw [Multiset.count_sub, Multiset.coe_count, Multiset.coe_count, Multiset.coe_count]
  cases hk : key r with
  | none =>
    obtain ⟨hfork0, -⟩ := h.count_of_none hk
    rw [hfork0, Nat.zero_sub, List.count_eq_zero]
    intro hr
    have hmem := mem_of_mem_refiredAttempts hout hr
    simpa [hk] using hwritten r (List.mem_append_right _ hmem)
  | some k =>
    rw [count_refiredAttempts hout hk, (named_perm hparent k).length_eq, h.count_drop hfork hk]

/-- Copies of a triple before others: the drop takes copies first. -/
theorem count_drop_append {same others : List EffectRow} (hsame : ∀ s ∈ same, s = r)
    (hothers : r ∉ others) (n : Nat) : ((same ++ others).drop n).count r = same.length - n := by
  have hcount : (same.drop n).count r = (same.drop n).length :=
    List.count_eq_length.mpr fun s hs => (hsame s (List.mem_of_mem_drop hs)).symm
  rw [List.drop_append, List.count_append, hcount, List.length_drop,
    List.count_eq_zero.mpr fun hr => hothers (List.mem_of_mem_drop hr), Nat.add_zero]

/-- Copies of a triple after others: the drop takes the others first. -/
theorem count_drop_append' {same others : List EffectRow} (hsame : ∀ s ∈ same, s = r)
    (hothers : r ∉ others) (n : Nat) :
    ((others ++ same).drop n).count r = same.length - (n - others.length) := by
  have hcount : (same.drop (n - others.length)).count r = (same.drop (n - others.length)).length :=
    List.count_eq_length.mpr fun s hs => (hsame s (List.mem_of_mem_drop hs)).symm
  rw [List.drop_append, List.count_append, hcount, List.length_drop,
    List.count_eq_zero.mpr fun hr => hothers (List.mem_of_mem_drop hr), Nat.zero_add]

/-- Where every order reports the difference, the rows of a key with a triple in excess are all of
that triple. -/
theorem ByTriple.eq_of_excess (h : ByTriple parent fork) (hk : key r = some k)
    (hne : named k parent ≠ []) (hexcess : parent.count r < fork.count r) :
    ∀ s ∈ named k parent ++ named k fork, s = r := by
  set same := fork.filter fun s => decide (s = r) with hsame
  set others := fork.filter fun s => !decide (s = r) with hothers
  have hperm : (same ++ others).Perm fork := List.filter_append_perm ..
  have hall : ∀ s ∈ named k same, s = r := fun s hs =>
    of_decide_eq_true (List.mem_filter.mp (mem_named.mp hs).1).2
  have hnone : r ∉ named k others := fun hr => by
    simpa using (List.mem_filter.mp (mem_named.mp hr).1).2
  have hlength : (named k same).length = fork.count r := by
    rw [← List.count_eq_length.mpr fun s hs => (hall s hs).symm, count_named hk, hsame,
      List.count_filter (by simp)]
  have hcounted (fork' : List EffectRow) (hfork : fork'.Perm fork) :
      ((named k fork').drop (named k parent).length).count r = fork.count r - parent.count r := by
    obtain ⟨out, hout, hdiff⟩ := h.difference parent fork' (List.Perm.refl _) hfork
    have hcount := congrArg (Multiset.count r) hdiff
    rw [Multiset.count_sub, Multiset.coe_count, Multiset.coe_count, Multiset.coe_count] at hcount
    rw [← count_refiredAttempts hout hk, hcount]
  have hfirst := hcounted _ hperm
  have hlast := hcounted _ (List.perm_append_comm.trans hperm)
  rw [named_append, count_drop_append hall hnone, hlength] at hfirst
  rw [named_append, count_drop_append' hall hnone, hlength] at hlast
  have hpos := List.length_pos_iff.mpr hne
  have hle : parent.count r ≤ (named k parent).length := by
    rw [← count_named hk parent]
    exact List.count_le_length
  have hempty : (named k others).length = 0 := by omega
  intro s hs
  rcases List.mem_append.mp hs with hs | hs
  · have hcount : (named k parent).count r = (named k parent).length := by
      rw [count_named hk]
      omega
    exact (List.count_eq_length.mp hcount s hs).symm
  · by_contra hsr
    obtain ⟨hs, hks⟩ := mem_named.mp hs
    have hmem : s ∈ named k others :=
      mem_named.mpr ⟨List.mem_filter.mpr ⟨hs, by simpa using hsr⟩, hks⟩
    rw [List.length_eq_zero_iff.mp hempty] at hmem
    cases hmem

/-- The matching reports the multiset difference by triple exactly where the keys tell. -/
theorem byTriple_iff (parent fork : List EffectRow) :
    ByTriple parent fork ↔ KeysTell parent fork := by
  constructor
  · intro h
    refine ⟨?_, fun k => ?_⟩
    · obtain ⟨out, hout, -⟩ := h.difference parent fork (List.Perm.refl _) (List.Perm.refl _)
      exact isSome_refiredAttempts_iff.mp (by rw [hout]; rfl)
    · by_cases hne : named k parent = []
      · exact Or.inl hne
      · by_cases hle : ∀ r ∈ named k fork, fork.count r ≤ parent.count r
        · exact Or.inr (Or.inl hle)
        · obtain ⟨r, hr, hexcess⟩ : ∃ r ∈ named k fork, parent.count r < fork.count r := by
            simpa using hle
          exact Or.inr (Or.inr ⟨r, h.eq_of_excess (mem_named.mp hr).2 hne hexcess⟩)
  · intro h
    have hrefl := @h.difference parent parent fork fork (List.Perm.refl _) (List.Perm.refl _)
    obtain ⟨out, hout, hdiff⟩ := hrefl
    refine ⟨fun _ _ => h.difference, ?_, fun parent' fork' hparent hfork => ?_, fun r hr hnot => ?_⟩
    · rw [hout, Option.some.injEq]
      have hle : out = [] ↔ (fork : Multiset EffectRow) ≤ parent := by
        rw [← tsub_eq_zero_iff_le, ← hdiff, Multiset.coe_eq_zero]
      rw [hle, Multiset.le_iff_count]
      simp only [Multiset.coe_count]
    · obtain ⟨out', hout', hdiff'⟩ := h.difference hparent hfork
      have hperm : out'.Perm out := Multiset.coe_eq_coe.mp (hdiff'.trans hdiff.symm)
      rw [hout, hout', Option.map_some, Option.map_some, hperm.length_eq]
    · refine ⟨out, hout, ?_⟩
      have hcount := congrArg (Multiset.count r) hdiff
      rw [Multiset.count_sub, Multiset.coe_count, Multiset.coe_count, Multiset.coe_count,
        List.count_eq_zero.mpr hnot, Nat.sub_zero] at hcount
      exact List.count_pos_iff.mp (hcount ▸ List.count_pos_iff.mpr hr)

/-- A row with a text, a number and a text. -/
def effectRow (nodeId : JsString) (attempt : Nat) (instant : JsString) : EffectRow where
  nodeId := some (.str nodeId)
  attempt := some (.num (JsNumber.ofNat attempt))
  instant := some (.str instant)

/-- The keys of two different triples are one text, and the attempt the parent never made is
covered by the parent's. -/
theorem collidingRows_not_byTriple : ¬ ByTriple [effectRow (js "n|1") 2 (js "t")]
    [effectRow (js "n") 1 (js "2|t")] := by
  intro h
  obtain ⟨out, hout, hmem⟩ := h.unmade _ (List.mem_singleton_self _) (by decide)
  have hnone : refiredAttempts [effectRow (js "n|1") 2 (js "t")]
      [effectRow (js "n") 1 (js "2|t")] = some [] := by decide
  rw [hnone] at hout
  obtain rfl := Option.some.inj hout
  cases hmem

end Difference

end OpenWop.Replay
