import OpenWop.Core.HashTree
import OpenWop.Js.Utf8
import OpenWop.Js.JsonEqual

/-!
# Audit checkpoints

The root over a range of audit-log entries: the leaves are the entries' hashes in
sequence order, a parent is the SHA-256 of the text of its two children, and an odd
last node goes up unchanged. There is no leaf or interior domain separation; the leaf
count is what fixes the shape of the tree.
-/

namespace OpenWop.Audit

open OpenWop.Js

section Hashing

/-- SHA-256 on bytes, supplied by the runtime. -/
abbrev Sha256 := List UInt8 → Vector UInt8 32

/-- `HEX64`. -/
def isHex64 (s : JsString) : Bool := s.length = 64 && s.all isHexUnit

variable (sha256 : Sha256)

/-- `sha256Hex`. -/
def sha256Hex (s : JsString) : JsString := hexText (sha256 (utf8 s)).toList

/-- `auditEntryHash`. -/
def auditEntryHash (entry : Json) : Except JcsRefusal JsString :=
  (Json.canonicalJSON entry).map (sha256Hex sha256)

/-- A parent node. -/
def parentHash (left right : JsString) : JsString := sha256Hex sha256 (left ++ right)

end Hashing

section Root

/-- The reasons for a `CheckpointPreimageError`. -/
inductive CheckpointPreimageError where
  | emptyRange
  | leafCount (expected : JsNumber) (actual : Nat)
  | notHex64 (leaf : JsString)
  deriving DecidableEq, Repr

/-- The message of a `CheckpointPreimageError`. -/
def CheckpointPreimageError.message : CheckpointPreimageError → JsString
  | .emptyRange => js "a checkpoint anchors at least one entry"
  | .leafCount expected actual =>
    js "expected " ++ expected.text ++ js " leaves (atSequence − P), got " ++ decimal actual
  | .notHex64 leaf => js "leaf is not 64 lowercase hex: " ++ quote leaf

variable (sha256 : Sha256)

/-- `checkpointMerkleRoot`. -/
def checkpointMerkleRoot (leaves : List JsString) (expectedLeaves : Option JsNumber) :
    Except CheckpointPreimageError JsString :=
  if hne : leaves = [] then .error .emptyRange
  else match expectedLeaves.filter (· ≠ JsNumber.ofNat leaves.length) with
    | some expected => .error (.leafCount expected leaves.length)
    | none => match leaves.find? (!isHex64 ·) with
      | some leaf => .error (.notHex64 leaf)
      | none => .ok ((HashTree.collapse (parentHash sha256) leaves).head
          (HashTree.collapse_ne_nil _ hne))

/-- The bytes SHA-256 is applied to on the way to the root. -/
def hashedBytes (leaves : List JsString) : List (List UInt8) :=
  (HashTree.combinedPairs (parentHash sha256) leaves).map fun p => utf8 (p.1 ++ p.2)

end Root

section Hex

theorem isHex64_iff {s : JsString} :
    isHex64 s = true ↔ s.length = 64 ∧ ∀ u ∈ s, isHexUnit u = true := by
  simp [isHex64]

/-- A digest text is 64 lower-case hexadecimal digits. -/
theorem isHex64_sha256Hex (sha256 : Sha256) (s : JsString) :
    isHex64 (sha256Hex sha256 s) = true := by
  rw [isHex64_iff, sha256Hex]
  exact ⟨by simp, fun u hu => isHexUnit_of_mem_hexText hu⟩

theorem isWellFormed_of_isHexUnit {s : JsString} (h : ∀ u ∈ s, isHexUnit u = true) :
    isWellFormed s = true := by
  apply isWellFormed_of_no_surrogates
  intro u hu
  have hx := h u hu
  simp only [isHexUnit, Bool.or_eq_true, Bool.and_eq_true, decide_eq_true_eq,
    UInt16.le_iff_toNat_le] at hx
  rw [← Bool.not_eq_true, ← Bool.not_eq_true, isHighSurrogate_iff, isLowSurrogate_iff]
  simp at hx
  omega

/-- Distinct pairs of digest texts are hashed from distinct bytes. -/
theorem utf8_append_inj {a b c d : JsString} (ha : isHex64 a = true) (hb : isHex64 b = true)
    (hc : isHex64 c = true) (hd : isHex64 d = true) (h : utf8 (a ++ b) = utf8 (c ++ d)) :
    (a, b) = (c, d) := by
  rw [isHex64_iff] at ha hb hc hd
  have hab : isWellFormed (a ++ b) = true := isWellFormed_of_isHexUnit fun u hu =>
    (List.mem_append.mp hu).elim (ha.2 u) (hb.2 u)
  have hcd : isWellFormed (c ++ d) = true := isWellFormed_of_isHexUnit fun u hu =>
    (List.mem_append.mp hu).elim (hc.2 u) (hd.2 u)
  obtain ⟨rfl, rfl⟩ := List.append_inj (utf8_inj hab hcd h) (ha.1.trans hc.1.symm)
  rfl

end Hex

section Binding

variable {sha256 : Sha256} {leaves leaves' : List JsString} {expected expected' : Option JsNumber}
  {root : JsString}

/-- What is accepted: a nonempty list of digest texts, of the expected length if one is given. -/
theorem checkpointMerkleRoot_eq_ok :
    checkpointMerkleRoot sha256 leaves expected = .ok root ↔
      HashTree.collapse (parentHash sha256) leaves = [root] ∧
      (∀ n, expected = some n → n = JsNumber.ofNat leaves.length) ∧
      (∀ leaf ∈ leaves, isHex64 leaf = true) := by
  unfold checkpointMerkleRoot
  split
  · next hne =>
    subst hne
    rw [HashTree.collapse]
    simp
  · next hne =>
    obtain ⟨r, hr⟩ := List.length_eq_one_iff.mp
      (HashTree.length_collapse (parentHash sha256) hne)
    simp only [hr, List.head_cons, List.cons.injEq, and_true]
    split
    · next n hn =>
      have hbad := Option.filter_eq_some_iff.mp hn
      simp only [reduceCtorEq, false_iff, not_and, ne_eq, decide_eq_true_eq] at hbad ⊢
      exact fun _ hcount => absurd (hcount n hbad.1) hbad.2
    · next hcount =>
      simp only [Option.filter_eq_none_iff, ne_eq, decide_not, Bool.not_eq_true',
        decide_eq_false_iff_not, not_not] at hcount
      split
      · next leaf hleaf =>
        have hbad := List.find?_some hleaf
        have hmem := List.mem_of_find?_eq_some hleaf
        simp only [reduceCtorEq, false_iff, not_and]
        intro _ _ hall
        simp [hall leaf hmem] at hbad
      · next hleaf =>
        simp only [List.find?_eq_none, Bool.not_eq_true', Bool.not_eq_false] at hleaf
        simp only [Except.ok.injEq]
        exact ⟨fun h => ⟨h, fun n hn => hcount n hn, hleaf⟩, fun h => h.1⟩

/-- Digest texts are all that is hashed. -/
theorem isHex64_of_mem_combinedPairs (h : ∀ leaf ∈ leaves, isHex64 leaf = true) :
    ∀ p ∈ HashTree.combinedPairs (parentHash sha256) leaves,
      isHex64 p.1 = true ∧ isHex64 p.2 = true :=
  HashTree.forall_mem_combinedPairs (parentHash sha256)
    (fun a b _ _ => isHex64_sha256Hex sha256 (a ++ b)) h

/-- The root fixes the leaves of a given count. -/
theorem leaves_eq_of_root
    (hsha : Set.InjOn sha256 {b | b ∈ hashedBytes sha256 leaves ∨ b ∈ hashedBytes sha256 leaves'})
    (hlen : leaves.length = leaves'.length)
    (h : checkpointMerkleRoot sha256 leaves expected = .ok root)
    (h' : checkpointMerkleRoot sha256 leaves' expected' = .ok root) : leaves = leaves' := by
  rw [checkpointMerkleRoot_eq_ok] at h h'
  refine HashTree.collapse_inj (parentHash sha256) hlen ?_ (h.1.trans h'.1.symm)
  intro p hp q hq hpq
  have hx := isHex64_of_mem_combinedPairs h.2.2 p hp
  have hy := isHex64_of_mem_combinedPairs h'.2.2 q hq
  have hbytes : utf8 (p.1 ++ p.2) = utf8 (q.1 ++ q.2) := by
    apply hsha
    · exact Or.inl (List.mem_map_of_mem hp)
    · exact Or.inr (List.mem_map_of_mem hq)
    · exact Vector.toList_inj.mp (hexText_inj hpq)
  exact utf8_append_inj hx.1 hx.2 hy.1 hy.2 hbytes

/-- Lists of one length with one root are equal, SHA-256 not colliding on what the two
computations hash; an expected count admits no other length. -/
theorem checkpointMerkleRoot_binds
    (hsha : Set.InjOn sha256 {b | b ∈ hashedBytes sha256 leaves ∨ b ∈ hashedBytes sha256 leaves'})
    (h : checkpointMerkleRoot sha256 leaves expected = .ok root)
    (h' : checkpointMerkleRoot sha256 leaves' expected' = .ok root) :
    (leaves.length = leaves'.length → leaves = leaves') ∧
    (∀ n, expected = some n → n = JsNumber.ofNat leaves.length) ∧
    (∀ n, expected = some n → expected' = some n → leaves = leaves') := by
  have hcount := (checkpointMerkleRoot_eq_ok.mp h).2.1
  have hcount' := (checkpointMerkleRoot_eq_ok.mp h').2.1
  refine ⟨fun hlen => leaves_eq_of_root hsha hlen h h', hcount, ?_⟩
  intro n hn hn'
  have hlen := congrArg JsNumber.toNat? ((hcount n hn).symm.trans (hcount' n hn'))
  rw [JsNumber.toNat?_ofNat, JsNumber.toNat?_ofNat, Option.some.injEq] at hlen
  exact leaves_eq_of_root hsha hlen h h'

/-- SHA-256 on the text of two zero leaves. -/
def zeroLeavesSha256 : Sha256 := fun bytes =>
  if bytes = List.replicate 128 48 then #v[
    0x45, 0x72, 0x57, 0x91, 0xc4, 0x7b, 0x32, 0x61,
    0x8c, 0xc5, 0x7b, 0x88, 0x34, 0x3e, 0x2b, 0xce,
    0xec, 0x3b, 0x0a, 0x01, 0xb8, 0x3b, 0xc9, 0x7d,
    0x14, 0x4a, 0x2c, 0xbc, 0x11, 0xa2, 0x0c, 0x3d]
  else Vector.replicate 32 0

/-- Two zero leaves, twice. -/
theorem checkpointMerkleRoot_binds_zeroLeaves :
    let leaf : JsString := List.replicate 64 (unit '0')
    Set.InjOn zeroLeavesSha256 {b | b ∈ hashedBytes zeroLeavesSha256 [leaf, leaf] ∨
      b ∈ hashedBytes zeroLeavesSha256 [leaf, leaf]} ∧
    checkpointMerkleRoot zeroLeavesSha256 [leaf, leaf] (some (.ofNat 2)) =
      .ok (js "45725791c47b32618cc57b88343e2bceec3b0a01b83bc97d144a2cbc11a20c3d") ∧
    [leaf, leaf] = [leaf, leaf] := by
  intro leaf
  have hroot : HashTree.collapse (parentHash zeroLeavesSha256) [leaf, leaf] =
      [js "45725791c47b32618cc57b88343e2bceec3b0a01b83bc97d144a2cbc11a20c3d"] := by
    rw [HashTree.collapse, if_pos (by decide), HashTree.collapse, if_neg (by decide)]
    decide
  have hinj : Set.InjOn zeroLeavesSha256 {b | b ∈ hashedBytes zeroLeavesSha256 [leaf, leaf] ∨
      b ∈ hashedBytes zeroLeavesSha256 [leaf, leaf]} := by
    have hone : hashedBytes zeroLeavesSha256 [leaf, leaf] = [utf8 (leaf ++ leaf)] := by
      rw [hashedBytes, HashTree.combinedPairs, if_pos (by decide), HashTree.combinedPairs,
        if_neg (by decide)]
      rfl
    intro b hb c hc _
    simp only [hone, List.mem_singleton, or_self, Set.mem_ofPred_eq] at hb hc
    rw [hb, hc]
  have hok : checkpointMerkleRoot zeroLeavesSha256 [leaf, leaf] (some (.ofNat 2)) = .ok _ :=
    checkpointMerkleRoot_eq_ok.mpr
      ⟨hroot, fun n hn => (Option.some.inj hn).symm, by decide⟩
  exact ⟨hinj, hok, (checkpointMerkleRoot_binds hinj hok hok).1 rfl⟩

end Binding

section Entries

variable {sha256 : Sha256} {entries entries' : List Json} {leaves leaves' : List JsString}
  {expected expected' : Option JsNumber} {root : JsString}

/-- The bytes the hashes of some entries are taken of. -/
def entryBytes (entries : List Json) : Set (List UInt8) :=
  {b | ∃ v ∈ entries, ∃ t, Json.canonicalJSON v = .ok t ∧ b = utf8 t}

/-- Entries with one hash are one JSON value, SHA-256 not colliding on them. -/
theorem same_of_auditEntryHash {v w : Json} {leaf : JsString}
    (hsha : Set.InjOn sha256 (entryBytes [v, w])) (hv : auditEntryHash sha256 v = .ok leaf)
    (hw : auditEntryHash sha256 w = .ok leaf) : Json.Same v w := by
  unfold auditEntryHash at hv hw
  cases hs : Json.canonicalJSON v with
  | error e =>
    rw [hs] at hv
    cases hv
  | ok s =>
    cases ht : Json.canonicalJSON w with
    | error e =>
      rw [ht] at hw
      cases hw
    | ok t =>
      rw [hs] at hv
      rw [ht] at hw
      have hdigest : sha256Hex sha256 s = sha256Hex sha256 t :=
        (Except.ok.inj hv).trans (Except.ok.inj hw).symm
      have hbytes : utf8 s = utf8 t := by
        apply hsha ⟨v, by simp, s, hs, rfl⟩ ⟨w, by simp, t, ht, rfl⟩
        exact Vector.toList_inj.mp (hexText_inj hdigest)
      have htext : s = t := utf8_inj (Json.isWellFormed_canonicalJSON hs)
        (Json.isWellFormed_canonicalJSON ht) hbytes
      exact Json.normalize_eq_of_canonicalJSON hs (htext ▸ ht)

/-- A list is read item by item. -/
theorem mapM_eq_ok {ε α β : Type} {f : α → Except ε β} {l : List α} {l' : List β} :
    l.mapM f = .ok l' ↔ List.Forall₂ (fun a b => f a = .ok b) l l' := by
  induction l generalizing l' with
  | nil =>
    rw [List.mapM_nil, List.forall₂_nil_left_iff]
    exact ⟨fun h => (Except.ok.inj h).symm, fun h => h ▸ rfl⟩
  | cons a l ih =>
    rw [List.mapM_cons, List.forall₂_cons_left_iff]
    cases hb : f a with
    | error e => simp [bind, Except.bind]
    | ok b =>
      cases hl : l.mapM f with
      | error e =>
        simp only [bind, Except.bind, reduceCtorEq, Except.ok.injEq, false_iff, not_exists, not_and]
        intro c bs _ hbs
        rw [← ih, hl] at hbs
        cases hbs
      | ok bs =>
        simp only [bind, Except.bind, pure, Except.pure, Except.ok.injEq]
        constructor
        · rintro rfl
          exact ⟨b, bs, rfl, ih.mp hl, rfl⟩
        · rintro ⟨c, cs, rfl, hcs, rfl⟩
          rw [← ih, hl, Except.ok.injEq] at hcs
          rw [hcs]

/-- Entry lists with one list of hashes agree entry by entry. -/
theorem same_of_auditEntryHashes
    (hsha : Set.InjOn sha256 (entryBytes entries ∪ entryBytes entries'))
    (h : entries.mapM (auditEntryHash sha256) = .ok leaves)
    (h' : entries'.mapM (auditEntryHash sha256) = .ok leaves) :
    List.Forall₂ Json.Same entries entries' := by
  rw [mapM_eq_ok] at h h'
  rw [List.forall₂_iff_get] at h h' ⊢
  refine ⟨h.1.trans h'.1.symm, fun i hi hi' => ?_⟩
  have hv := h.2 i hi (h.1 ▸ hi)
  have hw := h'.2 i hi' (h'.1 ▸ hi')
  refine same_of_auditEntryHash (hsha.mono ?_) hv hw
  rintro b ⟨v, hmem, ht⟩
  simp only [List.mem_cons, List.not_mem_nil, or_false] at hmem
  obtain rfl | rfl := hmem
  · exact Or.inl ⟨_, List.get_mem entries ⟨i, hi⟩, ht⟩
  · exact Or.inr ⟨_, List.get_mem entries' ⟨i, hi'⟩, ht⟩

/-- The root fixes the entries of a range with a given count. -/
theorem entries_same_of_root
    (hsha : Set.InjOn sha256 (entryBytes entries ∪ entryBytes entries' ∪
      {b | b ∈ hashedBytes sha256 leaves ∨ b ∈ hashedBytes sha256 leaves'}))
    (hcount : entries.length = entries'.length)
    (hread : entries.mapM (auditEntryHash sha256) = .ok leaves)
    (hread' : entries'.mapM (auditEntryHash sha256) = .ok leaves')
    (h : checkpointMerkleRoot sha256 leaves expected = .ok root)
    (h' : checkpointMerkleRoot sha256 leaves' expected' = .ok root) :
    List.Forall₂ Json.Same entries entries' := by
  have hlen : leaves.length = leaves'.length := by
    have hl := (mapM_eq_ok.mp hread).length_eq
    have hl' := (mapM_eq_ok.mp hread').length_eq
    omega
  have hleaves : leaves = leaves' :=
    leaves_eq_of_root (hsha.mono Set.subset_union_right) hlen h h'
  subst hleaves
  exact same_of_auditEntryHashes (hsha.mono Set.subset_union_left) hread hread'

end Entries

section Interior

variable {sha256 : Sha256} {leaves : List JsString} {expected : Option JsNumber} {root : JsString}

/-- The parents of the leaves give the same root where no count is expected, and are refused
where the count of the leaves is. -/
theorem checkpointMerkleRoot_parents (hlong : 1 < leaves.length)
    (h : checkpointMerkleRoot sha256 leaves expected = .ok root) :
    checkpointMerkleRoot sha256 (HashTree.nextLevel (parentHash sha256) leaves) none = .ok root ∧
      ∀ r, checkpointMerkleRoot sha256 (HashTree.nextLevel (parentHash sha256) leaves)
        (some (.ofNat leaves.length)) ≠ .ok r := by
  rw [checkpointMerkleRoot_eq_ok] at h
  obtain ⟨hroot, _, hhex⟩ := h
  have hparents := HashTree.forall_mem_nextLevel (parentHash sha256)
    (fun a b _ _ => isHex64_sha256Hex sha256 (a ++ b)) hhex
  rw [HashTree.collapse_of_one_lt _ hlong] at hroot
  constructor
  · rw [checkpointMerkleRoot_eq_ok]
    exact ⟨hroot, nofun, hparents⟩
  · intro r hr
    have hcount := (checkpointMerkleRoot_eq_ok.mp hr).2.1 _ rfl
    have hnat := congrArg JsNumber.toNat? hcount
    rw [JsNumber.toNat?_ofNat, JsNumber.toNat?_ofNat, Option.some.injEq,
      HashTree.length_nextLevel] at hnat
    omega

end Interior

end OpenWop.Audit
