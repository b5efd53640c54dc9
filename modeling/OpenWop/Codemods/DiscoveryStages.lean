import OpenWop.Codemods.DiscoveryDocument

/-!
# What the stages of the discovery codemod do

Each stage as a formula for what a name reads afterwards: the mirrors by the names visited, the
rewritten members by the rewrites of that name, the moved families by the vendor.
-/

namespace OpenWop.Codemods.DiscoveryDocument

open OpenWop.Js OpenWop.Eval OpenWop.Content OpenWop.Codemods

section Names

theorem startsWith_dotted (x : JsString) : startsWith (dotted x) (js "host.") = true :=
  startsWith_append _ x

theorem drop_dotted (x : JsString) : (dotted x).drop 5 = x := by
  have hlength : (js "host.").length = 5 := by decide
  exact List.drop_left' hlength

theorem exists_dotted {k : JsString} (h : startsWith k (js "host.") = true) : ∃ x, k = dotted x := by
  obtain ⟨x, hx⟩ := startsWith_iff.mp h
  exact ⟨x, hx.symm⟩

theorem dotted_inj {x y : JsString} (h : dotted x = dotted y) : x = y := List.append_cancel_left h

theorem ne_dotted {k : JsString} (h : startsWith k (js "host.") = false) (x : JsString) :
    k ≠ dotted x := by
  rintro rfl
  rw [startsWith_dotted] at h
  cases h

end Names

section Mirrors

variable {doc out out' : Record JsString Json} {done ks : List JsString} {k : JsString}

/-- The value of a root member, under its name or declared by its mirror only. -/
def rootOf (doc : Record JsString Json) (k : JsString) : Option Json :=
  (Record.get? doc k).or (if k ∈ extensionFamilies then none else Record.get? doc (dotted k))

/-- How the names read once these are visited. -/
structure Mirrored (doc : Record JsString Json) (done : List JsString)
    (out : Record JsString Json) : Prop where
  nodup : (Record.keys out).Nodup
  root : ∀ k, startsWith k (js "host.") = false → Record.get? out k =
    if dotted k ∈ done then rootOf doc k else Record.get? doc k
  left : ∀ x, Record.get? out (dotted x) =
    if dotted x ∈ done ∧ ¬ (x ∈ extensionFamilies ∧ Record.get? doc x = none) then none
    else Record.get? doc (dotted x)
  agree : ∀ x v w, dotted x ∈ done → Record.get? doc (dotted x) = some v →
    Record.get? doc x = some w → eq w v = true

theorem nodup_keys_mirror (h : (Record.keys out).Nodup) (hok : mirror out k = .ok out') :
    (Record.keys out').Nodup := by
  rw [mirror] at hok
  split at hok
  · dsimp only at hok
    split at hok
    · split_ifs at hok
      · obtain rfl := Except.ok.inj hok
        exact Record.nodup_keys_erase h k
      · cases hok
    · split_ifs at hok
      · obtain rfl := Except.ok.inj hok
        exact h
      · obtain rfl := Except.ok.inj hok
        exact Record.nodup_keys_erase (nodup_keys_assign h _ _) k
  · obtain rfl := Except.ok.inj hok
    exact h

/-- A name that is no mirror is passed over. -/
theorem Mirrored.pass (h : Mirrored doc done out) (hk : startsWith k (js "host.") = false) :
    Mirrored doc (done ++ [k]) out := by
  have hin : ∀ x, dotted x ∈ done ++ [k] ↔ dotted x ∈ done := by
    intro x
    rw [List.mem_append, List.mem_singleton, or_iff_left]
    exact Ne.symm (ne_dotted hk x)
  refine ⟨h.nodup, fun l hl => ?_, fun x => ?_, fun x v w hx => h.agree x v w ((hin x).mp hx)⟩
  · rw [h.root l hl]
    simp only [hin]
  · rw [h.left x]
    simp only [hin]

/-- A mirror is dropped beside its root member, promoted without one, and left where it names an
extension family. -/
theorem Mirrored.step (h : Mirrored doc done out) {x : JsString} {v : Json}
    (hnew : dotted x ∉ done) (hv : Record.get? doc (dotted x) = some v)
    (honce : startsWith x (js "host.") = false) (hproto : x ≠ proto)
    (hok : mirror out (dotted x) = .ok out') :
    Mirrored doc (done ++ [dotted x]) out' := by
  have hin : ∀ y, dotted y ∈ done ++ [dotted x] ↔ dotted y ∈ done ∨ y = x := by
    intro y
    rw [List.mem_append, List.mem_singleton]
    exact or_congr_right ⟨dotted_inj, congrArg dotted⟩
  have hnodup := nodup_keys_mirror h.nodup hok
  have hread : Record.get? out (dotted x) = some v := by
    rw [h.left x, if_neg (fun hin => hnew hin.1), hv]
  have htwin : Record.get? out x = Record.get? doc x := by rw [h.root x honce, if_neg hnew]
  cases hroot : Record.get? doc x with
  | some twin =>
    have hrootOf : rootOf doc x = some twin := by rw [rootOf, hroot, Option.some_or]
    have haccess : (Accessed.json (.obj out)).access x = some (.json twin) := by
      rw [Accessed.access, htwin, hroot]
    simp only [mirror, startsWith_dotted, hread, drop_dotted, haccess] at hok
    by_cases heq : eq twin v = true
    swap
    · rw [eqAccessed, if_neg heq] at hok
      cases hok
    rw [eqAccessed, if_pos heq] at hok
    obtain rfl := Except.ok.inj hok
    refine ⟨hnodup, fun l hl => ?_, fun y => ?_, fun y u w hy hu hw => ?_⟩
    · rw [Record.get?_erase, if_neg (ne_dotted hl x), h.root l hl]
      by_cases hlx : l = x
      · rw [hlx, if_neg hnew, if_pos ((hin x).mpr (Or.inr rfl)), hrootOf, hroot]
      · simp only [hin, hlx, or_false]
    · rw [Record.get?_erase]
      by_cases hyx : y = x
      · rw [hyx, if_pos rfl, if_pos ⟨(hin x).mpr (Or.inr rfl), by simp [hroot]⟩]
      · rw [if_neg (fun heq => hyx (dotted_inj heq)), h.left y]
        simp only [hin, hyx, or_false]
    · rcases (hin y).mp hy with hy | rfl
      · exact h.agree y u w hy hu hw
      · obtain rfl := Option.some.inj (hroot.symm.trans hw)
        obtain rfl := Option.some.inj (hv.symm.trans hu)
        exact heq
  | none =>
    have haccess : (Accessed.json (.obj out)).access x =
        if x ∈ inheritedFunctions then some .function else none := by
      rw [Accessed.access, htwin, hroot]
      exact if_neg hproto
    simp only [mirror, startsWith_dotted, hread, drop_dotted, haccess] at hok
    by_cases hfunction : x ∈ inheritedFunctions
    · rw [if_pos hfunction] at hok
      cases hok
    rw [if_neg hfunction] at hok
    dsimp only at hok
    have hagree : ∀ y u w, dotted y ∈ done ++ [dotted x] → Record.get? doc (dotted y) = some u →
        Record.get? doc y = some w → eq w u = true := by
      intro y u w hy hu hw
      rcases (hin y).mp hy with hy | rfl
      · exact h.agree y u w hy hu hw
      · rw [hroot] at hw
        cases hw
    by_cases hext : x ∈ extensionFamilies
    · rw [if_pos hext] at hok
      obtain rfl := Except.ok.inj hok
      refine ⟨hnodup, fun l hl => ?_, fun y => ?_, hagree⟩
      · rw [h.root l hl]
        by_cases hlx : l = x
        · rw [hlx, if_neg hnew, if_pos ((hin x).mpr (Or.inr rfl)), rootOf, hroot, if_pos hext]
          rfl
        · simp only [hin, hlx, or_false]
      · rw [h.left y]
        by_cases hyx : y = x
        · rw [hyx, if_neg (fun hin => hnew hin.1), if_neg (fun hin => hin.2 ⟨hext, hroot⟩)]
        · simp only [hin, hyx, or_false]
    · rw [if_neg hext] at hok
      obtain rfl := Except.ok.inj hok
      refine ⟨hnodup, fun l hl => ?_, fun y => ?_, hagree⟩
      · rw [Record.get?_erase, if_neg (ne_dotted hl x), get?_assign hproto, h.root l hl]
        by_cases hlx : l = x
        · rw [if_pos hlx, hlx, if_pos ((hin x).mpr (Or.inr rfl)), rootOf, hroot, if_neg hext, hv]
          rfl
        · simp only [hin, hlx, or_false, if_false]
      · rw [Record.get?_erase]
        by_cases hyx : y = x
        · rw [hyx, if_pos rfl, if_pos ⟨(hin x).mpr (Or.inr rfl), fun hno => hext hno.1⟩]
        · rw [if_neg (fun heq => hyx (dotted_inj heq)), get?_assign hproto,
            if_neg (Ne.symm (ne_dotted honce y)), h.left y]
          simp only [hin, hyx, or_false]

/-- No mirror is itself mirrored, and none is of `__proto__`. -/
structure OnceDotted (doc : Record JsString Json) : Prop where
  once : ∀ x, dotted x ∈ Record.keys doc → startsWith x (js "host.") = false
  proto : dotted proto ∉ Record.keys doc

theorem Mirrored.run (hdoc : OnceDotted doc) (h : Mirrored doc done out)
    (hnodup : (done ++ ks).Nodup) (hks : ∀ k ∈ ks, k ∈ Record.keys doc)
    (hok : mirrors out ks = .ok out') : Mirrored doc (done ++ ks) out' := by
  induction ks generalizing done out with
  | nil =>
    obtain rfl := Except.ok.inj hok
    rwa [List.append_nil]
  | cons k ks ih =>
    obtain ⟨next, hnext, hok⟩ := bind_ok.mp hok
    rw [List.forall_mem_cons] at hks
    have hsplit : done ++ k :: ks = done ++ [k] ++ ks := by simp
    have hnew : k ∉ done := fun hk =>
      (List.nodup_append.mp hnodup).2.2 k hk k (List.mem_cons_self ..) rfl
    rw [hsplit] at hnodup ⊢
    refine ih ?_ hnodup hks.2 hok
    cases hhost : startsWith k (js "host.") with
    | false =>
      rw [mirror, hhost] at hnext
      obtain rfl := Except.ok.inj hnext
      exact h.pass hhost
    | true =>
      obtain ⟨x, rfl⟩ := exists_dotted hhost
      obtain ⟨v, hv⟩ := Option.isSome_iff_exists.mp (Record.get?_isSome_iff.mpr hks.1)
      refine h.step hnew hv (hdoc.once x hks.1) ?_ hnext
      rintro rfl
      exact hdoc.proto hks.1

/-- Names that are no mirrors are all passed over. -/
theorem mirrors_eq_self (hks : ∀ k ∈ ks, startsWith k (js "host.") = false) :
    mirrors out ks = .ok out := by
  induction ks with
  | nil => rfl
  | cons k ks ih =>
    rw [List.forall_mem_cons] at hks
    have hk : mirror out k = .ok out := by rw [mirror, hks.1]
    rw [mirrors, hk]
    exact ih hks.2

theorem mirrored_nil (hnodup : (Record.keys doc).Nodup) : Mirrored doc [] doc where
  nodup := hnodup
  root _ _ := rfl
  left x := by rw [if_neg (fun h => nomatch h.1)]
  agree := nofun

end Mirrors

section Members

variable {out out' : Record JsString Json} {k : JsString}
  {rewrite : Json → Except Thrown (Option Json)}
  {rest : List (JsString × (Json → Except Thrown (Option Json)))}

/-- The rewrites of one name, one after the other. -/
def chain : List (JsString × (Json → Except Thrown (Option Json))) → JsString → Option Json →
    Except Thrown (Option Json)
  | [], _, v => .ok v
  | (j, rewrite) :: rest, k, v =>
    if j = k then v.elim (.ok none) rewrite >>= chain rest k else chain rest k v

theorem rewriteMember_ok (hnodup : (Record.keys out).Nodup)
    (h : rewriteMember k rewrite out = .ok out') : (Record.keys out').Nodup ∧
      (Record.get? out k).elim (.ok none) rewrite = .ok (Record.get? out' k) ∧
      ∀ j, j ≠ k → Record.get? out' j = Record.get? out j := by
  rw [rewriteMember] at h
  cases hv : Record.get? out k with
  | none =>
    rw [hv] at h
    obtain rfl := Except.ok.inj h
    exact ⟨hnodup, by rw [hv]; rfl, fun _ _ => rfl⟩
  | some v =>
    rw [hv] at h
    obtain ⟨w, hw, heq⟩ := map_ok.mp h
    cases w with
    | none =>
      obtain rfl : Record.erase out k = out' := heq
      refine ⟨Record.nodup_keys_erase hnodup k, ?_, fun j hj => ?_⟩
      · rw [Record.get?_erase_self]
        exact hw
      · rw [Record.get?_erase, if_neg hj]
    | some w =>
      obtain rfl : Record.set out k w = out' := heq
      refine ⟨Record.nodup_keys_set hnodup k w, ?_, fun j hj => Record.get?_set_of_ne _ _ hj⟩
      rw [Record.get?_set_self]
      exact hw

/-- What a name reads afterwards is made by its rewrites. -/
theorem rewriteMembers_ok (hnodup : (Record.keys out).Nodup)
    (h : rewriteMembers rest out = .ok out') : (Record.keys out').Nodup ∧
      ∀ k, chain rest k (Record.get? out k) = .ok (Record.get? out' k) := by
  induction rest generalizing out with
  | nil =>
    obtain rfl := Except.ok.inj h
    exact ⟨hnodup, fun _ => rfl⟩
  | cons r rest ih =>
    obtain ⟨j, rewrite⟩ := r
    obtain ⟨next, hnext, h⟩ := bind_ok.mp h
    obtain ⟨hnodup', hread, hothers⟩ := rewriteMember_ok hnodup hnext
    obtain ⟨hfinal, hchain⟩ := ih hnodup' h
    refine ⟨hfinal, fun k => ?_⟩
    rw [chain]
    by_cases hk : j = k
    · subst hk
      rw [if_pos rfl, hread]
      exact hchain j
    · rw [if_neg hk, ← hothers k (Ne.symm hk)]
      exact hchain k

theorem chain_of_not_mem {v : Option Json} (h : k ∉ rest.map Prod.fst) : chain rest k v = .ok v := by
  induction rest with
  | nil => rfl
  | cons r rest ih =>
    rw [List.map_cons, List.mem_cons, not_or] at h
    rw [chain, if_neg (Ne.symm h.1)]
    exact ih h.2

theorem chain_none (k : JsString) : chain rest k none = .ok none := by
  induction rest with
  | nil => rfl
  | cons r rest ih =>
    rw [chain]
    split <;> exact ih

/-- Members that every rewrite leaves are left. -/
theorem rewriteMembers_eq_self
    (h : ∀ r ∈ rest, ∀ v, Record.get? out r.1 = some v → r.2 v = .ok (some v)) :
    rewriteMembers rest out = .ok out := by
  induction rest with
  | nil => rfl
  | cons r rest ih =>
    rw [List.forall_mem_cons] at h
    have hr : rewriteMember r.1 r.2 out = .ok out := by
      rw [rewriteMember]
      cases hv : Record.get? out r.1 with
      | none => rfl
      | some v =>
        dsimp only
        rw [h.1 v hv]
        exact congrArg Except.ok (Record.set_eq_self hv)
    rw [rewriteMembers, hr]
    exact ih h.2

end Members

section Extensions

variable {out out' : Record JsString Json} {toLowerCase : JsString → JsString}

theorem isMoving_iff {k : JsString} :
    isMoving k = true ↔ ∃ x ∈ extensionFamilies, k = dotted x := by
  rw [isMoving, Bool.and_eq_true, List.contains_iff_mem]
  constructor
  · rintro ⟨hhost, hin⟩
    obtain ⟨x, rfl⟩ := exists_dotted hhost
    exact ⟨x, drop_dotted x ▸ hin, rfl⟩
  · rintro ⟨x, hx, rfl⟩
    exact ⟨startsWith_dotted x, (drop_dotted x).symm ▸ hx⟩

/-- The vendor these members name. -/
def organizationOf (toLowerCase : JsString → JsString) (out : Record JsString Json) : JsString :=
  organization toLowerCase (Record.get? out (js "implementation"))

/-- What the extension stage makes of the members. -/
structure Extended (toLowerCase : JsString → JsString) (out out' : Record JsString Json) : Prop where
  moved : ∀ k, isMoving k = true → Record.get? out' k = none
  others : ∀ k, isMoving k = false → k ≠ js "extensions" → Record.get? out' k = Record.get? out k
  still : (∀ k, isMoving k = true → Record.get? out k = none) → out' = out
  extensions : ∀ k v, isMoving k = true → Record.get? out k = some v →
    ∃ ext, Record.get? out' (js "extensions") = some (.obj ext) ∧
      Record.get? ext (extensionName (organizationOf toLowerCase out) k) = some v ∧
      ∀ e w, Record.get? (extensionsOf out) e = some w →
        Record.get? ext e = some w ∨ ∃ l u, isMoving l = true ∧ Record.get? out l = some u ∧
          e = extensionName (organizationOf toLowerCase out) l ∧ Record.get? ext e = some u

theorem extensionName_inj {org k l : JsString} (hk : isMoving k = true) (hl : isMoving l = true)
    (h : extensionName org k = extensionName org l) : k = l := by
  obtain ⟨x, -, rfl⟩ := isMoving_iff.mp hk
  obtain ⟨y, -, rfl⟩ := isMoving_iff.mp hl
  have hdrop := List.append_cancel_left h
  rw [drop_dotted, drop_dotted] at hdrop
  rw [hdrop]

theorem get?_filter {p : JsString → Bool} (r : Record JsString Json) (k : JsString) :
    Record.get? (r.filter fun m => p m.1) k = if p k then Record.get? r k else none := by
  induction r with
  | nil => exact (ite_self none).symm
  | cons m r ih =>
    rw [List.filter_cons]
    by_cases hm : p m.1 = true
    · rw [if_pos hm, Record.get?_cons, Record.get?_cons, ih]
      by_cases hk : m.1 = k
      · rw [if_pos hk, if_pos hk, ← hk, if_pos hm]
      · rw [if_neg hk, if_neg hk]
    · rw [if_neg hm, ih, Record.get?_cons]
      by_cases hk : m.1 = k
      · rw [← hk, if_neg hm, if_neg hm]
      · rw [if_neg hk]

theorem extended_of_ok (hnodup : (Record.keys out).Nodup)
    (h : moveExtensions toLowerCase out = .ok out') : Extended toLowerCase out out' := by
  have hext : isMoving (js "extensions") = false := by decide +kernel
  rw [moveExtensions] at h
  by_cases hnone : (out.filter fun m => isMoving m.1) = []
  · simp only [hnone, if_true, Except.ok.injEq] at h
    subst h
    have hread : ∀ k, isMoving k = true → Record.get? out k = none := by
      intro k hk
      have hget := get?_filter (p := isMoving) out k
      rwa [hnone, if_pos hk, Record.get?_nil, eq_comm] at hget
    refine ⟨hread, fun _ _ _ => rfl, fun _ => rfl, fun k v hk hv => ?_⟩
    rw [hread k hk] at hv
    cases hv
  · simp only [hnone, if_false] at h
    split_ifs at h
    · cases h
    obtain rfl := Except.ok.inj h
    set org := organization toLowerCase (Record.get? out (js "implementation")) with horg
    set moving := out.filter fun m => isMoving m.1 with hmoving
    set named := moving.map fun m => (extensionName org m.1, m.2) with hnamed
    have hfold : moving.foldl (fun ext m => Record.set ext (extensionName org m.1) m.2)
        (extensionsOf out) = named.foldl (fun ext m => Record.set ext m.1 m.2) (extensionsOf out) := by
      rw [hnamed, List.foldl_map]
    have hmem : ∀ m ∈ moving, isMoving m.1 = true ∧ Record.get? out m.1 = some m.2 := fun m hm => by
      obtain ⟨hin, hm⟩ := List.mem_filter.mp hm
      exact ⟨hm, Record.get?_of_mem hnodup hin⟩
    have hnames : (Record.keys named).Nodup := by
      have hkeys : Record.keys named = (Record.keys moving).map (extensionName org) := by
        rw [hnamed, Record.keys, Record.keys, List.map_map, List.map_map]
        rfl
      rw [hkeys]
      refine List.Nodup.map_on (fun k hk l hl heq => ?_)
        (hnodup.sublist (List.filter_sublist.map Prod.fst))
      obtain ⟨m, hm, rfl⟩ := List.mem_map.mp hk
      obtain ⟨n, hn, rfl⟩ := List.mem_map.mp hl
      exact extensionName_inj (hmem m hm).1 (hmem n hn).1 heq
    have hget : ∀ k, Record.get? (out.filter fun m => !isMoving m.1) k =
        if isMoving k then none else Record.get? out k := by
      intro k
      have hnot := get?_filter (p := fun k => !isMoving k) out k
      rw [hnot]
      cases isMoving k <;> rfl
    refine ⟨fun k hk => ?_, fun k hk hne => ?_, fun hall => ?_, fun k v hk hv => ?_⟩
    · rw [Record.get?_set_of_ne _ _ (by rintro rfl; rw [hext] at hk; cases hk), hget, if_pos hk]
    · rw [Record.get?_set_of_ne _ _ hne, hget, if_neg (by rw [hk]; exact Bool.false_ne_true)]
    · refine absurd (List.eq_nil_iff_forall_not_mem.mpr fun m hm => ?_) hnone
      have hm' := hmem m hm
      rw [hall m.1 hm'.1] at hm'
      cases hm'.2
    · refine ⟨_, Record.get?_set_self _ _ _, ?_, fun e w hw => ?_⟩
      · have hin : (extensionName org k, v) ∈ named :=
          List.mem_map_of_mem (f := fun m : JsString × Json => (extensionName org m.1, m.2))
            (List.mem_filter.mpr ⟨Record.mem_of_get? hv, hk⟩)
        rw [organizationOf, ← horg, hfold, Record.get?_foldl_set hnames,
          Record.get?_of_mem hnames hin, Option.some_or]
      · rw [hfold, Record.get?_foldl_set hnames]
        cases he : Record.get? named e with
        | none => exact Or.inl (by rw [Option.none_or, hw])
        | some u =>
          obtain ⟨m, hm, heq⟩ := List.mem_map.mp (Record.mem_of_get? he)
          have hm' := hmem m hm
          obtain ⟨hname, rfl⟩ := Prod.mk.inj heq
          exact Or.inr ⟨m.1, m.2, hm'.1, hm'.2, hname.symm, Option.some_or⟩

end Extensions

end OpenWop.Codemods.DiscoveryDocument
