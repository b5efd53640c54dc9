import OpenWop.Evidence.Scrubbed

/-!
# Rewriting the members of a document

A codemod walks a document and builds it again. Its rule takes some members of the objects, at any
depth, and writes them anew or refuses; the other values are walked. What is refused is named by
its path.
-/

namespace OpenWop.Codemods

open OpenWop.Js OpenWop.Evidence

section Walk

/-- What a codemod throws, with its message. -/
inductive Thrown where
  | error (message : JsString)
  | typeError (message : JsString)
  deriving DecidableEq, Repr

/-- How a codemod rewrites the members it takes. The path is for the message only, and no object is
rewritten. -/
structure Rule where
  takes : JsString → Json → Bool
  rewrite : JsString → JsString → Json → Except Thrown Json
  uniform : ∀ path path' name value written, rewrite path name value = .ok written →
    rewrite path' name value = .ok written
  scalar : ∀ path name value written, takes name value = true →
    rewrite path name value = .ok written → Json.isObject (some value) = false
  alike : ∀ name value value', Json.isObject (some value) = true →
    Json.isObject (some value') = true → takes name value = takes name value'

variable (rule : Rule)

mutual

/-- `walk(v, path)`. -/
def walk (path : JsString) : Json → Except Thrown Json
  | .arr items => (walkItems path 0 items).map .arr
  | .obj members => (walkMembers path members).map fun out => .obj (assignAll out)
  | v => .ok v

/-- The walked items, from that index on. -/
def walkItems (path : JsString) (i : Nat) : List Json → Except Thrown (List Json)
  | [] => .ok []
  | v :: vs => do
    let w ← walk (path ++ js "[" ++ decimal i ++ js "]") v
    let ws ← walkItems path (i + 1) vs
    return w :: ws

/-- The members written, in their order. -/
def walkMembers (path : JsString) :
    List (JsString × Json) → Except Thrown (List (JsString × Json))
  | [] => .ok []
  | (k, v) :: ms => do
    let w ← (if rule.takes k v then rule.rewrite path k v else walk (path ++ js "." ++ k) v)
    let out ← walkMembers path ms
    return (k, w) :: out

end

end Walk

section Written

variable {rule : Rule}

theorem bind_ok {α β : Type} {x : Except Thrown α} {f : α → Except Thrown β} {b : β} :
    (x >>= f) = .ok b ↔ ∃ a, x = .ok a ∧ f a = .ok b := by
  cases x with
  | error e => simp [bind, Except.bind]
  | ok a => simp [bind, Except.bind]

theorem map_ok {α β : Type} {x : Except Thrown α} {f : α → β} {b : β} :
    x.map f = .ok b ↔ ∃ a, x = .ok a ∧ f a = b := by
  cases x with
  | error e => simp [Except.map]
  | ok a => simp [Except.map]

variable {path : JsString}

/-- A document is rewritten alike under every path. -/
theorem walk_uniform {v w : Json} (h : walk rule path v = .ok w) (path' : JsString) :
    walk rule path' v = .ok w := by
  induction v generalizing path path' w with
  | null | bool _ | num _ | str _ => exact h
  | arr items ih =>
    have hitems : ∀ (i j : Nat) (path path' : JsString) (outs : List Json),
        walkItems rule path i items = .ok outs → walkItems rule path' j items = .ok outs := by
      clear h
      induction items with
      | nil => exact fun _ _ _ _ _ hn => hn
      | cons v vs ihs =>
        intro i j path path' outs hs
        simp only [walkItems, bind_ok] at hs ⊢
        obtain ⟨w, hw, ws, hws, heq⟩ := hs
        exact ⟨w, ih v (List.mem_cons_self ..) hw _, ws,
          ihs (fun u hu => ih u (List.mem_cons_of_mem v hu)) _ _ _ _ _ hws, heq⟩
    obtain ⟨outs, houts, heq⟩ := map_ok.mp h
    exact map_ok.mpr ⟨outs, hitems _ _ _ _ _ houts, heq⟩
  | obj members ih =>
    have hmembers : ∀ (path path' : JsString) (out : List (JsString × Json)),
        walkMembers rule path members = .ok out → walkMembers rule path' members = .ok out := by
      clear h
      induction members with
      | nil => exact fun _ _ _ hn => hn
      | cons m ms ihs =>
        intro path path' out hs
        simp only [walkMembers, bind_ok] at hs ⊢
        obtain ⟨w, hw, out, hout, heq⟩ := hs
        refine ⟨w, ?_, out, ihs (fun n hn => ih n (List.mem_cons_of_mem m hn)) _ _ _ hout, heq⟩
        by_cases htakes : rule.takes m.1 m.2 = true
        · rw [if_pos htakes] at hw ⊢
          exact rule.uniform _ _ _ _ _ hw
        · rw [if_neg htakes] at hw ⊢
          exact ih m (List.mem_cons_self ..) hw _
    obtain ⟨out, hout, heq⟩ := map_ok.mp h
    exact map_ok.mpr ⟨out, hmembers _ _ _ hout, heq⟩

/-- What becomes of one member. -/
def walkMember (rule : Rule) (path : JsString) (m : JsString × Json) : Except Thrown Json :=
  if rule.takes m.1 m.2 then rule.rewrite path m.1 m.2 else walk rule path m.2

/-- The items are walked one by one. -/
theorem walkItems_ok {i : Nat} {items outs : List Json} :
    walkItems rule path i items = .ok outs ↔
      List.Forall₂ (fun v w => walk rule path v = .ok w) items outs := by
  induction items generalizing i outs with
  | nil => rw [walkItems, List.forall₂_nil_left_iff, Except.ok.injEq, eq_comm]
  | cons v vs ih =>
    rw [walkItems, List.forall₂_cons_left_iff]
    simp only [bind_ok, pure, Except.pure, Except.ok.injEq, ih]
    constructor
    · rintro ⟨w, hw, ws, hws, heq⟩
      exact ⟨w, ws, walk_uniform hw path, hws, heq.symm⟩
    · rintro ⟨w, ws, hw, hws, heq⟩
      exact ⟨w, walk_uniform hw _, ws, hws, heq.symm⟩

/-- So are the members. -/
theorem walkMembers_ok {members out : List (JsString × Json)} :
    walkMembers rule path members = .ok out ↔
      List.Forall₂ (fun m n => n.1 = m.1 ∧ walkMember rule path m = .ok n.2) members out := by
  induction members generalizing out with
  | nil => rw [walkMembers, List.forall₂_nil_left_iff, Except.ok.injEq, eq_comm]
  | cons m ms ih =>
    have hmember : ∀ w, (if rule.takes m.1 m.2 then rule.rewrite path m.1 m.2
        else walk rule (path ++ js "." ++ m.1) m.2) = .ok w ↔ walkMember rule path m = .ok w := by
      intro w
      rw [walkMember]
      split
      · exact Iff.rfl
      · exact ⟨fun h => walk_uniform h path, fun h => walk_uniform h _⟩
    rw [walkMembers, List.forall₂_cons_left_iff]
    simp only [bind_ok, pure, Except.pure, Except.ok.injEq, ih, hmember]
    constructor
    · rintro ⟨w, hw, out, hout, heq⟩
      exact ⟨(m.1, w), out, ⟨rfl, hw⟩, hout, heq.symm⟩
    · rintro ⟨⟨k, w⟩, out, ⟨rfl, hw⟩, hout, heq⟩
      exact ⟨w, hw, out, hout, heq.symm⟩

end Written

section Rewritten

variable (rule : Rule) (Written : JsString → Json → Json → Prop)

mutual

/-- The second document is the first with the members the rule takes written anew: every other
member, every item and all names are as they were. -/
def Rewritten : Json → Json → Prop
  | .arr items, .arr outs => RewrittenItems items outs
  | .obj members, .obj out => RewrittenMembers members out
  | v, w => w = v

/-- Item by item. -/
def RewrittenItems : List Json → List Json → Prop
  | [], [] => True
  | v :: vs, w :: ws => Rewritten v w ∧ RewrittenItems vs ws
  | _, _ => False

/-- Member by member. -/
def RewrittenMembers : List (JsString × Json) → List (JsString × Json) → Prop
  | [], [] => True
  | (k, v) :: ms, (l, w) :: out =>
    (l = k ∧ if rule.takes k v then Written k v w else Rewritten v w) ∧ RewrittenMembers ms out
  | _, _ => False

end

variable {rule Written}

theorem rewrittenItems_iff {items outs : List Json} :
    RewrittenItems rule Written items outs ↔ List.Forall₂ (Rewritten rule Written) items outs := by
  induction items generalizing outs with
  | nil => cases outs <;> simp [RewrittenItems]
  | cons v vs ih => cases outs <;> simp [RewrittenItems, ih]

/-- What becomes of one member. -/
def RewrittenMember (rule : Rule) (Written : JsString → Json → Json → Prop)
    (m n : JsString × Json) : Prop :=
  n.1 = m.1 ∧ if rule.takes m.1 m.2 then Written m.1 m.2 n.2 else Rewritten rule Written m.2 n.2

theorem rewrittenMembers_iff {members out : List (JsString × Json)} :
    RewrittenMembers rule Written members out ↔
      List.Forall₂ (RewrittenMember rule Written) members out := by
  induction members generalizing out with
  | nil => cases out <;> simp [RewrittenMembers]
  | cons m ms ih => cases out <;> simp [RewrittenMembers, RewrittenMember, ih]

/-- The objects of a document list their members as an object does, each name once. -/
def Enumerated (v : Json) : Prop :=
  ∀ members, HasObject v members → Listed members ∧ (Record.keys members).Nodup

/-- No object of the document has a member named `__proto__`. -/
def NoProto (v : Json) : Prop :=
  ∀ members, HasObject v members → js "__proto__" ∉ Record.keys members

/-- What holds of every member the rule takes. -/
def EveryTaken (rule : Rule) (P : JsString → Json → Prop) (v : Json) : Prop :=
  ∀ members, HasObject v members → ∀ m ∈ members, rule.takes m.1 m.2 = true → P m.1 m.2

end Rewritten

section Correct

variable {rule : Rule} {Written : JsString → Json → Json → Prop} {path : JsString} {v w : Json}

theorem keys_of_walkMembers {members out : List (JsString × Json)}
    (h : walkMembers rule path members = .ok out) : Record.keys out = Record.keys members := by
  have hall := walkMembers_ok.mp h
  clear h
  induction hall with
  | nil => rfl
  | cons hm _ ih => rw [Record.keys_cons, Record.keys_cons, hm.1, ih]

/-- A walk that keeps the names keeps the members in their order. -/
theorem assignAll_of_walkMembers {members out : List (JsString × Json)}
    (h : walkMembers rule path members = .ok out) (hlisted : Listed members)
    (hnodup : (Record.keys members).Nodup) (hproto : js "__proto__" ∉ Record.keys members) :
    assignAll out = out := by
  have hkeys := keys_of_walkMembers h
  refine assignAll_of_listed ?_ (hkeys ▸ hnodup) (hkeys ▸ hproto)
  rw [Listed, hkeys]
  exact hlisted

theorem isObject_of_hasObject {members : List (JsString × Json)} (h : HasObject v members) :
    Json.isObject (some v) = true := by
  cases h <;> rfl

theorem everyTaken_arr {P : JsString → Json → Prop} {items : List Json} :
    EveryTaken rule P (.arr items) ↔ ∀ v ∈ items, EveryTaken rule P v := by
  constructor
  · exact fun h v hv members hin => h members (.item hv hin)
  · rintro h members (_ | @⟨_, v, _, hv, hin⟩)
    exact h v hv members hin

theorem everyTaken_obj {P : JsString → Json → Prop} {members : List (JsString × Json)} :
    EveryTaken rule P (.obj members) ↔
      ∀ m ∈ members, (rule.takes m.1 m.2 = true → P m.1 m.2) ∧ EveryTaken rule P m.2 := by
  constructor
  · intro h m hm
    exact ⟨h members (.here members) m hm, fun ms hin => h ms (.member hm hin)⟩
  · intro h ms hin
    cases hin with
    | here => exact fun m hm => (h m hm).1
    | member hm hin => exact (h _ hm).2 ms hin

theorem exists_forall₂ {α β : Type} {R : α → β → Prop} {xs : List α} :
    (∃ ys, List.Forall₂ R xs ys) ↔ ∀ x ∈ xs, ∃ y, R x y := by
  induction xs with
  | nil => simp
  | cons x xs ih =>
    rw [List.forall_mem_cons, ← ih]
    constructor
    · rintro ⟨_, _ | @⟨_, y, _, ys, hy, hys⟩⟩
      exact ⟨⟨y, hy⟩, ys, hys⟩
    · rintro ⟨⟨y, hy⟩, ys, hys⟩
      exact ⟨y :: ys, .cons hy hys⟩

/-- A walk is refused only for a member the rule takes. -/
theorem walk_ok_iff : (∃ w, walk rule path v = .ok w) ↔
    EveryTaken rule (fun k u => ∃ w, rule.rewrite path k u = .ok w) v := by
  have hscalar : ∀ {v : Json}, Json.isObject (some v) = false →
      EveryTaken rule (fun k u => ∃ w, rule.rewrite path k u = .ok w) v := by
    intro v hv members hin
    rw [isObject_of_hasObject hin] at hv
    cases hv
  induction v with
  | null | bool _ | num _ | str _ => exact iff_of_true ⟨_, rfl⟩ (hscalar rfl)
  | arr items ih =>
    have hitems : (∃ w, walk rule path (.arr items) = .ok w) ↔
        ∃ outs, walkItems rule path 0 items = .ok outs := by
      simp only [walk, map_ok]
      exact exists_comm.trans (exists_congr fun outs => by simp)
    simp only [hitems, walkItems_ok, exists_forall₂, everyTaken_arr]
    exact forall₂_congr ih
  | obj members ih =>
    have hmembers : (∃ w, walk rule path (.obj members) = .ok w) ↔
        ∃ out, walkMembers rule path members = .ok out := by
      simp only [walk, map_ok]
      exact exists_comm.trans (exists_congr fun out => by simp)
    simp only [hmembers, walkMembers_ok, exists_forall₂, everyTaken_obj]
    refine forall₂_congr fun m hm => ?_
    by_cases htakes : rule.takes m.1 m.2 = true
    · simp only [walkMember, htakes, if_true, forall_const]
      constructor
      · rintro ⟨n, -, hn⟩
        exact ⟨⟨n.2, hn⟩, hscalar (rule.scalar _ _ _ _ htakes hn)⟩
      · rintro ⟨⟨w, hw⟩, -⟩
        exact ⟨(m.1, w), rfl, hw⟩
    · simp only [walkMember, htakes, Bool.false_eq_true, if_false, ← ih m hm]
      constructor
      · rintro ⟨n, -, hn⟩
        exact ⟨nofun, n.2, hn⟩
      · rintro ⟨-, w, hw⟩
        exact ⟨(m.1, w), rfl, hw⟩

theorem Enumerated.item {items : List Json} (h : Enumerated (.arr items)) (hv : v ∈ items) :
    Enumerated v := fun members hin => h members (.item hv hin)

theorem Enumerated.member {members : List (JsString × Json)} {m : JsString × Json}
    (h : Enumerated (.obj members)) (hm : m ∈ members) : Enumerated m.2 :=
  fun ms hin => h ms (.member hm hin)

/-- Where no member is named `__proto__`, a walk writes the members the rule takes and keeps the
others. -/
theorem rewritten_of_walk (hdoc : Enumerated v) (hproto : NoProto v)
    (hwritten : EveryTaken rule
      (fun k u => ∀ w, rule.rewrite path k u = .ok w → Written k u w) v)
    (h : walk rule path v = .ok w) : Rewritten rule Written v w := by
  induction v generalizing w with
  | null | bool _ | num _ | str _ =>
    cases h
    rfl
  | arr items ih =>
    obtain ⟨outs, houts, rfl⟩ := map_ok.mp h
    rw [Rewritten, rewrittenItems_iff]
    rw [everyTaken_arr] at hwritten
    refine (List.forall₂_iff_get.mpr ?_)
    obtain ⟨hlen, hall⟩ := List.forall₂_iff_get.mp (walkItems_ok.mp houts)
    refine ⟨hlen, fun i hi hi' => ?_⟩
    have hmem := List.get_mem items ⟨i, hi⟩
    exact ih _ hmem (hdoc.item hmem) (fun ms hin => hproto ms (.item hmem hin)) (hwritten _ hmem)
      (hall i hi hi')
  | obj members ih =>
    obtain ⟨out, hout, rfl⟩ := map_ok.mp h
    obtain ⟨hlisted, hnodup⟩ := hdoc members (.here members)
    rw [assignAll_of_walkMembers hout hlisted hnodup (hproto members (.here members)), Rewritten,
      rewrittenMembers_iff]
    rw [everyTaken_obj] at hwritten
    obtain ⟨hlen, hall⟩ := List.forall₂_iff_get.mp (walkMembers_ok.mp hout)
    refine List.forall₂_iff_get.mpr ⟨hlen, fun i hi hi' => ?_⟩
    have hmem := List.get_mem members ⟨i, hi⟩
    obtain ⟨hname, hvalue⟩ := hall i hi hi'
    refine ⟨hname, ?_⟩
    rw [walkMember] at hvalue
    split at hvalue
    · next htakes =>
      rw [if_pos htakes]
      exact (hwritten _ hmem).1 htakes _ hvalue
    · next htakes =>
      rw [if_neg htakes]
      exact ih _ hmem (hdoc.member hmem) (fun ms hin => hproto ms (.member hmem hin))
        (hwritten _ hmem).2 hvalue

theorem exists_of_forall₂ {α β : Type} {R S : α → β → Prop} {xs : List α} {ys : List β} {x : α}
    (h : List.Forall₂ R xs ys) (h' : List.Forall₂ S xs ys) (hx : x ∈ xs) : ∃ y, R x y ∧ S x y := by
  obtain ⟨i, rfl⟩ := List.mem_iff_get.mp hx
  have hi : i.1 < ys.length := h.length_eq ▸ i.2
  exact ⟨_, (List.forall₂_iff_get.mp h).2 i i.2 hi, (List.forall₂_iff_get.mp h').2 i i.2 hi⟩

/-- Members that are all kept were kept in their order. -/
theorem rewritten_of_assignAll {members out : List (JsString × Json)}
    (hout : walkMembers rule path members = .ok out) (hlisted : Listed members)
    (hnodup : (Record.keys members).Nodup)
    (hw : Rewritten rule Written (.obj members) (.obj (assignAll out))) :
    js "__proto__" ∉ Record.keys members ∧
      List.Forall₂ (RewrittenMember rule Written) members out := by
  rw [Rewritten, rewrittenMembers_iff] at hw
  have hlen : (assignAll out).length = out.length :=
    hw.length_eq.symm.trans (walkMembers_ok.mp hout).length_eq
  have hproto : js "__proto__" ∉ Record.keys members :=
    keys_of_walkMembers hout ▸ (length_assignAll_iff.mp hlen).2
  rw [assignAll_of_walkMembers hout hlisted hnodup hproto] at hw
  exact ⟨hproto, hw⟩

/-- No more than that is kept: a document that is rewritten so has no member named `__proto__`, and
what the rule took is written. -/
theorem noProto_of_rewritten (hdoc : Enumerated v) (h : walk rule path v = .ok w)
    (hw : Rewritten rule Written v w) : NoProto v ∧ EveryTaken rule
      (fun k u => ∃ w, rule.rewrite path k u = .ok w ∧ Written k u w) v := by
  suffices hall : ∀ members, HasObject v members → js "__proto__" ∉ Record.keys members ∧
      ∀ m ∈ members, rule.takes m.1 m.2 = true →
        ∃ w, rule.rewrite path m.1 m.2 = .ok w ∧ Written m.1 m.2 w from
    ⟨fun ms hin => (hall ms hin).1, fun ms hin => (hall ms hin).2⟩
  intro members hin
  induction hin generalizing w with
  | here members =>
    obtain ⟨out, hout, rfl⟩ := map_ok.mp h
    obtain ⟨hlisted, hnodup⟩ := hdoc members (.here members)
    obtain ⟨hproto, hw⟩ := rewritten_of_assignAll hout hlisted hnodup hw
    refine ⟨hproto, fun m hm htakes => ?_⟩
    obtain ⟨n, ⟨-, hvalue⟩, -, hwritten⟩ := exists_of_forall₂ (walkMembers_ok.mp hout) hw hm
    rw [walkMember, if_pos htakes] at hvalue
    rw [if_pos htakes] at hwritten
    exact ⟨n.2, hvalue, hwritten⟩
  | item hv hin ih =>
    obtain ⟨outs, houts, rfl⟩ := map_ok.mp h
    rw [Rewritten, rewrittenItems_iff] at hw
    obtain ⟨u, hvu, hwu⟩ := exists_of_forall₂ (walkItems_ok.mp houts) hw hv
    exact ih (hdoc.item hv) hvu hwu
  | @member outer m ms hm hin ih =>
    obtain ⟨out, hout, rfl⟩ := map_ok.mp h
    obtain ⟨hlisted, hnodup⟩ := hdoc outer (.here outer)
    obtain ⟨-, hw⟩ := rewritten_of_assignAll hout hlisted hnodup hw
    obtain ⟨n, ⟨-, hvalue⟩, -, hwritten⟩ := exists_of_forall₂ (walkMembers_ok.mp hout) hw hm
    -- a member with objects in it is not taken
    have htakes : ¬ rule.takes m.1 m.2 = true := by
      intro htakes
      rw [walkMember, if_pos htakes] at hvalue
      have hscalar := rule.scalar _ _ _ _ htakes hvalue
      rw [isObject_of_hasObject hin] at hscalar
      cases hscalar
    rw [walkMember, if_neg htakes] at hvalue
    rw [if_neg htakes] at hwritten
    exact ih (hdoc.member hm) hvalue hwritten

/-- A member that is not taken is not taken when it is walked. -/
theorem takes_of_walk {k : JsString} (h : walk rule path v = .ok w) :
    rule.takes k w = rule.takes k v := by
  cases v with
  | null | bool _ | num _ | str _ =>
    cases h
    rfl
  | arr items =>
    obtain ⟨outs, -, rfl⟩ := map_ok.mp h
    exact rule.alike _ _ _ rfl rfl
  | obj members =>
    obtain ⟨out, -, rfl⟩ := map_ok.mp h
    exact rule.alike _ _ _ rfl rfl

theorem exists_of_mem_forall₂ {α β : Type} {R : α → β → Prop} {xs : List α} {ys : List β} {y : β}
    (h : List.Forall₂ R xs ys) (hy : y ∈ ys) : ∃ x ∈ xs, R x y := by
  obtain ⟨i, rfl⟩ := List.mem_iff_get.mp hy
  have hi : i.1 < xs.length := h.length_eq.symm ▸ i.2
  exact ⟨_, List.get_mem xs ⟨i, hi⟩, (List.forall₂_iff_get.mp h).2 i hi i.2⟩

/-- Where what is written is taken again and stays, the walked document stays. -/
theorem walk_walk (hagain : EveryTaken rule (fun k u => ∀ w, rule.rewrite path k u = .ok w →
    rule.takes k w = true ∧ rule.rewrite path k w = .ok w) v) (h : walk rule path v = .ok w) :
    walk rule path w = .ok w := by
  induction v generalizing w with
  | null | bool _ | num _ | str _ =>
    cases h
    rfl
  | arr items ih =>
    obtain ⟨outs, houts, rfl⟩ := map_ok.mp h
    rw [everyTaken_arr] at hagain
    refine map_ok.mpr ⟨outs, walkItems_ok.mpr ?_, rfl⟩
    rw [List.forall₂_same]
    intro w hw
    obtain ⟨v, hv, hvw⟩ := exists_of_mem_forall₂ (walkItems_ok.mp houts) hw
    exact ih v hv (hagain v hv) hvw
  | obj members ih =>
    obtain ⟨out, hout, rfl⟩ := map_ok.mp h
    rw [everyTaken_obj] at hagain
    refine map_ok.mpr ⟨assignAll out, walkMembers_ok.mpr ?_,
      congrArg Json.obj (assignAll_assignAll out)⟩
    rw [List.forall₂_same]
    intro n hn
    have hn := mem_of_mem_assignAll hn
    obtain ⟨m, hm, hname, hvalue⟩ := exists_of_mem_forall₂ (walkMembers_ok.mp hout) hn
    refine ⟨rfl, ?_⟩
    rw [walkMember] at hvalue ⊢
    split at hvalue
    · next htakes =>
      obtain ⟨htakes', hsame⟩ := (hagain m hm).1 htakes _ hvalue
      rw [hname, if_pos htakes', hsame]
    · next htakes =>
      rw [hname, takes_of_walk hvalue, if_neg htakes]
      exact ih m hm (hagain m hm).2 hvalue

end Correct

section Transform

variable (rule : Rule) (refusal : JsString) (Written : JsString → Json → Json → Prop)

/-- `transform(doc)`: an array or an object is walked from its root. -/
def transformWith (doc : Json) : Except Thrown Json :=
  if Json.isObject (some doc) then walk rule (js "$") doc else .error (.typeError refusal)

/-- What a codemod should make of a document it does not refuse: the members its rule takes are
written anew, the rest stays, and a second run changes nothing. -/
def Conforms (doc : Json) : Prop :=
  ∀ out, transformWith rule refusal doc = .ok out →
    Rewritten rule Written doc out ∧ transformWith rule refusal out = .ok out

/-- Some member the rule takes is refused. -/
def Refused (doc : Json) : Prop :=
  ∃ members, HasObject doc members ∧ ∃ m ∈ members, rule.takes m.1 m.2 = true ∧
    ∀ w, rule.rewrite (js "$") m.1 m.2 ≠ .ok w

variable {rule refusal Written} {doc out : Json}

theorem isObject_walk {path : JsString} (h : walk rule path doc = .ok out) :
    Json.isObject (some out) = Json.isObject (some doc) := by
  cases doc with
  | null | bool _ | num _ | str _ =>
    cases h
    rfl
  | arr items =>
    obtain ⟨outs, -, rfl⟩ := map_ok.mp h
    rfl
  | obj members =>
    obtain ⟨ms, -, rfl⟩ := map_ok.mp h
    rfl

theorem exists_walk_iff : (∃ out, walk rule (js "$") doc = .ok out) ↔ ¬ Refused rule doc := by
  rw [walk_ok_iff]
  simp only [EveryTaken, Refused]
  push Not
  rfl

/-- A codemod does what it should on the documents without a member named `__proto__` where it
writes what it takes as it should, if that is taken again and stays. -/
theorem conforms_iff (hdoc : Enumerated doc)
    (hstays : ∀ k v w, rule.takes k v = true → rule.rewrite (js "$") k v = .ok w →
      Written k v w → rule.takes k w = true ∧ rule.rewrite (js "$") k w = .ok w) :
    Conforms rule refusal Written doc ↔ Refused rule doc ∨ NoProto doc ∧
      EveryTaken rule (fun k v => ∀ w, rule.rewrite (js "$") k v = .ok w → Written k v w) doc := by
  by_cases hobject : Json.isObject (some doc) = true
  swap
  · have hnone : ∀ {members}, ¬ HasObject doc members := fun hin =>
      hobject (isObject_of_hasObject hin)
    refine iff_of_true (fun out h => ?_) (Or.inr ⟨fun _ hin => absurd hin hnone,
      fun _ hin => absurd hin hnone⟩)
    rw [transformWith, if_neg hobject] at h
    cases h
  by_cases hrefused : Refused rule doc
  · refine iff_of_true (fun out h => ?_) (Or.inl hrefused)
    rw [transformWith, if_pos hobject] at h
    exact absurd hrefused (exists_walk_iff.mp ⟨out, h⟩)
  obtain ⟨out, hwalk⟩ := exists_walk_iff.mpr hrefused
  have hout : transformWith rule refusal doc = .ok out := by rwa [transformWith, if_pos hobject]
  rw [or_iff_right hrefused]
  constructor
  · intro h
    obtain ⟨hproto, htaken⟩ := noProto_of_rewritten hdoc hwalk (h out hout).1
    refine ⟨hproto, fun members hin m hm htakes w hw => ?_⟩
    obtain ⟨w', hw', hwritten⟩ := htaken members hin m hm htakes
    exact Except.ok.inj (hw'.symm.trans hw) ▸ hwritten
  · rintro ⟨hproto, hwritten⟩ out' hout'
    obtain rfl : out = out' := Except.ok.inj (hout.symm.trans hout')
    refine ⟨rewritten_of_walk hdoc hproto hwritten hwalk, ?_⟩
    have hagain := walk_walk (fun members hin m hm htakes w hw =>
      hstays m.1 m.2 w htakes hw (hwritten members hin m hm htakes w hw)) hwalk
    rwa [transformWith, isObject_walk hwalk, if_pos hobject]

end Transform

end OpenWop.Codemods
