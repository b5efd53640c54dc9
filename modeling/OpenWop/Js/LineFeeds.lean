import OpenWop.Js.ParseComplete

/-!
# Line feeds in JSON texts

A line feed in a JSON text is insignificant: no token has one. So a run of them may be longer or
shorter, and one more may stand before the text or after it.
-/

namespace OpenWop.Js

namespace Grammar

section Runs

/-- One line feed and `n` more. -/
def feeds (n : Nat) : JsString := List.replicate (n + 1) (unit '\n')

/-- The texts stay texts when a run of line feeds in them gets another length. -/
def Stretches (P : JsString → Prop) : Prop :=
  ∀ a b n m, P (a ++ (feeds n ++ b)) → P (a ++ (feeds m ++ b))

theorem mem_feeds {n : Nat} {u : UInt16} : u ∈ feeds n ↔ u = unit '\n' := by
  rw [feeds, List.mem_replicate]
  exact and_iff_right (Nat.succ_ne_zero n)

theorem feeds_mem (a b : JsString) (n : Nat) : unit '\n' ∈ a ++ (feeds n ++ b) :=
  List.mem_append_right _ (List.mem_append_left _ (mem_feeds.mpr rfl))

/-- A run lies on one side of a place that has no line feed before it or none after it. -/
theorem append_eq_run {s r a b : JsString} {n : Nat} (h : s ++ r = a ++ (feeds n ++ b))
    (hplace : s.getLast? ≠ some (unit '\n') ∨ r.head? ≠ some (unit '\n')) :
    (∃ b', s = a ++ (feeds n ++ b') ∧ b = b' ++ r) ∨
      ∃ a', a = s ++ a' ∧ r = a' ++ (feeds n ++ b) := by
  rcases List.append_eq_append_iff.mp h with ⟨a', ha, hr⟩ | ⟨c, hs, hc⟩
  · exact Or.inr ⟨a', ha, hr⟩
  rcases List.append_eq_append_iff.mp hc with ⟨b', hc, hb⟩ | ⟨d, hd, hr⟩
  · exact Or.inl ⟨b', by rw [hs, hc], hb⟩
  have hall : ∀ u ∈ c ++ d, u = unit '\n' := fun u hu => mem_feeds.mp (hd ▸ hu)
  rcases List.eq_nil_or_concat c with rfl | ⟨c, u, rfl⟩
  · refine Or.inr ⟨[], ?_, ?_⟩
    · rw [hs]
      simp
    · rw [hr, hd]
      simp
  cases d with
  | nil =>
    refine Or.inl ⟨[], ?_, ?_⟩
    · rw [hs, hd]
      simp
    · rw [hr]
      rfl
  | cons v d =>
    -- the place would have a line feed on both sides
    have hu : u = unit '\n' := hall u (by simp)
    have hv : v = unit '\n' := hall v (by simp)
    have hlast : s.getLast? = some (unit '\n') := by
      rw [hs, hu, List.concat_eq_append, ← List.append_assoc, List.getLast?_concat]
    have hhead : r.head? = some (unit '\n') := by
      rw [hr, hv]
      rfl
    exact absurd hplace (not_or_intro (not_not_intro hlast) (not_not_intro hhead))

theorem stretches_of_not_mem {P : JsString → Prop} (h : ∀ x, P x → unit '\n' ∉ x) :
    Stretches P := fun a b n _ hx => absurd (feeds_mem a b n) (h _ hx)

theorem Stretches.congr {P Q : JsString → Prop} (h : ∀ x, Q x ↔ P x) (hP : Stretches P) :
    Stretches Q := fun a b n m hx => (h _).mpr (hP a b n m ((h _).mp hx))

theorem Stretches.or {P Q : JsString → Prop} (hP : Stretches P) (hQ : Stretches Q) :
    Stretches fun x => P x ∨ Q x := fun a b n m hx => hx.imp (hP a b n m) (hQ a b n m)

theorem Stretches.and {p : Prop} {P : JsString → Prop} (hP : Stretches P) :
    Stretches fun x => p ∧ P x := fun a b n m hx => ⟨hx.1, hP a b n m hx.2⟩

/-- Texts put together at places without line feeds on both sides. -/
theorem Stretches.append {P Q : JsString → Prop} (hP : Stretches P) (hQ : Stretches Q)
    (hplace : ∀ s r, P s → Q r → s.getLast? ≠ some (unit '\n') ∨ r.head? ≠ some (unit '\n')) :
    Stretches fun x => ∃ s r, x = s ++ r ∧ P s ∧ Q r := by
  rintro a b n m ⟨s, r, hx, hs, hr⟩
  rcases append_eq_run hx.symm (hplace s r hs hr) with ⟨b', rfl, rfl⟩ | ⟨a', rfl, rfl⟩
  · exact ⟨_, r, by simp, hP a b' n m hs, hr⟩
  · exact ⟨s, _, by simp, hs, hQ a' b n m hr⟩

theorem stretches_ws : Stretches Ws := by
  intro a b n m hx u hu
  rw [List.mem_append, List.mem_append, mem_feeds] at hu
  refine hx u ?_
  rwa [List.mem_append, List.mem_append, mem_feeds]

theorem stretches_unit {c : UInt16} (h : c ≠ unit '\n') : Stretches fun x => x = [c] := by
  refine stretches_of_not_mem fun x hx hmem => h ?_
  rw [hx] at hmem
  exact (List.mem_singleton.mp hmem).symm

/-- Brackets around a text. -/
theorem Stretches.enclosed {P : JsString → Prop} {c d : UInt16} (hP : Stretches P)
    (hc : c ≠ unit '\n') (hd : d ≠ unit '\n') :
    Stretches fun x => ∃ y, x = c :: (y ++ [d]) ∧ P y := by
  refine Stretches.congr ?_ ((stretches_unit hc).append
    (hP.append (stretches_unit hd) fun s r _ hr => Or.inr ?_) fun s r hs _ => Or.inl ?_)
  · intro x
    constructor
    · rintro ⟨y, rfl, hy⟩
      exact ⟨[c], y ++ [d], rfl, rfl, y, [d], rfl, hy, rfl⟩
    · rintro ⟨s, r, rfl, rfl, y, e, rfl, hy, rfl⟩
      exact ⟨y, rfl, hy⟩
  · rw [hr]
    simpa using hd
  · rw [hs]
    simpa using hc

end Runs

section Tokens

theorem not_mem_digits {s : JsString} (h : IsDigits s) : unit '\n' ∉ s :=
  fun hmem => absurd (h.2 _ hmem) (by decide)

theorem not_mem_integer {s : JsString} (h : IsInteger s) : unit '\n' ∉ s := by
  rcases h with rfl | ⟨h, -⟩
  · decide
  · exact not_mem_digits h

theorem not_mem_exponent {x : ExponentPart} (h : x.Valid) : unit '\n' ∉ x.text := by
  rw [ExponentPart.text, List.mem_cons, List.mem_append, Option.mem_toList]
  rintro (hm | hs | hd)
  · rcases h.marker with he | he
    · exact absurd (hm.trans he) (by decide)
    · exact absurd (hm.trans he) (by decide)
  · rcases h.sign _ hs with he | he
    · exact absurd he (by decide)
    · exact absurd he (by decide)
  · exact not_mem_digits h.digits hd

theorem not_mem_literal {l : NumberLiteral} (h : l.Valid) : unit '\n' ∉ l.text := by
  rw [NumberLiteral.text, List.mem_append, List.mem_append, List.mem_append]
  rintro (hn | hi | hf | hx)
  · split at hn
    · exact absurd hn (by decide)
    · exact absurd hn List.not_mem_nil
  · exact not_mem_integer h.integer hi
  · cases hfraction : l.fraction with
    | none => simp [NumberLiteral.fractionText, hfraction] at hf
    | some s =>
      rw [NumberLiteral.fractionText, hfraction, Option.map_some, Option.getD_some,
        List.mem_cons] at hf
      exact hf.elim (by decide) (not_mem_digits (h.fraction s hfraction))
  · cases hexponent : l.exponent with
    | none => simp [NumberLiteral.exponentText, hexponent] at hx
    | some x =>
      rw [NumberLiteral.exponentText, hexponent, Option.map_some, Option.getD_some] at hx
      exact not_mem_exponent (h.exponent x hexponent) hx

theorem not_mem_chars {x s : JsString} (h : Chars x s) : unit '\n' ∉ x := by
  induction h with
  | nil => exact List.not_mem_nil
  | unescaped control quote backslash _ ih =>
    rw [List.mem_cons, not_or]
    refine ⟨?_, ih⟩
    rintro rfl
    exact control (by decide)
  | escape short _ ih =>
    rw [List.mem_cons, List.mem_cons, not_or, not_or]
    refine ⟨by decide, ?_, ih⟩
    rintro rfl
    exact absurd short (Option.some_ne_none _).symm
  | unicode hex _ ih =>
    simp only [List.mem_cons, not_or]
    have hne : ∀ v, isHexDigit v = true → unit '\n' ≠ v := by
      rintro v hv rfl
      exact absurd hv (by decide)
    exact ⟨by decide, by decide, hne _ (hex _ (by simp)), hne _ (hex _ (by simp)),
      hne _ (hex _ (by simp)), hne _ (hex _ (by simp)), ih⟩

theorem not_mem_str {x s : JsString} (h : Str x s) : unit '\n' ∉ x := by
  obtain ⟨hs⟩ := h
  rw [List.mem_cons, List.mem_append, List.mem_singleton, not_or, not_or]
  exact ⟨by decide, not_mem_chars hs, by decide⟩

/-- A value ends with a unit that is no line feed. -/
theorem last_value_ne {x : JsString} {t : JsonTree} (h : Value x t) :
    x.getLast? ≠ some (unit '\n') := by
  have hne : ∀ y : JsString, unit '\n' ∉ y → y.getLast? ≠ some (unit '\n') :=
    fun y hy hlast => hy (List.mem_of_getLast? hlast)
  have hclosed : ∀ (c d : UInt16) (y : JsString), d ≠ unit '\n' →
      (c :: (y ++ [d])).getLast? ≠ some (unit '\n') := by
    intro c d y hd
    rw [← List.cons_append, List.getLast?_concat]
    exact fun heq => hd (Option.some.inj heq)
  cases h with
  | null => exact hne _ (by decide)
  | true => exact hne _ (by decide)
  | false => exact hne _ (by decide)
  | num hl => exact hne _ (not_mem_literal hl)
  | str hs => exact hne _ (not_mem_str hs)
  | emptyArr => exact hclosed _ _ _ (by decide)
  | arr => exact hclosed _ _ _ (by decide)
  | emptyObj => exact hclosed _ _ _ (by decide)
  | obj => exact hclosed _ _ _ (by decide)

/-- A value starts with a unit that is no line feed. -/
theorem head_value_ne {x : JsString} {t : JsonTree} (h : Value x t) (s : JsString) :
    (x ++ s).head? ≠ some (unit '\n') :=
  fun hhead => absurd ((head_value_append h s).1 _ hhead) (by decide)

theorem head_str_ne {x s : JsString} (h : Str x s) (r : JsString) :
    (x ++ r).head? ≠ some (unit '\n') := by
  obtain ⟨hs⟩ := h
  rw [List.cons_append, List.head?_cons]
  decide

end Tokens

section Trees

/-- The texts of the tree stay its texts. -/
def StretchesTo (t : JsonTree) : Prop := Stretches fun x => Value x t

theorem StretchesTo.element {t : JsonTree} (h : StretchesTo t) :
    Stretches fun x => Element x t := by
  refine Stretches.congr ?_ (stretches_ws.append (h.append stretches_ws
    fun s r hs _ => Or.inl (last_value_ne hs)) fun s r _ hr => Or.inr ?_)
  · intro x
    constructor
    · rintro ⟨hw, hv, hw'⟩
      exact ⟨_, _, rfl, hw, _, _, rfl, hv, hw'⟩
    · rintro ⟨w, r, rfl, hw, y, w', rfl, hv, hw'⟩
      exact .value hw hv hw'
  · obtain ⟨y, w', rfl, hv, -⟩ := hr
    exact head_value_ne hv w'

theorem not_elements_nil {x : JsString} : ¬ Elements x [] := by
  intro h
  cases h

theorem not_members_nil {x : JsString} : ¬ Members x [] := by
  intro h
  cases h

theorem stretches_elements {items : List JsonTree} (h : ∀ t ∈ items, StretchesTo t) :
    Stretches fun x => Elements x items := by
  induction items with
  | nil => exact fun _ _ _ _ hx => absurd hx not_elements_nil
  | cons t items ih =>
    rw [List.forall_mem_cons] at h
    have hcomma : Stretches fun x => ∃ s r, x = s ++ r ∧ s = [unit ','] ∧ Elements r items :=
      (stretches_unit (by decide)).append (ih h.2) fun s r hs _ => Or.inl (by rw [hs]; decide)
    refine Stretches.congr ?_ ((h.1.element.and (p := items = [])).or
      (h.1.element.append hcomma fun s r _ hr => Or.inr ?_))
    · intro x
      constructor
      · intro hx
        cases hx with
        | one he => exact Or.inl ⟨rfl, he⟩
        | cons he hs => exact Or.inr ⟨_, _, rfl, he, _, _, rfl, rfl, hs⟩
      · rintro (⟨rfl, he⟩ | ⟨s, r, rfl, he, c, y, rfl, rfl, hs⟩)
        · exact .one he
        · exact .cons he hs
    · obtain ⟨c, y, rfl, rfl, -⟩ := hr
      rw [List.singleton_append, List.head?_cons]
      decide

theorem StretchesTo.member {m : JsString × JsonTree} (h : StretchesTo m.2) :
    Stretches fun x => Member x m := by
  have hcolon : Stretches fun x => ∃ s r, x = s ++ r ∧ s = [unit ':'] ∧ Element r m.2 :=
    (stretches_unit (by decide)).append h.element fun s r hs _ => Or.inl (by rw [hs]; decide)
  have hrest := stretches_ws.append hcolon fun s r _ hr => Or.inr (by
    obtain ⟨c, y, rfl, rfl, -⟩ := hr
    rw [List.singleton_append, List.head?_cons]
    decide)
  have hname : Stretches fun x => Str x m.1 := stretches_of_not_mem fun x hx => not_mem_str hx
  have hnamed := hname.append hrest fun s r hs _ => Or.inl fun hlast =>
    not_mem_str hs (List.mem_of_getLast? hlast)
  refine Stretches.congr ?_ (stretches_ws.append hnamed fun s r _ hr => Or.inr ?_)
  · intro x
    constructor
    · rintro ⟨hw, hk, hw', he⟩
      exact ⟨_, _, rfl, hw, _, _, rfl, hk, _, _, rfl, hw', _, _, rfl, rfl, he⟩
    · rintro ⟨w, r, rfl, hw, s, r', rfl, hk, w', r'', rfl, hw', c, y, rfl, rfl, he⟩
      exact .named hw hk hw' he
  · obtain ⟨y, r, rfl, hk, -⟩ := hr
    exact head_str_ne hk r

theorem stretches_members {members : List (JsString × JsonTree)}
    (h : ∀ m ∈ members, StretchesTo m.2) : Stretches fun x => Members x members := by
  induction members with
  | nil => exact fun _ _ _ _ hx => absurd hx not_members_nil
  | cons m members ih =>
    rw [List.forall_mem_cons] at h
    have hcomma : Stretches fun x => ∃ s r, x = s ++ r ∧ s = [unit ','] ∧ Members r members :=
      (stretches_unit (by decide)).append (ih h.2) fun s r hs _ => Or.inl (by rw [hs]; decide)
    refine Stretches.congr ?_ ((h.1.member.and (p := members = [])).or
      (h.1.member.append hcomma fun s r _ hr => Or.inr ?_))
    · intro x
      constructor
      · intro hx
        cases hx with
        | one he => exact Or.inl ⟨rfl, he⟩
        | cons he hs => exact Or.inr ⟨_, _, rfl, he, _, _, rfl, rfl, hs⟩
      · rintro (⟨rfl, he⟩ | ⟨s, r, rfl, he, c, y, rfl, rfl, hs⟩)
        · exact .one he
        · exact .cons he hs
    · obtain ⟨c, y, rfl, rfl, -⟩ := hr
      rw [List.singleton_append, List.head?_cons]
      decide

/-- A run of line feeds may be longer or shorter in the texts of any tree. -/
theorem stretchesTo (t : JsonTree) : StretchesTo t := by
  induction t with
  | null => exact stretches_of_not_mem fun x hx => by cases hx; decide
  | bool b =>
    refine stretches_of_not_mem fun x hx => ?_
    cases hx with
    | true => decide
    | false => decide
  | num l =>
    refine stretches_of_not_mem fun x hx => ?_
    cases hx with
    | num hl => exact not_mem_literal hl
  | str s =>
    refine stretches_of_not_mem fun x hx => ?_
    cases hx with
    | str hs => exact not_mem_str hs
  | arr items ih =>
    refine Stretches.congr ?_ (((stretches_ws.and (p := items = [])).or
      (stretches_elements ih)).enclosed (c := unit '[') (d := unit ']') (by decide) (by decide))
    intro x
    constructor
    · intro hx
      cases hx with
      | emptyArr hw => exact ⟨_, rfl, Or.inl ⟨rfl, hw⟩⟩
      | arr hs => exact ⟨_, rfl, Or.inr hs⟩
    · rintro ⟨y, rfl, ⟨rfl, hw⟩ | hs⟩
      · exact .emptyArr hw
      · exact .arr hs
  | obj members ih =>
    refine Stretches.congr ?_ (((stretches_ws.and (p := members = [])).or
      (stretches_members ih)).enclosed (c := unit '\x7b') (d := unit '\x7d') (by decide)
      (by decide))
    intro x
    constructor
    · intro hx
      cases hx with
      | emptyObj hw => exact ⟨_, rfl, Or.inl ⟨rfl, hw⟩⟩
      | obj hs => exact ⟨_, rfl, Or.inr hs⟩
    · rintro ⟨y, rfl, ⟨rfl, hw⟩ | hs⟩
      · exact .emptyObj hw
      · exact .obj hs

end Trees

section Texts

variable {t : JsonTree}

/-- Two line feeds in a row are as good as one. -/
theorem text_feed_feed (a b : JsString) :
    Text (a ++ (unit '\n' :: unit '\n' :: b)) t ↔ Text (a ++ (unit '\n' :: b)) t :=
  ⟨(stretchesTo t).element a b 1 0, (stretchesTo t).element a b 0 1⟩

/-- So is a line feed before the text. -/
theorem text_feed_cons (x : JsString) : Text (unit '\n' :: x) t ↔ Text x t := by
  have hws : Ws [unit '\n'] := by
    intro u hu
    rw [List.mem_singleton.mp hu]
    decide
  refine ⟨fun h => ?_, fun h => h.ws hws⟩
  generalize hy : unit '\n' :: x = y at h
  obtain @⟨w, w', v, _, hw, hv, hw'⟩ := h
  cases w with
  | nil =>
    have hhead := head_value_ne hv w'
    rw [← List.nil_append (v ++ w'), ← hy] at hhead
    exact absurd rfl hhead
  | cons u w =>
    rw [List.cons_append] at hy
    rw [(List.cons.inj hy).2]
    exact .value (fun u hu => hw u (List.mem_cons_of_mem _ hu)) hv hw'

/-- So is a line feed after the text. -/
theorem text_concat_feed (x : JsString) : Text (x ++ [unit '\n']) t ↔ Text x t := by
  have hws : Ws [unit '\n'] := by
    intro u hu
    rw [List.mem_singleton.mp hu]
    decide
  constructor
  · intro h
    generalize hy : x ++ [unit '\n'] = y at h
    obtain @⟨w, w', v, _, hw, hv, hw'⟩ := h
    rcases List.eq_nil_or_concat w' with rfl | ⟨w', u, rfl⟩
    · obtain ⟨c, s, hcons, -⟩ := exists_cons_of_value hv
      have hlast : (w ++ v).getLast? = v.getLast? :=
        List.getLast?_append_of_ne_nil w (hcons ▸ List.cons_ne_nil c s)
      rw [List.append_nil] at hy
      rw [← hy, List.getLast?_concat] at hlast
      exact absurd hlast.symm (last_value_ne hv)
    · rw [List.concat_eq_append, ← List.append_assoc, ← List.append_assoc] at hy
      rw [(List.append_inj' hy rfl).1, List.append_assoc]
      refine .value hw hv fun u hu => hw' u ?_
      rw [List.concat_eq_append]
      exact List.mem_append_left _ hu
  · rintro @⟨w, w', v, _, hw, hv, hw'⟩
    rw [List.append_assoc, List.append_assoc]
    exact .value hw hv (hw'.append hws)

theorem not_text_nil : ¬ Text [] t := by
  intro h
  generalize hy : ([] : JsString) = y at h
  obtain @⟨w, w', v, _, hw, hv, hw'⟩ := h
  obtain ⟨c, s, rfl, -⟩ := exists_cons_of_value hv
  simp at hy

end Texts

end Grammar

end OpenWop.Js
