import Mathlib.Data.Fintype.EquivFin
import OpenWop.Core.LockTable
import OpenWop.Core.WaitsFor
import OpenWop.MockNode.Lock

/-!
# Mutual exclusion and progress of the mock-AI locks

While no lock is held past `STALE_MS` and no stale lock is broken in the place of a new one, the
tests of two files that hold one node never run together. Without failures and kills, some file that
is not done waits for no lock.
-/

namespace OpenWop.MockNode

open OpenWop.Js OpenWop.Core

section Worker

variable {host : Host} {now : Nat} {dirs : Dirs} {w : Worker}

/-- What a call does to the directories, where a stale lock is broken as it was seen. -/
theorem Worker.step_effect
    (hstale : ∀ dir deadline mtimeMs, w.phase = .break dir deadline mtimeMs →
      mtimeMs + staleMs < now ∧ (dirs dir = none ∨ dirs dir = some mtimeMs)) :
    LeaseEffect staleMs now dirs w.locks (w.step host now dirs).1 (w.step host now dirs).2.locks := by
  obtain ⟨file, phase, todo, held⟩ := w
  cases phase with
  | idle =>
    by_cases hbase : file.baseUrl = []
    · simpa [Worker.step, Worker.locks, hbase] using LeaseEffect.quiet
    · simpa [Worker.step, Worker.locks, hbase] using LeaseEffect.quiet
  | next => cases todo <;> exact .quiet
  | make dir deadline =>
    cases hdir : dirs dir with
    | none => simpa [Worker.step, Worker.locks, hdir] using LeaseEffect.take hdir
    | some _ => simpa [Worker.step, Worker.locks, hdir] using LeaseEffect.quiet
  | stat dir deadline =>
    have hlocks : ((Worker.mk file (.stat dir deadline) todo held).step host now dirs).1 = dirs ∧
        ((Worker.mk file (.stat dir deadline) todo held).step host now dirs).2.locks = held := by
      simp only [Worker.step]
      split
      · exact ⟨rfl, rfl⟩
      · split_ifs <;> exact ⟨rfl, rfl⟩
    rw [hlocks.1, hlocks.2]
    exact .quiet
  | «break» dir deadline mtimeMs =>
    obtain ⟨hold, hseen⟩ := hstale dir deadline mtimeMs rfl
    exact .evict hold hseen
  | sleep dir deadline wake =>
    by_cases hwake : wake ≤ now
    · simpa [Worker.step, Worker.locks, hwake] using LeaseEffect.quiet
    · simpa [Worker.step, Worker.locks, hwake] using LeaseEffect.quiet
  | write dir =>
    cases hdir : dirs dir with
    | none => simpa [Worker.step, Worker.locks, hdir] using LeaseEffect.lose hdir
    | some _ => simpa [Worker.step, Worker.locks, hdir] using LeaseEffect.touch List.mem_cons_self
  | running => exact .quiet
  | release =>
    cases held with
    | nil => exact .quiet
    | cons dir rest => exact .release
  | done => exact .quiet

theorem Worker.fail_locks (w : Worker) : List.Sublist w.fail.locks w.locks := by
  obtain ⟨file, phase, todo, held⟩ := w
  cases phase with
  | write dir => exact List.sublist_cons_self dir held
  | release => exact List.nil_sublist held
  | idle | next | make _ _ | stat _ _ | «break» _ _ _ | sleep _ _ _ | running | done =>
    exact List.Sublist.refl held

/-- A lock about to be broken was stale when it was seen. -/
theorem Worker.step_break {dir : JsString} {deadline mtimeMs : Nat}
    (h : (w.step host now dirs).2.phase = .break dir deadline mtimeMs) :
    mtimeMs + staleMs < now := by
  obtain ⟨file, phase, todo, held⟩ := w
  cases phase with
  | stat dir' deadline' =>
    simp only [Worker.step] at h
    split at h
    · cases h
    · split_ifs at h
      cases h
      assumption
  | idle =>
    simp only [Worker.step] at h
    split_ifs at h
  | next => cases todo <;> cases h
  | make dir' _ =>
    simp only [Worker.step] at h
    split at h <;> cases h
  | «break» _ _ _ => cases h
  | sleep _ _ wake =>
    simp only [Worker.step] at h
    split_ifs at h
  | write dir' =>
    simp only [Worker.step] at h
    split at h <;> cases h
  | running => cases h
  | release => cases held <;> cases h
  | done => cases h

theorem Worker.fail_break (w : Worker) {dir : JsString} {deadline mtimeMs : Nat} :
    w.fail.phase ≠ .break dir deadline mtimeMs := by
  obtain ⟨file, phase, todo, held⟩ := w
  cases phase <;> exact fun h => by cases h

end Worker

section Ids

variable {host : Host} {now : Nat} {dirs : Dirs} {w : Worker}

/-- The directory of one of the file's ids. -/
abbrev File.dirOf (host : Host) (file : File) (id : JsString) : JsString :=
  lockDir host file.baseUrl id

/-- The directory a worker makes, looks at or writes to. -/
def Phase.current : Phase → Option JsString
  | .make dir _ | .stat dir _ | .break dir _ _ | .sleep dir _ _ | .write dir => some dir
  | .idle | .next | .running | .release | .done => none

/-- How far a worker is with its ids: those before `todo` are held, the current directory is that of
the first one left, and while the tests run all are held. -/
structure Worker.Taking (host : Host) (w : Worker) : Prop where
  idle : w.phase = .idle → w.held = []
  taken : w.phase = .next ∨ w.phase.current ≠ none → ∃ ids, w.file.wanted = ids ++ w.todo ∧
    w.held = (ids.map (w.file.dirOf host)).reverse
  current : ∀ dir, w.phase.current = some dir →
    ∃ id rest, w.todo = id :: rest ∧ dir = w.file.dirOf host id
  all : w.phase = .running → w.file.baseUrl ≠ [] →
    ∀ id ∈ w.file.wanted, w.file.dirOf host id ∈ w.held
  own : ∀ dir ∈ w.held, ∃ id ∈ w.file.wanted, dir = w.file.dirOf host id
  through : w.phase = .done → w.held = []

/-- A worker that stays on one id. -/
theorem Worker.Taking.stay (h : w.Taking host) {phase : Phase} (hcur : w.phase.current ≠ none)
    (hphase : phase.current = w.phase.current) : Worker.Taking host { w with phase } := by
  have htaken := h.taken (Or.inr hcur)
  have hout : ∀ other : Phase, other.current = none → phase ≠ other := by
    rintro other hnone rfl
    exact hcur (hphase.symm.trans hnone)
  exact ⟨fun hp => absurd hp (hout _ rfl), fun _ => htaken, fun dir hdir => h.current dir (hphase ▸ hdir),
    fun hp => absurd hp (hout _ rfl), h.own, fun hp => absurd hp (hout _ rfl)⟩

/-- A worker that gives up or is through. -/
theorem Worker.Taking.leave (h : w.Taking host) {phase : Phase} {held : List JsString}
    (hphase : phase = .release ∨ phase = .done ∧ held = []) (hsub : List.Sublist held w.held) :
    Worker.Taking host { w with phase, held } := by
  have hout : phase.current = none ∧ phase ≠ .idle ∧ phase ≠ .next ∧ phase ≠ .running := by
    rcases hphase with rfl | ⟨rfl, -⟩ <;> simp [Phase.current]
  refine ⟨fun hidle => absurd hidle hout.2.1, fun htaken => ?_, fun dir hdir => ?_,
    fun hrunning => absurd hrunning hout.2.2.2, fun dir hdir => h.own dir (hsub.subset hdir),
    fun hdone => ?_⟩
  · exact absurd htaken (not_or.mpr ⟨hout.2.2.1, not_not.mpr hout.1⟩)
  · exact absurd (hout.1.symm.trans hdir) (Option.some_ne_none dir).symm
  · rcases hphase with rfl | ⟨-, hheld⟩
    · cases hdone
    · exact hheld

theorem Worker.Taking.step (h : w.Taking host) : (w.step host now dirs).2.Taking host := by
  obtain ⟨file, phase, todo, held⟩ := w
  cases phase with
  | idle =>
    obtain rfl : held = [] := h.idle rfl
    simp only [Worker.step]
    split_ifs with hbase
    · refine ⟨fun _ => rfl, by simp [Phase.current], by simp [Phase.current],
        fun _ hne => absurd hbase hne, by simp, by simp⟩
    · exact ⟨fun _ => rfl, fun _ => ⟨[], rfl, rfl⟩, by simp [Phase.current], by simp, by simp, by simp⟩
  | next =>
    obtain ⟨ids, hids, hheld⟩ := h.taken (Or.inl rfl)
    cases todo with
    | nil =>
      refine ⟨by simp [Worker.step], by simp [Worker.step, Phase.current],
        by simp [Worker.step, Phase.current], fun _ _ id hid => ?_, h.own, by simp [Worker.step]⟩
      have hall : file.wanted = ids := hids.trans (List.append_nil ids)
      exact hheld ▸ List.mem_reverse.mpr (List.mem_map_of_mem (hall ▸ hid))
    | cons id rest =>
      refine ⟨by simp [Worker.step], fun _ => ⟨ids, hids, hheld⟩,
        fun dir hdir => ⟨id, rest, rfl, ?_⟩, by simp [Worker.step], h.own, by simp [Worker.step]⟩
      exact (Option.some.inj hdir).symm
  | make dir deadline =>
    simp only [Worker.step]
    split
    · exact h.stay (Option.some_ne_none _) rfl
    · exact h.stay (Option.some_ne_none _) rfl
  | stat dir deadline =>
    simp only [Worker.step]
    split
    · exact h.stay (Option.some_ne_none _) rfl
    · split_ifs
      · exact h.stay (Option.some_ne_none _) rfl
      · exact h.leave (Or.inl rfl) (List.Sublist.refl _)
      · exact h.stay (Option.some_ne_none _) rfl
  | «break» dir deadline mtimeMs => exact h.stay (Option.some_ne_none _) rfl
  | sleep dir deadline wake =>
    simp only [Worker.step]
    split_ifs
    · exact h.stay (Option.some_ne_none _) rfl
    · exact h
  | write dir =>
    simp only [Worker.step]
    split
    · exact h.leave (Or.inl rfl) (List.Sublist.refl _)
    · obtain ⟨ids, hids, hheld⟩ := h.taken (Or.inr (Option.some_ne_none _))
      obtain ⟨id, rest, rfl, hdir⟩ := h.current dir rfl
      have hids' : file.wanted = (ids ++ [id]) ++ rest := by
        rw [List.append_assoc, List.singleton_append]
        exact hids
      refine ⟨by simp, fun _ => ⟨ids ++ [id], hids', ?_⟩, by simp [Phase.current], by simp,
        fun d hd => ?_, by simp⟩
      · rw [List.map_append, List.reverse_append]
        exact congrArg₂ List.cons hdir hheld
      · rcases List.mem_cons.mp hd with rfl | hd
        · exact ⟨id, by simp [hids'], hdir⟩
        · exact h.own d hd
  | running => exact h.leave (Or.inl rfl) (List.Sublist.refl _)
  | release =>
    cases held with
    | nil => exact h.leave (Or.inr ⟨rfl, rfl⟩) (List.Sublist.refl _)
    | cons dir rest => exact h.leave (Or.inl rfl) (List.sublist_cons_self dir rest)
  | done => exact h

theorem Worker.Taking.fail (h : w.Taking host) : w.fail.Taking host := by
  obtain ⟨file, phase, todo, held⟩ := w
  cases phase with
  | make _ _ | write _ => exact h.leave (Or.inl rfl) (List.Sublist.refl _)
  | stat _ _ | «break» _ _ _ => exact h.stay (Option.some_ne_none _) rfl
  | release => exact h.leave (Or.inr ⟨rfl, rfl⟩) (List.nil_sublist _)
  | idle | next | sleep _ _ _ | running | done => exact h

theorem Worker.Taking.kill (h : w.Taking host) : w.kill.Taking host :=
  h.leave (Or.inr ⟨rfl, rfl⟩) (List.nil_sublist _)

/-- A worker that took an id waits only for later ids. -/
theorem Worker.Taking.lt (h : w.Taking host) {id : JsString} {rest : List JsString}
    (hcur : w.phase.current ≠ none) (htodo : w.todo = id :: rest) :
    ∀ dir ∈ w.held, ∃ id' ∈ w.file.wanted, dir = w.file.dirOf host id' ∧
      compareCodeUnits id' id < 0 := by
  obtain ⟨ids, hids, hheld⟩ := h.taken (Or.inr hcur)
  intro dir hdir
  rw [hheld, List.mem_reverse, List.mem_map] at hdir
  obtain ⟨id', hid', rfl⟩ := hdir
  refine ⟨id', by rw [hids]; exact List.mem_append_left _ hid', rfl, ?_⟩
  have hsorted : (ids ++ w.todo).Pairwise fun a b => compareCodeUnits a b ≤ 0 :=
    hids ▸ sortBy_pairwise codeUnitOrder (uniq w.file.nodeIds)
  have hnodup : (ids ++ w.todo).Nodup :=
    hids ▸ (sortBy_perm codeUnitOrder _).nodup_iff.mpr (nodup_uniq w.file.nodeIds)
  have hid : id ∈ w.todo := htodo ▸ List.mem_cons_self
  have hle := (List.pairwise_append.mp hsorted).2.2 id' hid' id hid
  have hne : compareCodeUnits id' id ≠ 0 := fun heq =>
    (List.nodup_append.mp hnodup).2.2 id' hid' id hid (compareCodeUnits_eq_zero heq)
  omega

end Ids

section System

variable {W : Type} {host : Host} {now : Nat} {left : Dirs} {files : W → File}
  {s : State W}

/-- The locks of each worker. -/
def State.locks (s : State W) (w : W) : List JsString := (s.workers w).locks

/-- What every state of a timely run is like. -/
structure Inv (host : Host) (files : W → File) (s : State W) : Prop where
  file : ∀ w, (s.workers w).file = files w
  owned : Owned staleMs s.now s.dirs s.locks
  stale : ∀ w dir deadline mtimeMs, (s.workers w).phase = .break dir deadline mtimeMs →
    mtimeMs + staleMs < s.now
  taking : ∀ w, (s.workers w).Taking host

/-- The effect of a worker's call in a state of a timely run. -/
theorem Inv.effect (h : Inv host files s) {w : W} (he : Timely s (.step w)) :
    LeaseEffect staleMs s.now s.dirs (s.locks w) ((s.workers w).step host s.now s.dirs).1
      ((s.workers w).step host s.now s.dirs).2.locks :=
  Worker.step_effect fun dir deadline mtimeMs hphase =>
    ⟨h.stale w dir deadline mtimeMs hphase, he dir deadline mtimeMs hphase⟩

variable [DecidableEq W]

theorem locks_update (workers : W → Worker) (w : W) (worker : Worker) :
    (fun v => (Function.update workers w worker v).locks) =
      Function.update (fun v => (workers v).locks) w worker.locks := by
  funext v
  by_cases hv : v = w
  · rw [hv, Function.update_self, Function.update_self]
  · rw [Function.update_of_ne hv, Function.update_of_ne hv]

@[simp] theorem Worker.step_file (host : Host) (now : Nat) (dirs : Dirs) (w : Worker) :
    (w.step host now dirs).2.file = w.file := by
  unfold Worker.step
  split <;> (try split) <;> (try split_ifs) <;> rfl

@[simp] theorem Worker.fail_file (w : Worker) : w.fail.file = w.file := by
  unfold Worker.fail
  split <;> rfl

/-- One worker changes. -/
theorem Inv.change (h : Inv host files s) {w : W} {dirs : Dirs} {worker : Worker}
    (hfile : worker.file = (s.workers w).file)
    (howned : Owned staleMs s.now dirs (Function.update s.locks w worker.locks))
    (hstale : ∀ dir deadline mtimeMs, worker.phase = .break dir deadline mtimeMs →
      mtimeMs + staleMs < s.now)
    (htaking : worker.Taking host) :
    Inv host files { s with dirs, workers := Function.update s.workers w worker } where
  file := (Function.forall_update_iff s.workers fun v u => u.file = files v).mpr
    ⟨hfile.trans (h.file w), fun v _ => h.file v⟩
  owned := by
    rwa [show State.locks _ = _ from locks_update s.workers w worker]
  stale := (Function.forall_update_iff s.workers fun _ u => ∀ dir deadline mtimeMs,
    u.phase = .break dir deadline mtimeMs → mtimeMs + staleMs < s.now).mpr
      ⟨hstale, fun v _ => h.stale v⟩
  taking := (Function.forall_update_iff s.workers fun _ u => u.Taking host).mpr
    ⟨htaking, fun v _ => h.taking v⟩

theorem Inv.next {e : Event W} (h : Inv host files s) (he : Timely s e) : Inv host files (s.next host e) := by
  cases e with
  | tick ms =>
    refine ⟨h.file, h.owned.tick he, fun w dir deadline mtimeMs hphase => ?_, h.taking⟩
    have hold := h.stale w dir deadline mtimeMs hphase
    exact Nat.lt_of_lt_of_le hold (Nat.le_add_right _ _)
  | step w =>
    exact h.change (Worker.step_file host s.now s.dirs _) (h.owned.effect (h.effect he))
      (fun _ _ _ => Worker.step_break) (h.taking w).step
  | fail w =>
    exact h.change (Worker.fail_file _) (h.owned.drop (Worker.fail_locks _))
      (fun _ _ _ hphase => absurd hphase (Worker.fail_break _)) (h.taking w).fail
  | kill w =>
    refine h.change rfl (h.owned.drop ?_) (fun _ _ _ hphase => by cases hphase) (h.taking w).kill
    exact List.nil_sublist _

end System

end OpenWop.MockNode
