import Xv6Threading.Mutex.Exclusion

/-!
# What the ids of `mutex_init` name (`proc.c:777-836`)

The machine of `Mutex.Exclusion` with a record of what the calls of `mutex_init` have returned. A slot that was never given
out has id 0 and state `LOCKED`; a mutex in use is `LOCKED` too while it is held. So `mutex_init` may give a slot out
twice, and `mutex_lock(0)` and `mutex_unlock(0)` find a slot that nobody has been given.

| here | there |
| --- | --- |
| `Ledger.out` | every id returned by `mutex_init`, with the slot `m` it was read from (`proc.c:788-792`), the last first |
| `On s id m a` | the call, or the rest of the call, of `mutex_lock(id)` or `mutex_unlock(id)` that has found slot `m` |
| `mutexLock` | `mutex_lock` up to its return or its first `sleep` (`proc.c:795-817`); no result is the `sleep` |
| `mutexUnlock` | `mutex_unlock` (`proc.c:820-836`) |
-/

namespace Xv6

open Function

namespace Mtable

def mutexLock (mt : Mtable) (id : BitVec 32) : Option Int × Mtable :=
  match mt.findId id with
  | none => (some (-1), mt)
  | some m => if (mt.mutex m).state = .LOCKED then (none, mt) else (some 0, mt.setState m .LOCKED)

def mutexUnlock (mt : Mtable) (id : BitVec 32) : Int × Mtable :=
  match mt.findId id with
  | none => (-1, mt)
  | some m => if (mt.mutex m).state ≠ .LOCKED then (-1, mt) else (0, mt.setState m .UNLOCKED)

end Mtable

namespace Mutex

variable {T : Type} [DecidableEq T]

structure Ledger (T : Type) where
  sys : Sys T
  out : List (BitVec 32 × Mslot)

namespace Ledger

/-- The slots that have been given out. -/
def slots (l : Ledger T) : List Mslot := l.out.map Prod.snd

/-- What the call adds to the record. -/
def returned (l : Ledger T) : Act T → List (BitVec 32 × Mslot)
  | .init _ =>
    match l.sys.mt.mutexInit with
    | some (mt, m) => [((mt.mutex m).id, m)]
    | none => []
  | .lock _ _ | .unlock _ _ | .resume _ | .kill _ => []

def step (l : Ledger T) (a : Act T) : Option (Ledger T) := (l.sys.step a).map fun s => ⟨s, l.returned a ++ l.out⟩

end Ledger

def ledger (T : Type) [DecidableEq T] : Machine (Ledger T) (Act T) where
  init l := l = ⟨Sys.boot, []⟩
  step := Ledger.step

inductive On (s : Sys T) (id : BitVec 32) (m : Mslot) : Act T → Prop
  | lock (t : T) (h : s.mt.findId id = some m) : On s id m (.lock t id)
  | unlock (t : T) (h : s.mt.findId id = some m) : On s id m (.unlock t id)
  | resume (t : T) (h : s.thr t = .waiting id m false) : On s id m (.resume t)

/-- Every returned id names the slot it was returned for and no other, and no two calls have returned the same id or the
same slot. -/
structure KeepsNames (l : Ledger T) : Prop where
  names : ∀ e ∈ l.out, ∀ m, (l.sys.mt.mutex m).id = e.1 ↔ m = e.2
  apart : l.out.Pairwise fun e e' => e.1 ≠ e'.1 ∧ e.2 ≠ e'.2

/-- `mutex_init` takes a slot that has not been given out; `mutex_lock` and `mutex_unlock` find one that has. -/
def NamesSafe (l : Ledger T) : Act T → Prop
  | .init _ => ∀ m, l.sys.mt.findLocked = some m → m ∉ l.slots
  | .lock _ id | .unlock _ id => ∀ m, l.sys.mt.findId id = some m → m ∈ l.slots
  | .resume _ | .kill _ => True

instance (l : Ledger T) : (a : Act T) → Decidable (NamesSafe l a)
  | .init _ => inferInstanceAs (Decidable (∀ m, l.sys.mt.findLocked = some m → m ∉ l.slots))
  | .lock _ id | .unlock _ id => inferInstanceAs (Decidable (∀ m, l.sys.mt.findId id = some m → m ∈ l.slots))
  | .resume _ | .kill _ => inferInstanceAs (Decidable True)

/-! ## What a step does to the table -/

theorem enter_mt (s : Sys T) (t : T) (id : BitVec 32) (m : Mslot) :
    (s.enter t id m).mt = s.mt ∨ (s.enter t id m).mt = s.mt.setState m .LOCKED := by
  unfold Sys.enter
  split
  · exact .inl rfl
  · exact .inr rfl

theorem mutexInit_eq {mt : Mtable} : mt.mutexInit = mt.findLocked.map fun m =>
    (⟨update mt.mutex m ⟨mt.nextmid, .UNLOCKED⟩, mt.nextmid + 1⟩, m) := by
  unfold Mtable.mutexInit
  cases mt.findLocked <;> rfl

variable {l l' : Ledger T} {t : T}

/-- A call of `mutex_init` gives the first `LOCKED` slot out. -/
theorem step_init (hl : l.step (.init t) = some l') :
    (l.sys.mt.findLocked = none ∧ l' = l) ∨ ∃ m, l.sys.mt.findLocked = some m ∧ l' =
      ⟨{ l.sys with mt := ⟨update l.sys.mt.mutex m ⟨l.sys.mt.nextmid, .UNLOCKED⟩, l.sys.mt.nextmid + 1⟩ },
        (l.sys.mt.nextmid, m) :: l.out⟩ := by
  obtain ⟨s, hs, rfl⟩ := Option.map_eq_some_iff.1 hl
  simp only [Sys.step] at hs
  split at hs
  case isFalse => cases hs
  simp only [Ledger.returned]
  rw [mutexInit_eq] at hs ⊢
  cases hm : l.sys.mt.findLocked with
  | none =>
    rw [hm] at hs
    cases hs
    exact .inl ⟨rfl, rfl⟩
  | some m =>
    rw [hm] at hs
    cases hs
    exact .inr ⟨m, rfl, by simp⟩

variable {a : Act T}

/-- Every other call changes at most the state of the slot it has found. -/
theorem step_other (hl : l.step a = some l') (ha : ∀ t, a ≠ .init t) :
    l'.out = l.out ∧ (l'.sys.mt = l.sys.mt ∨ ∃ id m st, On l.sys id m a ∧ l'.sys.mt = l.sys.mt.setState m st) := by
  obtain ⟨s, hs, rfl⟩ := Option.map_eq_some_iff.1 hl
  cases a with
  | init t => exact absurd rfl (ha t)
  | lock t id =>
    refine ⟨rfl, ?_⟩
    simp only [Sys.step] at hs
    split at hs
    case isFalse => cases hs
    split at hs
    · cases hs
      exact .inl rfl
    next m hm =>
      cases hs
      exact (enter_mt l.sys t id m).imp_right fun h => ⟨id, m, _, .lock t hm, h⟩
  | unlock t id =>
    refine ⟨rfl, ?_⟩
    simp only [Sys.step] at hs
    split at hs
    case isFalse => cases hs
    split at hs
    · cases hs
      exact .inl rfl
    rename_i m hm
    split at hs
    · cases hs
      exact .inr ⟨id, m, _, .unlock t hm, rfl⟩
    · cases hs
      exact .inl rfl
  | resume t =>
    refine ⟨rfl, ?_⟩
    simp only [Sys.step] at hs
    split at hs
    next id m hw =>
      cases hs
      exact (enter_mt l.sys t id m).imp_right fun h => ⟨id, m, _, .resume t hw, h⟩
    · cases hs
  | kill t =>
    refine ⟨rfl, .inl ?_⟩
    simp only [Sys.step] at hs
    split at hs
    · cases hs
      rfl
    · cases hs

variable {m : Mslot} {id : BitVec 32} {b : Bool}

theorem enter_waits {s : Sys T} {t u : T} {id' : BitVec 32} {m' : Mslot}
    (hw : (s.enter t id m).thr u = .waiting id' m' b) : s.thr u = .waiting id' m' b ∨ id' = id ∧ m' = m := by
  unfold Sys.enter at hw
  split at hw
  · simp only [Sys.setThr, update_apply] at hw
    split at hw
    · cases hw
      exact .inr ⟨rfl, rfl⟩
    · exact .inl hw
  · simp only [Sys.setHolds, Sys.setThr, update_apply] at hw
    split at hw
    · cases hw
    · exact .inl hw

/-- Who waits has waited before, or has just found the slot. -/
theorem step_waits {s s' : Sys T} (hs : s.step a = some s') {u : T}
    (hw : s'.thr u = .waiting id m b) : (∃ b', s.thr u = .waiting id m b') ∨ On s id m a := by
  cases a with
  | init t =>
    simp only [Sys.step] at hs
    split at hs
    case isFalse => cases hs
    split at hs <;> cases hs <;> exact .inl ⟨b, hw⟩
  | lock t id' =>
    simp only [Sys.step] at hs
    split at hs
    case isFalse => cases hs
    split at hs
    · cases hs
      exact .inl ⟨b, hw⟩
    rename_i m' hm
    cases hs
    rcases enter_waits hw with h | ⟨rfl, rfl⟩
    · exact .inl ⟨b, h⟩
    · exact .inr (.lock t hm)
  | unlock t id' =>
    simp only [Sys.step] at hs
    split at hs
    case isFalse => cases hs
    split at hs
    · cases hs
      exact .inl ⟨b, hw⟩
    rename_i m' hm
    split at hs
    · cases hs
      simp only [Sys.setHolds, Sys.wakeup1] at hw
      cases e : s.thr u with
      | idle => simp [e, Sys.wake] at hw
      | waiting id'' m'' b'' =>
        simp only [e, Sys.wake, Tstate.waiting.injEq] at hw
        obtain ⟨rfl, rfl, -⟩ := hw
        exact .inl ⟨b'', rfl⟩
    · cases hs
      exact .inl ⟨b, hw⟩
  | resume t =>
    simp only [Sys.step] at hs
    split at hs
    next id' m' hw' =>
      cases hs
      rcases enter_waits hw with h | ⟨rfl, rfl⟩
      · exact .inl ⟨b, h⟩
      · exact .inr (.resume t hw')
    · cases hs
  | kill t =>
    simp only [Sys.step] at hs
    split at hs
    next id' m' hw' =>
      cases hs
      simp only [Sys.setThr, update_apply] at hw
      split at hw
      next e =>
        cases hw
        exact .inl ⟨true, e ▸ hw'⟩
      · exact .inl ⟨b, hw⟩
    · cases hs

/-! ## Runs in which no slot is given out twice -/

structure Named (l : Ledger T) : Prop where
  ids : ∀ e ∈ l.out, (l.sys.mt.mutex e.2).id = e.1
  fresh : ∀ m, m ∉ l.slots → l.sys.mt.mutex m = ⟨0, .LOCKED⟩
  apart : l.out.Pairwise fun e e' => e.1 ≠ e'.1 ∧ e.2 ≠ e'.2
  next : l.sys.mt.nextmid.toNat = 1 + l.out.length
  below : ∀ e ∈ l.out, 0 < e.1.toNat ∧ e.1.toNat < l.sys.mt.nextmid.toNat
  /-- Nobody waits on a slot under another name. -/
  wait : ∀ t id m b, l.sys.thr t = .waiting id m b → (id, m) ∈ l.out

section

omit [DecidableEq T]

theorem mem_slots : m ∈ l.slots ↔ ∃ id, (id, m) ∈ l.out := by
  simp [Ledger.slots]

/-- Each slot is given out at most once. -/
theorem Named.length_le (h : Named l) : l.out.length ≤ 5 := by
  have hnodup : l.slots.Nodup := List.pairwise_map.2 (h.apart.imp fun h => h.2)
  have := hnodup.length_le_card
  rwa [Ledger.slots, List.length_map, Fintype.card_fin] at this

theorem Named.keepsNames (h : Named l) : KeepsNames l := by
  refine ⟨fun e he m => ⟨fun hm => ?_, fun hm => hm ▸ h.ids e he⟩, h.apart⟩
  by_cases hout : m ∈ l.slots
  · obtain ⟨id, hid⟩ := mem_slots.1 hout
    have hsame : id = e.1 := (h.ids _ hid).symm.trans hm
    have hkeys : (l.out.map Prod.fst).Nodup := List.pairwise_map.2 (h.apart.imp fun h => h.1)
    exact congrArg Prod.snd (List.inj_on_of_nodup_map hkeys hid he hsame)
  · have := (h.below e he).1
    rw [← hm, h.fresh m hout] at this
    exact absurd this (by simp)

theorem named_boot : Named (⟨Sys.boot, []⟩ : Ledger T) where
  ids _ he := by cases he
  fresh _ _ := rfl
  apart := .nil
  next := rfl
  below _ he := by cases he
  wait _ _ _ _ hw := by cases hw

/-- The call has found a slot that carries its id, and that was given out under it. -/
theorem On.mem (hon : On l.sys id m a) (h : Named l) (hg : NamesSafe l a) : (id, m) ∈ l.out := by
  have hfound : l.sys.mt.findId id = some m → m ∈ l.slots → (id, m) ∈ l.out := by
    intro hm hout
    obtain ⟨id', hid⟩ := mem_slots.1 hout
    rwa [← Mtable.findId_some hm, h.ids _ hid]
  cases hon with
  | lock t hm => exact hfound hm (hg m hm)
  | unlock t hm => exact hfound hm (hg m hm)
  | resume t hw => exact h.wait t id m false hw

theorem Named.init (h : Named l) (hm : m ∉ l.slots) :
    Named (⟨{ l.sys with mt := ⟨update l.sys.mt.mutex m ⟨l.sys.mt.nextmid, .UNLOCKED⟩, l.sys.mt.nextmid + 1⟩ },
      (l.sys.mt.nextmid, m) :: l.out⟩ : Ledger T) := by
  have hlen := h.length_le
  have hnext := h.next
  have hsucc : (l.sys.mt.nextmid + 1).toNat = l.sys.mt.nextmid.toNat + 1 := by
    rw [BitVec.toNat_add]
    simp
    omega
  have hold : ∀ e ∈ l.out, e.2 ≠ m := by
    rintro e he rfl
    exact hm (List.mem_map_of_mem he)
  refine ⟨?_, ?_, ?_, ?_, ?_, ?_⟩
  · intro e he
    rcases List.mem_cons.1 he with rfl | he
    · simp
    · simpa [hold e he] using h.ids e he
  · intro j hj
    obtain ⟨hjm, hj⟩ : j ≠ m ∧ j ∉ l.slots := by simpa [Ledger.slots] using hj
    simpa [hjm] using h.fresh j hj
  · refine List.pairwise_cons.2 ⟨fun e he => ⟨fun heq => ?_, (hold e he).symm⟩, h.apart⟩
    have := (h.below e he).2
    rw [← heq] at this
    exact absurd this (Nat.lt_irrefl _)
  · rw [hsucc, hnext, List.length_cons]
    omega
  · intro e he
    show _ ∧ _ < (l.sys.mt.nextmid + 1).toNat
    rw [hsucc]
    rcases List.mem_cons.1 he with rfl | he
    · exact ⟨by simp only; omega, by simp only; omega⟩
    · have := h.below e he
      exact ⟨this.1, by omega⟩
  · intro t id j b hw
    exact List.mem_cons_of_mem _ (h.wait t id j b hw)

end

theorem Named.step (h : Named l) (hg : NamesSafe l a) (hs : l.step a = some l') : Named l' := by
  by_cases ha : ∃ t, a = .init t
  · obtain ⟨t, rfl⟩ := ha
    rcases step_init hs with ⟨-, rfl⟩ | ⟨m, hm, rfl⟩
    · exact h
    · exact h.init (hg m hm)
  obtain ⟨hout, hmt⟩ := step_other hs fun t e => ha ⟨t, e⟩
  have hwait : ∀ t id m b, l'.sys.thr t = .waiting id m b → (id, m) ∈ l'.out := by
    intro t id m b hw
    obtain ⟨s, hsys, rfl⟩ := Option.map_eq_some_iff.1 hs
    rw [hout]
    rcases step_waits hsys hw with ⟨b', hold⟩ | hon
    · exact h.wait t id m b' hold
    · exact hon.mem h hg
  rcases hmt with hmt | ⟨id, m, st, hon, hmt⟩
  · refine ⟨?_, ?_, hout ▸ h.apart, ?_, ?_, hwait⟩
    all_goals simp only [Ledger.slots, hout, hmt]
    · exact h.ids
    · exact h.fresh
    · exact h.next
    · exact h.below
  have hin : m ∈ l.slots := mem_slots.2 ⟨id, hon.mem h hg⟩
  refine ⟨?_, ?_, hout ▸ h.apart, ?_, ?_, hwait⟩
  all_goals simp only [Ledger.slots, hout, hmt, Mtable.setState_id, Mtable.setState_nextmid]
  · exact h.ids
  · intro j hj
    have hne : j ≠ m := by
      rintro rfl
      exact hj hin
    simpa [Mtable.setState, hne] using h.fresh j hj
  · exact h.next
  · exact h.below

/-- The state of a slot that was given out changes only in calls on its id. -/
theorem Named.state (h : Named l) (hg : NamesSafe l a) (hs : l.step a = some l') :
    ∀ e ∈ l.out, (l'.sys.mt.mutex e.2).state ≠ (l.sys.mt.mutex e.2).state → On l.sys e.1 e.2 a := by
  intro e he hne
  by_cases ha : ∃ t, a = .init t
  · obtain ⟨t, rfl⟩ := ha
    rcases step_init hs with ⟨-, rfl⟩ | ⟨m, hm, rfl⟩
    · exact absurd rfl hne
    have hem : e.2 ≠ m := by
      rintro rfl
      exact hg e.2 hm (List.mem_map_of_mem he)
    exact absurd (by simp [hem]) hne
  obtain ⟨-, hmt | ⟨id, m, st, hon, hmt⟩⟩ := step_other hs fun t e => ha ⟨t, e⟩
  · exact absurd (by rw [hmt]) hne
  · have hem : e.2 = m := by
      by_contra hem
      exact hne (by rw [hmt, Mtable.setState_state_ne _ _ hem])
    have hid : e.1 = id := by rw [← h.ids e he, hem, h.ids _ (hon.mem h hg)]
    rwa [hid, hem]

omit [DecidableEq T] in
/-- A call that meets the condition returns -1 if there is nothing left to give out. -/
theorem Named.init_fails (h : Named l) (hg : NamesSafe l (.init t)) :
    l.sys.mt.mutexInit = none ↔ ∀ m, m ∈ l.slots := by
  rw [mutexInit_eq, Option.map_eq_none_iff]
  constructor
  · intro hno m
    by_contra hm
    have := Fin.find?_eq_none_iff.1 hno m
    simp [h.fresh m hm] at this
  intro hall
  cases hm : l.sys.mt.findLocked with
  | none => rfl
  | some m => exact absurd (hall m) (hg m hm)

theorem named_reach (h : (ledger T).ReachBy NamesSafe l) : Named l := by
  refine h.inv (I := Named) ?_ fun _ _ _ h hg hs => h.step hg hs
  rintro _ rfl
  exact named_boot

/-- **Ids keep their slots.** In every run in which `mutex_init` never takes a slot that has been given out, and
`mutex_lock` and `mutex_unlock` never find one that has not, every returned id keeps naming its slot and no other; only
calls on that id change the state of the slot; and `mutex_init` returns -1 exactly when all slots have been given out. A
`mutex_init` that takes a slot for the second time breaks this. -/
theorem ids_keep_slots :
    (∀ l : Ledger T, (ledger T).ReachBy NamesSafe l → KeepsNames l ∧
      ∀ a l', NamesSafe l a → l.step a = some l' →
        (∀ e ∈ l.out, (l'.sys.mt.mutex e.2).state ≠ (l.sys.mt.mutex e.2).state → On l.sys e.1 e.2 a) ∧
        ∀ t, a = .init t → (l.sys.mt.mutexInit = none ↔ ∀ m, m ∈ l.slots)) ∧
    ∀ (l l' : Ledger T) (t : T) (m : Mslot), l.sys.mt.findLocked = some m → m ∈ l.slots →
      l.step (.init t) = some l' → ¬ KeepsNames l' := by
  refine ⟨fun l hl => ?_, fun l l' t m hm hout hs hk => ?_⟩
  · have h := named_reach hl
    refine ⟨h.keepsNames, fun a l' hg hs => ⟨h.state hg hs, ?_⟩⟩
    rintro t rfl
    exact h.init_fails hg
  rcases step_init hs with ⟨hno, -⟩ | ⟨m', hm', rfl⟩
  · rw [hno] at hm
    cases hm
  · obtain rfl : m = m' := Option.some.inj (hm.symm.trans hm')
    obtain ⟨id, hid⟩ := mem_slots.1 hout
    exact ((List.pairwise_cons.1 hk.apart).1 _ hid).2 rfl

/-- Two mutexes, one of them locked and unlocked again. -/
theorem ids_keep_slots_two : ∃ l : Ledger (Fin 1), l.out = [(2, 1), (1, 0)] ∧ KeepsNames l := by
  obtain ⟨l, hl, hp⟩ := Machine.exists_reachBy (M := ledger (Fin 1)) (G := NamesSafe) rfl
    [.init 0, .init 0, .lock 0 1, .unlock 0 1] (fun l => l.out = [(2, 1), (1, 0)]) (by decide)
  exact ⟨l, of_decide_eq_true hp, (ids_keep_slots.1 l hl).1⟩

/-- A mutex is locked, and the next `mutex_init` renames it: id 1 names nothing any more. Or `mutex_unlock(0)` takes a slot
out of the search, and `mutex_init` fails with four mutexes. -/
theorem id_loses_slot :
    (∃ l : Ledger (Fin 1), (ledger (Fin 1)).Reach l ∧ l.out = [(2, 0), (1, 0)] ∧ l.sys.mt.findId 1 = none) ∧
    ∃ l : Ledger (Fin 1), (ledger (Fin 1)).Reach l ∧ l.out.length = 4 ∧ l.sys.mt.mutexInit.isNone := by
  refine ⟨?_, ?_⟩
  · obtain ⟨l, hl, hp⟩ := Machine.exists_reachBy (M := ledger (Fin 1)) (G := fun _ _ => True) rfl
      [.init 0, .lock 0 1, .init 0] (fun l => l.out = [(2, 0), (1, 0)] ∧ l.sys.mt.findId 1 = none) (by decide)
    obtain ⟨hout, hno⟩ := of_decide_eq_true hp
    exact ⟨l, hl, hout, hno⟩
  obtain ⟨l, hl, hp⟩ := Machine.exists_reachBy (M := ledger (Fin 1)) (G := fun _ _ => True) rfl
    [.unlock 0 0, .init 0, .init 0, .init 0, .init 0] (fun l => l.out.length = 4 ∧ l.sys.mt.mutexInit.isNone) (by decide)
  obtain ⟨hout, hno⟩ := of_decide_eq_true hp
  exact ⟨l, hl, hout, hno⟩

/-! ## Ids that nobody has been given -/

/-- Every slot carries the id it was given out with last, or 0 if it was not given out. -/
def Known (l : Ledger T) : Prop :=
  ∀ m, ((l.sys.mt.mutex m).id, m) ∈ l.out ∨ (l.sys.mt.mutex m).id = 0 ∧ m ∉ l.slots

theorem known_step (h : Known l) (hs : l.step a = some l') : Known l' := by
  by_cases ha : ∃ t, a = .init t
  · obtain ⟨t, rfl⟩ := ha
    rcases step_init hs with ⟨-, rfl⟩ | ⟨m, -, rfl⟩
    · exact h
    intro j
    by_cases hj : j = m
    · subst hj
      exact .inl (by simp)
    · simpa [hj, Ledger.slots] using h j
  obtain ⟨hout, hmt⟩ := step_other hs fun t e => ha ⟨t, e⟩
  intro j
  rcases hmt with hmt | ⟨id, m, st, -, hmt⟩
  · rw [Ledger.slots, hout, hmt]
    exact h j
  · rw [Ledger.slots, hout, hmt, Mtable.setState_id]
    exact h j

theorem known_reach (h : (ledger T).Reach l) : Known l := by
  refine h.inv (I := Known) ?_ fun _ _ _ h hs => known_step h hs
  rintro _ rfl m
  exact .inr ⟨rfl, by simp [Ledger.slots]⟩

/-- Both calls return -1 and leave everything as it was. -/
structure Rejects (s : Sys T) (id : BitVec 32) : Prop where
  lock : s.mt.mutexLock id = (some (-1), s.mt)
  unlock : s.mt.mutexUnlock id = (-1, s.mt)
  still : ∀ t, s.thr t = .idle → s.step (.lock t id) = some s ∧
    ∃ s', s.step (.unlock t id) = some s' ∧ s'.mt = s.mt ∧ s'.thr = s.thr

theorem rejects_iff (s : Sys T) (id : BitVec 32) : Rejects s id ↔ s.mt.findId id = none := by
  constructor
  · intro h
    have hlock := h.lock
    unfold Mtable.mutexLock at hlock
    split at hlock
    · assumption
    · split at hlock <;> simp at hlock
  · intro hno
    refine ⟨by rw [Mtable.mutexLock, hno], by rw [Mtable.mutexUnlock, hno], fun t ht => ?_⟩
    simp only [Sys.step, ht, if_true, hno, true_and]
    exact ⟨_, rfl, rfl, rfl⟩

/-- **Which unknown ids are rejected.** In every reachable state, an id that no `mutex_init` has returned is rejected by
`mutex_lock` and `mutex_unlock` if and only if it is not 0 or no slot is left that was not given out. -/
theorem unknown_id_rejected {l : Ledger T} (hl : (ledger T).Reach l) {id : BitVec 32} (hid : id ∉ l.out.map Prod.fst) :
    Rejects l.sys id ↔ id ≠ 0 ∨ ∀ m, m ∈ l.slots := by
  have hk := known_reach hl
  rw [rejects_iff]
  constructor
  · intro hno
    refine or_iff_not_imp_left.2 fun h0 m => ?_
    have h0 : id = 0 := not_not.1 h0
    by_contra hm
    rcases hk m with hin | ⟨hz, -⟩
    · exact hm (List.mem_map_of_mem hin)
    · exact Mtable.findId_none hno m (h0 ▸ hz)
  intro h
  cases hm : l.sys.mt.findId id with
  | none => rfl
  | some m =>
    have hfound := Mtable.findId_some hm
    rcases hk m with hin | ⟨hz, hout⟩
    · exact absurd (hfound ▸ List.mem_map_of_mem hin) hid
    · rcases h with h0 | hall
      · exact absurd (hfound.symm.trans hz) h0
      · exact absurd (hall m) hout

/-- With id 1 given out. -/
theorem unknown_id_rejected_seven : ∃ l : Ledger (Fin 1), (ledger (Fin 1)).Reach l ∧ l.out = [(1, 0)] ∧
    Rejects l.sys 7 := by
  obtain ⟨l, hl, hp⟩ := Machine.exists_reachBy (M := ledger (Fin 1)) (G := fun _ _ => True) rfl [.init 0]
    (fun l => l.out = [(1, 0)]) (by decide)
  have hout := of_decide_eq_true hp
  exact ⟨l, hl, hout, (unknown_id_rejected hl (by rw [hout]; decide)).2 (.inl (by decide))⟩

/-- Before the first `mutex_init`, `mutex_lock(0)` sleeps, and `mutex_unlock(0)` returns 0 and takes the first slot out of
the search of `mutex_init`. -/
theorem id_zero_accepted : ∃ l : Ledger (Fin 1), (ledger (Fin 1)).Reach l ∧ l.out = [] ∧ l.sys.mt.findLocked = some 0 ∧
    (l.sys.mt.mutexLock 0).1 = none ∧ (l.sys.mt.mutexUnlock 0).1 = 0 ∧
    (l.sys.mt.mutexUnlock 0).2.findLocked = some 1 := by
  refine ⟨⟨Sys.boot, []⟩, .init rfl, rfl, ?_, ?_, ?_, ?_⟩
  all_goals decide

end Mutex

end Xv6
