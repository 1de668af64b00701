import Mathlib.Algebra.Order.BigOperators.Group.Finset
import Xv6Threading.Log.Atomicity

/-!
# Room in the log (`log.c:125-141`, `log.c:213-233`)

`begin_op` admits an operation when `lh.n + (outstanding + 1) * MAXOPBLOCKS <= LOGSIZE`, so each operation
has `MAXOPBLOCKS` entries to its name. `log_write` panics when `lh.n >= log.size - 1`, and `mkfs` makes
`log.size = LOGSIZE` with the header block in it: there is one entry less than the admission test counts
on. Three operations that each log `MAXOPBLOCKS` blocks are admitted together and the last one panics.

With one block less for each operation the log has room. Then `lh.n` and what the operations in progress
may still add are at most `nlog - 2` together: with one operation because it starts with an empty log,
with more because each of them leaves an entry of its reservation unused.
-/

namespace Xv6.Log

open Function

variable {β : Type}

/-- The distinct blocks operation `o` has logged. -/
def St.loggedBy (s : St β) (o : Nat) : Finset Nat := ((s.written o).map Prod.fst).toFinset

/-- A `log_write` leaves its operation with at most `k` distinct blocks. -/
def Within (k : Nat) (s : St β) : Act β → Prop
  | .check o i => ∀ x ∈ s.bufs i, (insert x.blockno (s.loggedBy o)).card ≤ k
  | _ => True

instance (k : Nat) (s : St β) (a : Act β) : Decidable (Within k s a) := by
  cases a <;> unfold Within <;> infer_instance

/-- The test of `log_write` before `panic("too big a transaction")`. -/
def TooBig (s : St β) : Prop := s.lh.n ≥ LOGSIZE ∨ s.lh.n ≥ nlog - 1

/-- What the operations in progress may still log, at `k` blocks each. -/
def St.reserve (s : St β) (k : Nat) : Nat := ∑ o ∈ activeOps s.pc s.nextOp, (k - (s.loggedBy o).card)

/-- A commit empties the log. -/
def Quiet (s : St β) : Prop := s.phase = none → s.outstanding = 0 → s.lh.n = 0

/-- Between commits. `room` carries the argument; `fits` is what has been tested for an operation that is
past the test and has not made its entry. -/
structure Room (s : St β) : Prop where
  room : s.phase = none → s.lh.n + s.reserve (MAXOPBLOCKS - 1) ≤ nlog - 2
  fits : ∀ o i x, s.pc o = .logging i → s.bufs i = some x →
    (insert x.blockno (s.loggedBy o)).card ≤ MAXOPBLOCKS - 1

section Room

variable {start : Nat} {s s' : St β} {i : Fin NBUF}

theorem reserve_le (s : St β) (k : Nat) : s.reserve k ≤ (activeOps s.pc s.nextOp).card * k := by
  apply Finset.sum_le_card_nsmul
  intro o _
  exact Nat.sub_le _ _

/-- Nothing changes but the buffers, and a buffer that is being logged keeps its block. -/
theorem Room.of_bufs (h : Room s) {bufs : Bufs β}
    (hb : ∀ o i x, s.pc o = .logging i → bufs i = some x → ∃ y, s.bufs i = some y ∧ y.blockno = x.blockno) :
    Room { s with bufs := bufs } := by
  refine ⟨h.room, ?_⟩
  intro o i x hp hx
  obtain ⟨y, hy, e⟩ := hb o i x hp hx
  exact e ▸ h.fits o i y hp hy

/-- The owner of a buffer edits it. -/
theorem Room.edit (h : Room s) {x y : Buf β} (hx : s.bufs i = some x)
    (hb : y.blockno = x.blockno) : Room { s with bufs := update s.bufs i (some y) } := by
  apply h.of_bufs
  intro o k z _ hz
  by_cases e : k = i
  · subst e
    rw [update_self] at hz
    cases hz
    exact ⟨x, hx, hb.symm⟩
  · rw [update_of_ne e] at hz
    exact ⟨z, hz, rfl⟩

variable {j : Fin NBUF} {b : Nat}

/-- A buffer that is being logged is owned, so it is not recycled. -/
theorem Fetched.keeps_logging {d : Nat → β} {bufs bufs' : Bufs β} {pc : Nat → Pc} {hm : Nat → Prop}
    {x : Buf β} (hf : Fetched d bufs bufs' b j x) (ho : Owned hm bufs pc) (o : Nat)
    (i : Fin NBUF) (z : Buf β) (hp : pc o = .logging i) (hz : bufs' i = some z) : bufs i = some z := by
  by_cases e : i = j
  · subst e
    rw [hf.self] at hz
    cases hz
    obtain ⟨y, hy, hyo⟩ := ho.logging o i hp
    rcases hf.old with hold | ⟨hfree, -⟩
    · exact hold
    · rw [(hfree y hy).2] at hyo
      cases hyo
  · rwa [hf.other i e] at hz

variable {o : Nat}

theorem room_opBread (hi : Inv start s) (h : Room s) (hs : s.opBread start o b j = some s') : Room s' := by
  unfold St.opBread at hs
  split at hs
  · obtain ⟨⟨bufs, i, x⟩, hbr, rfl⟩ := Option.map_eq_some_iff.1 hs
    obtain ⟨hf, -⟩ := fetched_of_bread hbr
    have hr : Room { s with bufs := bufs } :=
      h.of_bufs fun q k z hp hz => ⟨z, hf.keeps_logging hi.owned q k z hp hz, rfl⟩
    exact hr.edit hf.self rfl
  · cases hs

theorem room_read (hi : Inv start s) (h : Room s) (hs : s.read b j = some s') : Room s' := by
  unfold St.read at hs
  split at hs
  · cases hs
  · obtain ⟨⟨bufs, i, x⟩, hbr, rfl⟩ := Option.map_eq_some_iff.1 hs
    obtain ⟨hf, -⟩ := fetched_of_bread hbr
    exact h.of_bufs fun q k z hp hz => ⟨z, hf.keeps_logging hi.owned q k z hp hz, rfl⟩

/-- The new operation has logged nothing; with others in progress, the test of `begin_op` counts an entry
more for each than it will use. -/
theorem room_beginOp (hi : Inv start s) (hq : Quiet s) (h : Room s) (hs : s.beginOp = some s') : Room s' := by
  unfold St.beginOp at hs
  split at hs
  next hg =>
    cases hs
    have hn : s.phase = none := by simpa using hg.1
    have hcard : (activeOps s.pc s.nextOp).card = s.outstanding := hi.counts.card
    refine ⟨fun _ => ?_, ?_⟩
    · have hle := reserve_le { s with
          pc := update s.pc s.nextOp .inOp, nextOp := s.nextOp + 1 } (MAXOPBLOCKS - 1)
      rw [activeOps_begin, Finset.card_insert_of_notMem (by simp [activeOps]), hcard] at hle
      have hres : s.lh.n + (s.outstanding + 1) * (MAXOPBLOCKS - 1) ≤ nlog - 2 := by
        have h0 := hq hn
        have hadm := hg.2
        simp only [nlog, LOGSIZE, MAXOPBLOCKS] at hadm ⊢
        omega
      exact (Nat.add_le_add_left hle _).trans hres
    · intro o i x hp hx
      refine h.fits o i x ?_ hx
      by_cases e : o = s.nextOp
      · simp [e] at hp
      · simpa [e] using hp
  · cases hs

theorem room_check (h : Room s)
    (hw : Within (MAXOPBLOCKS - 1) s (.check o i)) (hs : s.check o i = some s') : Room s' := by
  obtain ⟨x, hm, hs⟩ := Option.bind_eq_some_iff.1 hs
  obtain ⟨hp, hx, -⟩ := mine_some hm
  split at hs
  · cases hs
  split at hs
  · cases hs
  cases hs
  have hact : activeOps (update s.pc o (.logging i)) s.nextOp = activeOps s.pc s.nextOp :=
    activeOps_stay (active_inOp hp) rfl
  refine ⟨fun hn => ?_, ?_⟩
  · have hroom := h.room hn
    simp only [St.reserve] at hroom ⊢
    rw [hact]
    exact hroom
  intro q k y hq hy
  by_cases e : q = o
  · subst e
    simp only [update_self] at hq
    cases hq
    exact hw y hy
  · exact h.fits q k y (by simpa [e] using hq) hy

/-- A new entry is for a block its operation has not logged: what has been is in the log, since no commit
comes in between. So the entry is paid for by the reserve of the operation. -/
theorem room_append (hi : Inv start s) (h : Room s) (hs : s.append o = some s') : Room s' := by
  unfold St.append at hs
  split at hs <;> rename_i hp
  next i =>
    obtain ⟨x, hx, rfl⟩ := Option.map_eq_some_iff.1 hs
    have hact : (s.pc o).active = true := by rw [hp]; rfl
    have hmem : o ∈ activeOps s.pc s.nextOp := hi.counts.mem_activeOps.2 hact
    have hops : activeOps (s.logged o i x).pc s.nextOp = activeOps s.pc s.nextOp := activeOps_stay hact rfl
    have hself : (s.logged o i x).loggedBy o = insert x.blockno (s.loggedBy o) := by
      ext b
      simp [St.loggedBy, St.logged]
    have hother : ∀ q, q ≠ o → (s.logged o i x).loggedBy q = s.loggedBy q := by
      intro q e
      simp [St.loggedBy, St.logged, e]
    have hfits := h.fits o i x hp hx
    refine ⟨fun hn => ?_, ?_⟩
    · have hroom := h.room hn
      have hold : s.reserve (MAXOPBLOCKS - 1) = (MAXOPBLOCKS - 1 - (s.loggedBy o).card) +
          ∑ q ∈ (activeOps s.pc s.nextOp).erase o, (MAXOPBLOCKS - 1 - (s.loggedBy q).card) :=
        (Finset.add_sum_erase _ _ hmem).symm
      have hnew : (s.logged o i x).reserve (MAXOPBLOCKS - 1) =
          (MAXOPBLOCKS - 1 - (insert x.blockno (s.loggedBy o)).card) +
          ∑ q ∈ (activeOps s.pc s.nextOp).erase o, (MAXOPBLOCKS - 1 - (s.loggedBy q).card) := by
        show ∑ q ∈ activeOps (s.logged o i x).pc s.nextOp, _ = _
        rw [hops, ← Finset.add_sum_erase _ _ hmem, hself]
        congr 1
        apply Finset.sum_congr rfl
        intro q hq
        rw [hother q (Finset.ne_of_mem_erase hq)]
      rw [hnew]
      rw [hold] at hroom
      show (s.lh.add x.blockno).n + _ ≤ _
      rcases add_cases s.lh x.blockno with ⟨k, -, -, e⟩ | ⟨hfresh, hn1, -, -⟩
      · have := Finset.card_le_card (Finset.subset_insert x.blockno (s.loggedBy o))
        rw [e]
        omega
      have hnot : x.blockno ∉ s.loggedBy o := by
        intro hb
        obtain ⟨w, hw, e⟩ := List.mem_map.1 (List.mem_toFinset.1 hb)
        rw [← hi.history.curAll o (hi.history.active o hact), writesOf, List.mem_map] at hw
        obtain ⟨v, hv, rfl⟩ := hw
        obtain ⟨k, hk, hkb⟩ := hi.covers v (List.mem_filter.1 hv).1
        exact hfresh k hk (hkb.trans e)
      rw [Finset.card_insert_of_notMem hnot] at hfits ⊢
      omega
    intro q k y hq hy
    by_cases e : q = o
    · subst e
      simp [St.logged] at hq
    rw [hother q e]
    have hqs : s.pc q = .logging k := by simpa [St.logged, e] using hq
    by_cases ek : k = i
    · subst ek
      have hyb : y.blockno = x.blockno := by
        simp only [St.logged, update_self, Option.some.injEq] at hy
        rw [← hy]
      exact hyb ▸ h.fits q k x hqs hx
    · exact h.fits q k y hqs (by simpa [St.logged, ek] using hy)
  · cases hs
  · cases hs

theorem room_endOp (hi : Inv start s) (h : Room s) (hs : s.endOp o = some s') : Room s' := by
  unfold St.endOp at hs
  split at hs
  next hg =>
    cases hs
    have hact := active_inOp hg.1
    have hnone := hi.phase_none hact
    refine ⟨fun _ => ?_, ?_⟩
    · refine le_trans (Nat.add_le_add_left ?_ _) (h.room hnone)
      show ∑ q ∈ activeOps (update s.pc o .idle) s.nextOp, _ ≤ _
      rw [activeOps_leave]
      exact Finset.sum_le_sum_of_subset (Finset.erase_subset _ _)
    · intro q k y hq hy
      refine h.fits q k y ?_ hy
      by_cases e : q = o
      · simp [e] at hq
      · simpa [e] using hq
  · cases hs

/-- While a commit or a recovery is under way no operation is in progress. -/
theorem room_idle (h0 : ∀ o, (s'.pc o).active = false) (hn : s'.phase = none → s'.lh.n = 0) : Room s' := by
  refine ⟨fun hp => ?_, fun o i x hp => ?_⟩
  · have hres : activeOps s'.pc s'.nextOp = ∅ := by
      ext o
      simp [activeOps, h0]
    rw [St.reserve, hres, hn hp]
    simp
  · have := h0 o
    rw [hp] at this
    cases this

theorem diskStep_idle (hi : Inv start s) {k : Fin NBUF} (hs : s.diskStep start j k = some s') :
    (∀ o, (s'.pc o).active = false) ∧ (s'.phase = none → s'.lh.n = 0) := by
  have hphase : s.phase ≠ none := by
    intro hn
    simp [St.diskStep, hn] at hs
  have hidle : ∀ o, (s.pc o).active = false := by
    intro o
    by_contra ha
    exact hphase (hi.phase_none (Bool.eq_true_of_not_eq_false ha))
  have hp := hi.phase
  unfold PhaseInv at hp
  -- only the last step of a commit ends the phase, and it has cleared the header
  unfold St.diskStep at hs
  split at hs <;> rename_i hph
  case h_1 => cases hs
  case h_7 =>
    cases hs
    simp only [hph] at hp
    exact ⟨hidle, fun _ => hp.2.2⟩
  case h_2 | h_4 | h_6 =>
    cases hs
    exact ⟨hidle, fun h => by cases h⟩
  case h_3 | h_5 =>
    split at hs
    · obtain ⟨r, -, rfl⟩ := Option.map_eq_some_iff.1 hs
      exact ⟨hidle, fun h => by cases h⟩
    · cases hs
      exact ⟨hidle, fun h => by cases h⟩

theorem quiet_step (hi : Inv start s) (h : Quiet s) {a : Act β} (hs : s.step start a = some s') : Quiet s' := by
  cases a with
  | beginOp =>
    simp only [St.step, St.beginOp] at hs
    split at hs
    · cases hs
      exact fun _ h0 => absurd h0 (Nat.succ_ne_zero _)
    · cases hs
  | bread o b j =>
    simp only [St.step, St.opBread] at hs
    split at hs
    · obtain ⟨_, -, rfl⟩ := Option.map_eq_some_iff.1 hs
      exact h
    · cases hs
  | modify o i v =>
    obtain ⟨_, -, rfl⟩ := Option.map_eq_some_iff.1 hs
    exact h
  | check o i =>
    obtain ⟨x, -, hs⟩ := Option.bind_eq_some_iff.1 hs
    split at hs
    · cases hs
    split at hs <;> cases hs
    exact h
  | append o =>
    simp only [St.step, St.append] at hs
    split at hs <;> rename_i hp
    · obtain ⟨x, -, rfl⟩ := Option.map_eq_some_iff.1 hs
      have hpos := hi.counts.pos (show (s.pc o).active = true by rw [hp]; rfl)
      exact fun _ h0 => absurd h0 hpos.ne'
    · cases hs
    · cases hs
  | brelse o i =>
    obtain ⟨x, -, hs⟩ := Option.bind_eq_some_iff.1 hs
    split at hs <;> cases hs
    exact h
  | endOp o =>
    simp only [St.step, St.endOp] at hs
    split at hs
    · cases hs
      intro hn h0
      rw [if_pos h0] at hn
      cases hn
    · cases hs
  | disk j k => exact fun hp _ => (diskStep_idle hi hs).2 hp
  | read b j =>
    simp only [St.step, St.read] at hs
    split at hs
    · cases hs
    · obtain ⟨_, -, rfl⟩ := Option.map_eq_some_iff.1 hs
      exact h
  | crash =>
    cases hs
    intro hp
    cases hp

theorem quiet_reach (h : (machine start β).Reach s) : Inv start s ∧ Quiet s := by
  refine Machine.Reach.inv (I := fun s => Inv start s ∧ Quiet s) ?_ ?_ h
  · rintro _ ⟨blk, block, rfl⟩
    exact ⟨inv_boot blk block, fun hp => by cases hp⟩
  · rintro s a t ⟨hi, hq⟩ hs
    exact ⟨inv_step hi hs, quiet_step hi hq hs⟩

theorem room_step (hi : Inv start s) (hq : Quiet s) (h : Room s) {a : Act β} (hw : Within (MAXOPBLOCKS - 1) s a)
    (hs : s.step start a = some s') : Room s' := by
  cases a with
  | beginOp => exact room_beginOp hi hq h hs
  | bread o b j => exact room_opBread hi h hs
  | modify o i v =>
    obtain ⟨x, hm, rfl⟩ := Option.map_eq_some_iff.1 hs
    exact h.edit (mine_some hm).2.1 rfl
  | check o i => exact room_check h hw hs
  | append o => exact room_append hi h hs
  | brelse o i =>
    obtain ⟨x, hm, hs⟩ := Option.bind_eq_some_iff.1 hs
    split at hs
    · cases hs
    · cases hs
      exact h.edit (mine_some hm).2.1 rfl
  | endOp o => exact room_endOp hi h hs
  | disk j k => exact room_idle (diskStep_idle hi hs).1 (diskStep_idle hi hs).2
  | read b j => exact room_read hi h hs
  | crash =>
    cases hs
    exact room_idle (fun _ => rfl) fun h => nomatch h

theorem room_reach (h : (machine start β).ReachBy (Within (MAXOPBLOCKS - 1)) s) : Inv start s ∧ Room s := by
  have hinv := Machine.ReachBy.inv (I := fun s => (Inv start s ∧ Quiet s) ∧ Room s) ?_ ?_ h
  · exact ⟨hinv.1.1, hinv.2⟩
  · rintro _ ⟨blk, block, rfl⟩
    exact ⟨⟨inv_boot blk block, fun hp => nomatch hp⟩, room_idle (fun _ => rfl) fun h => nomatch h⟩
  · rintro s a t ⟨⟨hi, hq⟩, hr⟩ hw hs
    exact ⟨⟨inv_step hi hs, quiet_step hi hq hs⟩, room_step hi hq hr hw hs⟩

/-- **`log_write` finds room when every operation keeps to `MAXOPBLOCKS - 1` distinct blocks**, however the
operations, commits and crashes interleave and however often a block is written again. -/
theorem log_space_suffices (h : (machine start β).ReachBy (Within (MAXOPBLOCKS - 1)) s) {o : Nat} {i : Fin NBUF}
    {x : Buf β} (hm : s.mine o i = some x) : ¬ TooBig s := by
  obtain ⟨hi, hr⟩ := room_reach h
  have hroom := hr.room (hi.phase_none (active_inOp (mine_some hm).1))
  simp only [TooBig, nlog, LOGSIZE, MAXOPBLOCKS] at hroom ⊢
  omega

end Room

/-- `initlog` with an empty log. -/
def recoverEmpty (j : Fin NBUF) : List (Act Unit) := List.replicate 4 (.disk j j)

/-- Operation `o` logs the blocks `first, first + 1, …` from the buffers `bufs`. -/
def logAll (o first : Nat) (bufs : List (Fin NBUF)) : List (Act Unit) :=
  bufs.zipIdx.flatMap fun (i, k) => [.bread o (first + k) i, .check o i, .append o, .brelse o i]

theorem log_space_suffices_nine : ∃ s, (machine 2 Unit).ReachBy (Within (MAXOPBLOCKS - 1)) s ∧
    s.lh.n = MAXOPBLOCKS - 1 ∧ (s.mine 0 0).isSome = true ∧ ¬ TooBig s := by
  obtain ⟨s, hs, hp⟩ := Machine.exists_reachBy (M := machine 2 Unit) (G := Within (MAXOPBLOCKS - 1))
    ⟨fun _ => (), fun _ => 0, rfl⟩
    (recoverEmpty 0 ++ [.beginOp] ++ logAll 0 40 ((List.finRange NBUF).take 9) ++ [.bread 0 40 0])
    (fun s => s.lh.n = MAXOPBLOCKS - 1 ∧ (s.mine 0 0).isSome = true) (by decide)
  obtain ⟨hn, hm⟩ := of_decide_eq_true hp
  obtain ⟨x, hx⟩ := Option.isSome_iff_exists.1 hm
  exact ⟨s, hs, hn, hm, log_space_suffices hs hx⟩

/-- Three operations log ten blocks each. At the last `log_write` of the third, its tenth block, the log
has 29 entries. -/
theorem log_space_short : ∃ s, (machine 2 Unit).ReachBy (Within MAXOPBLOCKS) s ∧
    (s.mine 2 29).isSome = true ∧ Within MAXOPBLOCKS s (.check 2 29) ∧ TooBig s := by
  obtain ⟨s, hs, hp⟩ := Machine.exists_reachBy (M := machine 2 Unit) (G := Within MAXOPBLOCKS)
    ⟨fun _ => (), fun _ => 0, rfl⟩
    (recoverEmpty 0 ++ [.beginOp, .beginOp, .beginOp] ++ logAll 0 40 ((List.finRange NBUF).take 10) ++
      logAll 1 50 (((List.finRange NBUF).drop 10).take 10) ++ logAll 2 60 (((List.finRange NBUF).drop 20).take 9) ++
      [.bread 2 69 29])
    (fun s => (s.mine 2 29).isSome = true ∧ Within MAXOPBLOCKS s (.check 2 29) ∧ s.lh.n ≥ nlog - 1)
    (by decide +kernel)
  obtain ⟨hm, hw, hn⟩ := of_decide_eq_true hp
  exact ⟨s, hs, hm, hw, .inr hn⟩

/-- **When the last operation is over, everything is on disk.** With no operation and no commit in progress the log is
empty, no write is left to be committed, and every home block of the disk has its latest contents. -/
theorem quiet_durable {start : Nat} {s : St β} (h : (machine start β).Reach s)
    (hp : s.phase = none) (h0 : s.outstanding = 0) :
    s.disk.head.n = 0 ∧ s.cur.writes = [] ∧ ∀ b, home start b → s.disk.blk b = s.latest b := by
  obtain ⟨hi, hq⟩ := quiet_reach h
  obtain ⟨-, hn, -⟩ := hi.of_none hp
  have hcur := hi.cur_nil (hq hp h0)
  have hpend := hi.pending
  rw [hn] at hpend
  rw [latest_of_nil hcur]
  exact ⟨hn, hcur, Redo.Pending.zero_iff.1 hpend⟩

theorem quiet_durable_commit : ∃ s, (machine 2 Nat).Reach s ∧ s.disk.blk 40 = 7 := by
  obtain ⟨s, hs, hp⟩ := Machine.exists_reachBy (M := machine 2 Nat) (G := fun _ _ => True)
    ⟨fun _ => 0, fun _ => 0, rfl⟩ (commitAndCrash ++ .replicate 4 (.disk 1 0))
    (fun s => s.phase.isNone ∧ s.outstanding = 0 ∧ s.latest 40 = 7) (by decide)
  obtain ⟨hn, h0, h7⟩ := of_decide_eq_true hp
  exact ⟨s, hs, ((quiet_durable hs (Option.isNone_iff_eq_none.1 hn) h0).2.2 40 (by decide)).trans h7⟩

end Xv6.Log
