import Mathlib.Data.Fintype.Card
import Xv6Threading.Log.Calls

/-!
# What the buffer cache holds (`bio.c:57-130`)

For a home block the cache is ahead of the disk: it has the latest contents `D`, and what is not dirty is
on disk as well. For a log block it has what is on disk. A buffer that its owner has modified and not
logged yet is exempt. The log entries are pinned: each has a dirty buffer of its own, so there can be no
more of them than buffers, and one less as soon as a log block is cached too.
-/

namespace Xv6.Log

open Function

variable {β : Type} {home : Nat → Prop} {bufs bufs' : Bufs β} {d d' D D' : Nat → β} {b : Nat} {i : Fin NBUF}
    {x y : Buf β} {pc pc' : Nat → Pc} {lh : Logheader}

structure Cached (home : Nat → Prop) (bufs : Bufs β) (d D : Nat → β) : Prop where
  uniq : ∀ i j x y, bufs i = some x → bufs j = some y → x.blockno = y.blockno → i = j
  data : ∀ i x, bufs i = some x → home x.blockno → x.unlogged = false → x.data = D x.blockno
  logs : ∀ i x, bufs i = some x → ¬ home x.blockno → x.data = d x.blockno

def DirtyAt (bufs : Bufs β) (b : Nat) : Prop := ∃ i x, bufs i = some x ∧ x.blockno = b ∧ x.dirty = true

def Clean (home : Nat → Prop) (bufs : Bufs β) (d D : Nat → β) : Prop := ∀ b, home b → ¬ DirtyAt bufs b → d b = D b

/-- Each log entry is for a block of its own, with a dirty buffer. -/
structure Pinned (bufs : Bufs β) (lh : Logheader) : Prop where
  dirty : ∀ k, k < lh.n → DirtyAt bufs (lh.block k)
  inj : ∀ k l, k < lh.n → l < lh.n → lh.block k = lh.block l → k = l

structure Owned (home : Nat → Prop) (bufs : Bufs β) (pc : Nat → Pc) : Prop where
  active : ∀ i x o, bufs i = some x → x.owner = some o → (pc o).active = true ∧ home x.blockno
  unlogged : ∀ i x, bufs i = some x → x.unlogged = true → x.owner ≠ none
  logging : ∀ o i, pc o = .logging i → ∃ x, bufs i = some x ∧ x.owner = some o

/-! ## `bread` -/

/-- Buffer `i` has block `b` now, and has had it before or was free to be recycled. -/
structure Fetched (d : Nat → β) (bufs bufs' : Bufs β) (b : Nat) (i : Fin NBUF) (x : Buf β) : Prop where
  self : bufs' i = some x
  blockno : x.blockno = b
  owner : x.owner = none
  other : ∀ k, k ≠ i → bufs' k = bufs k
  old : bufs i = some x ∨ (∀ y, bufs i = some y → y.dirty = false ∧ y.owner = none) ∧
    (∀ k y, bufs k = some y → y.blockno ≠ b) ∧ x = ⟨b, d b, false, none, false⟩

theorem lookup_some (h : lookup bufs b = some i) : ∃ x, bufs i = some x ∧ x.blockno = b := by
  obtain ⟨x, hx, hb⟩ := (Option.any_eq_true _ _).1 (Fin.find?_eq_some_iff.1 h).1
  exact ⟨x, hx, by simpa using hb⟩

theorem lookup_none (h : lookup bufs b = none) (k : Fin NBUF) (hy : bufs k = some y) : y.blockno ≠ b := by
  have := Fin.find?_eq_none_iff.1 h k
  simpa [hy] using this

theorem fetched_of_bread {avoid : Option (Fin NBUF)} {j : Fin NBUF}
    (h : bread d bufs b avoid j = some (bufs', i, x)) : Fetched d bufs bufs' b i x ∧ avoid ≠ some i := by
  unfold bread at h
  split at h
  next k hk =>
    obtain ⟨z, hz, hb⟩ := lookup_some hk
    simp only [hz] at h
    split at h
    next hown =>
      cases h
      exact ⟨⟨hz, hb, by simpa using hown.1, fun _ _ => rfl, .inl hz⟩, hown.2⟩
    · cases h
  next hk =>
    split at h
    next hr =>
      cases h
      simp only [recyclable, Bool.and_eq_true, bne_iff_ne] at hr
      refine ⟨⟨by simp, rfl, rfl, fun k e => by simp [e], .inr ⟨?_, fun k y => lookup_none hk k, rfl⟩⟩, hr.1⟩
      intro y hy
      have := hr.2
      simp only [hy] at this
      simpa using this
    · cases h

section

variable (h : Fetched d bufs bufs' b i x)
include h

theorem Fetched.dirtyAt (c : Nat) : DirtyAt bufs' c ↔ DirtyAt bufs c := by
  constructor
  · rintro ⟨k, y, hy, hc, hd⟩
    by_cases e : k = i
    · subst e
      rw [h.self] at hy
      cases hy
      rcases h.old with ho | ⟨-, -, rfl⟩
      · exact ⟨k, x, ho, hc, hd⟩
      · cases hd
    · exact ⟨k, y, (h.other k e).symm.trans hy, hc, hd⟩
  rintro ⟨k, y, hy, hc, hd⟩
  by_cases e : k = i
  · subst e
    rcases h.old with ho | ⟨hr, -⟩
    · rw [ho] at hy
      cases hy
      exact ⟨k, x, h.self, hc, hd⟩
    · rw [(hr y hy).1] at hd
      cases hd
  · exact ⟨k, y, (h.other k e).trans hy, hc, hd⟩

theorem Fetched.pinned (hp : Pinned bufs lh) : Pinned bufs' lh :=
  ⟨fun k hk => (h.dirtyAt _).2 (hp.dirty k hk), hp.inj⟩

theorem Fetched.owned (ho : Owned home bufs pc) : Owned home bufs' pc := by
  refine ⟨?_, ?_, ?_⟩
  · intro k y o hy hown
    by_cases e : k = i
    · subst e
      rw [h.self] at hy
      cases hy
      rw [h.owner] at hown
      cases hown
    · exact ho.active k y o ((h.other k e).symm.trans hy) hown
  · intro k y hy hu
    by_cases e : k = i
    · subst e
      rw [h.self] at hy
      cases hy
      rcases h.old with hx | ⟨-, -, rfl⟩
      · exact ho.unlogged k x hx hu
      · cases hu
    · exact ho.unlogged k y ((h.other k e).symm.trans hy) hu
  intro o k hk
  obtain ⟨y, hy, hown⟩ := ho.logging o k hk
  by_cases e : k = i
  · subst e
    rcases h.old with hx | ⟨hr, -⟩
    · rw [hx] at hy
      cases hy
      rw [h.owner] at hown
      cases hown
    · rw [(hr y hy).2] at hown
      cases hown
  · exact ⟨y, (h.other k e).trans hy, hown⟩

/-- A block that is not cached has to be on disk as it should be in the cache. -/
theorem Fetched.cached (hc : Cached home bufs d D)
    (hb : home b → (∀ k y, bufs k = some y → y.blockno ≠ b) → d b = D b) : Cached home bufs' d D := by
  -- each buffer was there before, or is the new one
  have hold : ∀ k y, bufs' k = some y → bufs k = some y ∨ k = i ∧ y = ⟨b, d b, false, none, false⟩ ∧
      ∀ k y, bufs k = some y → y.blockno ≠ b := by
    intro k y hy
    by_cases e : k = i
    · subst e
      rw [h.self] at hy
      cases hy
      exact h.old.imp_right fun ⟨_, hn, hx⟩ => ⟨rfl, hx, hn⟩
    · exact .inl ((h.other k e).symm.trans hy)
  refine ⟨?_, ?_, ?_⟩
  · intro k l y z hy hz hyz
    rcases hold k y hy with hy | ⟨rfl, rfl, hn⟩ <;> rcases hold l z hz with hz | ⟨rfl, rfl, hn'⟩
    · exact hc.uniq k l y z hy hz hyz
    · exact absurd hyz (hn' k y hy)
    · exact absurd hyz.symm (hn l z hz)
    · rfl
  · intro k y hy hh hu
    rcases hold k y hy with hy | ⟨rfl, rfl, hn⟩
    · exact hc.data k y hy hh hu
    · exact hb hh hn
  · intro k y hy hh
    rcases hold k y hy with hy | ⟨rfl, rfl, hn⟩
    · exact hc.logs k y hy hh
    · rfl

/-- As before, whatever the disk has: the contents that the cache shows change at that block only. -/
theorem Fetched.cached_off (hc : Cached home bufs d D) :
    ∃ D', (∀ c, c ≠ b → D' c = D c) ∧ Cached home bufs' d D' := by
  by_cases hn : ∀ k y, bufs k = some y → y.blockno ≠ b
  · refine ⟨update D b (d b), fun c hne => update_of_ne hne _ _, h.cached ⟨hc.uniq, ?_,
      hc.logs⟩ ?_⟩
    · intro k y hy hh hu
      rw [update_of_ne (hn k y hy)]
      exact hc.data k y hy hh hu
    · exact fun _ _ => by simp
  · exact ⟨D, fun _ _ => rfl, h.cached hc fun _ hall => absurd hall hn⟩

end

/-- Nobody holds a buffer and none is dirty, as during recovery. -/
def Fresh (bufs : Bufs β) : Prop := ∀ i x, bufs i = some x → x.dirty = false ∧ x.owner = none

theorem Fetched.fresh (h : Fetched d bufs bufs' b i x) (hf : Fresh bufs) : Fresh bufs' := by
  intro k y hy
  by_cases e : k = i
  · subst e
    rw [h.self] at hy
    cases hy
    rcases h.old with hx | ⟨-, -, rfl⟩
    · exact hf k x hx
    · exact ⟨rfl, rfl⟩
  · exact hf k y ((h.other k e).symm.trans hy)

/-- Then `bget` finds a buffer, even with one in use already. -/
theorem bread_of_fresh (hf : Fresh bufs) (avoid : Option (Fin NBUF))
    (ha : ∀ i x, bufs i = some x → x.blockno = b → avoid ≠ some i) :
    ∃ j bufs' i x, bread d bufs b avoid j = some (bufs', i, x) := by
  unfold bread
  cases hl : lookup bufs b with
  | some i =>
    obtain ⟨x, hx, hb⟩ := lookup_some hl
    refine ⟨i, bufs, i, x, ?_⟩
    simp only [hx]
    exact if_pos ⟨Option.isNone_iff_eq_none.2 (hf i x hx).2, ha i x hx hb⟩
  | none =>
    obtain ⟨j, hj⟩ : ∃ j : Fin NBUF, avoid ≠ some j := by
      by_cases h0 : avoid = some ⟨0, by decide⟩
      · exact ⟨⟨1, by decide⟩, by rw [h0]; decide⟩
      · exact ⟨⟨0, by decide⟩, h0⟩
    have hr : recyclable bufs avoid j = true := by
      unfold recyclable
      rw [Bool.and_eq_true]
      refine ⟨bne_iff_ne.2 hj, ?_⟩
      cases hx : bufs j with
      | none => rfl
      | some x =>
        obtain ⟨hd, ho⟩ := hf j x hx
        simp only [hd, ho]
        rfl
    exact ⟨j, _, j, _, if_pos hr⟩

/-! ## Editing a buffer -/

section

variable (h : Cached home bufs d D) (hi : bufs i = some x) (hb : y.blockno = x.blockno)
include h hi hb

theorem Cached.set
    (hdata : home y.blockno → y.unlogged = false → y.data = D' y.blockno)
    (hlogs : ¬ home y.blockno → y.data = d' y.blockno)
    (hD : ∀ c, c ≠ x.blockno → home c → D' c = D c) (hd : ∀ c, c ≠ x.blockno → ¬ home c → d' c = d c) :
    Cached home (update bufs i (some y)) d' D' := by
  have hold : ∀ k z, update bufs i (some y) k = some z → k = i ∧ z = y ∨ k ≠ i ∧ bufs k = some z := by
    intro k z hz
    rw [update_apply] at hz
    split at hz
    · exact .inl ⟨‹_›, (Option.some.inj hz).symm⟩
    · exact .inr ⟨‹_›, hz⟩
  have hne : ∀ k z, k ≠ i → bufs k = some z → z.blockno ≠ x.blockno := fun k z e hz hzx =>
    e (h.uniq k i z x hz hi hzx)
  refine ⟨?_, ?_, ?_⟩
  · intro k l z w hz hw hzw
    rcases hold k z hz with ⟨rfl, rfl⟩ | ⟨e, hz'⟩ <;> rcases hold l w hw with ⟨rfl, rfl⟩ | ⟨e', hw'⟩
    · rfl
    · exact absurd (hzw.symm.trans hb) (hne l w e' hw')
    · exact absurd (hzw.trans hb) (hne k z e hz')
    · exact h.uniq k l z w hz' hw' hzw
  · intro k z hz hh hu
    rcases hold k z hz with ⟨rfl, rfl⟩ | ⟨e, hz⟩
    · exact hdata hh hu
    · rw [hD _ (hne k z e hz) hh]
      exact h.data k z hz hh hu
  · intro k z hz hh
    rcases hold k z hz with ⟨rfl, rfl⟩ | ⟨e, hz⟩
    · exact hlogs hh
    · rw [hd _ (hne k z e hz) hh]
      exact h.logs k z hz hh

theorem Cached.dirtyAt_set
    (c : Nat) : DirtyAt (update bufs i (some y)) c ↔ if c = x.blockno then y.dirty = true else DirtyAt bufs c := by
  by_cases e : c = x.blockno
  · rw [if_pos e]
    constructor
    · rintro ⟨k, z, hz, hc, hd⟩
      by_cases ek : k = i
      · subst ek
        rw [update_self] at hz
        cases hz
        exact hd
      · rw [update_of_ne ek] at hz
        exact absurd (h.uniq k i z x hz hi (hc.trans e)) ek
    · exact fun hd => ⟨i, y, update_self .., hb.trans e.symm, hd⟩
  rw [if_neg e]
  constructor
  · rintro ⟨k, z, hz, hc, hd⟩
    by_cases ek : k = i
    · subst ek
      rw [update_self] at hz
      cases hz
      exact absurd (hc.symm.trans hb) e
    · rw [update_of_ne ek] at hz
      exact ⟨k, z, hz, hc, hd⟩
  rintro ⟨k, z, hz, hc, hd⟩
  have ek : k ≠ i := by
    rintro rfl
    rw [hi] at hz
    cases hz
    exact e hc.symm
  exact ⟨k, z, by rw [update_of_ne ek, hz], hc, hd⟩

/-- The edit leaves all dirty flags alone. -/
theorem Cached.dirtyAt_same
    (hd : y.dirty = x.dirty) (c : Nat) : DirtyAt (update bufs i (some y)) c ↔ DirtyAt bufs c := by
  rw [h.dirtyAt_set hi hb]
  split
  next e =>
    refine ⟨fun hy => ⟨i, x, hi, e.symm, hd ▸ hy⟩, ?_⟩
    rintro ⟨k, z, hz, hc, hzd⟩
    have hk := h.uniq k i z x hz hi (hc.trans e)
    subst hk
    rw [hi] at hz
    cases hz
    rwa [hd]
  · rfl

end

theorem Owned.set (h : Owned home bufs pc)
    (ho : ∀ o, y.owner = some o → (pc o).active = true ∧ home y.blockno) (hu : y.unlogged = true → y.owner ≠ none)
    (hl : ∀ o, pc o = .logging i → y.owner = some o) : Owned home (update bufs i (some y)) pc := by
  refine ⟨?_, ?_, ?_⟩
  · intro k z o hz hown
    by_cases e : k = i
    · subst e
      rw [update_self] at hz
      cases hz
      exact ho o hown
    · rw [update_of_ne e] at hz
      exact h.active k z o hz hown
  · intro k z hz hzu
    by_cases e : k = i
    · subst e
      rw [update_self] at hz
      cases hz
      exact hu hzu
    · rw [update_of_ne e] at hz
      exact h.unlogged k z hz hzu
  intro o k hk
  by_cases e : k = i
  · subst e
    exact ⟨y, update_self .., hl o hk⟩
  · rw [update_of_ne e]
    exact h.logging o k hk

theorem Owned.of_pc (h : Owned home bufs pc)
    (ha : ∀ i x o, bufs i = some x → x.owner = some o → (pc o).active = true → (pc' o).active = true)
    (hl : ∀ o i, pc' o = .logging i → pc o = .logging i ∨ ∃ x, bufs i = some x ∧ x.owner = some o) :
    Owned home bufs pc' := by
  refine ⟨?_, h.unlogged, ?_⟩
  · intro i x o hx ho
    obtain ⟨hact, hh⟩ := h.active i x o hx ho
    exact ⟨ha i x o hx ho hact, hh⟩
  intro o i hi
  rcases hl o i hi with hp | hx
  · exact h.logging o i hp
  · exact hx

/-! ## The log entries -/

theorem pinned_zero (h : lh.n = 0) : Pinned bufs lh :=
  ⟨fun k hk => absurd hk (by omega), fun k _ hk => absurd hk (by omega)⟩

/-- A buffer that is for none of the entries leaves fewer for them. -/
theorem Pinned.lt_nbuf (h : Pinned bufs lh) (hi : ∀ x, bufs i = some x → ∀ k, k < lh.n → x.blockno ≠ lh.block k) :
    lh.n < NBUF := by
  choose f x hx hb _ using fun k : Fin lh.n => h.dirty k k.isLt
  have hinj : Injective f := by
    intro k l hkl
    have hxx : x k = x l := Option.some.inj ((hx k).symm.trans ((congrArg bufs hkl).trans (hx l)))
    exact Fin.ext (h.inj k l k.isLt l.isLt (by rw [← hb k, ← hb l, hxx]))
  have hnot : i ∉ Set.range f := by
    rintro ⟨k, rfl⟩
    exact hi (x k) (hx k) k k.isLt (hb k)
  simpa using Fintype.card_lt_of_injective_of_notMem f hinj hnot

theorem add_cases (lh : Logheader) (b : Nat) :
    (∃ k, k < lh.n ∧ lh.block k = b ∧ lh.add b = lh) ∨
      (∀ k, k < lh.n → lh.block k ≠ b) ∧ (lh.add b).n = lh.n + 1 ∧ (lh.add b).block lh.n = b ∧
        ∀ k, k < lh.n → (lh.add b).block k = lh.block k := by
  unfold Logheader.add
  cases hf : (List.range lh.n).find? fun i => lh.block i == b with
  | some k =>
    have hk : k < lh.n := by simpa using List.mem_of_find?_eq_some hf
    have hb : lh.block k = b := by simpa using List.find?_some hf
    refine .inl ⟨k, hk, hb, ?_⟩
    simp [hk.ne, ← hb]
  | none =>
    refine .inr ⟨fun k hk => by simpa using List.find?_eq_none.1 hf k (by simpa using hk), by simp, by simp, ?_⟩
    intro k hk
    simp [hk.ne]

/-- After `log_write` there is an entry for the block, and no other new one. -/
theorem mem_add {b c : Nat} :
    (∃ k, k < (lh.add b).n ∧ (lh.add b).block k = c) ↔ c = b ∨ ∃ k, k < lh.n ∧ lh.block k = c := by
  rcases add_cases lh b with ⟨k, hk, hb, hadd⟩ | ⟨-, hn, hlast, hlow⟩
  · rw [hadd]
    refine ⟨.inr, ?_⟩
    rintro (rfl | h)
    · exact ⟨k, hk, hb⟩
    · exact h
  constructor
  · rintro ⟨k, hk, rfl⟩
    rcases Nat.lt_succ_iff_lt_or_eq.1 (hn ▸ hk) with hk | rfl
    · exact .inr ⟨k, hk, (hlow k hk).symm⟩
    · exact .inl hlast
  · rintro (rfl | ⟨k, hk, rfl⟩)
    · exact ⟨lh.n, by omega, hlast⟩
    · exact ⟨k, by omega, hlow k hk⟩

/-- `log_write` pins the block. -/
theorem Pinned.add (h : Pinned bufs lh) (hb : DirtyAt bufs' b) (hd : ∀ c, DirtyAt bufs c → DirtyAt bufs' c) :
    Pinned bufs' (lh.add b) := by
  constructor
  · intro k hk
    obtain hc | ⟨l, hl, hc⟩ := mem_add.1 ⟨k, hk, rfl⟩
    · rwa [hc]
    · rw [← hc]
      exact hd _ (h.dirty l hl)
  rcases add_cases lh b with ⟨k, hk, -, hadd⟩ | ⟨hnew, hn, hlast, hlow⟩
  · rw [hadd]
    exact h.inj
  · intro k l hk hl hkl
    rcases Nat.lt_succ_iff_lt_or_eq.1 (hn ▸ hk) with hk | rfl <;>
      rcases Nat.lt_succ_iff_lt_or_eq.1 (hn ▸ hl) with hl | rfl
    · rw [hlow k hk, hlow l hl] at hkl
      exact h.inj k l hk hl hkl
    · rw [hlow k hk, hlast] at hkl
      exact absurd hkl (hnew k hk)
    · rw [hlow l hl, hlast] at hkl
      exact absurd hkl.symm (hnew l hl)
    · rfl

end Xv6.Log
