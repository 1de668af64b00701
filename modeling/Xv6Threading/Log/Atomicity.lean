import Xv6Threading.Log.Cache

/-!
# Crash atomicity of the log

In every state the disk stands for the contents after the committed groups (`Redo.Pending`): between
commits because the home blocks have them, from the first `write_head` of a commit to the second because
the log has what the home blocks may lack. The latter takes that the log blocks written by `write_log`
lie in the log area. `log_write` tests for room before it takes `log.lock`, so two operations that pass
the test together can make one entry too many for `nlog`; but then the cache, which has no more buffers
than that, is full of pinned blocks, and `write_log` stops at its first `bread`.
-/

namespace Xv6.Log

open Function
open Redo

variable {β : Type}

/-! ## Operations and groups -/

/-- `outstanding` counts the operations in progress. -/
structure Counts (pc : Nat → Pc) (nextOp outstanding : Nat) : Prop where
  fresh : ∀ o, nextOp ≤ o → pc o = .idle
  card : ((Finset.range nextOp).filter fun o => (pc o).active = true).card = outstanding

section Counts

variable {pc : Nat → Pc} {n k o : Nat} {p : Pc}

theorem Counts.lt (h : Counts pc n k) (ha : (pc o).active = true) : o < n := by
  by_contra hge
  rw [h.fresh o (by omega)] at ha
  cases ha

/-- The operations in progress. -/
def activeOps (pc : Nat → Pc) (n : Nat) : Finset Nat := (Finset.range n).filter fun o => (pc o).active = true

theorem Counts.mem_activeOps (h : Counts pc n k) : o ∈ activeOps pc n ↔ (pc o).active = true := by
  simp only [activeOps, Finset.mem_filter, Finset.mem_range]
  exact ⟨And.right, fun ha => ⟨h.lt ha, ha⟩⟩

theorem Counts.pos (h : Counts pc n k) (ha : (pc o).active = true) : 0 < k := by
  rw [← h.card, Finset.card_pos]
  exact ⟨o, h.mem_activeOps.2 ha⟩

theorem activeOps_begin (pc : Nat → Pc) (n : Nat) :
    activeOps (update pc n .inOp) (n + 1) = insert n (activeOps pc n) := by
  rw [activeOps, Finset.range_add_one, Finset.filter_insert, if_pos (by simp [Pc.active])]
  congr 1
  apply Finset.filter_congr
  intro o ho
  rw [update_of_ne (Finset.mem_range.1 ho).ne]

theorem activeOps_stay (ha : (pc o).active = true) (hp : p.active = true) :
    activeOps (update pc o p) n = activeOps pc n := by
  apply Finset.filter_congr
  intro q _
  by_cases e : q = o
  · subst e
    simp [ha, hp]
  · rw [update_of_ne e]

theorem activeOps_leave (pc : Nat → Pc) (n o : Nat) :
    activeOps (update pc o .idle) n = (activeOps pc n).erase o := by
  ext q
  rw [Finset.mem_erase, activeOps, activeOps, Finset.mem_filter, Finset.mem_filter]
  by_cases e : q = o
  · subst e
    simp [Pc.active]
  · rw [update_of_ne e]
    simp [e]

theorem Counts.begin (h : Counts pc n k) : Counts (update pc n .inOp) (n + 1) (k + 1) := by
  constructor
  · intro o ho
    rw [update_of_ne (by omega)]
    exact h.fresh o (by omega)
  · show (activeOps _ _).card = k + 1
    rw [activeOps_begin, Finset.card_insert_of_notMem (by simp [activeOps]), ← h.card]
    rfl

theorem Counts.stay (h : Counts pc n k) (ha : (pc o).active = true) (hp : p.active = true) :
    Counts (update pc o p) n k := by
  constructor
  · intro q hq
    have := h.lt ha
    rw [update_of_ne (by omega)]
    exact h.fresh q hq
  · show (activeOps _ _).card = k
    rw [activeOps_stay ha hp]
    exact h.card

theorem Counts.leave (h : Counts pc n k) (ha : (pc o).active = true) : Counts (update pc o .idle) n (k - 1) := by
  constructor
  · intro q hq
    have := h.lt ha
    rw [update_of_ne (by omega)]
    exact h.fresh q hq
  · show (activeOps _ _).card = k - 1
    rw [activeOps_leave, Finset.card_erase_of_mem (h.mem_activeOps.2 ha), ← h.card]
    rfl

end Counts

/-- What operation `o` has written, of a list of writes. -/
def writesOf (o : Nat) (ws : List (Nat × Nat × β)) : List (Nat × β) := (ws.filter fun w => w.1 == o).map Prod.snd

theorem writesOf_append (o : Nat) (ws vs : List (Nat × Nat × β)) :
    writesOf o (ws ++ vs) = writesOf o ws ++ writesOf o vs := by
  simp [writesOf]

theorem writesOf_one (o : Nat) (w : Nat × Nat × β) : writesOf o [w] = if w.1 = o then [w.2] else [] := by
  by_cases e : w.1 = o <;> simp [writesOf, e]

/-- The writes of all committed groups, in order. -/
def committed (done : List (Group β)) : List (Nat × Nat × β) := done.flatMap Group.writes

def InGroup (done : List (Group β)) (o : Nat) : Prop := ∃ g ∈ done, o ∈ g.ops

theorem inGroup_concat (done : List (Group β)) (g : Group β) (o : Nat) :
    InGroup (done ++ [g]) o ↔ InGroup done o ∨ o ∈ g.ops := by
  simp [InGroup, or_and_right, exists_or]

theorem committed_concat (done : List (Group β)) (g : Group β) :
    committed (done ++ [g]) = committed done ++ g.writes := by
  simp [committed]

/-- Every operation is in one group, with all its writes. -/
structure History (done : List (Group β)) (cur : Group β) (written : Nat → List (Nat × β)) (nextOp : Nat)
    (pc : Nat → Pc) : Prop where
  active : ∀ o, (pc o).active = true → o ∈ cur.ops
  old : ∀ o, o ∈ cur.ops ∨ InGroup done o → o < nextOp
  apart : ∀ o, o ∈ cur.ops → ¬ InGroup done o
  all : ∀ o, InGroup done o → writesOf o (committed done) = written o
  none : ∀ o, ¬ InGroup done o → writesOf o (committed done) = []
  curAll : ∀ o, o ∈ cur.ops → writesOf o cur.writes = written o
  curNone : ∀ o, o ∉ cur.ops → writesOf o cur.writes = []
  fresh : ∀ o, nextOp ≤ o → written o = []

section History

variable {done : List (Group β)} {cur : Group β} {written : Nat → List (Nat × β)} {nextOp : Nat}
    {pc pc' : Nat → Pc}

section

variable (h : History done cur written nextOp pc)
include h

theorem History.of_pc
    (ha : ∀ o, (pc' o).active = true → (pc o).active = true) : History done cur written nextOp pc' :=
  { h with active := fun o ho => h.active o (ha o ho) }

theorem History.begin : History done { cur with ops := cur.ops ++ [nextOp] } written (nextOp + 1)
      (update pc nextOp .inOp) := by
  have hnew : nextOp ∉ cur.ops := fun hm => Nat.lt_irrefl _ (h.old nextOp (.inl hm))
  refine ⟨?_, ?_, ?_, h.all, h.none, ?_, ?_, fun o ho => h.fresh o (by omega)⟩
  · intro o ho
    by_cases e : o = nextOp
    · simp [e]
    · rw [update_of_ne e] at ho
      simp [h.active o ho]
  · intro o ho
    rw [List.mem_append, List.mem_singleton, or_assoc, or_left_comm] at ho
    rcases ho with rfl | ho
    · exact Nat.lt_succ_self o
    · exact (h.old o ho).trans (Nat.lt_succ_self _)
  · intro o ho
    rcases List.mem_append.1 ho with ho | ho
    · exact h.apart o ho
    · rw [List.mem_singleton.1 ho]
      exact fun hm => Nat.lt_irrefl _ (h.old nextOp (.inr hm))
  · intro o ho
    rcases List.mem_append.1 ho with ho | ho
    · exact h.curAll o ho
    · rw [List.mem_singleton.1 ho]
      exact (h.curNone nextOp hnew).trans (h.fresh nextOp (Nat.le_refl _)).symm
  · intro o ho
    exact h.curNone o fun hm => ho (List.mem_append_left _ hm)

theorem History.write {o : Nat} (ho : (pc o).active = true) (w : Nat × β) :
    History done { cur with writes := cur.writes ++ [(o, w)] }
      (update written o (written o ++ [w])) nextOp (update pc o .inOp) := by
  have hcur := h.active o ho
  have hne : ∀ q, q ≠ o → update written o (written o ++ [w]) q = written q := fun q e =>
    update_of_ne e _ _
  refine ⟨?_, h.old, h.apart, ?_, h.none, ?_, ?_, ?_⟩
  · intro q hq
    by_cases e : q = o
    · rwa [e]
    · rw [update_of_ne e] at hq
      exact h.active q hq
  · intro q hq
    have e : q ≠ o := by
      rintro rfl
      exact h.apart q hcur hq
    rw [hne q e]
    exact h.all q hq
  · intro q hq
    rw [writesOf_append, writesOf_one, h.curAll q hq]
    by_cases e : q = o
    · simp [e]
    · simp [e, Ne.symm e]
  · intro q hq
    have e : q ≠ o := by
      rintro rfl
      exact hq hcur
    rw [writesOf_append, writesOf_one, h.curNone q hq, if_neg (Ne.symm e), List.append_nil]
  · intro q hq
    have := h.old o (.inl hcur)
    rw [hne q (by omega)]
    exact h.fresh q hq

/-- The group commits; nobody is in an operation. -/
theorem History.commit (hp : ∀ o, (pc o).active = false) : History (done ++ [cur]) ⟨[], []⟩ written nextOp pc := by
  refine ⟨?_, ?_, fun o ho => (nomatch ho), ?_, ?_, fun o ho => (nomatch ho), fun o _ => rfl, h.fresh⟩
  · intro o ho
    rw [hp o] at ho
    cases ho
  · intro o ho
    rcases ho with ho | ho
    · cases ho
    · exact h.old o (((inGroup_concat ..).1 ho).symm)
  · intro o ho
    rw [committed_concat, writesOf_append]
    rcases (inGroup_concat ..).1 ho with hd | hc
    · rw [h.all o hd, h.curNone o fun hc => h.apart o hc hd, List.append_nil]
    · rw [h.none o (h.apart o hc), h.curAll o hc, List.nil_append]
  · intro o ho
    rw [inGroup_concat, not_or] at ho
    rw [committed_concat, writesOf_append, h.none o ho.1, h.curNone o ho.2, List.append_nil]

/-- The current group is lost. -/
theorem History.crash : History done ⟨[], []⟩ written nextOp fun _ => .idle :=
  ⟨fun _ ho => (nomatch ho), fun o ho => h.old o (.inr (ho.resolve_left fun hm => nomatch hm)),
    fun _ ho => (nomatch ho), h.all, h.none, fun _ ho => (nomatch ho), fun _ _ => rfl, h.fresh⟩

end

end History

/-! ## The invariant -/

/-- The contents of the home blocks after the committed groups. -/
def contents (base : Nat → β) (done : List (Group β)) : Nat → β := applyAll base ((committed done).map Prod.snd)

/-- With the writes of the current group. -/
def St.latest (s : St β) : Nat → β := applyAll (contents s.base s.done) (s.cur.writes.map Prod.snd)

section Inv

variable (start : Nat)

def PhaseInv (s : St β) : Prop :=
  match s.phase with
  | none => s.recovering = false ∧ s.disk.head.n = 0 ∧ Pinned s.bufs s.lh
  | some .readHead => s.outstanding = 0 ∧ s.recovering = true ∧ s.lh.n = 0
  | some (.writeLog t) => s.outstanding = 0 ∧ s.recovering = false ∧ s.disk.head.n = 0 ∧ Pinned s.bufs s.lh ∧
      (0 < t → s.lh.n < NBUF) ∧ ∀ i, i < t → s.disk.blk (slot start i) = s.latest (s.lh.block i)
  | some .writeHead => s.outstanding = 0 ∧ s.recovering = false ∧ s.disk.head.n = 0 ∧ s.lh.n < NBUF ∧
      ∀ i, i < s.lh.n → s.disk.blk (slot start i) = s.latest (s.lh.block i)
  | some (.install t) => s.outstanding = 0 ∧ s.cur.writes = [] ∧ s.disk.head.n = s.lh.n ∧
      (∀ i, i < s.lh.n → s.disk.head.block i = s.lh.block i) ∧
      ∀ i, i < t → s.disk.blk (s.lh.block i) = contents s.base s.done (s.lh.block i)
  | some .clear =>
    s.outstanding = 0 ∧ s.cur.writes = [] ∧ ∀ b, home start b → s.disk.blk b = contents s.base s.done b
  | some .finish => s.outstanding = 0 ∧ s.disk.head.n = 0 ∧ s.lh.n = 0

structure Inv (s : St β) : Prop where
  cached : Cached (home start) s.bufs s.disk.blk s.latest
  owned : Owned (home start) s.bufs s.pc
  counts : Counts s.pc s.nextOp s.outstanding
  history : History s.done s.cur s.written s.nextOp s.pc
  pending : Pending (home start) (slot start) s.disk.head.n s.disk.head.block s.disk.blk (contents s.base s.done)
  covers : ∀ w ∈ s.cur.writes, ∃ k, k < s.lh.n ∧ s.lh.block k = w.2.1
  homes : ∀ k, k < s.lh.n → home start (s.lh.block k)
  clean : s.recovering = false → Clean (home start) s.bufs s.disk.blk s.latest
  phase : PhaseInv start s

variable {start} {s s' : St β} {o : Nat}

theorem Inv.idle (h : Inv start s) (h0 : s.outstanding = 0) (o : Nat) : (s.pc o).active = false := by
  by_contra ha
  have := h.counts.pos (Bool.eq_true_of_not_eq_false ha)
  omega

/-- Operations run only between commits. -/
theorem Inv.phase_none (h : Inv start s) (ha : (s.pc o).active = true) : s.phase = none := by
  have hpos := h.counts.pos ha
  have hp := h.phase
  unfold PhaseInv at hp
  split at hp
  · assumption
  all_goals omega

theorem Inv.of_none (h : Inv start s) (hn : s.phase = none) :
    s.recovering = false ∧ s.disk.head.n = 0 ∧ Pinned s.bufs s.lh := by
  have hp := h.phase
  simp only [PhaseInv, hn] at hp
  exact hp

theorem latest_of_nil (h : s.cur.writes = []) : s.latest = contents s.base s.done := by
  simp [St.latest, h]

theorem Inv.cur_nil (h : Inv start s) (hn : s.lh.n = 0) : s.cur.writes = [] := by
  rw [List.eq_nil_iff_forall_not_mem]
  intro w hw
  obtain ⟨m, hm, -⟩ := h.covers w hw
  omega

/-! ### Operations -/

variable {bufs : Bufs β}

/-- Only the buffers change, and no dirty flag. -/
theorem Inv.of_bufs (h : Inv start s) (hc : Cached (home start) bufs s.disk.blk s.latest)
    (ho : Owned (home start) bufs s.pc) (hd : ∀ b, DirtyAt bufs b ↔ DirtyAt s.bufs b) :
    Inv start { s with bufs := bufs } := by
  have hp : Pinned s.bufs s.lh → Pinned bufs s.lh := fun h => ⟨fun k hk => (hd _).2 (h.dirty k hk), h.inj⟩
  refine ⟨hc, ho, h.counts, h.history, h.pending, h.covers, h.homes,
    fun hr b hh hn => h.clean hr b hh ((hd b).not.1 hn), ?_⟩
  have hph := h.phase
  unfold PhaseInv at hph ⊢
  split at hph <;> rename_i hs <;> simp only [hs]
  · exact ⟨hph.1, hph.2.1, hp hph.2.2⟩
  · exact hph
  · obtain ⟨h1, h2, h3, h4, h5, h6⟩ := hph
    exact ⟨h1, h2, h3, hp h4, h5, h6⟩
  all_goals exact hph

theorem inv_beginOp (h : Inv start s) (hs : s.beginOp = some s') : Inv start s' := by
  unfold St.beginOp at hs
  split at hs
  next hg =>
    cases hs
    have hn : s.phase = none := by simpa using hg.1
    refine ⟨h.cached, h.owned.of_pc ?_ ?_, h.counts.begin, h.history.begin, h.pending, h.covers, h.homes,
      h.clean, ?_⟩
    · intro i x o _ _ ha
      have e : o ≠ s.nextOp := (h.counts.lt ha).ne
      simpa [e] using ha
    · intro o i hi
      by_cases e : o = s.nextOp
      · simp [e] at hi
      · left
        simpa [e] using hi
    · have := h.of_none hn
      simpa only [PhaseInv, hn] using this
  · cases hs

variable {i : Fin NBUF} {x : Buf β}

/-- The buffer of an operation. -/
theorem mine_some (h : s.mine o i = some x) : s.pc o = .inOp ∧ s.bufs i = some x ∧ x.owner = some o := by
  unfold St.mine at h
  split at h
  next hp =>
    obtain ⟨hx, ho⟩ := Option.filter_eq_some_iff.1 h
    exact ⟨hp, hx, by simpa using ho⟩
  · cases h

theorem active_inOp (h : s.pc o = .inOp) : (s.pc o).active = true := by rw [h]; rfl

variable {y : Buf β}

/-- The owner of a buffer edits it; the block number and the dirty flag stay. -/
theorem inv_edit (h : Inv start s) (hp : s.pc o = .inOp)
    (hx : s.bufs i = some x) (hox : x.owner = some o) (hb : y.blockno = x.blockno) (hd : y.dirty = x.dirty)
    (ho : ∀ q, y.owner = some q → q = o) (hu : y.unlogged = true → y.owner ≠ none)
    (hdata : y.unlogged = false → x.unlogged = false ∧ y.data = x.data) :
    Inv start { s with bufs := update s.bufs i (some y) } := by
  have hh := (h.owned.active i x o hx hox).2
  refine h.of_bufs (h.cached.set hx hb ?_ (fun hn => absurd (hb ▸ hh) hn)
    (fun _ _ _ => rfl) fun _ _ _ => rfl) (h.owned.set ?_ hu ?_) (h.cached.dirtyAt_same hx hb hd)
  · intro _ hyu
    obtain ⟨hxu, heq⟩ := hdata hyu
    rw [heq, hb]
    exact h.cached.data i x hx hh hxu
  · intro q hq
    rw [ho q hq, hb]
    exact ⟨active_inOp hp, hh⟩
  intro q hq
  -- nobody is in `log_write` of a buffer of `o`
  obtain ⟨z, hz, hzq⟩ := h.owned.logging q i hq
  rw [hx] at hz
  cases hz
  rw [hox] at hzq
  cases hzq
  rw [hp] at hq
  cases hq

variable {j : Fin NBUF} {b : Nat}

section

variable (h : Inv start s)
include h

theorem inv_opBread (hs : s.opBread start o b j = some s') : Inv start s' := by
  unfold St.opBread at hs
  split at hs
  next hg =>
    obtain ⟨⟨bufs, i, x⟩, hbr, rfl⟩ := Option.map_eq_some_iff.1 hs
    have hact := active_inOp hg.1
    obtain ⟨hrec, hn0, -⟩ := h.of_none (h.phase_none hact)
    obtain ⟨hf, -⟩ := fetched_of_bread hbr
    have hcl := h.clean hrec
    have hc : Cached (home start) bufs s.disk.blk s.latest := hf.cached h.cached fun hh hn => by
      apply hcl b hh
      rintro ⟨k, y, hy, hyb, -⟩
      exact hn k y hy hyb
    have ho := hf.owned h.owned
    refine h.of_bufs (hc.set hf.self rfl (fun hh hu => hc.data i x hf.self hh hu)
      (fun hn => hc.logs i x hf.self hn) (fun _ _ _ => rfl) fun _ _ _ => rfl) (ho.set ?_
      (fun _ hq => nomatch hq) ?_) ?_
    · intro q hq
      cases hq
      exact ⟨hact, hf.blockno ▸ hg.2⟩
    · intro q hq
      obtain ⟨z, hz, hzq⟩ := ho.logging q i hq
      rw [hf.self] at hz
      cases hz
      rw [hf.owner] at hzq
      cases hzq
    · intro c
      exact (hc.dirtyAt_same (y := { x with owner := some o }) hf.self rfl rfl c).trans (hf.dirtyAt c)
  · cases hs

theorem inv_modify {v : β} (hs : s.modify o i v = some s') : Inv start s' := by
  obtain ⟨x, hm, rfl⟩ := Option.map_eq_some_iff.1 hs
  obtain ⟨hp, hx, ho⟩ := mine_some hm
  exact inv_edit h hp hx ho rfl rfl (fun q hq => Option.some.inj (hq.symm.trans ho)) (fun _ => by simp [ho])
    fun hu => nomatch hu

theorem inv_brelse (hs : s.brelse o i = some s') : Inv start s' := by
  obtain ⟨x, hm, hs⟩ := Option.bind_eq_some_iff.1 hs
  obtain ⟨hp, hx, ho⟩ := mine_some hm
  split at hs
  · cases hs
  rename_i hu
  cases hs
  exact inv_edit h hp hx ho rfl rfl (fun q hq => nomatch hq) (fun hu' => absurd hu' hu)
    fun hu' => ⟨hu', rfl⟩

theorem inv_check (hs : s.check o i = some s') : Inv start s' := by
  obtain ⟨x, hm, hs⟩ := Option.bind_eq_some_iff.1 hs
  obtain ⟨hp, hx, ho⟩ := mine_some hm
  have hact := active_inOp hp
  split at hs
  · cases hs
  split at hs
  · cases hs
  cases hs
  refine ⟨h.cached, h.owned.of_pc ?_ ?_, h.counts.stay hact rfl, h.history.of_pc ?_, h.pending, h.covers,
    h.homes, h.clean, h.phase⟩
  · intro _ _ q _ _ ha
    by_cases e : q = o
    · simp [e, Pc.active]
    · simpa [e] using ha
  · intro q k hk
    by_cases e : q = o
    · subst e
      right
      simp only [update_self] at hk
      cases hk
      exact ⟨x, hx, ho⟩
    · left
      simpa [e] using hk
  · intro q hq
    by_cases e : q = o
    · rwa [e]
    · simpa [e] using hq

theorem inv_append (hs : s.append o = some s') : Inv start s' := by
  unfold St.append at hs
  split at hs <;> rename_i hp
  next i =>
    obtain ⟨x, hx, rfl⟩ := Option.map_eq_some_iff.1 hs
    have hact : (s.pc o).active = true := by rw [hp]; rfl
    obtain ⟨hrec, hn0, hpin⟩ := h.of_none (h.phase_none hact)
    obtain ⟨z, hz, hown⟩ := h.owned.logging o i hp
    rw [hx] at hz
    cases hz
    have hh := (h.owned.active i x o hx hown).2
    -- the new contents of the block are those of the buffer
    have hlat : (s.logged o i x).latest = update s.latest x.blockno x.data := by
      simp only [St.latest, St.logged, List.map_append, List.map_cons, List.map_nil, applyAll_concat]
    have hdirty : ∀ c, DirtyAt (s.logged o i x).bufs c ↔ c = x.blockno ∨ DirtyAt s.bufs c := by
      intro c
      have := h.cached.dirtyAt_set (y := { x with dirty := true, unlogged := false }) hx rfl c
      simp only [St.logged, this]
      by_cases e : c = x.blockno <;> simp [e]
    have hpc : ∀ q k, update s.pc o .inOp q = .logging k → q ≠ o ∧ s.pc q = .logging k := by
      intro q k hq
      by_cases e : q = o
      · simp [e] at hq
      · exact ⟨e, by simpa [e] using hq⟩
    have hactive : ∀ q, (s.pc q).active = true → (update s.pc o .inOp q).active = true := by
      intro q hq
      by_cases e : q = o
      · simp [e, Pc.active]
      · simpa [e] using hq
    have howned : Owned (home start) s.bufs (update s.pc o .inOp) :=
      h.owned.of_pc (fun _ _ q _ _ ha => hactive q ha) fun q k hq => .inl (hpc q k hq).2
    refine ⟨?_, howned.set ?_ (fun hu => nomatch hu) ?_, h.counts.stay hact rfl, h.history.write hact _,
      h.pending, ?_, ?_, ?_, ?_⟩
    · rw [hlat]
      exact h.cached.set hx rfl (fun _ _ => by simp) (fun hn => absurd hh hn)
        (fun c hc _ => update_of_ne hc _ _) fun _ _ _ => rfl
    · intro q hq
      rw [hown] at hq
      cases hq
      exact ⟨hactive o hact, hh⟩
    · intro q hq
      obtain ⟨e, hq⟩ := hpc q i hq
      obtain ⟨z, hz, hzq⟩ := h.owned.logging q i hq
      rw [hx] at hz
      cases hz
      exact hzq
    · intro w hw
      apply mem_add.2
      rcases List.mem_append.1 hw with hw | hw
      · exact .inr (h.covers w hw)
      · rw [List.mem_singleton.1 hw]
        exact .inl rfl
    · intro k hk
      rcases mem_add.1 ⟨k, hk, rfl⟩ with e | ⟨l, hl, e⟩
      · exact e ▸ hh
      · exact e ▸ h.homes l hl
    · intro _ c hc hnd
      rw [hdirty, not_or] at hnd
      rw [hlat, update_of_ne hnd.1]
      exact h.clean hrec c hc hnd.2
    · have hphase := h.phase_none hact
      simp only [PhaseInv, St.logged, hphase]
      exact ⟨hrec, hn0, hpin.add ((hdirty _).2 (.inl rfl)) fun c hc => (hdirty c).2 (.inr hc)⟩
  · cases hs
  · cases hs

theorem inv_endOp (hs : s.endOp o = some s') : Inv start s' := by
  unfold St.endOp at hs
  split at hs
  next hg =>
    obtain ⟨hp, hnone, hbufs⟩ := hg
    cases hs
    have hact := active_inOp hp
    obtain ⟨hrec, hn0, hpin⟩ := h.of_none (h.phase_none hact)
    refine ⟨h.cached, h.owned.of_pc ?_ ?_, h.counts.leave hact, h.history.of_pc ?_, h.pending, h.covers,
      h.homes, h.clean, ?_⟩
    · intro i x q hx hq ha
      have e : q ≠ o := by
        rintro rfl
        exact hbufs i x hx hq
      simpa [e] using ha
    · intro q k hk
      by_cases e : q = o
      · simp [e] at hk
      · left
        simpa [e] using hk
    · intro q hq
      by_cases e : q = o
      · simp [e, Pc.active] at hq
      · simpa [e] using hq
    by_cases hlast : s.outstanding - 1 = 0
    · by_cases hn : s.lh.n > 0
      · simp only [PhaseInv, hlast, hn, if_true]
        exact ⟨trivial, hrec, hn0, hpin, fun h0 => absurd h0 (by omega), fun i hi => absurd hi (by omega)⟩
      · simp only [PhaseInv, hlast, hn, if_true, if_false]
        exact ⟨trivial, hn0, by omega⟩
    · simp only [PhaseInv, hlast, if_false]
      exact ⟨hrec, hn0, hpin⟩
  · cases hs

theorem inv_read (hs : s.read b j = some s') : Inv start s' := by
  unfold St.read at hs
  split at hs
  · cases hs
  rename_i hr
  obtain ⟨⟨bufs, i, x⟩, hbr, rfl⟩ := Option.map_eq_some_iff.1 hs
  obtain ⟨hf, -⟩ := fetched_of_bread hbr
  have hcl := h.clean (Bool.eq_false_of_not_eq_true hr)
  refine h.of_bufs (hf.cached h.cached fun hh hn => hcl b hh ?_) (hf.owned h.owned) hf.dirtyAt
  rintro ⟨k, y, hy, hyb, -⟩
  exact hn k y hy hyb

theorem inv_crash : Inv start s.crash := by
  have hno : ∀ (i : Fin NBUF) (x : Buf β), s.crash.bufs i = some x → False := fun i x hx => nomatch hx
  refine ⟨⟨fun i _ x _ hx => (hno i x hx).elim, fun i x hx => (hno i x hx).elim, fun i x hx => (hno i x hx).elim⟩,
    ⟨fun i x _ hx => (hno i x hx).elim, fun i x hx => (hno i x hx).elim, fun _ _ hi => (nomatch hi)⟩,
    ⟨fun _ _ => rfl, by simp [St.crash, Pc.active]⟩, h.history.crash, h.pending, fun _ hw => (nomatch hw),
    fun k hk => absurd hk (Nat.not_lt_zero k), fun hr => (nomatch hr), rfl, rfl, rfl⟩

end

/-! ### The committer and recovery -/

variable {t : Nat} {k l : Fin NBUF}

theorem breadBoth_some (h : s.breadBoth start t j k = some (bufs, (i, x), l, y)) :
    ∃ bufs1, Fetched s.disk.blk s.bufs bufs1 (slot start t) i x ∧
      Fetched s.disk.blk bufs1 bufs (s.lh.block t) l y ∧ i ≠ l := by
  obtain ⟨⟨bufs1, i', x'⟩, h1, h2⟩ := Option.bind_eq_some_iff.1 h
  obtain ⟨⟨bufs2, l', y'⟩, h3, h4⟩ := Option.map_eq_some_iff.1 h2
  simp only [Prod.mk.injEq] at h4
  obtain ⟨rfl, ⟨rfl, rfl⟩, rfl, rfl⟩ := h4
  obtain ⟨hf1, -⟩ := fetched_of_bread h1
  obtain ⟨hf2, hne⟩ := fetched_of_bread h3
  exact ⟨bufs1, hf1, hf2, fun e => hne (congrArg some e)⟩

theorem slot_inj {i : Nat} (h : slot start i = slot start t) : i = t := by
  unfold slot at h
  omega

theorem not_home_slot (h : t + 1 < nlog) : ¬ home start (slot start t) := by
  unfold home slot
  omega

/-- A buffer that nobody holds is written out. -/
theorem owned_bwrite {pc : Nat → Pc} {v : β}
    (h : Owned (home start) bufs pc) (hx : bufs i = some x) (ho : x.owner = none) :
    Owned (home start) (update bufs i (some ⟨b, v, false, none, false⟩)) pc := by
  refine h.set (fun q hq => nomatch hq) (fun hu => nomatch hu) ?_
  intro q hq
  obtain ⟨z, hz, hzq⟩ := h.logging q i hq
  rw [hx] at hz
  cases hz
  rw [ho] at hzq
  cases hzq

section

variable (h : Inv start s)
include h

theorem inv_writeLog (hph : s.phase = some (.writeLog t)) (ht : t < s.lh.n)
    (hb : s.breadBoth start t j k = some (bufs, (i, x), l, y)) :
    Inv start (s.bwrite bufs i (slot start t) y.data (.writeLog (t + 1))) := by
  obtain ⟨bufs1, hf1, hf2, hne⟩ := breadBoth_some hb
  have hp := h.phase
  simp only [PhaseInv, hph] at hp
  obtain ⟨h0, hrec, hn0, hpin, hlt, hlog⟩ := hp
  have hpin1 := hf1.pinned hpin
  have hhome := h.homes t ht
  -- the first log block takes a buffer that is not pinned
  have hn : s.lh.n < NBUF := by
    rcases Nat.eq_zero_or_pos t with rfl | hpos
    · apply hpin1.lt_nbuf (i := i)
      intro z hz m hm e
      rw [hf1.self] at hz
      cases hz
      rw [hf1.blockno] at e
      exact not_home_slot (by decide) (e ▸ h.homes m hm)
    · exact hlt hpos
  have hslot : ¬ home start (slot start t) :=
    not_home_slot (by simp only [nlog, LOGSIZE, NBUF, MAXOPBLOCKS] at hn ⊢; omega)
  have hc1 : Cached (home start) bufs1 s.disk.blk s.latest := hf1.cached h.cached fun hh => absurd hh hslot
  have hc2 : Cached (home start) bufs s.disk.blk s.latest := hf2.cached hc1 fun hh hn' => by
    obtain ⟨m, z, hz, hzb, -⟩ := hpin1.dirty t ht
    exact absurd hzb (hn' m z hz)
  have ho2 := hf2.owned (hf1.owned h.owned)
  have hx : bufs i = some x := (hf2.other i hne).trans hf1.self
  have hdata : y.data = s.latest (s.lh.block t) := by
    rw [← hf2.blockno]
    apply hc2.data l y hf2.self (hf2.blockno.symm ▸ hhome)
    by_contra hu
    exact ho2.unlogged l y hf2.self (Bool.eq_true_of_not_eq_false hu) hf2.owner
  have hdisk : ∀ b, home start b → update s.disk.blk (slot start t) y.data b = s.disk.blk b := by
    intro b hbh
    refine update_of_ne ?_ _ _
    rintro rfl
    exact hslot hbh
  have hdirty : ∀ c, home start c →
      (DirtyAt (update bufs i (some ⟨slot start t, y.data, false, none, false⟩)) c ↔
      DirtyAt s.bufs c) := by
    intro c hch
    rw [hc2.dirtyAt_set hx hf1.blockno.symm, if_neg, hf2.dirtyAt, hf1.dirtyAt]
    rintro rfl
    rw [hf1.blockno] at hch
    exact hslot hch
  refine ⟨?_, owned_bwrite ho2 hx hf1.owner, h.counts, h.history, ?_, h.covers, h.homes, ?_, ?_⟩
  · refine hc2.set hx hf1.blockno.symm (fun hh => absurd hh hslot) (fun _ => by simp [St.bwrite])
      (fun _ _ _ => rfl) ?_
    intro c hcx _
    rw [hf1.blockno] at hcx
    exact update_of_ne hcx _ _
  · have hpend := h.pending
    simp only [St.bwrite, hn0] at hpend ⊢
    exact Pending.zero_iff.2 fun b hbh => (hdisk b hbh).trans (Pending.zero_iff.1 hpend b hbh)
  · intro _ c hch hnd
    exact (hdisk c hch).trans (h.clean hrec c hch ((hdirty c hch).not.1 hnd))
  simp only [PhaseInv, St.bwrite]
  refine ⟨h0, hrec, hn0, ⟨fun m hm => (hdirty _ (h.homes m hm)).2 (hpin.dirty m hm), hpin.inj⟩, fun _ => hn,
    ?_⟩
  intro m hm
  rcases Nat.lt_succ_iff_lt_or_eq.1 hm with hm | rfl
  · rw [update_of_ne fun e => hm.ne (slot_inj e)]
    exact hlog m hm
  · rw [update_self]
    exact hdata

theorem inv_install (hph : s.phase = some (.install t)) (ht : t < s.lh.n)
    (hb : s.breadBoth start t j k = some (bufs, (i, x), l, y)) :
    Inv start (s.bwrite bufs l (s.lh.block t) x.data (.install (t + 1))) := by
  obtain ⟨bufs1, hf1, hf2, hne⟩ := breadBoth_some hb
  have hp := h.phase
  simp only [PhaseInv, hph] at hp
  obtain ⟨h0, hcur, hn, hblock, hdone⟩ := hp
  have hpend := h.pending.congr s.lh.block fun m hm => (hblock m (hn ▸ hm)).symm
  rw [hn] at hpend
  have hhome := h.homes t ht
  have hslot := hpend.slots t ht
  have hlat := latest_of_nil hcur
  have hc1 : Cached (home start) bufs1 s.disk.blk s.latest := hf1.cached h.cached fun hh => absurd hh hslot
  obtain ⟨D', hD', hc2⟩ := hf2.cached_off hc1
  have ho2 := hf2.owned (hf1.owned h.owned)
  -- the log block is as on disk, and has the contents of the home block
  have hxd : x.data = s.disk.blk (slot start t) := by
    have := hc1.logs i x hf1.self (hf1.blockno.symm ▸ hslot)
    rwa [hf1.blockno] at this
  have hdata : x.data = contents s.base s.done (s.lh.block t) := hxd.trans (hpend.log t ht)
  have hdirty : ∀ c, DirtyAt (update bufs l (some ⟨s.lh.block t, x.data, false, none, false⟩)) c ↔
      c ≠ s.lh.block t ∧ DirtyAt s.bufs c := by
    intro c
    rw [hc2.dirtyAt_set hf2.self hf2.blockno.symm, hf2.blockno, hf2.dirtyAt, hf1.dirtyAt]
    by_cases e : c = s.lh.block t <;> simp [e]
  refine ⟨?_, owned_bwrite ho2 hf2.self hf2.owner, h.counts, h.history, ?_, h.covers, h.homes, ?_, ?_⟩
  · refine hc2.set hf2.self hf2.blockno.symm ?_ (fun hnh => absurd hhome hnh) ?_ ?_
    · intro _ _
      rw [hdata]
      exact (congrFun hlat _).symm
    · intro c hcx _
      rw [hf2.blockno] at hcx
      exact (hD' c hcx).symm
    · intro c hcx hnh
      rw [hf2.blockno] at hcx
      exact update_of_ne hcx _ _
  · have hinst := (hpend.install ht).congr s.disk.head.block hblock
    simp only [St.bwrite, hn, hxd]
    exact hinst
  · intro hrec c hch hnd
    by_cases e : c = s.lh.block t
    · subst e
      simp only [St.bwrite, update_self]
      rw [hdata]
      exact (congrFun hlat _).symm
    · simp only [St.bwrite, update_of_ne e]
      exact h.clean hrec c hch fun hd => hnd ((hdirty c).2 ⟨e, hd⟩)
  simp only [PhaseInv, St.bwrite]
  refine ⟨h0, hcur, hn, hblock, ?_⟩
  intro m hm
  by_cases e : s.lh.block m = s.lh.block t
  · rw [e, update_self]
    exact hdata
  rw [update_of_ne e]
  have hmt : m ≠ t := by
    rintro rfl
    exact e rfl
  exact hdone m (by omega)

/-- **The commit point.** -/
theorem inv_writeHead (hph : s.phase = some .writeHead) :
    Inv start { s with
      disk := { s.disk with head := s.lh.copy s.disk.head }, phase := some (.install 0),
      done := s.done ++ [s.cur], cur := ⟨[], []⟩ } := by
  have hp := h.phase
  simp only [PhaseInv, hph] at hp
  obtain ⟨h0, hrec, hn0, hn, hlog⟩ := hp
  have hcont : contents s.base (s.done ++ [s.cur]) = s.latest := by
    simp only [contents, St.latest, committed_concat, List.map_append, applyAll_append]
  have hlat :
      applyAll (contents s.base (s.done ++ [s.cur])) (([] : List (Nat × Nat × β)).map Prod.snd) = s.latest := hcont
  have hpend := h.pending
  rw [hn0] at hpend
  refine ⟨?_, h.owned, h.counts, h.history.commit (h.idle h0), ?_, fun _ hw => (nomatch hw), h.homes, ?_, ?_⟩
  · simpa only [St.latest, hlat] using h.cached
  · simp only [hcont, Logheader.copy]
    refine Pending.congr ?_ _ fun m hm => if_pos hm
    refine Pending.commit (Pending.zero_iff.1 hpend) (fun m hm => not_home_slot ?_) h.homes hlog ?_
    · simp only [nlog, LOGSIZE, NBUF, MAXOPBLOCKS] at hn ⊢
      omega
    · intro w hw
      obtain ⟨w', hw', rfl⟩ := List.mem_map.1 hw
      exact h.covers w' hw'
  · intro hr
    simpa only [St.latest, hlat] using h.clean hr
  · simp only [PhaseInv, Logheader.copy]
    exact ⟨h0, trivial, trivial, fun m hm => if_pos hm, fun m hm => absurd hm (Nat.not_lt_zero m)⟩

theorem inv_diskStep {k : Fin NBUF} (hs : s.diskStep start j k = some s') : Inv start s' := by
  have hp := h.phase
  unfold St.diskStep at hs
  split at hs <;> rename_i hph <;> simp only [PhaseInv, hph] at hp
  · cases hs
  · -- read_head
    cases hs
    obtain ⟨h0, hrec, hn0⟩ := hp
    have hcur := h.cur_nil hn0
    refine ⟨h.cached, h.owned, h.counts, h.history, h.pending, ?_, ?_, h.clean, ?_⟩
    · intro w hw
      rw [hcur] at hw
      cases hw
    · intro m hm
      simp only [Logheader.copy] at hm ⊢
      rw [if_pos hm]
      exact h.pending.homes m hm
    · simp only [PhaseInv, Logheader.copy]
      exact ⟨h0, hcur, trivial, fun m hm => (if_pos hm).symm, fun m hm => absurd hm (Nat.not_lt_zero m)⟩
  · -- write_log
    split at hs
    next ht =>
      obtain ⟨⟨bufs, ⟨i, x⟩, l, y⟩, hb, rfl⟩ := Option.map_eq_some_iff.1 hs
      exact inv_writeLog h hph ht hb
    rename_i t ht
    cases hs
    obtain ⟨h0, hrec, hn0, hpin, hlt, hlog⟩ := hp
    refine ⟨h.cached, h.owned, h.counts, h.history, h.pending, h.covers, h.homes, h.clean, ?_⟩
    have hn : s.lh.n < NBUF := by
      rcases Nat.eq_zero_or_pos t with rfl | hpos
      · exact Nat.lt_of_le_of_lt (Nat.le_of_not_lt ht) (by decide)
      · exact hlt hpos
    have hlog' : ∀ m, m < s.lh.n → s.disk.blk (slot start m) = s.latest (s.lh.block m) := fun m hm =>
      hlog m (by omega)
    exact ⟨h0, hrec, hn0, hn, hlog'⟩
  · cases hs
    exact inv_writeHead h hph
  · -- install_trans
    split at hs
    next ht =>
      obtain ⟨⟨bufs, ⟨i, x⟩, l, y⟩, hb, rfl⟩ := Option.map_eq_some_iff.1 hs
      exact inv_install h hph ht hb
    rename_i t ht
    cases hs
    obtain ⟨h0, hcur, hn, hblock, hdone⟩ := hp
    refine ⟨h.cached, h.owned, h.counts, h.history, h.pending, h.covers, h.homes, h.clean, h0, hcur, ?_⟩
    apply h.pending.settled
    intro m hm
    rw [hn] at hm
    rw [hblock m hm]
    exact hdone m (by omega)
  · -- the second write_head
    cases hs
    obtain ⟨h0, hcur, hall⟩ := hp
    refine ⟨h.cached, h.owned, h.counts, h.history, Pending.zero_iff.2 hall, ?_,
      fun m hm => absurd hm (Nat.not_lt_zero m), h.clean, h0, rfl, rfl⟩
    intro w hw
    rw [hcur] at hw
    cases hw
  cases hs
  obtain ⟨h0, hn0, hl0⟩ := hp
  have hcur := h.cur_nil hl0
  have hpend := h.pending
  rw [hn0] at hpend
  refine ⟨h.cached, h.owned, h.counts, h.history, h.pending, h.covers, h.homes, ?_, rfl, hn0, pinned_zero hl0⟩
  intro _ c hch _
  exact (Pending.zero_iff.1 hpend c hch).trans (congrFun (latest_of_nil hcur) c).symm

theorem inv_step {a : Act β} (hs : s.step start a = some s') : Inv start s' := by
  cases a with
  | beginOp => exact inv_beginOp h hs
  | bread o b j => exact inv_opBread h hs
  | modify o i v => exact inv_modify h hs
  | check o i => exact inv_check h hs
  | append o => exact inv_append h hs
  | brelse o i => exact inv_brelse h hs
  | endOp o => exact inv_endOp h hs
  | disk j k => exact inv_diskStep h hs
  | read b j => exact inv_read h hs
  | crash =>
    cases hs
    exact inv_crash h

end

theorem inv_boot (blk : Nat → β) (block : Nat → Nat) : Inv start (.boot blk block) := by
  refine ⟨⟨fun _ _ _ _ hx => (nomatch hx), fun _ _ hx => (nomatch hx), fun _ _ hx => (nomatch hx)⟩,
    ⟨fun _ _ _ hx => (nomatch hx), fun _ _ hx => (nomatch hx), fun _ _ hi => (nomatch hi)⟩,
    ⟨fun _ _ => rfl, rfl⟩, ?_, Pending.zero_iff.2 fun _ _ => rfl, fun _ hw => (nomatch hw),
    fun k hk => absurd hk (Nat.not_lt_zero k), fun hr => (nomatch hr), rfl, rfl, rfl⟩
  refine ⟨fun _ ho => (nomatch ho), ?_, fun _ ho => (nomatch ho), ?_, fun _ _ => rfl,
    fun _ ho => (nomatch ho), fun _ _ => rfl, fun _ _ => rfl⟩
  · intro o ho
    rcases ho with ho | ⟨g, hg, -⟩
    · cases ho
    · cases hg
  · intro o ho
    obtain ⟨g, hg, -⟩ := ho
    cases hg

theorem inv_reach (h : (machine start β).Reach s) : Inv start s := by
  refine Machine.Reach.inv (I := Inv start) ?_ ?_ h
  · rintro _ ⟨blk, block, rfl⟩
    exact inv_boot blk block
  · intro s a t hi hs
    exact inv_step hi hs

/-! ## Recovery -/

/-- `t` is reached from `s` by the disk steps of `log.c` alone. -/
def RunsTo (start : Nat) (s t : St β) : Prop :=
  ∃ js : List (Fin NBUF × Fin NBUF),
    (machine start β).run (fun _ _ => True) s (js.map fun j => .disk j.1 j.2) = some t

/-- `t` is what `recover_from_log` leaves after a crash in `s`, when it is not interrupted. -/
def Recovers (start : Nat) (s t : St β) : Prop := RunsTo start s.crash t ∧ t.phase = none

theorem RunsTo.refl (s : St β) : RunsTo start s s := ⟨[], rfl⟩

theorem RunsTo.step {t : St β} {k : Fin NBUF} (hs : s.diskStep start j k = some s') (h : RunsTo start s' t) :
    RunsTo start s t := by
  obtain ⟨js, hjs⟩ := h
  refine ⟨(j, k) :: js, ?_⟩
  simpa [Machine.run, machine, St.step, hs] using hjs

/-- A block is copied home: there are buffers for it. -/
theorem recover_install (h : Inv start s) (hf : Fresh s.bufs) (hp : s.phase = some (.install t))
    (ht : t < s.lh.n) : ∃ j k s', s.diskStep start j k = some s' ∧ s'.phase = some (.install (t + 1)) ∧
      Fresh s'.bufs ∧ s'.lh = s.lh := by
  have hph := h.phase
  simp only [PhaseInv, hp] at hph
  obtain ⟨-, -, hn, -⟩ := hph
  have hslot := h.pending.slots t (hn ▸ ht)
  obtain ⟨j, bufs1, i, x, h1⟩ := bread_of_fresh (d := s.disk.blk) (b := slot start t) hf none
    fun _ _ _ _ he => nomatch he
  obtain ⟨hf1, -⟩ := fetched_of_bread h1
  have hne : ∀ l y, bufs1 l = some y → y.blockno = s.lh.block t → some i ≠ some l := by
    rintro l y hy hb ⟨⟩
    rw [hf1.self] at hy
    cases hy
    rw [hf1.blockno] at hb
    exact hslot (hb ▸ h.homes t ht)
  obtain ⟨k, bufs2, l, y, h2⟩ := bread_of_fresh (d := s.disk.blk) (hf1.fresh hf) (some i) hne
  obtain ⟨hf2, -⟩ := fetched_of_bread h2
  have hb : s.breadBoth start t j k = some (bufs2, (i, x), l, y) := by simp [St.breadBoth, h1, h2]
  refine ⟨j, k, s.bwrite bufs2 l (s.lh.block t) x.data (.install (t + 1)), by simp only [St.diskStep, hp, ht,
    if_true, hb, Option.map_some], rfl, ?_, rfl⟩
  intro m z hz
  by_cases e : m = l
  · subst e
    simp only [St.bwrite, update_self, Option.some.injEq] at hz
    subst hz
    exact ⟨rfl, rfl⟩
  · simp only [St.bwrite, update_of_ne e] at hz
    exact hf2.fresh (hf1.fresh hf) m z hz

theorem recover_all (m : Nat) : ∀ {s : St β} {t : Nat}, Inv start s → Fresh s.bufs → s.phase = some (.install t) →
    s.lh.n - t = m → ∃ u, RunsTo start s u ∧ u.phase = none := by
  induction m with
  | zero =>
    intro s t h hf hp hm
    have ht : ¬ t < s.lh.n := by omega
    have hclear : s.diskStep start 0 0 = some { s with phase := some .clear } := by
      simp only [St.diskStep, hp, ht, if_false]
    exact ⟨_, .step hclear (.step (j := 0) (k := 0) rfl (.step (j := 0) (k := 0) rfl (.refl _))), rfl⟩
  | succ m ih =>
    intro s t h hf hp hm
    obtain ⟨j, k, s', hs, hp', hf', hlh⟩ := recover_install h hf hp (by omega)
    obtain ⟨u, hu, hn⟩ := ih (inv_diskStep h hs) hf' hp' (by rw [hlh]; omega)
    exact ⟨u, .step hs hu, hn⟩

theorem exists_recovers (h : Inv start s) : ∃ t, Recovers start s t := by
  have h0 : s.crash.diskStep start 0 0 =
      some { s.crash with lh := s.crash.disk.head.copy s.crash.lh, phase := some (.install 0) } := rfl
  obtain ⟨u, hu, hn⟩ := recover_all _ (inv_diskStep (inv_crash h) h0) (fun _ _ hx => nomatch hx) rfl rfl
  exact ⟨u, .step h0 hu, hn⟩

/-- Recovery commits nothing. -/
theorem diskStep_done (h : Inv start s) (hr : s.recovering = true) {k : Fin NBUF}
    (hs : s.diskStep start j k = some s') :
    s'.done = s.done ∧ s'.base = s.base ∧ (s'.recovering = true ∨ s'.phase = none) := by
  have hp := h.phase
  unfold St.diskStep at hs
  split at hs <;> rename_i hph <;> simp only [PhaseInv, hph, hr] at hp
  · cases hs
  · cases hs
    exact ⟨rfl, rfl, .inl hr⟩
  · exact absurd hp.2.1 (by decide)
  · exact absurd hp.2.1 (by decide)
  · split at hs
    · obtain ⟨_, _, rfl⟩ := Option.map_eq_some_iff.1 hs
      exact ⟨rfl, rfl, .inl hr⟩
    · cases hs
      exact ⟨rfl, rfl, .inl hr⟩
  · cases hs
    exact ⟨rfl, rfl, .inl hr⟩
  · cases hs
    exact ⟨rfl, rfl, .inr rfl⟩

theorem runsTo_done (js : List (Fin NBUF × Fin NBUF)) : ∀ {s t : St β}, Inv start s →
    (s.recovering = true ∨ s.phase = none) →
    (machine start β).run (fun _ _ => True) s (js.map fun j => .disk j.1 j.2) = some t →
    Inv start t ∧ t.done = s.done ∧ t.base = s.base := by
  induction js with
  | nil =>
    intro s t h _ hrun
    cases hrun
    exact ⟨h, rfl, rfl⟩
  | cons j js ih =>
    intro s t h hr hrun
    simp only [List.map_cons, Machine.run, if_true, machine, St.step] at hrun
    obtain ⟨u, hu, hrun⟩ := Option.bind_eq_some_iff.1 hrun
    rcases hr with hr | hn
    · obtain ⟨hd, hb, hr'⟩ := diskStep_done h hr hu
      obtain ⟨hi, hd', hb'⟩ := ih (inv_diskStep h hu) hr' hrun
      exact ⟨hi, hd'.trans hd, hb'.trans hb⟩
    · simp [St.diskStep, hn] at hu

/-- **Crash atomicity of the log.** After a crash in any state, `recover_from_log` can run to completion,
and whenever it does, every home block has its contents after the committed groups. An operation of a
committed group is there with all its writes, any other with none. -/
theorem crash_atomic (h : (machine start β).Reach s) :
    (∃ t, Recovers start s t) ∧
    (∀ t, Recovers start s t → ∀ b, home start b → t.disk.blk b = contents s.base s.done b) ∧
    ∀ o, (InGroup s.done o → writesOf o (committed s.done) = s.written o) ∧
      (¬ InGroup s.done o → writesOf o (committed s.done) = []) := by
  have hi := inv_reach h
  refine ⟨exists_recovers hi, ?_, fun o => ⟨hi.history.all o, hi.history.none o⟩⟩
  rintro t ⟨⟨js, hrun⟩, hn⟩ b hb
  obtain ⟨hit, hd, hbase⟩ := runsTo_done js (inv_crash hi) (.inl rfl) hrun
  obtain ⟨-, hn0, -⟩ := hit.of_none hn
  have hpend := hit.pending
  rw [hn0] at hpend
  have := Pending.zero_iff.1 hpend b hb
  rwa [hd, hbase] at this

end Inv

/-- One operation writes 7 to block 40; the crash comes right after the first `write_head`. -/
def commitAndCrash : List (Act Nat) :=
  [.disk 0 0, .disk 0 0, .disk 0 0, .disk 0 0, .beginOp, .bread 0 40 0, .modify 0 0 7, .check 0 0, .append 0,
    .brelse 0 0, .endOp 0, .disk 1 0, .disk 0 0, .disk 0 0]

theorem crash_atomic_commit : ∃ s, (machine 2 Nat).Reach s ∧ s.disk.blk 40 = 0 ∧ (∃ t, Recovers 2 s t) ∧
    ∀ t, Recovers 2 s t → t.disk.blk 40 = 7 := by
  obtain ⟨s, hs, hp⟩ := Machine.exists_reachBy (M := machine 2 Nat) (G := fun _ _ => True)
    ⟨fun _ => 0, fun _ => 0, rfl⟩ commitAndCrash (fun s => s.disk.blk 40 = 0 ∧ contents s.base s.done 40 = 7)
    (by decide)
  obtain ⟨h0, h7⟩ := of_decide_eq_true hp
  obtain ⟨hex, hall, -⟩ := crash_atomic hs
  exact ⟨s, hs, h0, hex, fun t ht => (hall t ht 40 (by decide)).trans h7⟩

/-- **What is logged stays in the cache.** While an operation runs, no commit does, and every home block of the disk is as
the committed groups left it. The log has one entry for each block written since, with a dirty buffer, and all buffers
show the latest contents, but for what was modified and not logged yet. -/
theorem running_isolated {start o : Nat} {s : St β} (h : (machine start β).Reach s) (ho : (s.pc o).active = true) :
    s.phase = none ∧ (∀ b, home start b → s.disk.blk b = contents s.base s.done b) ∧ Pinned s.bufs s.lh ∧
      ∀ i x, s.bufs i = some x → home start x.blockno → x.unlogged = false → x.data = s.latest x.blockno := by
  have hi := inv_reach h
  have hnone := hi.phase_none ho
  obtain ⟨-, hn, hpin⟩ := hi.of_none hnone
  have hpend := hi.pending
  rw [hn] at hpend
  exact ⟨hnone, Pending.zero_iff.1 hpend, hpin, hi.cached.data⟩

/-- The same operation, after its `log_write`. -/
theorem running_isolated_logged : ∃ s, (machine 2 Nat).Reach s ∧ s.latest 40 = 7 ∧ s.disk.blk 40 = 0 := by
  obtain ⟨s, hs, hp⟩ := Machine.exists_reachBy (M := machine 2 Nat) (G := fun _ _ => True)
    ⟨fun _ => 0, fun _ => 0, rfl⟩ (commitAndCrash.take 9)
    (fun s => (s.pc 0).active = true ∧ s.latest 40 = 7 ∧ contents s.base s.done 40 = 0) (by decide)
  obtain ⟨ho, h7, h0⟩ := of_decide_eq_true hp
  exact ⟨s, hs, h7, ((running_isolated hs ho).2.1 40 (by decide)).trans h0⟩

end Xv6.Log
