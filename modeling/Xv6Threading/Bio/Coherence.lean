import Xv6Threading.Bio.Calls
import Xv6Threading.Lib.Links

/-!
# Coherence of the buffer cache

The pieces hold each other up. A buffer without references has no holder, so its data, if valid and not
dirty, is on disk, and it may be given to another block. A block has one buffer, since `bget` looks through
the whole list before it recycles; the list has all buffers because `brelse` puts back what it takes out.
So a block that is in no valid buffer has its latest data on disk, where `bread` gets it.

Device 0 is left out, as in every buffer that has not been used yet.
-/

namespace Xv6.Bio

open Function
open Log (NBUF)

/-! ## The list -/

/-- The links form one ring of the head and all buffers, each once. -/
def Links.Whole (k : Links) : Prop :=
  ∃ l : List (Fin NBUF), LinkedRing k.next k.prev none (l.map some) ∧ ∀ i, i ∈ l

section Links

variable {k : Links} {l xs ys : List (Fin NBUF)} {i : Fin NBUF}

theorem ring_insert (h : LinkedRing k.next k.prev none (l.map some)) (hi : i ∉ l) :
    LinkedRing (k.insert i).next (k.insert i).prev none ((i :: l).map some) := by
  have := h.insert (b := some i) (by simpa using hi)
  simpa [Links.insert] using this

theorem ring_unlink (h : LinkedRing k.next k.prev none ((xs ++ i :: ys).map some)) :
    LinkedRing (k.unlink i).next (k.unlink i).prev none ((xs ++ ys).map some) := by
  rw [List.map_append, List.map_cons] at h
  have hself : k.next (some i) ≠ some i := by
    -- the node after `i` is the first of `ys`, or the head
    rw [(LinkedSeg.append.1 h.seg).2.next_eq]
    have hnd := (List.nodup_append.1 (List.nodup_cons.1 h.nodup).2).2.1
    cases ys with
    | nil => simp
    | cons y ys => simpa [eq_comm] using fun e => (List.nodup_cons.1 hnd).1 (by simp [e])
  have := h.unlink
  simpa [Links.unlink, update_of_ne hself.symm] using this

theorem ring_nodup (h : LinkedRing k.next k.prev none (l.map some)) : l.Nodup :=
  (List.nodup_map_iff (Option.some_injective _)).1 (List.nodup_cons.1 h.nodup).2

/-- `brelse` puts a buffer in front and keeps all the others. -/
theorem Links.Whole.toFront (h : k.Whole) (i : Fin NBUF) : ((k.unlink i).insert i).Whole := by
  obtain ⟨l, hl, hall⟩ := h
  obtain ⟨xs, ys, rfl⟩ := List.append_of_mem (hall i)
  have hnd := ring_nodup hl
  have hi : i ∉ xs ++ ys := (List.nodup_middle.1 hnd |> List.nodup_cons.1).1
  refine ⟨i :: (xs ++ ys), ring_insert (ring_unlink hl) hi, ?_⟩
  intro j
  have := hall j
  simp only [List.mem_append, List.mem_cons] at this ⊢
  tauto

theorem ring_insertAll (js : List (Fin NBUF)) : ∀ {k : Links} {l : List (Fin NBUF)},
    LinkedRing k.next k.prev none (l.map some) → (js ++ l).Nodup →
    LinkedRing (js.foldl Links.insert k).next (js.foldl Links.insert k).prev none ((js.reverse ++ l).map some) := by
  induction js with
  | nil => exact fun h _ => h
  | cons j js ih =>
    intro k l h hnd
    have hj : j ∉ js ++ l := (List.nodup_cons.1 hnd).1
    have := ih (ring_insert h fun hm => hj (List.mem_append_right _ hm)) (List.nodup_middle.2 hnd)
    simpa using this

theorem binit_whole : binit.Whole := by
  refine ⟨(List.finRange NBUF).reverse, ?_, by simp⟩
  have := ring_insertAll (List.finRange NBUF) (k := ⟨fun _ => none, fun _ => none⟩) (l := [])
    (LinkedRing.nil rfl rfl) (by simpa using List.nodup_finRange NBUF)
  simpa [binit] using this

theorem find_map_some (l : List (Fin NBUF)) (p : Fin NBUF → Bool) :
    (l.map some).find? (fun x => x.any p) = (l.find? p).map some := by
  rw [List.find?_map]
  rfl

/-- A walk finds a buffer with `p` if there is one. -/
theorem find_of_ring {ptr b : Node → Node} (h : LinkedRing ptr b none (l.map some)) (hall : ∀ i, i ∈ l)
    (p : Fin NBUF → Bool) : (∀ i, find ptr p = some i → p i = true) ∧ (find ptr p = none → ∀ i, p i = false) := by
  have hlen : (l.map some).length = NBUF := by
    have hnd : l.Nodup := (List.nodup_map_iff (Option.some_injective _)).1 (List.nodup_cons.1 h.nodup).2
    have := List.toFinset_card_of_nodup hnd
    rw [Finset.eq_univ_of_forall fun i => List.mem_toFinset.2 (hall i)] at this
    simpa using this.symm
  have hfind : find ptr p = l.find? p := by
    have := h.scan_eq (fun x => x.any p)
    rw [hlen, find_map_some] at this
    rw [find, this]
    cases l.find? p <;> rfl
  rw [hfind]
  refine ⟨fun i hi => List.find?_some hi, fun hn i => ?_⟩
  simpa using List.find?_eq_none.1 hn i (hall i)

theorem Links.Whole.find_next (h : k.Whole) (p : Fin NBUF → Bool) :
    (∀ i, find k.next p = some i → p i = true) ∧ (find k.next p = none → ∀ i, p i = false) := by
  obtain ⟨l, hl, hall⟩ := h
  exact find_of_ring hl hall p

theorem Links.Whole.find_prev (h : k.Whole) (p : Fin NBUF → Bool) :
    (∀ i, find k.prev p = some i → p i = true) ∧ (find k.prev p = none → ∀ i, p i = false) := by
  obtain ⟨l, hl, hall⟩ := h
  refine find_of_ring (l := l.reverse) (b := k.next) ?_ (by simpa using hall) p
  simpa using hl.reverse

end Links

/-! ## References and locks -/

section Inv

variable {β P : Type} [Fintype P] [DecidableEq P] {s s' : Cache β P} {p : P} {i : Fin NBUF} {c : Pc}

/-- The number of uses of buffer `i`: its holder, those that wait for it, and those about to drop it. -/
def users (pc : P → Pc) (i : Fin NBUF) : Nat := (Finset.univ.filter fun p => (pc p).ref = some i).card

section Users

variable {pc : P → Pc}

/-- A use ends, and another one begins. -/
theorem users_update (pc : P → Pc) (p : P) (c : Pc) (j : Fin NBUF) :
    users (update pc p c) j + (if (pc p).ref = some j then 1 else 0) = users pc j + if c.ref = some j then 1 else 0 := by
  simp only [users, Finset.card_filter]
  exact Links.sum_update (fun c : Pc => if c.ref = some j then 1 else 0) pc p c

omit [DecidableEq P] in
/-- Without users, nobody refers to the buffer. -/
theorem ref_ne_of_users (h : users pc i = 0) (q : P) : (pc q).ref ≠ some i := by
  rw [users, Finset.card_eq_zero] at h
  intro hq
  have : q ∈ Finset.univ.filter fun p => (pc p).ref = some i := by simp [hq]
  rw [h] at this
  cases this

end Users

theorem ref_of_owns (h : c.owns = some i) : c.ref = some i := by
  cases c <;> simp_all [Pc.owns, Pc.ref]

/-- What does not depend on the data. -/
structure Refs (s : Cache β P) : Prop where
  whole : s.links.Whole
  refs : ∀ i, (s.buf i).refcnt = users s.pc i
  locks : ∀ i p, s.lock i = some p ↔ (s.pc p).owns = some i
  wants : ∀ p i, (s.pc p).ref = some i → (s.buf i).key = s.want p

omit [DecidableEq P] in
/-- A buffer has one owner. -/
theorem Refs.owner (h : Refs s) {q : P} (hp : (s.pc p).owns = some i) (hq : (s.pc q).owns = some i) : q = p := by
  have := (h.locks i p).2 hp
  rw [(h.locks i q).2 hq] at this
  exact Option.some.inj this

variable {b : Buf β} {v : β}

section

variable (h : Refs s)
include h

/-- The lock of `i` changes hands together with the use of `p`. -/
theorem Refs.lock_update {o : Option P}
    (hother : ∀ j, j ≠ i → (c.owns = some j ↔ (s.pc p).owns = some j)) (hself : o = some p ↔ c.owns = some i)
    (hkept : ∀ q, q ≠ p → (o = some q ↔ s.lock i = some q)) (j : Fin NBUF) (q : P) :
    update s.lock i o j = some q ↔ (update s.pc p c q).owns = some j := by
  by_cases ej : j = i <;> by_cases e : q = p
  · rw [ej, e, update_self, update_self, hself]
  · rw [ej, update_self, update_of_ne e, hkept q e, h.locks]
  · rw [e, update_of_ne ej, update_self, hother j ej, h.locks]
  · rw [update_of_ne ej, update_of_ne e, h.locks]

/-- A use of buffer `i` begins, goes on or ends. -/
theorem Refs.use {t : Cache β P} (hpc : t.pc = update s.pc p c)
    (hbuf : t.buf = update s.buf i b) (hw : t.links.Whole) (hold : (s.pc p).ref = none ∨ (s.pc p).ref = some i)
    (hnew : c.ref = none ∨ c.ref = some i)
    (hcnt : b.refcnt + (if (s.pc p).ref = some i then 1 else 0) = (s.buf i).refcnt + if c.ref = some i then 1 else 0)
    (hlock : ∀ j q, t.lock j = some q ↔ (update s.pc p c q).owns = some j)
    (hkey : b.key = (s.buf i).key ∨ (s.buf i).refcnt = 0) (hwant : ∀ q, q ≠ p → t.want q = s.want q)
    (hself : c.ref = some i → b.key = t.want p) : Refs t := by
  refine ⟨hw, fun j => ?_, fun j q => hpc ▸ hlock j q, fun q j hq => ?_⟩
  · have hj := users_update s.pc p c j
    rw [hpc, hbuf]
    by_cases e : j = i
    · subst e
      rw [update_self]
      have := h.refs j
      omega
    · have hno : ∀ r : Option (Fin NBUF), r = none ∨ r = some i → r ≠ some j := by
        rintro _ (rfl | rfl)
        exacts [nofun, fun h => e (Option.some.inj h).symm]
      rw [if_neg (hno _ hold), if_neg (hno _ hnew)] at hj
      rw [update_of_ne e, h.refs j]
      omega
  · rw [hpc] at hq
    rw [hbuf]
    by_cases e : q = p
    · rw [e, update_self] at hq
      obtain rfl : i = j := Option.some.inj ((hnew.resolve_left (by rw [hq]; nofun)).symm.trans hq)
      rw [e, update_self]
      exact hself hq
    · rw [update_of_ne e] at hq
      rw [hwant q e]
      by_cases ej : j = i
      · subst ej
        rw [update_self, hkey.resolve_right fun h0 => ref_ne_of_users ((h.refs j).symm.trans h0) q hq]
        exact h.wants q j hq
      · rw [update_of_ne ej]
        exact h.wants q j hq

/-- A use goes on with the same buffer, and may edit it. -/
theorem Refs.edit {disk : Nat × Nat → β} (hp : (s.pc p).owns = some i)
    (hc : c.owns = some i) (hb : b.refcnt = (s.buf i).refcnt) (hk : b.key = (s.buf i).key) :
    Refs { s.setBuf i b with pc := update s.pc p c, disk := disk } := by
  have hr := ref_of_owns hp
  have hlock := h.lock_update (p := p) (c := c) (i := i) (o := s.lock i) (fun j _ => by rw [hc, hp])
    (by rw [h.locks, hc, hp]) fun _ _ => .rfl
  rw [update_eq_self] at hlock
  exact h.use rfl rfl h.whole (.inr hr) (.inr (ref_of_owns hc)) (by rw [hb, hr, ref_of_owns hc]) hlock (.inl hk)
    (fun _ _ => rfl) fun _ => hk.trans (h.wants p i hr)

/-- A use begins: the buffer has the block already, or nobody refers to it. -/
theorem Refs.await (hp : s.pc p = .idle) {k : Nat × Nat} (hb : b.key = k)
    (hr : b.refcnt = (s.buf i).refcnt + 1) (hi : (s.buf i).key = k ∨ (s.buf i).refcnt = 0) :
    Refs (s.await p k i b) := by
  have hlock := h.lock_update (p := p) (c := .waiting i) (i := i) (o := s.lock i) (fun j _ => by rw [hp]; exact .rfl)
    (by rw [h.locks, hp]; exact .rfl) fun _ _ => .rfl
  rw [update_eq_self] at hlock
  exact h.use rfl rfl h.whole (.inl (by rw [hp]; rfl)) (.inr rfl) (by simp [hr, hp, Pc.ref]) hlock
    (hi.imp_left fun e => hb.trans e.symm) (fun q e => update_of_ne e _ _) fun _ => show b.key = update s.want p k p by rw [update_self, hb]

theorem Refs.acquire (hp : s.pc p = .waiting i) (hl : s.lock i = none) :
    Refs { s.setPc p (.locked i) with lock := update s.lock i (some p) } := by
  have hr : (s.pc p).ref = some i := by rw [hp]; rfl
  exact h.use rfl (update_eq_self ..).symm h.whole (.inr hr) (.inr rfl) (by rw [hr]; rfl)
    (h.lock_update (fun j e => by simp [hp, Pc.owns, Ne.symm e]) (by simp [Pc.owns])
      fun q e => by simp [hl, Ne.symm e]) (.inl rfl) (fun _ _ => rfl) fun _ => h.wants p i hr

theorem Refs.release (hp : (s.pc p).owns = some i) {left : Nat × Nat → β} :
    Refs { s.setPc p (.releasing i) with lock := update s.lock i none, left := left } := by
  have hr := ref_of_owns hp
  refine h.use rfl (update_eq_self ..).symm h.whole (.inr hr) (.inr rfl) (by rw [hr]; rfl)
    (h.lock_update (fun j e => by rw [hp]; simp [Pc.owns, Ne.symm e]) (by simp [Pc.owns]) fun q e => ?_) (.inl rfl)
    (fun _ _ => rfl) fun _ => h.wants p i hr
  rw [h.locks]
  exact ⟨nofun, fun hq => absurd (h.owner hp hq) e⟩

theorem Refs.drop (hp : s.pc p = .releasing i) (hs : s.drop p = some s') : Refs s' := by
  have hr : (s.pc p).ref = some i := by rw [hp]; rfl
  simp only [Cache.drop, hp, Option.some.injEq] at hs
  subst hs
  have hlock := h.lock_update (p := p) (c := .idle) (i := i) (o := s.lock i) (fun j _ => by rw [hp]; exact .rfl)
    (by rw [h.locks, hp]; exact .rfl) fun _ _ => .rfl
  rw [update_eq_self] at hlock
  -- `p` itself refers to the buffer
  have hpos : (s.buf i).refcnt ≠ 0 := fun h0 => ref_ne_of_users ((h.refs i).symm.trans h0) p hr
  refine h.use rfl rfl ?_ (.inr hr) (.inl rfl) ?_ hlock (.inl rfl) (fun _ _ => rfl) nofun
  · show Links.Whole (if _ then _ else _)
    split
    · exact h.whole.toFront i
    · exact h.whole
  · rw [if_pos hr, if_neg nofun]
    show (s.buf i).refcnt - 1 + 1 = (s.buf i).refcnt + 0
    omega

end

/-! ## Data -/

/-- A block has one buffer. If the buffer is valid it has the latest data, unless its holder has modified it;
if it is moreover not dirty, so does the disk; and the disk has it if there is no valid buffer. -/
structure Data (s : Cache β P) : Prop where
  uniq : ∀ i j, (s.buf i).dev ≠ 0 → (s.buf i).key = (s.buf j).key → i = j
  dirty : ∀ i, (s.buf i).dirty = true → (s.buf i).valid = true
  held : ∀ p i m u, s.pc p = .holding i m u → (s.buf i).valid = true
  data : ∀ i, (s.buf i).dev ≠ 0 → (s.buf i).valid = true → (∀ p u, s.pc p ≠ .holding i true u) →
    (s.buf i).data = s.left (s.buf i).key
  saved : ∀ i, (s.buf i).dev ≠ 0 → (s.buf i).valid = true → (s.buf i).dirty = false →
    (∀ p m, s.pc p ≠ .holding i m true) → s.disk (s.buf i).key = (s.buf i).data
  disk : ∀ k, k.1 ≠ 0 → (∀ i, (s.buf i).key = k → (s.buf i).valid = false) → s.disk k = s.left k

/-- The same buffers up to reference counts, and the same holders. -/
structure SameData (s s' : Cache β P) : Prop where
  key : ∀ i, (s'.buf i).key = (s.buf i).key
  valid : ∀ i, (s'.buf i).valid = (s.buf i).valid
  dirty : ∀ i, (s'.buf i).dirty = (s.buf i).dirty
  data : ∀ i, (s'.buf i).data = (s.buf i).data
  holding : ∀ p i m u, s'.pc p = .holding i m u ↔ s.pc p = .holding i m u
  disk : s'.disk = s.disk
  left : s'.left = s.left

omit [Fintype P] in
/-- A count changes, and what a process without a buffer is at. -/
theorem SameData.of_count {t : Cache β P} {n : Nat} (hbuf : t.buf = update s.buf i { s.buf i with refcnt := n })
    (hpc : t.pc = update s.pc p c) (hp : ∀ j m u, s.pc p ≠ .holding j m u) (hc : ∀ j m u, c ≠ .holding j m u)
    (hdisk : t.disk = s.disk) (hleft : t.left = s.left) : SameData s t := by
  have hb : ∀ j, t.buf j = { s.buf j with refcnt := (t.buf j).refcnt } := by
    intro j
    rw [hbuf]
    by_cases e : j = i
    · rw [e, update_self]
    · rw [update_of_ne e]
  refine ⟨fun j => by rw [hb]; rfl, fun j => by rw [hb], fun j => by rw [hb], fun j => by rw [hb], fun q j m u => ?_,
    hdisk, hleft⟩
  rw [hpc]
  by_cases e : q = p
  · rw [e, update_self]
    exact iff_of_false (hc j m u) (hp j m u)
  · rw [update_of_ne e]

omit [Fintype P] [DecidableEq P] in
theorem SameData.dev (h : SameData s s') (i : Fin NBUF) : (s'.buf i).dev = (s.buf i).dev :=
  congrArg Prod.fst (h.key i)

omit [Fintype P] [DecidableEq P] in
theorem Data.same (h : Data s) (e : SameData s s') : Data s' := by
  refine ⟨?_, ?_, ?_, ?_, ?_, ?_⟩
  · intro i j
    rw [e.dev, e.key, e.key]
    exact h.uniq i j
  · intro i
    rw [e.dirty, e.valid]
    exact h.dirty i
  · intro p i m u
    rw [e.holding, e.valid]
    exact h.held p i m u
  · intro i
    simp only [e.dev, e.valid, e.data, e.key, e.left, ne_eq, e.holding]
    exact h.data i
  · intro i
    simp only [e.dev, e.valid, e.dirty, e.data, e.key, e.disk, ne_eq, e.holding]
    exact h.saved i
  · intro k
    simp only [e.key, e.valid, e.disk, e.left]
    exact h.disk k

/-- A buffer that nobody refers to is given to a block that has none. -/
theorem Data.recycle (h : Data s) (hr : Refs s) {k : Nat × Nat} (h0 : (s.buf i).refcnt = 0)
    (hd : (s.buf i).dirty = false) (hk : ∀ j, (s.buf j).key ≠ k) (hp : s.pc p = .idle) :
    Data (s.await p k i ⟨k.1, k.2, false, false, 1, v⟩) := by
  have hpc : ∀ q j m u, update s.pc p (.waiting i) q = .holding j m u ↔ s.pc q = .holding j m u := by
    intro q j m u
    by_cases e : q = p
    · rw [e, update_self, hp]
      simp
    · rw [update_of_ne e]
  have hfree : ∀ q m u, s.pc q ≠ .holding i m u := by
    intro q m u hq
    exact ref_ne_of_users ((hr.refs i).symm.trans h0) q (by rw [hq]; rfl)
  have hself : (s.await p k i ⟨k.1, k.2, false, false, 1, v⟩).buf i = ⟨k.1, k.2, false, false, 1, v⟩ :=
    update_self _ _ _
  have hne : ∀ j, j ≠ i → (s.await p k i ⟨k.1, k.2, false, false, 1, v⟩).buf j = s.buf j :=
    fun j e => update_of_ne e _ _
  refine ⟨?_, ?_, ?_, ?_, ?_, ?_⟩
  · intro j l hdev hjl
    by_cases ej : j = i <;> by_cases el : l = i
    · rw [ej, el]
    · rw [ej, hself, hne l el] at hjl
      exact absurd hjl.symm (hk l)
    · rw [el, hself, hne j ej] at hjl
      exact absurd hjl (hk j)
    · rw [hne j ej, hne l el] at hjl
      rw [hne j ej] at hdev
      exact h.uniq j l hdev hjl
  · intro j hj
    by_cases e : j = i
    · rw [e, hself] at hj
      cases hj
    · rw [hne j e] at hj ⊢
      exact h.dirty j hj
  · intro q j m u hq
    replace hq := (hpc q j m u).1 hq
    have e : j ≠ i := by
      rintro rfl
      exact hfree q m u hq
    rw [hne j e]
    exact h.held q j m u hq
  · intro j hdev hv hm
    by_cases e : j = i
    · rw [e, hself] at hv
      cases hv
    · rw [hne j e] at hdev hv ⊢
      exact h.data j hdev hv fun q u hq => hm q u ((hpc q j true u).2 hq)
  · intro j hdev hv hdj hm
    by_cases e : j = i
    · rw [e, hself] at hv
      cases hv
    · rw [hne j e] at hdev hv hdj ⊢
      exact h.saved j hdev hv hdj fun q m hq => hm q m ((hpc q j m true).2 hq)
  intro k' hdev hinv
  show s.disk k' = s.left k'
  by_cases e : (s.buf i).key = k' ∧ (s.buf i).valid = true
  · -- the block that loses its buffer: its data is on disk
    obtain ⟨rfl, hv⟩ := e
    rw [h.saved i hdev hv hd fun q m => hfree q m true]
    exact h.data i hdev hv fun q u => hfree q true u
  refine h.disk k' hdev fun j hj => ?_
  by_cases ej : j = i
  · subst ej
    by_contra hv
    exact e ⟨hj, Bool.eq_true_of_not_eq_false hv⟩
  · have := hinv j (by rw [hne j ej]; exact hj)
    rwa [hne j ej] at this

omit [Fintype P] in
/-- The owner of a buffer edits it and the disk block under it. -/
theorem Data.edit (h : Data s) (hp : (s.pc p).owns = some i)
    {disk : Nat × Nat → β} (hk : b.key = (s.buf i).key) (hv : b.valid = true)
    (hc : c.owns = some i) (hdisk : ∀ k, k ≠ (s.buf i).key → disk k = s.disk k)
    (hdata : (s.buf i).dev ≠ 0 → (∀ u, c ≠ .holding i true u) → b.data = s.left (s.buf i).key)
    (hsaved : (s.buf i).dev ≠ 0 → b.dirty = false → (∀ m, c ≠ .holding i m true) → disk (s.buf i).key = b.data) :
    Data { s.setBuf i b with pc := update s.pc p c, disk := disk } := by
  have hkey : ∀ j, (update s.buf i b j).key = (s.buf j).key := by
    intro j
    by_cases e : j = i
    · rw [e, update_self, hk]
    · rw [update_of_ne e]
  have hdev : ∀ j, (update s.buf i b j).dev = (s.buf j).dev := fun j => congrArg Prod.fst (hkey j)
  have hself : update s.buf i b i = b := update_self _ _ _
  -- another buffer has another holder, who is not affected
  have hpc : ∀ q j m u, j ≠ i → s.pc q = .holding j m u → update s.pc p c q = .holding j m u := by
    intro q j m u e hq
    have eq : q ≠ p := by
      rintro rfl
      rw [hq] at hp
      exact e (Option.some.inj hp)
    rw [update_of_ne eq, hq]
  refine ⟨?_, ?_, ?_, ?_, ?_, ?_⟩
  · intro j l hd hjl
    replace hd : (update s.buf i b j).dev ≠ 0 := hd
    replace hjl : (update s.buf i b j).key = (update s.buf i b l).key := hjl
    rw [hkey, hkey] at hjl
    exact h.uniq j l (hdev j ▸ hd) hjl
  · intro j hj
    by_cases e : j = i
    · show (update s.buf i b j).valid = true
      rw [e, hself, hv]
    replace hj : (update s.buf i b j).dirty = true := hj
    show (update s.buf i b j).valid = true
    rw [update_of_ne e] at hj ⊢
    exact h.dirty j hj
  · intro q j m u hq
    show (update s.buf i b j).valid = true
    by_cases e : j = i
    · rw [e, hself, hv]
    rw [update_of_ne e]
    replace hq : update s.pc p c q = .holding j m u := hq
    have eq : q ≠ p := by
      rintro rfl
      rw [update_self] at hq
      rw [hq] at hc
      exact e (Option.some.inj hc)
    rw [update_of_ne eq] at hq
    exact h.held q j m u hq
  · intro j hd hvj hm
    show (update s.buf i b j).data = s.left (update s.buf i b j).key
    replace hd : (update s.buf i b j).dev ≠ 0 := hd
    replace hm : ∀ q u, update s.pc p c q ≠ .holding j true u := hm
    rw [hdev] at hd
    rw [hkey]
    by_cases e : j = i
    · subst e
      rw [hself]
      exact hdata hd fun u hu => hm p u (by rw [update_self, hu])
    · replace hvj : (update s.buf i b j).valid = true := hvj
      rw [update_of_ne e] at hvj ⊢
      exact h.data j hd hvj fun q u hq => hm q u (hpc q j true u e hq)
  · intro j hd hvj hdj hm
    show disk (update s.buf i b j).key = (update s.buf i b j).data
    replace hd : (update s.buf i b j).dev ≠ 0 := hd
    replace hdj : (update s.buf i b j).dirty = false := hdj
    replace hm : ∀ q m, update s.pc p c q ≠ .holding j m true := hm
    rw [hdev] at hd
    rw [hkey]
    by_cases e : j = i
    · subst e
      rw [hself] at hdj ⊢
      exact hsaved hd hdj fun m hm' => hm p m (by rw [update_self, hm'])
    replace hvj : (update s.buf i b j).valid = true := hvj
    rw [update_of_ne e] at hvj hdj ⊢
    rw [hdisk _ fun e' => e (h.uniq j i hd e')]
    exact h.saved j hd hvj hdj fun q m hq => hm q m (hpc q j m true e hq)
  intro k hk0 hinv
  show disk k = s.left k
  replace hinv : ∀ j, (update s.buf i b j).key = k → (update s.buf i b j).valid = false := hinv
  have hne : k ≠ (s.buf i).key := by
    rintro rfl
    have := hinv i (hkey i)
    rw [hself, hv] at this
    cases this
  rw [hdisk k hne]
  refine h.disk k hk0 fun j hj => ?_
  have e : j ≠ i := by
    rintro rfl
    exact hne hj.symm
  have := hinv j ((hkey j).trans hj)
  rwa [update_of_ne e] at this

/-- The holder leaves its data behind. -/
theorem Data.release (h : Data s) (hr : Refs s) {m : Bool} (hp : s.pc p = .holding i m false)
    (hs : s.brelse p = some s') : Data s' := by
  simp only [Cache.brelse, hp, Option.some.injEq] at hs
  subst hs
  have howns : (s.pc p).owns = some i := by rw [hp]; rfl
  have hvi := h.held p i m false hp
  have hpc : ∀ q j m' u, update s.pc p (.releasing i) q = .holding j m' u → s.pc q = .holding j m' u := by
    intro q j m' u hq
    by_cases e : q = p
    · rw [e, update_self] at hq
      cases hq
    · rwa [update_of_ne e] at hq
  have hpc' : ∀ q j m' u, s.pc q = .holding j m' u → j ≠ i → update s.pc p (.releasing i) q = .holding j m' u := by
    intro q j m' u hq e
    have eq : q ≠ p := by
      rintro rfl
      rw [hp] at hq
      cases hq
      exact e rfl
    rw [update_of_ne eq, hq]
  -- only the block of buffer `i` has new data left in it
  have hleft : ∀ k, k ≠ (s.buf i).key →
      (if m then update s.left (s.buf i).key (s.buf i).data else s.left) k = s.left k := by
    intro k e
    split
    · rw [update_of_ne e]
    · rfl
  refine ⟨h.uniq, h.dirty, fun q j m' u hq => h.held q j m' u (hpc q j m' u hq), ?_, ?_, ?_⟩
  · intro j hd hv hm
    by_cases e : j = i
    · subst e
      cases m with
      | true =>
        show (s.buf j).data = update s.left (s.buf j).key (s.buf j).data (s.buf j).key
        rw [update_self]
      | false =>
        refine h.data j hd hv fun q u hq => ?_
        have := hr.owner howns (by rw [hq]; rfl)
        rw [this, hp] at hq
        cases hq
    · show (s.buf j).data = _
      rw [h.data j hd hv fun q u hq => hm q u (hpc' q j true u hq e)]
      exact (hleft _ fun e' => e (h.uniq j i hd e')).symm
  · intro j hd hv hdj hm
    refine h.saved j hd hv hdj fun q m' hq => ?_
    by_cases e : j = i
    · have := hr.owner howns (q := q) (by rw [hq, e]; rfl)
      rw [this, hp] at hq
      cases hq
    · exact hm q m' (hpc' q j m' true hq e)
  intro k hk hinv
  have hne : k ≠ (s.buf i).key := by
    rintro rfl
    exact Bool.noConfusion (hvi.symm.trans (hinv i rfl))
  show s.disk k = _
  rw [h.disk k hk hinv]
  exact (hleft k hne).symm

/-! ## Every run -/

structure Inv (s : Cache β P) : Prop where
  refs : Refs s
  data : Data s

/-- The buffer keeps its block, and stays dirty until its data is on disk. -/
def Pinned (s s' : Cache β P) (i : Fin NBUF) : Prop :=
  (s'.buf i).key = (s.buf i).key ∧ ((s'.buf i).dirty = true ∨ s'.disk (s.buf i).key = (s.buf i).data)

omit [Fintype P] [DecidableEq P] in
theorem pinned_of_same (h : s'.buf i = s.buf i) (hd : (s.buf i).dirty = true) : Pinned s s' i :=
  ⟨by rw [h], .inl (by rw [h, hd])⟩

omit [Fintype P] [DecidableEq P] in
/-- A buffer other than `j` is not touched; what happens to `j` is left to see. -/
theorem pinned_update {j : Fin NBUF} (hb : s'.buf = update s.buf j b)
    (hd : (s.buf i).dirty = true) (hj : i = j → Pinned s s' i) : Pinned s s' i := by
  by_cases e : i = j
  · exact hj e
  · exact pinned_of_same (by rw [hb, update_of_ne e]) hd

/-- No step gives a dirty buffer to another block. -/
structure Next (s s' : Cache β P) : Prop where
  inv : Inv s'
  pinned : ∀ i, (s.buf i).dirty = true → Pinned s s' i

theorem next_bget (h : Inv s) {dev blockno : Nat} (hs : s.bget p dev blockno = some s') : Next s s' := by
  unfold Cache.bget at hs
  split at hs
  next hp =>
    have hfound := h.refs.whole.find_next fun i => (s.buf i).dev == dev && (s.buf i).blockno == blockno
    split at hs
    next i hi =>
      cases hs
      have hkey : (s.buf i).key = (dev, blockno) := by simpa [Buf.key] using hfound.1 i hi
      refine ⟨⟨h.refs.await hp hkey rfl (.inl hkey), h.data.same (.of_count rfl rfl (by rw [hp]; nofun) nofun rfl rfl)⟩,
        fun j hd => pinned_update rfl hd ?_⟩
      rintro rfl
      exact ⟨by simp [Cache.await, Cache.setBuf, Buf.key], .inl (by simp [Cache.await, Cache.setBuf, hd])⟩
    next hnone =>
      have hnot : ∀ j, (s.buf j).key ≠ (dev, blockno) := by
        intro j hj
        have := hfound.2 hnone j
        simp only [Buf.key, Prod.mk.injEq] at hj
        simp [hj.1, hj.2] at this
      have hfree := h.refs.whole.find_prev fun i => (s.buf i).refcnt == 0 && !(s.buf i).dirty
      split at hs
      next i hi =>
        cases hs
        obtain ⟨h0, hd⟩ : (s.buf i).refcnt = 0 ∧ (s.buf i).dirty = false := by simpa using hfree.1 i hi
        refine ⟨⟨h.refs.await hp rfl (by rw [h0]) (.inr h0), h.data.recycle h.refs (k := (dev, blockno)) h0 hd hnot hp⟩,
          fun j hdj => pinned_update rfl hdj ?_⟩
        rintro rfl
        rw [hd] at hdj
        cases hdj
      · cases hs
  · cases hs

theorem next_acquire (h : Inv s) (hs : s.acquire p = some s') : Next s s' := by
  unfold Cache.acquire at hs
  split at hs
  next i hp =>
    split at hs
    next hl =>
      cases hs
      exact ⟨⟨h.refs.acquire hp hl, h.data.same (.of_count (i := i) (update_eq_self ..).symm rfl (by rw [hp]; nofun) nofun
        rfl rfl)⟩, fun _ => pinned_of_same rfl⟩
    · cases hs
  · cases hs

/-- What a holder does to its buffer and the disk block under it. -/
theorem Inv.edit (h : Inv s) (hp : (s.pc p).owns = some i) {d : Nat × Nat → β}
    (hk : b.key = (s.buf i).key) (hb : b.refcnt = (s.buf i).refcnt) (hv : b.valid = true)
    (hpin : (s.buf i).dirty = true → b.dirty = true ∨ d (s.buf i).key = (s.buf i).data) (hc : c.owns = some i)
    (hdisk : ∀ k, k ≠ (s.buf i).key → d k = s.disk k)
    (hdata : (s.buf i).dev ≠ 0 → (∀ u, c ≠ .holding i true u) → b.data = s.left (s.buf i).key)
    (hsaved : (s.buf i).dev ≠ 0 → b.dirty = false → (∀ m, c ≠ .holding i m true) → d (s.buf i).key = b.data) :
    Next s { s.setBuf i b with pc := update s.pc p c, disk := d } := by
  refine ⟨⟨h.refs.edit hp hc hb hk, h.data.edit hp hk hv hc hdisk hdata hsaved⟩,
    fun j hd => pinned_update rfl hd ?_⟩
  rintro rfl
  show (update s.buf j b j).key = _ ∧ ((update s.buf j b j).dirty = true ∨ _)
  rw [update_self]
  exact ⟨hk, hpin hd⟩

omit [DecidableEq P] in
/-- A holder's own data counts only if it has modified it. -/
theorem Inv.latest (h : Inv s) (hp : (s.pc p).owns = some i) (hd : (s.buf i).dev ≠ 0)
    (hv : (s.buf i).valid = true) (hm : ∀ u, s.pc p ≠ .holding i true u) :
    (s.buf i).data = s.left (s.buf i).key := by
  refine h.data.data i hd hv fun q u hq => ?_
  have e := h.refs.owner hp (q := q) (by rw [hq]; rfl)
  exact hm u (e ▸ hq)

theorem next_bread (h : Inv s) (hs : s.bread p = some s') : Next s s' := by
  unfold Cache.bread at hs
  split at hs
  next i hp =>
    have hown : (s.pc p).owns = some i := by rw [hp]; rfl
    have hnot : ∀ m u, s.pc p ≠ .holding i m u := by
      intro m u e
      rw [hp] at e
      cases e
    cases hs
    cases hv : (s.buf i).valid with
    | true =>
      have := h.edit hown (b := s.buf i) (c := .holding i false false) (d := s.disk) rfl rfl hv .inl rfl
        (fun _ _ => rfl)
        (fun hd _ => h.latest hown hd hv (hnot true)) fun hd hdi _ => by
          refine h.data.saved i hd hv hdi fun q m hq => ?_
          have e := h.refs.owner hown (q := q) (by rw [hq]; rfl)
          exact hnot m true (e ▸ hq)
      simpa [Cache.setBuf, Cache.setPc, update_eq_self] using this
    | false =>
      have hdi : (s.buf i).dirty = false := by
        by_contra hd
        have := h.data.dirty i (Bool.eq_true_of_not_eq_false hd)
        rw [hv] at this
        cases this
      -- there is no other buffer of the block, so the disk has the latest data
      have hdisk : (s.buf i).dev ≠ 0 → s.disk (s.buf i).key = s.left (s.buf i).key := by
        intro hd
        refine h.data.disk _ hd fun j hj => ?_
        rw [← h.data.uniq i j hd hj.symm, hv]
      have := h.edit hown (b := { s.buf i with data := s.disk (s.buf i).key, valid := true })
        (c := .holding i false false) (d := s.disk) rfl rfl rfl (fun hd => absurd (hdi.symm.trans hd) nofun) rfl
        (fun _ _ => rfl) (fun hd _ => hdisk hd) fun _ _ _ => rfl
      simpa [Cache.setBuf, Cache.setPc, Cache.iderw, hdi] using this
  · cases hs

theorem next_modify (h : Inv s) (hs : s.modify p v = some s') : Next s s' := by
  unfold Cache.modify at hs
  split at hs
  next i m u hp =>
    cases hs
    exact h.edit (b := { s.buf i with data := v }) (c := .holding i true true) (d := s.disk) (by rw [hp]; rfl) rfl rfl
      (h.data.held p i m u hp) .inl rfl (fun _ _ => rfl) (fun _ hm => absurd rfl (hm true))
      fun _ _ hm => absurd rfl (hm true)
  · cases hs

theorem next_bwrite (h : Inv s) (hs : s.bwrite p = some s') : Next s s' := by
  unfold Cache.bwrite at hs
  split at hs
  next i m u hp =>
    have hown : (s.pc p).owns = some i := by rw [hp]; rfl
    cases hs
    have := h.edit hown (b := { s.buf i with dirty := false, valid := true }) (c := .holding i m false)
      (d := update s.disk (s.buf i).key (s.buf i).data) rfl rfl rfl (fun _ => .inr (update_self ..)) rfl
      (fun k hk => update_of_ne hk _ _)
      (fun hd hm => h.latest hown hd (h.data.held p i m u hp) fun u' e => by
        rw [hp] at e
        cases e
        exact hm false rfl)
      fun _ _ _ => update_self _ _ _
    simpa [Cache.setBuf, Cache.setPc, Cache.iderw, Buf.key] using this
  · cases hs

theorem next_logWrite (h : Inv s) (hs : s.logWrite p = some s') : Next s s' := by
  unfold Cache.logWrite at hs
  split at hs
  next i m u hp =>
    have hown : (s.pc p).owns = some i := by rw [hp]; rfl
    cases hs
    exact h.edit (b := { s.buf i with dirty := true }) (c := .holding i m false) (d := s.disk) hown rfl rfl
      (h.data.held p i m u hp) (fun _ => .inl rfl) rfl (fun _ _ => rfl)
      (fun hd hm => h.latest hown hd (h.data.held p i m u hp) fun u' e => by
        rw [hp] at e
        cases e
        exact hm false rfl)
      fun _ hd => (nomatch hd)
  · cases hs

theorem next_brelse (h : Inv s) (hs : s.brelse p = some s') : Next s s' := by
  unfold Cache.brelse at hs
  split at hs
  next i m hp =>
    have hdata := h.data.release h.refs hp (by simpa only [Cache.brelse, hp] using hs)
    cases hs
    exact ⟨⟨h.refs.release (by rw [hp]; rfl), hdata⟩, fun _ => pinned_of_same rfl⟩
  · cases hs

theorem next_drop (h : Inv s) (hs : s.drop p = some s') : Next s s' := by
  have hs0 := hs
  unfold Cache.drop at hs
  split at hs
  next i hp =>
    have hrefs := h.refs.drop hp hs0
    cases hs
    refine ⟨⟨hrefs, h.data.same (.of_count rfl rfl (by rw [hp]; nofun) nofun rfl rfl)⟩,
      fun j hd => pinned_update rfl hd ?_⟩
    rintro rfl
    exact ⟨by simp [Cache.setPc, Cache.setBuf, Buf.key], .inl (by simp [Cache.setPc, Cache.setBuf, hd])⟩
  · cases hs

theorem next_step (h : Inv s) {a : Act β P} (hs : s.step a = some s') : Next s s' := by
  cases a with
  | bget p dev blockno => exact next_bget h hs
  | acquire p => exact next_acquire h hs
  | bread p => exact next_bread h hs
  | modify p v => exact next_modify h hs
  | bwrite p => exact next_bwrite h hs
  | logWrite p => exact next_logWrite h hs
  | brelse p => exact next_brelse h hs
  | drop p => exact next_drop h hs

omit [DecidableEq P] in
theorem inv_boot (zero : β) (disk : Nat × Nat → β) : Inv (.boot zero disk : Cache β P) := by
  refine ⟨⟨binit_whole, ?_, ?_, ?_⟩, ⟨?_, ?_, ?_, ?_, ?_, ?_⟩⟩
  · intro i
    simp [Cache.boot, users, Pc.ref]
  · intro i p
    simp [Cache.boot, Pc.owns]
  · intro p i h
    cases h
  · intro i j h
    exact absurd rfl h
  · intro i h
    cases h
  · intro p i m u h
    cases h
  · intro i h
    exact absurd rfl h
  · intro i h
    exact absurd rfl h
  · intro k _ _
    rfl

theorem inv_reach (h : (machine β P).Reach s) : Inv s := by
  refine Machine.Reach.inv (I := Inv) ?_ ?_ h
  · rintro _ ⟨zero, disk, rfl⟩
    exact inv_boot zero disk
  · intro s a t hi hs
    exact (next_step hi hs).inv

/-- **The buffer cache is coherent.** A block has at most one buffer, the links form one ring of the head
and all buffers, the count of a buffer is the number of its users, a dirty buffer is not recycled before
it is written, and what `bread` returns is the block asked for with the data last left in it. -/
theorem cache_coherent (h : (machine β P).Reach s) :
    (∀ i j, (s.buf i).dev ≠ 0 → (s.buf i).key = (s.buf j).key → i = j) ∧ s.links.Whole ∧
    (∀ i, (s.buf i).refcnt = users s.pc i) ∧
    (∀ a t i, s.step a = some t → (s.buf i).dirty = true → Pinned s t i) ∧
    ∀ p i u, s.pc p = .holding i false u → (s.buf i).key = s.want p ∧ (s.buf i).valid = true ∧
      ((s.buf i).dev ≠ 0 → (s.buf i).data = s.left (s.want p)) := by
  have hi := inv_reach h
  refine ⟨hi.data.uniq, hi.refs.whole, hi.refs.refs, fun a t i hs => (next_step hi hs).pinned i, ?_⟩
  intro p i u hp
  have hkey := hi.refs.wants p i (by rw [hp]; rfl)
  have hv := hi.data.held p i false u hp
  refine ⟨hkey, hv, fun hd => ?_⟩
  rw [← hkey]
  refine hi.latest (p := p) (by rw [hp]; rfl) hd hv fun u' e => ?_
  rw [hp] at e
  cases e

end Inv

/-- One use writes 7 to block 5 of device 1, to be committed later; the next one reads it. -/
def writeThenRead (p q : Bool) : List (Act Nat Bool) :=
  [.bget p 1 5, .acquire p, .bread p, .modify p 7, .bget q 1 5, .logWrite p, .brelse p, .drop p, .acquire q, .bread q]

theorem cache_coherent_writeThenRead : ∃ (s : Cache Nat Bool) (i : Fin NBUF), (machine Nat Bool).Reach s ∧
    s.pc true = .holding i false false ∧ (s.buf i).dirty = true ∧ (s.buf i).data = s.left (1, 5) ∧ s.left (1, 5) = 7 ∧
    (s.buf i).refcnt = users s.pc i := by
  obtain ⟨s, hs, hp⟩ := Machine.exists_reachBy (M := machine Nat Bool) (G := fun _ _ => True)
    ⟨0, fun _ => 0, rfl⟩ (writeThenRead false true)
    (fun s => s.pc true = .holding 0 false false ∧ (s.buf 0).dirty = true ∧ (s.buf 0).dev = 1 ∧
      s.want true = (1, 5) ∧ s.left (1, 5) = 7) (by decide +kernel)
  obtain ⟨hpc, hd, hdev, hw, h7⟩ := of_decide_eq_true hp
  obtain ⟨-, -, hrefs, -, hdata⟩ := cache_coherent hs
  obtain ⟨-, -, hdata⟩ := hdata true 0 false hpc
  exact ⟨s, 0, hs, hpc, hd, hw ▸ hdata (by rw [hdev]; decide), h7, hrefs 0⟩

end Xv6.Bio
