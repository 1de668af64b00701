import Xv6Threading.Fs.Shape
import Xv6Threading.Lib.Outcome

/-!
# References to inodes

What a system call holds while it runs: `R` counts the references of processes and open files, `K` and `L` are those of
the call itself, with the inodes in `K` known to be read from disk. Paths are followed here by a function of the inodes
alone, and `namex` is shown to return what it gives.
-/

namespace Xv6.Fs

open Function

namespace Store

variable (s : Store) (i : Inum)

@[simp] theorem node_setNode (x : Inode) : (s.setNode i x).node = update s.node i x := by
  funext j
  simp [node, setNode, Vector.getElem_set, update_apply, Fin.ext_iff, eq_comm]

@[simp] theorem ref_setNode (x : Inode) : (s.setNode i x).ref = s.ref := rfl
@[simp] theorem valid_setNode (x : Inode) : (s.setNode i x).valid = s.valid := rfl
@[simp] theorem node_setRef (r : Nat) : (s.setRef i r).node = s.node := rfl

@[simp] theorem ref_setRef (r : Nat) : (s.setRef i r).ref = update s.ref i r := by
  funext j
  simp [ref, setRef, Vector.getElem_set, update_apply, Fin.ext_iff, eq_comm]

@[simp] theorem valid_setRef (r : Nat) : (s.setRef i r).valid = s.valid := rfl
@[simp] theorem node_setValid (b : Bool) : (s.setValid i b).node = s.node := rfl
@[simp] theorem ref_setValid (b : Bool) : (s.setValid i b).ref = s.ref := rfl

@[simp] theorem valid_setValid (b : Bool) : (s.setValid i b).valid = update s.valid i b := by
  funext j
  simp [valid, setValid, Vector.getElem_set, update_apply, Fin.ext_iff, eq_comm]

@[simp] theorem node_modify (f : Inode → Inode) : (s.modify i f).node = update s.node i (f (s.node i)) := by
  simp [modify]

@[simp] theorem ref_modify (f : Inode → Inode) : (s.modify i f).ref = s.ref := rfl
@[simp] theorem valid_modify (f : Inode → Inode) : (s.modify i f).valid = s.valid := rfl

theorem node_addLink (k : BitVec 16) : (s.addLink i k).node = bumped s.node i k := by
  simp [addLink, bumped]

@[simp] theorem ref_addLink (k : BitVec 16) : (s.addLink i k).ref = s.ref := rfl
@[simp] theorem valid_addLink (k : BitVec 16) : (s.addLink i k).valid = s.valid := rfl

theorem node_writei (off : Nat) (e : Dirent) : (s.writei i off e).node = written s.node i off e := by
  simp [writei, written]

end Store

/-! ## Entries and paths without references -/

def lookup (n : Inum → Inode) (d : Inum) (name : Name) : Option (Inum × Nat) :=
  (Store.findName (n d).ents name).map fun off => (((n d).ents.getD off ⟨0, []⟩).inum, off)

def walk (n : Inum → Inode) (parent : Bool) : Nat → Inum → List UInt8 → Name → Option (Inum × Name)
  | 0, ip, _, name => some (ip, name)
  | fuel + 1, ip, path, name =>
    match skipelem path with
    | none => if parent then none else some (ip, name)
    | some (name, path) =>
      if (n ip).type ≠ .dir then none
      else if parent ∧ path = [] then some (ip, name)
      else
        match lookup n ip name with
        | none => none
        | some (next, _) => walk n parent fuel next path name

/-- Where a path leads, or to which directory and name. -/
def resolve (n : Inum → Inode) (cwd : Inum) (path : List UInt8) (parent : Bool) : Option (Inum × Name) :=
  walk n parent (path.length + 1) (if path.head? = some slash then ROOTINO else cwd) path []

variable {n : Inum → Inode} {m : Inum → Inode} {e : Panic}

theorem lookup_some {d i : Inum} {name : Name} {off : Nat} (h : lookup n d name = some (i, off)) :
    ∃ e, (n d).ents[off]? = some e ∧ e.inum = i ∧ i ≠ 0 ∧ e.name = name := by
  simp only [lookup, Option.map_eq_some_iff, Prod.mk.injEq] at h
  obtain ⟨k, hk, hi, rfl⟩ := h
  obtain ⟨hlt, hp, -⟩ := List.findIdx?_eq_some_iff_getElem.1 hk
  have hget : (n d).ents[k]? = some (n d).ents[k] := List.getElem?_eq_getElem hlt
  simp only [List.getD_eq_getElem?_getD, hget, Option.getD_some] at hi
  simp only [ne_eq, decide_eq_true_eq] at hp
  exact ⟨_, hget, hi, hi ▸ hp.1, hp.2⟩

/-- Only types and entries matter. -/
theorem walk_congr (ht : ∀ i, (m i).type = (n i).type) (he : ∀ i, (m i).ents = (n i).ents)
    (parent : Bool) (fuel : Nat) : ∀ (ip : Inum) (path : List UInt8) (name : Name),
    walk m parent fuel ip path name = walk n parent fuel ip path name := by
  induction fuel with
  | zero => exact fun _ _ _ => rfl
  | succ fuel ih =>
    intro ip path name
    simp only [walk, ht, lookup, he, ih]

/-! ## What a call holds -/

structure Live (R : Inum → Nat) (K L : Multiset Inum) (s : Store) : Prop where
  ref : ∀ i, s.ref i = R i + K.count i + L.count i
  lock : ∀ i ∈ K, s.valid i = true
  free : ∀ i, (s.node i).type = .free → R i = 0 ∧ (0 < s.ref i → s.valid i = false)
  dead : ∀ i, (s.node i).type ≠ .free → (s.node i).nlink = 0 → 0 < s.ref i ∧ s.valid i = true
  valid : ∀ i, 0 < R i → s.valid i = true ∨ i = ROOTINO

/-- Inodes without links are in use, whatever the call does. -/
def Steady (R : Inum → Nat) (n : Inum → Inode) : Prop := ∀ i, (n i).type ≠ .free → (n i).nlink = 0 → 0 < R i

/-- An entry names a free inode. -/
def Dangles (n : Inum → Inode) : Prop :=
  ∃ d, (n d).type = .dir ∧ ∃ e ∈ (n d).ents, e.inum ≠ 0 ∧ (n e.inum).type = .free

/-- `ilock: no type` is reached only if an entry dangles. -/
def Stops (n : Inum → Inode) (e : Panic) : Prop := e = .ilockNoType → Dangles n

theorem Stops.of_ne (h : e ≠ .ilockNoType) : Stops n e := fun he => absurd he h

theorem Dangles.of_bumped {i : Inum} {k : BitVec 16} (h : Dangles (bumped n i k)) : Dangles n := by
  obtain ⟨d, hd, x, hx, h0, hf⟩ := h
  simp only [bumped_type, bumped_ents] at hd hx hf
  exact ⟨d, hd, x, hx, h0, hf⟩

theorem Stops.of_bumped {i : Inum} {k : BitVec 16} (h : Stops (bumped n i k) e) : Stops n e := fun he =>
  (h he).of_bumped

section Live

variable {R : Inum → Nat} {K L : Multiset Inum} {s s' : Store} {i : Inum}

theorem Live.steady (h : Live R 0 0 s) : Steady R s.node := by
  intro i hf h0
  have hr := h.ref i
  have hd := (h.dead i hf h0).1
  simp only [Multiset.count_zero, Nat.add_zero] at hr
  omega

/-- Only types, counts, references and validity matter. -/
theorem Live.of_node (h : Live R K L s) (ht : ∀ j, (s'.node j).type = (s.node j).type)
    (hn : ∀ j, (s'.node j).nlink = (s.node j).nlink) (hr : s'.ref = s.ref) (hv : s'.valid = s.valid) :
    Live R K L s' := by
  refine ⟨?_, ?_, ?_, ?_, ?_⟩
  · rw [hr]
    exact h.ref
  · rw [hv]
    exact h.lock
  · simp only [ht, hr, hv]
    exact h.free
  · simp only [ht, hn, hr, hv]
    exact h.dead
  · rw [hv]
    exact h.valid

theorem Live.writei (h : Live R K L s) (dp : Inum) (off : Nat) (e : Dirent) : Live R K L (s.writei dp off e) := by
  apply h.of_node
  · intro j
    rw [Store.node_writei, written_type]
  · intro j
    rw [Store.node_writei, written_nlink]
  · rfl
  · rfl

theorem Live.alloc_of_mem (h : Live R K L s) (hi : i ∈ K) : (s.node i).type ≠ .free ∧ 0 < s.ref i := by
  have hpos : 0 < s.ref i := by
    have hr := h.ref i
    have := Multiset.count_pos.2 hi
    omega
  refine ⟨?_, hpos⟩
  intro hf
  have hv := h.lock i hi
  rw [(h.free i hf).2 hpos] at hv
  cases hv

/-- The count of an inode that the call holds may be changed. -/
theorem Live.addLink (h : Live R K L s) (hi : i ∈ K) (k : BitVec 16) : Live R K L (s.addLink i k) := by
  obtain ⟨hf, hpos⟩ := h.alloc_of_mem hi
  refine ⟨h.ref, h.lock, ?_, ?_, h.valid⟩
  · simp only [Store.node_addLink, bumped_type]
    exact h.free
  intro j hfj h0
  rw [Store.node_addLink, bumped_type] at hfj
  by_cases e : j = i
  · rw [e]
    exact ⟨hpos, h.lock i hi⟩
  · rw [Store.node_addLink, bumped, update_of_ne e] at h0
    exact h.dead j hfj h0

/-- A lock is forgotten. -/
theorem Live.unlock (h : Live R (i ::ₘ K) L s) : Live R K (i ::ₘ L) s := by
  refine ⟨?_, ?_, h.free, h.dead, h.valid⟩
  · intro j
    have := h.ref j
    rw [Multiset.count_cons] at this ⊢
    omega
  · intro j hj
    exact h.lock j (Multiset.mem_cons_of_mem hj)

theorem Live.ref_pos (h : Live R K (i ::ₘ L) s) : 0 < s.ref i := by
  have := h.ref i
  rw [Multiset.count_cons_self] at this
  omega

theorem Live.iget (h : Live R K L s) (i : Inum) :
    Outcome (s.iget i) (Stops n) fun s' => s'.node = s.node ∧ Live R K (i ::ₘ L) s' := by
  unfold Store.iget
  split
  next hpos =>
    refine .ret ⟨rfl, ?_, h.lock, ?_, ?_, h.valid⟩
    · intro j
      have := h.ref j
      by_cases e : j = i
      · subst e
        simp only [Store.ref_setRef, update_self, Multiset.count_cons_self]
        omega
      · simp only [Store.ref_setRef, update_of_ne e, Multiset.count_cons_of_ne e]
        omega
    · intro j hj
      refine ⟨(h.free j hj).1, ?_⟩
      intro hr
      apply (h.free j hj).2
      by_cases e : j = i
      · rwa [e]
      · simpa [e] using hr
    intro j hf h0
    obtain ⟨hr, hv⟩ := h.dead j hf h0
    refine ⟨?_, hv⟩
    by_cases e : j = i
    · simp [e]
    · simpa [e] using hr
  next hz =>
    split
    · exact .stop (Stops.of_ne (by decide))
    have hz : s.ref i = 0 := by omega
    have hcount := h.ref i
    -- nobody holds it, so it is not one whose copy matters
    refine .ret ⟨rfl, ?_, ?_, ?_, ?_, ?_⟩
    · intro j
      have := h.ref j
      by_cases e : j = i
      · subst e
        simp only [Store.ref_setValid, Store.ref_setRef, update_self, Multiset.count_cons_self]
        omega
      · simp only [Store.ref_setValid, Store.ref_setRef, update_of_ne e, Multiset.count_cons_of_ne e]
        omega
    · intro j hj
      have e : j ≠ i := by
        rintro rfl
        have := Multiset.count_pos.2 hj
        omega
      simpa [e] using h.lock j hj
    · intro j hj
      refine ⟨(h.free j hj).1, ?_⟩
      intro hr
      by_cases e : j = i
      · simp [e]
      · simp only [Store.ref_setValid, Store.ref_setRef, update_of_ne e] at hr
        simpa [e] using (h.free j hj).2 hr
    · intro j hf h0
      obtain ⟨hr, hv⟩ := h.dead j hf h0
      have e : j ≠ i := by
        rintro rfl
        omega
      simpa [e] using ⟨hr, hv⟩
    · intro j hj
      have e : j ≠ i := by
        rintro rfl
        omega
      simpa [e] using h.valid j hj

theorem Live.idup (h : Live R K L s) (hi : 0 < R i) : Live R K (i ::ₘ L) (s.idup i) := by
  have hpos : 0 < s.ref i := by
    have := h.ref i
    omega
  have hget : s.iget i = .ok (s.idup i) := by
    rw [Store.iget, if_pos hpos]
    rfl
  exact ((h.iget (n := s.node) i).ok _ hget).2

theorem Live.ilock (h : Live R K (i ::ₘ L) s) (hfine : (s.node i).type = .free → Dangles n) :
    Outcome (s.ilock i) (Stops n) fun s' =>
      s'.node = s.node ∧ Live R (i ::ₘ K) L s' ∧ (s.node i).type ≠ .free := by
  have hpos := h.ref_pos
  have hcount : ∀ j, s.ref j = R j + (i ::ₘ K).count j + L.count j := by
    intro j
    have := h.ref j
    rw [Multiset.count_cons] at this ⊢
    omega
  unfold Store.ilock
  split
  · omega
  split
  next hv =>
    refine .ret ⟨rfl, ⟨hcount, ?_, h.free, h.dead, h.valid⟩, ?_⟩
    · intro j hj
      rcases Multiset.mem_cons.1 hj with rfl | hj
      · exact hv
      · exact h.lock j hj
    · intro hf
      rw [(h.free i hf).2 hpos] at hv
      cases hv
  split
  next hf =>
    exact .stop fun _ => hfine hf
  next hf =>
    refine .ret ⟨rfl, ⟨hcount, ?_, ?_, ?_, ?_⟩, hf⟩
    · intro j hj
      by_cases e : j = i
      · simp [e]
      · simpa [e] using h.lock j ((Multiset.mem_cons.1 hj).resolve_left e)
    · intro j hj
      have e : j ≠ i := by
        rintro rfl
        exact hf hj
      simpa [e] using h.free j hj
    · intro j hfj h0
      by_cases e : j = i
      · simp [e, hpos]
      · simpa [e] using h.dead j hfj h0
    · intro j hj
      by_cases e : j = i
      · simp [e]
      · simpa [e] using h.valid j hj

theorem Live.ilock_again (h : Live R (i ::ₘ K) L s) : s.ilock i = .ok s := by
  have hpos := h.unlock.ref_pos
  rw [Store.ilock, if_neg (by omega), if_pos (h.lock i (Multiset.mem_cons_self i K))]

/-- The last reference to an inode without links frees it; otherwise nothing happens but that there is one less. -/
theorem Live.iput (h : Live R K (i ::ₘ L) s) : Live R K L (s.iput i) ∧
    ((s.iput i).node = s.node ∨
      (s.iput i).node = freed s.node i ∧ (s.node i).type ≠ .free ∧ (s.node i).nlink = 0 ∧ R i = 0) := by
  have hpos := h.ref_pos
  have hcount := h.ref
  simp only [Multiset.count_cons] at hcount
  have hi := hcount i
  rw [if_pos rfl] at hi
  unfold Store.iput
  split
  next hc =>
    obtain ⟨hv, h0, hone⟩ := hc
    have hf : (s.node i).type ≠ .free := by
      intro hf
      rw [(h.free i hf).2 hpos] at hv
      cases hv
    have hnode : ((s.ifree i).setRef i ((s.ifree i).ref i - 1)).node = freed s.node i := by
      simp [Store.ifree, freed]
    refine ⟨⟨?_, ?_, ?_, ?_, ?_⟩, .inr ⟨hnode, hf, h0, by omega⟩⟩
    · intro j
      have hj := hcount j
      by_cases e : j = i
      · subst e
        simp only [Store.ref_setRef, Store.ifree, Store.ref_setValid, Store.ref_modify, update_self]
        omega
      · simp only [Store.ref_setRef, Store.ifree, Store.ref_setValid, Store.ref_modify, update_of_ne e]
        rw [if_neg e] at hj
        omega
    · intro j hj
      have e : j ≠ i := by
        rintro rfl
        have := Multiset.count_pos.2 hj
        omega
      simpa [Store.ifree, e] using h.lock j hj
    · intro j hj
      rw [hnode] at hj
      by_cases e : j = i
      · subst e
        refine ⟨by omega, ?_⟩
        simp [Store.ifree]
      · simp only [freed, update_of_ne e] at hj
        simpa [Store.ifree, e] using h.free j hj
    · intro j hfj h0j
      rw [hnode] at hfj h0j
      have e : j ≠ i := by
        rintro rfl
        simp [freed] at hfj
      simp only [freed, update_of_ne e] at hfj h0j
      simpa [Store.ifree, e] using h.dead j hfj h0j
    · intro j hj
      have e : j ≠ i := by
        rintro rfl
        omega
      simpa [Store.ifree, e] using h.valid j hj
  next hc =>
    refine ⟨⟨?_, h.lock, ?_, ?_, h.valid⟩, .inl rfl⟩
    · intro j
      have hj := hcount j
      by_cases e : j = i
      · subst e
        simp only [Store.ref_setRef, update_self]
        omega
      · simp only [Store.ref_setRef, update_of_ne e]
        rw [if_neg e] at hj
        omega
    · intro j hj
      refine ⟨(h.free j hj).1, ?_⟩
      intro hr
      apply (h.free j hj).2
      by_cases e : j = i
      · rwa [e]
      · simpa [e] using hr
    intro j hfj h0j
    obtain ⟨hr, hv⟩ := h.dead j hfj h0j
    refine ⟨?_, hv⟩
    by_cases e : j = i
    · -- not the last reference, or it would have been freed
      subst e
      have : s.ref j ≠ 1 := fun e => hc ⟨hv, h0j, e⟩
      simp only [Store.ref_setRef, update_self]
      omega
    · simpa [e] using hr

theorem Live.iput_steady (h : Live R K (i ::ₘ L) s) (hst : Steady R s.node) :
    Live R K L (s.iput i) ∧ (s.iput i).node = s.node := by
  obtain ⟨hl, hn | ⟨-, hf, h0, hR⟩⟩ := h.iput
  · exact ⟨hl, hn⟩
  · have := hst i hf h0
    omega

/-- A free inode is filled in, with a count, and held. -/
theorem Live.fresh (h : Live R K L s) (hf : (s.node i).type = .free) (hr : s.ref i = 0) {x : Inode}
    (hx : x.type ≠ .free) (hn : x.nlink ≠ 0) (hnode : s'.node = update s.node i x)
    (href : s'.ref = update s.ref i 1) (hval : s'.valid = update s.valid i true) : Live R (i ::ₘ K) L s' := by
  have hcount := h.ref i
  refine ⟨?_, ?_, ?_, ?_, ?_⟩
  · intro j
    have hj := h.ref j
    by_cases e : j = i
    · subst e
      simp only [href, update_self, Multiset.count_cons_self]
      omega
    · simp only [href, update_of_ne e, Multiset.count_cons_of_ne e]
      exact hj
  · intro j hj
    by_cases e : j = i
    · simp [hval, e]
    · simpa [hval, e] using h.lock j ((Multiset.mem_cons.1 hj).resolve_left e)
  · intro j hj
    have e : j ≠ i := by
      rintro rfl
      simp [hnode, hx] at hj
    simp only [hnode, href, hval, update_of_ne e] at hj ⊢
    exact h.free j hj
  · intro j hfj h0
    have e : j ≠ i := by
      rintro rfl
      rw [hnode, update_self] at h0
      exact hn h0
    simp only [hnode, href, hval, update_of_ne e] at hfj h0 ⊢
    exact h.dead j hfj h0
  · intro j hj
    have e : j ≠ i := by
      rintro rfl
      omega
    simpa [hval, e] using h.valid j hj

variable {R' : Inum → Nat}

/-- What the call holds and knows stays in use after it. -/
theorem Live.keep (h : Live R (i ::ₘ K) L s) (hR : ∀ j, R' j = R j + if j = i then 1 else 0) : Live R' K L s := by
  have hi := h.alloc_of_mem (Multiset.mem_cons_self i K)
  refine ⟨?_, ?_, ?_, h.dead, ?_⟩
  · intro j
    have := h.ref j
    rw [Multiset.count_cons] at this
    rw [hR]
    omega
  · intro j hj
    exact h.lock j (Multiset.mem_cons_of_mem hj)
  · intro j hj
    have e : j ≠ i := fun e => hi.1 (e ▸ hj)
    rw [hR, if_neg e]
    exact h.free j hj
  · intro j hj
    by_cases e : j = i
    · exact .inl (e ▸ h.lock i (Multiset.mem_cons_self i K))
    · rw [hR, if_neg e] at hj
      exact h.valid j hj

/-- One more of the references that exist already. -/
theorem Live.share (h : Live R K (i ::ₘ L) s) (hi : 0 < R i)
    (hR : ∀ j, R' j = R j + if j = i then 1 else 0) : Live R' K L s := by
  have hpos : ∀ j, 0 < R' j → 0 < R j := by
    intro j hj
    by_cases e : j = i
    · rwa [e]
    · rwa [hR, if_neg e] at hj
  refine ⟨?_, h.lock, ?_, h.dead, ?_⟩
  · intro j
    have := h.ref j
    rw [Multiset.count_cons] at this
    rw [hR]
    omega
  · intro j hj
    refine ⟨?_, (h.free j hj).2⟩
    by_contra hne
    have := hpos j (by omega)
    have := (h.free j hj).1
    omega
  · intro j hj
    exact h.valid j (hpos j hj)

/-- A reference in use is given to the call. -/
theorem Live.drop (h : Live R K L s) (hR : ∀ j, R j = R' j + if j = i then 1 else 0) : Live R' K (i ::ₘ L) s := by
  refine ⟨?_, h.lock, ?_, h.dead, ?_⟩
  · intro j
    have := h.ref j
    rw [hR] at this
    rw [Multiset.count_cons]
    omega
  · intro j hj
    refine ⟨?_, (h.free j hj).2⟩
    have := (h.free j hj).1
    rw [hR] at this
    omega
  · intro j hj
    apply h.valid j
    rw [hR]
    omega

end Live

/-! ## Freed inodes -/

/-- Some inodes without links are freed. -/
inductive Frees (n : Inum → Inode) : (Inum → Inode) → Prop where
  | refl : Frees n n
  | free {m : Inum → Inode} {i : Inum} : Frees n m → (m i).nlink = 0 → Frees n (freed m i)

theorem Frees.of_eq (h : m = n) : Frees n m := h ▸ .refl

theorem Frees.inv {I : (Inum → Inode) → Prop} (hI : ∀ m i, I m → (m i).nlink = 0 → I (freed m i))
    (h : Frees n m) (hn : I n) : I m := by
  induction h with
  | refl => exact hn
  | free _ h0 ih => exact hI _ _ ih h0

theorem Live.iput_frees {R : Inum → Nat} {K L : Multiset Inum} {s : Store} {i : Inum}
    (h : Live R K (i ::ₘ L) s) (hf : Frees n s.node) : Live R K L (s.iput i) ∧ Frees n (s.iput i).node := by
  obtain ⟨hl, hn | ⟨hn, -, h0, -⟩⟩ := h.iput <;> rw [hn]
  · exact ⟨hl, hf⟩
  · exact ⟨hl, hf.free h0⟩

end Xv6.Fs
