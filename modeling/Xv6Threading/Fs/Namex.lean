import Xv6Threading.Fs.Cache

/-!
# Looking up names and paths

`dirlookup`, `dirlink` and `namex` return what `lookup` and `resolve` give, and hold one reference more, to what they
return. As long as inodes without links are in use, following a path frees nothing.

`iget` panics when it needs an entry of `icache` and all `NINODE` are taken (`used`, `fs.c:255-265`). `namex` needs two at
most: for the directory it is in and for what it has found there.
-/

namespace Xv6.Fs

variable {R : Inum → Nat} {K L : Multiset Inum} {s : Store} {dp ip i cwd : Inum} {n : Inum → Inode} {name : Name}
  {off : Nat}

/-! ## Room in the cache -/

def used (s : Store) : Nat := s.refs.toList.countP (0 < ·)

/-- The inodes that are referred to. -/
def held (R : Inum → Nat) : Nat := (Finset.univ.filter fun i => 0 < R i).card

theorem used_eq (s : Store) : used s = held s.ref := by
  have hlist : s.refs.toList = (List.finRange NINODES).map s.ref := by
    apply List.ext_getElem
    · simp
    · intro i h1 h2
      simp [Store.ref]
  rw [used, hlist, List.countP_map, List.countP_eq_length_filter]
  rfl

/-- The call itself adds no more entries than it holds references. -/
theorem Live.used_le (h : Live R K L s) : used s ≤ held R + K.card + L.card := by
  rw [used_eq, held, held]
  have hsub : (Finset.univ.filter fun i => 0 < s.ref i) ⊆
      (Finset.univ.filter fun i => 0 < R i) ∪ K.toFinset ∪ L.toFinset := by
    intro i hi
    have href := h.ref i
    have hpos := (Finset.mem_filter.1 hi).2
    simp only [Finset.mem_union, Finset.mem_filter, Finset.mem_univ, true_and, Multiset.mem_toFinset, ← Multiset.count_pos]
    omega
  have h1 := Finset.card_le_card hsub
  have h2 := Finset.card_union_le ((Finset.univ.filter fun i => 0 < R i) ∪ K.toFinset) L.toFinset
  have h3 := Finset.card_union_le (Finset.univ.filter fun i => 0 < R i) K.toFinset
  have h4 := K.toFinset_card_le
  have h5 := L.toFinset_card_le
  omega

/-- What stops a walk that needs `k` entries more than are taken: there are not so many, or an entry dangles. -/
def Short (R : Inum → Nat) (n : Inum → Inode) (k : Nat) (e : Panic) : Prop :=
  e = .iget ∧ NINODE < held R + k ∨ e = .ilockNoType ∧ Dangles n

theorem Short.mono {k k' : Nat} {e : Panic} (h : Short R n k e) (hk : k ≤ k') : Short R n k' e :=
  h.imp_left fun hi => ⟨hi.1, by omega⟩

theorem Short.stops {k : Nat} {e : Panic} (h : Short R n k e) : Stops n e := by
  rcases h with ⟨rfl, -⟩ | ⟨-, hd⟩
  · exact Stops.of_ne (by decide)
  · exact fun _ => hd

theorem ilock_stops (hr : 0 < s.ref ip) :
    Outcome (s.ilock ip) (fun e => e = .ilockNoType ∧ (s.node ip).type = .free) fun s' => s'.node = s.node := by
  unfold Store.ilock
  rw [if_neg (by omega)]
  split
  · exact .ret rfl
  split
  next hf => exact .stop ⟨rfl, hf⟩
  · exact .ret rfl

theorem Live.iget_short (h : Live R K L s) (i : Inum) : Outcome (s.iget i) (Short R n (K.card + L.card + 1))
    fun s' => s'.node = s.node ∧ Live R K (i ::ₘ L) s' := by
  refine ⟨(h.iget (n := n) i).ok, fun e he => .inl ?_⟩
  unfold Store.iget at he
  split at he
  · cases he
  split at he
  next hfull =>
    cases he
    have hfull : NINODE ≤ used s := hfull
    have hused := h.used_le
    exact ⟨rfl, by omega⟩
  · cases he

theorem Live.ilock_short {k : Nat} (h : Live R K (ip ::ₘ L) s) (hfine : (s.node ip).type = .free → Dangles n) :
    Outcome (s.ilock ip) (Short R n k) fun s' =>
      s'.node = s.node ∧ Live R (ip ::ₘ K) L s' ∧ (s.node ip).type ≠ .free := by
  refine ⟨(h.ilock hfine).ok, fun e he => .inr ?_⟩
  obtain ⟨rfl, hf⟩ := (ilock_stops h.ref_pos).error e he
  exact ⟨rfl, hfine hf⟩

/-! ## Names -/

/-- The call holds what was found, in addition. -/
def Found (R : Inum → Nat) (K L : Multiset Inum) (s : Store) : Option Inum → Prop
  | none => Live R K L s
  | some i => Live R K (i ::ₘ L) s

theorem dirlookup_spec (h : Live R K L s) (dp : Inum) (name : Name) :
    Outcome (s.dirlookup dp name) (Stops n) fun r => r.1.node = s.node ∧ (s.node dp).type = .dir ∧
      r.2 = lookup s.node dp name ∧ Found R K L r.1 (r.2.map (·.1)) := by
  unfold Store.dirlookup
  split
  · exact .stop (Stops.of_ne (by decide))
  rename_i hd
  simp only [ne_eq, Decidable.not_not] at hd
  cases hf : Store.findName (s.node dp).ents name with
  | none => exact .ret ⟨rfl, hd, by simp [lookup, hf], h⟩
  | some off =>
    apply (h.iget _).bind
    rintro s' ⟨hn, hl⟩
    exact .ret ⟨hn, hd, by simp [lookup, hf], hl⟩

theorem dirlookup_short (h : Live R K L s) (hdir : (s.node dp).type = .dir) (name : Name) :
    Outcome (s.dirlookup dp name) (Short R n (K.card + L.card + 1)) fun r => r.1.node = s.node ∧
      r.2 = lookup s.node dp name ∧ Found R K L r.1 (r.2.map (·.1)) := by
  constructor
  · intro r hr
    obtain ⟨hn, -, hlook, hfound⟩ := (dirlookup_spec (n := n) h dp name).ok r hr
    exact ⟨hn, hlook, hfound⟩
  intro e he
  unfold Store.dirlookup at he
  rw [if_neg (not_not.2 hdir)] at he
  split at he
  · cases he
  exact ((h.iget_short (n := n) _).bind fun s' _ => .ret (Q := fun _ => True) trivial).error e he

/-- What was looked up is free only if an entry dangles. -/
theorem lookup_fine (hd : (n dp).type = .dir) (h : lookup n dp name = some (i, off))
    (hf : (n i).type = .free) : Dangles n := by
  obtain ⟨e, he, rfl, h0, -⟩ := lookup_some h
  exact ⟨dp, hd, e, List.mem_of_getElem? he, h0, hf⟩

/-- An entry that is found and is neither of the first two comes after them. -/
theorem lookup_tail {p : Inum} {rest : List Dirent} (ht : Tail n dp p rest)
    (h : lookup n dp name = some (i, off)) (h1 : name ≠ dot) (h2 : name ≠ dotdot) :
    ∃ k e, off = k + 2 ∧ rest[k]? = some e ∧ e.inum = i ∧ i ≠ 0 := by
  obtain ⟨e, he, hi, h0, hname⟩ := lookup_some h
  rw [ht.1] at he
  match off with
  | 0 =>
    simp only [List.getElem?_cons_zero, Option.some.injEq] at he
    subst he
    exact absurd hname.symm h1
  | 1 =>
    simp only [List.getElem?_cons_succ, List.getElem?_cons_zero, Option.some.injEq] at he
    subst he
    exact absurd hname.symm h2
  | k + 2 => exact ⟨k, e, rfl, by simpa using he, hi, h0⟩

theorem dirlink_spec (h : Live R K L s) (dp : Inum) (name : Name) (i : Inum)
    (hst : lookup s.node dp name ≠ none → Steady R s.node) :
    Outcome (s.dirlink dp name i) (Stops n) fun r => Live R K L r.1 ∧ (s.node dp).type = .dir ∧
      if r.2 then lookup s.node dp name = none ∧ r.1.node = written s.node dp (hole s.node dp) ⟨i, name⟩
      else r.1.node = s.node := by
  apply (dirlookup_spec h dp name).bind
  rintro ⟨s1, r⟩ ⟨hn, hd, hr, hfound⟩
  cases r with
  | some q =>
    obtain ⟨ip, off⟩ := q
    have hst := hst (by rw [← hr]; simp)
    have hput := Live.iput_steady hfound (by rw [hn]; exact hst)
    exact .ret ⟨hput.1, hd, by simpa using hput.2.trans hn⟩
  | none =>
    dsimp only
    split
    · exact .stop (Stops.of_ne (by decide))
    have hl : Live R K L s1 := hfound
    have hw : (s1.writei dp ((s1.node dp).ents.findIdx fun e => e.inum = 0) ⟨i, name⟩).node =
        written s.node dp (hole s.node dp) ⟨i, name⟩ := by
      rw [Store.node_writei, hn]
      rfl
    refine .ret ⟨hl.writei dp _ _, hd, ?_⟩
    simp only [if_true]
    exact ⟨hr.symm, hw⟩

/-! ## Paths -/

/-- What a path leads to is held; it is free only if an entry dangles. -/
def Led (R : Inum → Nat) (K L : Multiset Inum) (n : Inum → Inode) (s : Store) (r : Option (Inum × Name)) : Prop :=
  Found R K L s (r.map (·.1)) ∧ ∀ q, r = some q → (n q.1).type = .free → Dangles n

/-- With room for two more inodes the loop comes to its end, in a tree without dangling entries. -/
theorem namexLoop_spec (hst : Steady R n) (parent : Bool) (fuel : Nat) : ∀ {s : Store} {ip : Inum}
    (path : List UInt8) (name : Name) (_ : s.node = n) (_ : Live R K (ip ::ₘ L) s)
    (_ : (n ip).type = .free → Dangles n),
    Outcome (s.namexLoop parent fuel ip path name) (Short R n (K.card + L.card + 2)) fun r =>
      r.1.node = n ∧ r.2 = walk n parent fuel ip path name ∧ Led R K L n r.1 r.2 := by
  -- a reference to `ip` is dropped on the ways out without a result
  have hquit : ∀ {s : Store} {ip : Inum}, s.node = n → Live R K (ip ::ₘ L) s →
      (s.iput ip).node = n ∧ Led R K L n (s.iput ip) none := by
    intro s ip hn h
    have hput := h.iput_steady (by rw [hn]; exact hst)
    refine ⟨hput.2.trans hn, hput.1, ?_⟩
    rintro q ⟨⟩
  have hstay : ∀ {s : Store} {ip : Inum} {name : Name}, Live R K (ip ::ₘ L) s →
      ((n ip).type = .free → Dangles n) → Led R K L n s (some (ip, name)) := by
    intro s ip name h hfine
    refine ⟨h, ?_⟩
    rintro q ⟨⟩
    exact hfine
  induction fuel with
  | zero =>
    intro s ip path name hn h hfine
    exact .ret ⟨hn, rfl, hstay h hfine⟩
  | succ fuel ih =>
    intro s ip path name hn h hfine
    unfold Store.namexLoop walk
    cases hskip : skipelem path with
    | none =>
      dsimp only
      split
      · obtain ⟨h1, h2⟩ := hquit hn h
        exact .ret ⟨h1, rfl, h2⟩
      · exact .ret ⟨hn, rfl, hstay h hfine⟩
    | some q =>
      obtain ⟨elem, rest⟩ := q
      dsimp only
      apply (h.ilock_short (by rw [hn]; exact hfine)).bind
      rintro s1 ⟨hn1, h1, hf1⟩
      have hn1 : s1.node = n := hn1.trans hn
      rw [hn1]
      split
      · obtain ⟨h2, h3⟩ := hquit hn1 h1.unlock
        exact .ret ⟨h2, rfl, h3⟩
      rename_i hd
      simp only [ne_eq, Decidable.not_not] at hd
      split
      · exact .ret ⟨hn1, rfl, hstay h1.unlock hfine⟩
      refine ((dirlookup_short h1 (by rw [hn1]; exact hd) elem).mono_error fun e he => he.mono ?_).bind ?_
      · rw [Multiset.card_cons]
        omega
      rintro ⟨s2, r⟩ ⟨hn2, hr, hfound⟩
      rw [hn1] at hn2 hr
      rw [← hr]
      cases r with
      | none =>
        obtain ⟨h3, h4⟩ := hquit hn2 (Live.unlock hfound)
        exact .ret ⟨h3, rfl, h4⟩
      | some q =>
        obtain ⟨next, off⟩ := q
        -- the directory is put back before the loop goes on with what it found
        have hl : Live R K (ip ::ₘ next ::ₘ L) s2 := Live.unlock hfound
        obtain ⟨hl', hn3⟩ := hl.iput_steady (by rw [hn2]; exact hst)
        exact ih rest elem (hn3.trans hn2) hl' (lookup_fine hd hr.symm)

theorem namex_spec (h : Live R K L s) (hst : Steady R s.node) (hroot : (s.node ROOTINO).type ≠ .free)
    (hcwd : 0 < R cwd) (path : List UInt8) (parent : Bool) :
    Outcome (s.namex cwd path parent) (Short R s.node (K.card + L.card + 2)) fun r =>
      r.1.node = s.node ∧ r.2 = resolve s.node cwd path parent ∧ Led R K L s.node r.1 r.2 := by
  unfold Store.namex resolve
  split
  · apply Outcome.bind (Q := fun q : Store × Inum => q.1.node = s.node ∧ Live R K (ROOTINO ::ₘ L) q.1 ∧
      q.2 = ROOTINO) (((h.iget_short ROOTINO).mono_error fun e he => he.mono (by omega)).mono ?_).map
    · rintro ⟨s1, -⟩ ⟨hn, h1, rfl⟩
      exact namexLoop_spec hst parent _ path [] hn h1 fun hf => absurd hf hroot
    · rintro s1 ⟨hn, h1⟩
      exact ⟨hn, h1, rfl⟩
  · exact namexLoop_spec hst parent _ path [] rfl (h.idup hcwd) fun hf => absurd (h.free cwd hf).1 (by omega)

theorem namei_spec (h : Live R K L s) (hst : Steady R s.node) (hroot : (s.node ROOTINO).type ≠ .free)
    (hcwd : 0 < R cwd) (path : List UInt8) :
    Outcome (s.namei cwd path) (Short R s.node (K.card + L.card + 2)) fun r =>
      r.1.node = s.node ∧ r.2 = (resolve s.node cwd path false).map (·.1) ∧ Found R K L r.1 r.2 ∧
        ∀ i, r.2 = some i → (s.node i).type = .free → Dangles s.node := by
  apply ((namex_spec h hst hroot hcwd path false).mono ?_).map
  rintro ⟨s1, r⟩ ⟨hn, hr, hfound, hfine⟩
  refine ⟨hn, by rw [← hr], hfound, ?_⟩
  intro i hi
  obtain ⟨q, hq, rfl⟩ := Option.map_eq_some_iff.1 hi
  exact hfine q hq

end Xv6.Fs
