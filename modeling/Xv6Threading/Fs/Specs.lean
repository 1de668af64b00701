import Xv6Threading.Fs.Namex

/-!
# What the calls do to the inodes

`Main` lists the changes: a call leaves the inodes as they are, or makes one of three changes, in a directory and to an
inode that its paths lead to. After that it may only free inodes without links.
-/

namespace Xv6.Fs

open Function

/-- The path at which a call may create an inode, and what inode. -/
def Call.creates : Call → Option (List UInt8 × Itype × BitVec 16 × BitVec 16)
  | .mkdir path => some (path, .dir, 0, 0)
  | .mknod path major minor => some (path, .dev, major, minor)
  | .open path omode => if omode &&& O_CREATE ≠ 0 then some (path, .file, 0, 0) else none
  | _ => none

inductive Main (n : Inum → Inode) (cwd : Inum) : Call → (Inum → Inode) → Prop where
  | none {c : Call} : Main n cwd c n
  | link {old new : List UInt8} {q : Inum × Name} {dp : Inum} {name : Name} : resolve n cwd old false = some q →
      resolve n cwd new true = some (dp, name) → lookup n dp name = none → (n dp).type = .dir →
      (n q.1).type ≠ .free → (n q.1).type ≠ .dir → Main n cwd (.link old new) (linked n dp q.1 name)
  | unlink {path : List UInt8} {dp i : Inum} {name : Name} {off : Nat} : resolve n cwd path true = some (dp, name) →
      lookup n dp name = some (i, off) → (n dp).type = .dir → name ≠ dot → name ≠ dotdot →
      ((n i).type = .dir → (n i).kids = 0) → Main n cwd (.unlink path) (unlinked n dp i off)
  | create {c : Call} {path : List UInt8} {ty : Itype} {major minor : BitVec 16} {dp i : Inum} {name : Name} :
      c.creates = some (path, ty, major, minor) → resolve n cwd path true = some (dp, name) →
      lookup n dp name = none → (n dp).type = .dir → (n i).type = .free → i ≠ 0 →
      Main n cwd c (created n dp i name ty major minor)

variable {R : Inum → Nat} {K L : Multiset Inum} {s : Store} {dp i cwd : Inum} {n : Inum → Inode} {name : Name}
  {ty : Itype} {major minor : BitVec 16} {ip : Inum}

/-- A free inode has been taken that nobody held: its copy is not read from disk yet. -/
def taken (s : Store) (i : Inum) (ty : Itype) : Store :=
  ((s.setNode i { Inode.zero with type := ty }).setRef i 1).setValid i false

theorem Live.ref_free (h : Live R (dp ::ₘ 0) 0 s) (hf : (s.node i).type = .free) (hne : dp ≠ i) : s.ref i = 0 := by
  rw [h.ref i, (h.free i hf).1, Multiset.count_cons_of_ne hne.symm]
  simp

theorem ialloc_spec (s : Store) (ty : Itype) : Outcome (s.ialloc ty)
    (fun e => (e = .ialloc ∧ ∀ i, i ≠ 0 → (s.node i).type ≠ .free) ∨ (e = .iget ∧ NINODE ≤ used s)) fun r =>
    (s.node r.2).type = .free ∧ r.2 ≠ 0 ∧ (s.ref r.2 = 0 → r.1 = taken s r.2 ty) := by
  unfold Store.ialloc
  cases hfind : Fin.find? fun i : Inum => decide (i ≠ 0 ∧ (s.node i).type = .free) with
  | none =>
    refine .stop (.inl ⟨rfl, fun i h0 hf => ?_⟩)
    simpa [h0, hf] using Fin.find?_eq_none_iff.1 hfind i
  | some i =>
    have hi := (Fin.find?_eq_some_iff.1 hfind).1
    simp only [ne_eq, decide_eq_true_eq] at hi
    simp only [Store.iget]
    by_cases hr : 0 < s.ref i
    · have hr' : 0 < (s.setNode i { Inode.zero with type := ty }).ref i := hr
      simp only [hr', if_true]
      exact .ret ⟨hi.2, hi.1, fun h0 => absurd h0 (by simp; omega)⟩
    have hr' : ¬ 0 < (s.setNode i { Inode.zero with type := ty }).ref i := hr
    simp only [hr', if_false]
    split
    next hfull => exact .stop (.inr ⟨rfl, hfull⟩)
    · exact .ret ⟨hi.2, hi.1, fun _ => rfl⟩

/-! ## New entries -/

/-- All entries that a directory can have are in use. -/
def Full (n : Inum → Inode) (dp : Inum) : Prop := MAXENTS ≤ hole n dp

instance (n : Inum → Inode) (dp : Inum) : Decidable (Full n dp) := inferInstanceAs (Decidable (_ ≤ _))

/-- A name that is free gets an entry, or the directory is full. -/
theorem dirlink_eq (hdir : (s.node dp).type = .dir) (hfree : lookup s.node dp name = none) (i : Inum) :
    s.dirlink dp name i =
      if Full s.node dp then .error .dirlink else .ok (s.writei dp (hole s.node dp) ⟨i, name⟩, true) := by
  have hlook : s.dirlookup dp name = .ok (s, none) := by
    rw [Store.dirlookup, if_neg (not_not.2 hdir), Option.map_eq_none_iff.1 hfree]
  rw [Store.dirlink, hlook]
  rfl

theorem mustLink_eq (hdir : (s.node dp).type = .dir) (hfree : lookup s.node dp name = none) (i : Inum) (e : Panic) :
    s.mustLink dp name i e =
      if Full s.node dp then .error .dirlink else .ok (s.writei dp (hole s.node dp) ⟨i, name⟩) := by
  rw [Store.mustLink, dirlink_eq hdir hfree]
  split <;> rfl

theorem mustLink_spec (h : Live R K L s) (hdir : (s.node dp).type = .dir) (hnone : lookup s.node dp name = none)
    (i : Inum) (e : Panic) : Outcome (s.mustLink dp name i e) (fun e => e = .dirlink ∧ Full s.node dp) fun s' =>
      Live R K L s' ∧ s'.node = written s.node dp (hole s.node dp) ⟨i, name⟩ := by
  rw [mustLink_eq hdir hnone]
  split
  next hfull => exact .stop ⟨rfl, hfull⟩
  · exact .ret ⟨h.writei dp _ _, Store.node_writei ..⟩

/-- The first two entries are written into the new directory. -/
theorem made_dir (major minor : BitVec 16) (hne : dp ≠ i) (hi : i ≠ 0) (m : Inum → Inode)
    (hm : m = bumped (update n i ⟨.dir, major, minor, 1, []⟩) dp 1) : m i = ⟨.dir, major, minor, 1, []⟩ ∧
    lookup m i dot = none ∧ (written m i (hole m i) ⟨i, dot⟩ i).ents = [⟨i, dot⟩] ∧
      lookup (written m i (hole m i) ⟨i, dot⟩) i dotdot = none ∧
      written (written m i (hole m i) ⟨i, dot⟩) i (hole (written m i (hole m i) ⟨i, dot⟩) i) ⟨dp, dotdot⟩ =
        made n dp i .dir major minor := by
  have hmi : m i = ⟨.dir, major, minor, 1, []⟩ := by simp [hm, bumped, hne.symm]
  have hents : (written m i (hole m i) ⟨i, dot⟩ i).ents = [⟨i, dot⟩] := by
    simp [written, hmi, hole, Store.writeEnt]
  refine ⟨hmi, by simp [lookup, hmi, Store.findName], hents, ?_, ?_⟩
  · simp [lookup, hents, Store.findName, dot, dotdot]
  funext j
  by_cases e : j = i
  · subst e
    simp only [hole]
    simp [written, hmi, Store.writeEnt, made, bumped, hne.symm, hi, List.findIdx_cons]
  by_cases e' : j = dp
  · subst e'
    simp [written, e, hm, made, bumped]
  · simp [written, e, hm, made, bumped, e']

/-- The new directory is not full after its first two entries. -/
theorem fillNew_spec {E : Panic → Prop} (h : Live R K L s) (hdp : dp ∈ K) (hne : dp ≠ i)
    (hf : (s.node i).type = .free) (hr : s.ref i = 0) (hi : i ≠ 0) (hty : ty ≠ .free) :
    Outcome ((taken s i ty).fillNew dp i ty major minor) E fun s' =>
      Live R (i ::ₘ K) L s' ∧ s'.node = made s.node dp i ty major minor := by
  have hlock : (taken s i ty).ilock i = .ok ((taken s i ty).setValid i true) := by
    simp [taken, Store.ilock, hty]
  unfold Store.fillNew
  rw [hlock]
  refine .bind (.ret rfl) ?_
  rintro _ rfl
  dsimp only
  generalize ht : ((taken s i ty).setValid i true).modify i
    (fun x => { x with major := major, minor := minor, nlink := 1 }) = t
  have htnode : t.node = update s.node i ⟨ty, major, minor, 1, []⟩ := by
    rw [← ht]
    simp [taken, Inode.zero]
  have htl : Live R (i ::ₘ K) L t := by
    apply h.fresh hf hr (x := ⟨ty, major, minor, 1, []⟩) hty (show (1 : BitVec 16) ≠ 0 by decide) htnode
    · rw [← ht]
      simp [taken]
    · rw [← ht]
      simp [taken]
  split
  next hdir =>
    subst hdir
    obtain ⟨hnode, hdot, hents, hdotdot, hmade⟩ := made_dir (n := s.node) major minor hne hi (t.addLink dp 1).node
      (by rw [Store.node_addLink, htnode])
    have hdir := congrArg Inode.type hnode
    refine ((mustLink_spec (htl.addLink (Multiset.mem_cons_of_mem hdp) 1) hdir hdot i _).mono_error ?_).bind ?_
    · rintro e ⟨-, hfull⟩
      rw [Full, hole, hnode] at hfull
      exact absurd hfull (show ¬ 4480 ≤ 0 by decide)
    rintro t1 ⟨h1, hn1⟩
    rw [← hn1] at hents hdotdot hmade
    refine ((mustLink_spec h1 (by rw [hn1, written_type, hdir]) hdotdot dp _).mono_error ?_).mono ?_
    · rintro e ⟨-, hfull⟩
      have hle := hfull.trans List.findIdx_le_length
      rw [hents] at hle
      exact absurd hle (show ¬ 4480 ≤ 1 by decide)
    rintro t2 ⟨h2, hn2⟩
    exact ⟨h2, hn2.trans hmade⟩
  next hdir =>
    refine .ret ⟨htl, ?_⟩
    rw [htnode, made, if_neg hdir]

/-- A call that returns an inode holds it, locked. -/
def Given (R : Inum → Nat) (s : Store) : Option Inum → Prop
  | none => Live R 0 0 s
  | some i => Live R (i ::ₘ 0) 0 s

theorem unbump_spec (h : Live R (ip ::ₘ K) L s) (hn : s.node = bumped n ip 1) {m : Inum → Inode} :
    Outcome (s.unbump ip) (Stops m) fun s' => Live R K L s' ∧ Frees n s'.node := by
  unfold Store.unbump
  rw [h.ilock_again]
  refine .ret ?_
  apply (h.addLink (Multiset.mem_cons_self _ _) (-1)).unlock.iput_frees
  rw [Store.node_addLink, hn, bumped_cancel]
  exact .refl

theorem clearEnt_spec (off : Nat) (h : Live R (ip ::ₘ dp ::ₘ 0) 0 s) (hne : ip ≠ dp) :
    Live R 0 0 (s.clearEnt dp ip off) ∧ Frees (unlinked s.node dp ip off) (s.clearEnt dp ip off).node := by
  unfold Store.clearEnt
  dsimp only
  -- the state when the directory is put back
  generalize ht : (if ((s.writei dp off ⟨0, []⟩).node ip).type = .dir then
    (s.writei dp off ⟨0, []⟩).addLink dp (-1) else s.writei dp off ⟨0, []⟩) = t
  have hl : Live R (dp ::ₘ ip ::ₘ 0) 0 t := by
    have hw := h.writei dp off ⟨0, []⟩
    rw [Multiset.cons_swap] at hw
    rw [← ht]
    split
    · exact hw.addLink (Multiset.mem_cons_self _ _) _
    · exact hw
  have hun : bumped t.node ip (-1) = unlinked s.node dp ip off := by
    rw [← ht]
    unfold unlinked
    by_cases hdir : (s.node ip).type = .dir
    · simp only [Store.node_writei, written_type, hdir, if_true, Store.node_addLink]
    · simp only [Store.node_writei, written_type, hdir, if_false]
  obtain ⟨hl1, hn1⟩ := hl.unlock.iput
  apply (hl1.addLink (Multiset.mem_cons_self _ _) (-1)).unlock.iput_frees
  rw [Store.node_addLink]
  rcases hn1 with hn1 | ⟨hn1, -, h0, -⟩
  · rw [hn1, hun]
    exact .refl
  -- the two inodes differ, so the order of freeing and counting does not matter
  have hswap : bumped (freed t.node dp) ip (-1) = freed (bumped t.node ip (-1)) dp := by
    unfold bumped freed
    rw [update_of_ne hne, update_of_ne hne.symm, update_comm hne.symm]
  rw [hn1, hswap, hun]
  refine .free .refl ?_
  rw [← hun, bumped, update_of_ne hne.symm]
  exact h0

section Calls

variable (h : Live R 0 0 s) (hs : Sound s.node) (hcwd : 0 < R cwd) {path : List UInt8}

include h hs hcwd

theorem create_spec {c : Call} (hc : c.creates = some (path, ty, major, minor))
    (hty : ty ≠ .free) : Outcome (s.create cwd path ty major minor) (Stops s.node) fun r =>
      Given R r.1 r.2 ∧ ∃ m, Main s.node cwd c m ∧ Frees m r.1.node := by
  have hst := h.steady
  have hroot := hs.root_ne
  apply ((namex_spec h hst hroot hcwd path true).mono_error fun _ => Short.stops).bind
  rintro ⟨s1, r⟩ ⟨hn1, hr, hfound, hfine⟩
  dsimp only at hn1 hr
  cases r with
  | none =>
    exact .ret ⟨hfound, s.node, .none, .of_eq hn1⟩
  | some q =>
    obtain ⟨dp, name⟩ := q
    have hl1 : Live R 0 (dp ::ₘ 0) s1 := hfound
    apply (hl1.ilock (by rw [hn1]; exact hfine (dp, name) rfl)).bind
    rintro s2 ⟨hn2, hl2, -⟩
    rw [hn1] at hn2
    apply (dirlookup_spec hl2 dp name).bind
    rintro ⟨s3, r⟩ ⟨hn3, hd, hlook, hfound⟩
    dsimp only at hn3 hlook
    rw [hn2] at hn3 hd hlook
    cases r with
    | some q =>
      obtain ⟨ip, off⟩ := q
      have hl3 : Live R 0 (dp ::ₘ ip ::ₘ 0) s3 := Live.unlock hfound
      obtain ⟨hl4, hn4⟩ := hl3.iput_steady (by rw [hn3]; exact hst)
      rw [hn3] at hn4
      apply (hl4.ilock (by rw [hn4]; exact lookup_fine hd hlook.symm)).bind
      rintro s5 ⟨hn5, hl5, -⟩
      rw [hn4] at hn5
      split
      · exact .ret ⟨hl5, s.node, .none, .of_eq hn5⟩
      · obtain ⟨hl6, hf⟩ := hl5.unlock.iput_frees (n := s.node) (.of_eq hn5)
        exact .ret ⟨hl6, s.node, .none, hf⟩
    | none =>
      have hl3 : Live R (dp ::ₘ 0) 0 s3 := hfound
      refine ((ialloc_spec s3 ty).mono_error fun e he => Stops.of_ne ?_).bind ?_
      · rcases he with he | he <;> rw [he.1] <;> decide
      rintro ⟨s4, i⟩ ⟨hfree, hi0, htaken⟩
      dsimp only at hfree hi0 htaken
      rw [hn3] at hfree
      have hne : dp ≠ i := by
        rintro rfl
        rw [hd] at hfree
        cases hfree
      have hr0 := hl3.ref_free (by rw [hn3]; exact hfree) hne
      rw [htaken hr0]
      apply (fillNew_spec hl3 (Multiset.mem_cons_self _ _) hne (by rw [hn3]; exact hfree) hr0 hi0 hty).bind
      rintro s5 ⟨hl5, hn5⟩
      rw [hn3] at hn5
      have hsame := Sound.made_of_ne s.node ty major minor hne
      have hnone : lookup s5.node dp name = none := by
        rw [hlook, hn5]
        simp only [lookup, hsame.2]
      have htype : (s5.node dp).type = .dir := by rw [hn5, hsame.1, hd]
      refine ((mustLink_spec hl5 htype hnone i _).mono_error fun e he => Stops.of_ne ?_).bind ?_
      · rw [he.1]
        decide
      rintro s6 ⟨hl6, hn6⟩
      have hcreated : s6.node = created s.node dp i name ty major minor := by
        rw [hn6, hn5, created]
        congr 1
        simp only [hole, hsame.2]
      rw [Multiset.cons_swap] at hl6
      obtain ⟨hl7, hf⟩ := hl6.unlock.iput_frees (n := s6.node) .refl
      refine .ret ⟨hl7, s6.node, ?_, hf⟩
      rw [hcreated]
      exact .create hc hr.symm hlook.symm hd hfree hi0

theorem link_spec {old new : List UInt8}
    (hn : ∀ q, resolve s.node cwd old false = some q → (s.node q.1).nlink ≠ -1) :
    Outcome (s.link cwd old new) (Stops s.node) fun r =>
      Live R 0 0 r.1 ∧ ∃ m, Main s.node cwd (.link old new) m ∧ Frees m r.1.node := by
  have hst := h.steady
  have hroot := hs.root_ne
  apply ((namei_spec h hst hroot hcwd old).mono_error fun _ => Short.stops).bind
  rintro ⟨s1, r⟩ ⟨hn1, hr, hfound, hfine⟩
  dsimp only at hn1 hr
  cases r with
  | none =>
    exact .ret ⟨hfound, s.node, .none, .of_eq hn1⟩
  | some ip =>
    obtain ⟨q, hq, rfl⟩ := Option.map_eq_some_iff.1 hr.symm
    have hl1 : Live R 0 (q.1 ::ₘ 0) s1 := hfound
    apply (hl1.ilock (by rw [hn1]; exact hfine q.1 rfl)).bind
    rintro s2 ⟨hn2, hl2, hfree⟩
    rw [hn1] at hn2 hfree
    split
    · obtain ⟨hl3, hf⟩ := hl2.unlock.iput_frees (n := s.node) (.of_eq hn2)
      exact .ret ⟨hl3, s.node, .none, hf⟩
    rename_i hnd
    rw [hn2] at hnd
    have hl3 := hl2.addLink (Multiset.mem_cons_self q.1 0) 1
    have hn3 : (s2.addLink q.1 1).node = bumped s.node q.1 1 := by rw [Store.node_addLink, hn2]
    have hst3 : Steady R (s2.addLink q.1 1).node := by
      rw [hn3]
      intro j hf h0
      rw [bumped_type] at hf
      by_cases e : j = q.1
      · subst e
        have h1 : (s.node q.1).nlink + 1 = 0 := by simpa [bumped] using h0
        have h2 := congrArg (· + (-1 : BitVec 16)) h1
        rw [BitVec.add_assoc] at h2
        exact absurd (by simpa using h2) (hn q hq)
      · rw [bumped, update_of_ne e] at h0
        exact hst j hf h0
    have hstops : ∀ e, Stops (s2.addLink q.1 1).node e → Stops s.node e := by
      rw [hn3]
      exact fun e he => he.of_bumped
    have hwalk : resolve (s2.addLink q.1 1).node cwd new true = resolve s.node cwd new true := by
      rw [hn3]
      exact walk_congr (bumped_type s.node q.1 1) (bumped_ents s.node q.1 1) _ _ _ _ _
    apply ((namex_spec hl3 hst3 (by rw [hn3, bumped_type]; exact hroot) hcwd new true).mono_error fun e he =>
      hstops e he.stops).bind
    rintro ⟨s4, r⟩ ⟨hn4, hr4, hfound4, hfine4⟩
    dsimp only at hn4 hr4
    rw [hwalk] at hr4
    rw [hn3] at hn4 hfine4
    cases r with
    | none =>
      have hl4 : Live R (q.1 ::ₘ 0) 0 s4 := hfound4
      apply ((unbump_spec hl4 hn4).mono ?_).map
      rintro s5 ⟨hl5, hf⟩
      exact ⟨hl5, s.node, .none, hf⟩
    | some p =>
      obtain ⟨dp, name⟩ := p
      have hl4 : Live R (q.1 ::ₘ 0) (dp ::ₘ 0) s4 := hfound4
      have hfine5 : (s4.node dp).type = .free → Dangles s.node := by
        intro hf
        rw [hn4] at hf
        obtain ⟨d, hd, x, hx, h0, hfx⟩ := hfine4 (dp, name) rfl hf
        simp only [bumped_type, bumped_ents] at hd hx hfx
        exact ⟨d, hd, x, hx, h0, hfx⟩
      apply (hl4.ilock hfine5).bind
      rintro s5 ⟨hn5, hl5, -⟩
      rw [hn4] at hn5
      have hst5 : Steady R s5.node := by
        rw [hn5, ← hn3]
        exact hst3
      apply (dirlink_spec hl5 dp name q.1 fun _ => hst5).bind
      rintro ⟨s6, ok⟩ ⟨hl6, hd, hn6⟩
      rw [hn5] at hd hn6
      rw [bumped_type] at hd
      cases ok with
      | true =>
        obtain ⟨hnone, hn6⟩ := hn6
        have hnone' : lookup s.node dp name = none := by simpa only [lookup, bumped_ents] using hnone
        have hlinked : s6.node = linked s.node dp q.1 name := by
          rw [linked]
          simpa only [hole, bumped_ents] using hn6
        obtain ⟨hl7, hf7⟩ := hl6.unlock.iput_frees (n := s6.node) .refl
        obtain ⟨hl8, hf8⟩ := hl7.unlock.iput_frees hf7
        refine .ret ⟨hl8, s6.node, ?_, hf8⟩
        rw [hlinked]
        exact .link hq hr4.symm hnone' hd hfree hnd
      | false =>
        have hn6 : s6.node = bumped s.node q.1 1 := hn6
        obtain ⟨hl7, hn7⟩ := hl6.unlock.iput_steady (by rw [hn6, ← hn3]; exact hst3)
        apply ((unbump_spec hl7 (hn7.trans hn6)).mono ?_).map
        rintro s8 ⟨hl8, hf⟩
        exact ⟨hl8, s.node, .none, hf⟩

theorem unlink_spec : Outcome (s.unlink cwd path) (Stops s.node) fun r =>
    Live R 0 0 r.1 ∧ ∃ m, Main s.node cwd (.unlink path) m ∧ Frees m r.1.node := by
  have hst := h.steady
  have hroot := hs.root_ne
  apply ((namex_spec h hst hroot hcwd path true).mono_error fun _ => Short.stops).bind
  rintro ⟨s1, r⟩ ⟨hn1, hr, hfound, hfine⟩
  dsimp only at hn1 hr
  cases r with
  | none =>
    exact .ret ⟨hfound, s.node, .none, .of_eq hn1⟩
  | some q =>
    obtain ⟨dp, name⟩ := q
    have hl1 : Live R 0 (dp ::ₘ 0) s1 := hfound
    apply (hl1.ilock (by rw [hn1]; exact hfine (dp, name) rfl)).bind
    rintro s2 ⟨hn2, hl2, -⟩
    rw [hn1] at hn2
    split
    · obtain ⟨hl3, hf⟩ := hl2.unlock.iput_frees (n := s.node) (.of_eq hn2)
      exact .ret ⟨hl3, s.node, .none, hf⟩
    rename_i hdots
    rw [not_or] at hdots
    apply (dirlookup_spec hl2 dp name).bind
    rintro ⟨s3, r⟩ ⟨hn3, hd, hlook, hfound⟩
    dsimp only at hn3 hlook
    rw [hn2] at hn3 hd hlook
    cases r with
    | none =>
      have hl3 : Live R (dp ::ₘ 0) 0 s3 := hfound
      obtain ⟨hl4, hf⟩ := hl3.unlock.iput_frees (n := s.node) (.of_eq hn3)
      exact .ret ⟨hl4, s.node, .none, hf⟩
    | some q =>
      obtain ⟨ip, off⟩ := q
      have hl3 : Live R (dp ::ₘ 0) (ip ::ₘ 0) s3 := hfound
      apply (hl3.ilock (by rw [hn3]; exact lookup_fine hd hlook.symm)).bind
      rintro s4 ⟨hn4, hl4, -⟩
      rw [hn3] at hn4
      rw [hn4]
      split
      · exact .stop (Stops.of_ne (by decide))
      split
      · obtain ⟨hl5, hf5⟩ := hl4.unlock.iput_frees (n := s.node) (.of_eq hn4)
        obtain ⟨hl6, hf6⟩ := hl5.unlock.iput_frees hf5
        exact .ret ⟨hl6, s.node, .none, hf6⟩
      next hempty =>
        have hempty' : (s.node ip).type = .dir → (s.node ip).kids = 0 := by
          intro hdir
          apply kids_eq_zero
          simpa [hdir] using hempty
        obtain ⟨p, rest, ht⟩ := hs.tail hd
        obtain ⟨k, e, rfl, hk, hei, h0⟩ := lookup_tail ht hlook.symm hdots.1 hdots.2
        have hne : ip ≠ dp := by
          apply hs.tree.not_self
          show ip ∈ (s.node dp).kids
          rw [ht.kids]
          exact mem_bag.2 ⟨h0, e, List.mem_of_getElem? hk, hei⟩
        obtain ⟨hl5, hf⟩ := clearEnt_spec (k + 2) hl4 hne
        rw [hn4] at hf
        exact .ret ⟨hl5, _, .unlink hr.symm hlook.symm hd hdots.1 hdots.2 hempty', hf⟩

end Calls

end Xv6.Fs
