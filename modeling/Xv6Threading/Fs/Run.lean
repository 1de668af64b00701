import Xv6Threading.Fs.Image

/-!
# Runs of the file system

As long as no link count wraps around, the references are counted and the inodes are sound after every call. What else
the calls keep is shown for their three changes and for freeing, and follows for a step.
-/

namespace Xv6.Fs

instance (n : Inum → Inode) (cwd : Inum) : (c : Call) → Decidable (Linkable n cwd c)
  | .link old _ => inferInstanceAs (Decidable (∀ q ∈ resolve n cwd old false, (n q.1).nlink ≠ -1))
  | .mkdir _ | .mknod _ _ _ | .open _ _ | .unlink _ | .chdir _ | .close _ | .dup _ | .fork _ | .exit =>
    inferInstanceAs (Decidable True)

/-- No `link` to an inode whose count is at its end. -/
def NoWrap (w : World) (a : Act) : Prop := ∀ t ∈ w.task a.p, Linkable w.fs.node t.cwd a.call

instance (w : World) (a : Act) : Decidable (NoWrap w a) :=
  inferInstanceAs (Decidable (∀ t ∈ w.task a.p, Linkable w.fs.node t.cwd a.call))

structure Good (w : World) : Prop where
  live : Live (holders w) 0 0 w.fs
  sound : Sound w.fs.node

section Step

variable {n m : Inum → Inode} {cwd : Inum} {c : Call} {name : Name}

theorem Call.creates_ne {path : List UInt8} {ty : Itype} {major minor : BitVec 16}
    (h : c.creates = some (path, ty, major, minor)) : ty ≠ .free := by
  cases c with
  | mkdir | mknod =>
    simp only [Call.creates, Option.some.injEq, Prod.mk.injEq] at h
    rw [← h.2.1]
    decide
  | «open» =>
    simp only [Call.creates, Option.ite_none_right_eq_some, Option.some.injEq, Prod.mk.injEq] at h
    rw [← h.2.2.1]
    decide
  | link | unlink | chdir | close | dup | fork | exit => cases h

theorem lookup_none {d : Inum} (h : lookup n d name = none) : Store.findName (n d).ents name = none :=
  Option.map_eq_none_iff.1 h

/-- What is unlinked is one of the later entries. -/
theorem Sound.unlinked_of_lookup (h : Sound n) {dp i : Inum} {off : Nat} (hd : (n dp).type = .dir)
    (hl : lookup n dp name = some (i, off)) (h1 : name ≠ dot) (h2 : name ≠ dotdot)
    (he : (n i).type = .dir → (n i).kids = 0) : i ∈ (view n).kids dp ∧ Sound (Fs.unlinked n dp i off) ∧
      view (Fs.unlinked n dp i off) = (view n).unlink dp i := by
  obtain ⟨p, rest, ht⟩ := h.tail hd
  obtain ⟨k, e, rfl, hk, rfl, h0⟩ := lookup_tail ht hl h1 h2
  refine ⟨?_, h.unlinked hd ht hk h0 he, Sound.view_unlinked ht hk h0⟩
  show e.inum ∈ (n dp).kids
  rw [ht.kids]
  exact mem_bag.2 ⟨h0, e, List.mem_of_getElem? hk, rfl⟩

theorem Main.sound (hm : Main n cwd c m) (h : Sound n) (hg : Linkable n cwd c) : Sound m := by
  cases hm with
  | none => exact h
  | link hq _ _ hd hfree hnd => exact h.linked hd hfree hnd (hg _ hq)
  | unlink _ hl hd h1 h2 he => exact (h.unlinked_of_lookup hd hl h1 h2 he).2.1
  | create hc _ hl hd hi h0 => exact h.created hd hi h0 (Call.creates_ne hc) (lookup_none hl)

theorem Frees.sound (hf : Frees n m) (h : Sound n) : Sound m :=
  hf.inv (fun _ _ hs h0 => hs.freed h0) h

end Step

variable {w w' : World} {a : Act}

/-- What a step of the machine does. -/
theorem step_done (h : Good w) (hg : NoWrap w a) (hs : w.step a = some w') :
    ∃ t, w.task a.p = some t ∧ Done w t a.call w' := by
  unfold World.step at hs
  split at hs
  next r hr =>
    exact (call_spec h.live h.sound hg).ok r hr w' hs
  · cases hs

theorem Good.step (h : Good w) (hg : NoWrap w a) (hs : w.step a = some w') : Good w' := by
  obtain ⟨t, ht, hl, m, hm, hf⟩ := step_done h hg hs
  exact ⟨hl, hf.sound (hm.sound h.sound (hg t ht))⟩

theorem Good.boot {args : List (List UInt8)} {s : Store} (h : mkfs args = some s) : Good (World.boot s) := by
  obtain ⟨hlen, hnode, -, -⟩ := mkfs_some h
  refine ⟨boot_live h, ?_⟩
  show Sound s.node
  rw [hnode]
  exact image_sound hlen

/-- **The base invariant of guarded runs.** -/
theorem Good.of_reach {w : World} (h : machine.ReachBy NoWrap w) : Good w := by
  apply h.inv
  · rintro w ⟨args, s, hs, rfl⟩
    exact Good.boot hs
  · intro w a w' hw hg hstep
    exact hw.step hg hstep

/-! ## Reachable inodes -/

/-- The `k`-th entry of the directory `d` names `i`. -/
def Names (n : Inum → Inode) (d : Inum) (k : Nat) (i : Inum) : Prop :=
  (n d).type = .dir ∧ i ≠ 0 ∧ ∃ name, (n d).ents[k]? = some ⟨i, name⟩

/-- From the root, by entries other than the first two, which are `.` and `..`. -/
inductive Reachable (n : Inum → Inode) : Inum → Prop where
  | root : Reachable n ROOTINO
  | entry {d i : Inum} {k : Nat} : Reachable n d → 2 ≤ k → Names n d k i → Reachable n i

section Reachable

variable {n : Inum → Inode} {d i : Inum} {k : Nat}

theorem names_iff (h : Sound n) : (∃ k, 2 ≤ k ∧ Names n d k i) ↔ i ∈ (view n).kids d := by
  constructor
  · rintro ⟨k, hk, hd, h0, name, he⟩
    obtain ⟨k, rfl⟩ := Nat.exists_eq_add_of_le' hk
    apply mem_bag.2 ⟨h0, ⟨i, name⟩, ?_, rfl⟩
    apply List.mem_of_getElem? (i := k)
    rw [List.getElem?_drop, Nat.add_comm]
    exact he
  · intro hi
    obtain ⟨h0, e, he, rfl⟩ := mem_bag.1 hi
    obtain ⟨k, hk⟩ := List.mem_iff_getElem?.1 he
    rw [List.getElem?_drop] at hk
    exact ⟨2 + k, by omega, h.tree.dir_of_mem hi, h0, e.name, hk⟩

theorem reachable_of_below (h : Sound n) (hb : Links.Below (view n).kids ROOTINO i) : Reachable n i := by
  induction hb with
  | root => exact .root
  | kid _ hi ih =>
    obtain ⟨k, hk, hn⟩ := (names_iff h).2 hi
    exact ih.entry hk hn

theorem Reachable.alloc (h : Sound n) (hr : Reachable n i) : (n i).type ≠ .free := by
  cases hr with
  | root => exact h.root_ne
  | entry _ hk hn => exact (h.tree.alloc _ _ ((names_iff h).1 ⟨_, hk, hn⟩)).1

end Reachable

end Xv6.Fs
