import Xv6Threading.Fs.Calls
import Xv6Threading.Fs.Tree

/-!
# From entries to the tree

The entries of a directory as a bag of inodes, what writing one entry does to it, and the changes to the inodes that the
system calls make, with what each is for the tree.
-/

namespace Xv6.Fs

open Function

/-- The inodes that entries name. -/
def bag (ents : List Dirent) : Multiset Inum := ((ents.map Dirent.inum).filter (· ≠ 0) : List Inum)

def Inode.kids (x : Inode) : Multiset Inum := bag (x.ents.drop 2)

def Inode.up (x : Inode) : Inum := (x.ents.getD 1 ⟨0, []⟩).inum

def view (n : Inum → Inode) : View :=
  ⟨fun i => (n i).type, fun i => (n i).nlink, fun i => (n i).kids, fun i => (n i).up⟩

/-- The first two entries of a directory are `.` and `..`, and no later one with such a name names a directory. -/
structure Shape (n : Inum → Inode) : Prop where
  dots : ∀ d, (n d).type = .dir → ∃ p rest, (n d).ents = ⟨d, dot⟩ :: ⟨p, dotdot⟩ :: rest ∧ p ≠ 0
  flat : ∀ i, (n i).type ≠ .dir → (n i).ents = []
  names : ∀ d, ∀ e ∈ (n d).ents.drop 2, (n e.inum).type = .dir → e.name ≠ dot ∧ e.name ≠ dotdot

/-! ## Bags -/

section Bag

variable {e : Dirent} {l : List Dirent} {i : Inum}

theorem bag_cons (e : Dirent) (l : List Dirent) :
    bag (e :: l) = if e.inum = 0 then bag l else e.inum ::ₘ bag l := by
  by_cases h : e.inum = 0 <;> simp [bag, h]

theorem mem_bag : i ∈ bag l ↔ i ≠ 0 ∧ ∃ e ∈ l, e.inum = i := by
  simp [bag, and_comm]

theorem count_bag (hi : i ≠ 0) (l : List Dirent) : (bag l).count i = l.countP fun e => e.inum = i := by
  induction l with
  | nil => rfl
  | cons e l ih =>
    rw [List.countP_cons, bag_cons, ← ih]
    by_cases he : e.inum = i
    · simp [he, hi]
    · by_cases h0 : e.inum = 0
      · simp [h0, hi.symm]
      · simp [h0, he, Multiset.count_cons_of_ne (Ne.symm he)]

theorem writeEnt_succ (x : Dirent) (l : List Dirent) (off : Nat) (e : Dirent) :
    Store.writeEnt (x :: l) (off + 1) e = x :: Store.writeEnt l off e := by
  simp only [Store.writeEnt, List.length_cons, Nat.add_lt_add_iff_right, List.set_cons_succ]
  split <;> rfl

/-- Into the first hole, or at the end. -/
theorem bag_fill (he : e.inum ≠ 0) (l : List Dirent) :
    bag (Store.writeEnt l (l.findIdx fun x => x.inum = 0) e) = e.inum ::ₘ bag l := by
  induction l with
  | nil => simp [Store.writeEnt, bag, he]
  | cons x l ih =>
    by_cases hx : x.inum = 0
    · simp [List.findIdx_cons, hx, Store.writeEnt, bag_cons, he]
    · simp only [List.findIdx_cons, hx, decide_false, cond_false, writeEnt_succ, bag_cons, if_false, ih]
      exact Multiset.cons_swap _ _ _

theorem bag_clear : ∀ {l : List Dirent} {k : Nat}, l[k]? = some e → e.inum ≠ 0 →
    bag (Store.writeEnt l k ⟨0, []⟩) = (bag l).erase e.inum := by
  intro l
  induction l with
  | nil => simp
  | cons x l ih =>
    intro k hk he
    cases k with
    | zero =>
      simp only [List.getElem?_cons_zero, Option.some.injEq] at hk
      subst hk
      simp [Store.writeEnt, bag_cons, he]
    | succ k =>
      simp only [List.getElem?_cons_succ] at hk
      have hmem : e.inum ∈ bag l := mem_bag.2 ⟨he, e, List.mem_of_getElem? hk, rfl⟩
      rw [writeEnt_succ, bag_cons, bag_cons, ih hk he]
      by_cases hx : x.inum = 0
      · simp [hx]
      simp only [hx, if_false]
      by_cases hxe : x.inum = e.inum
      · rw [hxe, Multiset.erase_cons_head, Multiset.cons_erase hmem]
      · rw [Multiset.erase_cons_tail _ (by simpa using hxe)]

theorem mem_writeEnt {k : Nat} {x : Dirent} (hx : x ∈ Store.writeEnt l k e) : x = e ∨ x ∈ l := by
  unfold Store.writeEnt at hx
  split at hx
  · exact (List.mem_or_eq_of_mem_set hx).symm
  · rw [List.mem_append, List.mem_singleton] at hx
    exact hx.symm

theorem kids_eq_zero {x : Inode} (h : Store.isdirempty x = true) : x.kids = 0 := by
  rw [Multiset.eq_zero_iff_forall_notMem]
  intro i hi
  obtain ⟨hne, e, he, rfl⟩ := mem_bag.1 hi
  simp only [Store.isdirempty, List.all_eq_true, decide_eq_true_eq] at h
  exact hne (h e he)

end Bag

/-! ## The changes -/

section Changes

variable {n : Inum → Inode} {dp i : Inum} {off : Nat} {name : Name}

def freed (n : Inum → Inode) (i : Inum) : Inum → Inode :=
  update n i { n i with type := .free, ents := [] }

def bumped (n : Inum → Inode) (i : Inum) (k : BitVec 16) : Inum → Inode :=
  update n i { n i with nlink := (n i).nlink + k }

def written (n : Inum → Inode) (dp : Inum) (off : Nat) (e : Dirent) : Inum → Inode :=
  update n dp { n dp with ents := Store.writeEnt (n dp).ents off e }

/-- The offset at which `dirlink` writes. -/
def hole (n : Inum → Inode) (dp : Inum) : Nat := (n dp).ents.findIdx fun e => e.inum = 0

def linked (n : Inum → Inode) (dp i : Inum) (name : Name) : Inum → Inode :=
  written (bumped n i 1) dp (hole n dp) ⟨i, name⟩

def unlinked (n : Inum → Inode) (dp i : Inum) (off : Nat) : Inum → Inode :=
  let m := written n dp off ⟨0, []⟩
  bumped (if (n i).type = .dir then bumped m dp (-1) else m) i (-1)

/-- The new inode, and the count of its directory. -/
def made (n : Inum → Inode) (dp i : Inum) (type : Itype) (major minor : BitVec 16) : Inum → Inode :=
  if type = .dir then
    bumped (update n i ⟨.dir, major, minor, 1, [⟨i, dot⟩, ⟨dp, dotdot⟩]⟩) dp 1
  else update n i ⟨type, major, minor, 1, []⟩

def created (n : Inum → Inode) (dp i : Inum) (name : Name) (type : Itype) (major minor : BitVec 16) :
    Inum → Inode :=
  written (made n dp i type major minor) dp (hole n dp) ⟨i, name⟩

theorem View.ext {v w : View} (ht : v.type = w.type) (hn : v.nlink = w.nlink) (hk : v.kids = w.kids)
    (hu : v.up = w.up) : v = w := by
  cases v
  cases w
  simp_all

theorem view_update (n : Inum → Inode) (i : Inum) (x : Inode) : view (update n i x) =
    ⟨update (view n).type i x.type, update (view n).nlink i x.nlink,
      update (view n).kids i x.kids, update (view n).up i x.up⟩ := by
  apply View.ext <;> funext j <;> by_cases e : j = i <;> simp [view, e]

theorem view_freed (n : Inum → Inode) (i : Inum) : view (freed n i) = (view n).free i := by
  rw [freed, view_update]
  apply View.ext <;> simp [View.free, view, Inode.kids, Inode.up, bag]

theorem view_bumped (n : Inum → Inode) (i : Inum) (k : BitVec 16) : view (bumped n i k) = (view n).bump i k := by
  rw [bumped, view_update]
  apply View.ext <;> simp [View.bump, view, Inode.kids, Inode.up]

/-- A directory's entries after the first two. -/
def Tail (n : Inum → Inode) (d p : Inum) (rest : List Dirent) : Prop :=
  (n d).ents = ⟨d, dot⟩ :: ⟨p, dotdot⟩ :: rest ∧ d ≠ 0 ∧ p ≠ 0

theorem Shape.tail (h : Shape n) (hd : (n dp).type = .dir) (h0 : dp ≠ 0) : ∃ p rest, Tail n dp p rest := by
  obtain ⟨p, rest, he, hp⟩ := h.dots dp hd
  exact ⟨p, rest, he, h0, hp⟩

section Tail

variable {p : Inum} {rest : List Dirent} {e : Dirent}

section

variable (h : Tail n dp p rest)
include h

theorem Tail.kids : (n dp).kids = bag rest := by
  simp [Inode.kids, h.1]

theorem Tail.fill (e : Dirent) : Store.writeEnt (n dp).ents (hole n dp) e =
    ⟨dp, dot⟩ :: ⟨p, dotdot⟩ :: Store.writeEnt rest (rest.findIdx fun x => x.inum = 0) e := by
  obtain ⟨he, hd, hp⟩ := h
  simp only [hole, he, List.findIdx_cons, hd, hp, decide_false, cond_false, writeEnt_succ]

theorem Tail.clear (k : Nat) (e : Dirent) : Store.writeEnt (n dp).ents (k + 2) e =
    ⟨dp, dot⟩ :: ⟨p, dotdot⟩ :: Store.writeEnt rest k e := by
  rw [h.1, writeEnt_succ, writeEnt_succ]

theorem view_fill (he : e.inum ≠ 0) : view (written n dp (hole n dp) e) = (view n).enter dp e.inum := by
  rw [written, view_update]
  apply View.ext
  · simp [View.enter, view]
  · simp [View.enter, view]
  · have hk : (view n).kids dp = bag rest := h.kids
    simp only [View.enter, hk]
    simp [Inode.kids, h.fill, bag_fill he]
  · have hu : (view n).up dp = p := by simp [view, Inode.up, h.1]
    simp only [View.enter]
    rw [update_eq_self_iff, hu]
    simp [Inode.up, h.fill]

theorem view_clear {k : Nat} (hk : rest[k]? = some e) (he : e.inum ≠ 0) :
    view (written n dp (k + 2) ⟨0, []⟩) = (view n).remove dp e.inum := by
  rw [written, view_update]
  apply View.ext
  · simp [View.remove, view]
  · simp [View.remove, view]
  · have hkids : (view n).kids dp = bag rest := h.kids
    simp only [View.remove, hkids]
    simp [Inode.kids, h.clear, bag_clear hk he]
  · have hu : (view n).up dp = p := by simp [view, Inode.up, h.1]
    simp only [View.remove]
    rw [update_eq_self_iff, hu]
    simp [Inode.up, h.clear]

end

end Tail

/-! ### Types and entries after a change -/

section

variable (n : Inum → Inode) (i dp : Inum) (k : BitVec 16) (off : Nat) (e : Dirent) (j : Inum)

@[simp] theorem bumped_type : (bumped n i k j).type = (n j).type := by
  by_cases e : j = i <;> simp [bumped, e]

@[simp] theorem bumped_ents : (bumped n i k j).ents = (n j).ents := by
  by_cases e : j = i <;> simp [bumped, e]

@[simp] theorem written_type : (written n dp off e j).type = (n j).type := by
  by_cases h : j = dp <;> simp [written, h]

@[simp] theorem written_nlink : (written n dp off e j).nlink = (n j).nlink := by
  by_cases h : j = dp <;> simp [written, h]

theorem written_ents : (written n dp off e j).ents = if j = dp then Store.writeEnt (n dp).ents off e else (n j).ents := by
  by_cases h : j = dp <;> simp [written, h]

theorem bumped_cancel : bumped (bumped n i 1) i (-1) = n := by
  have h : (n i).nlink + 1 + -1 = (n i).nlink := by
    rw [BitVec.add_assoc]
    exact BitVec.add_zero _
  unfold bumped
  rw [update_idem, update_self, h]
  exact update_eq_self i n

end

theorem Shape.bumped (h : Shape n) (i : Inum) (k : BitVec 16) : Shape (bumped n i k) := by
  refine ⟨?_, ?_, ?_⟩
  · simpa using h.dots
  · simpa using h.flat
  · simpa using h.names

theorem Shape.freed (h : Shape n) (i : Inum) : Shape (freed n i) := by
  have hsame : ∀ j, j ≠ i → Fs.freed n i j = n j := fun j e => update_of_ne e _ _
  have hself : (Fs.freed n i i).type = .free ∧ (Fs.freed n i i).ents = [] := by simp [Fs.freed]
  refine ⟨?_, ?_, ?_⟩
  · intro d hd
    have e : d ≠ i := by
      rintro rfl
      rw [hself.1] at hd
      cases hd
    rw [hsame d e] at hd ⊢
    exact h.dots d hd
  · intro j hj
    by_cases e : j = i
    · rw [e]
      exact hself.2
    · rw [hsame j e] at hj ⊢
      exact h.flat j hj
  intro d x hx hdir
  have e : d ≠ i := by
    rintro rfl
    rw [hself.2] at hx
    cases hx
  have e' : x.inum ≠ i := by
    intro e'
    rw [e', hself.1] at hdir
    cases hdir
  rw [hsame _ e'] at hdir
  rw [hsame d e] at hx
  exact h.names d x hx hdir

/-- An entry is written after the first two; one that names a directory has a name of its own. -/
theorem Shape.written (h : Shape n) (hd : (n dp).type = .dir) {rest' : List Dirent} {p : Inum} {rest : List Dirent}
    {e : Dirent} (ht : Tail n dp p rest) (hw : Store.writeEnt (n dp).ents off e = ⟨dp, dot⟩ :: ⟨p, dotdot⟩ :: rest')
    (hmem : ∀ x ∈ rest', x = e ∨ x ∈ rest)
    (hname : (n e.inum).type = .dir → e.name ≠ dot ∧ e.name ≠ dotdot) : Shape (written n dp off e) := by
  refine ⟨?_, ?_, ?_⟩
  · intro d hdir
    rw [written_type] at hdir
    rw [written_ents]
    by_cases e' : d = dp
    · rw [if_pos e', hw, e']
      exact ⟨p, rest', rfl, ht.2.2⟩
    · rw [if_neg e']
      exact h.dots d hdir
  · intro j hj
    rw [written_type] at hj
    have e' : j ≠ dp := fun e' => hj (e' ▸ hd)
    rw [written_ents, if_neg e']
    exact h.flat j hj
  intro d x hx hdir
  rw [written_type] at hdir
  rw [written_ents] at hx
  by_cases e' : d = dp
  · rw [if_pos e', hw] at hx
    rcases hmem x hx with rfl | hx
    · exact hname hdir
    · exact h.names dp x (by rwa [ht.1]) hdir
  · rw [if_neg e'] at hx
    exact h.names d x hx hdir

end Changes

/-! ## A sound disk -/

/-- The directories are well formed and make up a tree. -/
structure Sound (n : Inum → Inode) : Prop where
  shape : Shape n
  tree : Tree (view n)

namespace Sound

variable {n : Inum → Inode} {dp i : Inum} {name : Name} {rest : List Dirent} {e : Dirent} {p : Inum} {k : Nat}

section

variable (h : Sound n)
include h

theorem ne_zero (hi : (n i).type ≠ .free) : i ≠ 0 := by
  rintro rfl
  exact hi h.tree.zero

theorem root_ne : (n ROOTINO).type ≠ .free := by
  rw [show (n ROOTINO).type = .dir from h.tree.root]
  decide

theorem tail (hd : (n dp).type = .dir) : ∃ p rest, Tail n dp p rest :=
  h.shape.tail hd (h.ne_zero (by rw [hd]; decide))

theorem freed (h0 : (n i).nlink = 0) : Sound (freed n i) :=
  ⟨h.shape.freed i, by rw [view_freed]; exact h.tree.free h0⟩

theorem view_linked (hd : (n dp).type = .dir) (hi : (n i).type ≠ .free) :
    view (linked n dp i name) = (view n).link dp i := by
  obtain ⟨p, rest, ht⟩ := h.tail hd
  have ht' : Tail (bumped n i 1) dp p rest := ⟨by simpa using ht.1, ht.2⟩
  have hhole : hole n dp = hole (bumped n i 1) dp := by simp [hole]
  rw [linked, hhole, view_fill ht' (h.ne_zero hi), view_bumped]
  rfl

theorem linked (hd : (n dp).type = .dir) (hi : (n i).type ≠ .free) (hnd : (n i).type ≠ .dir)
    (hn : (n i).nlink ≠ -1) : Sound (linked n dp i name) := by
  refine ⟨?_, by rw [h.view_linked hd hi]; exact h.tree.link hd hi hnd hn⟩
  obtain ⟨p, rest, ht⟩ := h.tail hd
  have ht' : Tail (bumped n i 1) dp p rest := ⟨by simpa using ht.1, ht.2⟩
  have hhole : hole n dp = hole (bumped n i 1) dp := by simp [hole]
  have hfill := ht'.fill ⟨i, name⟩
  rw [← hhole] at hfill
  apply (h.shape.bumped i 1).written (by simpa using hd) ht' hfill fun x => mem_writeEnt
  intro hdir
  exact absurd (by simpa using hdir) hnd

end

theorem view_unlinked (ht : Tail n dp p rest) (hk : rest[k]? = some e) (he : e.inum ≠ 0) :
    view (unlinked n dp e.inum (k + 2)) = (view n).unlink dp e.inum := by
  unfold unlinked View.unlink
  have hv := view_clear ht hk he
  by_cases hdir : (n e.inum).type = .dir
  · have hdir' : (view n).type e.inum = .dir := hdir
    simp only [hdir, hdir', if_true, view_bumped, hv]
    rfl
  · have hdir' : ¬ (view n).type e.inum = .dir := hdir
    simp only [hdir, hdir', if_false, view_bumped, hv]
    rfl

theorem unlinked (h : Sound n) (hd : (n dp).type = .dir) (ht : Tail n dp p rest)
    (hk : rest[k]? = some e) (he : e.inum ≠ 0)
    (hempty : (n e.inum).type = .dir → (n e.inum).kids = 0) : Sound (unlinked n dp e.inum (k + 2)) := by
  have hmem : e.inum ∈ (view n).kids dp := by
    show e.inum ∈ (n dp).kids
    rw [ht.kids]
    exact mem_bag.2 ⟨he, e, List.mem_of_getElem? hk, rfl⟩
  refine ⟨?_, by rw [view_unlinked ht hk he]; exact h.tree.unlink hmem hempty⟩
  have hs : Shape (written n dp (k + 2) ⟨0, []⟩) := by
    refine h.shape.written hd ht (ht.clear k _) (fun x => mem_writeEnt) ?_
    intro hdir
    rw [show (n 0).type = .free from h.tree.zero] at hdir
    cases hdir
  unfold Fs.unlinked
  split
  · exact (hs.bumped dp _).bumped _ _
  · exact hs.bumped _ _

section Created

variable {ty : Itype} {major minor : BitVec 16}

theorem made_of_ne (n : Inum → Inode) (ty : Itype) (major minor : BitVec 16) (hj : dp ≠ i) : (made n dp i ty major minor dp).type = (n dp).type ∧
    (made n dp i ty major minor dp).ents = (n dp).ents := by
  unfold made
  split <;> simp [hj]

section

variable (h : Sound n)
include h

theorem view_made (hi : (n i).type = .free) : view (made n dp i ty major minor) =
    if ty = .dir then ((view n).make i .dir dp).bump dp 1 else (view n).make i ty 0 := by
  have hk : (view n).kids i = 0 := h.tree.leaf i (by rw [show (view n).type i = .free from hi]; decide)
  unfold made
  split
  · rw [view_bumped, view_update]
    congr 1
    apply View.ext
    · rfl
    · rfl
    · simp [View.make, hk, Inode.kids, bag]
    · simp [View.make, Inode.up]
  rw [view_update]
  apply View.ext
  · rfl
  · rfl
  · simp [View.make, hk, Inode.kids, bag]
  · simp [View.make, Inode.up]

theorem tail_made (ty : Itype) (major minor : BitVec 16) (hd : (n dp).type = .dir) (hi : (n i).type = .free) :
    (made n dp i ty major minor dp).type = .dir ∧ ∃ p rest, Tail (made n dp i ty major minor) dp p rest ∧
      hole n dp = hole (made n dp i ty major minor) dp := by
  have hne : dp ≠ i := by
    rintro rfl
    rw [hd] at hi
    cases hi
  obtain ⟨p, rest, ht⟩ := h.tail hd
  have hm := made_of_ne n ty major minor hne
  exact ⟨hm.1.trans hd, p, rest, ⟨hm.2.trans ht.1, ht.2⟩, by simp [hole, hm.2]⟩

theorem view_created (hd : (n dp).type = .dir) (hi : (n i).type = .free) (h0 : i ≠ 0) :
    view (created n dp i name ty major minor) = (view n).create dp i ty := by
  obtain ⟨-, p, rest, ht, hhole⟩ := h.tail_made ty major minor hd hi
  rw [created, hhole, view_fill ht h0, h.view_made hi]
  unfold View.create
  split <;> rfl

/-- `dirlookup` did not find the name. -/
theorem name_ne (hd : (n dp).type = .dir) (hname : Store.findName (n dp).ents name = none) :
    name ≠ dot ∧ name ≠ dotdot := by
  obtain ⟨p, rest, he, hdp, hp⟩ := h.tail hd
  rw [Store.findName, he, List.findIdx?_eq_none_iff] at hname
  have h1 := hname ⟨dp, dot⟩ (by simp)
  have h2 := hname ⟨p, dotdot⟩ (by simp)
  simp only [hdp, hp, ne_eq, not_false_eq_true, true_and, decide_eq_false_iff_not] at h1 h2
  exact ⟨fun e => h1 e.symm, fun e => h2 e.symm⟩

/-- A free inode, which no entry names, is filled in. -/
theorem shape_update (hi : (n i).type = .free) (h0 : i ≠ 0) {x : Inode}
    (hdir : x.type = .dir → ∃ p, x.ents = [⟨i, dot⟩, ⟨p, dotdot⟩] ∧ p ≠ 0) (hflat : x.type ≠ .dir → x.ents = []) :
    Shape (update n i x) := by
  have htail : x.ents.drop 2 = [] := by
    by_cases hx : x.type = .dir
    · obtain ⟨p, he, -⟩ := hdir hx
      simp [he]
    · simp [hflat hx]
  refine ⟨?_, ?_, ?_⟩
  · intro d hd
    by_cases e : d = i
    · subst e
      rw [update_self] at hd ⊢
      obtain ⟨p, he, hp⟩ := hdir hd
      exact ⟨p, [], he, hp⟩
    · rw [update_of_ne e] at hd ⊢
      exact h.shape.dots d hd
  · intro j hj
    by_cases e : j = i
    · subst e
      rw [update_self] at hj ⊢
      exact hflat hj
    · rw [update_of_ne e] at hj ⊢
      exact h.shape.flat j hj
  intro d y hy hyd
  have e : d ≠ i := by
    rintro rfl
    rw [update_self, htail] at hy
    cases hy
  rw [update_of_ne e] at hy
  have e' : y.inum ≠ i := by
    intro e'
    exact h.tree.not_kid_of_free hi d (mem_bag.2 ⟨h0, y, hy, e'⟩)
  rw [update_of_ne e'] at hyd
  exact h.shape.names d y hy hyd

theorem shape_made (hd : (n dp).type = .dir) (hi : (n i).type = .free) (h0 : i ≠ 0) :
    Shape (made n dp i ty major minor) := by
  have hdp : dp ≠ 0 := h.ne_zero (by rw [hd]; decide)
  unfold made
  split
  · apply Shape.bumped
    apply h.shape_update hi h0
    · exact fun _ => ⟨dp, rfl, hdp⟩
    · exact fun hx => absurd rfl hx
  next hty =>
    apply h.shape_update hi h0
    · exact fun hx => absurd hx hty
    · exact fun _ => rfl

theorem created (hd : (n dp).type = .dir) (hi : (n i).type = .free) (h0 : i ≠ 0) (hty : ty ≠ .free)
    (hname : Store.findName (n dp).ents name = none) : Sound (created n dp i name ty major minor) := by
  refine ⟨?_, by rw [h.view_created hd hi h0]; exact h.tree.create hd hi h0 hty⟩
  obtain ⟨hdir, p, rest, ht, hhole⟩ := h.tail_made ty major minor hd hi
  have hfill := ht.fill ⟨i, name⟩
  rw [← hhole] at hfill
  apply (h.shape_made hd hi h0).written hdir ht hfill fun x => mem_writeEnt
  intro _
  exact h.name_ne hd hname

end

end Created

end Sound

end Xv6.Fs
