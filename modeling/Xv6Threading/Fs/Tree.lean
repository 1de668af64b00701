import Mathlib.Algebra.Order.Ring.Int
import Xv6Threading.Fs.Inode
import Xv6Threading.Lib.Links

/-!
# The tree of directories, seen from above

Without names and offsets: which inodes there are, their link counts, the bag of inodes that the entries of a directory
after the first two name, and what its `..` names.

| here | there |
| --- | --- |
| `free` | `iput` of the last reference to an inode without links (`fs.c:340-345`) |
| `link` | a successful `sys_link` |
| `unlink` | a successful `sys_unlink`, before the inode is freed |
| `create` | a successful `create` of a new inode |
-/

namespace Xv6.Fs

open Function
open Links

structure View where
  type : Inum → Itype
  nlink : Inum → BitVec 16
  kids : Inum → Multiset Inum
  up : Inum → Inum

namespace View

/-- How many entries name `i`, `.` and `..` apart. -/
def links (v : View) (i : Inum) : Nat := indeg v.kids i

def subdirs (v : View) (d : Inum) : Nat := (v.kids d).countP fun c => v.type c = .dir

def free (v : View) (i : Inum) : View :=
  { v with
    type := update v.type i .free
    kids := update v.kids i 0
    up := update v.up i 0 }

def bump (v : View) (i : Inum) (k : BitVec 16) : View :=
  { v with nlink := update v.nlink i (v.nlink i + k) }

def enter (v : View) (dp i : Inum) : View := { v with kids := update v.kids dp (i ::ₘ v.kids dp) }

def remove (v : View) (dp i : Inum) : View := { v with kids := update v.kids dp ((v.kids dp).erase i) }

def make (v : View) (i : Inum) (type : Itype) (up : Inum) : View :=
  { v with
    type := update v.type i type
    nlink := update v.nlink i 1
    up := update v.up i up }

def link (v : View) (dp i : Inum) : View := (v.bump i 1).enter dp i

def unlink (v : View) (dp i : Inum) : View :=
  ((if v.type i = .dir then v.bump dp (-1) else v).bump i (-1)).remove dp i

def create (v : View) (dp i : Inum) (type : Itype) : View :=
  if type = .dir then ((v.make i .dir dp).bump dp 1).enter dp i else (v.make i type 0).enter dp i

end View

/-- The invariant. The counts of directories are exact: one for the entry that names it, one for each directory in it,
and one more for the root. Those of other inodes are at least the number of entries. -/
structure Tree (v : View) : Prop where
  zero : v.type 0 = .free
  root : v.type ROOTINO = .dir
  rootUp : v.up ROOTINO = ROOTINO
  leaf : ∀ i, v.type i ≠ .dir → v.kids i = 0
  alloc : ∀ d i, i ∈ v.kids d → v.type i ≠ .free ∧ i ≠ ROOTINO
  up : ∀ d c, c ∈ v.kids d → v.type c = .dir → v.up c = d
  once : ∀ c, v.type c = .dir → v.links c ≤ 1
  exact : ∀ d, v.type d = .dir →
    v.nlink d = BitVec.ofNat 16 (v.links d + v.subdirs d + if d = ROOTINO then 1 else 0)
  enough : ∀ i, v.type i ≠ .dir → v.links i ≤ (v.nlink i).toNat
  rank : ∃ r : Inum → Nat, ∀ d c, c ∈ v.kids d → v.type c = .dir → r d < r c

namespace Tree

variable {v : View} {dp d i c : Inum}

theorem dir_of_mem (h : Tree v) (hc : c ∈ v.kids d) : v.type d = .dir := by
  by_contra hd
  rw [h.leaf d hd] at hc
  exact Multiset.notMem_zero _ hc

theorem subdirs_le (h : Tree v) (d : Inum) : v.subdirs d ≤ NINODES :=
  (countP_le_card h.once d).trans (by simp)

/-- A directory without links is not the root, and neither named nor the holder of a directory. -/
theorem of_nlink_zero (h : Tree v) (hd : v.type d = .dir) (h0 : v.nlink d = 0) :
    v.links d = 0 ∧ v.subdirs d = 0 ∧ d ≠ ROOTINO := by
  have hex := h.exact d hd
  have honce := h.once d hd
  have hsub := h.subdirs_le d
  rw [h0] at hex
  have hmod := congrArg BitVec.toNat hex
  simp only [BitVec.toNat_ofNat, BitVec.ofNat_eq_ofNat] at hmod
  simp only [NINODES] at hsub
  split at hmod
  · omega
  next hroot =>
    exact ⟨by omega, by omega, hroot⟩

theorem no_subdir (h : v.subdirs d = 0) (hc : c ∈ v.kids d) : v.type c ≠ .dir := by
  simpa using Multiset.countP_eq_zero.1 h c hc

/-- An inode without links is named by no entry. -/
theorem not_named (h : Tree v) (h0 : v.nlink i = 0) : v.links i = 0 := by
  by_cases hi : v.type i = .dir
  · exact (h.of_nlink_zero hi h0).1
  · have := h.enough i hi
    rw [h0] at this
    simpa using this

theorem not_self (h : Tree v) (hi : i ∈ v.kids d) : i ≠ d := by
  rintro rfl
  obtain ⟨r, hr⟩ := h.rank
  exact Nat.lt_irrefl _ (hr i i hi (h.dir_of_mem hi))

/-! ## Freeing -/

theorem kids_free (d : Inum) (hc : c ∈ (v.free i).kids d) : d ≠ i ∧ c ∈ v.kids d := by
  by_cases e : d = i
  · simp [View.free, e] at hc
  · exact ⟨e, by simpa [View.free, e] using hc⟩

theorem links_free (v : View) (i j : Inum) : (v.free i).links j + (v.kids i).count j = v.links j := by
  have h := indeg_update v.kids i 0 j
  rwa [Multiset.count_zero, Nat.add_zero] at h

theorem type_free (v : View) (i j : Inum) : (v.free i).type j = .dir ↔ j ≠ i ∧ v.type j = .dir := by
  by_cases e : j = i <;> simp [View.free, e]

/-- What a directory without links names are no directories. -/
theorem links_free_dir (h : Tree v) (h0 : v.nlink i = 0) (hc : v.type c = .dir) :
    (v.free i).links c = v.links c := by
  have hl := links_free v i c
  have hcount : (v.kids i).count c = 0 := by
    apply Multiset.count_eq_zero.2
    intro hmem
    exact no_subdir (h.of_nlink_zero (h.dir_of_mem hmem) h0).2.1 hmem hc
  omega

theorem free (h : Tree v) (h0 : v.nlink i = 0) : Tree (v.free i) := by
  have hno : ∀ d, i ∉ v.kids d := not_mem_of_indeg_eq_zero (h.not_named h0)
  have hlinks := links_free v i
  have hroot : ROOTINO ≠ i := by
    rintro rfl
    exact (h.of_nlink_zero h.root h0).2.2 rfl
  have hup : ∀ j, j ≠ i → (v.free i).up j = v.up j := fun j e => update_of_ne e _ _
  refine ⟨?_, ?_, ?_, ?_, ?_, ?_, ?_, ?_, ?_, ?_⟩
  · by_cases e : (0 : Inum) = i
    · simp [View.free, e]
    · simp [View.free, e, h.zero]
  · exact (type_free v i _).2 ⟨hroot, h.root⟩
  · rw [hup _ hroot]
    exact h.rootUp
  · intro j hj
    by_cases e : j = i
    · simp [View.free, e]
    · simp only [View.free, update_of_ne e] at hj ⊢
      exact h.leaf j hj
  · intro d j hj
    obtain ⟨-, hj⟩ := kids_free d hj
    have e : j ≠ i := fun e => hno d (e ▸ hj)
    simpa only [View.free, update_of_ne e] using h.alloc d j hj
  · intro d c hc hdir
    obtain ⟨e, hdir⟩ := (type_free v i c).1 hdir
    rw [hup c e]
    exact h.up d c (kids_free d hc).2 hdir
  · intro c hdir
    have := h.once c ((type_free v i c).1 hdir).2
    have := hlinks c
    omega
  · intro d hdir
    obtain ⟨e, hdir⟩ := (type_free v i d).1 hdir
    have hs : (v.free i).subdirs d = v.subdirs d := by
      simp only [View.subdirs, View.free, update_of_ne e]
      apply Multiset.countP_congr rfl
      intro c hc
      have : c ≠ i := fun e => hno d (e ▸ hc)
      simp [this]
    rw [h.links_free_dir h0 hdir, hs]
    exact h.exact d hdir
  · intro j hj
    have hl := hlinks j
    by_cases e : j = i
    · have hz : v.links j = 0 := by rw [e]; exact h.not_named h0
      omega
    · have hnd : v.type j ≠ .dir := by simpa [View.free, e] using hj
      exact Nat.le_trans (by omega) (h.enough j hnd)
  · obtain ⟨r, hr⟩ := h.rank
    refine ⟨r, ?_⟩
    intro d c hc hdir
    exact hr d c (kids_free d hc).2 ((type_free v i c).1 hdir).2

/-! ## A new link -/

theorem kids_enter (v : View) (dp i d c : Inum) : c ∈ (v.enter dp i).kids d ↔ c ∈ v.kids d ∨ d = dp ∧ c = i := by
  by_cases e : d = dp
  · simp [View.enter, e, or_comm]
  · simp [View.enter, e]

theorem links_enter (v : View) (dp i j : Inum) : (v.enter dp i).links j = v.links j + if j = i then 1 else 0 :=
  indeg_cons v.kids dp i j

theorem subdirs_enter (v : View) (dp i d : Inum) :
    (v.enter dp i).subdirs d = v.subdirs d + if d = dp ∧ v.type i = .dir then 1 else 0 := by
  by_cases e : d = dp
  · simp [View.subdirs, View.enter, e, Multiset.countP_cons]
  · simp [View.subdirs, View.enter, e]

theorem toNat_add_one {x : BitVec 16} (h : x ≠ -1) : (x + 1).toNat = x.toNat + 1 := by
  have : x.toNat ≠ 65535 := fun e => h (BitVec.eq_of_toNat_eq e)
  have := x.isLt
  simp only [BitVec.toNat_add, BitVec.ofNat_eq_ofNat, BitVec.toNat_ofNat]
  omega

theorem link (h : Tree v) (hd : v.type dp = .dir) (hfree : v.type i ≠ .free) (hnd : v.type i ≠ .dir)
    (hn : v.nlink i ≠ -1) : Tree (v.link dp i) := by
  have hkids : ∀ d c, c ∈ (v.link dp i).kids d ↔ c ∈ v.kids d ∨ d = dp ∧ c = i := kids_enter (v.bump i 1) dp i
  have hlinks : ∀ j, (v.link dp i).links j = v.links j + if j = i then 1 else 0 := links_enter (v.bump i 1) dp i
  have hne : ∀ {c}, v.type c = .dir → c ≠ i := by
    rintro c hc rfl
    exact hnd hc
  refine ⟨h.zero, h.root, h.rootUp, ?_, ?_, ?_, ?_, ?_, ?_, ?_⟩
  · intro j hj
    have e : j ≠ dp := fun e => hj (e ▸ hd)
    simpa [View.link, View.enter, View.bump, e] using h.leaf j hj
  · intro d j hj
    rcases (hkids d j).1 hj with hj | ⟨-, rfl⟩
    · exact h.alloc d j hj
    · exact ⟨hfree, (hne h.root).symm⟩
  · intro d c hc hdir
    rcases (hkids d c).1 hc with hc | ⟨-, rfl⟩
    · exact h.up d c hc hdir
    · exact absurd hdir hnd
  · intro c hdir
    rw [hlinks, if_neg (hne hdir), Nat.add_zero]
    exact h.once c hdir
  · intro d hdir
    have hs : (v.link dp i).subdirs d = v.subdirs d := by
      have := subdirs_enter (v.bump i 1) dp i d
      rwa [if_neg (fun e => hnd e.2)] at this
    have hl : (v.link dp i).nlink d = v.nlink d := update_of_ne (hne hdir) _ _
    rw [hlinks, if_neg (hne hdir), Nat.add_zero, hs, hl]
    exact h.exact d hdir
  · intro j hj
    have hle := h.enough j hj
    rw [hlinks]
    by_cases e : j = i
    · subst e
      simp only [View.link, View.enter, View.bump, update_self, toNat_add_one hn, if_true]
      omega
    · simpa [View.link, View.enter, View.bump, e] using hle
  obtain ⟨r, hr⟩ := h.rank
  refine ⟨r, ?_⟩
  intro d c hc hdir
  rcases (hkids d c).1 hc with hc | ⟨-, rfl⟩
  · exact hr d c hc hdir
  · exact absurd hdir hnd

/-! ## A link less -/

theorem kids_remove (v : View) (hc : c ∈ (v.remove dp i).kids d) : c ∈ v.kids d := by
  by_cases e : d = dp
  · simp only [View.remove, e, update_self] at hc ⊢
    exact Multiset.mem_of_mem_erase hc
  · simpa [View.remove, e] using hc

theorem links_remove (v : View) (hi : i ∈ v.kids dp) (j : Inum) :
    (v.remove dp i).links j + (if j = i then 1 else 0) = v.links j := indeg_erase hi j

theorem subdirs_remove (v : View) (hi : i ∈ v.kids dp) (d : Inum) :
    (v.remove dp i).subdirs d + (if d = dp ∧ v.type i = .dir then 1 else 0) = v.subdirs d := by
  by_cases e : d = dp
  · subst e
    have := congrArg (Multiset.countP fun c => v.type c = .dir) (Multiset.cons_erase hi)
    rw [Multiset.countP_cons] at this
    simpa [View.subdirs, View.remove] using this
  · simp [View.subdirs, View.remove, e]

theorem unlink_type (v : View) (dp i : Inum) : (v.unlink dp i).type = v.type := by
  unfold View.unlink
  split <;> rfl

theorem unlink_up (v : View) (dp i : Inum) : (v.unlink dp i).up = v.up := by
  unfold View.unlink
  split <;> rfl

theorem unlink_kids (v : View) (dp i : Inum) : (v.unlink dp i).kids = (v.remove dp i).kids := by
  unfold View.unlink
  split <;> rfl

theorem unlink_links (v : View) (hi : i ∈ v.kids dp) (j : Inum) :
    (v.unlink dp i).links j + (if j = i then 1 else 0) = v.links j := by
  simp only [View.links, unlink_kids]
  exact links_remove v hi j

theorem unlink_nlink (v : View) (hne : i ≠ dp) (j : Inum) : (v.unlink dp i).nlink j =
    if j = i ∨ j = dp ∧ v.type i = .dir then v.nlink j - 1 else v.nlink j := by
  simp only [BitVec.sub_eq_add_neg]
  unfold View.unlink
  split
  next hdir =>
    by_cases e : j = i
    · subst e
      simp [View.remove, View.bump, hne]
    by_cases e' : j = dp
    · subst e'
      simp [View.remove, View.bump, e, hdir]
    · simp [View.remove, View.bump, e, e']
  next hdir =>
    by_cases e : j = i
    · subst e
      simp [View.remove, View.bump]
    · simp [View.remove, View.bump, e, hdir]

theorem ofNat_sub_one {n : Nat} (h : 0 < n) : BitVec.ofNat 16 n - 1 = BitVec.ofNat 16 (n - 1) := by
  obtain ⟨m, rfl⟩ := Nat.exists_eq_succ_of_ne_zero h.ne'
  apply BitVec.eq_of_toNat_eq
  simp only [BitVec.toNat_sub, BitVec.toNat_ofNat, BitVec.ofNat_eq_ofNat, Nat.succ_eq_add_one]
  omega

/-- The link count of a file goes down with its entries. -/
theorem unlink_count (h : Tree v) (hi : i ∈ v.kids dp) {j : Inum} (hj : v.type j ≠ .dir)
    (hle : v.links j ≤ (v.nlink j).toNat) :
    ((v.unlink dp i).nlink j).toNat + v.links j = (v.nlink j).toNat + (v.unlink dp i).links j := by
  have hl := unlink_links v hi j
  rw [unlink_nlink v (h.not_self hi)]
  by_cases e : j = i
  · rw [if_pos e] at hl
    rw [if_pos (.inl e), BitVec.toNat_sub]
    have := (v.nlink j).isLt
    simp only [BitVec.ofNat_eq_ofNat, BitVec.toNat_ofNat]
    omega
  have hdd : ¬ (j = i ∨ j = dp ∧ v.type i = .dir) := by
    rintro (e' | ⟨rfl, -⟩)
    · exact e e'
    · exact hj (h.dir_of_mem hi)
  rw [if_neg e] at hl
  rw [if_neg hdd]
  omega

theorem unlink (h : Tree v) (hi : i ∈ v.kids dp) (he : v.type i = .dir → v.kids i = 0) : Tree (v.unlink dp i) := by
  have hne := h.not_self hi
  have hdp := h.dir_of_mem hi
  have htype := unlink_type v dp i
  have hlinks := unlink_links v hi
  have hnlink := unlink_nlink v hne
  have hmem : ∀ {d c}, c ∈ (v.unlink dp i).kids d → c ∈ v.kids d := by
    intro d c hc
    rw [unlink_kids] at hc
    exact kids_remove v hc
  have hsubdirs : ∀ d, (v.unlink dp i).subdirs d + (if d = dp ∧ v.type i = .dir then 1 else 0) = v.subdirs d := by
    intro d
    simp only [View.subdirs, htype, unlink_kids]
    exact subdirs_remove v hi d
  refine ⟨by rw [htype]; exact h.zero, by rw [htype]; exact h.root, by rw [unlink_up]; exact h.rootUp,
    ?_, ?_, ?_, ?_, ?_, ?_, ?_⟩
  · intro j hj
    rw [htype] at hj
    have e : j ≠ dp := fun e => hj (e ▸ hdp)
    rw [unlink_kids]
    simpa [View.remove, e] using h.leaf j hj
  · intro d j hj
    rw [htype]
    exact h.alloc d j (hmem hj)
  · intro d c hc hdir
    rw [htype] at hdir
    rw [unlink_up]
    exact h.up d c (hmem hc) hdir
  · intro c hdir
    rw [htype] at hdir
    have := h.once c hdir
    have := hlinks c
    omega
  · intro d hdir
    rw [htype] at hdir
    have hex := h.exact d hdir
    have hl := hlinks d
    have hs := hsubdirs d
    rw [hnlink]
    by_cases e : d = i
    · subst e
      have hdd : ¬ (d = dp ∧ v.type d = .dir) := fun e => hne e.1
      rw [if_pos rfl] at hl
      rw [if_neg hdd] at hs
      rw [if_pos (.inl rfl), hex, ofNat_sub_one (by omega)]
      apply congrArg (BitVec.ofNat 16)
      omega
    rw [if_neg e] at hl
    by_cases e' : d = dp ∧ v.type i = .dir
    · rw [if_pos e'] at hs
      rw [if_pos (.inr e'), hex, ofNat_sub_one (by omega)]
      apply congrArg (BitVec.ofNat 16)
      omega
    rw [if_neg e'] at hs
    have hdd : ¬ (d = i ∨ d = dp ∧ v.type i = .dir) := by
      rintro (e'' | e'')
      · exact e e''
      · exact e' e''
    rw [if_neg hdd, hex]
    apply congrArg (BitVec.ofNat 16)
    omega
  · intro j hj
    rw [htype] at hj
    have hle := h.enough j hj
    have := h.unlink_count hi hj hle
    omega
  · obtain ⟨r, hr⟩ := h.rank
    refine ⟨r, ?_⟩
    intro d c hc hdir
    rw [htype] at hdir
    exact hr d c (hmem hc) hdir

/-! ## A new inode -/

section Create

variable {ty : Itype}

theorem create_type (v : View) (dp i : Inum) (ty : Itype) : (v.create dp i ty).type = update v.type i ty := by
  unfold View.create
  split
  next e =>
    rw [e]
    rfl
  · rfl

theorem create_kids (v : View) (dp i : Inum) (ty : Itype) : (v.create dp i ty).kids = (v.enter dp i).kids := by
  unfold View.create
  split <;> rfl

theorem create_up (v : View) (dp i : Inum) (j : Inum) :
    (v.create dp i ty).up j = if j = i then (if ty = .dir then dp else 0) else v.up j := by
  unfold View.create
  split <;> simp [View.enter, View.bump, View.make, update_apply]

theorem create_links (v : View) (dp i : Inum) (ty : Itype) (j : Inum) :
    (v.create dp i ty).links j = v.links j + if j = i then 1 else 0 := by
  simp only [View.links, create_kids]
  exact links_enter v dp i j

theorem create_nlink (v : View) (hne : dp ≠ i) (j : Inum) : (v.create dp i ty).nlink j =
    if j = i then 1 else if j = dp ∧ ty = .dir then v.nlink dp + 1 else v.nlink j := by
  unfold View.create
  split
  next e =>
    by_cases hj : j = i
    · simp [View.enter, View.bump, View.make, hj, Ne.symm hne]
    · by_cases hj' : j = dp
      · simp [View.enter, View.bump, View.make, hj', hne, e]
      · simp [View.enter, View.bump, View.make, hj, hj']
  next e =>
    by_cases hj : j = i
    · simp [View.enter, View.make, hj]
    · simp [View.enter, View.make, hj, e]

theorem not_kid_of_free (h : Tree v) (hi : v.type i = .free) (d : Inum) : i ∉ v.kids d :=
  fun hd => (h.alloc d i hd).1 hi

theorem create_subdirs (h : Tree v) (hi : v.type i = .free) (d : Inum) : (v.create dp i ty).subdirs d =
    v.subdirs d + if d = dp ∧ ty = .dir then 1 else 0 := by
  have hcongr : (v.kids d).countP (fun c => update v.type i ty c = .dir) = v.subdirs d := by
    apply Multiset.countP_congr rfl
    intro c hc
    have e : c ≠ i := fun e => h.not_kid_of_free hi d (e ▸ hc)
    simp [e]
  simp only [View.subdirs, create_type, create_kids]
  by_cases e : d = dp
  · subst e
    simp only [View.enter, update_self, Multiset.countP_cons, hcongr, true_and]
    rfl
  · simp only [View.enter, update_of_ne e, hcongr, e, false_and, if_false, Nat.add_zero]
    rfl

theorem ofNat_add_one (n : Nat) : BitVec.ofNat 16 n + 1 = BitVec.ofNat 16 (n + 1) := by
  apply BitVec.eq_of_toNat_eq
  simp only [BitVec.toNat_add, BitVec.toNat_ofNat, BitVec.ofNat_eq_ofNat]
  omega

theorem create (h : Tree v) (hd : v.type dp = .dir) (hi : v.type i = .free) (h0 : i ≠ 0) (hty : ty ≠ .free) :
    Tree (v.create dp i ty) := by
  have hne : dp ≠ i := by
    rintro rfl
    rw [hd] at hi
    cases hi
  have hroot : ROOTINO ≠ i := by
    rintro rfl
    rw [h.root] at hi
    cases hi
  have hno := h.not_kid_of_free hi
  have hz : v.links i = 0 := by
    rw [← Nat.le_zero, ← Nat.not_lt]
    intro hpos
    obtain ⟨d, hd⟩ := exists_of_indeg_pos hpos
    exact hno d hd
  have hi0 : v.kids i = 0 := h.leaf i (by rw [hi]; decide)
  have hkids : ∀ {d c}, c ∈ (v.create dp i ty).kids d ↔ c ∈ v.kids d ∨ d = dp ∧ c = i := by
    intro d c
    rw [create_kids]
    exact kids_enter v dp i d c
  have htype : ∀ {j}, j ≠ i → (v.create dp i ty).type j = v.type j := by
    intro j e
    rw [create_type, update_of_ne e]
  have htypei : (v.create dp i ty).type i = ty := by
    rw [create_type, update_self]
  refine ⟨by rw [htype h0.symm]; exact h.zero, by rw [htype hroot]; exact h.root, ?_, ?_, ?_, ?_, ?_, ?_, ?_, ?_⟩
  · rw [create_up, if_neg hroot]
    exact h.rootUp
  · intro j hj
    have e : j ≠ dp := by
      rintro rfl
      exact hj (by rw [htype hne]; exact hd)
    rw [create_kids]
    simp only [View.enter, update_of_ne e]
    by_cases e' : j = i
    · rw [e']
      exact hi0
    · exact h.leaf j (by rwa [htype e'] at hj)
  · intro d j hj
    rcases hkids.1 hj with hj | ⟨-, rfl⟩
    · have e : j ≠ i := fun e => hno d (e ▸ hj)
      rw [htype e]
      exact h.alloc d j hj
    · rw [htypei]
      exact ⟨hty, hroot.symm⟩
  · intro d c hc hdir
    rcases hkids.1 hc with hc | ⟨rfl, rfl⟩
    · have e : c ≠ i := fun e => hno d (e ▸ hc)
      rw [htype e] at hdir
      rw [create_up, if_neg e]
      exact h.up d c hc hdir
    · rw [htypei] at hdir
      rw [create_up, if_pos rfl, if_pos hdir]
  · intro c hdir
    rw [create_links]
    by_cases e : c = i
    · rw [e, hz, if_pos rfl]
    · rw [if_neg e, Nat.add_zero]
      exact h.once c (by rwa [htype e] at hdir)
  · intro d hdir
    rw [create_links, h.create_subdirs hi, create_nlink v hne]
    by_cases e : d = i
    · subst e
      have hs : v.subdirs d = 0 := by simp [View.subdirs, hi0]
      rw [if_pos rfl, if_pos rfl, hz, hs, if_neg (fun e => hne e.1.symm), if_neg hroot.symm]
      rfl
    rw [if_neg e, if_neg e]
    rw [htype e] at hdir
    have hex := h.exact d hdir
    by_cases e' : d = dp ∧ ty = .dir
    · rw [if_pos e', if_pos e', ← e'.1, hex, ofNat_add_one]
      apply congrArg (BitVec.ofNat 16)
      omega
    · rw [if_neg e', if_neg e', hex]
      apply congrArg (BitVec.ofNat 16)
      omega
  · intro j hj
    rw [create_links, create_nlink v hne]
    by_cases e : j = i
    · rw [if_pos e, if_pos e, e, hz]
      decide
    rw [htype e] at hj
    have hdd : ¬ (j = dp ∧ ty = .dir) := fun e' => hj (e'.1 ▸ hd)
    rw [if_neg e, if_neg e, if_neg hdd, Nat.add_zero]
    exact h.enough j hj
  obtain ⟨r, hr⟩ := h.rank
  -- the new inode ranks just above its directory; it is the holder of nothing
  refine ⟨update r i (r dp + 1), ?_⟩
  intro d c hc hdir
  rcases hkids.1 hc with hold | ⟨rfl, rfl⟩
  · have e : c ≠ i := fun e => hno d (e ▸ hold)
    have e' : d ≠ i := by
      rintro rfl
      rw [hi0] at hold
      exact Multiset.notMem_zero _ hold
    rw [htype e] at hdir
    rw [update_of_ne e, update_of_ne e']
    exact hr d c hold hdir
  · rw [update_of_ne hne, update_self]
    omega

end Create

end Tree

/-! ## What `..` names -/

/-- The `..` of `x` names a directory; that of a directory which no entry names names one that is named, or the root. -/
def Upward (v : View) (x : Inum) : Prop :=
  v.type (v.up x) = .dir ∧ (x ≠ ROOTINO → v.links x = 0 → v.up x = ROOTINO ∨ 0 < v.links (v.up x))

/-- For all directories but one, perhaps. -/
def Ups (v : View) (but : Option Inum) : Prop := ∀ x, v.type x = .dir → but ≠ some x → Upward v x

namespace Ups

variable {v : View} {dp i : Inum} {but : Option Inum}

/-- Without links, a directory is the `..` of no other. -/
theorem up_ne (h : Ups v but) (ht : Tree v) (h0 : v.nlink i = 0) {x : Inum} (hx : v.type x = .dir)
    (hb : but ≠ some x) : v.up x ≠ i := by
  rintro rfl
  obtain ⟨hdir, hnamed⟩ := h x hx hb
  obtain ⟨hl, hs, hroot⟩ := ht.of_nlink_zero hdir h0
  by_cases hxr : x = ROOTINO
  · rw [hxr] at hroot
    exact hroot ht.rootUp
  rcases Nat.eq_zero_or_pos (v.links x) with hz | hpos
  · rcases hnamed hxr hz with e | e
    · exact hroot e
    · omega
  · obtain ⟨d, hd⟩ := exists_of_indeg_pos hpos
    rw [ht.up d x hd hx] at hs
    exact Tree.no_subdir hs hd hx

theorem free (h : Ups v but) (ht : Tree v) (h0 : v.nlink i = 0) : Ups (v.free i) but := by
  intro x hx hb
  obtain ⟨e, hx⟩ := (Tree.type_free v i x).1 hx
  obtain ⟨hdir, hnamed⟩ := h x hx hb
  have hup : (v.free i).up x = v.up x := update_of_ne e _ _
  refine ⟨?_, ?_⟩
  · rw [hup]
    exact (Tree.type_free v i _).2 ⟨h.up_ne ht h0 hx hb, hdir⟩
  · rw [hup, ht.links_free_dir h0 hx, ht.links_free_dir h0 hdir]
    exact hnamed

theorem link (h : Ups v none) (hnd : v.type i ≠ .dir) : Ups (v.link dp i) none := by
  have hlinks : ∀ {c}, v.type c = .dir → (v.link dp i).links c = v.links c := by
    intro c hc
    have e : c ≠ i := fun e => hnd (e ▸ hc)
    have hl := Tree.links_enter (v.bump i 1) dp i c
    rwa [if_neg e, Nat.add_zero] at hl
  intro x hx hb
  obtain ⟨hdir, hnamed⟩ := h x hx hb
  refine ⟨hdir, ?_⟩
  rw [hlinks hx]
  show x ≠ ROOTINO → v.links x = 0 → v.up x = ROOTINO ∨ 0 < (v.link dp i).links (v.up x)
  rw [hlinks hdir]
  exact hnamed

/-- Nobody else's `..` names the directory; its own may name one that is gone from the tree. -/
theorem unlink (h : Ups v none) (hi : i ∈ v.kids dp)
    (hno : v.type i = .dir → ∀ x, x ≠ i → v.type x = .dir → v.up x ≠ i) : Ups (v.unlink dp i) (some i) := by
  intro x hx hb
  rw [Tree.unlink_type] at hx
  have e : x ≠ i := fun e => hb (e ▸ rfl)
  obtain ⟨hdir, hnamed⟩ := h x hx (by simp)
  have e' : v.up x ≠ i := fun e' => hno (e' ▸ hdir) x e hx e'
  have hlx := Tree.unlink_links v hi x
  have hlu := Tree.unlink_links v hi (v.up x)
  rw [if_neg e, Nat.add_zero] at hlx
  rw [if_neg e', Nat.add_zero] at hlu
  unfold Upward
  rw [Tree.unlink_type, Tree.unlink_up, hlx, hlu]
  exact ⟨hdir, hnamed⟩

theorem create (h : Ups v none) (hd : v.type dp = .dir) (hi : v.type i = .free) {ty : Itype} :
    Ups (v.create dp i ty) none := by
  have hne : ∀ {c}, v.type c = .dir → c ≠ i := by
    rintro c hc rfl
    rw [hc] at hi
    cases hi
  have hlinks : ∀ {c}, v.type c = .dir → (v.create dp i ty).links c = v.links c := by
    intro c hc
    rw [Tree.create_links, if_neg (hne hc), Nat.add_zero]
  have htype : ∀ {c}, v.type c = .dir → (v.create dp i ty).type c = .dir := by
    intro c hc
    rw [Tree.create_type, update_of_ne (hne hc)]
    exact hc
  intro x hx hb
  unfold Upward
  rw [Tree.create_up]
  by_cases e : x = i
  · have hty : ty = .dir := by
      rw [Tree.create_type, e, update_self] at hx
      exact hx
    rw [if_pos e, if_pos hty]
    refine ⟨htype hd, ?_⟩
    intro _ hl
    rw [Tree.create_links, if_pos e] at hl
    omega
  · rw [Tree.create_type, update_of_ne e] at hx
    obtain ⟨hdir, hnamed⟩ := h x hx hb
    rw [if_neg e, hlinks hx, hlinks hdir]
    exact ⟨htype hdir, hnamed⟩

end Ups

/-! ## Exact counts -/

/-- A directory that no entry names is empty, and the counts of files are exact too. -/
structure Exact (v : View) : Prop where
  dead : ∀ d, v.type d = .dir → d ≠ ROOTINO → v.links d = 0 → v.kids d = 0
  count : ∀ i, v.type i ≠ .dir → v.type i ≠ .free → (v.nlink i).toNat = v.links i

namespace Exact

variable {v : View} {dp i : Inum}

section

variable (h : Exact v) (ht : Tree v)
include h ht

/-- With a link count that is not zero, a directory is named or the root. -/
theorem named (hd : v.type dp = .dir) (hn : v.nlink dp ≠ 0) (hr : dp ≠ ROOTINO) : v.links dp ≠ 0 := by
  intro h0
  have hk := h.dead dp hd hr h0
  have hs : v.subdirs dp = 0 := by simp [View.subdirs, hk]
  rw [ht.exact dp hd, h0, hs, if_neg hr] at hn
  exact hn rfl

theorem free (h0 : v.nlink i = 0) : Exact (v.free i) := by
  have hk : v.kids i = 0 := by
    by_cases hi : v.type i = .dir
    · obtain ⟨hl, -, hr⟩ := ht.of_nlink_zero hi h0
      exact h.dead i hi hr hl
    · exact ht.leaf i hi
  have hlinks : ∀ j, (v.free i).links j = v.links j := by
    intro j
    have := Tree.links_free v i j
    rwa [hk, Multiset.count_zero, Nat.add_zero] at this
  refine ⟨?_, ?_⟩
  · intro d hd hr hl
    obtain ⟨e, hd⟩ := (Tree.type_free v i d).1 hd
    rw [hlinks] at hl
    simpa [View.free, e] using h.dead d hd hr hl
  intro j hj hf
  have e : j ≠ i := by
    rintro rfl
    simp [View.free] at hf
  rw [hlinks]
  simp only [View.free, update_of_ne e] at hj hf
  exact h.count j hj hf

theorem link (hd : v.type dp = .dir) (hnd : v.type i ≠ .dir) (hdp : v.nlink dp ≠ 0)
    (hn : v.nlink i ≠ -1) : Exact (v.link dp i) := by
  have hlinks : ∀ j, (v.link dp i).links j = v.links j + if j = i then 1 else 0 :=
    Tree.links_enter (v.bump i 1) dp i
  refine ⟨?_, ?_⟩
  · intro d hdir hr hl
    rw [hlinks] at hl
    have hz : v.links d = 0 := by omega
    have e : d ≠ dp := by
      rintro rfl
      exact h.named ht hd hdp hr hz
    simpa [View.link, View.enter, View.bump, e] using h.dead d hdir hr hz
  intro j hj hf
  have hc := h.count j hj hf
  rw [hlinks]
  by_cases e : j = i
  · subst e
    simp only [View.link, View.enter, View.bump, update_self, Tree.toNat_add_one hn, if_true]
    omega
  · simpa [View.link, View.enter, View.bump, e] using hc

theorem unlink (hi : i ∈ v.kids dp) (he : v.type i = .dir → v.kids i = 0) : Exact (v.unlink dp i) := by
  have hne := ht.not_self hi
  have hlinks := Tree.unlink_links v hi
  refine ⟨?_, ?_⟩
  · intro d hd hr hl
    rw [Tree.unlink_type] at hd
    have hl' := hlinks d
    rw [Tree.unlink_kids]
    by_cases e : d = i
    · have e' : d ≠ dp := fun e' => hne (e ▸ e')
      simp only [View.remove, update_of_ne e']
      rw [e]
      exact he (e ▸ hd)
    rw [if_neg e, hl] at hl'
    have hk := h.dead d hd hr hl'.symm
    have e' : d ≠ dp := by
      rintro rfl
      rw [hk] at hi
      exact Multiset.notMem_zero _ hi
    simpa [View.remove, e'] using hk
  intro j hj hf
  rw [Tree.unlink_type] at hj hf
  have hc := h.count j hj hf
  have := ht.unlink_count hi hj (ht.enough j hj)
  omega

theorem create (hd : v.type dp = .dir) (hi : v.type i = .free) (hdp : v.nlink dp ≠ 0)
    {ty : Itype} : Exact (v.create dp i ty) := by
  have hne : dp ≠ i := by
    rintro rfl
    rw [hd] at hi
    cases hi
  have hz : v.links i = 0 := by
    rw [← Nat.le_zero, ← Nat.not_lt]
    intro hpos
    obtain ⟨d, hd⟩ := exists_of_indeg_pos hpos
    exact ht.not_kid_of_free hi d hd
  refine ⟨?_, ?_⟩
  · intro d hdir hr hl
    rw [Tree.create_links] at hl
    have e : d ≠ i := by
      rintro rfl
      rw [if_pos rfl] at hl
      omega
    rw [Tree.create_type, update_of_ne e] at hdir
    have hl0 : v.links d = 0 := by omega
    have e' : d ≠ dp := by
      rintro rfl
      exact h.named ht hd hdp hr hl0
    rw [Tree.create_kids]
    simpa [View.enter, e'] using h.dead d hdir hr hl0
  intro j hj hf
  rw [Tree.create_links, Tree.create_nlink v hne]
  by_cases e : j = i
  · rw [if_pos e, if_pos e, e, hz]
    rfl
  rw [Tree.create_type, update_of_ne e] at hj hf
  have hdd : ¬ (j = dp ∧ ty = .dir) := fun e' => hj (e'.1 ▸ hd)
  rw [if_neg e, if_neg e, if_neg hdd, Nat.add_zero]
  exact h.count j hj hf

end

end Exact

end Xv6.Fs
