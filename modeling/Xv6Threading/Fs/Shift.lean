import Xv6Threading.Fs.Run

/-!
# What does not depend on a link count

`iput` and `sys_unlink` are the only readers of a link count, and `iput` only asks whether it is zero. So a run in which
the count of a file stays off zero is the same run with another count in its place, as long as that stays off zero too.
-/

namespace Xv6.Fs

open Function

/-- A file, and its link count. -/
structure Counts (i : Inum) (c : BitVec 16) (s : Store) : Prop where
  file : (s.node i).type = .file
  count : (s.node i).nlink = c

/-- The results of the two runs. -/
abbrev shift {α : Type} (i : Inum) (k : BitVec 16) (r : Store × α) : Store × α := (r.1.addLink i k, r.2)

section Shift

variable {i : Inum} {c k : BitVec 16} {s : Store} {α : Type} {j : Inum}

theorem Store.ext_node {s s' : Store} (hn : s.node = s'.node) (hr : s.ref = s'.ref) (hv : s.valid = s'.valid) :
    s = s' := by
  obtain ⟨a, b, d⟩ := s
  obtain ⟨a', b', d'⟩ := s'
  have ha : a = a' := Vector.ext fun j hj => congrFun hn ⟨j, hj⟩
  have hb : b = b' := Vector.ext fun j hj => congrFun hr ⟨j, hj⟩
  have hd : d = d' := Vector.ext fun j hj => congrFun hv ⟨j, hj⟩
  rw [ha, hb, hd]

/-- Changes that leave link counts alone, or are made to another inode, come before or after. -/
theorem modify_addLink {f : Inode → Inode}
    (hf : j = i → ∀ x : Inode, f { x with nlink := x.nlink + k } = { f x with nlink := (f x).nlink + k }) :
    (s.addLink i k).modify j f = (s.modify j f).addLink i k := by
  apply Store.ext_node
  · simp only [Store.node_modify, Store.node_addLink, bumped]
    by_cases e : j = i
    · subst e
      simp only [update_self, update_idem, hf rfl]
    · rw [update_of_ne e, update_of_ne (Ne.symm e), update_comm e]
  · rfl
  · rfl

theorem writei_addLink (dp : Inum) (off : Nat) (e : Dirent) :
    (s.addLink i k).writei dp off e = (s.writei dp off e).addLink i k :=
  modify_addLink fun _ _ => rfl

theorem addLink_addLink (j : Inum) (m : BitVec 16) : (s.addLink i k).addLink j m = (s.addLink j m).addLink i k :=
  modify_addLink fun _ x => by rw [BitVec.add_assoc, BitVec.add_comm k m, ← BitVec.add_assoc]

theorem ifree_addLink (j : Inum) : (s.addLink i k).ifree j = (s.ifree j).addLink i k := by
  unfold Store.ifree
  rw [modify_addLink fun _ _ => rfl]
  rfl

theorem Counts.of_node {s' : Store} (h : Counts i c s) (ht : (s'.node i).type = (s.node i).type)
    (hn : (s'.node i).nlink = (s.node i).nlink) : Counts i c s' := ⟨ht.trans h.file, hn.trans h.count⟩

theorem Counts.writei (h : Counts i c s) (dp : Inum) (off : Nat) (e : Dirent) : Counts i c (s.writei dp off e) := by
  apply h.of_node
  · rw [Store.node_writei, written_type]
  · rw [Store.node_writei, written_nlink]

theorem Counts.addLink (h : Counts i c s) (m : BitVec 16) : Counts i (c + m) (s.addLink i m) := by
  refine ⟨?_, ?_⟩
  · rw [Store.node_addLink, bumped_type]
    exact h.file
  · rw [Store.node_addLink, bumped, update_self, h.count]

theorem Counts.addLink_ne (h : Counts i c s) (hj : j ≠ i) (m : BitVec 16) : Counts i c (s.addLink j m) := by
  apply h.of_node
  · rw [Store.node_addLink, bumped_type]
  · rw [Store.node_addLink, bumped, update_of_ne hj.symm]

variable (hc : c ≠ 0) (hk : c + k ≠ 0) (h : Counts i c s) {dp ip : Inum}

section NoPut

include h

theorem iget_mirrors (j : Inum) : Mirrors (·.addLink i k) (Counts i c) (s.iget j) ((s.addLink i k).iget j) := by
  have hrefs : (s.addLink i k).refs = s.refs := rfl
  unfold Store.iget
  rw [Store.ref_addLink, hrefs]
  by_cases hr : 0 < s.ref j
  · have h1 : Counts i c (s.setRef j (s.ref j + 1)) := ⟨h.file, h.count⟩
    rw [if_pos hr, if_pos hr]
    exact .ret h1
  have h1 : Counts i c ((s.setRef j 1).setValid j false) := ⟨h.file, h.count⟩
  rw [if_neg hr, if_neg hr]
  split
  · exact .stop
  · exact .ret h1

theorem ilock_mirrors (j : Inum) : Mirrors (·.addLink i k) (Counts i c) (s.ilock j) ((s.addLink i k).ilock j) := by
  unfold Store.ilock
  simp only [Store.ref_addLink, Store.valid_addLink, Store.node_addLink, bumped_type]
  split
  · exact .stop
  split
  · exact .ret h
  split
  · exact .stop
  · have h1 : Counts i c (s.setValid j true) := ⟨h.file, h.count⟩
    exact .ret h1

theorem dirlookup_mirrors (dp : Inum) (name : Name) : Mirrors (shift i k) (Counts i c ·.1)
    (s.dirlookup dp name) ((s.addLink i k).dirlookup dp name) := by
  unfold Store.dirlookup
  simp only [Store.node_addLink, bumped_type, bumped_ents]
  split
  · exact .stop
  cases Store.findName (s.node dp).ents name with
  | none => exact .ret h
  | some off =>
    apply (iget_mirrors h _).bind
    intro s1 _ h1
    exact .ret h1

theorem ialloc_mirrors (ty : Itype) : Mirrors (shift i k) (fun r => Counts i c r.1 ∧ r.2 ≠ i)
    (s.ialloc ty) ((s.addLink i k).ialloc ty) := by
  unfold Store.ialloc
  simp only [Store.node_addLink, bumped_type]
  cases hfind : Fin.find? fun j : Inum => decide (j ≠ 0 ∧ (s.node j).type = .free) with
  | none => exact .stop
  | some j =>
    have hj := (Fin.find?_eq_some_iff.1 hfind).1
    simp only [ne_eq, decide_eq_true_eq] at hj
    have hne : j ≠ i := by
      rintro rfl
      rw [h.file] at hj
      cases hj.2
    have hset : (s.addLink i k).setNode j { Inode.zero with type := ty } =
        (s.setNode j { Inode.zero with type := ty }).addLink i k :=
      modify_addLink (f := fun _ => { Inode.zero with type := ty }) fun e => absurd e hne
    have h1 : Counts i c (s.setNode j { Inode.zero with type := ty }) := by
      apply h.of_node <;> rw [Store.node_setNode, update_of_ne hne.symm]
    dsimp only
    rw [hset]
    apply (iget_mirrors h1 j).bind
    intro s1 _ h2
    exact .ret ⟨h2, hne⟩

end NoPut

include hc hk h

theorem iput_addLink (j : Inum) : (s.addLink i k).iput j = (s.iput j).addLink i k ∧ Counts i c (s.iput j) := by
  have hiff : ((s.addLink i k).node j).nlink = 0 ↔ (s.node j).nlink = 0 := by
    by_cases e : j = i
    · subst e
      rw [(h.addLink k).count, h.count]
      exact iff_of_false hk hc
    · rw [Store.node_addLink, bumped, update_of_ne e]
  unfold Store.iput
  simp only [hiff, Store.valid_addLink, Store.ref_addLink]
  split
  next hz =>
    have hne : j ≠ i := by
      rintro rfl
      exact hc (h.count.symm.trans hz.2.1)
    refine ⟨?_, ?_⟩
    · rw [ifree_addLink]
      rfl
    · apply h.of_node <;> simp [Store.ifree, hne.symm]
  · exact ⟨rfl, h.file, h.count⟩

/-- A way out that puts an inode back. -/
theorem iput_mirrors (j : Inum) (a : α) : Mirrors (shift i k) (Counts i c ·.1)
    (.ok (s.iput j, a) : Except Panic (Store × α)) (.ok ((s.addLink i k).iput j, a)) := by
  obtain ⟨heq, h1⟩ := iput_addLink hc hk h j
  rw [heq]
  exact .ret h1

theorem dirlink_mirrors (dp : Inum) (name : Name) (j : Inum) : Mirrors (shift i k) (Counts i c ·.1)
    (s.dirlink dp name j) ((s.addLink i k).dirlink dp name j) := by
  apply (dirlookup_mirrors h dp name).bind
  rintro ⟨s1, r⟩ - h1
  cases r with
  | some q => exact iput_mirrors hc hk h1 q.1 false
  | none =>
    dsimp only
    simp only [Store.node_addLink, bumped_ents]
    split
    · exact .stop
    · rw [writei_addLink]
      exact .ret (h1.writei _ _ _)

theorem mustLink_mirrors (dp : Inum) (name : Name) (j : Inum) (e : Panic) : Mirrors (·.addLink i k) (Counts i c)
    (s.mustLink dp name j e) ((s.addLink i k).mustLink dp name j e) := by
  apply (dirlink_mirrors hc hk h dp name j).bind
  rintro ⟨s1, ok⟩ - h1
  cases ok with
  | true => exact .ret h1
  | false => exact .stop

omit h in
theorem namexLoop_mirrors (parent : Bool) (fuel : Nat) : ∀ {s : Store} (_ : Counts i c s) (ip : Inum)
    (path : List UInt8) (name : Name), Mirrors (shift i k) (Counts i c ·.1)
      (s.namexLoop parent fuel ip path name) ((s.addLink i k).namexLoop parent fuel ip path name) := by
  induction fuel with
  | zero => exact fun h _ _ _ => .ret h
  | succ fuel ih =>
    intro s h ip path name
    unfold Store.namexLoop
    cases skipelem path with
    | none =>
      dsimp only
      split
      · exact iput_mirrors hc hk h ip none
      · exact .ret h
    | some q =>
      obtain ⟨elem, rest⟩ := q
      dsimp only
      apply (ilock_mirrors h ip).bind
      intro s1 _ h1
      simp only [Store.node_addLink, bumped_type]
      split
      · exact iput_mirrors hc hk h1 ip none
      split
      · exact .ret h1
      apply (dirlookup_mirrors h1 ip elem).bind
      rintro ⟨s2, r⟩ - h2
      cases r with
      | none => exact iput_mirrors hc hk h2 ip none
      | some q =>
        obtain ⟨heq, h3⟩ := iput_addLink hc hk h2 ip
        dsimp only [shift]
        rw [heq]
        exact ih h3 q.1 rest elem

theorem namex_mirrors (cwd : Inum) (path : List UInt8) (parent : Bool) : Mirrors (shift i k) (Counts i c ·.1)
    (s.namex cwd path parent) ((s.addLink i k).namex cwd path parent) := by
  unfold Store.namex
  split
  · have hget : Mirrors (shift i k) (Counts i c ·.1) ((s.iget ROOTINO).map (·, ROOTINO))
        (((s.addLink i k).iget ROOTINO).map (·, ROOTINO)) :=
      (iget_mirrors h ROOTINO).map (fun _ => rfl) fun _ h => h
    apply hget.bind
    rintro ⟨s1, ip⟩ - h1
    exact namexLoop_mirrors hc hk parent _ h1 ip path []
  · exact namexLoop_mirrors hc hk parent _ (s := s.idup cwd) ⟨h.file, h.count⟩ cwd path []

theorem namei_mirrors (cwd : Inum) (path : List UInt8) : Mirrors (shift i k) (Counts i c ·.1)
    (s.namei cwd path) ((s.addLink i k).namei cwd path) :=
  (namex_mirrors hc hk h cwd path false).map (fun _ => rfl) fun _ h => h

theorem fillNew_mirrors (hdp : dp ≠ i) (hip : ip ≠ i) (ty : Itype) (major minor : BitVec 16) :
    Mirrors (·.addLink i k) (Counts i c) (s.fillNew dp ip ty major minor)
      ((s.addLink i k).fillNew dp ip ty major minor) := by
  apply (ilock_mirrors h ip).bind
  intro s1 _ h1
  dsimp only
  rw [modify_addLink fun e => absurd e hip]
  generalize ht : s1.modify ip (fun n => { n with major := major, minor := minor, nlink := 1 }) = t
  have h2 : Counts i c t := by
    rw [← ht]
    apply h1.of_node <;> rw [Store.node_modify, update_of_ne hip.symm]
  split
  · rw [addLink_addLink]
    apply (mustLink_mirrors hc hk (h2.addLink_ne hdp 1) ip dot ip .createDots).bind
    intro s3 _ h3
    exact mustLink_mirrors hc hk h3 ip dotdot dp .createDots
  · exact .ret h2

theorem create_mirrors (cwd : Inum) (path : List UInt8) (ty : Itype) (major minor : BitVec 16) :
    Mirrors (shift i k) (Counts i c ·.1) (s.create cwd path ty major minor)
      ((s.addLink i k).create cwd path ty major minor) := by
  apply (namex_mirrors hc hk h cwd path true).bind
  rintro ⟨s1, r⟩ - h1
  cases r with
  | none => exact .ret h1
  | some q =>
    obtain ⟨dp, name⟩ := q
    apply (ilock_mirrors h1 dp).bind
    intro s2 _ h2
    apply (dirlookup_mirrors h2 dp name).bind
    rintro ⟨s3, r⟩ hr h3
    cases r with
    | some q =>
      obtain ⟨heq, h4⟩ := iput_addLink hc hk h3 dp
      dsimp only [shift]
      rw [heq]
      apply (ilock_mirrors h4 q.1).bind
      intro s5 _ h5
      simp only [Store.node_addLink, bumped_type]
      split
      · exact .ret h5
      · exact iput_mirrors hc hk h5 q.1 none
    | none =>
      -- only a directory is looked into
      have hdp : dp ≠ i := by
        rintro rfl
        rw [Store.dirlookup, if_pos (by rw [h2.file]; decide)] at hr
        cases hr
      apply (ialloc_mirrors h3 ty).bind
      rintro ⟨s4, ip⟩ - ⟨h4, hip⟩
      apply (fillNew_mirrors hc hk h4 hdp hip ty major minor).bind
      intro s5 _ h5
      apply (mustLink_mirrors hc hk h5 dp name ip .createDirlink).bind
      intro s6 _ h6
      exact iput_mirrors hc hk h6 dp (some ip)

/-- Whether or not it is the file's own count that goes back from `c` to `b`. -/
theorem unbump_mirrors {ip : Inum} {b : BitVec 16} (hb : b ≠ 0) (hbk : b + k ≠ 0)
    (hback : ip = i ∧ c = b + 1 ∨ ip ≠ i ∧ c = b) : Mirrors (·.addLink i k) (fun _ => True)
      (s.unbump ip) ((s.addLink i k).unbump ip) := by
  apply (ilock_mirrors h ip).bind
  intro s1 _ h1
  have h2 : Counts i b (s1.addLink ip (-1)) := by
    rcases hback with ⟨rfl, rfl⟩ | ⟨hne, rfl⟩
    · have h2 := h1.addLink (-1)
      rwa [BitVec.add_assoc, show (1 : BitVec 16) + -1 = 0#16 from rfl, BitVec.add_zero] at h2
    · exact h1.addLink_ne hne _
  have heq := (iput_addLink hb hbk h2 ip).1
  rw [← addLink_addLink] at heq
  rw [heq]
  exact .ret trivial

theorem link_mirrors (hc' : c + 1 ≠ 0) (hk' : c + 1 + k ≠ 0) (cwd : Inum) (old new : List UInt8) :
    Mirrors (shift i k) (fun _ => True) (s.link cwd old new) ((s.addLink i k).link cwd old new) := by
  apply (namei_mirrors hc hk h cwd old).bind
  rintro ⟨s1, r⟩ - h1
  cases r with
  | none => exact .ret trivial
  | some ip =>
    apply (ilock_mirrors h1 ip).bind
    intro s2 _ h2
    simp only [Store.node_addLink, bumped_type]
    split
    · exact (iput_mirrors hc hk h2 ip false).mono fun _ _ => trivial
    obtain ⟨b, hb, hbk, h3, hback⟩ : ∃ b, b ≠ 0 ∧ b + k ≠ 0 ∧ Counts i b (s2.addLink ip 1) ∧
        (ip = i ∧ b = c + 1 ∨ ip ≠ i ∧ b = c) := by
      by_cases e : ip = i
      · subst e
        exact ⟨c + 1, hc', hk', h2.addLink 1, .inl ⟨rfl, rfl⟩⟩
      · exact ⟨c, hc, hk, h2.addLink_ne e 1, .inr ⟨e, rfl⟩⟩
    rw [addLink_addLink]
    apply (namex_mirrors hb hbk h3 cwd new true).bind
    rintro ⟨s4, r⟩ - h4
    cases r with
    | none => exact (unbump_mirrors hb hbk h4 hc hk hback).map (fun _ => rfl) fun _ h => h
    | some q =>
      obtain ⟨dp, name⟩ := q
      apply (ilock_mirrors h4 dp).bind
      intro s5 _ h5
      apply (dirlink_mirrors hb hbk h5 dp name ip).bind
      rintro ⟨s6, ok⟩ - h6
      obtain ⟨heq, h7⟩ := iput_addLink hb hbk h6 dp
      dsimp only [shift]
      rw [heq]
      cases ok with
      | true => exact (iput_mirrors hb hbk h7 ip true).mono fun _ _ => trivial
      | false => exact (unbump_mirrors hb hbk h7 hc hk hback).map (fun _ => rfl) fun _ h => h

omit hc hk h in
/-- What `unlink` is about to remove. -/
def target (s : Store) (cwd : Inum) (path : List UInt8) : Except Panic (Option Inum) := do
  let (s, r) ← s.nameiparent cwd path
  match r with
  | none => return none
  | some (dp, name) =>
    let s ← s.ilock dp
    let (_, r) ← s.dirlookup dp name
    return r.map (·.1)

theorem clearEnt_addLink (hdp : dp ≠ i) (hip : ip ≠ i) (off : Nat) :
    (s.addLink i k).clearEnt dp ip off = (s.clearEnt dp ip off).addLink i k := by
  unfold Store.clearEnt
  simp only [writei_addLink, Store.node_addLink, bumped_type]
  have h1 := h.writei dp off ⟨0, []⟩
  generalize s.writei dp off ⟨0, []⟩ = s1 at h1 ⊢
  obtain ⟨s2, h2, hs2⟩ : ∃ s2, Counts i c s2 ∧ ((if (s1.node ip).type = .dir then s1.addLink dp (-1) else s1) = s2 ∧
      (if (s1.node ip).type = .dir then (s1.addLink i k).addLink dp (-1) else s1.addLink i k) = s2.addLink i k) := by
    by_cases hdir : (s1.node ip).type = .dir
    · simp only [hdir, if_true]
      exact ⟨_, h1.addLink_ne hdp _, rfl, addLink_addLink dp (-1)⟩
    · simp only [hdir, if_false]
      exact ⟨_, h1, rfl, rfl⟩
  rw [hs2.1, hs2.2]
  obtain ⟨heq, h3⟩ := iput_addLink hc hk h2 dp
  rw [heq, addLink_addLink]
  exact (iput_addLink hc hk (h3.addLink_ne hip _) ip).1

theorem unlink_mirrors (cwd : Inum) (path : List UInt8) (ht : target s cwd path ≠ .ok (some i)) :
    Mirrors (shift i k) (fun _ => True) (s.unlink cwd path) ((s.addLink i k).unlink cwd path) := by
  have hend : ∀ {s : Store} (_ : Counts i c s) (j : Inum), Mirrors (shift i k) (fun _ => True)
      (.ok (s.iput j, false) : Except Panic (Store × Bool)) (.ok ((s.addLink i k).iput j, false)) :=
    fun h j => (iput_mirrors hc hk h j false).mono fun _ _ => trivial
  apply (namex_mirrors hc hk h cwd path true).bind
  rintro ⟨s1, r⟩ e1 h1
  cases r with
  | none => exact .ret trivial
  | some q =>
    obtain ⟨dp, name⟩ := q
    apply (ilock_mirrors h1 dp).bind
    intro s2 e2 h2
    dsimp only
    split
    · exact hend h2 dp
    apply (dirlookup_mirrors h2 dp name).bind
    rintro ⟨s3, r⟩ e3 h3
    cases r with
    | none => exact hend h3 dp
    | some q =>
      obtain ⟨ip, off⟩ := q
      have hip : ip ≠ i := by
        rintro rfl
        apply ht
        unfold target Store.nameiparent
        simp only [e1, e2, e3, bind, Except.bind, pure, Except.pure, Option.map_some]
      have hdp : dp ≠ i := by
        rintro rfl
        rw [Store.dirlookup, if_pos (by rw [h2.file]; decide)] at e3
        cases e3
      apply (ilock_mirrors h3 ip).bind
      intro s4 _ h4
      have hsame : (s4.addLink i k).node ip = s4.node ip := by
        rw [Store.node_addLink, bumped, update_of_ne hip]
      rw [hsame]
      split
      · exact .stop
      split
      · have hput := iput_addLink hc hk h4 ip
        rw [hput.1]
        exact hend hput.2 dp
      · rw [clearEnt_addLink hc hk h4 hdp hip]
        exact .ret trivial

end Shift

/-! ## Steps and runs -/

/-- The same state with another link count. -/
def World.shift (w : World) (i : Inum) (k : BitVec 16) : World := w.setFs (w.fs.addLink i k)

/-- A call that keeps the count of the file `i` at `c` or moves it to `c + 1`. -/
def Calm (i : Inum) (c : BitVec 16) (w : World) (a : Act) : Prop :=
  (w.fs.node i).type = .file ∧
    match a.call with
    | .mkdir _ | .chdir _ => (w.fs.node i).nlink = c ∨ (w.fs.node i).nlink = c + 1
    | .link _ _ => (w.fs.node i).nlink = c
    | .unlink path => (w.fs.node i).nlink = c ∧ ∀ t ∈ w.task a.p, target w.fs t.cwd path ≠ .ok (some i)
    | _ => False

instance (i : Inum) (c : BitVec 16) (w : World) (a : Act) : Decidable (Calm i c w a) :=
  match a with
  | ⟨_, .mkdir _⟩ | ⟨_, .chdir _⟩ =>
    inferInstanceAs (Decidable ((w.fs.node i).type = .file ∧ ((w.fs.node i).nlink = c ∨ (w.fs.node i).nlink = c + 1)))
  | ⟨_, .link _ _⟩ => inferInstanceAs (Decidable ((w.fs.node i).type = .file ∧ (w.fs.node i).nlink = c))
  | ⟨p, .unlink path⟩ =>
    inferInstanceAs (Decidable ((w.fs.node i).type = .file ∧ (w.fs.node i).nlink = c ∧
      ∀ t ∈ w.task p, target w.fs t.cwd path ≠ .ok (some i)))
  | ⟨_, .mknod _ _ _⟩ | ⟨_, .open _ _⟩ | ⟨_, .close _⟩ | ⟨_, .dup _⟩ | ⟨_, .fork _⟩ | ⟨_, .exit⟩ =>
    inferInstanceAs (Decidable ((w.fs.node i).type = .file ∧ False))

section Run

variable {i : Inum} {c k : BitVec 16} (hc : c ≠ 0) (hc' : c + 1 ≠ 0) (hk : c + k ≠ 0) (hk' : c + 1 + k ≠ 0)
  {w : World}

theorem chdir_mirrors (hc : c ≠ 0) (hk : c + k ≠ 0) (h : Counts i c w.fs) (p : Slot) (t : Task)
    (path : List UInt8) :
    Mirrors (·.shift i k) (fun _ => True) (w.chdir p t path) ((w.shift i k).chdir p t path) := by
  apply (namei_mirrors hc hk h t.cwd path).bind
  rintro ⟨s1, r⟩ - h1
  cases r with
  | none => exact .ret (a := w.setFs s1) trivial
  | some ip =>
    apply (ilock_mirrors h1 ip).bind
    intro s2 _ h2
    simp only [Store.node_addLink, bumped_type]
    split
    · rw [(iput_addLink hc hk h2 ip).1]
      exact .ret (a := w.setFs (s2.iput ip)) trivial
    · rw [(iput_addLink hc hk h2 t.cwd).1]
      exact .ret (a := (w.setFs (s2.iput t.cwd)).setTask p (some { t with cwd := ip })) trivial

theorem mkdir_mirrors (hc : c ≠ 0) (hk : c + k ≠ 0) (h : Counts i c w.fs) (t : Task)
    (path : List UInt8) : Mirrors (Option.map (·.shift i k)) (fun _ => True)
      ((w.fs.create t.cwd path .dir 0 0).map fun (s, r) => some (w.setFs (r.elim s s.iput)))
      (((w.fs.addLink i k).create t.cwd path .dir 0 0).map fun (s, r) =>
        some ((w.shift i k).setFs (r.elim s s.iput))) := by
  have hcr := create_mirrors hc hk h t.cwd path .dir 0 0
  refine ⟨?_, fun _ _ => trivial⟩
  rw [hcr.eq]
  cases hx : w.fs.create t.cwd path .dir 0 0 with
  | error e => rfl
  | ok r =>
    obtain ⟨s, r⟩ := r
    cases r with
    | none => rfl
    | some ip =>
      have heq := (iput_addLink hc hk (hcr.holds _ hx) ip).1
      simp only [Except.map, Option.elim_some, Option.map_some, heq]
      rfl

include hc hc' hk hk'

theorem step_shift {a : Act} (h : Calm i c w a) : (w.shift i k).step a = (w.step a).map (·.shift i k) := by
  obtain ⟨p, call⟩ := a
  obtain ⟨hfile, hcall⟩ := h
  have hsome : ∀ {x y : Except Panic World}, Mirrors (·.shift i k) (fun _ => True) x y →
      Mirrors (Option.map (·.shift i k)) (fun _ => True) (x.map some) (y.map some) :=
    fun h => h.map (fun _ => rfl) fun _ h => h
  have htask : (w.shift i k).task p = w.task p := rfl
  have hmirrors : Mirrors (Option.map (·.shift i k)) (fun _ => True) (w.call ⟨p, call⟩)
      ((w.shift i k).call ⟨p, call⟩) := by
    unfold World.call
    dsimp only at hcall ⊢
    rw [htask]
    cases ht : w.task p with
    | none => exact .ret trivial
    | some t =>
      cases call with
      | mkdir path =>
        rcases hcall with hn | hn
        · exact mkdir_mirrors hc hk ⟨hfile, hn⟩ t path
        · exact mkdir_mirrors hc' hk' ⟨hfile, hn⟩ t path
      | chdir path =>
        rcases hcall with hn | hn
        · exact hsome (chdir_mirrors hc hk ⟨hfile, hn⟩ p t path)
        · exact hsome (chdir_mirrors hc' hk' ⟨hfile, hn⟩ p t path)
      | link old new =>
        exact (link_mirrors hc hk ⟨hfile, hcall⟩ hc' hk' t.cwd old new).map (fun _ => rfl) fun _ h => h
      | unlink path =>
        exact (unlink_mirrors hc hk ⟨hfile, hcall.1⟩ t.cwd path (hcall.2 t ht)).map (fun _ => rfl) fun _ h => h
      | mknod | «open» | close | dup | fork | exit => exact hcall.elim
  unfold World.step
  rw [hmirrors.eq]
  cases w.call ⟨p, call⟩ <;> rfl

theorem run_shift : ∀ (as : List Act) {w w' : World}, machine.run (Calm i c) w as = some w' →
    machine.run (fun _ _ => True) (w.shift i k) as = some (w'.shift i k)
  | [], w, w', h => by
    simp only [Machine.run, Option.some.injEq] at h ⊢
    rw [h]
  | a :: as, w, w', h => by
    simp only [Machine.run, Option.ite_none_right_eq_some, Option.bind_eq_some_iff] at h
    obtain ⟨hcalm, v, hv, h⟩ := h
    have hstep : machine.step (w.shift i k) a = some (v.shift i k) := by
      show (w.shift i k).step a = _
      rw [step_shift hc hc' hk hk' hcalm, show w.step a = some v from hv]
      rfl
    rw [Machine.run, if_pos trivial, hstep]
    exact run_shift as h

end Run

theorem reach_step {w w' : World} {a : Act} (h : machine.Reach w) (hs : w.step a = some w') : machine.Reach w' :=
  Machine.ReachBy.step h trivial hs

theorem World.shift_shift (w : World) (i : Inum) (k m : BitVec 16) : (w.shift i k).shift i m = w.shift i (k + m) := by
  have hs : (w.fs.addLink i k).addLink i m = w.fs.addLink i (k + m) := by
    apply Store.ext_node
    · simp [Store.node_addLink, bumped, BitVec.add_assoc]
    · rfl
    · rfl
  show (w.setFs (w.fs.addLink i k)).setFs ((w.fs.addLink i k).addLink i m) = w.shift i (k + m)
  rw [hs]
  rfl

theorem World.shift_zero (w : World) (i : Inum) : w.shift i 0 = w := by
  have hs : w.fs.addLink i 0 = w.fs := by
    apply Store.ext_node
    · simp [Store.node_addLink, bumped]
    · rfl
    · rfl
  rw [World.shift, hs]
  rfl

/-- **A round that adds one to a link count can be made again and again**, until the count is at its end. -/
theorem rounds {i : Inum} {c : BitVec 16} {w : World} {round : List Act} (hw : machine.Reach w)
    (hround : machine.run (Calm i c) w round = some (w.shift i 1)) (hc : c ≠ 0) :
    ∀ k : Nat, c.toNat + k < 2 ^ 16 → machine.Reach (w.shift i (BitVec.ofNat 16 k)) := by
  intro k
  induction k with
  | zero =>
    intro _
    rwa [show BitVec.ofNat 16 0 = 0 from rfl, World.shift_zero]
  | succ k ih =>
    intro hlt
    have hne : ∀ {x : BitVec 16}, x.toNat ≠ 0 → x ≠ 0 := by
      rintro x hx rfl
      exact hx rfl
    have hpos : c.toNat ≠ 0 := by
      intro h0
      exact hc (BitVec.eq_of_toNat_eq h0)
    have hk : (BitVec.ofNat 16 k).toNat = k := by
      rw [BitVec.toNat_ofNat, Nat.mod_eq_of_lt (by omega)]
    have hone : (c + 1).toNat = c.toNat + 1 := by
      rw [BitVec.toNat_add]
      exact Nat.mod_eq_of_lt (show c.toNat + 1 < 2 ^ 16 by omega)
    apply Machine.reachBy_of_run round (ih (by omega))
    rw [BitVec.ofNat_add, BitVec.add_comm, ← World.shift_shift]
    apply run_shift hc (hne (by omega)) _ _ round hround
    · apply hne
      rw [BitVec.toNat_add, hk, Nat.mod_eq_of_lt (by omega)]
      omega
    · apply hne
      rw [BitVec.toNat_add, hone, hk, Nat.mod_eq_of_lt (by omega)]
      omega

end Xv6.Fs
