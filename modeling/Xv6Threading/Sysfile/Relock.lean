import Xv6Threading.Fs.Image
import Xv6Threading.Sysfile.Alone

/-!
# Which calls wait for themselves

`iput` takes the lock of the inode, and `dirlookup` may return the directory it searches. `sys_link` looks the new
name up in a directory whose lock it holds and puts back what it finds; `sys_unlink` locks what it finds. All other
calls give up the directory before they lock or put back what they found in it, and the inode that `create` makes is
not the directory it is made in.
-/

namespace Xv6.Sysfile

open Function
open Fs (Name Inum Store lookup dot dotdot)

section Rules

variable {F α : Type} [DecidableEq F] {s : Alone F} {ip dp : Inum} {name : Name} {Q : α → Alone F → Prop}
  {U : Unit → Alone F → Prop} {β : Type}

theorem alone_looks (J : Alone F → Prop) : Looks alone J where
  memory := .ask fun _ hg => ⟨trivial, fun _ _ => hg⟩
  fields _ := .ask fun _ hg => ⟨trivial, fun _ _ => hg⟩
  readDe _ _ := .ask fun _ hg => ⟨trivial, fun _ _ => hg⟩
  panic _ _ _ _ _ := ⟨trivial, fun r => r.elim⟩

theorem not_lone_iput (h : ip ∈ s.locks) : ¬ Sys.Lone U (iput ip) s :=
  fun hno => hno.1 h

theorem lone_addLink (k : BitVec 16) : Sys.Lone U (addLink ip k) s ↔ U () (s.setStore (s.store.addLink ip k)) := by
  have hlink : s.store.modify ip (assigned · { dinode (s.store.node ip) with
      nlink := (dinode (s.store.node ip)).nlink + k }) = s.store.addLink ip k := by
    simp [Store.addLink, Store.modify, assigned, dinode]
  unfold addLink
  rw [lone_fields, lone_det (a := .inl (.assign ip _)) () trivial done, ← hlink]
  exact ⟨fun hQ => hQ.2 () trivial, fun hQ => ⟨trivial, fun _ _ => hQ⟩⟩

theorem lone_inum {P : β → Alone F → Prop} {f : Nat → Sys Inum F β} :
    Sys.Lone P (inum ip >>= f) s ↔ Sys.Lone P (f ip.val) s :=
  lone_det (a := .inl (.inum ip)) _ trivial fun _ => Iff.rfl

theorem lone_dev {P : β → Alone F → Prop} {f : Nat → Sys Inum F β} :
    Sys.Lone P (dev ip >>= f) s ↔ Sys.Lone P (f ROOTDEV) s :=
  lone_det (a := .inl (.dev ip)) _ trivial fun _ => Iff.rfl

/-- What comes after an unlock does not depend on the count. -/
theorem iunlock_free (h : ip ∈ s.locks) (hQ : U () (s.unlock ip)) : Sys.Lone U (iunlock ip) s :=
  (lone_iunlock h).2 fun _ => hQ

theorem iunlockput_free (h : ip ∈ s.locks)
    (hQ : U () ((s.setStore (s.store.iput ip)).unlock ip)) : Sys.Lone U (iunlockput ip) s := by
  unfold iunlockput
  rw [lone_bind]
  exact iunlock_free h ((lone_iput (by simp)).2 hQ)

theorem ilock_free (h : ip ∉ s.locks) (hQ : ∀ t, U () ((s.setStore t).lock ip)) : Sys.Lone U (ilock ip) s :=
  (lone_ilock h).2 fun t _ => hQ t

omit [DecidableEq F] in
variable {off : Nat} {type major minor : BitVec 16}

theorem Small.writei {t : Store} (h : Small t) (hoff : off < Fs.MAXENTS) (e : Fs.Dirent) :
    Small (t.writei dp off e) := by
  intro i
  rw [Store.node_writei]
  by_cases hi : i = dp
  · subst hi
    have hlen := h i
    rw [Fs.written, update_self, Store.writeEnt]
    split
    · rwa [List.length_set]
    · rw [List.length_append, List.length_singleton]
      omega
  · rw [Fs.written, update_of_ne hi]
    exact h i

/-- The name is looked up in `dp`; what is found must not be locked. -/
theorem dirlink_free {Q : Bool → Alone F → Prop} {inum : Nat} (hsmall : Small s.store)
    (hfound : ∀ i off, lookup s.store.node dp name = some (i, off) → i ∉ s.locks)
    (hfalse : lookup s.store.node dp name ≠ none → ∀ t, Q false (s.setStore t))
    (htrue : lookup s.store.node dp name = none → ∀ off < Fs.MAXENTS,
      Q true (s.setStore (s.store.writei dp off ⟨Fin.ofNat _ (BitVec.ofNat 16 inum).toNat, name⟩))) :
    Sys.Lone Q (dirlink dp name inum) s := by
  unfold dirlink
  rw [lone_bind, lone_dirlookup hsmall]
  rintro ⟨t, r⟩ hq
  obtain ⟨-, hr, -, -, hsame⟩ := returns_dirlookup s.store dp name _ hq
  cases r with
  | some x =>
    obtain ⟨i, off⟩ := x
    show Sys.Lone Q (iput i >>= fun _ => pure false) (s.setStore t)
    rw [lone_bind, lone_iput (s := s.setStore t) (hfound i off hr.symm)]
    exact hfalse (by rw [← hr]; simp) _
  | none =>
    have ht : t = s.store := hsame rfl
    subst ht
    show Sys.Lone Q (fields dp >>= fun _ => _) s
    rw [lone_fields, lone_bind]
    refine (alone_looks (· = s)).emptyDe _ _ s _ rfl ?_
    rintro off _ rfl
    refine .act trivial fun b hb => ?_
    have hb : b = decide (off.toNat / 16 < Fs.MAXENTS) := hb
    split
    · exact htrue hr.symm _ (by simpa [hb] using ‹b = true›)
    · exact (lone_panic _).2 trivial

omit [DecidableEq F] in
theorem dirlookup_self {t : Store} (hdir : (t.node dp).type = .dir) (hpos : 0 < t.ref dp)
    (hself : lookup t.node dp name = some (dp, off)) : ∃ u, t.dirlookup dp name = .ok (u, some (dp, off)) := by
  rw [lookup, Option.map_eq_some_iff] at hself
  obtain ⟨k, hk, heq⟩ := hself
  obtain ⟨hdp, rfl⟩ := Prod.mk.inj heq
  refine ⟨t.setRef dp (t.ref dp + 1), ?_⟩
  unfold Store.dirlookup
  rw [if_neg (by simp [hdir]), hk]
  dsimp only
  rw [hdp, Store.iget, if_pos hpos]
  rfl

/-- The directory itself is found. -/
theorem not_lone_dirlink {Q : Bool → Alone F → Prop} {inum : Nat} (hsmall : Small s.store) (hin : dp ∈ s.locks)
    (hdir : (s.store.node dp).type = .dir) (hpos : 0 < s.store.ref dp)
    (hself : lookup s.store.node dp name = some (dp, off)) : ¬ Sys.Lone Q (dirlink dp name inum) s := by
  intro h
  unfold dirlink at h
  rw [lone_bind, lone_dirlookup hsmall] at h
  obtain ⟨u, hu⟩ := dirlookup_self hdir hpos hself
  have hput : Sys.Lone Q (iput dp >>= fun _ => pure false) (s.setStore u) := h _ hu
  rw [lone_bind] at hput
  exact not_lone_iput (s := s.setStore u) hin hput

/-! ## The new inode of `create` -/

/-- `dp` has no entry with this name. -/
structure NoEntry (dp : Inum) (name : Name) (t : Store) : Prop where
  small : Small t
  none : lookup t.node dp name = none

section

omit [DecidableEq F]

theorem NoEntry.of_ents {t u : Store} (h : NoEntry dp name t) (hents : ∀ i, (u.node i).ents = (t.node i).ents) :
    NoEntry dp name u := by
  refine ⟨fun i => ?_, ?_⟩
  · rw [hents]
    exact h.small i
  · rw [lookup, hents]
    exact h.none

theorem NoEntry.writei {t : Store} (h : NoEntry dp name t) (hne : ip ≠ dp) (hoff : off < Fs.MAXENTS)
    (e : Fs.Dirent) : NoEntry dp name (t.writei ip off e) := by
  refine ⟨h.small.writei hoff e, ?_⟩
  rw [lookup, Store.node_writei, Fs.written, update_of_ne hne.symm]
  exact h.none

theorem ents_modify (t : Store) (j : Inum) (f : Fs.Inode → Fs.Inode) (hf : ∀ n, (f n).ents = n.ents) (i : Inum) :
    ((t.modify j f).node i).ents = (t.node i).ents := by
  rw [Store.node_modify]
  by_cases hi : i = j
  · rw [hi, update_self, hf]
  · rw [update_of_ne hi]

end

/-- The first two entries of a new directory. -/
theorem dots_free (hne : ip ≠ dp) (hents : (s.store.node ip).ents = [])
    (h : NoEntry dp name s.store) (hQ : ∀ t, NoEntry dp name t → U () (s.setStore t)) :
    Sys.Lone U (do
      if ← dirlink ip dot (← inum ip) then
        if ← dirlink ip dotdot (← inum dp) then return else panic .createDots
      else panic .createDots) s := by
  have hdot : lookup s.store.node ip dot = none := by simp [lookup, hents, Store.findName]
  rw [lone_inum, lone_bind]
  refine dirlink_free h.small (by simp [hdot]) (fun hno => absurd hdot hno) fun _ off hoff => ?_
  rw [if_pos rfl, lone_inum, lone_bind]
  generalize hself : (⟨Fin.ofNat _ (BitVec.ofNat 16 ip.val).toNat, dot⟩ : Fs.Dirent) = self
  have h1 := h.writei hne hoff self
  have hdotdot : lookup (s.store.writei ip off self).node ip dotdot = none := by
    rw [lookup, Store.node_writei, Fs.written, update_self]
    simp [Store.writeEnt, hents, Store.findName, ← hself]
  refine dirlink_free h1.small (by simp [hdotdot]) (fun hno => absurd hdotdot hno) fun _ off' hoff' => ?_
  rw [if_pos rfl]
  exact hQ _ (h1.writei hne hoff' _)

theorem fillNew_free (hip : ip ∉ s.locks) (hne : ip ≠ dp)
    (hents : (s.store.node ip).ents = []) (h : NoEntry dp name s.store)
    (hQ : ∀ t, NoEntry dp name t → U () ((s.setStore t).lock ip)) :
    Sys.Lone U (fillNew dp ip type major minor) s := by
  unfold fillNew
  rw [lone_bind, lone_ilock hip]
  intro t ht
  obtain ⟨hn, -, -, -⟩ := ilock_ok ht
  rw [lone_fields, lone_det (a := .inl (.assign ip _)) () trivial done,
    lone_det (a := .inr (.iupdate ip)) () trivial done]
  change Sys.Lone U _ ((s.setStore (t.modify ip (assigned · _))).lock ip)
  generalize hu : t.modify ip _ = u
  have hu : ∀ i, (u.node i).ents = (s.store.node i).ents := by
    intro i
    rw [← hu, ents_modify t ip (assigned · _) fun n => rfl, hn]
  split
  · rw [lone_bind, lone_addLink]
    have hlink : ∀ i, ((u.addLink dp 1).node i).ents = (s.store.node i).ents := fun i =>
      (ents_modify u dp (fun n => { n with nlink := n.nlink + 1 }) (fun n => rfl) i).trans (hu i)
    exact dots_free (s := (s.setStore (u.addLink dp 1)).lock ip) hne ((hlink ip).trans hents) (h.of_ents hlink) hQ
  · exact hQ u (h.of_ents hu)

theorem createNew_free {Q : Inum → Alone F → Prop} (hlocks : s.locks = {dp})
    (hdir : (s.store.node dp).type = .dir) (h : NoEntry dp name s.store)
    (hQ : ∀ i s', s'.locks = {i} → Q i s') : Sys.Lone Q (createNew dp name type major minor) s := by
  unfold createNew ialloc
  rw [lone_dev, lone_bind]
  refine .act trivial ?_
  rintro r ⟨i, rfl, hi⟩
  have hfree := Fin.eq_true_of_find?_eq_some hi
  rw [decide_eq_true_eq] at hfree
  have hne : i ≠ dp := by
    rintro rfl
    rw [hdir] at hfree
    cases hfree.2
  have hi : Fin.ofNat Fs.NINODES i.val = i := Fin.ofNat_val_eq_self i
  change Sys.Lone _ (iget ROOTDEV i.val) (s.setStore (s.store.setNode (Fin.ofNat _ i.val) _))
  rw [hi]
  refine (lone_iget _ (f := pure)).2 fun t ht => ?_
  have hn : t.node = update s.store.node i { Fs.Inode.zero with type := ofItype type } := by
    rw [(iget_ok ht).1, Alone.setStore_store, Store.node_setNode]
  have hno : NoEntry dp name t := by
    refine ⟨fun j => ?_, ?_⟩
    · rw [hn]
      by_cases hj : j = i
      · rw [hj, update_self]
        exact Nat.zero_le _
      · rw [update_of_ne hj]
        exact h.small j
    · rw [lookup, hn, update_of_ne hne.symm]
      exact h.none
  have hip : i ∉ (s.setStore t).locks := by simpa [hlocks] using hne
  show Sys.Lone Q (fillNew dp i type major minor >>= fun _ => _) (s.setStore t)
  rw [lone_bind]
  refine fillNew_free hip hne (by rw [Alone.setStore_store, hn, update_self]; rfl) hno fun u hu => ?_
  rw [lone_inum, lone_bind]
  refine dirlink_free hu.small (by simp [hu.none]) (fun hsome => absurd hu.none hsome) fun _ off hoff => ?_
  rw [if_pos rfl, lone_bind]
  refine iunlockput_free (by simp [hlocks]) (hQ i _ ?_)
  simp [hlocks, Finset.erase_insert_of_ne hne]

variable {path : Path} {f : F}

theorem create_free {Q : Option Inum → Alone F → Prop}
    (hlocks : s.locks = ∅) (hsmall : Small s.store) (hnone : ∀ s', s'.locks = ∅ → Q none s')
    (hsome : ∀ i s', s'.locks = {i} → Q (some i) s') : Sys.Lone Q (create path type major minor) s := by
  unfold create
  rw [lone_bind, lone_nameiparent path hlocks hsmall]
  rintro ⟨t, r⟩ ht
  have htsmall : Small t := hsmall.namex _ _ _ _ ht
  cases r with
  | none => exact hnone _ hlocks
  | some x =>
    obtain ⟨dp, name⟩ := x
    show Sys.Lone Q (ilock dp >>= fun _ => _) (s.setStore t)
    rw [lone_bind, lone_ilock (by simp [hlocks])]
    intro u hu
    have husmall : Small u := htsmall.of_node (ilock_ok hu).1
    show Sys.Lone Q _ ((s.setStore u).lock dp)
    rw [lone_bind, lone_dirlookup husmall]
    rintro ⟨w, r⟩ hw
    obtain ⟨-, hr, hdir, -, hsame⟩ := returns_dirlookup u dp name _ hw
    cases r with
    | some x =>
      obtain ⟨i, off⟩ := x
      show Sys.Lone Q (iunlockput dp >>= fun _ => _) ((s.setStore w).lock dp)
      rw [lone_bind]
      refine iunlockput_free (by simp) ?_
      rw [lone_bind]
      refine ilock_free (by simp [hlocks]) fun v => ?_
      rw [lone_fields]
      split
      · exact hsome i _ (by simp [hlocks])
      · rw [lone_bind]
        exact iunlockput_free (by simp) (hnone _ (by simp [hlocks]))
    | none =>
      have hwu : w = u := hsame rfl
      subst hwu
      show Sys.Lone Q (createNew dp name type major minor >>= fun i => pure (some i)) ((s.setStore w).lock dp)
      rw [lone_bind]
      exact createNew_free (by simp [hlocks]) hdir ⟨husmall, hr.symm⟩ hsome

/-! ## Calls that wait for nothing of their own -/

theorem endOp_free (hQ : U () s) : Sys.Lone U endOp s := by
  refine .act trivial fun r _ => ?_
  cases r with
  | none => exact hQ
  | some blocks => exact ⟨trivial, fun _ _ => hQ⟩

theorem readi_free {Q : Option (List UInt8) → Alone F → Prop} {off n : BitVec 32} (h : ip ∈ s.locks)
    (hQ : ∀ r s', s'.locks = s.locks → Q r s') : Sys.Lone Q (readi ip off n) s := by
  unfold readi
  rw [lone_fields]
  split
  · split
    · refine .bind (iunlock_free h (.quiet trivial (fun _ => rfl) fun r _ => .bind ?_))
      exact ilock_free (by simp) fun t => hQ r _ (by simp [Finset.insert_erase h])
    · exact hQ _ _ rfl
  · exact .act trivial fun r _ => hQ r _ rfl

theorem fdallocLoop_free {Q : Option Fd → Alone F → Prop} (hQ : ∀ r, Q r s) :
    ∀ fds, Sys.Lone Q (fdallocLoop f fds) s
  | [] => hQ none
  | fd :: fds => by
    refine .act trivial fun r _ => ?_
    cases r with
    | none => exact .act trivial fun _ _ => hQ _
    | some _ => exact fdallocLoop_free hQ fds

theorem fdalloc_free {Q : Option Fd → Alone F → Prop} (hQ : ∀ r, Q r s) : Sys.Lone Q (fdalloc f) s :=
  fdallocLoop_free hQ _

/-- With no lock held, or a file that is no inode. -/
theorem fileclose_free (h : s.locks = ∅ ∨ (s.file f).type = .none)
    (hQ : ∀ s', s'.locks = s.locks → U () s') : Sys.Lone U (fileclose f) s := by
  refine .quiet trivial (fun _ => rfl) fun r hr => ?_
  cases r with
  | none => exact hQ s rfl
  | some ff =>
    have hff : ff = s.file f := by
      have hr : some ff = none ∨ some ff = some (s.file f) := hr
      simpa using hr
    subst hff
    dsimp only
    split
    · exact hQ s rfl
    · exact .act trivial fun _ _ => hQ s rfl
    rename_i i hi
    have hlocks : s.locks = ∅ := h.resolve_right (by simp [hi])
    refine .quiet trivial (fun _ => rfl) fun _ _ => .bind ((lone_iput (by simp [hlocks])).2 ?_)
    exact endOp_free (hQ _ rfl)

theorem openInode_free {Q : Option Inum → Alone F → Prop} {omode : BitVec 32} (hlocks : s.locks = ∅)
    (hsmall : Small s.store) (hnone : ∀ s', s'.locks = ∅ → Q none s')
    (hsome : ∀ i s', s'.locks = {i} → Q (some i) s') : Sys.Lone Q (openInode path omode) s := by
  unfold openInode
  split
  · exact create_free hlocks hsmall hnone hsome
  refine .bind ((lone_namei path hlocks hsmall).2 ?_)
  rintro ⟨t, r⟩ -
  cases r with
  | none => exact hnone _ hlocks
  | some i =>
    refine .bind (ilock_free (by simp [hlocks]) fun u => ?_)
    refine .quiet trivial (fun _ => rfl) fun d _ => ?_
    split
    · exact .bind (iunlockput_free (by simp) (hnone _ (by simp [hlocks])))
    · exact hsome i _ (by simp [hlocks])

variable {R : Ret → Alone F → Prop}

section

variable (hlocks : s.locks = ∅) (hsmall : Small s.store) (hQ : ∀ r s', R r s')
include hlocks hsmall hQ

theorem sysOpen_free {path : Option Path} {omode : Option (BitVec 32)} : Sys.Lone R (sysOpen path omode) s := by
  rcases path with _ | path
  · exact hQ _ _
  rcases omode with _ | omode
  · exact hQ _ _
  refine .quiet trivial (fun _ => rfl) fun _ _ => .bind (openInode_free hlocks hsmall ?_ ?_)
  · exact fun s' _ => .bind (endOp_free (hQ _ _))
  intro i s' hs'
  have hbad : ∀ (f : Option F), (∀ x, f = some x → (s'.file x).type = .none) → Sys.Lone R (openBad f i) s' := by
    intro f hf
    have hput : ∀ s'' : Alone F, s''.locks = s'.locks → Sys.Lone R (do iunlockput i; endOp; fail) s'' :=
      fun s'' hs'' => .bind (iunlockput_free (by simp [hs'', hs']) (.bind (endOp_free (hQ _ _))))
    cases f with
    | none => exact .bind (hput s' rfl)
    | some f => exact .bind (fileclose_free (.inr (hf f rfl)) hput)
  refine .quiet trivial (fun _ => rfl) fun r hr => ?_
  cases r with
  | none => exact hbad none (by simp)
  | some f =>
    refine .bind (fdalloc_free fun r => ?_)
    cases r with
    | none => exact hbad (some f) hr
    | some fd =>
      refine .bind (iunlock_free (by simp [hs']) (.bind (endOp_free ?_)))
      exact .act trivial fun _ _ => hQ _ _

theorem make_free {path : Option Path} {type : BitVec 16} {numbers : Option (BitVec 16 × BitVec 16)} : Sys.Lone R (make path type numbers) s := by
  refine .act trivial fun _ _ => ?_
  rcases path with _ | path
  · exact .bind (endOp_free (hQ _ _))
  rcases numbers with _ | ⟨major, minor⟩
  · exact .bind (endOp_free (hQ _ _))
  refine .bind (create_free hlocks hsmall (fun s' _ => .bind (endOp_free (hQ _ _))) fun i s' hs' => ?_)
  exact .bind (iunlockput_free (by simp [hs']) (.bind (endOp_free (hQ _ _))))

theorem sysChdir_free {path : Option Path} : Sys.Lone R (sysChdir path) s := by
  refine .quiet trivial (fun _ => rfl) fun _ _ => ?_
  rcases path with _ | path
  · exact .bind (endOp_free (hQ _ _))
  refine .bind ((lone_namei path hlocks hsmall).2 ?_)
  rintro ⟨t, r⟩ -
  cases r with
  | none => exact .bind (endOp_free (hQ _ _))
  | some i =>
    refine .bind (ilock_free (by simp [hlocks]) fun u => ?_)
    refine .quiet trivial (fun _ => rfl) fun d _ => ?_
    split
    · exact .bind (iunlockput_free (by simp) (.bind (endOp_free (hQ _ _))))
    · refine .bind (iunlock_free (by simp) (.bind (lone_mycwd.2 (.bind ((lone_iput (by simp [hlocks])).2 ?_)))))
      exact .bind (endOp_free (.act trivial fun _ _ => hQ _ _))

theorem exec_free {argc : Nat} : Sys.Lone R (exec path argc) s := by
  refine .act trivial fun _ _ => .bind ((lone_namei path hlocks hsmall).2 ?_)
  rintro ⟨t, r⟩ -
  cases r with
  | none => exact .bind (endOp_free (hQ _ _))
  | some i =>
    refine .bind (ilock_free (by simp [hlocks]) fun u => .bind ?_)
    refine (alone_looks (·.locks = insert i s.locks)).loadProgram (fun _ _ s' _ hs' hQ => ?_) _ _ rfl fun b s' hs' => ?_
    · exact readi_free (by simp [hs']) fun r s'' hs'' => hQ r s'' (hs''.trans hs')
    split
    · refine .bind (iunlockput_free (by simp [hs']) (.bind (endOp_free (.act trivial fun b _ => ?_))))
      split
      · refine .bind ((alone_looks fun _ => True).pushArgs _ _ _ _ trivial fun b s'' _ => ?_)
        split
        · refine .act trivial fun b _ => ?_
          split
          · exact hQ _ _
          · exact hQ _ _
        · exact hQ _ _
      · exact hQ _ _
    · exact .bind (iunlockput_free (by simp [hs']) (.bind (endOp_free (hQ _ _))))

end

/-! ## The two that may -/

theorem unlinkBad_free (h : dp ∈ s.locks) (hQ : ∀ r s', R r s') : Sys.Lone R (unlinkBad dp) s :=
  .bind (iunlockput_free h (.bind (endOp_free (hQ _ _))))

theorem unlinkAt_free {off : BitVec 32} (hlocks : s.locks = {dp}) (hne : ip ≠ dp) (hQ : ∀ r s', R r s') :
    Sys.Lone R (unlinkAt dp ip off) s := by
  have hend : ∀ s' : Alone F, s'.locks = {ip, dp} → Sys.Lone R (do
      iunlockput dp
      addLink ip (-1)
      iunlockput ip
      endOp
      return .val 0) s' := by
    intro s' hs'
    refine .bind (iunlockput_free (by simp [hs']) (.bind ((lone_addLink _).2 (.bind (iunlockput_free ?_ ?_)))))
    · simp [hs', Finset.erase_insert_of_ne hne]
    · exact .bind (endOp_free (hQ _ _))
  refine .bind (ilock_free (by simpa [hlocks] using hne) fun t => ?_)
  have hboth : ((s.setStore t).lock ip).locks = {ip, dp} := by simp [hlocks]
  refine .act trivial fun d _ => ?_
  split
  · exact (lone_panic _).2 trivial
  refine .bind ((alone_looks (· = (s.setStore t).lock ip)).fullDir _ _ rfl ?_)
  rintro b _ rfl
  split
  · refine .bind (iunlockput_free (by simp) (unlinkBad_free ?_ hQ))
    simp [hlocks, hne.symm]
  refine .act trivial fun b _ => ?_
  split
  · refine .act trivial fun d _ => ?_
    dsimp only
    split
    · exact .bind ((lone_addLink _).2 (hend _ hboth))
    · exact hend _ hboth
  · exact (lone_panic _).2 trivial

theorem linkBad_free (h : ip ∉ s.locks) (hQ : ∀ r s', R r s') : Sys.Lone R (linkBad ip) s :=
  .bind (ilock_free h fun t => .bind ((lone_addLink _).2 (.bind (iunlockput_free (by simp) (.bind (endOp_free (hQ _ _)))))))

end Rules

/-! ## Main result -/

/-- The directory is its own entry with this name. -/
def NamesItself (t : Store) (dp : Inum) (name : Name) : Prop :=
  (t.node dp).type = .dir ∧ ∃ off, lookup t.node dp name = some (dp, off)

/-- Where `sys_unlink` looks its path up: the store then, the directory and the name. -/
def unlinkDir (t : Store) (cwd : Inum) (path : Path) : Except Fs.Panic (Option (Store × Inum × Name)) := do
  let (t, r) ← t.nameiparent cwd path
  match r with
  | none => return none
  | some (dp, name) => return some (← t.ilock dp, dp, name)

/-- Where `sys_link` looks the new path up, if it gets that far: the old one is not a directory. -/
def linkDir (t : Store) (cwd : Inum) (old new : Path) : Except Fs.Panic (Option (Store × Inum × Name)) := do
  let (t, r) ← t.namei cwd old
  match r with
  | none => return none
  | some ip =>
    let t ← t.ilock ip
    if (t.node ip).type = .dir then return none else unlinkDir (t.addLink ip 1) cwd new

/-- The name a call looks up in a directory it has locked does not lead back to the directory. -/
def Apart (t : Store) (cwd : Inum) : Call → Prop
  | .link (some old) (some new) =>
    Returns (linkDir t cwd old new) fun r => ∀ u dp name, r = some (u, dp, name) → ¬ NamesItself u dp name
  | .unlink (some path) =>
    Returns (unlinkDir t cwd path) fun r => ∀ u dp name, r = some (u, dp, name) → name ≠ dot → name ≠ dotdot →
      ¬ NamesItself u dp name
  | _ => True

/-- The calls that take a path. -/
def Call.takesPath : Call → Bool
  | .link .. | .unlink _ | .open .. | .mkdir _ | .mknod .. | .chdir _ | .exec .. => true
  | _ => false

section

variable {F : Type} [DecidableEq F] {s : Alone F} {R : Ret → Alone F → Prop} {name : Name} {path : Path}

/-- `sys_unlink` from the lookup on. -/
theorem lone_unlinkFound {dp : Inum} {g : Option (Inum × BitVec 32) → Sys Inum F Ret}
    (hnone : g none = unlinkBad dp) (hsome : ∀ ip off, g (some (ip, off)) = unlinkAt dp ip off)
    (hlocks : s.locks = {dp}) (hsmall : Small s.store) (hpos : 0 < s.store.ref dp) (hR : ∀ r s', R r s') :
    Sys.Lone R (dirlookup dp name >>= g) s ↔ ¬ NamesItself s.store dp name := by
  rw [lone_bind, lone_dirlookup hsmall]
  constructor
  · rintro h ⟨hdir, off, hself⟩
    obtain ⟨w, hw⟩ := dirlookup_self hdir hpos hself
    have hat : Sys.Lone R (g (some (dp, _))) (s.setStore w) := h _ hw
    rw [hsome, unlinkAt, lone_bind] at hat
    have hle := (returns_dirlookup s.store dp name _ hw).2.2.2.1 dp
    exact not_lone_ilock (s := s.setStore w) (by simp [hlocks]) (Nat.lt_of_lt_of_le hpos hle) hat
  rintro hno ⟨w, r⟩ hw
  obtain ⟨-, hr, hdir, -, -⟩ := returns_dirlookup s.store dp name _ hw
  cases r with
  | none =>
    show Sys.Lone R (g none) (s.setStore w)
    rw [hnone]
    exact unlinkBad_free (by simp [hlocks]) hR
  | some x =>
    obtain ⟨i, off⟩ := x
    show Sys.Lone R (g (some (i, _))) (s.setStore w)
    rw [hsome]
    refine unlinkAt_free (s := s.setStore w) hlocks ?_ hR
    rintro rfl
    exact hno ⟨hdir, off, hr.symm⟩

/-- The directory of a path, locked. -/
theorem lone_dir {g : Option (Inum × Name) → Sys Inum F Ret} {f : Inum → Name → Sys Inum F Ret}
    {G : Store → Inum → Name → Prop} (hg : ∀ dp name, g (some (dp, name)) = ilock dp >>= fun _ => f dp name)
    (hlocks : s.locks = ∅) (hsmall : Small s.store) (hnone : ∀ t, Sys.Lone R (g none) (s.setStore t))
    (hf : ∀ u dp name, Small u → 0 < u.ref dp → (Sys.Lone R (f dp name) ((s.setStore u).lock dp) ↔ G u dp name)) :
    Sys.Lone R (nameiparent path >>= g) s ↔
      Returns (unlinkDir s.store s.cwd path) fun r => ∀ u dp name, r = some (u, dp, name) → G u dp name := by
  unfold unlinkDir
  rw [lone_bind, returns_bind]
  refine Iff.trans (lone_nameiparent path hlocks hsmall) (Returns.congr ?_)
  rintro ⟨t, r⟩ ht
  have htsmall : Small t := hsmall.namex _ _ _ _ ht
  cases r with
  | none => exact iff_of_true (hnone t) ((returns_ok _).2 (by simp))
  | some x =>
    obtain ⟨dp, name⟩ := x
    show Sys.Lone R (g (some (dp, name))) (s.setStore t) ↔
      Returns (t.ilock dp >>= fun u => .ok (some (u, dp, name))) _
    rw [hg, lone_bind, lone_ilock (by simp [hlocks]), returns_bind]
    refine Returns.congr fun u hu => ?_
    obtain ⟨hn, href, hpos, -⟩ := ilock_ok hu
    rw [returns_ok]
    refine Iff.trans (hf u dp name (htsmall.of_node hn) (by rwa [href])) ⟨?_, fun h => h u dp name rfl⟩
    rintro hG u' dp' name' ⟨⟩
    exact hG

theorem lone_sysUnlink (hlocks : s.locks = ∅) (hsmall : Small s.store) (hR : ∀ r s', R r s') :
    Sys.Lone R (sysUnlink (some path)) s ↔ Apart s.store s.cwd (.unlink (some path)) := by
  unfold sysUnlink
  rw [lone_det (a := .inl .beginOp) () trivial done]
  refine lone_dir (s := s) (G := fun u dp name => name ≠ dot → name ≠ dotdot → ¬ NamesItself u dp name)
    (fun _ _ => rfl) hlocks hsmall ?_ fun u dp name husmall hpos => ?_
  · exact fun t => .bind (endOp_free (hR _ _))
  by_cases hdots : name = dot ∨ name = dotdot
  · rw [if_pos hdots]
    exact iff_of_true (unlinkBad_free (by simp) hR) fun hd hdd => absurd hdots (by simp [hd, hdd])
  rw [if_neg hdots]
  obtain ⟨hd, hdd⟩ := not_or.1 hdots
  refine Iff.trans (b := ¬ NamesItself u dp name) ?_ ⟨fun h _ _ => h, fun h => h hd hdd⟩
  exact lone_unlinkFound (s := (s.setStore u).lock dp) rfl (fun _ _ => rfl) (by simp [hlocks]) husmall hpos hR

/-- `sys_link` from the second lookup on. -/
theorem lone_linkFound {ip dp : Inum} (hlocks : s.locks = {dp}) (hsmall : Small s.store)
    (hpos : 0 < s.store.ref dp) (hR : ∀ r s', R r s') :
    Sys.Lone R (do
      if ← linkAt dp ip name then
        iunlockput dp
        iput ip
        endOp
        return .val 0
      else
        iunlockput dp
        linkBad ip) s ↔ ¬ NamesItself s.store dp name := by
  unfold linkAt
  rw [lone_bind, lone_dev, lone_dev, if_neg (by simp), lone_inum]
  have hgone : ∀ t : Store, ip ∉ (((s.setStore t).setStore (t.iput dp)).unlock dp).locks := by simp [hlocks]
  constructor
  · rintro h ⟨hdir, off, hself⟩
    exact not_lone_dirlink hsmall (by simp [hlocks]) hdir hpos hself h
  intro hno
  by_cases hdir : (s.store.node dp).type = .dir
  · refine dirlink_free hsmall ?_ ?_ ?_
    · intro i off hi hin
      rw [hlocks, Finset.mem_singleton] at hin
      exact hno ⟨hdir, off, hin ▸ hi⟩
    · intro _ t
      refine .bind (iunlockput_free (by simp [hlocks]) (linkBad_free (hgone t) hR))
    · intro _ off _
      refine .bind (iunlockput_free (by simp [hlocks]) (.bind ((lone_iput (hgone _)).2 ?_)))
      exact .bind (endOp_free (hR _ _))
  · unfold dirlink
    rw [lone_bind, lone_dirlookup hsmall]
    intro q hq
    exact absurd (returns_dirlookup _ _ _ _ hq).2.2.1 hdir

theorem lone_sysLink {old new : Path} (hlocks : s.locks = ∅) (hsmall : Small s.store) (hR : ∀ r s', R r s') :
    Sys.Lone R (sysLink (some old) (some new)) s ↔ Apart s.store s.cwd (.link (some old) (some new)) := by
  show _ ↔ Returns (linkDir s.store s.cwd old new) _
  unfold sysLink linkDir
  rw [lone_det (a := .inl .beginOp) () trivial done, lone_bind, returns_bind]
  refine Iff.trans (lone_namei old hlocks hsmall) (Returns.congr ?_)
  rintro ⟨t, r⟩ ht
  have htsmall : Small t := hsmall.namei _ _ _ ht
  cases r with
  | none => exact iff_of_true (.bind (endOp_free (hR _ _))) ((returns_ok _).2 (by simp))
  | some ip =>
    show Sys.Lone R (ilock ip >>= fun _ => _) (s.setStore t) ↔ Returns (t.ilock ip >>= fun u => _) _
    rw [lone_bind, lone_ilock (by simp [hlocks]), returns_bind]
    refine Returns.congr fun u hu => ?_
    obtain ⟨hn, href, hpos, -⟩ := ilock_ok hu
    rw [lone_fields]
    show Sys.Lone R (if (dinode (u.node ip)).type = T_DIR then _ else _) _ ↔ _
    by_cases hdir : (u.node ip).type = .dir
    · rw [if_pos (by simpa [dinode] using hdir), if_pos hdir]
      refine iff_of_true (.bind (iunlockput_free (by simp) ?_)) ((returns_ok _).2 (by simp))
      exact .bind (endOp_free (hR _ _))
    rw [if_neg (by simpa [dinode] using hdir), if_neg hdir, lone_bind, lone_addLink, lone_bind, lone_iunlock (by simp)]
    have hlink : Small (u.addLink ip 1) := by
      intro i
      have hents := ents_modify u ip (fun n => { n with nlink := n.nlink + 1 }) (fun n => rfl) i
      exact hents ▸ htsmall.of_node hn i
    have hback : ((((s.setStore t).setStore u).lock ip).setStore (u.addLink ip 1)).unlock ip =
        s.setStore (u.addLink ip 1) := Alone.unlock_lock (s := s.setStore (u.addLink ip 1)) (by simp [hlocks])
    have hupos : 0 < (u.addLink ip 1).ref ip := by
      show 0 < u.ref ip
      rwa [href]
    refine Iff.trans (forall_prop_of_true hupos) ?_
    rw [Alone.lock_store, Alone.setStore_store, hback]
    refine lone_dir (s := s.setStore (u.addLink ip 1)) (fun _ _ => rfl) hlocks hlink ?_ ?_
    · exact fun w => linkBad_free (by simp [hlocks]) hR
    · intro w dp name hw hwpos
      exact lone_linkFound (s := (s.setStore w).lock dp) (by simp [hlocks]) hw hwpos hR

/-- **Which calls wait for themselves.** A call that takes a path, alone on any inodes and any references to them,
acquires no inode lock it holds, if and only if it is not a `link` or `unlink` that looks up a name of the locked
directory itself. -/
theorem no_self_deadlock (s : Alone F) (c : Call) (hc : c.takesPath) (hlocks : s.locks = ∅) (hsmall : Small s.store) :
    Sys.Lone (fun _ _ => True) c.code s ↔ Apart s.store s.cwd c := by
  have hR : ∀ (r : Ret) (s' : Alone F), True := fun _ _ => trivial
  cases c with
  | link old new =>
    rcases old with _ | old
    · exact iff_of_true trivial trivial
    rcases new with _ | new
    · exact iff_of_true trivial trivial
    exact lone_sysLink hlocks hsmall hR
  | unlink path =>
    rcases path with _ | path
    · exact iff_of_true trivial trivial
    exact lone_sysUnlink hlocks hsmall hR
  | «open» path omode => exact iff_of_true (sysOpen_free hlocks hsmall hR) trivial
  | mkdir path => exact iff_of_true (make_free hlocks hsmall hR) trivial
  | mknod path numbers => exact iff_of_true (make_free hlocks hsmall hR) trivial
  | chdir path => exact iff_of_true (sysChdir_free hlocks hsmall hR) trivial
  | exec path argc =>
    refine iff_of_true ?_ trivial
    rcases path with _ | path
    · exact trivial
    rcases argc with _ | argc
    · exact trivial
    exact exec_free hlocks hsmall hR
  | dup | read | write | close | fstat | pipe | fork | clone | exit => cases hc

end

instance (t : Store) (dp : Inum) (name : Name) : Decidable (NamesItself t dp name) :=
  decidable_of_iff ((t.node dp).type = .dir ∧ (lookup t.node dp name).map (·.1) = some dp) (by
    simp [NamesItself, Option.map_eq_some_iff])

theorem returns_found {x : Except Fs.Panic (Option (Store × Inum × Name))} {G : Store → Inum → Name → Prop} :
    (Returns x fun r => ∀ u dp name, r = some (u, dp, name) → G u dp name) ↔
      ∀ q ∈ x.toOption.bind id, G q.1 q.2.1 q.2.2 := by
  cases x with
  | error e => simp [Except.toOption]
  | ok r =>
    cases r with
    | none => simp [Except.toOption]
    | some q =>
      obtain ⟨u, dp, name⟩ := q
      simp [Except.toOption]

instance (t : Store) (cwd : Inum) : ∀ c, Decidable (Apart t cwd c)
  | .link (some _) (some _) => decidable_of_iff _ returns_found.symm
  | .unlink (some _) => decidable_of_iff _ returns_found.symm
  | .link none _ | .link (some _) none | .unlink none | .open .. | .mkdir _ | .mknod .. | .chdir _ | .exec ..
  | .dup _ | .read .. | .write .. | .close _ | .fstat .. | .pipe _ | .fork | .clone _ | .exit => isTrue trivial

/-- The root is the current directory and has one file, `f`. -/
def atRoot : Alone Unit where
  store := Fs.oneFile.fs
  locks := ∅
  cwd := Fs.ROOTINO
  file _ := ⟨.none, false, false, 0⟩

theorem atRoot_small : Small atRoot.store := by
  unfold Small
  decide +kernel

/-- `link("f", "g")`. -/
theorem no_self_deadlock_link : Sys.Lone (fun _ _ => True) (Call.link (some [102]) (some [103])).code atRoot :=
  (no_self_deadlock atRoot _ rfl rfl atRoot_small).2 (by decide +kernel)

/-- `link("f", ".")`: `dirlink` finds the root under the name `.` and puts it back with its lock held. -/
theorem link_dot_waits : ¬ Sys.Lone (fun _ _ => True) (Call.link (some [102]) (some [46])).code atRoot := by
  intro h
  have hapart := (lone_sysLink rfl atRoot_small fun _ _ => trivial).1 h
  revert hapart
  decide +kernel

end Xv6.Sysfile
