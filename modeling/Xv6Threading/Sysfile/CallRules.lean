import Xv6Threading.Lib.Links
import Xv6Threading.Sysfile.Protocol

/-!
# Every call ends at rest (`sysfile.c`, `exec.c`, `proc.c:179-300`, `proc.c:667-725`)

The rules of the system calls. Most of them leave the record as it was. `dup`, `open` and `pipe` fill
descriptors, `close` and `exit` empty them, `chdir` and `exit` change the working directory, and `fork` and
`clone` hand what they duplicate to the child.
-/

namespace Xv6.Sysfile

open Function
open Fs (Name)

variable {I F : Type} [DecidableEq I] [DecidableEq F]

omit [DecidableEq I] in
theorem slotRefs_update (ofile : Fd → Option F) (fd : Fd) (x : Option F) (f : F) :
    slotRefs (update ofile fd x) f + (if ofile fd = some f then 1 else 0) =
      slotRefs ofile f + if x = some f then 1 else 0 :=
  Links.sum_update (fun o => if o = some f then 1 else 0) ofile fd x

omit [DecidableEq I] in
theorem slotRefs_pos {ofile : Fd → Option F} {fd : Fd} {f : F} (h : ofile fd = some f) : 0 < slotRefs ofile f :=
  Finset.sum_pos' (fun _ _ => Nat.zero_le _) ⟨fd, Finset.mem_univ fd, by simp [h]⟩

namespace Ghost

variable {g : Ghost I F} {fd : Fd} {f : F}

section

variable (h : g.Rest) {e : I}
include h

/-- The parts of `Rest` that the calls rely on. -/
theorem Rest.cwd_pos (he : g.cwd = some e) : 0 < g.irefs e := by
  rw [h.irefs, cwdRefs, if_pos he]
  exact Nat.one_pos

theorem Rest.slot_pos (hf : g.ofile fd = some f) : 0 < g.frefs f := by
  rw [h.frefs]
  exact slotRefs_pos hf

theorem Rest.not_fresh (f : F) : f ∉ g.fresh := by
  rw [h.fresh]
  exact Finset.notMem_empty f

/-- A descriptor is filled with a file that is held once more. -/
theorem Rest.fill (hfd : g.ofile fd = none) (f : F) : ((g.hold f).setSlot fd (some f)).Rest where
  __ := h
  frefs f' := by
    have hs := slotRefs_update g.ofile fd (some f) f'
    have hf := h.frefs f'
    simp only [hfd, reduceCtorEq, if_false, Nat.add_zero, Option.some.injEq] at hs
    simp only [hold, setSlot, hs]
    by_cases heq : f' = f
    · subst heq
      simp [hf]
    · simp [heq, Ne.symm heq, hf]

/-- A descriptor is emptied, and the file held once less. -/
theorem Rest.clear (hfd : g.ofile fd = some f) : ((g.letGo f).setSlot fd none).Rest where
  __ := h
  frefs f' := by
    have hs := slotRefs_update g.ofile fd none f'
    have hf := h.frefs f'
    simp only [hfd, reduceCtorEq, if_false, Nat.add_zero, Option.some.injEq] at hs
    simp only [letGo, setSlot]
    by_cases heq : f' = f
    · subst heq
      simp only [if_true] at hs
      simp only [update_self, hf]
      omega
    · simp only [update_of_ne heq, hf, ← hs, Ne.symm heq, if_false, Nat.add_zero]

/-- The working directory is replaced by an inode the call has a reference to. -/
theorem Rest.move (he : g.cwd = some e) (ip : I) : (((g.get ip).put e).setCwd (some ip)).Rest where
  __ := h
  irefs i := by
    have hi : g.irefs i = if e = i then 1 else 0 := by simpa [cwdRefs, he] using h.irefs i
    simp only [get, put, setCwd, cwdRefs, Option.some.injEq, update_apply]
    by_cases hie : i = e
    · subst hie
      by_cases hip : i = ip
      · simp [hip, hip ▸ hi]
      · simp [hip, hi, Ne.symm hip]
    by_cases hip : i = ip
    · subst hip
      simp [hie, hi, Ne.symm hie]
    · simp [hie, hip, hi, Ne.symm hie, Ne.symm hip]

/-- The working directory is given up. -/
theorem Rest.leave (he : g.cwd = some e) : ((g.put e).setCwd none).Rest where
  __ := h
  irefs i := by
    have hi : g.irefs i = if e = i then 1 else 0 := by simpa [cwdRefs, he] using h.irefs i
    by_cases hie : i = e
    · subst hie
      simp [put, setCwd, cwdRefs, hi]
    · simp [put, setCwd, cwdRefs, hie, hi, Ne.symm hie]

end

end Ghost

/-- What a call that returns, or ends the process, leaves. -/
def Done : Ret → Ghost I F → Prop
  | .val _, g => g.Rest
  | .gone, g => g.Rest ∧ (∀ fd, g.ofile fd = none) ∧ g.cwd = none

section Rules

variable {g : Ghost I F} {ip dp : I} {Q : Ret → Ghost I F → Prop} {U : Unit → Ghost I F → Prop}

/-- An inode that is held once more and locked is given up. -/
theorem iunlockput_held (htx : g.tx = true) (hfree : ip ∉ g.locks) (hQ : U () g) :
    Sys.Follows U (iunlockput ip) ((g.get ip).lock ip) := by
  refine iunlockput_rule htx (g.get_irefs_pos ip) ?_
  rwa [Ghost.unlock_lock (g := g.get ip) hfree, Ghost.put_get]

/-- The way out of a transaction that failed. -/
theorem endFail_rule (htx : g.tx = false) (hQ : ∀ n, Q (.val n) g) : Sys.Follows Q (do endOp; fail) g.begin := by
  refine .bind (endOp_rule rfl ?_)
  rw [Ghost.finish_begin htx]
  exact hQ _

theorem linkBad_rule (htx : g.tx = true) (hQ : ∀ n, Q (.val n) g.finish) :
    Sys.Follows Q (linkBad ip) (g.get ip) := by
  refine .bind (ilock_rule fun hfree => .bind (addLink_rule _ (.bind (iunlockput_rule htx (g.get_irefs_pos ip) ?_))))
  rw [Ghost.unlock_lock hfree, Ghost.put_get]
  exact .bind (endOp_rule htx (hQ _))

theorem linkAt_rule {Q : Bool → Ghost I F → Prop} (name : Name) (htx : g.tx = true) (hQ : ∀ b, Q b g) :
    Sys.Follows Q (linkAt dp ip name) g := by
  refine .act trivial fun _ _ => .act trivial fun _ _ => ?_
  split
  · exact hQ false
  · exact .act trivial fun _ _ => dirlink_rule name _ htx hQ

theorem sysLink_rule (old new : Option Path) (htx : g.tx = false) (hcwd : ∀ e, g.cwd = some e → 0 < g.irefs e)
    (hQ : ∀ n, Q (.val n) g) : Sys.Follows Q (sysLink old new) g := by
  have hfin : ∀ n, Q (.val n) g.begin.finish := by
    rw [Ghost.finish_begin htx]
    exact hQ
  rcases old with _ | old
  · exact hQ _
  rcases new with _ | new
  · exact hQ _
  refine beginOp_rule htx (.bind (namei_rule old rfl hcwd (endFail_rule htx hQ) fun ip => ?_))
  refine .bind (ilock_rule fun hfree => .quiet trivial (fun _ => rfl) fun d _ => ?_)
  split
  · exact .bind (iunlockput_held rfl hfree (endFail_rule htx hQ))
  refine .bind (addLink_rule _ (.bind (iunlock_rule fun _ => ?_)))
  rw [Ghost.unlock_lock hfree]
  refine .bind (namex_rule new true rfl ?_ (linkBad_rule rfl hfin) fun dp name => ?_)
  · exact fun e he => Ghost.irefs_pos_get ip (hcwd e he)
  refine .bind (ilock_rule fun hfree => .bind (linkAt_rule name rfl fun b => ?_))
  split
  · refine .bind (iunlockput_held rfl hfree ?_)
    refine .bind (iput_rule rfl (Ghost.get_irefs_pos _ ip) (.bind (endOp_rule rfl ?_)))
    rw [Ghost.put_get]
    exact hfin 0
  · exact .bind (iunlockput_held rfl hfree (linkBad_rule rfl hfin))

/-- `dp` is held and locked. -/
theorem unlinkBad_rule (htx : g.tx = true) (hfree : dp ∉ g.locks) (hQ : ∀ n, Q (.val n) g.finish) :
    Sys.Follows Q (unlinkBad dp) ((g.get dp).lock dp) := by
  exact .bind (iunlockput_held htx hfree (.bind (endOp_rule htx (hQ _))))

theorem unlinkAt_rule (off : BitVec 32) (htx : g.tx = true) (hdp : dp ∉ g.locks) (hQ : ∀ n, Q (.val n) g.finish) :
    Sys.Follows Q (unlinkAt dp ip off) (((g.get dp).lock dp).get ip) := by
  have hpos : 0 < ((g.get dp).get ip).irefs dp := Ghost.irefs_pos_get ip (g.get_irefs_pos dp)
  refine .bind (ilock_rule fun hip => .act trivial fun d _ => ?_)
  split
  · exact follows_panic _ _
  refine .bind ((looks _).fullDir _ _ rfl ?_)
  rintro b _ rfl
  split
  · exact .bind (iunlockput_held htx hip (unlinkBad_rule htx hdp hQ))
  refine .act trivial fun b _ => ?_
  split
  · have hend : Sys.Follows Q (do iunlockput dp; addLink ip (-1); iunlockput ip; endOp; return .val 0)
        ((((g.get dp).get ip).lock dp).lock ip) := by
      refine .bind (iunlockput_rule htx hpos ?_)
      rw [Ghost.unlock_lock_lock (g := (g.get dp).get ip) hdp hip, Ghost.put_lock, Ghost.put_get_get]
      refine .bind (addLink_rule _ (.bind (iunlockput_rule htx (g.get_irefs_pos ip) ?_)))
      have hip' : ip ∉ (g.get ip).locks := fun h => hip (Finset.mem_insert_of_mem h)
      rw [Ghost.unlock_lock hip', Ghost.put_get]
      exact .bind (endOp_rule htx (hQ _))
    refine .act trivial fun d _ => ?_
    split
    · exact .bind (addLink_rule _ hend)
    · exact hend
  · exact follows_panic _ _

theorem sysUnlink_rule (path : Option Path) (htx : g.tx = false) (hcwd : ∀ e, g.cwd = some e → 0 < g.irefs e)
    (hQ : ∀ n, Q (.val n) g) : Sys.Follows Q (sysUnlink path) g := by
  have hfin : ∀ n, Q (.val n) g.begin.finish := by
    rw [Ghost.finish_begin htx]
    exact hQ
  rcases path with _ | path
  · exact hQ _
  refine beginOp_rule htx (.bind (namex_rule path true rfl hcwd (endFail_rule htx hQ) fun dp name => ?_))
  refine .bind (ilock_rule fun hfree => ?_)
  split
  · exact unlinkBad_rule rfl hfree hfin
  · exact .bind (dirlookup_rule name (unlinkBad_rule rfl hfree hfin) fun ip off => unlinkAt_rule off rfl hfree hfin)

/-! ### Making and opening files -/

theorem fillNew_rule (type major minor : BitVec 16) (htx : g.tx = true)
    (hQ : ip ∉ g.locks → U () (g.lock ip)) : Sys.Follows U (fillNew dp ip type major minor) g := by
  refine .bind (ilock_rule fun hfree => .act trivial fun d _ => ?_)
  refine .act trivial fun _ _ => .act trivial fun _ _ => ?_
  split
  · refine .bind (addLink_rule _ (.act trivial fun n _ => .bind (dirlink_rule _ n htx fun b => ?_)))
    split
    · refine .act trivial fun n _ => .bind (dirlink_rule _ n htx fun b => ?_)
      split
      · exact hQ hfree
      · exact follows_panic _ _
    · exact follows_panic _ _
  · exact hQ hfree

/-- `dp` is held and locked; the new inode takes its place. -/
theorem createNew_rule {Q : I → Ghost I F → Prop} (name : Name) (type major minor : BitVec 16) (htx : g.tx = true)
    (hdp : dp ∉ g.locks) (hQ : ∀ ip, ip ∉ g.locks → Q ip ((g.get ip).lock ip)) :
    Sys.Follows Q (createNew dp name type major minor) ((g.get dp).lock dp) := by
  refine .act trivial fun dev _ => .bind (.act trivial fun n _ => ?_)
  refine ⟨trivial, fun ip _ => .bind (fillNew_rule type major minor htx fun hip => ?_)⟩
  refine .act trivial fun n _ => .bind (dirlink_rule name n htx fun b => ?_)
  split
  · refine .bind (iunlockput_rule htx (Ghost.irefs_pos_get ip (g.get_irefs_pos dp)) ?_)
    show Q ip ((((((g.get dp).get ip).lock dp).lock ip).unlock dp).put dp)
    rw [Ghost.unlock_lock_lock (g := (g.get dp).get ip) hdp hip, Ghost.put_lock, Ghost.put_get_get]
    exact hQ ip fun h => hip (Finset.mem_insert_of_mem h)
  · exact follows_panic _ _

theorem create_rule {Q : Option I → Ghost I F → Prop} (path : Path) (type major minor : BitVec 16)
    (htx : g.tx = true) (hcwd : ∀ e, g.cwd = some e → 0 < g.irefs e) (hnone : Q none g)
    (hsome : ∀ ip, ip ∉ g.locks → Q (some ip) ((g.get ip).lock ip)) :
    Sys.Follows Q (create path type major minor) g := by
  refine .bind (namex_rule path true htx hcwd hnone fun dp name => .bind (ilock_rule fun hdp => ?_))
  refine .bind (dirlookup_rule name (.bind (createNew_rule name type major minor htx hdp hsome)) fun ip _ => ?_)
  refine .bind (iunlockput_rule htx (Ghost.irefs_pos_get ip (g.get_irefs_pos dp)) ?_)
  rw [Ghost.get_lock, Ghost.unlock_lock (g := (g.get dp).get ip) hdp, Ghost.put_get_get]
  refine .bind (ilock_rule fun hip => .act trivial fun d _ => ?_)
  split
  · exact hsome ip hip
  · exact .bind (iunlockput_held htx hip hnone)

theorem openInode_rule {Q : Option I → Ghost I F → Prop} (path : Path) (omode : BitVec 32)
    (htx : g.tx = true) (hcwd : ∀ e, g.cwd = some e → 0 < g.irefs e) (hnone : Q none g)
    (hsome : ∀ ip, ip ∉ g.locks → Q (some ip) ((g.get ip).lock ip)) : Sys.Follows Q (openInode path omode) g := by
  rw [openInode]
  split
  · exact create_rule path _ _ _ htx hcwd hnone hsome
  refine .bind (namei_rule path htx hcwd hnone fun ip => .bind (ilock_rule fun hip => ?_))
  refine .act trivial fun d _ => ?_
  split
  · exact .bind (iunlockput_held htx hip hnone)
  · exact hsome ip hip

theorem sysOpen_rule (path : Option Path) (omode : Option (BitVec 32)) (h : g.Rest) (hfail : Q (.val (-1)) g)
    (hQ : ∀ (fd : Fd) f, g.ofile fd = none → Q (.val fd) ((g.hold f).setSlot fd (some f))) :
    Sys.Follows Q (sysOpen path omode) g := by
  rcases path with _ | path
  · exact hfail
  rcases omode with _ | omode
  · exact hfail
  have hend : Sys.Follows Q (do endOp; fail) g.begin := by
    refine .bind (endOp_rule rfl ?_)
    rw [Ghost.finish_begin h.tx]
    exact hfail
  refine beginOp_rule h.tx (.bind (openInode_rule path omode rfl (fun e => h.cwd_pos) hend fun ip hip => ?_))
  have hbad : Sys.Follows Q (do iunlockput ip; endOp; fail) ((g.begin.get ip).lock ip) := by
    exact .bind (iunlockput_held rfl hip hend)
  refine .act trivial fun r hr => ?_
  rcases r with _ | f
  · exact hbad
  have hf : f ∉ g.fresh := hr f rfl
  refine .bind (fdallocLoop_rule f (.bind (fileclose_new hf hbad)) (fun fd hfd => ?_) _)
  refine .bind (iunlock_rule fun _ => .bind (endOp_rule rfl (.act ⟨?_, ?_⟩ fun _ _ => ?_)))
  · exact Finset.mem_insert_self f g.fresh
  · exact g.begin.get_irefs_pos ip
  -- the steps are on different fields, so they can be undone in any order
  show Q (.val fd) ((((((((g.begin.finish.get ip).put ip).lock ip).unlock ip).renew f).settle f).hold f).setSlot fd
    (some f))
  rw [Ghost.finish_begin h.tx, Ghost.put_get, Ghost.unlock_lock (g := g) hip, Ghost.settle_renew hf]
  exact hQ fd f hfd

theorem make_rule (path : Option Path) (type : BitVec 16) (numbers : Option (BitVec 16 × BitVec 16))
    (htx : g.tx = false) (hcwd : ∀ e, g.cwd = some e → 0 < g.irefs e) (hQ : ∀ n, Q (.val n) g) :
    Sys.Follows Q (make path type numbers) g := by
  refine beginOp_rule htx ?_
  rcases path with _ | path
  · exact endFail_rule htx hQ
  rcases numbers with _ | ⟨major, minor⟩
  · exact endFail_rule htx hQ
  refine .bind (create_rule path type major minor rfl hcwd (endFail_rule htx hQ) fun ip hip => ?_)
  refine .bind (iunlockput_held rfl hip ?_)
  refine .bind (endOp_rule rfl ?_)
  rw [Ghost.finish_begin htx]
  exact hQ 0

theorem sysChdir_rule (path : Option Path) (h : g.Rest) (hfail : ∀ n, Q (.val n) g)
    (hQ : ∀ ip e, g.cwd = some e → Q (.val 0) (((g.get ip).put e).setCwd (some ip))) :
    Sys.Follows Q (sysChdir path) g := by
  refine beginOp_rule h.tx ?_
  rcases path with _ | path
  · exact endFail_rule h.tx hfail
  refine .bind (namei_rule path rfl (fun e => h.cwd_pos) (endFail_rule h.tx hfail) fun ip => ?_)
  refine .bind (ilock_rule fun hip => .quiet trivial (fun _ => rfl) fun d _ => ?_)
  split
  · exact .bind (iunlockput_held rfl hip (endFail_rule h.tx hfail))
  refine .bind (iunlock_rule fun _ => ?_)
  rw [Ghost.unlock_lock hip]
  refine .bind (mycwd_rule fun e he => .bind (iput_rule rfl (Ghost.irefs_pos_get ip (h.cwd_pos he)) ?_))
  refine .bind (endOp_rule rfl (.act trivial fun _ _ => ?_))
  show Q (.val 0) (((g.begin.finish.get ip).put e).setCwd (some ip))
  rw [Ghost.finish_begin h.tx]
  exact hQ ip e he

theorem sysPipe_rule (ptr : Bool) (h : g.Rest) (hfail : Q (.val (-1)) g)
    (hQ : ∀ fd0 fd1 rf wf, g.ofile fd0 = none → ((g.hold rf).setSlot fd0 (some rf)).ofile fd1 = none →
      Q (.val 0) ((((g.hold rf).setSlot fd0 (some rf)).hold wf).setSlot fd1 (some wf))) :
    Sys.Follows Q (sysPipe ptr) g := by
  rw [sysPipe]
  split
  · refine .bind (pipealloc_rule hfail fun rf wf hrf hwf => ?_)
    have hclose : Sys.Follows Q (do fileclose rf; fileclose wf; fail) ((g.hold rf).hold wf) := by
      refine .bind (fileclose_rule h.tx hrf (Ghost.frefs_pos_hold wf (g.hold_frefs_pos rf)) ?_)
      rw [Ghost.letGo_hold_hold]
      refine .bind (fileclose_rule h.tx hwf (g.hold_frefs_pos wf) ?_)
      rw [Ghost.letGo_hold]
      exact hfail
    refine .bind (fdallocLoop_rule rf hclose (fun fd0 h0 => ?_) _)
    refine .bind (fdallocLoop_rule (g := ((g.hold rf).hold wf).setSlot fd0 (some rf)) wf ?_ (fun fd1 h1 => ?_) _)
    · refine .act trivial fun _ _ => ?_
      show Sys.Follows Q _ ((((g.hold rf).hold wf).setSlot fd0 (some rf)).setSlot fd0 none)
      rw [Ghost.setSlot_setSlot (g := (g.hold rf).hold wf) h0]
      exact hclose
    · exact hQ fd0 fd1 rf wf h0 h1
  · exact hfail

/-! ### Descriptors -/

theorem sysDup_rule (n : Int) (h : g.Rest) (hfail : Q (.val (-1)) g)
    (hQ : ∀ (fd : Fd) f, g.ofile fd = none → Q (.val fd) ((g.hold f).setSlot fd (some f))) :
    Sys.Follows Q (sysDup n) g := by
  refine .bind (argfd_rule n hfail fun fd0 f hf => ?_)
  refine .bind (fdallocLoop_rule f hfail (fun fd hfd => ?_) _)
  exact .act ⟨h.slot_pos hf, h.not_fresh f⟩ fun _ _ => hQ fd f hfd

theorem sysClose_rule (n : Int) (h : g.Rest) (hfail : Q (.val (-1)) g)
    (hQ : ∀ fd f, g.ofile fd = some f → Q (.val 0) ((g.letGo f).setSlot fd none)) : Sys.Follows Q (sysClose n) g :=
  .bind (argfd_rule n hfail fun fd f hf => .act trivial fun _ _ =>
    .bind (fileclose_rule h.tx (h.not_fresh f) (h.slot_pos hf) (hQ fd f hf)))

theorem sysRead_rule (n : Int) (len : Option (BitVec 32)) (hQ : ∀ n, Q (.val n) g) :
    Sys.Follows Q (sysRead n len) g := by
  refine .bind (argfd_rule n (hQ _) fun fd f hf => ?_)
  rcases len with _ | len
  · exact hQ _
  · exact .bind (fileread_rule f len fun r => hQ _)

theorem sysWrite_rule (n : Int) (src : Option (List UInt8)) (htx : g.tx = false) (hQ : ∀ n, Q (.val n) g) :
    Sys.Follows Q (sysWrite n src) g := by
  refine .bind (argfd_rule n (hQ _) fun fd f hf => ?_)
  rcases src with _ | src
  · exact hQ _
  · exact .bind (filewrite_rule f src htx fun r => hQ _)

theorem sysFstat_rule (n : Int) (st : Bool) (hQ : ∀ n, Q (.val n) g) : Sys.Follows Q (sysFstat n st) g := by
  refine .bind (argfd_rule n (hQ _) fun fd f hf => ?_)
  dsimp only
  split
  · exact .bind (filestat_rule f fun r => hQ _)
  · exact hQ _

/-! ### Programs -/

theorem exec_rule (path : Path) (argc : Nat) (htx : g.tx = false) (hcwd : ∀ e, g.cwd = some e → 0 < g.irefs e)
    (hQ : ∀ n, Q (.val n) g) : Sys.Follows Q (exec path argc) g := by
  refine beginOp_rule htx (.bind (namei_rule path rfl hcwd (endFail_rule htx hQ) fun ip => ?_))
  refine .bind (ilock_rule fun hip => .bind ((looks _).loadProgram (fun off n _ _ hg hQ => ?_) _ _ rfl ?_))
  · exact readi_rule off n fun r => hQ r _ hg
  rintro b _ rfl
  split
  · refine .bind (iunlockput_rule rfl (g.begin.get_irefs_pos ip) (.bind (endOp_rule rfl ?_)))
    rw [Ghost.unlock_lock hip, Ghost.put_get, Ghost.finish_begin htx]
    refine .act trivial fun b _ => ?_
    split
    · refine .bind ((looks g).pushArgs _ _ _ _ rfl ?_)
      rintro b _ rfl
      split
      · refine .act trivial fun b _ => ?_
        split
        · exact hQ _
        · exact hQ _
      · exact hQ _
    · exact hQ _
  · exact .bind (iunlockput_held rfl hip (endFail_rule htx hQ))

/-! ### Processes -/

/-- The child's descriptors are filled from the list on; nothing else changes. -/
theorem copyFiles_rule (np : Slot) (hfresh : g.fresh = ∅)
    (hpos : ∀ fd f, g.ofile fd = some f → 0 < g.frefs f) (hQ : ∀ o, U () (g.setChild (some ⟨np, o, none⟩))) :
    ∀ fds o, fds.Nodup → (∀ fd ∈ fds, o fd = none) →
      Sys.Follows U (copyFiles np fds) (g.setChild (some ⟨np, o, none⟩))
  | [], o, _, _ => hQ o
  | fd :: fds, o, hnd, ho => by
    obtain ⟨hfd, hnd⟩ := List.nodup_cons.1 hnd
    have hrest := copyFiles_rule np hfresh hpos hQ fds
    refine .act trivial fun r hr => ?_
    rcases r with _ | f
    · exact hrest o hnd fun fd' h => ho fd' (List.mem_cons_of_mem _ h)
    have hf : 0 < g.frefs f := hpos fd f hr.symm
    have hnew : f ∉ g.fresh := by
      rw [hfresh]
      exact Finset.notMem_empty f
    refine .act ⟨hf, hnew⟩ fun _ _ => ?_
    refine .act ⟨Ghost.hold_frefs_pos _ f, hnew, _, rfl, rfl, ho fd List.mem_cons_self⟩ fun _ _ => ?_
    show Sys.Follows U (copyFiles np fds) (((g.hold f).letGo f).setChild (some ⟨np, update o fd (some f), none⟩))
    rw [Ghost.letGo_hold]
    refine hrest _ hnd fun fd' h => ?_
    have hne : fd' ≠ fd := by
      rintro rfl
      exact hfd h
    rw [update_of_ne hne]
    exact ho fd' (List.mem_cons_of_mem _ h)

theorem startChild_rule (np : Slot) (h : g.Rest) (hQ : ∀ n, Q (.val n) g) :
    Sys.Follows Q (startChild np) (g.setChild (some ⟨np, fun _ => none, none⟩)) := by
  refine .bind (copyFiles_rule np h.fresh (fun fd f => h.slot_pos) (fun o => ?_) _ _ (List.nodup_finRange _)
    fun _ _ => rfl)
  refine .bind (mycwd_rule fun ip hip => .act (h.cwd_pos hip) fun _ _ => ?_)
  refine .act ⟨Ghost.get_irefs_pos _ ip, _, rfl, rfl, rfl⟩ fun _ _ => .act ⟨_, rfl, rfl⟩ fun n _ => ?_
  show Q (.val n) (((g.get ip).put ip).setChild none)
  rw [Ghost.put_get, Ghost.setChild_eq h.child]
  exact hQ n

theorem fork_rule (h : g.Rest) (hQ : ∀ n, Q (.val n) g) : Sys.Follows Q fork g := by
  refine .act h.child fun r _ => ?_
  rcases r with _ | np
  · exact hQ _
  refine .act trivial fun b _ => ?_
  split
  · exact startChild_rule np h hQ
  refine .act rfl fun _ _ => ?_
  show Q (.val (-1)) (g.setChild none)
  rw [Ghost.setChild_eq h.child]
  exact hQ _

/-- Each turn empties a descriptor and ends at rest again. -/
theorem closeFiles_rule : ∀ fds {g : Ghost I F}, g.Rest →
    (∀ g' : Ghost I F, g'.Rest → g'.cwd = g.cwd → (∀ fd, g.ofile fd = none ∨ fd ∈ fds → g'.ofile fd = none) → U () g') →
    Sys.Follows U (closeFiles fds) g
  | [], g, h, hQ => hQ g h rfl fun fd hfd => by simpa using hfd
  | fd :: fds, g, h, hQ => by
    refine .act trivial fun r hr => ?_
    rcases r with _ | f
    · refine closeFiles_rule fds h fun g' h' hcwd hnone => hQ g' h' hcwd fun fd' hfd' => hnone fd' ?_
      rcases hfd' with hfd' | hfd'
      · exact .inl hfd'
      rcases List.mem_cons.1 hfd' with rfl | hfd'
      · exact .inl hr.symm
      · exact .inr hfd'
    refine .bind (fileclose_rule h.tx (h.not_fresh f) (h.slot_pos hr.symm) (.act trivial fun _ _ => ?_))
    show Sys.Follows U (closeFiles fds) ((g.letGo f).setSlot fd none)
    refine closeFiles_rule fds (h.clear hr.symm) fun g' h' hcwd hnone => hQ g' h' hcwd fun fd' hfd' => hnone fd' ?_
    by_cases heq : fd' = fd
    · subst heq
      exact .inl (update_self _ _ _)
    rcases hfd' with hfd' | hfd'
    · left
      show update g.ofile fd none fd' = none
      rwa [update_of_ne heq]
    · exact .inr ((List.mem_cons.1 hfd').resolve_left heq)

theorem exit_rule (h : g.Rest) (hQ : ∀ g' : Ghost I F, g'.Rest → (∀ fd, g'.ofile fd = none) → g'.cwd = none → Q .gone g') :
    Sys.Follows Q exit g := by
  refine .act trivial fun b _ => ?_
  split
  · exact follows_panic _ _
  refine .bind (closeFiles_rule _ h fun g' h' hcwd hnone => beginOp_rule h'.tx ?_)
  refine .bind (mycwd_rule fun ip hip => .bind (iput_rule rfl (h'.cwd_pos hip) ?_))
  refine .bind (endOp_rule rfl (.act trivial fun _ _ => ?_))
  show Q .gone ((g'.begin.finish.put ip).setCwd none)
  rw [Ghost.finish_begin h'.tx]
  exact hQ _ (h'.leave hip) (fun fd => hnone fd (.inr (List.mem_finRange fd))) rfl

theorem clone_rule (stack : Bool) (h : g.Rest) (hret : ∀ n, Q (.val n) g)
    (hgone : ∀ g' : Ghost I F, g'.Rest → (∀ fd, g'.ofile fd = none) → g'.cwd = none → Q .gone g') :
    Sys.Follows Q (clone stack) g := by
  rw [clone]
  split
  · refine .act h.child fun r _ => ?_
    rcases r with _ | np
    · exact hret _
    · exact startChild_rule np h hret
  · exact exit_rule h hgone

end Rules

/-- **Every call that starts at rest follows the protocol and ends at rest**, whatever it is answered. -/
theorem Call.code_follows (c : Call) {g : Ghost I F} (h : g.Rest) : Sys.Follows Done c.code g := by
  have hsame : ∀ n, Done (.val n) g := fun _ => h
  have hcwd : ∀ e, g.cwd = some e → 0 < g.irefs e := fun _ => h.cwd_pos
  have hgone : ∀ g' : Ghost I F, g'.Rest → (∀ fd, g'.ofile fd = none) → g'.cwd = none → Done .gone g' :=
    fun g' h' ho hc => ⟨h', ho, hc⟩
  cases c with
  | dup n => exact sysDup_rule n h h fun fd f hfd => h.fill hfd f
  | read n len => exact sysRead_rule n len hsame
  | write n src => exact sysWrite_rule n src h.tx hsame
  | close n => exact sysClose_rule n h h fun fd f hf => h.clear hf
  | fstat n st => exact sysFstat_rule n st hsame
  | link old new => exact sysLink_rule old new h.tx hcwd hsame
  | unlink path => exact sysUnlink_rule path h.tx hcwd hsame
  | «open» path omode => exact sysOpen_rule path omode h h fun fd f hfd => h.fill hfd f
  | mkdir path => exact make_rule path _ _ h.tx hcwd hsame
  | mknod path numbers => exact make_rule path _ numbers h.tx hcwd hsame
  | chdir path => exact sysChdir_rule path h hsame fun ip e he => h.move he ip
  | exec path argc =>
    rcases path with _ | path
    · exact h
    rcases argc with _ | argc
    · exact h
    · exact exec_rule path argc h.tx hcwd hsame
  | pipe ptr => exact sysPipe_rule ptr h h fun fd0 fd1 rf wf h0 h1 => (h.fill h0 rf).fill h1 wf
  | fork => exact fork_rule h hsame
  | clone stack => exact clone_rule stack h hsame hgone
  | exit => exact exit_rule h hgone

end Xv6.Sysfile
