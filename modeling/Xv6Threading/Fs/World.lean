import Xv6Threading.Fs.Specs

/-!
# Processes and open files

Between calls the references to an inode are those of the working directories and the open files, so that `Live` holds
of their number. Every call keeps it, and does to the inodes what `Main` says.
-/

namespace Xv6.Fs

namespace World

variable (w : World)

@[simp] theorem task_setTask (p : Slot) (t : Option Task) : (w.setTask p t).task = Function.update w.task p t := by
  funext q
  simp [task, setTask, Vector.getElem_set, Function.update_apply, Fin.ext_iff, eq_comm]

@[simp] theorem file_setFile (f : Fin NFILE) (x : File) : (w.setFile f x).file = Function.update w.file f x := by
  funext g
  simp [file, setFile, Vector.getElem_set, Function.update_apply, Fin.ext_iff, eq_comm]

@[simp] theorem file_setTask (p : Slot) (t : Option Task) : (w.setTask p t).file = w.file := rfl
@[simp] theorem task_setFile (f : Fin NFILE) (x : File) : (w.setFile f x).task = w.task := rfl
@[simp] theorem task_setFs (s : Store) : (w.setFs s).task = w.task := rfl
@[simp] theorem file_setFs (s : Store) : (w.setFs s).file = w.file := rfl

end World

/-! ## Who holds an inode -/

/-- The working directory. -/
def Task.holds (i : Inum) : Option Task → Nat
  | none => 0
  | some t => if i = t.cwd then 1 else 0

/-- An open file. -/
def File.holds (i : Inum) (x : File) : Nat := if 0 < x.ref then if i = x.ip then 1 else 0 else 0

def holders (w : World) (i : Inum) : Nat := ∑ p, Task.holds i (w.task p) + ∑ f, File.holds i (w.file f)

section Holders

variable {w : World} {i : Inum} {p : Slot}

@[simp] theorem holders_setFs (w : World) (s : Store) : holders (w.setFs s) = holders w := rfl

theorem holders_setTask (w : World) (p : Slot) (t : Option Task) (i : Inum) :
    holders (w.setTask p t) i + Task.holds i (w.task p) = holders w i + Task.holds i t := by
  have h := Links.sum_update (Task.holds i) w.task p t
  simp only [holders, World.task_setTask, World.file_setTask]
  omega

theorem holders_setFile (w : World) (f : Fin NFILE) (x : File) (i : Inum) :
    holders (w.setFile f x) i + File.holds i (w.file f) = holders w i + File.holds i x := by
  have h := Links.sum_update (File.holds i) w.file f x
  simp only [holders, World.file_setFile, World.task_setFile]
  omega

theorem holders_pos {t : Task} (ht : w.task p = some t) : 0 < holders w t.cwd := by
  have h := holders_setTask w p none t.cwd
  simp only [ht, Task.holds, if_true] at h
  omega

theorem holders_of_cwd {t t' : Task} (ht : w.task p = some t) (hc : t'.cwd = t.cwd) :
    holders (w.setTask p (some t')) = holders w := by
  funext i
  have h := holders_setTask w p (some t') i
  simp only [ht, Task.holds, hc] at h
  omega

end Holders

/-! ## The calls -/

/-- What every call comes to. -/
def Done (w : World) (t : Task) (c : Call) (w' : World) : Prop :=
  Live (holders w') 0 0 w'.fs ∧ ∃ m, Main w.fs.node t.cwd c m ∧ Frees m w'.fs.node

section Files

variable {w v : World} {n : Inum → Inode}

/-- A call has come to `v`, with the same processes, and only freed inodes. -/
def Along (w v : World) : Prop := v.task = w.task ∧ Live (holders v) 0 0 v.fs ∧ Frees w.fs.node v.fs.node

theorem filedup_spec (h : Along w v) (f : Fin NFILE) : Outcome (v.filedup f) (Stops n) (Along w) := by
  unfold World.filedup
  split
  · exact .stop (Stops.of_ne (by decide))
  rename_i hpos
  have hold : holders (v.setFile f ⟨(v.file f).ref + 1, (v.file f).ip⟩) = holders v := by
    funext i
    have hf := holders_setFile v f ⟨(v.file f).ref + 1, (v.file f).ip⟩ i
    simp only [File.holds, if_pos (Nat.succ_pos _), if_pos (show 0 < (v.file f).ref by omega)] at hf
    omega
  have hl := h.2.1
  rw [← hold] at hl
  exact .ret ⟨h.1, hl, h.2.2⟩

theorem fileclose_spec (h : Along w v) (f : Fin NFILE) : Outcome (v.fileclose f) (Stops n) (Along w) := by
  unfold World.fileclose
  split
  · exact .stop (Stops.of_ne (by decide))
  rename_i hpos
  have hold := holders_setFile v f ⟨(v.file f).ref - 1, (v.file f).ip⟩
  simp only [File.holds, if_pos (show 0 < (v.file f).ref by omega)] at hold
  dsimp only
  split
  · -- the last reference to the file
    simp only [if_neg (show ¬ 0 < (v.file f).ref - 1 by omega), Nat.add_zero] at hold
    obtain ⟨hl, hf⟩ := (h.2.1.drop fun i => (hold i).symm).iput_frees h.2.2
    exact .ret ⟨h.1, hl, hf⟩
  simp only [if_pos (show 0 < (v.file f).ref - 1 by omega), Nat.add_right_cancel_iff] at hold
  have hl := h.2.1
  rw [← funext hold] at hl
  exact .ret ⟨h.1, hl, h.2.2⟩

end Files

section Calls

variable {w : World} {p : Slot} {t : Task} {n : Inum → Inode} (h : Live (holders w) 0 0 w.fs) (ht : w.task p = some t)

include h

theorem Along.refl : Along w w := ⟨rfl, h, .refl⟩

include ht

/-- The descriptors are not what counts. -/
theorem live_setTask (o : Vector (Option (Fin NFILE)) NOFILE) :
    Live (holders (w.setTask p (some { t with ofile := o }))) 0 0 (w.setTask p (some { t with ofile := o })).fs := by
  rw [holders_of_cwd ht (show ({ t with ofile := o } : Task).cwd = t.cwd from rfl)]
  exact h

theorem close_spec (fd : Fin NOFILE) : Outcome (w.close p t fd) (Stops n) (Done w t (.close fd)) := by
  unfold World.close
  split
  · exact .ret ⟨h, _, .none, .refl⟩
  rename_i f _
  apply (fileclose_spec (Along.refl (live_setTask h ht _)) f).mono
  rintro v ⟨-, hl, hf⟩
  exact ⟨hl, _, .none, hf⟩

theorem dup_spec (fd : Fin NOFILE) : Outcome (w.dup p t fd) (Stops n) (Done w t (.dup fd)) := by
  unfold World.dup
  split
  next f _ _ _ =>
    apply (filedup_spec (Along.refl (live_setTask h ht _)) f).mono
    rintro v ⟨-, hl, hf⟩
    exact ⟨hl, _, .none, hf⟩
  · exact .ret ⟨h, _, .none, .refl⟩

theorem fork_spec {np : Slot} (hnp : w.task np = none) : Outcome (w.fork t np) (Stops n) (Done w t (.fork np)) := by
  refine Outcome.bind (Q := Along w) (.foldlM ?_ _ (Along.refl h)) ?_
  · rintro v (_ | f) hv
    · exact .ret hv
    · exact filedup_spec hv f
  rintro v ⟨htask, hl, hf⟩
  have hpos : 0 < holders v t.cwd := holders_pos (p := p) (by rw [htask, ht])
  refine .ret ⟨?_, _, .none, hf⟩
  apply (hl.idup hpos).share hpos
  intro i
  have hset := holders_setTask (v.setFs (v.fs.idup t.cwd)) np (some t) i
  rw [World.task_setFs, htask, hnp] at hset
  simpa [Task.holds] using hset

theorem exit_spec : Outcome (w.exit p t) (Stops n) (Done w t .exit) := by
  refine Outcome.bind (Q := Along w) (.foldlM ?_ _ (Along.refl h)) ?_
  · rintro v (_ | f) hv
    · exact .ret hv
    · exact fileclose_spec hv f
  rintro v ⟨htask, hl, hf⟩
  have hold : ∀ i, holders v i =
      holders ((v.setFs (v.fs.iput t.cwd)).setTask p none) i + if i = t.cwd then 1 else 0 := by
    intro i
    have hset := holders_setTask (v.setFs (v.fs.iput t.cwd)) p none i
    rw [World.task_setFs, htask, ht] at hset
    simpa [Task.holds] using hset.symm
  obtain ⟨hl', hf'⟩ := (hl.drop hold).iput_frees hf
  exact .ret ⟨hl', _, .none, hf'⟩

variable (hs : Sound w.fs.node)

include hs

theorem chdir_spec (path : List UInt8) : Outcome (w.chdir p t path) (Stops w.fs.node) (Done w t (.chdir path)) := by
  apply ((namei_spec h h.steady hs.root_ne (holders_pos ht) path).mono_error fun _ => Short.stops).bind
  rintro ⟨s1, r⟩ ⟨hn1, -, hfound, hfine⟩
  dsimp only at hn1
  have hdone : ∀ {s : Store}, Live (holders w) 0 0 s → Frees w.fs.node s.node → Done w t (.chdir path) (w.setFs s) :=
    fun hl hf => ⟨hl, _, .none, hf⟩
  cases r with
  | none => exact .ret (hdone hfound (.of_eq hn1))
  | some ip =>
    have hl1 : Live (holders w) 0 (ip ::ₘ 0) s1 := hfound
    apply (hl1.ilock (by rw [hn1]; exact hfine ip rfl)).bind
    rintro s2 ⟨hn2, hl2, -⟩
    have hf2 : Frees w.fs.node s2.node := .of_eq (hn2.trans hn1)
    split
    · obtain ⟨hl3, hf3⟩ := hl2.unlock.iput_frees hf2
      exact .ret (hdone hl3 hf3)
    have hold : ∀ i, holders w i + (if i = ip then 1 else 0) =
        holders ((w.setFs (s2.iput t.cwd)).setTask p (some { t with cwd := ip })) i +
          if i = t.cwd then 1 else 0 := by
      intro i
      have hset := holders_setTask (w.setFs (s2.iput t.cwd)) p (some { t with cwd := ip }) i
      rw [World.task_setFs, ht] at hset
      simpa [Task.holds] using hset.symm
    obtain ⟨hl3, hf3⟩ := ((hl2.keep fun _ => rfl).drop hold).iput_frees hf2
    exact .ret ⟨hl3, _, .none, hf3⟩

theorem openInode_spec (path : List UInt8) (omode : BitVec 32) :
    Outcome (World.openInode w.fs t.cwd path omode) (Stops w.fs.node) fun r => Given (holders w) r.1 r.2 ∧
      ∃ m, Main w.fs.node t.cwd (.open path omode) m ∧ Frees m r.1.node := by
  unfold World.openInode
  split
  next hcreate =>
    exact create_spec h hs (holders_pos ht) (c := .open path omode) (if_pos hcreate) (by decide)
  apply ((namei_spec h h.steady hs.root_ne (holders_pos ht) path).mono_error fun _ => Short.stops).bind
  rintro ⟨s1, r⟩ ⟨hn1, -, hfound, hfine⟩
  dsimp only at hn1
  cases r with
  | none => exact .ret ⟨hfound, _, .none, .of_eq hn1⟩
  | some ip =>
    have hl1 : Live (holders w) 0 (ip ::ₘ 0) s1 := hfound
    apply (hl1.ilock (by rw [hn1]; exact hfine ip rfl)).bind
    rintro s2 ⟨hn2, hl2, -⟩
    have hf2 : Frees w.fs.node s2.node := .of_eq (hn2.trans hn1)
    split
    · obtain ⟨hl3, hf3⟩ := hl2.unlock.iput_frees hf2
      exact .ret ⟨hl3, _, .none, hf3⟩
    · exact .ret ⟨hl2, _, .none, hf2⟩

theorem openFile_spec (path : List UInt8) (omode : BitVec 32) :
    Outcome (w.openFile p t path omode) (Stops w.fs.node) (Done w t (.open path omode)) := by
  apply (openInode_spec h ht hs path omode).bind
  rintro ⟨s1, r⟩ ⟨hg, m, hm, hf⟩
  cases r with
  | none => exact .ret ⟨hg, m, hm, hf⟩
  | some ip =>
    have hl : Live (holders w) (ip ::ₘ 0) 0 s1 := hg
    dsimp only
    split
    next f fd hfa _ =>
      have hz : (w.file f).ref = 0 := by simpa using (Fin.find?_eq_some_iff.1 hfa).1
      refine .ret ⟨hl.keep ?_, m, hm, hf⟩
      intro i
      have hfile := holders_setFile (w.setFs s1) f ⟨1, ip⟩ i
      have hcwd : holders (((w.setFs s1).setFile f ⟨1, ip⟩).setTask p
          (some { t with ofile := t.ofile.set fd (some f) })) = holders ((w.setFs s1).setFile f ⟨1, ip⟩) :=
        holders_of_cwd (t := t) ht rfl
      rw [hcwd]
      simpa [File.holds, hz] using hfile
    · obtain ⟨hl', hf'⟩ := hl.unlock.iput_frees hf
      exact .ret ⟨hl', m, hm, hf'⟩

/-- `mkdir` and `mknod` put back what they made. -/
theorem make_spec {c : Call} {path : List UInt8} {ty : Itype} {major minor : BitVec 16}
    (hc : c.creates = some (path, ty, major, minor)) (hty : ty ≠ .free) :
    Outcome ((w.fs.create t.cwd path ty major minor).map fun (s, r) => some (w.setFs (r.elim s s.iput)))
      (Stops w.fs.node) fun r => ∀ w', r = some w' → Done w t c w' := by
  apply ((create_spec h hs (holders_pos ht) hc hty).mono ?_).map
  rintro ⟨s, r⟩ ⟨hg, m, hm, hf⟩ w' ⟨⟩
  cases r with
  | none => exact ⟨hg, m, hm, hf⟩
  | some ip =>
    have hl : Live (holders w) (ip ::ₘ 0) 0 s := hg
    obtain ⟨hl', hf'⟩ := hl.unlock.iput_frees hf
    exact ⟨hl', m, hm, hf'⟩

end Calls

/-- `link` is not given an inode whose count is at its end. -/
def Linkable (n : Inum → Inode) (cwd : Inum) : Call → Prop
  | .link old _ => ∀ q ∈ resolve n cwd old false, (n q.1).nlink ≠ -1
  | _ => True

/-- **Every call keeps the references and makes at most one of the changes.** -/
theorem call_spec {w : World} {a : Act} (h : Live (holders w) 0 0 w.fs) (hs : Sound w.fs.node)
    (hg : ∀ t, w.task a.p = some t → Linkable w.fs.node t.cwd a.call) :
    Outcome (w.call a) (Stops w.fs.node) fun r =>
      ∀ w', r = some w' → ∃ t, w.task a.p = some t ∧ Done w t a.call w' := by
  obtain ⟨p, c⟩ := a
  dsimp only at hg ⊢
  unfold World.call
  dsimp only
  cases ht : w.task p with
  | none => exact .ret nofun
  | some t =>
    have hcwd := holders_pos ht
    have hwrap : ∀ {x : Except Panic World}, Outcome x (Stops w.fs.node) (Done w t c) →
        Outcome (x.map some) (Stops w.fs.node) fun r => ∀ w', r = some w' → ∃ t', some t = some t' ∧ Done w t' c w' := by
      intro x hx
      apply (hx.mono ?_).map
      rintro v hv w' ⟨⟩
      exact ⟨t, rfl, hv⟩
    have hown : ∀ {x : Except Panic (Option World)},
        Outcome x (Stops w.fs.node) (fun r => ∀ w', r = some w' → Done w t c w') →
        Outcome x (Stops w.fs.node) fun r => ∀ w', r = some w' → ∃ t', some t = some t' ∧ Done w t' c w' :=
      fun hx => hx.mono fun r hr w' hw' => ⟨t, rfl, hr w' hw'⟩
    cases c with
    | mkdir path => exact hown (make_spec h ht hs rfl (by decide))
    | mknod path major minor => exact hown (make_spec h ht hs rfl (by decide))
    | «open» path omode => exact hwrap (openFile_spec h ht hs path omode)
    | link old new =>
      apply hown
      apply ((link_spec h hs hcwd (hg t ht)).mono ?_).map
      rintro ⟨s, b⟩ hdone w' ⟨⟩
      exact hdone
    | unlink path =>
      apply hown
      apply ((unlink_spec h hs hcwd).mono ?_).map
      rintro ⟨s, b⟩ hdone w' ⟨⟩
      exact hdone
    | chdir path => exact hwrap (chdir_spec h ht hs path)
    | close fd => exact hwrap (close_spec h ht fd)
    | dup fd => exact hwrap (dup_spec h ht fd)
    | fork np =>
      dsimp only
      split
      · exact .ret nofun
      next hnp =>
        exact hwrap (fork_spec h ht (by simpa using hnp))
    | exit =>
      dsimp only
      split
      · exact .stop (Stops.of_ne (by decide))
      · exact hwrap (exit_spec h ht)

end Xv6.Fs
