import Xv6Threading.Sysfile.Counts

/-!
# Every action keeps the accounts

`Inv.perform`: an action of a process that keeps to the protocol is answered as the protocol says, and with the
record it has then the accounts of `Counts` are right again. One lemma for each action that changes something; the
records of the other processes inside calls stay as they are.
-/

namespace Xv6.Sysfile

open Function

variable {s s' : Kernel} {v : Slot → Rec} {p : Slot}

namespace Inv

variable {g : Rec}

/-- The record of one process changes: the parts one by one. -/
theorem change (inodes : Inodes s'.icache s'.ftable (update (fun q => (v q).irefs) p g.irefs))
    (files : Files s'.ftable (update (fun q => (v q).frefs) p g.frefs)
      (update (fun q => (v q).fresh) p g.fresh))
    (pipes : Pipes s'.pipes s'.npipes s'.ftable (update (fun q => (v q).ends) p g.ends))
    (locks : Owners (fun e => (s'.icache e).lock) (update (fun q => (v q).locks) p g.locks))
    (bufs : Owners s'.bufs (update (fun q => (v q).bufs) p g.bufs))
    (procs : Procs s' (update v p g)) : Inv s' (update v p g) where
  inodes := by rwa [field_update Ghost.irefs]
  files := by rwa [field_update Ghost.frefs, field_update Ghost.fresh]
  pipes := by rwa [field_update Ghost.ends]
  locks := by rwa [field_update Ghost.locks]
  bufs := by rwa [field_update Ghost.bufs]
  procs := procs

variable (h : Inv s v)

include h

theorem inodes_same (p : Slot) : Inodes s.icache s.ftable (update (fun q => (v q).irefs) p (v p).irefs) := by
  rw [update_eq_self]
  exact h.inodes

theorem files_same (p : Slot) :
    Files s.ftable (update (fun q => (v q).frefs) p (v p).frefs)
      (update (fun q => (v q).fresh) p (v p).fresh) := by
  rw [update_eq_self, update_eq_self]
  exact h.files

theorem pipes_same (p : Slot) : Pipes s.pipes s.npipes s.ftable (update (fun q => (v q).ends) p (v p).ends) := by
  rw [update_eq_self]
  exact h.pipes

theorem locks_same (p : Slot) :
    Owners (fun e => (s.icache e).lock) (update (fun q => (v q).locks) p (v p).locks) := by
  rw [update_eq_self]
  exact h.locks

theorem bufs_same (p : Slot) : Owners s.bufs (update (fun q => (v q).bufs) p (v p).bufs) := by
  rw [update_eq_self]
  exact h.bufs

/-- An entry of the inode cache changes, its lock does not. -/
theorem locks_entry (p : Slot) {e : E} {x : Ient} (hx : x.lock = (s.icache e).lock) :
    Owners (fun i => (update s.icache e x i).lock) (update (fun q => (v q).locks) p (v p).locks) := by
  rw [field_same Ient.lock hx]
  exact h.locks_same p

end Inv

theorem Phase.eq_unused {x : Phase} (hx : x.isUnused = true) : x = .unused := by
  cases x <;> first | rfl | cases hx

/-- After an action of `p`: the accounts are right with the new record of `p`, and the other calls have not moved. -/
def Kept (s : Kernel) (v : Slot → Rec) (p : Slot) (s' : Kernel) (g : Rec) : Prop :=
  ∃ v', Inv s' v' ∧ v' p = g ∧ (∀ q, q ≠ p → (s.phase q).isBusy = true → v' q = v q) ∧
    ∀ q, (s.phase q).isBusy = true ∨ (s'.phase q).isBusy = true → s'.phase q = s.phase q

theorem Inv.kept {g : Rec} (h : Inv s' (update v p g))
    (hphase : ∀ q, (s.phase q).isBusy = true ∨ (s'.phase q).isBusy = true → s'.phase q = s.phase q) :
    Kept s v p s' g :=
  ⟨_, h, update_self _ _ _, fun _ hq _ => update_of_ne hq _ _, hphase⟩

/-! ## Actions -/

namespace Inv

variable (h : Inv s v) (hp : (s.phase p).isBusy = true) {e : E}

include h hp

/-- Something that is not accounted for changes. -/
theorem other (s' : Kernel) (tx : Bool) (hi : ∀ e, (s'.icache e).ref = (s.icache e).ref ∧
      (s'.icache e).dev = (s.icache e).dev ∧ (s'.icache e).inum = (s.icache e).inum ∧
        (s'.icache e).lock = (s.icache e).lock)
    (hf : s'.ftable = s.ftable) (hpipes : s'.pipes = s.pipes) (hn : s'.npipes = s.npipes) (hb : s'.bufs = s.bufs)
    (hphase : s'.phase = s.phase) (ho : s'.ofile = s.ofile) (hc : s'.cwd = s.cwd) :
    Kept s v p s' { v p with tx := tx } := by
  refine kept (change ?_ ?_ ?_ ?_ ?_ (h.procs.same hp hphase ho hc rfl rfl rfl)) fun q _ => congrFun hphase q
  · obtain ⟨hcount, huniq⟩ := h.inodes_same p
    refine ⟨fun e => ?_, fun e e' => ?_⟩
    · rw [(hi e).1, hf]
      exact hcount e
    · rw [(hi e).1, (hi e').1, (hi e).2.1, (hi e').2.1, (hi e).2.2.1, (hi e').2.2.1]
      exact huniq e e'
  · rw [hf]
    exact h.files_same p
  · rw [hf, hpipes, hn]
    exact h.pipes_same p
  · intro e q
    show (s'.icache e).lock = some q ↔ _
    rw [(hi e).2.2.2]
    exact h.locks_same p e q
  · rw [hb]
    exact h.bufs_same p

theorem quiet (tx : Bool) : Kept s v p s { v p with tx := tx } :=
  h.other hp s tx (fun _ => ⟨rfl, rfl, rfl, rfl⟩) rfl rfl rfl rfl rfl rfl rfl

theorem entry {x : Ient} (href : x.ref = (s.icache e).ref) (hdev : x.dev = (s.icache e).dev)
    (hinum : x.inum = (s.icache e).inum) (hlock : x.lock = (s.icache e).lock) :
    Kept s v p (s.setIent e x) (v p) := by
  refine h.other hp (s.setIent e x) (v p).tx (fun i => ?_) rfl rfl rfl rfl rfl rfl rfl
  by_cases hi : i = e
  · subst hi
    simp [Kernel.setIent, href, hdev, hinum, hlock]
  · simp [Kernel.setIent, hi]

theorem setDisk (disk : Nat → Block) : Kept s v p { s with disk := disk } (v p) :=
  h.other hp { s with disk := disk } (v p).tx (fun _ => ⟨rfl, rfl, rfl, rfl⟩) rfl rfl rfl rfl rfl rfl rfl

variable {ip : E} {f : F} {x : Option Slot} {g : Rec}

/-- An entry of the inode cache changes with the references of the process. -/
theorem setIent {x : Ient} (hg : g = { v p with irefs := g.irefs }) (hx : x.lock = (s.icache e).lock)
    (hin : Inodes (update s.icache e x) s.ftable (update (fun q => (v q).irefs) p g.irefs)) :
    Kept s v p (s.setIent e x) g := by
  rw [hg]
  exact kept (change hin (h.files_same p) (h.pipes_same p) (h.locks_entry p hx) (h.bufs_same p)
    (h.procs.same hp rfl rfl rfl rfl rfl rfl)) fun _ _ => rfl

theorem idup (hpos : 0 < (v p).irefs ip) : Kept s v p (s.setRef ip ((s.icache ip).ref + 1)) ((v p).get ip) := by
  refine h.setIent hp rfl rfl ?_
  refine h.inodes.adjust rfl rfl ?_ fun _ => h.inodes.ref_pos hpos
  show (s.icache ip).ref + 1 + (v p).irefs ip = (s.icache ip).ref + ((v p).irefs ip + 1)
  omega

theorem drop (hpos : 0 < (v p).irefs ip) : Kept s v p (s.setRef ip ((s.icache ip).ref - 1)) ((v p).put ip) := by
  refine h.setIent hp rfl rfl ?_
  have hle : (v p).irefs ip ≤ (s.icache ip).ref := h.inodes.irefs_le (p := p)
  refine h.inodes.adjust rfl rfl ?_ fun _ => h.inodes.ref_pos hpos
  show (s.icache ip).ref - 1 + (v p).irefs ip = (s.icache ip).ref + ((v p).irefs ip - 1)
  omega

theorem iget {dev inum : Nat} (hget : s.iget dev inum = some (e, s')) : Kept s v p s' ((v p).get e) := by
  obtain ⟨hused, rfl⟩ | ⟨hempty, hnew, rfl⟩ := Kernel.iget_cases hget
  · refine h.setIent hp rfl rfl ?_
    refine h.inodes.adjust rfl rfl ?_ fun _ => hused
    show (s.icache e).ref + 1 + (v p).irefs e = (s.icache e).ref + ((v p).irefs e + 1)
    omega
  · exact h.setIent hp rfl rfl (h.inodes.fill rfl hempty hnew)

theorem setLock (hg : g = { v p with locks := g.locks }) (hown : Owners (update (fun e => (s.icache e).lock) ip x)
      (update (fun q => (v q).locks) p g.locks)) : Kept s v p (s.setLock ip x) g := by
  rw [hg]
  refine kept (change ?_ (h.files_same p) (h.pipes_same p) ?_ (h.bufs_same p)
    (h.procs.same hp rfl rfl rfl rfl rfl rfl)) fun _ _ => rfl
  · exact (h.inodes_same p).entry rfl rfl rfl
  · show Owners (fun e => (update s.icache ip { s.icache ip with lock := x } e).lock) _
    rw [field_update Ient.lock]
    exact hown

theorem setBuf {b : Nat} (hg : g = { v p with bufs := g.bufs })
    (hown : Owners (update s.bufs b x) (update (fun q => (v q).bufs) p g.bufs)) :
    Kept s v p (s.setBuf b x) g := by
  rw [hg]
  exact kept (change (h.inodes_same p) (h.files_same p) (h.pipes_same p) (h.locks_same p) hown
    (h.procs.same hp rfl rfl rfl rfl rfl rfl)) fun _ _ => rfl

theorem setCwd (ip : Option E) : Kept s v p (s.setCwd p ip) ((v p).setCwd ip) := by
  refine kept (change (h.inodes_same p) (h.files_same p) (h.pipes_same p) (h.locks_same p) (h.bufs_same p)
    (h.procs.own hp rfl ?_ rfl rfl)) fun _ _ => rfl
  show s.ofile = update s.ofile p (v p).ofile
  rw [h.procs.ofile, update_eq_self]

theorem setOfile (fd : Fd) (f : Option F) : Kept s v p (s.setOfile p fd f) ((v p).setSlot fd f) := by
  refine kept (change (h.inodes_same p) (h.files_same p) (h.pipes_same p) (h.locks_same p) (h.bufs_same p)
    (h.procs.own hp rfl ?_ ?_ rfl)) fun _ _ => rfl
  · show update s.ofile p _ = update s.ofile p (update (v p).ofile fd f)
    rw [h.procs.ofile]
  · show s.cwd = update s.cwd p (v p).cwd
    rw [h.procs.cwd, update_eq_self]

/-! ### Files -/

/-- The file table and the pipes change with the references of the process. -/
theorem tables {ft : F → Fent} {pi : Nat → Pipe} {n : Nat}
    (hg : g = { v p with irefs := g.irefs, frefs := g.frefs, fresh := g.fresh, ends := g.ends })
    (hin : Inodes s.icache ft (update (fun q => (v q).irefs) p g.irefs))
    (hfiles : Files ft (update (fun q => (v q).frefs) p g.frefs) (update (fun q => (v q).fresh) p g.fresh))
    (hpipes : Pipes pi n ft (update (fun q => (v q).ends) p g.ends)) :
    Kept s v p { s with ftable := ft, pipes := pi, npipes := n } g := by
  rw [hg]
  exact kept (change hin hfiles hpipes (h.locks_same p) (h.bufs_same p)
    (h.procs.same hp rfl rfl rfl rfl rfl rfl)) fun _ _ => rfl

omit hp in
/-- An entry of the file table changes, its type does not. -/
theorem inodes_file {x : Fent} (hx : x.file.type = (s.ftable f).file.type) :
    Inodes s.icache (update s.ftable f x) (update (fun q => (v q).irefs) p (v p).irefs) :=
  h.inodes.move fun e => by rw [hx]

omit hp in
theorem pipes_file {x : Fent} (hx : x.file.type = (s.ftable f).file.type)
    (hw : x.file.writable = (s.ftable f).file.writable) :
    Pipes s.pipes s.npipes (update s.ftable f x) (update (fun q => (v q).ends) p (v p).ends) :=
  h.pipes.move fun k w => by rw [hx, hw]

theorem filealloc : (∀ f, s.emptyFent = some f → f ∉ (v p).fresh) ∧
    Kept s v p (s.emptyFent.elim s (s.setFref · 1)) (s.emptyFent.elim (v p) (v p).new) := by
  have hempty : ∀ f, s.emptyFent = some f → (s.ftable f).ref = 0 :=
    fun f hf => of_decide_eq_true (Fin.eq_true_of_find?_eq_some hf)
  refine ⟨fun f hf hfresh => ?_, ?_⟩
  · have := (h.files.fresh p f hfresh).1
    rw [hempty f hf] at this
    cases this
  cases hf : s.emptyFent with
  | none => exact h.quiet hp _
  | some f =>
    have href := hempty f hf
    exact h.tables hp rfl (h.inodes_file rfl) (h.files.alloc rfl (h.files.typed f href) href) (h.pipes_file rfl rfl)

section

variable (hpos : 0 < (v p).frefs f)
include hpos

theorem filedup (hf : f ∉ (v p).fresh) : Kept s v p (s.setFref f ((s.ftable f).ref + 1)) ((v p).hold f) := by
  refine h.tables hp rfl (h.inodes_file rfl) (h.files.adjust ?_ (Nat.succ_pos _) hpos hf) (h.pipes_file rfl rfl)
  show (s.ftable f).ref + 1 + (v p).frefs f = (s.ftable f).ref + ((v p).frefs f + 1)
  omega

/-- Not the last reference. -/
theorem closeOne (href : 1 < (s.ftable f).ref) :
    Kept s v p (s.setFref f ((s.ftable f).ref - 1)) ((v p).letGo f) := by
  have hf : f ∉ (v p).fresh := by
    intro hf
    have := (h.files.fresh p f hf).1
    omega
  refine h.tables hp rfl (h.inodes_file rfl) (h.files.adjust ?_ ?_ hpos hf) (h.pipes_file rfl rfl)
  · show (s.ftable f).ref - 1 + (v p).frefs f = (s.ftable f).ref + ((v p).frefs f - 1)
    omega
  · show 0 < (s.ftable f).ref - 1
    omega

/-- The last one: what the file had goes to the process. -/
theorem closeLast (href : (s.ftable f).ref = 1) :
    Kept s v p (s.setFent f ⟨0, { (s.ftable f).file with type := .none }⟩)
      ((((v p).letGo f).inherit (s.ftable f).file).settle f) := by
  rw [Ghost.inherit_eq]
  refine h.tables hp rfl (h.inodes.move fun e => ?_) (h.files.close rfl rfl href hpos) (h.pipes.move fun k w => ?_)
  · simp [Ghost.settle, Ghost.letGo]
  · simp [Ghost.settle, Ghost.letGo]

theorem closeRef {r : Option (File E)} (hr : s.closeRef f = some (r, s')) :
    (f ∈ (v p).fresh → ∃ ff, r = some ff ∧ ff.type = .none) ∧
      Kept s v p s' (r.elim ((v p).letGo f) fun ff => (((v p).letGo f).inherit ff).settle f) := by
  have hle := h.files.frefs_le p f
  rw [Kernel.closeRef] at hr
  split at hr
  · cases hr
  split at hr
  next href =>
    cases hr
    refine ⟨fun hf => ?_, h.closeOne hp hpos href⟩
    have := (h.files.fresh p f hf).1
    omega
  · cases hr
    exact ⟨fun hf => ⟨_, rfl, (h.files.fresh p f hf).2.2⟩, h.closeLast hp hpos (by omega)⟩

end

/-- A fresh file gets its type and takes over what goes with it. -/
theorem setFile {x : File E} (hf : f ∈ (v p).fresh) (hx : (v p).Has x) :
    Kept s v p (s.setFile f x) (((v p).bequeath x).settle f) := by
  have htype := (h.files.fresh p f hf).2.2
  rw [Ghost.bequeath_eq]
  refine h.tables hp rfl (h.inodes.move fun e => ?_) (h.files.settle rfl hf) (h.pipes.move fun k w => ?_)
  · have := hx.irefs e
    simp only [Ghost.settle, htype, reduceCtorEq, if_false]
    omega
  · have := hx.ends k w
    simp only [Ghost.settle, htype, reduceCtorEq, false_and, if_false]
    omega

theorem setOff (f : F) (off : BitVec 32) : Kept s v p (s.setFile f { (s.ftable f).file with off := off }) (v p) :=
  h.tables hp rfl (h.inodes_file rfl) ((h.files_same p).same rfl rfl) (h.pipes_file rfl rfl)

/-! ### Pipes -/

theorem pipeInit : Kept s v p { s.setPipe s.npipes ⟨true, true, 0⟩ with npipes := s.npipes + 1 }
      (((v p).addEnd s.npipes false).addEnd s.npipes true) := by
  refine h.tables hp rfl (h.inodes_same p) (h.files_same p) (h.pipes.init fun k w => ?_)
  by_cases hk : k = s.npipes
  · subst hk
    cases w <;> simp [Ghost.addEnd]
  · simp [Ghost.addEnd, hk]

theorem pipeclose {k : Nat} {w : Bool} (hpos : 0 < (v p).ends k w) :
    Kept s v p (s.pipeclose k w) ((v p).dropEnd k w) := by
  refine h.tables hp rfl (h.inodes_same p) (h.files_same p) (h.pipes.close hpos fun k' w' => ?_)
  by_cases hk : k' = k
  · subst hk
    by_cases hw : w' = w
    · subst hw
      simp [Ghost.dropEnd]
    · simp [Ghost.dropEnd, hw]
  · simp [Ghost.dropEnd, hk]

/-! ### Children -/

theorem allocproc (hnone : (v p).child = none) :
    Kept s v p (s.unusedSlot.elim s (s.setPhase · .embryo))
      (s.unusedSlot.elim (v p) fun c => (v p).setChild (some ⟨c, fun _ => none, none⟩)) := by
  cases hc : s.unusedSlot with
  | none => exact h.quiet hp _
  | some c =>
    have hc : s.phase c = .unused := Phase.eq_unused (Fin.eq_true_of_find?_eq_some hc)
    refine kept (change (h.inodes_same p) (h.files_same p) (h.pipes_same p) (h.locks_same p) (h.bufs_same p)
      (h.procs.alloc hp hc hnone rfl rfl rfl)) fun q hq => Kernel.setPhase_of_ne s ?_ _
    rintro rfl
    rcases hq with hq | hq
    · rw [hc] at hq
      cases hq
    · rw [Option.elim_some, Kernel.setPhase_self] at hq
      cases hq

variable {ch : Child E F}

theorem leave {x : Phase} (hch : (v p).child = some ch)
    (hx : x = .user ∨ x = .unused ∧ (∀ fd, ch.ofile fd = none) ∧ ch.cwd = none) :
    Kept s v p (s.setPhase ch.slot x) ((v p).setChild none) := by
  refine kept (change (h.inodes_same p) (h.files_same p) (h.pipes_same p) (h.locks_same p) (h.bufs_same p)
    (h.procs.leave hp hch rfl rfl rfl hx)) fun q hq => Kernel.setPhase_of_ne s ?_ _
  rintro rfl
  rcases hq with hq | hq
  · rw [(h.procs.child p ch hch).1] at hq
    cases hq
  · rw [Kernel.setPhase_self] at hq
    rcases hx with rfl | ⟨rfl, -⟩ <;> cases hq

/-- Two records change: that of the process and that of its child, which has no call of its own. -/
theorem give (ch' : Child E F) (g : Rec) (hch : (v p).child = some ch) (hslot : ch'.slot = ch.slot)
    (hg : g.child = some ch') (hgo : g.ofile = (v p).ofile) (hgc : g.cwd = (v p).cwd)
    (hgl : g.locks = (v p).locks) (hgb : g.bufs = (v p).bufs) (hge : g.ends = (v p).ends)
    (hgf : g.fresh = (v p).fresh) {ofile : Slot → Fd → Option F} {cwd : Slot → Option E}
    (hofile : ofile = update s.ofile ch.slot ch'.ofile) (hcwd : cwd = update s.cwd ch.slot ch'.cwd)
    (hirefs : ∀ e, g.irefs e + cwdRefs ch'.cwd e = (v p).irefs e + cwdRefs ch.cwd e)
    (hfrefs : ∀ f, g.frefs f + slotRefs ch'.ofile f = (v p).frefs f + slotRefs ch.ofile f)
    (hfresh : ∀ f ∈ (v p).fresh, g.frefs f = (v p).frefs f) :
    Kept s v p { s with ofile := ofile, cwd := cwd } g := by
  obtain ⟨hemb, hco, hcc⟩ := h.procs.child p ch hch
  have hcp : ch.slot ≠ p := by
    intro heq
    rw [← heq, hemb] at hp
    cases hp
  have hrest : v ch.slot = Ghost.rest ch.ofile ch.cwd := by
    have := (h.procs.rest ch.slot (by rw [hemb]; rfl)).eq
    rwa [h.procs.ofile, h.procs.cwd, hco, hcc] at this
  refine ⟨update (update v p g) ch.slot (Ghost.rest ch'.ofile ch'.cwd), ?_, ?_, ?_, fun _ _ => rfl⟩
  · refine ⟨?_, ?_, ?_, ?_, ?_, h.procs.give hp hch hslot hg hgo hgc rfl hofile hcwd⟩
    · rw [field_update Ghost.irefs, field_update Ghost.irefs]
      exact h.inodes.give hcp fun e => by rw [hrest]; exact hirefs e
    · rw [field_update Ghost.frefs, field_update Ghost.frefs,
        field_same_two hcp Ghost.fresh hgf (by rw [hrest]; rfl)]
      exact h.files.give hcp (fun f => by rw [hrest]; exact hfrefs f) (by rw [hrest]; rfl) hfresh
    · rw [field_same_two hcp Ghost.ends hge (by rw [hrest]; rfl)]
      exact h.pipes
    · rw [field_same_two hcp Ghost.locks hgl (by rw [hrest]; rfl)]
      exact h.locks
    · rw [field_same_two hcp Ghost.bufs hgb (by rw [hrest]; rfl)]
      exact h.bufs
  · rw [update_of_ne (Ne.symm hcp), update_self]
  intro q hqp hq
  have hqc : q ≠ ch.slot := by
    rintro rfl
    rw [hemb] at hq
    cases hq
  rw [update_of_ne hqc, update_of_ne hqp]

theorem setChildFile {fd : Fd} (hpos : 0 < (v p).frefs f) (hf : f ∉ (v p).fresh)
    (hch : (v p).child = some ch) (hfd : ch.ofile fd = none) :
    Kept s v p (s.setOfile ch.slot fd (some f))
      (((v p).letGo f).setChild (some { ch with ofile := update ch.ofile fd (some f) })) := by
  obtain ⟨-, hco, hcc⟩ := h.procs.child p ch hch
  have hcwd : s.cwd = update s.cwd ch.slot ch.cwd := by rw [← hcc, update_eq_self]
  refine h.give hp { ch with ofile := update ch.ofile fd (some f) } (((v p).letGo f).setChild (some _)) hch
    rfl rfl rfl rfl rfl rfl rfl rfl ?_ hcwd (fun _ => rfl) (fun i => ?_) (fun i hi => ?_)
  · show update s.ofile ch.slot (update (s.ofile ch.slot) fd (some f)) = _
    rw [hco]
  · have hslots := slotRefs_update ch.ofile fd (some f) i
    simp only [hfd, reduceCtorEq, if_false, Nat.add_zero, Option.some.injEq] at hslots
    show update (v p).frefs f ((v p).frefs f - 1) i + slotRefs (update ch.ofile fd (some f)) i = _
    rw [hslots]
    by_cases hif : i = f
    · subst hif
      rw [update_self, if_pos rfl]
      omega
    · rw [update_of_ne hif, if_neg (Ne.symm hif)]
      omega
  · have hif : i ≠ f := by
      rintro rfl
      exact hf hi
    exact update_of_ne hif _ _

theorem setChildCwd (hpos : 0 < (v p).irefs ip) (hch : (v p).child = some ch) (hnone : ch.cwd = none) :
    Kept s v p (s.setCwd ch.slot (some ip)) (((v p).put ip).setChild (some { ch with cwd := some ip })) := by
  obtain ⟨-, hco, hcc⟩ := h.procs.child p ch hch
  have hofile : s.ofile = update s.ofile ch.slot ch.ofile := by rw [← hco, update_eq_self]
  refine h.give hp { ch with cwd := some ip } (((v p).put ip).setChild (some _)) hch rfl rfl rfl rfl rfl rfl rfl rfl
    hofile rfl (fun i => ?_) (fun _ => rfl) (fun _ _ => rfl)
  show update (v p).irefs ip ((v p).irefs ip - 1) i + cwdRefs (some ip) i = _
  by_cases hi : i = ip
  · subst hi
    simp only [cwdRefs, hnone, update_self, if_true, reduceCtorEq, if_false]
    omega
  · simp [cwdRefs, hnone, hi, Ne.symm hi]

/-! ### All of them -/

variable {o : Oracle}

theorem performAct : ∀ (a : Act E F) {r : a.Resp}, a.pre (v p) → s.perform p o (.inl a) = some (r, s') →
    a.resp (v p) r ∧ Kept s v p s' (a.next (v p) r) := by
  intro a r hpre hr
  cases a with
  | beginOp =>
    cases hr
    exact ⟨trivial, h.quiet hp true⟩
  | endOp =>
    cases hr
    exact ⟨trivial, h.quiet hp false⟩
  | iget dev inum => exact ⟨trivial, h.iget hp hr⟩
  | idup ip =>
    cases hr
    exact ⟨trivial, h.idup hp hpre⟩
  | drop ip =>
    cases hr
    exact ⟨trivial, h.drop hp hpre.2⟩
  | acquiresleep ip =>
    rw [Kernel.perform] at hr
    split at hr
    next hfree =>
      cases hr
      exact ⟨h.locks.notMem_of_free hfree, h.setLock hp rfl (h.locks.take hfree)⟩
    · cases hr
  | releasesleep ip =>
    cases hr
    exact ⟨trivial, h.setLock hp rfl (h.locks.release hpre)⟩
  | holdingsleep ip =>
    cases hr
    exact ⟨fun hb => (h.locks ip p).1 (of_decide_eq_true hb), h.quiet hp _⟩
  | setValid ip x =>
    cases hr
    exact ⟨trivial, h.entry hp rfl rfl rfl rfl⟩
  | assign ip d =>
    cases hr
    exact ⟨trivial, h.entry hp rfl rfl rfl rfl⟩
  | cwd =>
    cases hr
    exact ⟨(h.procs.cwd p).symm, h.quiet hp _⟩
  | ofile fd =>
    cases hr
    exact ⟨congrFun (h.procs.ofile p).symm fd, h.quiet hp _⟩
  | setCwd ip =>
    cases hr
    exact ⟨trivial, h.setCwd hp ip⟩
  | setOfile fd f =>
    cases hr
    exact ⟨trivial, h.setOfile hp fd f⟩
  | filealloc =>
    obtain ⟨rfl, rfl⟩ := Prod.mk.inj (Option.some.inj hr)
    exact h.filealloc hp
  | filedup f =>
    rw [Kernel.perform] at hr
    split at hr
    · cases hr
    · cases hr
      exact ⟨trivial, h.filedup hp hpre.1 hpre.2⟩
  | closeRef f =>
    exact h.closeRef hp hpre hr
  | setFile f x =>
    cases hr
    exact ⟨trivial, h.setFile hp hpre.1 hpre.2⟩
  | setOff f off =>
    cases hr
    exact ⟨trivial, h.setOff hp f off⟩
  | pipeInit =>
    have hinit : s.pipeInit o = (r, s') := Option.some.inj hr
    refine ⟨trivial, ?_⟩
    rw [Kernel.pipeInit] at hinit
    split at hinit
    · cases hinit
      exact h.pipeInit hp
    · cases hinit
      exact h.quiet hp _
  | pipeclose k w =>
    cases hr
    exact ⟨trivial, h.pipeclose hp hpre⟩
  | allocproc =>
    have halloc : s.allocproc o = (r, s') := Option.some.inj hr
    refine ⟨trivial, ?_⟩
    rw [Kernel.allocproc] at halloc
    split at halloc
    · obtain ⟨rfl, rfl⟩ := Prod.mk.inj halloc
      exact h.allocproc hp hpre
    · cases halloc
      exact h.quiet hp _
  | freeproc np =>
    cases hr
    exact ⟨trivial, h.leave hp hpre (.inr ⟨rfl, fun _ => rfl, rfl⟩)⟩
  | setChildFile np fd f =>
    cases hr
    obtain ⟨hpos, hf, ch, hch, rfl, hfd⟩ := hpre
    refine ⟨trivial, ?_⟩
    show Kept s v p _ (((v p).letGo f).setChild ((v p).child.map _))
    rw [hch]
    exact h.setChildFile hp hpos hf hch hfd
  | setChildCwd np ip =>
    cases hr
    obtain ⟨hpos, ch, hch, rfl, hcwd⟩ := hpre
    refine ⟨trivial, ?_⟩
    show Kept s v p _ (((v p).put ip).setChild ((v p).child.map _))
    rw [hch]
    exact h.setChildCwd hp hpos hch hcwd
  | startproc np =>
    cases hr
    obtain ⟨ch, hch, rfl⟩ := hpre
    exact ⟨trivial, h.leave hp hch (.inl rfl)⟩
  | panic e => cases hr
  | ref ip | dev ip | inum ip | valid ip | fields ip | devread n | devwrite src | file f | piperead k n | pipewrite k src
    | memory | isInitproc =>
    cases hr
    exact ⟨trivial, h.quiet hp _⟩

theorem performBlk (b : Blk) {r : b.Resp} (hpre : buffers.pre (v p) b)
    (hr : s.perform p o (.inr b) = some (r, s')) :
    buffers.resp (v p) b r ∧ Kept s v p s' (buffers.next (v p) b r) := by
  cases b with
  | bread b =>
    rw [Kernel.perform] at hr
    split at hr
    next hfree =>
      cases hr
      exact ⟨h.bufs.notMem_of_free hfree, h.setBuf hp rfl (h.bufs.take hfree)⟩
    · cases hr
  | put b data =>
    cases hr
    exact ⟨trivial, h.setDisk hp _⟩
  | brelse b =>
    cases hr
    exact ⟨trivial, h.setBuf hp rfl (h.bufs.release hpre)⟩
  | bwrite b | logWrite b =>
    cases hr
    exact ⟨trivial, h.quiet hp _⟩

/-- An action that keeps to the protocol is answered as the protocol says, and the accounts stay right. -/
theorem perform (a : Act E F ⊕ Blk) {r : Resp Blk.Resp a} (hpre : (protocol buffers).pre (v p) a)
    (hr : s.perform p o a = some (r, s')) :
    (protocol buffers).resp (v p) a r ∧ Kept s v p s' ((protocol buffers).next (v p) a r) := by
  rcases a with a | b
  · exact h.performAct hp a hpre hr
  · exact h.performBlk hp b hpre hr

end Inv

end Xv6.Sysfile
