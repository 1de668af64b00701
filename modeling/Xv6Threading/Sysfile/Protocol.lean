import Mathlib.Algebra.BigOperators.Group.Finset.Basic
import Xv6Threading.Sysfile.Code

/-!
# What a call has in its hands

`Ghost` is the record a call keeps: whether it is in a transaction, the locks it holds, how many references to
inodes and files are its own, the files it has allocated and not yet given a type, the pipe ends that belong to
no file, its descriptors and working directory, and the child it is making. `protocol` says what each action does
to the record, and what has to hold before it: no transaction inside another, no `iput` outside one, no reference
dropped or passed on that the call does not have.

Every function has one rule, in the form of a weakest precondition: what it does to the record is said by an
equation. All of them together are `Call.code_follows`: a call that starts at rest ends at rest, on every path.
What the blocks of the disk hold plays no part: all answers are allowed.
-/

namespace Xv6.Sysfile

open Function
open Fs (Name)

structure Child (I F : Type) where
  slot : Slot
  ofile : Fd → Option F
  cwd : Option I

@[ext] structure Ghost (I F : Type) where
  tx : Bool
  locks : Finset I
  bufs : Finset Nat
  irefs : I → Nat
  frefs : F → Nat
  fresh : Finset F
  ends : Nat → Bool → Nat
  ofile : Fd → Option F
  cwd : Option I
  child : Option (Child I F)

variable {I F : Type} [DecidableEq I] [DecidableEq F]

/-- How many descriptors are this file. -/
def slotRefs (ofile : Fd → Option F) (f : F) : Nat := ∑ fd, if ofile fd = some f then 1 else 0

def cwdRefs (cwd : Option I) (e : I) : Nat := if cwd = some e then 1 else 0

namespace Ghost

def get (g : Ghost I F) (ip : I) : Ghost I F := { g with irefs := update g.irefs ip (g.irefs ip + 1) }
def put (g : Ghost I F) (ip : I) : Ghost I F := { g with irefs := update g.irefs ip (g.irefs ip - 1) }
def lock (g : Ghost I F) (ip : I) : Ghost I F := { g with locks := insert ip g.locks }
def unlock (g : Ghost I F) (ip : I) : Ghost I F := { g with locks := g.locks.erase ip }
def hold (g : Ghost I F) (f : F) : Ghost I F := { g with frefs := update g.frefs f (g.frefs f + 1) }
def letGo (g : Ghost I F) (f : F) : Ghost I F := { g with frefs := update g.frefs f (g.frefs f - 1) }
def begin (g : Ghost I F) : Ghost I F := { g with tx := true }
def finish (g : Ghost I F) : Ghost I F := { g with tx := false }

def setSlot (g : Ghost I F) (fd : Fd) (f : Option F) : Ghost I F := { g with ofile := update g.ofile fd f }
def setCwd (g : Ghost I F) (ip : Option I) : Ghost I F := { g with cwd := ip }
def setChild (g : Ghost I F) (ch : Option (Child I F)) : Ghost I F := { g with child := ch }

/-- A new file is fresh until it has a type or is closed. -/
def renew (g : Ghost I F) (f : F) : Ghost I F := { g with fresh := insert f g.fresh }
def settle (g : Ghost I F) (f : F) : Ghost I F := { g with fresh := g.fresh.erase f }

def addEnd (g : Ghost I F) (k : Nat) (w : Bool) : Ghost I F :=
  { g with ends := update g.ends k (update (g.ends k) w (g.ends k w + 1)) }

def dropEnd (g : Ghost I F) (k : Nat) (w : Bool) : Ghost I F :=
  { g with ends := update g.ends k (update (g.ends k) w (g.ends k w - 1)) }

def new (g : Ghost I F) (f : F) : Ghost I F := (g.hold f).renew f

/-- What a file that is closed for the last time leaves to be done. -/
def inherit (g : Ghost I F) (ff : File I) : Ghost I F :=
  match ff.type with
  | .none => g
  | .pipe k => g.addEnd k ff.writable
  | .inode ip => g.get ip

/-- What a file with this type takes over. -/
def bequeath (g : Ghost I F) (x : File I) : Ghost I F :=
  match x.type with
  | .none => g
  | .pipe k => g.dropEnd k x.writable
  | .inode ip => g.put ip

/-- It is there to be taken over. -/
def Has (g : Ghost I F) (x : File I) : Prop :=
  match x.type with
  | .none => True
  | .pipe k => 0 < g.ends k x.writable
  | .inode ip => 0 < g.irefs ip

/-- Between calls. -/
structure Rest (g : Ghost I F) : Prop where
  tx : g.tx = false
  locks : g.locks = ∅
  bufs : g.bufs = ∅
  fresh : g.fresh = ∅
  ends : ∀ k w, g.ends k w = 0
  child : g.child = none
  frefs : ∀ f, g.frefs f = slotRefs g.ofile f
  irefs : ∀ e, g.irefs e = cwdRefs g.cwd e

end Ghost

/-- What has to hold before an action. -/
def Act.pre (g : Ghost I F) : Act I F → Prop
  | .beginOp => g.tx = false
  | .endOp => g.tx = true
  | .idup ip => 0 < g.irefs ip
  | .drop ip => g.tx = true ∧ 0 < g.irefs ip
  | .releasesleep ip => ip ∈ g.locks
  | .filedup f => 0 < g.frefs f ∧ f ∉ g.fresh
  | .closeRef f => 0 < g.frefs f
  | .setFile f x => f ∈ g.fresh ∧ g.Has x
  | .pipeclose k w => 0 < g.ends k w
  | .allocproc => g.child = none
  | .freeproc np => g.child = some ⟨np, fun _ => none, none⟩
  | .setChildFile np fd f => 0 < g.frefs f ∧ f ∉ g.fresh ∧ ∃ ch, g.child = some ch ∧ ch.slot = np ∧ ch.ofile fd = none
  | .setChildCwd np ip => 0 < g.irefs ip ∧ ∃ ch, g.child = some ch ∧ ch.slot = np ∧ ch.cwd = none
  | .startproc np => ∃ ch, g.child = some ch ∧ ch.slot = np
  | _ => True

/-- What holds of the answer. -/
def Act.resp (g : Ghost I F) : (a : Act I F) → a.Resp → Prop
  | .acquiresleep ip, _ => ip ∉ g.locks
  | .holdingsleep ip, b => b = true → ip ∈ g.locks
  | .cwd, r => r = g.cwd
  | .ofile fd, r => r = g.ofile fd
  | .filealloc, r => ∀ f, r = some f → f ∉ g.fresh
  | .closeRef f, r => f ∈ g.fresh → ∃ ff, r = some ff ∧ ff.type = .none
  | _, _ => True

/-- The record after it. -/
def Act.next (g : Ghost I F) : (a : Act I F) → a.Resp → Ghost I F
  | .beginOp, _ => g.begin
  | .endOp, _ => g.finish
  | .iget _ _, ip => g.get ip
  | .idup ip, _ => g.get ip
  | .drop ip, _ => g.put ip
  | .acquiresleep ip, _ => g.lock ip
  | .releasesleep ip, _ => g.unlock ip
  | .setCwd ip, _ => g.setCwd ip
  | .setOfile fd f, _ => g.setSlot fd f
  | .filealloc, r => r.elim g g.new
  | .filedup f, _ => g.hold f
  | .closeRef f, r => r.elim (g.letGo f) fun ff => ((g.letGo f).inherit ff).settle f
  | .setFile f x, _ => (g.bequeath x).settle f
  | .pipeInit, r => r.elim g fun k => (g.addEnd k false).addEnd k true
  | .pipeclose k w, _ => g.dropEnd k w
  | .allocproc, r => r.elim g fun np => g.setChild (some ⟨np, fun _ => none, none⟩)
  | .freeproc _, _ => g.setChild none
  | .setChildFile _ fd f, _ =>
    (g.letGo f).setChild (g.child.map fun ch => { ch with ofile := update ch.ofile fd (some f) })
  | .setChildCwd _ ip, _ => (g.put ip).setChild (g.child.map fun ch => { ch with cwd := some ip })
  | .startproc _, _ => g.setChild none
  | _, _ => g

/-- `K` is for the actions on the contents. -/
def protocol {C : Type} {RC : C → Type} (K : Protocol C RC (Ghost I F)) :
    Protocol (Act I F ⊕ C) (Resp RC) (Ghost I F) where
  pre g
    | .inl a => a.pre g
    | .inr c => K.pre g c
  resp g
    | .inl a, r => a.resp g r
    | .inr c, r => K.resp g c r
  next g
    | .inl a, r => a.next g r
    | .inr c, r => K.next g c r

/-- The contents do not count. -/
def inert {C : Type} {RC : C → Type} : Protocol C RC (Ghost I F) where
  pre _ _ := True
  resp _ _ _ := True
  next g _ _ := g

abbrev Sys.Follows {α : Type} (Q : α → Ghost I F → Prop) (p : Sys I F α) (g : Ghost I F) : Prop :=
  (protocol inert).Follows Q p g

/-! ## What only looks

Directories are scanned and programs loaded without any effect that a protocol keeps a record of. So what reading from an
inode keeps is kept by all of it.
-/

/-- Answers that change nothing. -/
structure Looks {I F G : Type} (T : Protocol (Act I F ⊕ Content I) (Resp Content.Resp) G) (J : G → Prop) : Prop where
  memory : T.Stable J memory
  fields : ∀ ip, T.Stable J (fields ip)
  readDe : ∀ dp off, T.Stable J (content (.readDe dp off))
  panic : ∀ {α : Type} e, T.Stable J (panic e : Sys I F α)

namespace Looks

variable {I F G : Type} {T : Protocol (Act I F ⊕ Content I) (Resp Content.Resp) G} {J : G → Prop} {ip dp : I}
  (h : Looks T J)

include h

theorem emptyDe : ∀ n off, T.Stable J (emptyDe dp n off)
  | 0, off => .pure off
  | n + 1, off => by
    refine .bind (h.readDe dp off) fun r => ?_
    cases r with
    | none => exact h.panic _
    | some de =>
      dsimp only
      split
      · exact .pure off
      · exact emptyDe n _

theorem isdiremptyLoop : ∀ n off, T.Stable J (isdiremptyLoop dp n off)
  | 0, _ => .pure true
  | n + 1, off => by
    refine .bind (h.readDe dp off) fun r => ?_
    cases r with
    | none => exact h.panic _
    | some de =>
      dsimp only
      split
      · exact .pure false
      · exact isdiremptyLoop n _

theorem fullDir : T.Stable J (fullDir ip) := by
  refine .bind (h.fields ip) fun d => ?_
  split
  · exact .bind (.bind (h.fields ip) fun _ => h.isdiremptyLoop _ _) fun _ => .pure _
  · exact .pure false

theorem pushArgs : ∀ n argc, T.Stable J (pushArgs n argc)
  | 0, _ => .pure true
  | n + 1, argc => by
    rw [Sysfile.pushArgs]
    split
    · exact .pure false
    refine .bind h.memory fun b => ?_
    split
    · exact pushArgs n _
    · exact .pure false

variable (hread : ∀ off n, T.Stable J (readi ip off n))

include hread

theorem loaduvm (offset sz : Nat) : ∀ n i, T.Stable J (loaduvm ip offset sz n i)
  | 0, _ => .pure true
  | n + 1, i => by
    refine .bind h.memory fun b => ?_
    split
    · refine .bind (hread _ _) fun r => ?_
      rcases r with _ | b
      · exact .pure false
      dsimp only
      split
      · exact .pure false
      · exact loaduvm offset sz n _
    · exact h.panic _

theorem loadSegment (off : Nat) : T.Stable J (loadSegment ip off) := by
  refine .bind (hread _ _) fun r => ?_
  rcases r with _ | ph
  · exact .pure false
  dsimp only
  split
  · exact .pure false
  split
  · exact .pure true
  split
  · exact .pure false
  split
  · exact .pure false
  refine .bind h.memory fun b => ?_
  split
  · split
    · exact .pure false
    · exact h.loaduvm hread _ _ _ _
  · exact .pure false

theorem loadSegments : ∀ n off, T.Stable J (loadSegments ip n off)
  | 0, _ => .pure true
  | n + 1, off => by
    refine .bind (h.loadSegment hread off) fun b => ?_
    split
    · exact loadSegments n _
    · exact .pure false

theorem loadProgram : T.Stable J (loadProgram ip) := by
  refine .bind (hread _ _) fun r => ?_
  rcases r with _ | elf
  · exact .pure false
  dsimp only
  split
  · exact .pure false
  split
  · exact .pure false
  refine .bind h.memory fun b => ?_
  split
  · exact h.loadSegments hread _ _
  · exact .pure false

end Looks

/-! ## The record -/

namespace Ghost

omit [DecidableEq F]

variable (g : Ghost I F) (ip e : I)

@[simp] theorem put_get : (g.get ip).put ip = g := by
  simp [get, put]

@[simp] theorem put_get_get : ((g.get ip).get e).put ip = g.get e := by
  by_cases h : e = ip
  · subst h
    simp [get, put]
  · simp [get, put, h, update_comm h, update_of_ne (Ne.symm h)]

@[simp] theorem put_lock : (g.lock e).put ip = (g.put ip).lock e := rfl
@[simp] theorem get_lock : (g.lock e).get ip = (g.get ip).lock e := rfl

theorem unlock_lock {g : Ghost I F} {ip : I} (h : ip ∉ g.locks) : (g.lock ip).unlock ip = g := by
  simp [lock, unlock, h]

theorem lock_unlock {g : Ghost I F} {ip : I} (h : ip ∈ g.locks) : (g.unlock ip).lock ip = g := by
  simp [lock, unlock, h]

theorem unlock_lock_lock {g : Ghost I F} {ip e : I} (hip : ip ∉ g.locks) (he : e ∉ (g.lock ip).locks) :
    ((g.lock ip).lock e).unlock ip = g.lock e := by
  have hne : ip ≠ e := by
    rintro rfl
    exact he (by simp [lock])
  simp [lock, unlock, Finset.erase_insert_of_ne hne.symm, hip]

@[simp] theorem get_irefs_pos : 0 < (g.get ip).irefs ip := by
  simp [get]

theorem irefs_pos_get {g : Ghost I F} {ip : I} (h : 0 < g.irefs ip) : 0 < (g.get e).irefs ip := by
  by_cases he : ip = e
  · subst he
    exact get_irefs_pos g ip
  · simpa [get, he] using h

section

omit [DecidableEq I]

theorem setSlot_setSlot {g : Ghost I F} {fd : Fd} (h : g.ofile fd = none) (x : Option F) :
    (g.setSlot fd x).setSlot fd none = g := by
  simp [setSlot, ← h]

theorem setChild_eq {g : Ghost I F} (h : g.child = none) : g.setChild none = g := by
  simp [setChild, ← h]

theorem addEnd_ends_pos (k : Nat) (w : Bool) : 0 < (g.addEnd k w).ends k w := by
  simp [addEnd]

theorem dropEnd_addEnd (k : Nat) (w : Bool) : (g.addEnd k w).dropEnd k w = g := by
  simp [addEnd, dropEnd]

theorem dropEnd_addEnd_both (k : Nat) :
    (((g.addEnd k false).addEnd k true).dropEnd k false).dropEnd k true = g := by
  simp [addEnd, dropEnd, update_comm]

theorem finish_begin {g : Ghost I F} (h : g.tx = false) : g.begin.finish = g := by
  simp [begin, finish, ← h]

end

theorem finish_put_begin {g : Ghost I F} (h : g.tx = false) : (g.begin.put ip).finish = g.put ip := by
  simp [begin, finish, put, ← h]

section Files

omit [DecidableEq I]

variable [DecidableEq F] {f : F}

theorem settle_eq {g : Ghost I F} (h : f ∉ g.fresh) : g.settle f = g := by
  simp [settle, h]

theorem letGo_hold (f : F) : (g.hold f).letGo f = g := by
  simp [hold, letGo]

theorem letGo_hold_hold (f f' : F) : ((g.hold f).hold f').letGo f = g.hold f' := by
  by_cases h : f' = f
  · subst h
    simp [hold, letGo]
  · simp [hold, letGo, h, update_comm h, update_of_ne (Ne.symm h)]

theorem settle_renew {g : Ghost I F} (h : f ∉ g.fresh) : (g.renew f).settle f = g := by
  simp [settle, renew, h]

@[simp] theorem new_fresh (f : F) : (g.new f).fresh = insert f g.fresh := rfl
@[simp] theorem settle_fresh (f : F) : (g.settle f).fresh = g.fresh.erase f := rfl

theorem new_comm (f0 f1 : F) : (g.new f0).new f1 = (g.new f1).new f0 := by
  by_cases h : f0 = f1
  · rw [h]
  · simp [new, hold, renew, h, Ne.symm h, update_comm h, Finset.insert_comm]

theorem settle_new_new {g : Ghost I F} {f0 f1 : F} (h0 : f0 ∉ g.fresh) (h1 : f1 ∉ (g.new f0).fresh) :
    (((g.new f0).new f1).settle f0).settle f1 = (g.hold f0).hold f1 := by
  simp only [new, renew, hold, Finset.mem_insert, not_or] at h1
  simp [new, renew, hold, settle, Finset.erase_insert_of_ne h1.1, h0, h1.2]

@[simp] theorem hold_frefs_pos (f : F) : 0 < (g.hold f).frefs f := by
  simp [hold]

theorem frefs_pos_hold {g : Ghost I F} (f' : F) (h : 0 < g.frefs f) : 0 < (g.hold f').frefs f := by
  by_cases hf : f = f'
  · subst hf
    exact hold_frefs_pos g f
  · simpa [hold, hf] using h

end Files

end Ghost

section Rules

variable {α : Type} {g : Ghost I F} {ip dp : I} {Q : α → Ghost I F → Prop} {U : Unit → Ghost I F → Prop} {f : F}

theorem looks (g : Ghost I F) : Looks (protocol inert) (· = g) where
  memory := .ask fun _ hg => ⟨trivial, fun _ _ => hg⟩
  fields _ := .ask fun _ hg => ⟨trivial, fun _ _ => hg⟩
  readDe _ _ := .ask fun _ hg => ⟨trivial, fun _ _ => hg⟩
  panic _ _ _ _ _ := ⟨trivial, fun r => r.elim⟩

theorem follows_panic {C : Type} {RC : C → Type} {K : Protocol C RC (Ghost I F)} (e : Panic)
    (Q : α → Ghost I F → Prop) : (protocol K).Follows Q (panic e) g :=
  ⟨trivial, fun r => r.elim⟩

/-! ### Inodes -/

theorem beginOp_rule {p : Sys I F α} (htx : g.tx = false) (h : Sys.Follows Q p g.begin) :
    Sys.Follows Q (do beginOp; p) g :=
  .act htx fun _ _ => h

theorem endOp_rule (htx : g.tx = true) (hQ : U () g.finish) : Sys.Follows U endOp g := by
  refine .act htx fun r _ => ?_
  cases r with
  | none => exact hQ
  | some blocks => exact ⟨trivial, fun _ _ => hQ⟩

theorem ilock_rule (hQ : ip ∉ g.locks → U () (g.lock ip)) : Sys.Follows U (ilock ip) g := by
  refine .act trivial fun r _ => ?_
  split
  · exact follows_panic _ _
  refine .act trivial fun _ hfree => .act trivial fun v _ => ?_
  split
  · exact hQ hfree
  refine .act trivial fun _ _ => .act trivial fun _ _ => .act trivial fun d _ => ?_
  split
  · exact follows_panic _ _
  · exact hQ hfree

theorem iunlock_rule (hQ : ip ∈ g.locks → U () (g.unlock ip)) : Sys.Follows U (iunlock ip) g := by
  refine .act trivial fun b hb => ?_
  split
  next h =>
    refine .act trivial fun r _ => ?_
    split
    · exact follows_panic _ _
    · exact ⟨hb h, fun _ _ => hQ (hb h)⟩
  · exact follows_panic _ _

theorem ifree_rule (hQ : U () g) : Sys.Follows U (ifree ip) g :=
  .act trivial fun _ _ => .act trivial fun _ _ => .act trivial fun _ _ => .act trivial fun _ _ =>
    ⟨trivial, fun _ _ => hQ⟩

theorem iput_rule (htx : g.tx = true) (href : 0 < g.irefs ip)
    (hQ : U () (g.put ip)) : Sys.Follows U (iput ip) g := by
  refine .act trivial fun _ hfree => ?_
  have hend : Sys.Follows U (do releasesleep ip; drop ip) (g.lock ip) := by
    refine .act (Finset.mem_insert_self ip g.locks) fun _ _ => ⟨⟨htx, href⟩, fun _ _ => ?_⟩
    show U () (((g.lock ip).unlock ip).put ip)
    rwa [Ghost.unlock_lock hfree]
  refine .act trivial fun v _ => ?_
  split
  · refine .act trivial fun d _ => ?_
    split
    · refine .act trivial fun r _ => ?_
      split
      · exact .bind (ifree_rule hend)
      · exact hend
    · exact hend
  · exact hend

theorem iunlockput_rule (htx : g.tx = true) (href : 0 < g.irefs ip)
    (hQ : U () ((g.unlock ip).put ip)) : Sys.Follows U (iunlockput ip) g :=
  .bind (iunlock_rule fun _ => iput_rule htx href hQ)

theorem addLink_rule (k : BitVec 16) (hQ : U () g) : Sys.Follows U (addLink ip k) g :=
  .act trivial fun _ _ => .act trivial fun _ _ => ⟨trivial, fun _ _ => hQ⟩

theorem consoleread_rule {Q : Option (List UInt8) → Ghost I F → Prop} (n : BitVec 32) (hQ : ∀ r, Q r g) :
    Sys.Follows Q (consoleread ip n) g := by
  refine .bind (iunlock_rule fun hin => .quiet trivial (fun _ => rfl) fun r _ => .bind (ilock_rule fun _ => ?_))
  rw [Ghost.lock_unlock hin]
  exact hQ r

theorem consolewrite_rule {Q : Option Nat → Ghost I F → Prop} (src : List UInt8) (hQ : ∀ r, Q r g) :
    Sys.Follows Q (consolewrite ip src) g := by
  refine .bind (iunlock_rule fun hin => .quiet trivial (fun _ => rfl) fun r _ => .bind (ilock_rule fun _ => ?_))
  rw [Ghost.lock_unlock hin]
  exact hQ r

theorem readi_rule {Q : Option (List UInt8) → Ghost I F → Prop} (off n : BitVec 32) (hQ : ∀ r, Q r g) :
    Sys.Follows Q (readi ip off n) g := by
  refine .act trivial fun d _ => ?_
  split
  · split
    · exact consoleread_rule n hQ
    · exact hQ none
  · exact ⟨trivial, fun r _ => hQ r⟩

theorem writei_rule {Q : Option Nat → Ghost I F → Prop} (off : BitVec 32) (src : List UInt8) (hQ : ∀ r, Q r g) :
    Sys.Follows Q (writei ip off src) g := by
  refine .act trivial fun d _ => ?_
  split
  · split
    · exact consolewrite_rule src hQ
    · exact hQ none
  · exact ⟨trivial, fun r _ => hQ r⟩

/-! ### Directories and paths -/

theorem dirlookupLoop_rule {Q : Option (I × BitVec 32) → Ghost I F → Prop} (name : Name) (hnone : Q none g)
    (hsome : ∀ ip off, Q (some (ip, off)) (g.get ip)) :
    ∀ n off, Sys.Follows Q (dirlookupLoop dp name n off) g
  | 0, _ => hnone
  | n + 1, off => by
    refine .act trivial fun r _ => ?_
    cases r with
    | none => exact follows_panic _ _
    | some de =>
      dsimp only
      split
      · exact .act trivial fun _ _ => .act trivial fun ip _ => hsome ip off
      · exact dirlookupLoop_rule name hnone hsome n (off + 16)

theorem dirlookup_rule {Q : Option (I × BitVec 32) → Ghost I F → Prop} (name : Name) (hnone : Q none g)
    (hsome : ∀ ip off, Q (some (ip, off)) (g.get ip)) : Sys.Follows Q (dirlookup dp name) g := by
  refine .act trivial fun d _ => ?_
  split
  · exact follows_panic _ _
  · exact dirlookupLoop_rule name hnone hsome _ _

theorem dirlink_rule {Q : Bool → Ghost I F → Prop} (name : Name) (inum : Nat) (htx : g.tx = true)
    (hQ : ∀ b, Q b g) : Sys.Follows Q (dirlink dp name inum) g := by
  refine .bind (dirlookup_rule name ?_ fun ip off => ?_)
  · refine .act trivial fun d _ => .bind ((looks g).emptyDe _ _ g _ rfl ?_)
    rintro off _ rfl
    refine .act trivial fun b _ => ?_
    split
    · exact hQ true
    · exact follows_panic _ _
  · refine .bind (iput_rule htx (g.get_irefs_pos ip) ?_)
    rw [Ghost.put_get]
    exact hQ false

/-- The reference the loop starts with is handed on from element to element. -/
theorem namexLoop_rule {Q : Option (I × Name) → Ghost I F → Prop} (parent : Bool) (htx : g.tx = true)
    (hnone : Q none g) (hsome : ∀ ip name, Q (some (ip, name)) (g.get ip)) :
    ∀ fuel ip path name, Sys.Follows Q (namexLoop parent fuel ip path name) (g.get ip)
  | 0, ip, _, name => hsome ip name
  | fuel + 1, ip, path, name => by
    have hdrop : Sys.Follows Q (do iput ip; return none) (g.get ip) :=
      .bind (iput_rule htx (g.get_irefs_pos ip) (by simpa using hnone))
    rw [namexLoop]
    split
    · split
      · exact hdrop
      · exact hsome ip name
    rename_i name path _
    refine .bind (ilock_rule fun hfree => .quiet trivial (fun _ => rfl) fun d _ => ?_)
    have hback : Sys.Follows Q (do iunlockput ip; return none) ((g.get ip).lock ip) := by
      refine .bind (iunlockput_rule htx (g.get_irefs_pos ip) ?_)
      rw [Ghost.unlock_lock hfree, Ghost.put_get]
      exact hnone
    split
    · exact hback
    split
    · refine .bind (iunlock_rule fun _ => ?_)
      rw [Ghost.unlock_lock hfree]
      exact hsome ip name
    refine .bind (dirlookup_rule name hback fun next _ => ?_)
    refine .bind (iunlockput_rule htx (Ghost.irefs_pos_get next (g.get_irefs_pos ip)) ?_)
    rw [Ghost.get_lock, Ghost.unlock_lock (show ip ∉ ((g.get ip).get next).locks from hfree), Ghost.put_get_get]
    exact namexLoop_rule parent htx hnone hsome fuel next path name

theorem mycwd_rule {Q : I → Ghost I F → Prop} (hQ : ∀ ip, g.cwd = some ip → Q ip g) : Sys.Follows Q mycwd g := by
  refine .act trivial fun r hr => ?_
  cases r with
  | none => exact follows_panic _ _
  | some ip => exact hQ ip hr.symm

theorem namex_rule {Q : Option (I × Name) → Ghost I F → Prop} (path : Path) (parent : Bool) (htx : g.tx = true)
    (hcwd : ∀ e, g.cwd = some e → 0 < g.irefs e) (hnone : Q none g)
    (hsome : ∀ ip name, Q (some (ip, name)) (g.get ip)) : Sys.Follows Q (namex path parent) g := by
  have hloop := namexLoop_rule parent htx hnone hsome (path.length + 1)
  refine .bind ?_
  rw [namexStart]
  split
  · exact ⟨trivial, fun ip _ => hloop ip path []⟩
  · exact .bind (mycwd_rule fun ip hip => .act (hcwd ip hip) fun _ _ => hloop ip path [])

theorem namei_rule {Q : Option I → Ghost I F → Prop} (path : Path) (htx : g.tx = true)
    (hcwd : ∀ e, g.cwd = some e → 0 < g.irefs e) (hnone : Q none g) (hsome : ∀ ip, Q (some ip) (g.get ip)) :
    Sys.Follows Q (namei path) g :=
  .bind (namex_rule path false htx hcwd hnone fun ip _ => hsome ip)

/-! ### Files -/

theorem fdallocLoop_rule {Q : Option Fd → Ghost I F → Prop} (f : F) (hnone : Q none g)
    (hsome : ∀ fd, g.ofile fd = none → Q (some fd) (g.setSlot fd (some f))) :
    ∀ fds, Sys.Follows Q (fdallocLoop f fds) g
  | [] => hnone
  | fd :: fds => by
    refine .act trivial fun r hr => ?_
    cases r with
    | none => exact .act trivial fun _ _ => hsome fd hr.symm
    | some _ => exact fdallocLoop_rule f hnone hsome fds

theorem argfd_rule {Q : Option (Fd × F) → Ghost I F → Prop} (n : Int) (hnone : Q none g)
    (hsome : ∀ fd f, g.ofile fd = some f → Q (some (fd, f)) g) : Sys.Follows Q (argfd n) g := by
  rw [argfd]
  split
  · refine .act trivial fun r hr => ?_
    cases r with
    | none => exact hnone
    | some f => exact hsome _ f hr.symm
  · exact hnone

theorem fileclose_fresh (hf : f ∈ g.fresh) (href : 0 < g.frefs f)
    (hQ : U () ((g.letGo f).settle f)) : Sys.Follows U (fileclose f) g := by
  refine .act href fun r hr => ?_
  obtain ⟨⟨type, _, _, _⟩, rfl, rfl⟩ := hr hf
  exact hQ

theorem fileclose_rule (htx : g.tx = false) (hf : f ∉ g.fresh)
    (href : 0 < g.frefs f) (hQ : U () (g.letGo f)) : Sys.Follows U (fileclose f) g := by
  refine .act href fun r _ => ?_
  cases r with
  | none => exact hQ
  | some ff =>
    obtain ⟨type, _, w, _⟩ := ff
    cases type with
    | none =>
      show U () ((g.letGo f).settle f)
      rwa [Ghost.settle_eq (g := g.letGo f) hf]
    | pipe k =>
      show Sys.Follows U (pipeclose k w) (((g.letGo f).addEnd k w).settle f)
      rw [Ghost.settle_eq (g := (g.letGo f).addEnd k w) hf]
      refine ⟨((g.letGo f).addEnd_ends_pos k w), fun _ _ => ?_⟩
      show U () (((g.letGo f).addEnd k w).dropEnd k w)
      rwa [Ghost.dropEnd_addEnd]
    | inode ip =>
      show Sys.Follows U (do beginOp; iput ip; endOp) (((g.letGo f).get ip).settle f)
      rw [Ghost.settle_eq (g := (g.letGo f).get ip) hf]
      refine beginOp_rule htx (.bind (iput_rule rfl ((g.letGo f).get_irefs_pos ip) (endOp_rule rfl ?_)))
      rwa [Ghost.finish_put_begin (g := (g.letGo f).get ip) ip htx, Ghost.put_get]

theorem fileread_rule {Q : Option (List UInt8) → Ghost I F → Prop} (f : F) (n : BitVec 32) (hQ : ∀ r, Q r g) :
    Sys.Follows Q (fileread f n) g := by
  refine .quiet trivial (fun _ => rfl) fun x _ => ?_
  split
  · split
    · exact follows_panic _ _
    · exact ⟨trivial, fun r _ => hQ r⟩
    · refine .bind (ilock_rule fun hfree => .quiet trivial (fun _ => rfl) fun y _ => ?_)
      refine .bind (readi_rule _ _ fun r => .quiet trivial (fun _ => rfl) fun _ _ => .bind (iunlock_rule fun _ => ?_))
      rw [Ghost.unlock_lock hfree]
      exact hQ r
  · exact hQ none

theorem writeChunk_rule {Q : Option Nat → Ghost I F → Prop} (f : F) (src : List UInt8) (htx : g.tx = false)
    (hQ : ∀ r, Q r g) : Sys.Follows Q (writeChunk f ip src) g := by
  refine beginOp_rule htx (.bind (ilock_rule fun hfree => .quiet trivial (fun _ => rfl) fun y _ => ?_))
  refine .bind (writei_rule _ _ fun r => .quiet trivial (fun _ => rfl) fun _ _ => .bind (iunlock_rule fun _ => ?_))
  refine .bind (endOp_rule rfl ?_)
  rw [Ghost.unlock_lock hfree, Ghost.finish_begin htx]
  exact hQ r

theorem filewriteLoop_rule {Q : Bool → Ghost I F → Prop} (f : F) (htx : g.tx = false) (hQ : ∀ r, Q r g) :
    ∀ fuel src, Sys.Follows Q (filewriteLoop f ip fuel src) g
  | 0, src => hQ _
  | fuel + 1, src => by
    rw [filewriteLoop]
    split
    · exact hQ true
    refine .bind (writeChunk_rule f _ htx fun r => ?_)
    cases r with
    | none => exact hQ false
    | some r =>
      dsimp only
      split
      · exact follows_panic _ _
      · exact filewriteLoop_rule f htx hQ fuel _

theorem filewrite_rule {Q : Option Nat → Ghost I F → Prop} (f : F) (src : List UInt8) (htx : g.tx = false)
    (hQ : ∀ r, Q r g) : Sys.Follows Q (filewrite f src) g := by
  refine .act trivial fun x _ => ?_
  split
  · split
    · exact follows_panic _ _
    · exact ⟨trivial, fun r _ => hQ r⟩
    · refine .bind (filewriteLoop_rule f htx (fun b => ?_) _ _)
      split
      · exact hQ _
      · exact hQ none
  · exact hQ none

theorem filestat_rule {Q : Option (Dinode × Nat × Nat) → Ghost I F → Prop} (f : F) (hQ : ∀ r, Q r g) :
    Sys.Follows Q (filestat f) g := by
  refine .quiet trivial (fun _ => rfl) fun x _ => ?_
  split
  · refine .bind (ilock_rule fun hfree => .quiet trivial (fun _ => rfl) fun d _ => ?_)
    refine .quiet trivial (fun _ => rfl) fun dev _ => .quiet trivial (fun _ => rfl) fun n _ => ?_
    refine .bind (iunlock_rule fun _ => ?_)
    rw [Ghost.unlock_lock hfree]
    exact hQ _
  · exact hQ none

/-- A file that was just allocated and is closed again. -/
theorem fileclose_new (hf : f ∉ g.fresh) (hQ : U () g) : Sys.Follows U (fileclose f) (g.new f) := by
  refine fileclose_fresh (Finset.mem_insert_self f g.fresh) (g.hold_frefs_pos f) ?_
  show U () (((g.hold f).letGo f).renew f |>.settle f)
  rwa [Ghost.letGo_hold, Ghost.settle_renew hf]

theorem pipealloc_rule {Q : Option (F × F) → Ghost I F → Prop} (hnone : Q none g)
    (hsome : ∀ f0 f1, f0 ∉ g.fresh → f1 ∉ g.fresh → Q (some (f0, f1)) ((g.hold f0).hold f1)) :
    Sys.Follows Q pipealloc g := by
  refine .act trivial fun r hr => ?_
  cases r with
  | none => exact hnone
  | some f0 =>
    have h0 := hr f0 rfl
    refine .act trivial fun r hr => ?_
    cases r with
    | none => exact .bind (fileclose_new h0 hnone)
    | some f1 =>
      have h1 : f1 ∉ (g.new f0).fresh := hr f1 rfl
      obtain ⟨hne, h1'⟩ := not_or.1 (Finset.mem_insert.not.1 h1)
      refine .act trivial fun r _ => ?_
      cases r with
      | none =>
        have h0' : f0 ∉ (g.new f1).fresh := Finset.mem_insert.not.2 (not_or.2 ⟨Ne.symm hne, h0⟩)
        show Sys.Follows Q _ ((g.new f0).new f1)
        rw [Ghost.new_comm]
        exact .bind (fileclose_new h0' (.bind (fileclose_new h1' hnone)))
      | some k =>
        have hin : f0 ∈ ((g.new f0).new f1).fresh := by simp
        have hin' : f1 ∈ (((g.new f0).new f1).settle f0).fresh := by simp [hne]
        refine .act ⟨hin, ?_⟩ fun _ _ => .act ⟨hin', ?_⟩ fun _ _ => ?_
        · show 0 < ((((g.new f0).new f1).addEnd k false).addEnd k true).ends k false
          simp [Ghost.addEnd]
        · show 0 < (((((g.new f0).new f1).addEnd k false).addEnd k true).dropEnd k false).ends k true
          simp [Ghost.addEnd, Ghost.dropEnd]
        show Q (some (f0, f1)) ((((((((g.new f0).new f1).addEnd k false).addEnd k true).dropEnd k false).dropEnd
          k true).settle f0).settle f1)
        rw [Ghost.dropEnd_addEnd_both, Ghost.settle_new_new h0 h1]
        exact hsome f0 f1 h0 h1'

end Rules

end Xv6.Sysfile
