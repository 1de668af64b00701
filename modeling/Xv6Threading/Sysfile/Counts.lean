import Xv6Threading.Sysfile.Buffers
import Xv6Threading.Sysfile.Kernel

/-!
# Whose references, locks and pipe ends they are

`Inv s v`: with the record `v q` for each process `q`, everything shared is accounted for. The count of an inode is
what the processes have in their hands and one for each open file on it; the count of a file is what the processes
have; a pipe's end is open exactly if it belongs to a file or to a call; a lock is held by the one whose record says
so. A process between calls has its descriptors and its working directory and nothing else.

The invariant has one part for each thing that is shared, and each part has its own lemmas for one entry changing.
-/

namespace Xv6.Sysfile

open Function

abbrev Rec := Ghost E F

theorem Pipe.isOpen_close (x : Pipe) (w w' : Bool) :
    (x.close w).isOpen w' = if w' = w then false else x.isOpen w' := by
  obtain ⟨r, o, n⟩ := x
  cases w <;> cases w' <;> cases r <;> cases o <;> rfl

variable {w : Bool}

theorem Pipe.freed_close {x : Pipe} (ho : x.isOpen w = true)
    (h : x.freed = if x.readopen ∨ x.writeopen then 0 else 1) :
    (x.close w).freed = if (x.close w).readopen ∨ (x.close w).writeopen then 0 else 1 := by
  obtain ⟨r, o, n⟩ := x
  cases w <;> cases r <;> cases o <;> simp_all [Pipe.close, Pipe.isOpen]

/-- How many open files are on the inode. -/
def typeRefs (ftable : F → Fent) (e : E) : Nat := ∑ f, if (ftable f).file.type = .inode e then 1 else 0

/-- How many files are this end of the pipe. -/
def endRefs (ftable : F → Fent) (k : Nat) (w : Bool) : Nat :=
  ∑ f, if (ftable f).file.type = .pipe k ∧ (ftable f).file.writable = w then 1 else 0

def Phase.isBusy : Phase → Bool
  | .busy _ _ => true
  | _ => false

/-- What a process has between calls. -/
def Ghost.rest (ofile : Fd → Option F) (cwd : Option E) : Rec where
  tx := false
  locks := ∅
  bufs := ∅
  irefs := cwdRefs cwd
  frefs := slotRefs ofile
  fresh := ∅
  ends _ _ := 0
  ofile := ofile
  cwd := cwd
  child := none

theorem Ghost.rest_rest (ofile : Fd → Option F) (cwd : Option E) : (Ghost.rest ofile cwd).Rest where
  tx := rfl
  locks := rfl
  bufs := rfl
  fresh := rfl
  ends _ _ := rfl
  child := rfl
  frefs _ := rfl
  irefs _ := rfl

variable {g : Rec} {ι β γ : Type}

theorem Ghost.Rest.eq (h : g.Rest) : g = Ghost.rest g.ofile g.cwd :=
  Ghost.ext h.tx h.locks h.bufs (funext h.irefs) (funext h.frefs) h.fresh (funext fun k => funext (h.ends k)) rfl rfl
    h.child

/-- One more or one less of a count. -/
theorem update_count {κ : Type} [DecidableEq κ] (op : Nat → Nat → Nat) (h0 : ∀ n, op n 0 = n) (c : κ → Nat) (i : κ) :
    update c i (op (c i) 1) = fun e => op (c e) (if i = e then 1 else 0) := by
  funext e
  by_cases he : e = i
  · rw [he, update_self, if_pos rfl]
  · rw [update_of_ne he, if_neg (Ne.symm he), h0]

theorem update_ends (op : Nat → Nat → Nat) (h0 : ∀ n, op n 0 = n) (c : Nat → Bool → Nat) (k : Nat) (w : Bool) :
    update c k (update (c k) w (op (c k w) 1)) = fun k' w' => op (c k' w') (if k = k' ∧ w = w' then 1 else 0) := by
  funext k' w'
  by_cases hk : k' = k
  · rw [hk, update_self, update_count op h0]
    simp
  · rw [update_of_ne hk, if_neg fun h => hk h.1.symm, h0]

/-- What a file leaves, in one equation. -/
theorem Ghost.inherit_eq (g : Rec) (ff : File E) : g.inherit ff =
    { g with
      irefs := fun e => g.irefs e + if ff.type = .inode e then 1 else 0
      ends := fun k w => g.ends k w + if ff.type = .pipe k ∧ ff.writable = w then 1 else 0 } := by
  obtain ⟨type, _, w, _⟩ := ff
  cases type with
  | none => simp [Ghost.inherit]
  | inode ip => simp [Ghost.inherit, Ghost.get, update_count HAdd.hAdd Nat.add_zero]
  | pipe k => simp [Ghost.inherit, Ghost.addEnd, update_ends HAdd.hAdd Nat.add_zero]

theorem Ghost.bequeath_eq (g : Rec) (x : File E) : g.bequeath x =
    { g with
      irefs := fun e => g.irefs e - if x.type = .inode e then 1 else 0
      ends := fun k w => g.ends k w - if x.type = .pipe k ∧ x.writable = w then 1 else 0 } := by
  obtain ⟨type, _, w, _⟩ := x
  cases type with
  | none => simp [Ghost.bequeath]
  | inode ip => simp [Ghost.bequeath, Ghost.put, update_count HSub.hSub Nat.sub_zero]
  | pipe k => simp [Ghost.bequeath, Ghost.dropEnd, update_ends HSub.hSub Nat.sub_zero]

theorem Ghost.Has.irefs {x : File E} (h : g.Has x) (e : E) : (if x.type = .inode e then 1 else 0) ≤ g.irefs e := by
  split
  next ht =>
    simp only [Ghost.Has, ht] at h
    exact h
  · exact Nat.zero_le _

theorem Ghost.Has.ends {x : File E} (h : g.Has x) (k : Nat) (w : Bool) :
    (if x.type = .pipe k ∧ x.writable = w then 1 else 0) ≤ g.ends k w := by
  split
  next ht =>
    simp only [Ghost.Has, ht.1] at h
    rw [← ht.2]
    exact h
  · exact Nat.zero_le _

/-! ## The parts -/

structure Inodes (icache : E → Ient) (ftable : F → Fent) (irefs : Slot → E → Nat) : Prop where
  count : ∀ e, (icache e).ref = ∑ q, irefs q e + typeRefs ftable e
  uniq : ∀ e e', 0 < (icache e).ref → 0 < (icache e').ref → (icache e).dev = (icache e').dev →
    (icache e).inum = (icache e').inum → e = e'

structure Files (ftable : F → Fent) (frefs : Slot → F → Nat) (fresh : Slot → Finset F) : Prop where
  count : ∀ f, (ftable f).ref = ∑ q, frefs q f
  typed : ∀ f, (ftable f).ref = 0 → (ftable f).file.type = .none
  fresh : ∀ q, ∀ f ∈ fresh q, (ftable f).ref = 1 ∧ frefs q f = 1 ∧ (ftable f).file.type = .none

structure Pipes (pipes : Nat → Pipe) (npipes : Nat) (ftable : F → Fent) (ends : Slot → Nat → Bool → Nat) : Prop where
  count : ∀ k w, ((pipes k).isOpen w).toNat = ∑ q, ends q k w + endRefs ftable k w
  later : ∀ k, npipes ≤ k → pipes k = ⟨false, false, 0⟩
  freed : ∀ k < npipes, (pipes k).freed = if (pipes k).readopen ∨ (pipes k).writeopen then 0 else 1

/-- Every lock is held by the one in whose hands it is. -/
def Owners {κ : Type} (holder : κ → Option Slot) (held : Slot → Finset κ) : Prop :=
  ∀ k q, holder k = some q ↔ k ∈ held q

structure Procs (s : Kernel) (v : Slot → Rec) : Prop where
  ofile : ∀ q, (v q).ofile = s.ofile q
  cwd : ∀ q, (v q).cwd = s.cwd q
  rest : ∀ q, (s.phase q).isBusy = false → (v q).Rest
  child : ∀ q ch, (v q).child = some ch →
    s.phase ch.slot = .embryo ∧ s.ofile ch.slot = ch.ofile ∧ s.cwd ch.slot = ch.cwd
  inj : ∀ q q' ch ch', (v q).child = some ch → (v q').child = some ch' → ch.slot = ch'.slot → q = q'
  embryo : ∀ c, s.phase c = .embryo → ∃ q ch, (v q).child = some ch ∧ ch.slot = c
  empty : ∀ q, s.phase q = .unused ∨ s.phase q = .zombie → (∀ fd, s.ofile q fd = none) ∧ s.cwd q = none

structure Inv (s : Kernel) (v : Slot → Rec) : Prop where
  inodes : Inodes s.icache s.ftable fun q => (v q).irefs
  files : Files s.ftable (fun q => (v q).frefs) fun q => (v q).fresh
  pipes : Pipes s.pipes s.npipes s.ftable fun q => (v q).ends
  locks : Owners (fun e => (s.icache e).lock) fun q => (v q).locks
  bufs : Owners s.bufs fun q => (v q).bufs
  procs : Procs s v

/-! ## What `iget` does -/

theorem Kernel.iget_cases {s s' : Kernel} {dev inum : Nat} {e : E} (h : s.iget dev inum = some (e, s')) :
    (0 < (s.icache e).ref ∧ s' = s.setRef e ((s.icache e).ref + 1)) ∨
    ((s.icache e).ref = 0 ∧ (∀ i, 0 < (s.icache i).ref → ¬ ((s.icache i).dev = dev ∧ (s.icache i).inum = inum)) ∧
      s' = s.setIent e { s.icache e with dev := dev, inum := inum, ref := 1, valid := false }) := by
  rw [Kernel.iget] at h
  generalize hc : s.cached dev inum = c at h
  generalize hm : s.emptyIent = m at h
  rw [Kernel.cached] at hc
  rw [Kernel.emptyIent] at hm
  rcases c with _ | e'
  · rcases m with _ | e'
    · cases h
    · cases h
      have hempty := Fin.eq_true_of_find?_eq_some hm
      rw [decide_eq_true_eq] at hempty
      refine .inr ⟨hempty, fun i hi hkey => ?_, rfl⟩
      have hno := Fin.eq_false_of_find?_eq_none hc i
      rw [decide_eq_false_iff_not] at hno
      exact hno ⟨hi, hkey⟩
  · cases h
    have hused := Fin.eq_true_of_find?_eq_some hc
    rw [decide_eq_true_eq] at hused
    exact .inl ⟨hused.1, rfl⟩

/-! ## One entry changes -/

/-- A field of all entries, when one of them changes. -/
theorem field_update [DecidableEq ι] (π : β → γ) (v : ι → β) (i : ι) (x : β) :
    (fun j => π (update v i x j)) = update (fun j => π (v j)) i (π x) :=
  comp_update π v i x

theorem field_same [DecidableEq ι] {v : ι → β} {i : ι} {x : β} (π : β → γ) (h : π x = π (v i)) :
    (fun j => π (update v i x j)) = fun j => π (v j) := by
  rw [field_update, h, update_eq_self]

theorem field_same_two [DecidableEq ι] {v : ι → β} {i j : ι} {x y : β} (hne : j ≠ i) (π : β → γ)
    (hx : π x = π (v i)) (hy : π y = π (v j)) : (fun k => π (update (update v i x) j y k)) = fun k => π (v k) := by
  rw [field_same (v := update v i x) π (by rw [update_of_ne hne, hy]), field_same π hx]

/-- The sum of a count over all processes, when the count of one of them changes. -/
theorem sum_field_update {κ : Type} (c : Slot → κ → Nat) (p : Slot) (x : κ → Nat) (i : κ) :
    ∑ q, update c p x q i + c p i = ∑ q, c q i + x i := by
  have h := Links.sum_update (fun y : κ → Nat => y i) c p x
  exact h

variable {q : Slot}

/-- Something moves from one process to another. -/
theorem sum_field_move {κ : Type} (c : Slot → κ → Nat) {p : Slot} (hne : q ≠ p) {x y : κ → Nat} {i : κ}
    (h : x i + y i = c p i + c q i) : ∑ r, update (update c p x) q y r i = ∑ r, c r i := by
  have hp := sum_field_update c p x i
  have hq := sum_field_update (update c p x) q y i
  rw [update_of_ne hne] at hq
  omega

theorem typeRefs_update (ftable : F → Fent) (f : F) (x : Fent) (e : E) :
    typeRefs (update ftable f x) e + (if (ftable f).file.type = .inode e then 1 else 0) =
      typeRefs ftable e + if x.file.type = .inode e then 1 else 0 :=
  Links.sum_update (fun y : Fent => if y.file.type = .inode e then 1 else 0) ftable f x

theorem endRefs_update (ftable : F → Fent) (f : F) (x : Fent) (k : Nat) (w : Bool) :
    endRefs (update ftable f x) k w +
        (if (ftable f).file.type = .pipe k ∧ (ftable f).file.writable = w then 1 else 0) =
      endRefs ftable k w + if x.file.type = .pipe k ∧ x.file.writable = w then 1 else 0 :=
  Links.sum_update (fun y : Fent => if y.file.type = .pipe k ∧ y.file.writable = w then 1 else 0) ftable f x

theorem sum_ends_update (ends : Slot → Nat → Bool → Nat) (p : Slot) (c : Nat → Bool → Nat) (k : Nat) (w : Bool) :
    ∑ q, update ends p c q k w + ends p k w = ∑ q, ends q k w + c k w := by
  have h := Links.sum_update (fun y : Nat → Bool → Nat => y k w) ends p c
  exact h

namespace Inodes

variable {icache : E → Ient} {ftable : F → Fent} {irefs : Slot → E → Nat} (h : Inodes icache ftable irefs)
  {p : Slot} {e : E}

include h

variable {x : Ient} {c : Nat}

/-- An entry changes with what one process has of it. -/
theorem change (href : x.ref + irefs p e = (icache e).ref + c) (hnew : 0 < x.ref → ∀ i, i ≠ e →
      0 < (icache i).ref → ¬ ((icache i).dev = x.dev ∧ (icache i).inum = x.inum)) :
    Inodes (update icache e x) ftable (update irefs p (update (irefs p) e c)) := by
  constructor
  · intro i
    have hsum := sum_field_update irefs p (update (irefs p) e c) i
    have hcount := h.count i
    by_cases hi : i = e
    · subst hi
      simp only [update_self] at hsum ⊢
      omega
    · simp only [update_of_ne hi] at hsum ⊢
      omega
  intro i j hi hj hd hn
  by_cases hie : i = e <;> by_cases hje : j = e
  · rw [hie, hje]
  · subst hie
    simp only [update_self, update_of_ne hje] at hi hj hd hn
    exact absurd ⟨hd.symm, hn.symm⟩ (hnew hi j hje hj)
  · subst hje
    simp only [update_self, update_of_ne hie] at hi hj hd hn
    exact absurd ⟨hd, hn⟩ (hnew hj i hie hi)
  · simp only [update_of_ne hie, update_of_ne hje] at hi hj hd hn
    exact h.uniq i j hi hj hd hn

/-- The count of an entry changes by what one process has more or less of it. -/
theorem adjust (hdev : x.dev = (icache e).dev) (hinum : x.inum = (icache e).inum)
    (href : x.ref + irefs p e = (icache e).ref + c) (hpos : 0 < x.ref → 0 < (icache e).ref) :
    Inodes (update icache e x) ftable (update irefs p (update (irefs p) e c)) :=
  h.change href fun hx i hi hip hkey =>
    hi (h.uniq i e hip (hpos hx) (hkey.1.trans hdev) (hkey.2.trans hinum))

/-- An entry changes, but neither its count nor the inode it is for. -/
theorem entry (hdev : x.dev = (icache e).dev) (hinum : x.inum = (icache e).inum)
    (href : x.ref = (icache e).ref) : Inodes (update icache e x) ftable irefs := by
  have hsame := h.adjust (p := 0) (x := x) (c := irefs 0 e) hdev hinum (by rw [href]) (by rw [href]; exact id)
  rwa [update_eq_self, update_eq_self] at hsame

/-- An entry that is not in use is given to an inode that has none. -/
theorem fill (hx : x.ref = 1) (he : (icache e).ref = 0)
    (hnew : ∀ i, 0 < (icache i).ref → ¬ ((icache i).dev = x.dev ∧ (icache i).inum = x.inum)) :
    Inodes (update icache e x) ftable (update irefs p (update (irefs p) e (irefs p e + 1))) :=
  h.change (by omega) fun _ i _ => hnew i

/-- A reference moves between a file and a process. -/
theorem move {f : F} {x : Fent} {c : E → Nat} (hc : ∀ e, c e + (if x.file.type = .inode e then 1 else 0) =
      irefs p e + if (ftable f).file.type = .inode e then 1 else 0) :
    Inodes icache (update ftable f x) (update irefs p c) := by
  refine ⟨fun i => ?_, h.uniq⟩
  have hsum := sum_field_update irefs p c i
  have htype := typeRefs_update ftable f x i
  have hcount := h.count i
  have hci := hc i
  omega

/-- References move from one process to another. -/
theorem give {x y : E → Nat} (hne : q ≠ p) (hxy : ∀ e, x e + y e = irefs p e + irefs q e) :
    Inodes icache ftable (update (update irefs p x) q y) := by
  refine ⟨fun i => ?_, h.uniq⟩
  rw [sum_field_move irefs hne (hxy i)]
  exact h.count i

theorem ref_pos (hp : 0 < irefs p e) : 0 < (icache e).ref := by
  have hle := Finset.single_le_sum (f := fun q => irefs q e) (fun _ _ => Nat.zero_le _) (Finset.mem_univ p)
  have hcount := h.count e
  omega

theorem irefs_le : irefs p e ≤ (icache e).ref := by
  have hle := Finset.single_le_sum (f := fun q => irefs q e) (fun _ _ => Nat.zero_le _) (Finset.mem_univ p)
  have hcount := h.count e
  omega

end Inodes

namespace Files

variable {x : Fent} {c : Nat} {ftable : F → Fent} {frefs : Slot → F → Nat} {fresh : Slot → Finset F} (h : Files ftable frefs fresh)
  {p : Slot} {f : F}

include h

theorem frefs_le (q : Slot) (f : F) : frefs q f ≤ (ftable f).ref := by
  rw [h.count]
  exact Finset.single_le_sum (f := fun q => frefs q f) (fun _ _ => Nat.zero_le _) (Finset.mem_univ q)

/-- Two processes that have the file: it is referenced twice. -/
theorem two_le (hne : q ≠ p) (hp : 0 < frefs p f) (hq : 0 < frefs q f) : 2 ≤ (ftable f).ref := by
  have hsum := sum_field_update frefs p (fun _ => 0) f
  have hle := Finset.single_le_sum (f := fun q => update frefs p (fun _ => 0) q f)
    (fun _ _ => Nat.zero_le _) (Finset.mem_univ q)
  simp only [update_of_ne hne] at hle
  have hcount := h.count f
  omega

/-- Nobody else has a file that is fresh. -/
theorem owner (hq : f ∈ fresh q) (hp : 0 < frefs p f) : q = p := by
  by_contra hne
  obtain ⟨href, hone, -⟩ := h.fresh q f hq
  have := h.two_le hne hp (by omega)
  omega

theorem count_update (href : x.ref + frefs p f = (ftable f).ref + c) (i : F) : (update ftable f x i).ref =
      ∑ q, update frefs p (update (frefs p) f c) q i := by
  have hsum := sum_field_update frefs p (update (frefs p) f c) i
  have hcount := h.count i
  by_cases hi : i = f
  · subst hi
    simp only [update_self] at hsum ⊢
    omega
  · simp only [update_of_ne hi] at hsum ⊢
    omega

/-- What is fresh elsewhere, or another file, is not touched. -/
theorem fresh_update {i : F} (hi : i ∈ fresh q) (hif : i ≠ f) : (update ftable f x i).ref = 1 ∧
      update frefs p (update (frefs p) f c) q i = 1 ∧
        (update ftable f x i).file.type = .none := by
  obtain ⟨href, hone, htype⟩ := h.fresh q i hi
  rw [update_of_ne hif]
  refine ⟨href, ?_, htype⟩
  by_cases hq : q = p
  · subst hq
    rwa [update_self, update_of_ne hif]
  · rwa [update_of_ne hq]

/-- A file changes with what one process has of it; what is fresh then is this file or was so before. -/
theorem change {r : Finset F} (href : x.ref + frefs p f = (ftable f).ref + c)
    (htyped : x.ref = 0 → x.file.type = .none) (hr : ∀ i ∈ r, i ≠ f → i ∈ fresh p)
    (hf : f ∈ r → x.ref = 1 ∧ c = 1 ∧ x.file.type = .none) (hother : ∀ q, q ≠ p → f ∉ fresh q) :
    Files (update ftable f x) (update frefs p (update (frefs p) f c)) (update fresh p r) := by
  refine ⟨h.count_update href, fun i hi => ?_, fun q i hi => ?_⟩
  · by_cases hif : i = f
    · subst hif
      rw [update_self] at hi ⊢
      exact htyped hi
    · rw [update_of_ne hif] at hi ⊢
      exact h.typed i hi
  have hq : q = p ∧ i ∈ r ∨ q ≠ p ∧ i ∈ fresh q := by
    by_cases hq : q = p
    · refine .inl ⟨hq, ?_⟩
      rwa [hq, update_self] at hi
    · exact .inr ⟨hq, by rwa [update_of_ne hq] at hi⟩
  by_cases hif : i = f
  · subst hif
    obtain ⟨rfl, hi'⟩ | ⟨hq, hi'⟩ := hq
    · simpa using hf hi'
    · exact absurd hi' (hother q hq)
  · obtain ⟨rfl, hi'⟩ | ⟨-, hi'⟩ := hq
    · exact h.fresh_update (hr i hi' hif) hif
    · exact h.fresh_update hi' hif

theorem alloc (hx : x.ref = 1) (htype : x.file.type = .none) (hf : (ftable f).ref = 0) :
    Files (update ftable f x) (update frefs p (update (frefs p) f (frefs p f + 1)))
      (update fresh p (insert f (fresh p))) := by
  have hle := h.frefs_le p f
  refine h.change (by omega) (fun _ => htype) (fun i hi hif => (Finset.mem_insert.1 hi).resolve_left hif)
    (fun _ => ⟨hx, by omega, htype⟩) fun q _ hq => ?_
  have := (h.fresh q f hq).1
  omega

/-- A reference more, or one less that is not the last. -/
theorem adjust (href : x.ref + frefs p f = (ftable f).ref + c) (hpos : 0 < x.ref)
    (hp : 0 < frefs p f) (hf : f ∉ fresh p) :
    Files (update ftable f x) (update frefs p (update (frefs p) f c)) (update fresh p (fresh p)) :=
  h.change href (by omega) (fun _ hi _ => hi) (absurd · hf) fun _ hq hin => hq (h.owner hin hp)

/-- The last reference goes. -/
theorem close (hx : x.ref = 0) (htype : x.file.type = .none) (href : (ftable f).ref = 1) (hp : 0 < frefs p f) :
    Files (update ftable f x) (update frefs p (update (frefs p) f (frefs p f - 1)))
      (update fresh p ((fresh p).erase f)) := by
  have hle := h.frefs_le p f
  exact h.change (by omega) (fun _ => htype) (fun _ hi _ => Finset.mem_of_mem_erase hi)
    (fun hin => absurd rfl (Finset.ne_of_mem_erase hin)) fun _ hq hin => hq (h.owner hin hp)

/-- A fresh file gets its type. -/
theorem settle (hx : x.ref = (ftable f).ref) (hf : f ∈ fresh p) :
    Files (update ftable f x) (update frefs p (frefs p)) (update fresh p ((fresh p).erase f)) := by
  obtain ⟨href, hone, -⟩ := h.fresh p f hf
  have hself := h.change (p := p) (f := f) (x := x) (c := frefs p f) (by omega) (by omega)
    (fun _ hi _ => Finset.mem_of_mem_erase hi) (fun hin => absurd rfl (Finset.ne_of_mem_erase hin))
    fun _ hq hin => hq (h.owner hin (by omega))
  rwa [update_eq_self f (frefs p)] at hself

/-- References move to a process with nothing fresh. -/
theorem give {x y : F → Nat} (hne : q ≠ p) (hxy : ∀ f, x f + y f = frefs p f + frefs q f)
    (hq : fresh q = ∅) (hp : ∀ f ∈ fresh p, x f = frefs p f) :
    Files ftable (update (update frefs p x) q y) fresh := by
  refine ⟨fun i => ?_, h.typed, fun r i hi => ?_⟩
  · rw [sum_field_move frefs hne (hxy i)]
    exact h.count i
  obtain ⟨href, hone, htype⟩ := h.fresh r i hi
  refine ⟨href, ?_, htype⟩
  have hrq : r ≠ q := by
    rintro rfl
    rw [hq] at hi
    exact absurd hi (Finset.notMem_empty i)
  rw [update_of_ne hrq]
  by_cases hrp : r = p
  · subst hrp
    rwa [update_self, hp i hi]
  · rwa [update_of_ne hrp]

/-- Neither the count nor the type changes. -/
theorem same (hx : x.ref = (ftable f).ref) (htype : x.file.type = (ftable f).file.type) :
    Files (update ftable f x) frefs fresh := by
  have hentry : ∀ i, (update ftable f x i).ref = (ftable i).ref ∧
      (update ftable f x i).file.type = (ftable i).file.type := by
    intro i
    by_cases hif : i = f
    · subst hif
      rw [update_self]
      exact ⟨hx, htype⟩
    · rw [update_of_ne hif]
      exact ⟨rfl, rfl⟩
  refine ⟨fun i => ?_, fun i => ?_, fun q i hi => ?_⟩
  · rw [(hentry i).1]
    exact h.count i
  · rw [(hentry i).1, (hentry i).2]
    exact h.typed i
  · rw [(hentry i).1, (hentry i).2]
    exact h.fresh q i hi

end Files

namespace Pipes

variable {pipes : Nat → Pipe} {npipes : Nat} {ftable : F → Fent} {ends : Slot → Nat → Bool → Nat}
  (h : Pipes pipes npipes ftable ends) {p : Slot}

include h

variable {c : Nat → Bool → Nat} {k : Nat}

/-- An end moves between a file and a process. -/
theorem move {f : F} {x : Fent}
    (hc : ∀ k w, c k w + (if x.file.type = .pipe k ∧ x.file.writable = w then 1 else 0) =
      ends p k w + if (ftable f).file.type = .pipe k ∧ (ftable f).file.writable = w then 1 else 0) :
    Pipes pipes npipes (update ftable f x) (update ends p c) := by
  refine ⟨fun k w => ?_, h.later, h.freed⟩
  have hsum := sum_ends_update ends p c k w
  have htype := endRefs_update ftable f x k w
  have hcount := h.count k w
  have hck := hc k w
  omega

/-- A new pipe, with both ends in the hands of its maker. -/
theorem init
    (hc : ∀ k w, c k w = ends p k w + if k = npipes then 1 else 0) :
    Pipes (update pipes npipes ⟨true, true, 0⟩) (npipes + 1) ftable (update ends p c) := by
  refine ⟨fun k w => ?_, fun k hk => ?_, fun k hk => ?_⟩
  · have hsum := sum_ends_update ends p c k w
    have hcount := h.count k w
    have hck := hc k w
    by_cases hkn : k = npipes
    · subst hkn
      have hopen : ((Pipe.isOpen ⟨true, true, 0⟩ w).toNat) = 1 := by cases w <;> rfl
      have hclosed : ((pipes k).isOpen w).toNat = 0 := by
        rw [h.later k (Nat.le_refl k)]
        cases w <;> rfl
      rw [update_self, hopen]
      simp only [if_true] at hck
      omega
    · rw [update_of_ne hkn]
      simp only [hkn, if_false] at hck
      omega
  · rw [update_of_ne (by omega)]
    exact h.later k (by omega)
  · by_cases hkn : k = npipes
    · subst hkn
      simp
    · rw [update_of_ne hkn]
      exact h.freed k (by omega)

theorem isOpen (hp : 0 < ends p k w) : (pipes k).isOpen w = true := by
  have hle := Finset.single_le_sum (f := fun q => ends q k w) (fun _ _ => Nat.zero_le _) (Finset.mem_univ p)
  have hcount := h.count k w
  cases ho : (pipes k).isOpen w
  · rw [ho, Bool.toNat_false] at hcount
    omega
  · rfl

theorem lt_npipes (ho : (pipes k).isOpen w = true) : k < npipes := by
  by_contra hk
  rw [h.later k (Nat.le_of_not_lt hk)] at ho
  cases w <;> cases ho

/-- An end in the hands of the process is closed. -/
theorem close (hp : 0 < ends p k w)
    (hc : ∀ k' w', c k' w' = if k' = k ∧ w' = w then ends p k w - 1 else ends p k' w') :
    Pipes (update pipes k ((pipes k).close w)) npipes ftable (update ends p c) := by
  have ho := h.isOpen hp
  have hk := h.lt_npipes ho
  refine ⟨fun k' w' => ?_, fun k' hk' => ?_, fun k' hk' => ?_⟩
  · have hsum := sum_ends_update ends p c k' w'
    have hcount := h.count k' w'
    have hck := hc k' w'
    by_cases hkk : k' = k
    · subst hkk
      rw [update_self, Pipe.isOpen_close]
      by_cases hww : w' = w
      · subst hww
        simp only [and_self, if_true, ho, Bool.toNat_true] at hck hcount
        simp only [if_true, Bool.toNat_false]
        omega
      · simp only [hww, and_false, if_false] at hck ⊢
        omega
    · rw [update_of_ne hkk]
      simp only [hkk, false_and, if_false] at hck
      omega
  · rw [update_of_ne (by omega)]
    exact h.later k' hk'
  by_cases hkk : k' = k
  · subst hkk
    rw [update_self]
    exact Pipe.freed_close ho (h.freed k' hk')
  · rw [update_of_ne hkk]
    exact h.freed k' hk'

end Pipes

/-! ## Locks -/

namespace Owners

variable {κ : Type} [DecidableEq κ] {holder : κ → Option Slot} {held : Slot → Finset κ} (h : Owners holder held)
  {p : Slot} {k : κ}

include h

omit [DecidableEq κ] in
theorem notMem_of_free (hk : holder k = none) : k ∉ held p := by
  intro hin
  rw [← h k p, hk] at hin
  cases hin

theorem take (hk : holder k = none) : Owners (update holder k (some p)) (update held p (insert k (held p))) := by
  intro i q
  by_cases hi : i = k
  · subst hi
    by_cases hq : q = p
    · subst hq
      simp
    · simp [hq, Ne.symm hq, h.notMem_of_free hk]
  · by_cases hq : q = p
    · subst hq
      simp [hi, h i q]
    · simp [hi, hq, h i q]

theorem release (hk : k ∈ held p) : Owners (update holder k none) (update held p ((held p).erase k)) := by
  intro i q
  by_cases hi : i = k
  · subst hi
    have hp := (h i p).2 hk
    by_cases hq : q = p
    · subst hq
      simp
    have hno : i ∉ held q := fun hiq => by
      have := (h i q).2 hiq
      rw [hp, Option.some.injEq] at this
      exact hq this.symm
    simp [hq, hno]
  · by_cases hq : q = p
    · subst hq
      simp [hi, h i q]
    · simp [hi, hq, h i q]

end Owners

/-! ## Processes -/

namespace Procs

variable {s s' : Kernel} {v : Slot → Rec} (h : Procs s v) {p : Slot}

include h

section

variable (hp : (s.phase p).isBusy = true) {x : Phase} {c : Slot}
include hp

/-- The process changes its descriptors or its working directory, and the record says so. -/
theorem own (hphase : s'.phase = s.phase)
    (hofile : s'.ofile = update s.ofile p g.ofile) (hcwd : s'.cwd = update s.cwd p g.cwd)
    (hchild : g.child = (v p).child) : Procs s' (update v p g) := by
  have hne : ∀ q, (s.phase q).isBusy = false → q ≠ p := by
    rintro q hq rfl
    rw [hp] at hq
    cases hq
  have hch : ∀ q, (update v p g q).child = (v q).child := congrFun (field_same (v := v) Ghost.child hchild)
  constructor
  · intro q
    rw [hofile]
    by_cases hq : q = p
    · subst hq
      simp
    · simp [hq, h.ofile q]
  · intro q
    rw [hcwd]
    by_cases hq : q = p
    · subst hq
      simp
    · simp [hq, h.cwd q]
  · intro q hq
    rw [hphase] at hq
    rw [update_of_ne (hne q hq)]
    exact h.rest q hq
  · intro q ch hq
    rw [hch] at hq
    obtain ⟨he, ho, hc⟩ := h.child q ch hq
    have := hne ch.slot (by rw [he]; rfl)
    rw [hphase, hofile, hcwd, update_of_ne this, update_of_ne this]
    exact ⟨he, ho, hc⟩
  · intro q q' ch ch' hq hq'
    rw [hch] at hq hq'
    exact h.inj q q' ch ch' hq hq'
  · intro c hc
    rw [hphase] at hc
    obtain ⟨q, ch, hq, hslot⟩ := h.embryo c hc
    exact ⟨q, ch, by rwa [hch], hslot⟩
  · intro q hq
    rw [hphase] at hq
    have hqp := hne q (by rcases hq with hq | hq <;> rw [hq] <;> rfl)
    rw [hofile, hcwd, update_of_ne hqp, update_of_ne hqp]
    exact h.empty q hq

theorem same (hphase : s'.phase = s.phase) (hofile : s'.ofile = s.ofile)
    (hcwd : s'.cwd = s.cwd) (hgo : g.ofile = (v p).ofile) (hgc : g.cwd = (v p).cwd)
    (hchild : g.child = (v p).child) : Procs s' (update v p g) := by
  refine h.own hp hphase ?_ ?_ hchild
  · rw [hofile, hgo, h.ofile, update_eq_self]
  · rw [hcwd, hgc, h.cwd, update_eq_self]

/-- Who is in no call is at rest; `c` was in none before. -/
theorem rest_setPhase (hcp : c ≠ p)
    (hc : (s.phase c).isBusy = false) (q : Slot) (hq : ((s.setPhase c x).phase q).isBusy = false) :
    (update v p g q).Rest := by
  have hq' : (s.phase q).isBusy = false := by
    by_cases hqc : q = c
    · rwa [hqc]
    · simpa [Kernel.setPhase, hqc] using hq
  have hqp : q ≠ p := by
    rintro rfl
    rw [hp] at hq'
    cases hq'
  rw [update_of_ne hqp]
  exact h.rest q hq'

/-- A slot that is not in use becomes the child. -/
theorem alloc (hc : s.phase c = .unused) (hnone : (v p).child = none)
    (hg : g.child = some ⟨c, fun _ => none, none⟩) (hgo : g.ofile = (v p).ofile) (hgc : g.cwd = (v p).cwd) :
    Procs (s.setPhase c .embryo) (update v p g) := by
  have hcp : c ≠ p := by
    rintro rfl
    rw [hc] at hp
    cases hp
  have hfree : ∀ q ch, (v q).child = some ch → ch.slot ≠ c := by
    rintro q ch hq rfl
    have := (h.child q ch hq).1
    rw [hc] at this
    cases this
  have hold : ∀ q ch, (update v p g q).child = some ch → q ≠ p → (v q).child = some ch := by
    intro q ch hq hne
    rwa [update_of_ne hne] at hq
  constructor
  · exact fun q => (congrFun (field_same (v := v) Ghost.ofile hgo) q).trans (h.ofile q)
  · exact fun q => (congrFun (field_same (v := v) Ghost.cwd hgc) q).trans (h.cwd q)
  · exact h.rest_setPhase hp hcp (by rw [hc]; rfl)
  · intro q ch hq
    by_cases hqp : q = p
    · subst hqp
      rw [update_self, hg, Option.some.injEq] at hq
      subst hq
      obtain ⟨ho, hcwd⟩ := h.empty c (.inl hc)
      exact ⟨update_self _ _ _, funext ho, hcwd⟩
    · have hq := hold q ch hq hqp
      obtain ⟨he, ho, hcwd⟩ := h.child q ch hq
      exact ⟨(update_of_ne (hfree q ch hq) _ _).trans he, ho, hcwd⟩
  · intro q q' ch ch' hq hq' hslot
    by_cases hqp : q = p <;> by_cases hqp' : q' = p
    · rw [hqp, hqp']
    · subst hqp
      rw [update_self, hg, Option.some.injEq] at hq
      subst hq
      exact absurd hslot.symm (hfree q' ch' (hold q' ch' hq' hqp'))
    · subst hqp'
      rw [update_self, hg, Option.some.injEq] at hq'
      subst hq'
      exact absurd hslot (hfree q ch (hold q ch hq hqp))
    · exact h.inj q q' ch ch' (hold q ch hq hqp) (hold q' ch' hq' hqp') hslot
  · intro c' hc'
    by_cases hcc : c' = c
    · subst hcc
      exact ⟨p, _, by rw [update_self, hg], rfl⟩
    have hemb : s.phase c' = .embryo := by simpa [Kernel.setPhase, hcc] using hc'
    obtain ⟨q, ch, hq, hslot⟩ := h.embryo c' hemb
    have hqp : q ≠ p := by
      rintro rfl
      rw [hnone] at hq
      cases hq
    exact ⟨q, ch, by rwa [update_of_ne hqp], hslot⟩
  · intro q hq
    have hqc : q ≠ c := by
      rintro rfl
      rcases hq with hq | hq <;> simp [Kernel.setPhase] at hq
    exact h.empty q (by simpa [Kernel.setPhase, hqc] using hq)

/-- The child is on its own, or its slot is given back. -/
theorem leave {ch : Child E F} (hch : (v p).child = some ch)
    (hg : g.child = none) (hgo : g.ofile = (v p).ofile) (hgc : g.cwd = (v p).cwd)
    (hx : x = .user ∨ x = .unused ∧ (∀ fd, ch.ofile fd = none) ∧ ch.cwd = none) :
    Procs (s.setPhase ch.slot x) (update v p g) := by
  obtain ⟨hemb, hofile, hcwd⟩ := h.child p ch hch
  have hcp : ch.slot ≠ p := by
    intro heq
    rw [← heq, hemb] at hp
    cases hp
  have hold : ∀ q ch', (update v p g q).child = some ch' → (v q).child = some ch' ∧ q ≠ p := by
    intro q ch' hq
    by_cases hqp : q = p
    · subst hqp
      rw [update_self, hg] at hq
      cases hq
    · rw [update_of_ne hqp] at hq
      exact ⟨hq, hqp⟩
  constructor
  · exact fun q => (congrFun (field_same (v := v) Ghost.ofile hgo) q).trans (h.ofile q)
  · exact fun q => (congrFun (field_same (v := v) Ghost.cwd hgc) q).trans (h.cwd q)
  · exact h.rest_setPhase hp hcp (by rw [hemb]; rfl)
  · intro q ch' hq
    obtain ⟨hq, hqp⟩ := hold q ch' hq
    have hne : ch'.slot ≠ ch.slot := fun heq => hqp (h.inj q p ch' ch hq hch heq)
    obtain ⟨he, ho, hc⟩ := h.child q ch' hq
    exact ⟨(update_of_ne hne _ _).trans he, ho, hc⟩
  · intro q q' c c' hq hq'
    exact h.inj q q' c c' (hold q c hq).1 (hold q' c' hq').1
  · intro c hc
    have hne : c ≠ ch.slot := by
      rintro rfl
      rcases hx with rfl | ⟨rfl, -⟩ <;> simp [Kernel.setPhase] at hc
    obtain ⟨q, ch', hq, hslot⟩ := h.embryo c (by simpa [Kernel.setPhase, hne] using hc)
    have hqp : q ≠ p := by
      rintro rfl
      rw [hch, Option.some.injEq] at hq
      exact hne (hslot.symm.trans (by rw [hq]))
    exact ⟨q, ch', by rwa [update_of_ne hqp], hslot⟩
  intro q hq
  by_cases hqc : q = ch.slot
  · subst hqc
    rcases hx with rfl | ⟨rfl, ho, hc⟩
    · simp [Kernel.setPhase] at hq
    · show (∀ fd, s.ofile ch.slot fd = none) ∧ s.cwd ch.slot = none
      rw [hofile, hcwd]
      exact ⟨ho, hc⟩
  · exact h.empty q (by simpa [Kernel.setPhase, hqc] using hq)

end

/-- A process enters or leaves a call. -/
theorem setPhase {x : Phase} (hold : s.phase p ≠ .embryo) (hx : x ≠ .embryo)
    (hrest : x.isBusy = false → (v p).Rest)
    (hempty : x = .unused ∨ x = .zombie → (∀ fd, s.ofile p fd = none) ∧ s.cwd p = none) :
    Procs (s.setPhase p x) v where
  ofile := h.ofile
  cwd := h.cwd
  rest q hq := by
    by_cases hqp : q = p
    · subst hqp
      exact hrest (by simpa [Kernel.setPhase] using hq)
    · exact h.rest q (by simpa [Kernel.setPhase, hqp] using hq)
  child q ch hq := by
    obtain ⟨he, hrest⟩ := h.child q ch hq
    have hne : ch.slot ≠ p := by
      rintro rfl
      exact hold he
    exact ⟨(update_of_ne hne _ _).trans he, hrest⟩
  inj := h.inj
  embryo c hc := by
    by_cases hcp : c = p
    · subst hcp
      exact absurd (by simpa [Kernel.setPhase] using hc) hx
    · exact h.embryo c (by simpa [Kernel.setPhase, hcp] using hc)
  empty q hq := by
    by_cases hqp : q = p
    · subst hqp
      exact hempty (by simpa [Kernel.setPhase] using hq)
    · exact h.empty q (by simpa [Kernel.setPhase, hqp] using hq)

/-- The child gets a descriptor or its working directory. -/
theorem give {ch ch' : Child E F} (hp : (s.phase p).isBusy = true) (hch : (v p).child = some ch)
    (hslot : ch'.slot = ch.slot) (hg : g.child = some ch') (hgo : g.ofile = (v p).ofile) (hgc : g.cwd = (v p).cwd)
    (hphase : s'.phase = s.phase) (hofile : s'.ofile = update s.ofile ch.slot ch'.ofile)
    (hcwd : s'.cwd = update s.cwd ch.slot ch'.cwd) :
    Procs s' (update (update v p g) ch.slot (Ghost.rest ch'.ofile ch'.cwd)) := by
  obtain ⟨hemb, -, -⟩ := h.child p ch hch
  have hcp : ch.slot ≠ p := by
    intro heq
    rw [← heq, hemb] at hp
    cases hp
  have hchild : ∀ q c, (update (update v p g) ch.slot (Ghost.rest ch'.ofile ch'.cwd) q).child =
      some c → q ≠ ch.slot ∧ (q = p ∧ c = ch' ∨ q ≠ p ∧ (v q).child = some c) := by
    intro q c hq
    by_cases hqc : q = ch.slot
    · subst hqc
      rw [update_self] at hq
      cases hq
    refine ⟨hqc, ?_⟩
    rw [update_of_ne hqc] at hq
    by_cases hqp : q = p
    · subst hqp
      rw [update_self, hg, Option.some.injEq] at hq
      exact .inl ⟨rfl, hq.symm⟩
    · rw [update_of_ne hqp] at hq
      exact .inr ⟨hqp, hq⟩
  have hother : ∀ q c, q ≠ p → (v q).child = some c → c.slot ≠ ch.slot :=
    fun q c hqp hq heq => hqp (h.inj q p c ch hq hch heq)
  constructor
  · intro q
    rw [hofile]
    by_cases hqc : q = ch.slot
    · subst hqc
      simp [Ghost.rest]
    · rw [update_of_ne hqc, update_of_ne hqc]
      exact (congrFun (field_same (v := v) Ghost.ofile hgo) q).trans (h.ofile q)
  · intro q
    rw [hcwd]
    by_cases hqc : q = ch.slot
    · subst hqc
      simp [Ghost.rest]
    · rw [update_of_ne hqc, update_of_ne hqc]
      exact (congrFun (field_same (v := v) Ghost.cwd hgc) q).trans (h.cwd q)
  · intro q hq
    rw [hphase] at hq
    by_cases hqc : q = ch.slot
    · subst hqc
      rw [update_self]
      exact Ghost.rest_rest _ _
    have hqp : q ≠ p := by
      rintro rfl
      rw [hp] at hq
      cases hq
    rw [update_of_ne hqc, update_of_ne hqp]
    exact h.rest q hq
  · intro q c hq
    rw [hphase, hofile, hcwd]
    obtain ⟨-, ⟨rfl, rfl⟩ | ⟨hqp, hq⟩⟩ := hchild q c hq
    · rw [hslot, update_self, update_self]
      exact ⟨hemb, rfl, rfl⟩
    · have hne := hother q c hqp hq
      rw [update_of_ne hne, update_of_ne hne]
      exact h.child q c hq
  · intro q q' c c' hq hq' heq
    obtain ⟨-, ⟨rfl, rfl⟩ | ⟨hqp, hv⟩⟩ := hchild q c hq <;>
      obtain ⟨-, ⟨rfl, rfl⟩ | ⟨hqp', hv'⟩⟩ := hchild q' c' hq'
    · rfl
    · exact absurd (heq.symm.trans hslot) (hother q' c' hqp' hv')
    · exact absurd (heq.trans hslot) (hother q c hqp hv)
    · exact h.inj q q' c c' hv hv' heq
  · intro c hc
    rw [hphase] at hc
    obtain ⟨q, ch0, hq, hs⟩ := h.embryo c hc
    have hqc : q ≠ ch.slot := by
      rintro rfl
      have := (h.rest ch.slot (by rw [hemb]; rfl)).child
      rw [this] at hq
      cases hq
    by_cases hqp : q = p
    · subst hqp
      rw [hch, Option.some.injEq] at hq
      refine ⟨q, ch', by rw [update_of_ne hqc, update_self, hg], ?_⟩
      rw [hslot, hq, hs]
    · exact ⟨q, ch0, by rwa [update_of_ne hqc, update_of_ne hqp], hs⟩
  intro q hq
  rw [hphase] at hq
  have hqc : q ≠ ch.slot := by
    rintro rfl
    rw [hemb] at hq
    rcases hq with hq | hq <;> cases hq
  rw [hofile, hcwd, update_of_ne hqc, update_of_ne hqc]
  exact h.empty q hq

end Procs

end Xv6.Sysfile
