import Xv6Threading.Vm.Grow
import Xv6Threading.Sysfile.Solo

/-!
# Loading a program (`exec.c:22-62`, `exec.c:106-113`, `vm.c:197`)

`exec` from its first line to the allocation of the stack, with the bytes of the file and of memory.

| here | there |
| --- | --- |
| `readi` | `readi` of the file whose bytes are given, which is not a device (`T_DEV`); `none` is -1 |
| `Proghdr` | the fields of `struct proghdr` that `exec` reads (`elf.h:27`) |
| `loaduvm` | `loaduvm` (`vm.c:197`), over pages |
| `loadSegment` | the body of the loop over the headers, after the header is read; `none` is `goto bad` |
| `exec` | `exec` up to line 62, or to its end at `bad` |
| `Call` | what `exec` does to the inode and to the log: `namei` takes a reference, `iunlockput` drops it |

The bytes of a file are those that `Sysfile.Solo` reads through its block map (`readi_bytes`). Another process may
take or give back pages while `exec` waits for the disk; `exec` stops asking for pages at the first failure, so that
this shows in nothing but the number of pages that are free at the start.
-/

namespace Xv6.Vm.Exec

open Function
open Xv6.Sysfile (field ELF_MAGIC ELF_PROG_LOAD)

inductive Fault where
  | vm (p : Panic)
  | notAligned
  | addressShouldExist
deriving DecidableEq, Repr

def readi (file : List UInt8) (off n : BitVec 32) : Option (List UInt8) :=
  if off.toNat > file.length ∨ off + n < off then none else some ((file.drop off.toNat).take n.toNat)

structure Proghdr where
  type : BitVec 32
  off : BitVec 32
  vaddr : BitVec 32
  filesz : BitVec 32
  memsz : BitVec 32
deriving DecidableEq, Repr

def Proghdr.ofBytes (b : List UInt8) : Proghdr where
  type := BitVec.ofNat 32 (field b 0 4)
  off := BitVec.ofNat 32 (field b 4 4)
  vaddr := BitVec.ofNat 32 (field b 8 4)
  filesz := BitVec.ofNat 32 (field b 16 4)
  memsz := BitVec.ofNat 32 (field b 20 4)

/-- The first bytes of a page are replaced. -/
def overwrite (p : Page) (b : List UInt8) : Page := fun o => (b[o]?).elim (p o) UInt8.toBitVec

/-- `loaduvm` from the offset `i` on, with `n` pages to go. A short read is stored before it is noticed. -/
def loadLoop (pgd : Pgd) (addr : BitVec 32) (file : List UInt8) (offset sz : BitVec 32) :
    Nat → Kmem → Nat → Except Fault (Kmem × Bool)
  | 0, k, _ => .ok (k, true)
  | n + 1, k, i =>
    match walk pgd ((addr + BitVec.ofNat 32 i).toNat / 4096) with
    | none => .error .addressShouldExist
    | some e =>
      match readi file (offset + BitVec.ofNat 32 i) (BitVec.ofNat 32 (min (sz.toNat - i) 4096)) with
      | none => .ok (k, false)
      | some b =>
        let k := { k with ram := update k.ram e.ppn (overwrite (k.ram e.ppn) b) }
        if b.length ≠ min (sz.toNat - i) 4096 then .ok (k, false)
        else loadLoop pgd addr file offset sz n k (i + 4096)

def loaduvm (pgd : Pgd) (k : Kmem) (addr : BitVec 32) (file : List UInt8) (offset sz : BitVec 32) :
    Except Fault (Kmem × Bool) :=
  if addr.toNat % 4096 ≠ 0 then .error .notAligned
  else loadLoop pgd addr file offset sz (pageCount sz.toNat) k 0

def loadSegment (L : Layout) (file : List UInt8) (ph : Proghdr) (s : Space) (sz : Nat) :
    Except Fault (Space × Option Nat) :=
  if ph.memsz < ph.filesz then .ok (s, none)
  else if ph.vaddr + ph.memsz < ph.vaddr then .ok (s, none)
  else
    match allocuvm L s sz (ph.vaddr + ph.memsz).toNat with
    | .error p => .error (.vm p)
    | .ok (s, sz) =>
      if sz = 0 then .ok (s, none)
      else if ph.vaddr.toNat % 4096 ≠ 0 then .ok (s, none)
      else
        (loaduvm s.pgd s.kmem ph.vaddr file ph.off ph.filesz).map fun r =>
          ({ s with kmem := r.1 }, if r.2 then some sz else none)

/-- The loop over the program headers, with `n` of them to go. -/
def loadSegments (L : Layout) (file : List UInt8) : Nat → BitVec 32 → Space → Nat → Except Fault (Space × Option Nat)
  | 0, _, s, sz => .ok (s, some sz)
  | n + 1, off, s, sz =>
    match readi file off 32#32 with
    | none => .ok (s, none)
    | some b =>
      if b.length ≠ 32 then .ok (s, none)
      else if (Proghdr.ofBytes b).type.toNat ≠ ELF_PROG_LOAD then loadSegments L file n (off + 32#32) s sz
      else
        match loadSegment L file (.ofBytes b) s sz with
        | .error e => .error e
        | .ok (s, none) => .ok (s, none)
        | .ok (s, some sz) => loadSegments L file n (off + 32#32) s sz

inductive Call where
  | beginOp
  | namei
  | ilock
  | iunlockput
  | endOp
deriving DecidableEq, Repr

/-- What `exec` may change of the process that calls it. -/
structure Curproc where
  pgdir : Ppn
  sz : Nat
  eip : BitVec 32
  esp : BitVec 32
deriving DecidableEq, Repr

structure World where
  kmem : Kmem
  curproc : Curproc
  calls : List Call

def World.did (w : World) (cs : List Call) : World := { w with calls := w.calls ++ cs }

structure Image where
  pgdir : Ppn
  pgd : Pgd
  sz : Nat

/-- `namei` finds the file, or does not. No image: `exec` has returned -1. -/
def exec (L : Layout) (found : Bool) (file : List UInt8) (w : World) : Except Fault (World × Option Image) :=
  let w := w.did [.beginOp]
  if found = false then .ok (w.did [.endOp], none)
  else
    let w := w.did [.namei, .ilock]
    match readi file 0#32 52#32 with
    | none => .ok (w.did [.iunlockput, .endOp], none)
    | some elf =>
      if elf.length ≠ 52 then .ok (w.did [.iunlockput, .endOp], none)
      else if field elf 0 4 ≠ ELF_MAGIC then .ok (w.did [.iunlockput, .endOp], none)
      else
        match setupkvm L w.kmem with
        | .error p => .error (.vm p)
        | .ok (k, none) => .ok (({ w with kmem := k } : World).did [.iunlockput, .endOp], none)
        | .ok (k, some (d, pgd)) =>
          match loadSegments L file (field elf 44 2) (BitVec.ofNat 32 (field elf 28 4)) ⟨k, pgd⟩ 0 with
          | .error e => .error e
          | .ok (s, none) =>
            match freevm L s d with
            | .error p => .error (.vm p)
            | .ok k => .ok (({ w with kmem := k } : World).did [.iunlockput, .endOp], none)
          | .ok (s, some sz) =>
            .ok (({ w with kmem := s.kmem } : World).did [.iunlockput, .endOp], some ⟨d, s.pgd, sz⟩)

/-! ## The file -/

/-- Reading the file on disk is reading its bytes. -/
theorem readi_bytes {F : Type} (sb : Sysfile.Super) (s : Sysfile.Solo) {ip : Nat}
    (hm : s.MappedTo ip (s.node ip).size.toNat) (off n : BitVec 32) :
    Sysfile.Solo.exec (Sysfile.readBytes (F := F) sb ip off n) s =
      .ok (readi (s.bytes ip 0 (s.node ip).size.toNat) off n, s) := by
  rw [Sysfile.Solo.readBytes_eq sb s off n (hm.mono (Nat.min_le_right _ _)), readi]
  have hlen : (s.bytes ip 0 (s.node ip).size.toNat).length = (s.node ip).size.toNat := by simp [Sysfile.Solo.bytes]
  simp only [hlen, Sysfile.Solo.add_lt_iff, gt_iff_lt]
  split
  · rfl
  rename_i hok
  congr 3
  apply List.ext_getElem
  · simp [Sysfile.Solo.bytes]
  · intro j h1 h2
    simp [Sysfile.Solo.bytes]

/-- One byte, in block 4. -/
theorem readi_bytes_one : ∃ s : Sysfile.Solo, Sysfile.Solo.exec (Sysfile.readBytes (F := Unit) ⟨10, 7, 1, 2, 3⟩ 1 0 4) s =
    .ok (some [9], s) := by
  refine ⟨⟨fun _ _ => 9, fun _ => { Sysfile.Dinode.zero with size := 1, addrs := fun _ => 4 }, fun _ => true, none⟩, ?_⟩
  refine readi_bytes _ _ ⟨by decide, ?_⟩ 0 4
  intro bn (h : bn * 512 < 1)
  obtain rfl : bn = 0 := by omega
  decide

variable {file : List UInt8}

/-- A read that is as long as it was asked to be delivers those bytes of the file, and they do not end past 2^32. -/
theorem readi_full {b : List UInt8} {off n : BitVec 32} (hr : readi file off n = some b) (hlen : b.length = n.toNat) :
    off.toNat + n.toNat ≤ file.length ∧ ∀ j, j < n.toNat → b[j]? = file[off.toNat + j]? := by
  unfold readi at hr
  split at hr
  · cases hr
  rename_i hok
  cases hr
  rw [List.length_take, List.length_drop] at hlen
  refine ⟨by omega, ?_⟩
  intro j hj
  rw [List.getElem?_take_of_lt hj, List.getElem?_drop]

/-! ## Memory -/

variable {X : Type} [DecidableEq X] {L : Layout} {U : Set Ppn} {c : X → Option Ppn} {s s' : Space} {sz : Nat}
  {phs : List Proghdr} {pgd : Pgd} {n : Nat}

/-- `allocuvm` of a space that maps exactly its size never panics; if it succeeds, the space maps exactly the larger
of the two sizes, and what was mapped before is where it was, with the bytes it had. -/
theorem allocuvm_maps (hU : Usable L U) (h : s.Owns U c) (hsz : sz < KERNBASE) (hm : Maps s.pgd sz)
    (newsz : Nat) : ∃ s' r, allocuvm L s sz newsz = .ok (s', r) ∧ s'.Owns U c ∧
      (r ≠ 0 → r < KERNBASE ∧ sz ≤ r ∧ newsz ≤ r ∧ Maps s'.pgd r ∧
        (∀ w, w < pageCount sz → pte s'.pgd w = pte s.pgd w) ∧ Draws s.kmem s'.kmem) := by
  by_cases hk : newsz ≥ KERNBASE
  · exact ⟨s, 0, by rw [allocuvm, if_pos hk], h, fun h0 => absurd rfl h0⟩
  by_cases hlt : newsz < sz
  · exact ⟨s, sz, by rw [allocuvm, if_neg hk, if_pos hlt], h,
      fun _ => ⟨hsz, Nat.le_refl _, hlt.le, hm, fun _ _ => rfl, .refl _⟩⟩
  have hup : pageCount newsz ≤ UPAGES := pageCount_le_upages (by omega)
  have hpc : pageCount sz ≤ pageCount newsz := pageCount_le (by omega)
  obtain ⟨s', r, hs', ho, hpte, hr⟩ := allocuvm_spec hU h (Nat.le_of_not_lt hlt) (Nat.lt_of_not_le hk) fun w h1 h2 =>
    Bool.eq_false_of_not_eq_true ((hm w (by omega)).1.mt (by omega))
  refine ⟨s', r, hs', ho, ?_⟩
  intro h0
  rcases hr with ⟨rfl, hsp, hmap⟩ | ⟨rfl, -⟩
  · refine ⟨Nat.lt_of_not_le hk, by omega, Nat.le_refl _, ?_, fun w hw => hpte w (.inl hw), hsp⟩
    intro w hw
    by_cases hold : w < pageCount sz
    · rw [present, hpte w (.inl hold)]
      exact ⟨fun _ => by omega, fun _ => (hm w hw).2 hold⟩
    by_cases hnew : w < pageCount r
    · exact ⟨fun _ => hnew, fun _ => hmap w (by omega) hnew⟩
    · rw [present, hpte w (.inr (by omega))]
      exact ⟨fun hp => absurd ((hm w hw).1 hp) hold, fun hw' => absurd hw' hnew⟩
  · exact absurd rfl h0

/-- The byte at a user address. -/
def byte (pgd : Pgd) (ram : Ppn → Page) (a : Nat) : BitVec 8 := ram (pte pgd (a / 4096)).ppn (a % 4096)

section

omit [DecidableEq X]

theorem ppn_not_free (h : s.Owns U c) {v : Nat} (hv : v < UPAGES) (hp : present s.pgd v = true) :
    (pte s.pgd v).ppn ∉ s.kmem.free :=
  h.apart (.inr (.user v)) _ (if_pos ⟨hv, hp⟩)

theorem ppn_inj (h : s.Owns U c) {v w : Nat} (hv : v < UPAGES) (hp : present s.pgd v = true) (hw : w < UPAGES)
    (hq : present s.pgd w = true) (he : (pte s.pgd v).ppn = (pte s.pgd w).ppn) : v = w := by
  have := h.inj (.inr (.user v)) (.inr (.user w)) _ (if_pos ⟨hv, hp⟩) (he ▸ if_pos ⟨hw, hq⟩)
  simpa using this

/-- Allocating pages does not change the bytes of those that are mapped. -/
theorem byte_spared (h : s.Owns U c) (hsp : Draws s.kmem s'.kmem) {a : Nat} (ha : a / 4096 < UPAGES)
    (hp : present s.pgd (a / 4096) = true) (hpte : pte s'.pgd (a / 4096) = pte s.pgd (a / 4096)) :
    byte s'.pgd s'.kmem.ram a = byte s.pgd s.kmem.ram a := by
  rw [byte, byte, hpte, hsp.ram _ (ppn_not_free h ha hp)]

end

/-! ## One segment -/

/-- The pages below `n` are mapped, each to a page of its own. -/
structure Mapped (pgd : Pgd) (n : Nat) : Prop where
  present : ∀ v, v < n → present pgd v = true
  inj : ∀ v w, v < n → w < n → (pte pgd v).ppn = (pte pgd w).ppn → v = w

omit [DecidableEq X] in
theorem mapped_of_owns (h : s.Owns U c) (hsz : sz < KERNBASE) (hm : Maps s.pgd sz) :
    Mapped s.pgd (pageCount sz) := by
  have hup := pageCount_le_upages hsz.le
  have hp : ∀ v, v < pageCount sz → present s.pgd v = true := fun v hv => (hm v (by omega)).2 hv
  exact ⟨hp, fun v w hv hw he => ppn_inj h (by omega) (hp v hv) (by omega) (hp w hw) he⟩

theorem byte_overwrite (hm : Mapped pgd n) {v : Nat} (hv : v < n) (ram : Ppn → Page)
    (b : List UInt8) {a : Nat} (ha : a / 4096 < n) :
    byte pgd (update ram (pte pgd v).ppn (overwrite (ram (pte pgd v).ppn) b)) a =
      if a / 4096 = v then (b[a % 4096]?).elim (byte pgd ram a) UInt8.toBitVec else byte pgd ram a := by
  unfold byte
  by_cases he : a / 4096 = v
  · subst he
    rw [if_pos rfl, update_self, overwrite]
  · rw [if_neg he, update_of_ne fun hp => he (hm.inj _ _ ha hv hp)]

theorem loadLoop_spec {addr sz : BitVec 32} (offset : BitVec 32) {top : Nat}
    (hfile : file.length < 2 ^ 32) (halign : addr.toNat % 4096 = 0) (hin : addr.toNat + sz.toNat ≤ top)
    (htop : top < KERNBASE) (hm : Mapped pgd (pageCount top)) (n : Nat) :
    ∀ (k : Kmem) (i : Nat), i % 4096 = 0 → pageCount sz.toNat = i / 4096 + n →
      (n ≠ 0 → offset.toNat + i < 2 ^ 32) →
    ∃ k' b, loadLoop pgd addr file offset sz n k i = .ok (k', b) ∧ k'.free = k.free ∧
      (b = true → ∀ a, a / 4096 < pageCount top →
        (addr.toNat + i ≤ a → a < addr.toNat + sz.toNat →
          (file[offset.toNat + (a - addr.toNat)]?).map UInt8.toBitVec = some (byte pgd k'.ram a)) ∧
        (a < addr.toNat + i ∨ addr.toNat + sz.toNat ≤ a → byte pgd k'.ram a = byte pgd k.ram a)) := by
  have hbase : KERNBASE = 2147483648 := rfl
  induction n with
  | zero =>
    intro k i hi hn _
    have hle : sz.toNat ≤ i := by
      unfold pageCount at hn
      omega
    exact ⟨k, true, rfl, rfl, fun _ a _ => ⟨fun h1 h2 => by omega, fun _ => rfl⟩⟩
  | succ n ih =>
    intro k i hi hn hoff
    have hlt : i < sz.toNat := by
      unfold pageCount at hn
      omega
    have haddr : (addr + BitVec.ofNat 32 i).toNat = addr.toNat + i := by
      rw [BitVec.toNat_add, BitVec.toNat_ofNat]
      omega
    have hpage : (addr + BitVec.ofNat 32 i).toNat / 4096 < pageCount top := by
      rw [haddr]
      unfold pageCount
      omega
    obtain ⟨e, he⟩ : ∃ e, walk pgd ((addr + BitVec.ofNat 32 i).toNat / 4096) = some e := by
      cases hw : walk pgd ((addr + BitVec.ofNat 32 i).toNat / 4096) with
      | none => exact absurd (hm.present _ hpage) (by rw [present_of_none hw]; decide)
      | some e => exact ⟨e, rfl⟩
    rw [loadLoop, he]
    dsimp only
    cases hr : readi file (offset + BitVec.ofNat 32 i) (BitVec.ofNat 32 (min (sz.toNat - i) 4096)) with
    | none => exact ⟨k, false, rfl, rfl, nofun⟩
    | some b =>
      dsimp only
      by_cases hlen : b.length ≠ min (sz.toNat - i) 4096
      · rw [if_pos hlen]
        exact ⟨_, false, rfl, rfl, nofun⟩
      rw [if_neg hlen]
      rw [not_not] at hlen
      have hmin : (BitVec.ofNat 32 (min (sz.toNat - i) 4096)).toNat = min (sz.toNat - i) 4096 := by
        rw [BitVec.toNat_ofNat]
        omega
      have hfrom : (offset + BitVec.ofNat 32 i).toNat = offset.toNat + i := by
        have := hoff (Nat.succ_ne_zero n)
        rw [BitVec.toNat_add, BitVec.toNat_ofNat]
        omega
      obtain ⟨hend, hb⟩ := readi_full hr (by rw [hlen, hmin])
      rw [hmin, hfrom] at hend hb
      obtain ⟨k', ok, hk', hfree, hbytes⟩ := ih
        { k with ram := update k.ram e.ppn (overwrite (k.ram e.ppn) b) } (i + 4096) (by omega) (by omega)
        (fun hne => by
          unfold pageCount at hn
          omega)
      refine ⟨k', ok, hk', hfree, ?_⟩
      intro hok a ha
      obtain ⟨hnew, hold⟩ := hbytes hok a ha
      -- the page that has just been read
      have hstep := byte_overwrite hm hpage k.ram b ha
      rw [pte_of_some he, haddr] at hstep
      dsimp only at hold
      rw [hstep] at hold
      constructor
      · intro h1 h2
        by_cases hnext : addr.toNat + (i + 4096) ≤ a
        · exact hnew hnext h2
        have hin : a / 4096 = (addr.toNat + i) / 4096 := by omega
        rw [hold (.inl (by omega)), if_pos hin, hb (a % 4096) (by omega),
          show offset.toNat + i + a % 4096 = offset.toNat + (a - addr.toNat) by omega]
        rw [List.getElem?_eq_getElem (by omega)]
        rfl
      intro hout
      rw [hold (by omega)]
      split
      · rw [List.getElem?_eq_none (by omega)]
        rfl
      · rfl

def Proghdr.Covers (ph : Proghdr) (a : Nat) : Prop :=
  ph.vaddr.toNat ≤ a ∧ a < ph.vaddr.toNat + ph.filesz.toNat

/-- The bytes of every segment are those of the file, except where a later one lies over it. -/
def Loaded (file : List UInt8) (phs : List Proghdr) (pgd : Pgd) (ram : Ppn → Page) : Prop :=
  ∀ before ph after, phs = before ++ ph :: after → ∀ a, ph.Covers a → (∀ q ∈ after, ¬ q.Covers a) →
    (file[ph.off.toNat + (a - ph.vaddr.toNat)]?).map UInt8.toBitVec = some (byte pgd ram a)

/-- The loop over the headers has loaded the segments `phs`. -/
structure Progress (U : Set Ppn) (c : X → Option Ppn) (file : List UInt8) (phs : List Proghdr) (s : Space) (sz : Nat) :
    Prop where
  owns : s.Owns U c
  size : sz < KERNBASE
  maps : Maps s.pgd sz
  inside : ∀ ph ∈ phs, ph.vaddr.toNat + ph.filesz.toNat ≤ sz
  loaded : Loaded file phs s.pgd s.kmem.ram

theorem Loaded.snoc {ph : Proghdr} {pgd pgd' : Pgd} {ram ram' : Ppn → Page} (h : Loaded file phs pgd ram)
    (hold : ∀ q ∈ phs, ∀ a, q.Covers a → ¬ ph.Covers a → byte pgd' ram' a = byte pgd ram a)
    (hnew : ∀ a, ph.Covers a →
      (file[ph.off.toNat + (a - ph.vaddr.toNat)]?).map UInt8.toBitVec = some (byte pgd' ram' a)) :
    Loaded file (phs ++ [ph]) pgd' ram' := by
  intro before q after he a ha hafter
  rcases List.eq_nil_or_concat after with rfl | ⟨after', p, rfl⟩
  · obtain ⟨-, hq⟩ := List.append_inj' he rfl
    cases hq
    exact hnew a ha
  rw [List.concat_eq_append] at he hafter
  rw [← List.cons_append, ← List.append_assoc] at he
  obtain ⟨hphs, hp⟩ := List.append_inj' he rfl
  cases hp
  rw [hold q (by simp [hphs]) a ha (hafter ph (by simp))]
  exact h before q after' hphs a ha fun r hr => hafter r (by simp [hr])

/-- One header: no panic, whatever its fields say, and if the loop goes on, its segment is loaded too. -/
theorem loadSegment_spec (hU : Usable L U) (hfile : file.length < 2 ^ 32)
    (h : Progress U c file phs s sz) (ph : Proghdr) :
    ∃ s' r, loadSegment L file ph s sz = .ok (s', r) ∧ s'.Owns U c ∧
      ∀ sz', r = some sz' → Progress U c file (phs ++ [ph]) s' sz' := by
  unfold loadSegment
  split
  · exact ⟨s, none, rfl, h.owns, nofun⟩
  rename_i hmem
  split
  · exact ⟨s, none, rfl, h.owns, nofun⟩
  rename_i hwrap
  rw [Sysfile.Solo.add_lt_iff] at hwrap
  have hnew : (ph.vaddr + ph.memsz).toNat = ph.vaddr.toNat + ph.memsz.toNat := by
    rw [BitVec.toNat_add]
    omega
  have hfilesz : ph.filesz.toNat ≤ ph.memsz.toNat := BitVec.not_lt.1 hmem
  obtain ⟨s1, r, hs1, ho1, hr⟩ := allocuvm_maps hU h.owns h.size h.maps (ph.vaddr + ph.memsz).toNat
  rw [hs1]
  dsimp only
  split
  · exact ⟨s1, none, rfl, ho1, nofun⟩
  rename_i h0
  obtain ⟨hlt, hge, htop, hm1, hpte, hsp⟩ := hr h0
  split
  · exact ⟨s1, none, rfl, ho1, nofun⟩
  rename_i halign
  rw [not_not] at halign
  have hseg : ph.vaddr.toNat + ph.filesz.toNat ≤ r := by omega
  obtain ⟨k, ok, hk, hfree, hbytes⟩ := loadLoop_spec ph.off hfile halign hseg hlt (mapped_of_owns ho1 hlt hm1)
    (pageCount ph.filesz.toNat) s1.kmem 0 rfl (by simp) fun _ => ph.off.isLt
  have hok : Space.Owns U c { s1 with kmem := k } := ho1.of_loc hfree fun _ => rfl
  refine ⟨{ s1 with kmem := k }, if ok then some r else none, ?_, hok, ?_⟩
  · rw [loaduvm, if_neg (not_not.2 halign), hk]
    rfl
  intro sz' hsz'
  cases ok with
  | false => cases hsz'
  | true =>
    cases hsz'
    have hpage : ∀ {a : Nat}, a < r → a / 4096 < pageCount r := fun ha => by
      unfold pageCount
      omega
    refine ⟨hok, hlt, hm1, ?_, h.loaded.snoc ?_ ?_⟩
    · intro q hq
      rcases List.mem_append.1 hq with hq | hq
      · exact (h.inside q hq).trans hge
      · obtain rfl := List.mem_singleton.1 hq
        exact hseg
    · intro q hq a ha hnot
      have hin := h.inside q hq
      have hsz : a < sz := Nat.lt_of_lt_of_le ha.2 hin
      have hold : a / 4096 < pageCount sz := by
        unfold pageCount
        omega
      have hup := pageCount_le_upages h.size.le
      rw [(hbytes rfl a (hpage (by omega))).2 (by
        unfold Proghdr.Covers at hnot
        omega)]
      exact byte_spared h.owns hsp (by omega) ((h.maps _ (by omega)).2 hold) (hpte _ hold)
    · intro a ha
      have hin : a < r := by
        have := ha.2
        omega
      exact (hbytes rfl a (hpage hin)).1 ha.1 ha.2

/-! ## All of them -/

/-- The program headers to load, among `n` of them from `off` on. -/
def headers (file : List UInt8) : Nat → BitVec 32 → List Proghdr
  | 0, _ => []
  | n + 1, off =>
    match readi file off 32#32 with
    | none => []
    | some b =>
      if (Proghdr.ofBytes b).type.toNat = ELF_PROG_LOAD then .ofBytes b :: headers file n (off + 32#32)
      else headers file n (off + 32#32)

/-- The segments of an executable file. -/
def segments (file : List UInt8) : List Proghdr :=
  headers file (field (file.take 52) 44 2) (BitVec.ofNat 32 (field (file.take 52) 28 4))

theorem loadSegments_spec (hU : Usable L U) (hfile : file.length < 2 ^ 32) (n : Nat) :
    ∀ {s : Space} {sz : Nat} {phs : List Proghdr} (off : BitVec 32), Progress U c file phs s sz →
    ∃ s' r, loadSegments L file n off s sz = .ok (s', r) ∧ s'.Owns U c ∧
      ∀ sz', r = some sz' → Progress U c file (phs ++ headers file n off) s' sz' := by
  induction n with
  | zero =>
    intro s sz phs off h
    refine ⟨s, some sz, rfl, h.owns, ?_⟩
    rintro sz' ⟨⟩
    simpa [headers] using h
  | succ n ih =>
    intro s sz phs off h
    cases hr : readi file off 32#32 with
    | none => exact ⟨s, none, by simp [loadSegments, hr], h.owns, nofun⟩
    | some b =>
      by_cases hlen : b.length ≠ 32
      · exact ⟨s, none, by simp [loadSegments, hr, hlen], h.owns, nofun⟩
      by_cases htype : (Proghdr.ofBytes b).type.toNat = ELF_PROG_LOAD
      · obtain ⟨s1, r, hs1, ho1, hp⟩ := loadSegment_spec hU hfile h (.ofBytes b)
        cases r with
        | none => exact ⟨s1, none, by simp [loadSegments, hr, hlen, htype, hs1], ho1, nofun⟩
        | some sz1 =>
          obtain ⟨s', r, hs', ho, hend⟩ := ih (off + 32#32) (hp sz1 rfl)
          refine ⟨s', r, ?_, ho, ?_⟩
          · rw [← hs']
            simp [loadSegments, hr, hlen, htype, hs1]
          · simpa [headers, hr, htype] using hend
      · obtain ⟨s', r, hs', ho, hend⟩ := ih (off + 32#32) h
        refine ⟨s', r, ?_, ho, ?_⟩
        · rw [← hs']
          simp [loadSegments, hr, hlen, htype]
        · simpa [headers, hr, htype] using hend

/-- What `exec` leaves when it is done with the file: no image, and every page it took is free again; or an image
whose pages are all there, with the segments in it. -/
def Ends (U : Set Ppn) (c : X → Option Ppn) (file : List UInt8) (k : Kmem) : Option Image → Prop
  | none => Split U k.free c
  | some im => Space.Owns U (withHeld c (some im.pgdir)) ⟨k, im.pgd⟩ ∧ im.sz < KERNBASE ∧ Covers im.pgd im.sz ∧
      Loaded file (segments file) im.pgd k.ram

/-- What `exec` does with the inode and the log. -/
def fsCalls (found : Bool) : List Call :=
  if found then [.beginOp, .namei, .ilock, .iunlockput, .endOp] else [.beginOp, .endOp]

/-- **`exec` loads any file safely.** Whatever the file contains, whether it is there or not, and however many pages are
free: `exec` does not panic before it allocates the stack; it has not touched the process; the inode is unlocked and
released once, and the transaction closed; and either it has returned -1 and freed every page that it took, or all
pages of `[0, sz)` are present and hold the segments of the file. -/
theorem exec_loads (hU : Usable L U) (found : Bool) {file : List UInt8} (hfile : file.length < 2 ^ 32) {w : World}
    (h : Split U w.kmem.free c) :
    ∃ w' r, exec L found file w = .ok (w', r) ∧ w'.curproc = w.curproc ∧ w'.calls = w.calls ++ fsCalls found ∧
      Ends U c file w'.kmem r := by
  cases found with
  | false => exact ⟨_, none, rfl, rfl, by simp [World.did, fsCalls], h⟩
  | true =>
    have hcalls : ∀ k : Kmem, (({ (w.did [.beginOp]).did [.namei, .ilock] with kmem := k } : World).did
        [.iunlockput, .endOp]).calls = w.calls ++ fsCalls true := by
      intro k
      simp [World.did, fsCalls]
    unfold exec
    dsimp only
    rw [if_neg (by decide)]
    cases hr : readi file 0#32 52#32 with
    | none => exact ⟨_, none, rfl, rfl, hcalls _, h⟩
    | some elf =>
      dsimp only
      split
      · exact ⟨_, none, rfl, rfl, hcalls _, h⟩
      split
      · exact ⟨_, none, rfl, rfl, hcalls _, h⟩
      have helf : elf = file.take 52 := by
        unfold readi at hr
        split at hr
        · cases hr
        · exact (Option.some.inj hr).symm
      subst helf
      obtain ⟨k, q, hk, hq⟩ := setupkvm_spec hU h
      rw [show setupkvm L ((w.did [.beginOp]).did [.namei, .ilock]).kmem = _ from hk]
      cases q with
      | none => exact ⟨_, none, rfl, rfl, hcalls _, hq⟩
      | some q =>
        obtain ⟨d, pgd⟩ := q
        obtain ⟨ho, hempty, -⟩ := hq
        have hstart : Progress U (withHeld c (some d)) file [] ⟨k, pgd⟩ 0 := by
          refine ⟨ho, by decide, ?_, by simp, ?_⟩
          · intro v hv
            simp [hempty v hv, pageCount]
          · intro before ph after he
            simp at he
        obtain ⟨s, r, hs, hos, hp⟩ := loadSegments_spec hU hfile (field (file.take 52) 44 2)
          (BitVec.ofNat 32 (field (file.take 52) 28 4)) hstart
        dsimp only
        rw [hs]
        cases r with
        | none =>
          obtain ⟨k', hk', hsplit⟩ := freevm_held hU hos
          dsimp only
          rw [hk']
          exact ⟨_, none, rfl, rfl, hcalls _, hsplit⟩
        | some sz =>
          have hend := hp sz rfl
          have hup := pageCount_le_upages hend.size.le
          refine ⟨_, some ⟨d, s.pgd, sz⟩, rfl, rfl, hcalls _, hend.owns, hend.size, ?_, hend.loaded⟩
          intro v hv
          have hlt : v < pageCount sz := hv
          exact (hend.maps v (by omega)).2 hlt

/-- An ELF header, one program header, and four bytes to be loaded at address 0. -/
def tinyFile : List UInt8 :=
  [0x7F, 0x45, 0x4C, 0x46] ++ List.replicate 24 0 ++ [52, 0, 0, 0] ++ List.replicate 12 0 ++ [1, 0] ++
    List.replicate 6 0 ++
  [1, 0, 0, 0, 84, 0, 0, 0] ++ List.replicate 8 0 ++ [4, 0, 0, 0, 8, 0, 0, 0] ++ List.replicate 8 0 ++
  [0xEB, 0xFE, 0x90, 0x90]

def eightyPages : World := ⟨⟨List.range' 1000 80, fun _ _ => 0#8⟩, ⟨7, 4096, 0#32, 4096#32⟩, []⟩

theorem exec_loads_tiny : segments tinyFile = [⟨1, 84, 0, 4, 8⟩] ∧
    ∃ w r, exec smallLayout true tinyFile eightyPages = .ok (w, r) ∧ w.curproc = eightyPages.curproc ∧
      w.calls = [.beginOp, .namei, .ilock, .iunlockput, .endOp] ∧
      Ends {f | f ∈ List.range' 1000 80} (fun _ : Unit => none) tinyFile w.kmem r := by
  refine ⟨by decide, ?_⟩
  exact exec_loads (usable_range' (by decide)) true (by decide) (split_range' 80)

end Xv6.Vm.Exec
