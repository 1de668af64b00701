import Mathlib.Data.BitVec

/-!
# The two `memmove`s (`string.c:31-49`, `ulib.c:85-94`)

The kernel's copies from the end if the source begins in front of the destination and reaches into it; the library's
always copies from the beginning, and then such a source is overwritten before it is read.

Addresses are words of 32 bits and all arithmetic on them is modulo `2 ^ 32`: `d + n` may be the end of the address
space. An address `a` is in the range of `n` bytes from `d` on if `a - d` is below `n`.

| here | there |
| --- | --- |
| `forward m d s n` | `while(n-- > 0) *d++ = *s++;` |
| `backward m d s n` | `while(n-- > 0) *--d = *--s;`, from the ends on |
-/

namespace Xv6.Memmove

open Function

abbrev Addr := BitVec 32

abbrev Mem := Addr → UInt8

def forward (m : Mem) (d s : Addr) : Nat → Mem
  | 0 => m
  | n + 1 => forward (update m d (m s)) (d + 1) (s + 1) n

def backward (m : Mem) (d s : Addr) : Nat → Mem
  | 0 => m
  | n + 1 => backward (update m (d - 1) (m (s - 1))) (d - 1) (s - 1) n

/-- `string.c:31-49`; `n` is a `uint`. -/
def Kernel.memmove (m : Mem) (dst src n : BitVec 32) : Mem × Addr :=
  if src < dst ∧ src + n > dst then (backward m (dst + n) (src + n) n.toNat, dst)
  else (forward m dst src n.toNat, dst)

/-- `ulib.c:85-94`; `n` is an `int`. -/
def Ulib.memmove (m : Mem) (vdst vsrc n : BitVec 32) : Mem × Addr := (forward m vdst vsrc n.toInt.toNat, vdst)

/-- The bytes from `dst` on are the old bytes from `src` on, and nothing else has changed. -/
structure Moved (m m' : Mem) (dst src : Addr) (n : Nat) : Prop where
  copied : ∀ i < n, m' (dst + BitVec.ofNat 32 i) = m (src + BitVec.ofNat 32 i)
  frame : ∀ a, (∀ i < n, a ≠ dst + BitVec.ofNat 32 i) → m' a = m a

/-- All of the memory in one equation. -/
def Shifted (m m' : Mem) (d s : Addr) (n : Nat) : Prop :=
  ∀ a, m' a = if (a - d).toNat < n then m (s + (a - d)) else m a

variable {m m' : Mem} {d s dst src : Addr} {n : Nat}

theorem Shifted.moved (h : Shifted m m' d s n) (hn : n < 2 ^ 32) : Moved m m' d s n where
  copied i hi := by
    have hd : d + BitVec.ofNat 32 i - d = BitVec.ofNat 32 i := by bv_omega
    rw [h, hd, if_pos (by rw [BitVec.toNat_ofNat, Nat.mod_eq_of_lt (by omega)]; exact hi)]
  frame a ha := by
    rw [h, if_neg]
    intro hlt
    exact ha _ hlt (by rw [BitVec.ofNat_toNat, BitVec.setWidth_eq, BitVec.add_comm, BitVec.sub_add_cancel])

/-! ## The loops -/

/-- One byte, and then the rest from the next address on. -/
theorem Shifted.next (h : Shifted (update m d (m s)) m' (d + 1) (s + 1) n) (hn : n + 1 < 2 ^ 32)
    (hds : d = s ∨ n + 1 ≤ (d - s).toNat) : Shifted m m' d s (n + 1) := by
  intro a
  rw [h]
  by_cases had : a = d
  · rw [if_neg (by bv_omega), if_pos (by bv_omega), had, update_self, BitVec.sub_self, BitVec.add_zero]
  have hs : s + 1 + (a - (d + 1)) = s + (a - d) := by bv_omega
  rw [hs, update_of_ne had]
  by_cases hlt : (a - d).toNat < n + 1
  · -- what is read has not been written
    have hne : s + (a - d) ≠ d := by
      intro he
      have hdist : a - d = d - s := by bv_omega
      rw [hdist] at hlt
      rcases hds with rfl | hds
      · bv_omega
      · omega
    rw [if_pos hlt, if_pos (by bv_omega), update_of_ne hne]
  · rw [if_neg hlt, if_neg (by bv_omega)]

/-- Copying from the beginning is right if the destination does not begin inside of the source. -/
theorem forward_shifted (hn : n < 2 ^ 32) (h : d = s ∨ n ≤ (d - s).toNat) : Shifted m (forward m d s n) d s n := by
  induction n generalizing m d s with
  | zero => exact fun a => (if_neg (Nat.not_lt_zero _)).symm
  | succ n ih =>
    refine Shifted.next (ih (by omega) ?_) hn h
    have hds : d + 1 - (s + 1) = d - s := by bv_omega
    rw [hds]
    exact h.imp (congrArg (· + 1)) Nat.le_of_succ_le

/-- One byte at the end, after the rest in front of it. -/
theorem Shifted.prev (h : Shifted (update m (d + BitVec.ofNat 32 n) (m (s + BitVec.ofNat 32 n))) m' d s n)
    (hn : n + 1 < 2 ^ 32) (hsd : d = s ∨ n + 1 ≤ (s - d).toNat) : Shifted m m' d s (n + 1) := by
  intro a
  rw [h]
  by_cases had : a = d + BitVec.ofNat 32 n
  · rw [if_neg (by bv_omega), if_pos (by bv_omega), had, update_self]
    congr 1
    bv_omega
  rw [update_of_ne had]
  by_cases hlt : (a - d).toNat < n
  · have hne : s + (a - d) ≠ d + BitVec.ofNat 32 n := by bv_omega
    rw [if_pos hlt, if_pos (by omega), update_of_ne hne]
  · rw [if_neg hlt, if_neg (by bv_omega)]

/-- Copying from the end is right if the source does not begin inside of the destination. -/
theorem backward_shifted (hn : n < 2 ^ 32) (h : d = s ∨ n ≤ (s - d).toNat) :
    Shifted m (backward m (d + BitVec.ofNat 32 n) (s + BitVec.ofNat 32 n) n) d s n := by
  induction n generalizing m with
  | zero => exact fun a => (if_neg (Nat.not_lt_zero _)).symm
  | succ n ih =>
    have hp (p : Addr) : p + BitVec.ofNat 32 (n + 1) - 1 = p + BitVec.ofNat 32 n := by bv_omega
    rw [backward, hp, hp]
    exact Shifted.prev (ih (by omega) (h.imp_right Nat.le_of_succ_le)) hn h

/-! ## The functions -/

/-- The kernel's copies from the end exactly where it has to. -/
theorem kernel_shifted {n : BitVec 32} (hd : dst.toNat + n.toNat ≤ 2 ^ 32) (hs : src.toNat + n.toNat ≤ 2 ^ 32) :
    Shifted m (Kernel.memmove m dst src n).1 dst src n.toNat := by
  rw [Kernel.memmove]
  split
  next h =>
    have hb := backward_shifted (m := m) (d := dst) (s := src) n.isLt (by bv_omega)
    rwa [BitVec.ofNat_toNat, BitVec.setWidth_eq] at hb
  next h => exact forward_shifted n.isLt (by bv_omega)

theorem forward_const (c : UInt8) (d s : Addr) (n : Nat) : forward (fun _ => c) d s n = fun _ => c := by
  induction n generalizing d s with
  | zero => rfl
  | succ n ih =>
    rw [forward, update_eq_self]
    exact ih _ _

/-- A destination that begins inside of the source, behind its first byte. With a memory that is zero but for the first
byte of the destination, the first step makes it all zero, and what was that byte is lost. -/
theorem forward_overlap (hn : n < 2 ^ 32) (hne : s ≠ d) (hlt : (d - s).toNat < n) :
    ∃ m, ¬ Moved m (forward m d s n) d s n := by
  refine ⟨update (fun _ => 0) d 1, fun h => ?_⟩
  obtain ⟨n, rfl⟩ : ∃ k, n = k + 1 := ⟨n - 1, by omega⟩
  have hzero : forward (update (fun _ => 0) d 1) d s (n + 1) = fun _ => 0 := by
    rw [forward, update_idem, update_of_ne hne, update_eq_self]
    exact forward_const 0 _ _ n
  have hat : s + BitVec.ofNat 32 (d - s).toNat = d := by bv_omega
  have hcopied := h.copied _ hlt
  rw [hzero, hat, update_self] at hcopied
  exact absurd hcopied UInt8.zero_ne_one

/-- **Which of the two moves its bytes**: the kernel's in every memory; the library's in every memory exactly if the
destination does not begin inside of the source, behind its first byte. -/
theorem memmove_moved (dst src n : BitVec 32) (hd : dst.toNat + n.toNat ≤ 2 ^ 32) (hs : src.toNat + n.toNat ≤ 2 ^ 32)
    (hn : n.toNat < 2 ^ 31) :
    (∀ m, Moved m (Kernel.memmove m dst src n).1 dst src n.toNat) ∧
      ((∀ m, Moved m (Ulib.memmove m dst src n).1 dst src n.toNat) ↔
        ¬ (src.toNat < dst.toNat ∧ dst.toNat < src.toNat + n.toNat)) := by
  have hint : n.toInt.toNat = n.toNat := by rw [BitVec.toInt_eq_toNat_of_lt (by omega), Int.toNat_natCast]
  simp only [Ulib.memmove, hint]
  refine ⟨fun m => (kernel_shifted hd hs).moved n.isLt, fun hall hin => ?_, fun h m => ?_⟩
  · obtain ⟨m, hm⟩ := forward_overlap (d := dst) (s := src) n.isLt (by bv_omega) (by bv_omega)
    exact hm (hall m)
  · exact (forward_shifted n.isLt (by bv_omega)).moved n.isLt

/-- Three bytes down by one, and up by one with the kernel's, but not with the library's. -/
theorem memmove_moved_three : (∀ m, Moved m (Ulib.memmove m 4 5 3).1 4 5 3) ∧
    (∀ m, Moved m (Kernel.memmove m 5 4 3).1 5 4 3) ∧ ¬ ∀ m, Moved m (Ulib.memmove m 5 4 3).1 5 4 3 := by
  obtain ⟨-, hdown⟩ := memmove_moved 4 5 3 (by decide) (by decide) (by decide)
  obtain ⟨hkernel, hup⟩ := memmove_moved 5 4 3 (by decide) (by decide) (by decide)
  exact ⟨hdown.2 (by decide), hkernel, fun hall => hup.1 hall (by decide)⟩

/-- The library's, with two bytes up by one: the second is the first again. -/
theorem ulib_memmove_overlap :
    ¬ Moved (fun a => UInt8.ofNat a.toNat) (Ulib.memmove (fun a => UInt8.ofNat a.toNat) 5 4 2).1 5 4 2 := by
  intro h
  have := h.copied 1 (by decide)
  revert this
  decide

end Xv6.Memmove
