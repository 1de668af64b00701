import Xv6Threading.Lib.Lfsr

/-!
# The generator of the lottery (`proc.c:361-390`)

Four shift registers, combined by exclusive or. All of them are `int`s, so the right shifts are arithmetic. The
constants of the masks do not fit an `int`: there the register is extended to 64 bits, and the assignment drops the
upper half again.

| here | there |
| --- | --- |
| `Seeds` | the static `z1` to `z4` |
| `feedback` | `b` |
| `next` | one assignment to a `z`, with the constants of the four of them |
| `random` | `random`; the second component is what it returns |
| `randoms` | calls one after another |
-/

namespace Xv6

structure Seeds where
  z1 : BitVec 32
  z2 : BitVec 32
  z3 : BitVec 32
  z4 : BitVec 32
deriving DecidableEq

namespace Seeds

def init : Seeds := ⟨12345, 12345, 12345, 12345⟩

def feedback (q r : Nat) (z : BitVec 32) : BitVec 32 := ((z <<< q) ^^^ z).sshiftRight r

/-- `((z & mask) << s) ^ b`, in 64 bits. -/
def next (mask : BitVec 64) (s : Nat) (z b : BitVec 32) : BitVec 32 :=
  (((z.signExtend 64 &&& mask) <<< s) ^^^ b.signExtend 64).setWidth 32

def next1 (z : BitVec 32) : BitVec 32 := next 4294967294 18 z (feedback 6 13 z)
def next2 (z : BitVec 32) : BitVec 32 := next 4294967288 2 z (feedback 2 27 z)
def next3 (z : BitVec 32) : BitVec 32 := next 4294967280 7 z (feedback 13 21 z)
def next4 (z : BitVec 32) : BitVec 32 := next 4294967168 13 z (feedback 3 12 z)

def advance (z : Seeds) : Seeds := ⟨next1 z.z1, next2 z.z2, next3 z.z3, next4 z.z4⟩

def random (z : Seeds) (max : BitVec 32) : Seeds × BitVec 32 :=
  if max.toInt ≤ 0 then (z, 1)
  else
    let z := z.advance
    let num := (z.z1 ^^^ z.z2 ^^^ z.z3 ^^^ z.z4).srem max
    (z, if num.toInt < 0 then num * -1 else num)

def randoms : Seeds → List (BitVec 32) → Seeds × List (BitVec 32)
  | z, [] => (z, [])
  | z, max :: maxs =>
    let (z, num) := z.random max
    let (z, nums) := z.randoms maxs
    (z, num :: nums)

/-- None of the four registers is stuck at 0. -/
structure Alive (z : Seeds) : Prop where
  z1 : z.z1 &&& ~~~1 ≠ 0
  z2 : z.z2 &&& ~~~7 ≠ 0
  z3 : z.z3 &&& ~~~15 ≠ 0
  z4 : z.z4 &&& ~~~127 ≠ 0

/-! ## The registers -/

/-- The upper half of the intermediate results makes no difference. -/
theorem next_eq (mask : BitVec 64) (q s r : Nat) (z : BitVec 32) :
    next mask s z (feedback q r z) = Lfsr.step (mask.setWidth 32) q s r z := by
  apply BitVec.eq_of_getLsbD_eq
  intro i hi
  have hlt : i < 64 := by omega
  have hle : i - s < 32 := by omega
  simp only [next, Lfsr.step, Lfsr.fed, feedback, BitVec.getLsbD_setWidth, BitVec.getLsbD_xor, BitVec.getLsbD_shiftLeft,
    BitVec.getLsbD_and, BitVec.getLsbD_signExtend, hi, hlt, hle, decide_true, Bool.true_and, if_true,
    show i - s < 64 by omega]

theorem taps1 : Lfsr.Taps (~~~1#32) 6 18 13 1 := ⟨by decide, rfl, by decide, by decide, by decide⟩
theorem taps2 : Lfsr.Taps (~~~7#32) 2 2 27 3 := ⟨by decide, rfl, by decide, by decide, by decide⟩
theorem taps3 : Lfsr.Taps (~~~15#32) 13 7 21 4 := ⟨by decide, rfl, by decide, by decide, by decide⟩
theorem taps4 : Lfsr.Taps (~~~127#32) 3 13 12 7 := ⟨by decide, rfl, by decide, by decide, by decide⟩

theorem next1_eq (z : BitVec 32) : next1 z = Lfsr.step (~~~1#32) 6 18 13 z := next_eq 4294967294 6 18 13 z
theorem next2_eq (z : BitVec 32) : next2 z = Lfsr.step (~~~7#32) 2 2 27 z := next_eq 4294967288 2 2 27 z
theorem next3_eq (z : BitVec 32) : next3 z = Lfsr.step (~~~15#32) 13 7 21 z := next_eq 4294967280 13 7 21 z
theorem next4_eq (z : BitVec 32) : next4 z = Lfsr.step (~~~127#32) 3 13 12 z := next_eq 4294967168 3 13 12 z

theorem alive_init : Alive init := ⟨by decide, by decide, by decide, by decide⟩

theorem Alive.advance {z : Seeds} (h : Alive z) : Alive z.advance where
  z1 := by
    rw [show z.advance.z1 = _ from next1_eq z.z1]
    exact taps1.masked_ne_zero h.z1
  z2 := by
    rw [show z.advance.z2 = _ from next2_eq z.z2]
    exact taps2.masked_ne_zero h.z2
  z3 := by
    rw [show z.advance.z3 = _ from next3_eq z.z3]
    exact taps3.masked_ne_zero h.z3
  z4 := by
    rw [show z.advance.z4 = _ from next4_eq z.z4]
    exact taps4.masked_ne_zero h.z4

/-! ## What a call returns -/

/-- Without its sign the remainder is below the divisor. -/
theorem abs_srem (x : BitVec 32) {max : BitVec 32} (hmax : 0 < max.toInt) :
    0 ≤ (if (x.srem max).toInt < 0 then x.srem max * -1 else x.srem max).toInt ∧
      (if (x.srem max).toInt < 0 then x.srem max * -1 else x.srem max).toInt < max.toInt := by
  have hrem : (x.srem max).toInt = x.toInt.tmod max.toInt := BitVec.toInt_srem ..
  have hlt := Int.tmod_lt_of_pos x.toInt hmax
  have hgt := Int.lt_tmod_of_pos x.toInt hmax
  have hbound : max.toInt < 2 ^ 31 := BitVec.toInt_lt
  split
  next hneg =>
    have hmul : (x.srem max * -1).toInt = -(x.srem max).toInt := by
      rw [BitVec.mul_neg, show x.srem max * 1 = x.srem max from BitVec.mul_one _, BitVec.toInt_neg,
        Int.bmod_eq_of_le] <;> omega
    rw [hmul, hrem]
    omega
  next hpos =>
    rw [hrem] at hpos ⊢
    omega

theorem Alive.random {z : Seeds} (h : Alive z) {max : BitVec 32} (hmax : 0 < max.toInt) :
    Alive (z.random max).1 ∧ 0 ≤ (z.random max).2.toInt ∧ (z.random max).2.toInt < max.toInt := by
  rw [Seeds.random, if_neg (Int.not_le.2 hmax)]
  exact ⟨h.advance, abs_srem _ hmax⟩

theorem Alive.randoms : ∀ {maxs : List (BitVec 32)} {z : Seeds}, Alive z → (∀ max ∈ maxs, 0 < max.toInt) →
    Alive (z.randoms maxs).1 ∧
      List.Forall₂ (fun max num => 0 ≤ num.toInt ∧ num.toInt < max.toInt) maxs (z.randoms maxs).2 := by
  intro maxs
  induction maxs with
  | nil =>
    intro z h _
    exact ⟨h, .nil⟩
  | cons max maxs ih =>
    intro z h hpos
    obtain ⟨halive, hnum⟩ := h.random (hpos max List.mem_cons_self)
    obtain ⟨halive, hnums⟩ := ih halive fun m hm => hpos m (List.mem_cons_of_mem max hm)
    exact ⟨halive, .cons hnum hnums⟩

/-- **The generator does not degenerate.** After any calls with positive arguments, each of them has returned a number
below its argument, and none of the four registers is 0 in the bits that carry its state; on those bits each step is
injective. -/
theorem random_alive (maxs : List (BitVec 32)) (hpos : ∀ max ∈ maxs, 0 < max.toInt) :
    List.Forall₂ (fun max num => 0 ≤ num.toInt ∧ num.toInt < max.toInt) maxs (init.randoms maxs).2 ∧
    Alive (init.randoms maxs).1 ∧
    (∀ z z', next1 z &&& ~~~1 = next1 z' &&& ~~~1 → z &&& ~~~1 = z' &&& ~~~1) ∧
    (∀ z z', next2 z &&& ~~~7 = next2 z' &&& ~~~7 → z &&& ~~~7 = z' &&& ~~~7) ∧
    (∀ z z', next3 z &&& ~~~15 = next3 z' &&& ~~~15 → z &&& ~~~15 = z' &&& ~~~15) ∧
    (∀ z z', next4 z &&& ~~~127 = next4 z' &&& ~~~127 → z &&& ~~~127 = z' &&& ~~~127) := by
  obtain ⟨halive, hnums⟩ := alive_init.randoms hpos
  refine ⟨hnums, halive, ?_, ?_, ?_, ?_⟩
  · intro z z' h
    rw [next1_eq, next1_eq] at h
    exact taps1.masked_eq h
  · intro z z' h
    rw [next2_eq, next2_eq] at h
    exact taps2.masked_eq h
  · intro z z' h
    rw [next3_eq, next3_eq] at h
    exact taps3.masked_eq h
  · intro z z' h
    rw [next4_eq, next4_eq] at h
    exact taps4.masked_eq h

theorem random_alive_twice : (init.randoms [10, 64]).2 = [4, 40] ∧ Alive (init.randoms [10, 64]).1 := by
  have hpos : ∀ max ∈ [10#32, 64#32], 0 < max.toInt := by simp [BitVec.toInt]
  exact ⟨by decide, (random_alive [10, 64] hpos).2.1⟩

end Seeds

end Xv6
