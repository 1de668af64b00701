import Mathlib.Data.BitVec
import Mathlib.Tactic.IntervalCases

/-!
# Numbers and bits in a sequence of bytes

A sequence of bytes is a function from positions. `get` reads a number of `k` bytes, the lowest first, and `store`
writes one. Bit `i` is bit `i % 8` of byte `i / 8`.
-/

namespace Codec

open Function

variable {m m' : Nat → UInt8} {off off' k k' v : Nat}

/-- Byte `k` of a number. -/
def byteOf (v k : Nat) : UInt8 := UInt8.ofNat (v / 256 ^ k)

def get (m : Nat → UInt8) (off : Nat) : Nat → Nat
  | 0 => 0
  | k + 1 => get m off k + 256 ^ k * (m (off + k)).toNat

def store (m : Nat → UInt8) (off k v : Nat) : Nat → UInt8 := fun i =>
  if off ≤ i ∧ i < off + k then byteOf v (i - off) else m i

theorem get_congr : ∀ {k}, (∀ j < k, m (off + j) = m' (off' + j)) → get m off k = get m' off' k
  | 0, _ => rfl
  | k + 1, h => by
    rw [get, get, get_congr fun j hj => h j (Nat.lt_succ_of_lt hj), h k (Nat.lt_succ_self k)]

/-- What is read is the number whose bytes stand there. -/
theorem get_of_bytes : ∀ {k}, (∀ j < k, m (off + j) = byteOf v j) → get m off k = v % 256 ^ k
  | 0, _ => by simp [get, Nat.mod_one]
  | k + 1, h => by
    have hbyte : (byteOf v k).toNat = v / 256 ^ k % 256 := by simp [byteOf]
    rw [get, get_of_bytes fun j hj => h j (Nat.lt_succ_of_lt hj), h k (Nat.lt_succ_self k), hbyte, Nat.mod_pow_succ]

theorem get_store_self (m : Nat → UInt8) (off k v : Nat) : get (store m off k v) off k = v % 256 ^ k := by
  refine get_of_bytes fun j hj => ?_
  rw [store, if_pos ⟨Nat.le_add_right off j, by omega⟩, Nat.add_sub_cancel_left]

theorem store_of_outside {i : Nat} (h : i < off ∨ off + k ≤ i) : store m off k v i = m i := by
  rw [store, if_neg (by omega)]

theorem get_store_of_disjoint (h : off' + k' ≤ off ∨ off + k ≤ off') : get (store m off k v) off' k' = get m off' k' :=
  get_congr fun j hj => store_of_outside (by omega)

/-! ## Bits -/

def mask (i : Nat) : UInt8 := 1 <<< UInt8.ofNat (i % 8)

def Bit (m : Nat → UInt8) (i : Nat) : Prop := m (i / 8) &&& mask i ≠ 0

instance (m : Nat → UInt8) (i : Nat) : Decidable (Bit m i) := inferInstanceAs (Decidable (_ ≠ _))

def setBit (m : Nat → UInt8) (i : Nat) : Nat → UInt8 := update m (i / 8) (m (i / 8) ||| mask i)

def clearBit (m : Nat → UInt8) (i : Nat) : Nat → UInt8 := update m (i / 8) (m (i / 8) &&& ~~~mask i)

/-- `mask i` has one bit, the one with the number `i % 8`. -/
theorem getLsbD_mask (i j : Nat) : (mask i).toBitVec.getLsbD (j % 8) = decide (i % 8 = j % 8) := by
  have hi : i % 8 < 8 := Nat.mod_lt _ (by decide)
  have hj : j % 8 < 8 := Nat.mod_lt _ (by decide)
  rw [mask]
  generalize i % 8 = r at *
  generalize j % 8 = t at *
  interval_cases r <;> interval_cases t <;> decide

theorem and_mask_ne_zero (x : UInt8) (i : Nat) : x &&& mask i ≠ 0 ↔ x.toBitVec.getLsbD (i % 8) = true := by
  constructor
  · intro h
    by_contra hx
    apply h
    rw [← UInt8.toBitVec_inj, UInt8.toBitVec_and]
    ext k hk
    by_cases hki : i % 8 = k
    · subst hki
      simp_all
    · have hmask := getLsbD_mask i k
      rw [Nat.mod_eq_of_lt hk, decide_eq_false hki] at hmask
      simp_all
  intro hx h
  have hand : (x &&& mask i).toBitVec.getLsbD (i % 8) = true := by
    rw [UInt8.toBitVec_and, BitVec.getLsbD_and, hx, getLsbD_mask]
    simp
  rw [h] at hand
  simp at hand

theorem bit_iff (m : Nat → UInt8) (i : Nat) : Bit m i ↔ (m (i / 8)).toBitVec.getLsbD (i % 8) = true :=
  and_mask_ne_zero _ _

theorem bit_setBit (m : Nat → UInt8) (i j : Nat) : Bit (setBit m i) j ↔ j = i ∨ Bit m j := by
  rw [bit_iff, bit_iff, setBit]
  by_cases hb : j / 8 = i / 8
  · rw [hb, update_self, UInt8.toBitVec_or, BitVec.getLsbD_or, getLsbD_mask, Bool.or_eq_true, decide_eq_true_eq,
      or_comm]
    exact or_congr_left (by omega)
  rw [update_of_ne hb]
  have hne : j ≠ i := by
    rintro rfl
    exact hb rfl
  simp [hne]

theorem bit_foldl_setBit (l : List Nat) (m : Nat → UInt8) (j : Nat) : Bit (l.foldl setBit m) j ↔ j ∈ l ∨ Bit m j := by
  induction l generalizing m with
  | nil => simp
  | cons i l ih =>
    rw [List.foldl_cons, ih, bit_setBit, List.mem_cons]
    tauto

/-- A byte is known by its bits. -/
theorem byte_eq_of_bits (m m' : Nat → UInt8) {b : Nat} (h : ∀ k < 8, Bit m (8 * b + k) ↔ Bit m' (8 * b + k)) : m b = m' b := by
  rw [← UInt8.toBitVec_inj]
  refine BitVec.eq_of_getLsbD_eq fun k hk => ?_
  have hbit := h k hk
  rwa [bit_iff, bit_iff, show (8 * b + k) / 8 = b by omega, show (8 * b + k) % 8 = k by omega, Bool.coe_iff_coe] at hbit

end Codec
