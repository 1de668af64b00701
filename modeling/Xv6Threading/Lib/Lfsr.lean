import Mathlib.Data.BitVec

/-!
# Shift registers with an arithmetic shift

One component of a combined Tausworthe generator on `w`-bit words: `M` clears the `m` low bits, which carry no state.
The feedback comes from an arithmetic right shift, so its sign is spread over the upper bits. The sign can be read off
one bit of the result, so the step stays injective on the bits that `M` keeps.
-/

namespace Lfsr

variable {w : Nat}

/-- The word whose upper bits are fed back. -/
def fed (q : Nat) (z : BitVec w) : BitVec w := (z <<< q) ^^^ z

def step (M : BitVec w) (q s r : Nat) (z : BitVec w) : BitVec w := ((z &&& M) <<< s) ^^^ ((fed q z).sshiftRight r)

/-- The shifts fit together: what is shifted up and what is fed back meet without a gap. -/
structure Taps (M : BitVec w) (q s r m : Nat) : Prop where
  mask : ∀ i, i < w → M.getLsbD i = decide (m ≤ i)
  fit : s + m + r = w
  pos : 0 < q
  le : q ≤ r
  up : 0 < s

namespace Taps

variable {M : BitVec w} {q s r m : Nat} {i : Nat}

theorem fed_bit (z : BitVec w) (hq : q ≤ i) (hi : i < w) :
    (fed q z).getLsbD i = (z.getLsbD (i - q) ^^ z.getLsbD i) := by
  rw [fed, BitVec.getLsbD_xor, BitVec.getLsbD_shiftLeft]
  simp [hi, Nat.not_lt.2 hq]

section

variable (h : Taps M q s r m) {z z' : BitVec w}
include h

/-- Below `s + m` the result is what is fed back. -/
theorem step_low (z : BitVec w) (hi : i < s + m) : (step M q s r z).getLsbD i = (fed q z).getLsbD (r + i) := by
  have hfit := h.fit
  have hup : ((z &&& M) <<< s).getLsbD i = false := by
    rw [BitVec.getLsbD_shiftLeft, BitVec.getLsbD_and]
    by_cases hs : i < s
    · simp [hs]
    · rw [h.mask (i - s) (by omega), decide_eq_false (show ¬ m ≤ i - s by omega)]
      simp
  rw [step, BitVec.getLsbD_xor, hup, Bool.false_xor, BitVec.getLsbD_sshiftRight, if_pos (by omega)]
  simp [show i < w by omega]

/-- From `s + m` on it is the register, flipped where the sign is set. -/
theorem step_high (z : BitVec w) (hlo : s + m ≤ i) (hi : i < w) :
    (step M q s r z).getLsbD i = (z.getLsbD (i - s) ^^ (fed q z).msb) := by
  have hfit := h.fit
  have hup : ((z &&& M) <<< s).getLsbD i = z.getLsbD (i - s) := by
    rw [BitVec.getLsbD_shiftLeft, BitVec.getLsbD_and, h.mask (i - s) (by omega), decide_eq_true (show m ≤ i - s by omega)]
    simp [hi, show ¬ i < s by omega]
  rw [step, BitVec.getLsbD_xor, hup, BitVec.getLsbD_sshiftRight, if_neg (by omega)]
  simp [hi]

/-- The sign is bit `s + m - 1` of the result. -/
theorem step_sign (z : BitVec w) : (step M q s r z).getLsbD (s + m - 1) = (fed q z).msb := by
  have hfit := h.fit
  have hup := h.up
  rw [h.step_low z (by omega), BitVec.msb_eq_getLsbD_last]
  congr 1
  omega

/-- Registers whose results agree from bit `m` on agree from there on themselves. -/
theorem bits_eq (heq : ∀ i, m ≤ i → i < w → (step M q s r z).getLsbD i = (step M q s r z').getLsbD i) :
    ∀ i, m ≤ i → i < w → z.getLsbD i = z'.getLsbD i := by
  have hfit := h.fit
  have hup := h.up
  have hpos := h.pos
  have hle := h.le
  have hsign : (fed q z).msb = (fed q z').msb := by
    rw [← h.step_sign, ← h.step_sign]
    exact heq _ (by omega) (by omega)
  intro i
  induction i using Nat.strong_induction_on with
  | _ i ih =>
    intro hm hi
    by_cases hlow : i < m + r
    · -- bit `i` has been shifted up
      have := heq (i + s) (by omega) (by omega)
      rw [h.step_high z (by omega) (by omega), h.step_high z' (by omega) (by omega), hsign, Nat.add_sub_cancel] at this
      exact Bool.xor_right_inj.1 (by rw [Bool.xor_comm, this, Bool.xor_comm])
    -- bit `i` has been fed back, together with one below it
    have := heq (i - r) (by omega) (by omega)
    rw [h.step_low z (by omega), h.step_low z' (by omega), show r + (i - r) = i by omega,
      fed_bit z (by omega) hi, fed_bit z' (by omega) hi, ih (i - q) (by omega) (by omega) (by omega)] at this
    exact Bool.xor_right_inj.1 this

/-- The step is injective on the bits that are kept. -/
theorem masked_eq (heq : step M q s r z &&& M = step M q s r z' &&& M) : z &&& M = z' &&& M := by
  have hbits : ∀ i, m ≤ i → i < w → z.getLsbD i = z'.getLsbD i := by
    refine h.bits_eq fun i hm hi => ?_
    have := congrArg (fun x => BitVec.getLsbD x i) heq
    simpa [h.mask i hi, hm] using this
  apply BitVec.eq_of_getLsbD_eq
  intro i hi
  rw [BitVec.getLsbD_and, BitVec.getLsbD_and, h.mask i hi]
  by_cases hm : m ≤ i
  · rw [hbits i hm hi]
  · simp [hm]

end

theorem step_zero (M : BitVec w) (q s r : Nat) : step M q s r 0 = 0 := by
  simp [step, fed]

/-- A register that is not zero does not become zero. -/
theorem masked_ne_zero (h : Taps M q s r m) {z : BitVec w} (hz : z &&& M ≠ 0) : step M q s r z &&& M ≠ 0 := by
  intro h0
  refine hz ?_
  have heq : step M q s r z &&& M = step M q s r 0 &&& M := by
    rw [h0, step_zero]
    exact BitVec.zero_and.symm
  exact (h.masked_eq heq).trans BitVec.zero_and

end Taps

end Lfsr
