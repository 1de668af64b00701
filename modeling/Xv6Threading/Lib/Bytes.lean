import Mathlib.Data.BitVec

/-!
# Byte-addressed memory with little-endian words

A memory is a function from 32-bit addresses to bytes. `write32` stores a word at any address,
aligned or not, wrapping at the top; `InWord a x` says that `x` is one of its four bytes.
-/

abbrev Bytes := BitVec 32 → BitVec 8

namespace Bytes

def InWord (a x : BitVec 32) : Prop := (x - a).toNat < 4

instance (a x : BitVec 32) : Decidable (InWord a x) := inferInstanceAs (Decidable (_ < _))

def read32 (m : Bytes) (a : BitVec 32) : BitVec 32 := m (a + 3) ++ m (a + 2) ++ m (a + 1) ++ m a

def write32 (m : Bytes) (a w : BitVec 32) : Bytes := fun x =>
  if InWord a x then w.extractLsb' (8 * (x - a).toNat) 8 else m x

theorem inWord_self (a : BitVec 32) : InWord a a := by simp [InWord]

theorem write32_of_not {m : Bytes} {a w x : BitVec 32} (h : ¬ InWord a x) : m.write32 a w x = m x := by
  simp [write32, h]

/-- The byte at the word's own address is its low byte. -/
theorem write32_self (m : Bytes) (a w : BitVec 32) : m.write32 a w a = w.setWidth 8 := by
  simp only [write32, if_pos (inWord_self a), BitVec.sub_self]
  ext i hi
  simp [BitVec.getLsbD]

theorem read32_setWidth (m : Bytes) (a : BitVec 32) : (m.read32 a).setWidth 8 = m a := by
  unfold read32
  ext i hi
  rw [BitVec.getElem_setWidth, BitVec.getLsbD_append, if_pos hi, BitVec.getLsbD_eq_getElem hi]

/-- Adding a constant to a word in place changes its low byte, unless the constant has none. -/
theorem write32_add_ne {m : Bytes} {a c : BitVec 32} (hc : c.setWidth 8 ≠ 0#8) :
    m.write32 a (m.read32 a + c) a ≠ m a := by
  rw [write32_self, BitVec.setWidth_add _ _ (by decide), read32_setWidth]
  intro h
  apply hc
  simpa using h

end Bytes
