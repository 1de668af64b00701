import Mathlib.Data.BitVec

/-!
# Ring buffers with free-running counters

A ring of `N` places, `N` a divisor of `2 ^ w`, and counters of `w` bits that are never reset: the place of a counter
is its value modulo `N`. `Window N buf r q`: the elements of `q`, at most `N`, stand in the ring from the place of `r`
on. So `r + q.length` is the counter of the end, and the list is lengthened and shortened at both ends.
-/

universe u

/-- The place of a counter. -/
def Window.slot (N : Nat) {w : Nat} (r : BitVec w) : Nat := r.toNat % N

structure Window {α : Type u} (N : Nat) {w : Nat} (buf : Nat → α) (r : BitVec w) (q : List α) : Prop where
  length_le : q.length ≤ N
  get : ∀ k (h : k < q.length), buf ((r.toNat + k) % N) = q[k]

namespace Window

variable {α : Type u} {N w : Nat} {buf : Nat → α} {r : BitVec w} {q : List α} {x : α}

theorem slot_add (hN : N ∣ 2 ^ w) (r : BitVec w) (k : Nat) : slot N (r + BitVec.ofNat w k) = (r.toNat + k) % N := by
  rw [slot, BitVec.toNat_add, BitVec.toNat_ofNat, Nat.mod_mod_of_dvd _ hN, Nat.add_mod, Nat.mod_mod_of_dvd _ hN,
    ← Nat.add_mod]

/-- Counters less than `2 ^ w` apart differ. -/
theorem add_inj {a b : Nat} (ha : a < 2 ^ w) (hb : b < 2 ^ w) :
    r + BitVec.ofNat w a = r + BitVec.ofNat w b ↔ a = b := by
  rw [BitVec.add_right_inj, ← BitVec.toNat_inj, BitVec.toNat_ofNat, BitVec.toNat_ofNat, Nat.mod_eq_of_lt ha,
    Nat.mod_eq_of_lt hb]

theorem nil : Window N buf r [] := ⟨Nat.zero_le _, nofun⟩

theorem left {q' : List α} (h : Window N buf r (q ++ q')) : Window N buf r q := by
  have hlen := h.length_le
  rw [List.length_append] at hlen
  refine ⟨by omega, fun k hk => ?_⟩
  rw [h.get k (by rw [List.length_append]; omega), List.getElem_append_left hk]

/-- One element more at the end. -/
theorem push (hN : N ∣ 2 ^ w) (h : Window N buf r q) (hlt : q.length < N) :
    Window N (Function.update buf (slot N (r + BitVec.ofNat w q.length)) x) r (q ++ [x]) := by
  rw [slot_add hN]
  refine ⟨by rw [List.length_append, List.length_singleton]; omega, fun k hk => ?_⟩
  rw [List.length_append, List.length_singleton] at hk
  by_cases hkq : k < q.length
  · -- places less than `N` apart differ
    have hne : (r.toNat + k) % N ≠ (r.toNat + q.length) % N := by
      intro heq
      have hmod : k ≡ q.length [MOD N] := Nat.ModEq.add_left_cancel' _ heq
      have := Nat.ModEq.eq_of_lt_of_lt hmod (by omega) hlt
      omega
    rw [Function.update_of_ne hne, h.get k hkq, List.getElem_append_left hkq]
  · obtain rfl : k = q.length := by omega
    simp

/-- The first element. -/
theorem head (h : Window N buf r (x :: q)) : buf (slot N r) = x := h.get 0 (by simp)

/-- The first element is taken. -/
theorem pop (hN : N ∣ 2 ^ w) (h : Window N buf r (x :: q)) : Window N buf (r + 1) q := by
  have hlen := h.length_le
  rw [List.length_cons] at hlen
  refine ⟨by omega, fun k hk => ?_⟩
  have hget := h.get (k + 1) (by simpa using hk)
  rw [List.getElem_cons_succ] at hget
  rw [← hget, ← slot_add hN r (k + 1), ← slot_add hN (r + 1) k, BitVec.add_assoc]
  congr 3
  rw [Nat.add_comm k 1, BitVec.ofNat_add]
  rfl

end Window
