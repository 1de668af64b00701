import Xv6Threading.Lib.Bytes
import Xv6Threading.Vm.Pointers

/-!
# The arguments of a system call (`syscall.c:17-84`)

The arguments are on the user's stack, above a saved program counter, and `esp` is whatever the user left there. The
addresses are computed modulo `2 ^ 32` and compared as unsigned numbers, `size` as a signed one.

| here | there |
| --- | --- |
| `User` | what the checks read of the caller: `sz`, `tf->esp` and its memory |
| `Fetch.reads` | the addresses of the bytes that are read, in order |
| `Fetch.value` | what is stored through `ip` or `pp`, and for a string the length; `none` is the return value -1 |
| `scan` | the loop of `fetchstr` (`syscall.c:40-43`); its first argument is how far `ep` is away |
-/

namespace Xv6.Syscall

open Vm (KERNBASE)

structure User where
  sz : BitVec 32
  esp : BitVec 32
  mem : Bytes

structure Fetch (α : Type) where
  value : Option α
  reads : List (BitVec 32)

variable (u : User)

def fetchint (addr : BitVec 32) : Fetch (BitVec 32) :=
  if addr ≥ u.sz ∨ addr + 4#32 > u.sz then ⟨none, []⟩
  else ⟨some (u.mem.read32 addr), [addr, addr + 1#32, addr + 2#32, addr + 3#32]⟩

def scan (pp : BitVec 32) : Nat → BitVec 32 → Fetch (BitVec 32 × BitVec 32)
  | 0, _ => ⟨none, []⟩
  | n + 1, s =>
    if s < u.sz then
      if u.mem s = 0 then ⟨some (pp, s - pp), [s]⟩
      else ⟨(scan pp n (s + 1#32)).value, s :: (scan pp n (s + 1#32)).reads⟩
    else ⟨none, []⟩

def fetchstr (addr : BitVec 32) : Fetch (BitVec 32 × BitVec 32) :=
  if addr ≥ u.sz then ⟨none, []⟩ else scan u addr (u.sz.toNat - addr.toNat) addr

def argint (n : BitVec 32) : Fetch (BitVec 32) := fetchint u (u.esp + 4#32 + 4#32 * n)

def argptr (n size : BitVec 32) : Fetch (BitVec 32) :=
  match (argint u n).value with
  | none => ⟨none, (argint u n).reads⟩
  | some i =>
    if size.toInt < 0 ∨ i ≥ u.sz ∨ i + size > u.sz then ⟨none, (argint u n).reads⟩ else ⟨some i, (argint u n).reads⟩

def argstr (n : BitVec 32) : Fetch (BitVec 32 × BitVec 32) :=
  match (argint u n).value with
  | none => ⟨none, (argint u n).reads⟩
  | some addr => ⟨(fetchstr u addr).value, (argint u n).reads ++ (fetchstr u addr).reads⟩

variable {u} {r : BitVec 32 × BitVec 32} {addr : BitVec 32}

/-- `addr` is below `sz`, so `addr + 4` does not wrap. -/
theorem fetchint_reads (hsz : u.sz.toNat < KERNBASE) : ∀ a ∈ (fetchint u addr).reads, a.toNat < u.sz.toNat := by
  intro a ha
  have hk : KERNBASE = 2 ^ 31 := rfl
  unfold fetchint at ha
  split at ha
  · cases ha
  rename_i hc
  simp only [not_or, ge_iff_le, gt_iff_lt, not_le, not_lt, BitVec.lt_def, BitVec.le_def, BitVec.toNat_add,
    BitVec.toNat_ofNat] at hc
  simp only [List.mem_cons, List.not_mem_nil, or_false] at ha
  rcases ha with rfl | rfl | rfl | rfl
  · exact hc.1
  all_goals
    simp only [BitVec.toNat_add, BitVec.toNat_ofNat]
    omega

theorem scan_reads (pp : BitVec 32) : ∀ n s, ∀ a ∈ (scan u pp n s).reads, a.toNat < u.sz.toNat
  | 0, _, a, ha => by cases ha
  | n + 1, s, a, ha => by
    unfold scan at ha
    split at ha
    next hs =>
      split at ha
      · rw [List.mem_singleton.1 ha]
        exact hs
      · rcases List.mem_cons.1 ha with rfl | ha
        · exact hs
        · exact scan_reads pp n _ a ha
    · cases ha

theorem fetchstr_reads (addr : BitVec 32) : ∀ a ∈ (fetchstr u addr).reads, a.toNat < u.sz.toNat := by
  intro a ha
  unfold fetchstr at ha
  split at ha
  · cases ha
  · exact scan_reads addr _ _ a ha

/-- The `k` bytes from `pp` on are not NUL, and the one after them is; all of them are below `sz`. -/
structure StringAt (u : User) (pp k : BitVec 32) : Prop where
  below : pp.toNat + k.toNat < u.sz.toNat
  nul : u.mem (pp + k) = 0
  before : ∀ j < k.toNat, u.mem (pp + BitVec.ofNat 32 j) ≠ 0

/-- What the loop finds, if all bytes from `pp` to where it stands are not NUL. -/
theorem scan_value {pp : BitVec 32} : ∀ n (k : Nat), pp.toNat + k < 2 ^ 32 →
    (∀ j < k, u.mem (pp + BitVec.ofNat 32 j) ≠ 0) →
    ∀ {r : BitVec 32 × BitVec 32}, (scan u pp n (pp + BitVec.ofNat 32 k)).value = some r →
      r.1 = pp ∧ StringAt u pp r.2
  | 0, _, _, _, _, h => by cases h
  | n + 1, k, hk, hbefore, r, h => by
    have hnat : (pp + BitVec.ofNat 32 k).toNat = pp.toNat + k := by
      rw [BitVec.toNat_add, BitVec.toNat_ofNat]
      omega
    have hcancel : pp + BitVec.ofNat 32 k - pp = BitVec.ofNat 32 k := by
      rw [BitVec.add_comm, BitVec.add_sub_cancel]
    have hk' : (BitVec.ofNat 32 k).toNat = k := by
      rw [BitVec.toNat_ofNat]
      omega
    have hlt := u.sz.isLt
    unfold scan at h
    split at h
    next hs =>
      rw [BitVec.lt_def, hnat] at hs
      split at h
      next h0 =>
        cases h
        refine ⟨rfl, ?_⟩
        rw [hcancel]
        exact ⟨by rw [hk']; exact hs, h0, fun j hj => hbefore j (by rwa [hk'] at hj)⟩
      next h0 =>
        have hnext : pp + BitVec.ofNat 32 k + 1#32 = pp + BitVec.ofNat 32 (k + 1) := by
          rw [BitVec.add_assoc, BitVec.ofNat_add]
        simp only [hnext] at h
        refine scan_value n (k + 1) (by omega) (fun j hj => ?_) h
        rcases Nat.lt_succ_iff_lt_or_eq.1 hj with hj | rfl
        · exact hbefore j hj
        · exact h0
    · cases h

theorem fetchstr_value (h : (fetchstr u addr).value = some r) : r.1 = addr ∧ StringAt u addr r.2 := by
  unfold fetchstr at h
  split at h
  · cases h
  · refine scan_value (u.sz.toNat - addr.toNat) 0 addr.isLt (by simp) ?_
    rw [BitVec.add_zero]
    exact h

/-- The check of `argptr` is the one that the calls of `Vm.Pointers` make of the word they are given. -/
theorem argptr_value (n size : BitVec 32) :
    (argptr u n size).value = (argint u n).value.bind fun i => (Vm.argptr u.sz i size).map fun _ => i := by
  unfold argptr Vm.argptr
  cases (argint u n).value with
  | none => rfl
  | some i =>
    simp only [Option.bind_some]
    split <;> rfl

theorem argptr_reads (n size : BitVec 32) : (argptr u n size).reads = (argint u n).reads := by
  unfold argptr
  split
  · rfl
  · split <;> rfl

theorem argptr_interval (hsz : u.sz.toNat < KERNBASE) {n size p : BitVec 32}
    (h : (argptr u n size).value = some p) : 0 ≤ size.toInt ∧ p.toNat + size.toNat ≤ u.sz.toNat := by
  rw [argptr_value] at h
  obtain ⟨i, -, h⟩ := Option.bind_eq_some_iff.1 h
  obtain ⟨r, hr, rfl⟩ := Option.map_eq_some_iff.1 h
  refine ⟨?_, ?_⟩
  · by_contra hneg
    rw [Vm.argptr, if_pos (.inl (by omega))] at hr
    cases hr
  have hbelow := Vm.argptr_below hsz hr
  rw [Vm.argptr] at hr
  split at hr
  · cases hr
  · cases hr
    exact hbelow

theorem argstr_value {n : BitVec 32} (h : (argstr u n).value = some r) :
    (argint u n).value = some r.1 ∧ StringAt u r.1 r.2 := by
  unfold argstr at h
  split at h
  · cases h
  rename_i addr haddr
  obtain ⟨hpp, hat⟩ := fetchstr_value h
  rw [hpp]
  exact ⟨haddr, hat⟩

theorem argstr_reads (n : BitVec 32) : ∀ a ∈ (argstr u n).reads, a ∈ (argint u n).reads ∨ a.toNat < u.sz.toNat := by
  intro a ha
  unfold argstr at ha
  split at ha
  · exact .inl ha
  rename_i addr _
  rcases List.mem_append.1 ha with ha | ha
  · exact .inl ha
  · exact .inr (fetchstr_reads addr a ha)

theorem StringAt.toInt_nonneg (hsz : u.sz.toNat < KERNBASE) {pp k : BitVec 32} (h : StringAt u pp k) :
    0 ≤ k.toInt := by
  have hk : KERNBASE = 2 ^ 31 := rfl
  have hlt := h.below
  rw [BitVec.toInt_eq_toNat_of_lt (by omega)]
  exact Int.natCast_nonneg _

/-- **System-call arguments stay in bounds.** Whatever `esp`, `n`, `size` and the words on the stack are, all bytes that
are read are below `sz`, and so is every byte of a block or a string that is accepted. -/
theorem args_in_bounds (u : User) (hsz : u.sz.toNat < KERNBASE) (n size : BitVec 32) :
    (∀ addr, ∀ a ∈ (fetchint u addr).reads ++ (fetchstr u addr).reads, a.toNat < u.sz.toNat) ∧
    (∀ a ∈ (argint u n).reads ++ (argptr u n size).reads ++ (argstr u n).reads, a.toNat < u.sz.toNat) ∧
    (∀ p, (argptr u n size).value = some p →
      0 ≤ size.toInt ∧ ∀ x : Int, p.toNat ≤ x → x < p.toNat + size.toInt → 0 ≤ x ∧ x < u.sz.toNat) ∧
    (∀ p k, (argstr u n).value = some (p, k) → 0 ≤ k.toInt ∧ p.toNat + k.toNat < u.sz.toNat ∧
      u.mem (p + k) = 0 ∧ ∀ j < k.toNat, u.mem (p + BitVec.ofNat 32 j) ≠ 0) := by
  have hint : ∀ a ∈ (argint u n).reads, a.toNat < u.sz.toNat := fetchint_reads hsz
  refine ⟨?_, ?_, ?_, ?_⟩
  · intro addr a ha
    rcases List.mem_append.1 ha with ha | ha
    · exact fetchint_reads hsz a ha
    · exact fetchstr_reads addr a ha
  · intro a ha
    rcases List.mem_append.1 ha with ha | ha
    · rw [argptr_reads, List.mem_append, or_self] at ha
      exact hint a ha
    · exact (argstr_reads n a ha).elim (hint a) id
  · intro p hp
    obtain ⟨hpos, hle⟩ := argptr_interval hsz hp
    refine ⟨hpos, fun x hlo hhi => ⟨by omega, ?_⟩⟩
    have hcond := BitVec.toInt_eq_toNat_cond size
    split at hcond <;> omega
  · intro p k h
    have hat := (argstr_value h).2
    exact ⟨hat.toInt_nonneg hsz, hat.below, hat.nul, hat.before⟩

/-- A process of two pages with its stack at the top of them: `esp` points to a saved program counter, the argument is
a pointer to the byte after it, and the string there is `a`. -/
def oneArg : User where
  sz := 0x2000#32
  esp := 0x1ff0#32
  mem := (Bytes.write32 (fun _ => 0#8) 0x1ff4#32 0x1ff8#32).write32 0x1ff8#32 0x61#32

theorem args_in_bounds_oneArg : (argptr oneArg 0 8).value = some 0x1ff8#32 ∧
    (argstr oneArg 0).value = some (0x1ff8#32, 1#32) ∧ oneArg.mem (0x1ff8#32 + 1#32) = 0 :=
  ⟨by decide, by decide,
    ((args_in_bounds oneArg (by decide) 0 8).2.2.2 0x1ff8#32 1#32 (by decide)).2.2.1⟩

end Xv6.Syscall
