import Xv6Threading.Lib.Bytes
import Xv6Threading.Lib.Stores
import Xv6Threading.Vm.Table

/-!
# `copyout` (`vm.c:348-386`)

`copyout` writes through a page directory that need not be the current one: `uva2ka` looks the page up and turns its
physical address into a kernel address. It does not test what `walkpgdir` returns. Where the directory has no page table
for an address, the entry is read through a null pointer.

| here | there |
| --- | --- |
| `p2v` | `P2V(PTE_ADDR(*pte))` (`memlayout.h:12`); a null pointer for the page at `0x80000000` |
| `uva2ka` | `uva2ka` (`vm.c:350`); none is the null pointer of `walkpgdir` dereferenced |
| `copyoutLoop` | the `while` of `copyout` (`vm.c:371`); `src` is what is left of the buffer, and `len` its length |

Memory is kernel memory, by address. The buffer and the page tables lie outside the pages that are written.
-/

namespace Xv6.Vm

def Pte.user (e : Pte) : Bool := e.flags.getLsbD 2

def p2v (ppn : Ppn) : BitVec 32 := BitVec.ofNat 32 (ppn * 4096) + 0x80000000#32

def pgRoundDown (va : BitVec 32) : BitVec 32 := va - va % 4096#32

def uva2ka (pgd : Pgd) (uva : BitVec 32) : Option (BitVec 32) :=
  (walk pgd (uva.toNat / 4096)).map fun e => if !e.present then 0 else if !e.user then 0 else p2v e.ppn

def memmove (m : Bytes) (dst : BitVec 32) (src : List (BitVec 8)) : Bytes :=
  storeAll m (src.mapIdx fun i b => (dst + BitVec.ofNat 32 i, b))

/-- One byte at least is copied at each turn, so the length of the buffer is fuel enough. -/
def copyoutLoop (pgd : Pgd) : Nat → Bytes → BitVec 32 → List (BitVec 8) → Option (Bytes × Int)
  | 0, m, _, _ => some (m, 0)
  | fuel + 1, m, va, src =>
    if src.length > 0 then
      let va0 := pgRoundDown va
      match uva2ka pgd va0 with
      | none => none
      | some pa0 =>
        if pa0 = 0 then some (m, -1)
        else
          let n := min (4096 - (va - va0).toNat) src.length
          copyoutLoop pgd fuel (memmove m (pa0 + (va - va0)) (src.take n)) (va0 + 4096#32) (src.drop n)
    else some (m, 0)

def copyout (pgd : Pgd) (m : Bytes) (va : BitVec 32) (src : List (BitVec 8)) : Option (Bytes × Int) :=
  copyoutLoop pgd src.length m va src

/-- The page of the address is mapped and a user page. -/
def Accessible (pgd : Pgd) (x : BitVec 32) : Prop := (walk pgd (x.toNat / 4096)).any (fun e => e.present && e.user)

/-- Where the byte at `x` lies in kernel memory. -/
def ka (pgd : Pgd) (x : BitVec 32) : BitVec 32 :=
  p2v ((walk pgd (x.toNat / 4096)).getD .zero).ppn + x % 4096#32

/-- The `i`-th address from `va` on. -/
abbrev nth (va : BitVec 32) (i : Nat) : BitVec 32 := va + BitVec.ofNat 32 i

/-! ## Byte by byte -/

/-- `copyout` as if it looked every byte up. -/
def copyBytes (pgd : Pgd) : Bytes → BitVec 32 → List (BitVec 8) → Option (Bytes × Int)
  | m, _, [] => some (m, 0)
  | m, va, b :: src =>
    match uva2ka pgd va with
    | none => none
    | some pa0 => if pa0 = 0 then some (m, -1) else copyBytes pgd (Function.update m (ka pgd va) b) (va + 1) src

/-- The look-up succeeds. -/
def Reaches (pgd : Pgd) (x : BitVec 32) : Prop := ∃ pa0, uva2ka pgd x = some pa0 ∧ pa0 ≠ 0

def targets (pgd : Pgd) (va : BitVec 32) (src : List (BitVec 8)) : List (BitVec 32 × BitVec 8) :=
  src.mapIdx fun i b => (ka pgd (nth va i), b)

theorem nth_succ (va : BitVec 32) (i : Nat) : nth va (i + 1) = nth (va + 1) i := by
  simp only [nth]
  rw [BitVec.ofNat_add, BitVec.add_assoc, BitVec.add_comm (BitVec.ofNat 32 i)]
  rfl

theorem targets_cons (pgd : Pgd) (va : BitVec 32) (b : BitVec 8) (src : List (BitVec 8)) :
    targets pgd va (b :: src) = (ka pgd va, b) :: targets pgd (va + 1) src := by
  simp only [targets, List.mapIdx_cons, nth_succ]
  simp [nth]

variable {pgd : Pgd}

theorem uva2ka_congr {x y : BitVec 32} (h : x.toNat / 4096 = y.toNat / 4096) : uva2ka pgd x = uva2ka pgd y := by
  simp only [uva2ka, h]

theorem copyBytes_append {t : List (BitVec 8)} : ∀ {a : List (BitVec 8)} {m : Bytes} {va : BitVec 32},
    (∀ i < a.length, Reaches pgd (nth va i)) →
    copyBytes pgd m va (a ++ t) = copyBytes pgd (storeAll m (targets pgd va a)) (nth va a.length) t := by
  intro a
  induction a with
  | nil =>
    intro m va _
    simp [targets, nth]
  | cons b a ih =>
    intro m va h
    obtain ⟨pa0, hka, hne⟩ := h 0 (Nat.succ_pos _)
    have hva : nth va 0 = va := by simp [nth]
    rw [hva] at hka
    rw [List.cons_append, copyBytes, hka]
    simp only [if_neg hne]
    rw [ih fun i hi => ?_, targets_cons, storeAll_cons, List.length_cons, nth_succ]
    rw [← nth_succ]
    exact h (i + 1) (Nat.succ_lt_succ hi)

/-! ## Page by page -/

theorem offset_toNat (va : BitVec 32) : (va % 4096#32).toNat = va.toNat % 4096 := by simp

theorem pgRoundDown_toNat (va : BitVec 32) : (pgRoundDown va).toNat = va.toNat - va.toNat % 4096 := by
  have := va.isLt
  rw [pgRoundDown, BitVec.toNat_sub, offset_toNat]
  omega

theorem pgRoundDown_page (va : BitVec 32) : (pgRoundDown va).toNat / 4096 = va.toNat / 4096 := by
  rw [pgRoundDown_toNat]
  omega

theorem sub_pgRoundDown (va : BitVec 32) : va - pgRoundDown va = va % 4096#32 := by
  have := va.isLt
  apply BitVec.eq_of_toNat_eq
  rw [BitVec.toNat_sub, pgRoundDown_toNat, offset_toNat]
  omega

variable {i : Nat} {va : BitVec 32} {pa0 : BitVec 32}

section

variable (h : va.toNat % 4096 + i < 4096)
include h

/-- An address on the same page. -/
theorem nth_toNat : (nth va i).toNat = va.toNat + i := by
  simp only [nth, BitVec.toNat_add, BitVec.toNat_ofNat]
  omega

theorem nth_page : (nth va i).toNat / 4096 = va.toNat / 4096 := by
  rw [nth_toNat h]
  omega

theorem ka_nth : ka pgd (nth va i) = nth (ka pgd va) i := by
  have hoff : nth va i % 4096#32 = va % 4096#32 + BitVec.ofNat 32 i := by
    apply BitVec.eq_of_toNat_eq
    rw [offset_toNat, nth_toNat h, BitVec.toNat_add, offset_toNat, BitVec.toNat_ofNat]
    omega
  rw [ka, nth_page h, hoff, nth, ka, BitVec.add_assoc]

end

/-- What a successful look-up returns. -/
theorem uva2ka_of_ne (h : uva2ka pgd va = some pa0) (hne : pa0 ≠ 0) :
    Accessible pgd va ∧ ka pgd va = pa0 + va % 4096#32 := by
  unfold uva2ka at h
  obtain ⟨e, he, hpa⟩ := Option.map_eq_some_iff.1 h
  simp only [Accessible, ka, he, Option.any_some, Option.getD_some]
  split at hpa
  · exact absurd hpa.symm hne
  split at hpa
  · exact absurd hpa.symm hne
  next hp hu =>
    simp only [Bool.not_eq_true', Bool.not_eq_false] at hp hu
    rw [hpa]
    exact ⟨by simp [hp, hu], rfl⟩

variable {src : List (BitVec 8)}

/-- One turn of the loop is as many bytes as are left on the page. -/
theorem memmove_eq (h : uva2ka pgd va = some pa0) (hne : pa0 ≠ 0)
    (hlen : va.toNat % 4096 + src.length ≤ 4096) (m : Bytes) :
    memmove m (pa0 + va % 4096#32) src = storeAll m (targets pgd va src) := by
  refine congrArg (storeAll m) (List.ext_getElem (by simp [targets]) fun i h1 h2 => ?_)
  have hi : i < src.length := by simpa using h1
  simp only [targets, List.getElem_mapIdx]
  rw [ka_nth (by omega), (uva2ka_of_ne h hne).2]

theorem copyoutLoop_eq (pgd : Pgd) : ∀ (fuel : Nat) (m : Bytes) (va : BitVec 32) (src : List (BitVec 8)), src.length ≤ fuel →
    copyoutLoop pgd fuel m va src = copyBytes pgd m va src := by
  intro fuel
  induction fuel with
  | zero =>
    intro m va src hlen
    rw [List.eq_nil_of_length_eq_zero (Nat.le_zero.1 hlen)]
    rfl
  | succ fuel ih =>
    intro m va src hlen
    cases src with
    | nil => rfl
    | cons b src =>
      have hka : uva2ka pgd (pgRoundDown va) = uva2ka pgd va := uva2ka_congr (pgRoundDown_page va)
      rw [copyoutLoop, if_pos (show (b :: src).length > 0 from Nat.succ_pos _)]
      simp only [hka, sub_pgRoundDown]
      cases h : uva2ka pgd va with
      | none => simp only [copyBytes, h]
      | some pa0 =>
        by_cases hne : pa0 = 0
        · simp only [copyBytes, h, if_pos hne]
        simp only [if_neg hne]
        generalize hn : min (4096 - (va % 4096#32).toNat) (b :: src).length = n
        rw [offset_toNat] at hn
        have htake : ((b :: src).take n).length = n := by
          rw [List.length_take]
          omega
        have hpage : ∀ i < ((b :: src).take n).length, Reaches pgd (nth va i) := by
          intro i hi
          exact ⟨pa0, by rw [uva2ka_congr (nth_page (by omega)), h], hne⟩
        rw [ih _ _ _ (by rw [List.length_drop, List.length_cons] at *; omega), memmove_eq h hne (by omega)]
        conv_rhs => rw [← List.take_append_drop n (b :: src), copyBytes_append hpage, htake]
        -- either the buffer is used up, or the next address is the start of the next page
        by_cases hend : n = (b :: src).length
        · rw [List.drop_eq_nil_of_le (Nat.le_of_eq hend.symm), copyBytes, copyBytes]
        have hnext : pgRoundDown va + 4096#32 = nth va n := by
          have hnp : n = 4096 - va.toNat % 4096 := by omega
          apply BitVec.eq_of_toNat_eq
          rw [nth, BitVec.toNat_add, BitVec.toNat_add, pgRoundDown_toNat, hnp, BitVec.toNat_ofNat,
            BitVec.toNat_ofNat]
          omega
        rw [hnext]

theorem copyout_eq (pgd : Pgd) (m : Bytes) (va : BitVec 32) (src : List (BitVec 8)) :
    copyout pgd m va src = copyBytes pgd m va src :=
  copyoutLoop_eq pgd _ m va src (Nat.le_refl _)

/-! ## How it ends -/

variable {m : Bytes}

theorem copyBytes_ok
    (h : ∀ i < src.length, Reaches pgd (nth va i)) :
    copyBytes pgd m va src = some (storeAll m (targets pgd va src), 0) := by
  have := copyBytes_append (m := m) (t := []) h
  rwa [List.append_nil, copyBytes] at this

/-- The first address that cannot be reached ends the copy. -/
theorem copyBytes_stop {k : Nat} (hk : k < src.length)
    (h : ∀ i < k, Reaches pgd (nth va i)) (hno : ¬ Reaches pgd (nth va k)) :
    copyBytes pgd m va src =
      (uva2ka pgd (nth va k)).map fun _ => (storeAll m (targets pgd va (src.take k)), -1) := by
  have htake : (src.take k).length = k := by
    rw [List.length_take]
    omega
  have hpre : ∀ i < (src.take k).length, Reaches pgd (nth va i) := by rwa [htake]
  have happ := copyBytes_append (m := m) (t := src.drop k) hpre
  rw [List.take_append_drop, htake, List.drop_eq_getElem_cons hk, copyBytes] at happ
  rw [happ]
  cases hka : uva2ka pgd (nth va k) with
  | none => rfl
  | some pa0 =>
    have h0 : pa0 = 0 := by
      by_contra hne
      exact hno ⟨pa0, hka, hne⟩
    simp [h0]

theorem first_failure {P : Nat → Prop} (n : Nat) : (∀ i < n, P i) ∨ ∃ k < n, (∀ i < k, P i) ∧ ¬ P k := by
  induction n with
  | zero => exact .inl fun i hi => absurd hi (Nat.not_lt_zero i)
  | succ n ih =>
    rcases ih with hall | ⟨k, hk, h⟩
    · by_cases hn : P n
      · refine .inl fun i hi => ?_
        rcases Nat.lt_succ_iff_lt_or_eq.1 hi with hlt | rfl
        · exact hall i hlt
        · exact hn
      · exact .inr ⟨n, Nat.lt_succ_self n, hall, hn⟩
    · exact .inr ⟨k, Nat.lt_succ_of_lt hk, h⟩

/-- Every page that is looked up has a page table: those of the range, in order, up to the first one that `uva2ka`
refuses. -/
def TablesThere (pgd : Pgd) (va : BitVec 32) (len : Nat) : Prop :=
  ∀ k < len, (∀ i < k, Reaches pgd (nth va i)) → (uva2ka pgd (nth va k)).isSome

/-- If all pages of the range are user pages, none of them is at `0x80000000`. -/
def NotNull (pgd : Pgd) (va : BitVec 32) (len : Nat) : Prop :=
  (∀ i < len, Accessible pgd (nth va i)) → ∀ i < len, Reaches pgd (nth va i)

/-- What `copyout` is for. -/
structure Checked (pgd : Pgd) (m : Bytes) (va : BitVec 32) (src : List (BitVec 8)) : Prop where
  /-- No missing page table is dereferenced. -/
  safe : copyout pgd m va src ≠ none
  zero_iff : (∃ m', copyout pgd m va src = some (m', 0)) ↔ ∀ i < src.length, Accessible pgd (nth va i)
  /-- On success the bytes of the range, where no later one lies in the same place, are those of the source. -/
  copied : ∀ m', copyout pgd m va src = some (m', 0) → ∀ i (hi : i < src.length),
    (∀ j < src.length, i < j → ka pgd (nth va j) ≠ ka pgd (nth va i)) → m' (ka pgd (nth va i)) = src[i]
  /-- Nothing else changes. -/
  rest : ∀ m', copyout pgd m va src = some (m', 0) → ∀ x, (∀ i < src.length, x ≠ ka pgd (nth va i)) → m' x = m x
  /-- On failure only user pages have been written to. -/
  failed : ∀ m' r, copyout pgd m va src = some (m', r) → r ≠ 0 → r = -1 ∧
    ∀ x, m' x ≠ m x → ∃ y, Accessible pgd y ∧ x = ka pgd y

theorem Reaches.accessible {x : BitVec 32} (h : Reaches pgd x) : Accessible pgd x := by
  obtain ⟨pa0, hka, hne⟩ := h
  exact (uva2ka_of_ne hka hne).1

theorem mem_targets {p : BitVec 32 × BitVec 8}
    (h : p ∈ targets pgd va src) : ∃ i < src.length, p.1 = ka pgd (nth va i) := by
  obtain ⟨i, hi, rfl⟩ := List.getElem_of_mem h
  exact ⟨i, by simpa [targets] using hi, by simp [targets]⟩

theorem storeAll_copied (hi : i < src.length)
    (hlast : ∀ j < src.length, i < j → ka pgd (nth va j) ≠ ka pgd (nth va i)) :
    storeAll m (targets pgd va src) (ka pgd (nth va i)) = src[i] := by
  have hlen : (targets pgd va src).length = src.length := by simp [targets]
  have := storeAll_getElem (m := m) (l := targets pgd va src) (i := i) (by omega) fun j hj hij => by
    simpa [targets] using hlast j (by omega) hij
  simpa [targets] using this

section

variable {k : Nat}

/-- All pages are reached. -/
theorem checked_of_reaches (hall : ∀ i < src.length, Reaches pgd (nth va i)) : Checked pgd m va src := by
  have hret : copyout pgd m va src = some (storeAll m (targets pgd va src), 0) := by
    rw [copyout_eq, copyBytes_ok hall]
  have hres : ∀ m' r, copyout pgd m va src = some (m', r) → m' = storeAll m (targets pgd va src) ∧ r = 0 := by
    intro m' r h
    rw [hret] at h
    cases h
    exact ⟨rfl, rfl⟩
  refine ⟨?_, ?_, ?_, ?_, ?_⟩
  · rw [hret]
    simp
  · exact ⟨fun _ i hi => (hall i hi).accessible, fun _ => ⟨_, hret⟩⟩
  · intro m' h i hi hlast
    rw [(hres m' 0 h).1]
    exact storeAll_copied hi hlast
  · intro m' h x hx
    rw [(hres m' 0 h).1]
    refine storeAll_of_forall_ne fun p hp => ?_
    obtain ⟨i, hi, hpi⟩ := mem_targets hp
    rw [hpi]
    exact (hx i hi).symm
  · intro m' r h hr
    exact absurd (hres m' r h).2 hr

theorem tablesThere_of_stop (hbefore : ∀ i < k, Reaches pgd (nth va i)) (hno : ¬ Reaches pgd (nth va k))
    (hka : (uva2ka pgd (nth va k)).isSome) (n : Nat) : TablesThere pgd va n := by
  intro i _ hprev
  by_cases hik : i = k
  · rwa [hik]
  have hlt : i < k := by
    by_contra hge
    exact hno (hprev k (by omega))
  obtain ⟨pa, hpa, -⟩ := hbefore i hlt
  rw [hpa]
  rfl

/-- A copy that stops returns -1. -/
theorem copyout_stop (hk : k < src.length) (hbefore : ∀ i < k, Reaches pgd (nth va i))
    (hno : ¬ Reaches pgd (nth va k)) {m' : Bytes} {r : Int} (h : copyout pgd m va src = some (m', r)) :
    m' = storeAll m (targets pgd va (src.take k)) ∧ r = -1 := by
  rw [copyout_eq, copyBytes_stop hk hbefore hno] at h
  obtain ⟨-, -, hr⟩ := Option.map_eq_some_iff.1 h
  cases hr
  exact ⟨rfl, rfl⟩

/-- The copy stops, and not all of the range are user pages. -/
theorem checked_of_stop (hk : k < src.length) (hbefore : ∀ i < k, Reaches pgd (nth va i))
    (hno : ¬ Reaches pgd (nth va k)) (hsafe : copyout pgd m va src ≠ none)
    (hacc : ¬ ∀ i < src.length, Accessible pgd (nth va i)) : Checked pgd m va src := by
  have hnot : ∀ m', copyout pgd m va src ≠ some (m', 0) := by
    intro m' h
    have := (copyout_stop hk hbefore hno h).2
    cases this
  refine ⟨hsafe, ⟨?_, fun h => absurd h hacc⟩, fun m' h => absurd h (hnot m'), fun m' h => absurd h (hnot m'), ?_⟩
  · rintro ⟨m', h⟩
    exact absurd h (hnot m')
  intro m' r h _
  obtain ⟨rfl, rfl⟩ := copyout_stop hk hbefore hno h
  refine ⟨rfl, fun x hx => ?_⟩
  by_contra hout
  refine hx (storeAll_of_forall_ne fun p hp => ?_)
  obtain ⟨i, hi, hpi⟩ := mem_targets hp
  rw [List.length_take] at hi
  rintro rfl
  exact hout ⟨nth va i, (hbefore i (by omega)).accessible, hpi⟩

end

/-- **What `copyout` checks.** For every directory, address and buffer: `copyout` never follows a missing page table,
returns 0 exactly if all pages of the range are user pages, and writes just the bytes of the range then, and only to user
pages else, if and only if there is a page table for every page it comes to and no user page at `0x80000000` stops it. -/
theorem copyout_checked (pgd : Pgd) (m : Bytes) (va : BitVec 32) (src : List (BitVec 8)) :
    Checked pgd m va src ↔ TablesThere pgd va src.length ∧ NotNull pgd va src.length := by
  rcases first_failure (P := fun i => Reaches pgd (nth va i)) src.length with hall | ⟨k, hk, hbefore, hno⟩
  · refine ⟨fun _ => ⟨fun i hi _ => ?_, fun _ => hall⟩, fun _ => checked_of_reaches hall⟩
    obtain ⟨pa0, hka, -⟩ := hall i hi
    rw [hka]
    rfl
  have hret : copyout pgd m va src = _ := (copyout_eq ..).trans (copyBytes_stop (m := m) hk hbefore hno)
  cases hka : uva2ka pgd (nth va k) with
  | none =>
    rw [hka] at hret
    refine ⟨fun h => absurd hret h.safe, fun h => ?_⟩
    have := h.1 k hk hbefore
    rw [hka] at this
    cases this
  | some pa0 =>
    rw [hka] at hret
    refine ⟨fun h => ⟨tablesThere_of_stop hbefore hno (by rw [hka]; rfl) _, fun hacc => ?_⟩, fun h => ?_⟩
    · obtain ⟨m', hm'⟩ := h.zero_iff.2 hacc
      have := (copyout_stop hk hbefore hno hm').2
      cases this
    · refine checked_of_stop hk hbefore hno ?_ fun hacc => hno (h.2 hacc k hk)
      rw [hret]
      simp

/-- A directory with one user page, at `0x5000`. -/
def onePage : Pgd := fun i =>
  if i = 0 then some ⟨100, fun j => if j = 5 then ⟨200, PTE_P ||| PTE_W ||| PTE_U⟩ else .zero⟩ else none

theorem copyout_checked_two : Checked onePage (fun _ => 0) 0x5ffe [1, 2] := by
  have hreach : ∀ i < 2, Reaches onePage (nth 0x5ffe i) := by
    intro i hi
    have : i = 0 ∨ i = 1 := by omega
    rcases this with rfl | rfl
    · exact ⟨_, rfl, by decide⟩
    · exact ⟨_, rfl, by decide⟩
  refine (copyout_checked onePage (fun _ => 0) 0x5ffe [1, 2]).2 ⟨fun k hk _ => ?_, fun _ => hreach⟩
  obtain ⟨pa0, hka, -⟩ := hreach k hk
  rw [hka]
  rfl

/-- The directory has no page table for `0x400000`. -/
theorem copyout_null : copyout onePage (fun _ => 0) 0x400000 [1] = none ∧ ¬ Checked onePage (fun _ => 0) 0x400000 [1] := by
  have hnull : copyout onePage (fun _ => 0) 0x400000 [1] = none := by decide
  exact ⟨hnull, fun h => h.safe hnull⟩

end Xv6.Vm
