import Xv6Threading.Lib.Draws
import Xv6Threading.Proc.Table

/-!
# The lottery (`proc.c:393-432`)

`scheduler` goes through the table with `ptable.lock` held and draws a new number for every `RUNNABLE` entry it
comes to: it runs the entry if the number is below the entry's own tickets. The rule of the `README` is one
draw, and the entry at which the running sum of the tickets passes it.

| here | there |
| --- | --- |
| `scan` | the `for` loop up to the first `swtch`; `draws` is what the calls of `random` return |
| `runnable` | the entries at which it draws, in the order of the table |
| `wins` | how many draws make an entry the first to run |

An entry late in the table gets less than its share, because those before it have all been drawn for first
(`lottery_share`).
-/

namespace Xv6

namespace Ptable

def scan (pt : Ptable) : List Slot → List Int → Option Slot
  | [], _ => none
  | p :: ps, draws =>
    if (pt p).state ≠ .RUNNABLE then scan pt ps draws
    else if 0 < pt.getTickets.toInt then
      match draws with
      | [] => none
      | choice :: draws => if choice ≥ (pt p).tickets.toInt then scan pt ps draws else some p
    else if -1 ≥ (pt p).tickets.toInt then scan pt ps draws
    else some p

def runnable (pt : Ptable) : List Slot := (List.finRange NPROC).filter fun p => (pt p).state = .RUNNABLE

/-- A ticket count that is not negative, as a number. -/
def held (pt : Ptable) (p : Slot) : Nat := (pt p).tickets.toInt.toNat

def total (pt : Ptable) : Nat := (pt.runnable.map pt.held).sum

/-- The draws, one in `[0, total)` for each `RUNNABLE` entry, with which the `i`-th of them runs first. -/
def wins (pt : Ptable) (i : Fin pt.runnable.length) : Nat :=
  (Finset.univ.filter fun d : Fin pt.runnable.length → Fin pt.total =>
    pt.scan (List.finRange NPROC) (List.ofFn fun j => ((d j : Nat) : Int)) = some pt.runnable[i]).card

/-! ## The sum of the tickets -/

theorem foldl_tickets (pt : Ptable) (hpos : ∀ p, (pt p).state = .RUNNABLE → 0 < (pt p).tickets.toInt) :
    ∀ (l : List Slot) (sum : BitVec 32),
      sum.toNat + ((l.filter fun p => (pt p).state = .RUNNABLE).map pt.held).sum < 2 ^ 31 →
      (l.foldl (fun sum q => if (pt q).state = .RUNNABLE then sum + (pt q).tickets else sum) sum).toNat =
        sum.toNat + ((l.filter fun p => (pt p).state = .RUNNABLE).map pt.held).sum := by
  intro l
  induction l with
  | nil =>
    intro sum _
    simp
  | cons p ps ih =>
    intro sum hlt
    by_cases hr : (pt p).state = .RUNNABLE
    · have hheld : pt.held p = (pt p).tickets.toNat := by
        have := hpos p hr
        rw [held, BitVec.toInt_eq_toNat_cond] at *
        split at this <;> omega
      simp only [List.filter_cons, hr, decide_true, if_true, List.map_cons, List.sum_cons, hheld] at hlt
      have hadd : (sum + (pt p).tickets).toNat = sum.toNat + (pt p).tickets.toNat := by
        rw [BitVec.toNat_add, Nat.mod_eq_of_lt (by omega)]
      rw [List.foldl_cons, if_pos hr, ih _ (by rw [hadd]; omega), hadd]
      simp only [List.filter_cons, hr, decide_true, if_true, List.map_cons, List.sum_cons, hheld]
      omega
    · simp only [List.filter_cons, hr, decide_false, Bool.false_eq_true, if_false] at hlt ⊢
      rw [List.foldl_cons, if_neg hr]
      exact ih sum hlt

variable {pt : Ptable} {tickets : Slot → Int} {p : Slot}

/-- `get_tickets` returns the sum, as long as that is an `int`. -/
theorem getTickets_eq (hpos : ∀ p, (pt p).state = .RUNNABLE → 0 < (pt p).tickets.toInt)
    (hT : pt.total < 2 ^ 31) : pt.getTickets.toInt = pt.total := by
  have hsum := foldl_tickets pt hpos (List.finRange NPROC) 0#32 (by simpa [total, runnable] using hT)
  have hfold : pt.getTickets = (List.finRange NPROC).foldl
      (fun sum q => if (pt q).state = .RUNNABLE then sum + (pt q).tickets else sum) 0#32 := by
    have h := Fin.foldlM_eq_foldlM_finRange (m := Id)
      (fun sum q => pure (if (pt q).state = .RUNNABLE then sum + (pt q).tickets else sum)) 0#32
    rw [Fin.foldlM_pure, List.foldlM_pure] at h
    exact h
  have heq : pt.getTickets.toNat = pt.total := by
    rw [hfold, hsum]
    simp [total, runnable]
  rw [BitVec.toInt_eq_toNat_of_lt (by omega), heq]

/-! ## Who runs first -/

/-- The loop at the entries that it draws for. -/
def pick (tickets : Slot → Int) : List Slot → List Int → Option Slot
  | p :: ps, choice :: draws => if choice ≥ tickets p then pick tickets ps draws else some p
  | [], _ | _ :: _, [] => none

theorem scan_eq_pick (h : 0 < pt.getTickets.toInt) : ∀ (l : List Slot) (draws : List Int),
      pt.scan l draws = pick (fun p => (pt p).tickets.toInt) (l.filter fun p => (pt p).state = .RUNNABLE) draws := by
  intro l
  induction l with
  | nil =>
    intro draws
    simp [scan, pick]
  | cons p ps ih =>
    intro draws
    by_cases hr : (pt p).state = .RUNNABLE
    · rw [List.filter_cons, if_pos (by simpa using hr)]
      cases draws with
      | nil => rw [scan, if_neg (not_not.2 hr), if_pos h, pick]
      | cons choice draws => rw [scan, if_neg (not_not.2 hr), if_pos h, pick, ih]
    rw [List.filter_cons, if_neg (by simpa using hr), ← ih]
    cases draws with
    | nil => rw [scan, if_pos hr]
    | cons choice draws => rw [scan, if_pos hr]

theorem pick_mem : ∀ {l : List Slot} {draws : List Int} {p : Slot}, pick tickets l draws = some p → p ∈ l := by
  intro l
  induction l with
  | nil =>
    intro draws p h
    simp [pick] at h
  | cons q l ih =>
    intro draws p h
    cases draws with
    | nil => simp [pick] at h
    | cons choice draws =>
      rw [pick] at h
      split at h
      · exact List.mem_cons_of_mem _ (ih h)
      · cases h
        exact List.mem_cons_self

theorem pick_eq_some_iff {T : Nat} : ∀ {l : List Slot}, l.Nodup →
    (∀ p ∈ l, 0 < tickets p) → ∀ (d : Fin l.length → Fin T) (i : Fin l.length),
      pick tickets l (List.ofFn fun j => ((d j : Nat) : Int)) = some l[i] ↔
        Draws.FirstBelow (fun j => (tickets l[j]).toNat) d i := by
  intro l
  induction l with
  | nil =>
    intro _ _ d i
    exact i.elim0
  | cons p l ih =>
    intro hnd hpos d i
    obtain ⟨hnot, hnd⟩ := List.nodup_cons.1 hnd
    have hp := hpos p List.mem_cons_self
    have hlater := fun j => ih hnd (fun q hq => hpos q (List.mem_cons_of_mem _ hq)) (fun j => d (Fin.succ j)) j
    have hfirst : ((d 0 : Nat) : Int) ≥ tickets p ↔ (tickets p).toNat ≤ (d 0 : Nat) := by omega
    have hofn : (List.ofFn fun j : Fin (p :: l).length => ((d j : Nat) : Int)) =
        ((d 0 : Nat) : Int) :: List.ofFn fun j : Fin l.length => ((d (Fin.succ j) : Nat) : Int) := List.ofFn_succ
    rw [hofn, pick]
    cases i using Fin.cases with
    | zero =>
      have hnone : pick tickets l (List.ofFn fun j => ((d (Fin.succ j) : Nat) : Int)) ≠ some p := by
        intro h
        exact hnot (pick_mem h)
      refine Iff.trans ?_ Draws.firstBelow_zero.symm
      show _ = some p ↔ (d 0 : Nat) < (tickets p).toNat
      split
      next hge =>
        have := hfirst.1 hge
        simp only [hnone, false_iff]
        omega
      next hlt =>
        simp only [true_iff]
        omega
    | succ i =>
      have hne : p ≠ l[i] := by
        intro e
        exact hnot (e ▸ List.getElem_mem _)
      refine Iff.trans ?_ Draws.firstBelow_succ.symm
      show _ = some l[i] ↔ (tickets p).toNat ≤ (d 0 : Nat) ∧ _
      rw [← hfirst]
      split
      next hge =>
        rw [hlater i]
        exact ⟨fun h => ⟨hge, h⟩, fun h => h.2⟩
      next hlt =>
        simp only [Option.some.injEq, hne, hlt, false_and]

theorem mem_runnable : p ∈ pt.runnable ↔ (pt p).state = .RUNNABLE := by
  simp [runnable]

theorem held_le_total (pt : Ptable) (h : p ∈ pt.runnable) : pt.held p ≤ pt.total :=
  List.le_sum_of_mem (List.mem_map_of_mem h)

theorem wins_eq_iff (hpos : ∀ p, (pt p).state = .RUNNABLE → 0 < (pt p).tickets.toInt)
    (hT : pt.total < 2 ^ 31) (i : Fin pt.runnable.length) :
    pt.wins i = pt.held pt.runnable[i] * pt.total ^ (pt.runnable.length - 1) ↔ (i : Nat) = 0 := by
  have hmem : ∀ j : Fin pt.runnable.length, pt.runnable[j] ∈ pt.runnable := fun j => List.getElem_mem _
  have hheld : ∀ j : Fin pt.runnable.length, 0 < pt.held pt.runnable[j] := by
    intro j
    have := hpos _ (mem_runnable.1 (hmem j))
    rw [held]
    omega
  have hsum : 0 < pt.getTickets.toInt := by
    rw [getTickets_eq hpos hT]
    have := hheld i
    have := pt.held_le_total (hmem i)
    omega
  have hset : pt.wins i = (Finset.univ.filter fun d : Fin pt.runnable.length → Fin pt.total =>
      Draws.FirstBelow (fun j => pt.held pt.runnable[j]) d i).card := by
    rw [wins]
    congr 1
    apply Finset.filter_congr
    intro d _
    rw [scan_eq_pick hsum]
    exact pick_eq_some_iff ((List.nodup_finRange _).filter _)
      (fun p hp => hpos p (mem_runnable.1 hp)) d i
  rw [hset]
  exact Draws.card_firstBelow_eq_iff (fun j => pt.held_le_total (hmem j)) hheld i

/-- **Who has a fair share.** Let the `RUNNABLE` processes have positive tickets whose sum `T` is an `int`. Of
the `T ^ k` sequences of draws that one pass over the table can see, the `i`-th process runs first in
`t_i * T ^ (k - 1)` if and only if it is the first `RUNNABLE` one of the table; so all of them have their share
if and only if there is at most one. -/
theorem lottery_share {pt : Ptable} (hpos : ∀ p, (pt p).state = .RUNNABLE → 0 < (pt p).tickets.toInt)
    (hT : pt.total < 2 ^ 31) :
    (∀ i, pt.wins i = pt.held pt.runnable[i] * pt.total ^ (pt.runnable.length - 1) ↔ (i : Nat) = 0) ∧
    ((∀ i, pt.wins i = pt.held pt.runnable[i] * pt.total ^ (pt.runnable.length - 1)) ↔ pt.runnable.length ≤ 1) := by
  refine ⟨fun i => wins_eq_iff hpos hT i, ?_⟩
  constructor
  · intro h
    by_contra hk
    have := (wins_eq_iff hpos hT ⟨1, by omega⟩).1 (h _)
    cases this
  · intro hk i
    exact (wins_eq_iff hpos hT i).2 (by omega)

/-- Two processes with `n` tickets each. -/
def twoRunnable (n : BitVec 32) : Ptable := fun p =>
  if p.val < 2 then { Proc.zero with state := .RUNNABLE, tickets := n } else .zero

theorem runnable_twoRunnable (n : BitVec 32) : (twoRunnable n).runnable = [0, 1] := by
  have h : (fun p => decide ((twoRunnable n p).state = .RUNNABLE)) = fun p : Slot => decide (p.val < 2) := by
    ext p
    by_cases hp : p.val < 2 <;> simp [twoRunnable, hp, Proc.zero]
  rw [runnable, h]
  decide

theorem lottery_share_two : (twoRunnable 5).wins ⟨0, by rw [runnable_twoRunnable]; decide⟩ = 50 := by
  have hpos : ∀ p, (twoRunnable 5 p).state = .RUNNABLE → 0 < (twoRunnable 5 p).tickets.toInt := by decide
  have htot : (twoRunnable 5).total = 10 := by rw [total, runnable_twoRunnable]; decide
  have h := ((lottery_share hpos (by rw [htot]; decide)).1 ⟨0, by rw [runnable_twoRunnable]; decide⟩).2 rfl
  rw [h, htot]
  simp [runnable_twoRunnable, held, twoRunnable]

/-- With one ticket each, the second process is the first to run in one of the four cases, not in two. -/
theorem second_has_less : ∃ pt : Ptable, (∀ p, (pt p).state = .RUNNABLE → 0 < (pt p).tickets.toInt) ∧
    pt.total < 2 ^ 31 ∧ ∃ i, pt.wins i ≠ pt.held pt.runnable[i] * pt.total ^ (pt.runnable.length - 1) := by
  have hpos : ∀ p, (twoRunnable 1 p).state = .RUNNABLE → 0 < (twoRunnable 1 p).tickets.toInt := by decide
  have htot : (twoRunnable 1).total < 2 ^ 31 := by rw [total, runnable_twoRunnable]; decide
  refine ⟨twoRunnable 1, hpos, htot, ⟨1, by rw [runnable_twoRunnable]; decide⟩, ?_⟩
  intro h
  cases (wins_eq_iff hpos htot _).1 h

end Ptable

end Xv6
