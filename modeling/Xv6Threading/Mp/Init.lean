import Xv6Threading.Lib.Codec

/-!
# The multiprocessor table (`mp.c`, `mp.h`)

`mpinit` walks over the entries of the BIOS's configuration table, by the length that the type of each entry tells. For
a type it does not know, `default: ismp = 0; break;` (`mp.c:125-127`) leaves the `switch` and not the loop, with `p` where
it was: the panic that is meant for this case is not reached.

Memory is that behind `P2V`, by physical address. Addresses are natural numbers: a table is taken not to wrap around the
address space. A walk takes fuel and gives `none` if there is too little of it.

| here | there |
| --- | --- |
| `mpconfig m = some (mp, conf)` | `conf = mpconfig(&mp)`, 0 is `none` |
| `turn`, `walk` | the body of the loop of `mpinit`, and the loop |
| `Ends` | the panics, and the end of `mpinit` with what it has written to ports |
-/

namespace Xv6.Mp

open Function (update)

abbrev Mem := Nat → UInt8

abbrev NCPU : Nat := 8

/-! ## Finding the table -/

/-- `sizeof(struct mp)`, and those of the other structures. -/
abbrev sizeofMp : Nat := 16
abbrev sizeofMpconf : Nat := 44
abbrev sizeofMpproc : Nat := 20
abbrev sizeofMpioapic : Nat := 8

/-- The sum is an `int`; what is returned of it is its last byte. -/
def sum (m : Mem) (addr len : Nat) : UInt8 :=
  UInt8.ofNat ((List.range len).foldl (fun sum i => sum + (m (addr + i)).toNat) 0)

/-- `memcmp(p, s, 4) == 0`. -/
def sameBytes (m : Mem) (p : Nat) (s : List UInt8) : Bool := (List.range s.length).map (fun i => m (p + i)) = s

/-- The addresses `a`, `a + 16` and so on below `a + len`. -/
def mpsearch1 (m : Mem) (a len : Nat) : Option Nat :=
  ((List.range ((len + 15) / sizeofMp)).map fun i => a + i * sizeofMp).find? fun p =>
    sameBytes m p [95, 77, 80, 95] && sum m p sizeofMp = 0

def mpsearch (m : Mem) : Option Nat :=
  let p := Codec.get m 0x40E 2 * 16
  (if p ≠ 0 then mpsearch1 m p 1024
    else mpsearch1 m ((Codec.get m 0x413 2 * 1024 + (2 ^ 32 - 1024)) % 2 ^ 32) 1024).or
    (mpsearch1 m 0xF0000 0x10000)

def mpconfig (m : Mem) : Option (Nat × Nat) :=
  match mpsearch m with
  | none => none
  | some mp =>
    let conf := Codec.get m (mp + 4) 4
    if conf = 0 then none
    else if !sameBytes m conf [80, 67, 77, 80] then none
    else if m (conf + 6) ≠ 1 ∧ m (conf + 6) ≠ 4 then none
    else if sum m conf (Codec.get m (conf + 4) 2) ≠ 0 then none
    else some (mp, conf)

/-! ## The walk -/

structure State where
  ncpu : Nat
  /-- `cpus[i].apicid` -/
  apicid : Nat → UInt8
  ioapicid : UInt8
  lapic : Nat
  ismp : Bool

/-- The static variables as `main` finds them. -/
def State.boot : State := ⟨0, fun _ => 0, 0, 0, false⟩

def turn (m : Mem) (st : State) (p : Nat) : State × Nat :=
  match (m p).toNat with
  | 0 => (if st.ncpu < NCPU then
      { st with apicid := update st.apicid st.ncpu (m (p + 1)), ncpu := st.ncpu + 1 } else st, p + sizeofMpproc)
  | 2 => ({ st with ioapicid := m (p + 1) }, p + sizeofMpioapic)
  | 1 | 3 | 4 => (st, p + 8)
  | _ => ({ st with ismp := false }, p)

def walk (m : Mem) (e : Nat) : Nat → State → Nat → Option State
  | 0, _, _ => none
  | fuel + 1, st, p => if p < e then walk m e fuel (turn m st p).1 (turn m st p).2 else some st

inductive Ends
  | panic (s : String)
  | done (outb : List (Nat × UInt8))
  deriving DecidableEq

/-- `inb` is what the ports have for a reader. -/
def mpinit (m : Mem) (inb : Nat → UInt8) (fuel : Nat) (st : State) : Option (State × Ends) :=
  match mpconfig m with
  | none => some (st, .panic "Expect to run on an SMP")
  | some (mp, conf) =>
    (walk m (conf + Codec.get m (conf + 4) 2) fuel { st with ismp := true, lapic := Codec.get m (conf + 36) 4 }
      (conf + sizeofMpconf)).map fun st =>
        (st, if !st.ismp then .panic "Didn't find a suitable machine"
          else .done (if m (mp + 12) ≠ 0 then [(0x22, 0x70), (0x23, inb 0x23 ||| 1)] else []))

/-- What the loop goes on by. -/
def step (type : UInt8) : Nat := if type = 0 then sizeofMpproc else if type.toNat ≤ 4 then 8 else 0

/-- The walk from `p` to `e` comes to an entry at `q`. -/
inductive Entry (m : Mem) (e : Nat) : Nat → Nat → Prop
  | here {p : Nat} (h : p < e) : Entry m e p p
  | later {p q : Nat} (h : p < e) (hq : Entry m e (p + step (m p)) q) : Entry m e p q

/-- All entries between `p` and `e` have a type that the `switch` has a case for. -/
def Known (m : Mem) (e p : Nat) : Prop := ∀ q, Entry m e p q → (m q).toNat ≤ 4

variable {m : Mem} {e p q : Nat} {st : State}

theorem turn_snd : (turn m st p).2 = p + step (m p) := by
  unfold turn step
  split <;> simp_all [← UInt8.toNat_inj]
  omega

/-- A known entry: the loop goes on, and another processor is recorded only if there is room. -/
theorem turn_known (st : State) (h : (m p).toNat ≤ 4) : (turn m st p).1.ismp = st.ismp ∧ p < (turn m st p).2 ∧
    (st.ncpu ≤ NCPU → (turn m st p).1.ncpu ≤ NCPU) := by
  unfold turn
  split <;> try split
  all_goals simp_all
  all_goals omega

/-- An entry of a type the `switch` has no case for: the next turn is the same again. -/
theorem turn_unknown (h : ¬ (m p).toNat ≤ 4) : (turn m st p).2 = p := by
  rw [turn_snd, step, if_neg (by rintro h0; simp [h0] at h), if_neg h, Nat.add_zero]

/-- With known entries only the walk ends: every turn goes on by 8 bytes at least. -/
theorem walk_known (st : State) (h : Known m e p) (hst : st.ncpu ≤ NCPU) :
    ∃ fuel st', walk m e fuel st p = some st' ∧ st'.ismp = st.ismp ∧ st'.ncpu ≤ NCPU := by
  induction hk : e - p using Nat.strong_induction_on generalizing p st with
  | _ k ih =>
    by_cases hp : p < e
    · obtain ⟨hismp, hlt, hcpu⟩ := turn_known st (h p (.here hp))
      have hnext : Known m e (turn m st p).2 := fun q hq => h q (.later hp (turn_snd ▸ hq))
      obtain ⟨fuel, st', hw, hi, hc⟩ := ih _ (by omega) _ hnext (hcpu hst) rfl
      exact ⟨fuel + 1, st', by rw [walk, if_pos hp, hw], hi.trans hismp, hc⟩
    · exact ⟨1, st, if_neg hp, rfl, hst⟩

/-- It does not end if it comes to another one. -/
theorem walk_unknown (h : Entry m e p q) (hq : ¬ (m q).toNat ≤ 4) (fuel : Nat) : walk m e fuel st p = none := by
  induction h generalizing fuel st with
  | here hp =>
    induction fuel generalizing st with
    | zero => rfl
    | succ fuel ih => rw [walk, if_pos hp, turn_unknown hq, ih]
  | later hp _ ih =>
    cases fuel with
    | zero => rfl
    | succ fuel => rw [walk, if_pos hp, turn_snd, ih hq]

/-- **With known entries only, `mpinit` gets through the table**: it has recorded at most `NCPU` processors and finds the
machine suitable. With any other entry the loop never ends. -/
theorem mpinit_ends (m : Mem) (inb : Nat → UInt8) (mp conf : Nat) (hconf : mpconfig m = some (mp, conf)) :
    (Known m (conf + Codec.get m (conf + 4) 2) (conf + sizeofMpconf) →
      ∃ fuel st outb, mpinit m inb fuel .boot = some (st, .done outb) ∧ st.ncpu ≤ NCPU) ∧
    (¬ Known m (conf + Codec.get m (conf + 4) 2) (conf + sizeofMpconf) → ∀ fuel, mpinit m inb fuel .boot = none) := by
  simp only [mpinit, hconf]
  constructor
  · intro h
    obtain ⟨fuel, st, hw, hi, hc⟩ :=
      walk_known { State.boot with ismp := true, lapic := Codec.get m (conf + 36) 4 } h (Nat.zero_le _)
    refine ⟨fuel, st, if m (mp + 12) ≠ 0 then [(0x22, 0x70), (0x23, inb 0x23 ||| 1)] else [], ?_, hc⟩
    rw [hw, Option.map_some, show st.ismp = true from hi]
    rfl
  · intro h fuel
    simp only [Known, not_forall] at h
    obtain ⟨q, hq, hun⟩ := h
    rw [walk_unknown hq hun, Option.map_none]

/-- A memory with a table of one entry, of 20 bytes. -/
def image (type : UInt8) : Mem := fun a =>
  if a = 0x40E then 0x50
  else if 0x500 ≤ a ∧ a < 0x510 then [95, 77, 80, 95, 0, 6, 0, 0, 1, 4, 154].getD (a - 0x500) 0
  else if 0x600 ≤ a ∧ a < 0x608 then [80, 67, 77, 80, 64, 0, 4, 140 - type].getD (a - 0x600) 0
  else if a = 0x62C then type
  else 0

/-- One processor. -/
theorem mpinit_ends_one : ∃ fuel st outb,
    mpinit (image 0) (fun _ => 0) fuel .boot = some (st, .done outb) ∧ st.ncpu ≤ NCPU := by
  refine (mpinit_ends (image 0) _ 0x500 0x600 (by decide)).1 fun q hq => ?_
  cases hq with
  | here => decide
  | later _ hq =>
    -- the end of the table
    cases hq with
    | here h => exact absurd h (by decide)
    | later h => exact absurd h (by decide)

/-- An entry of type 5: its checksum, signature and version are good, and `mpinit` does not come to an end. -/
theorem mpinit_hangs : mpconfig (image 5) = some (0x500, 0x600) ∧
    ∀ inb fuel, mpinit (image 5) inb fuel .boot = none := by
  have hconf : mpconfig (image 5) = some (0x500, 0x600) := by decide
  refine ⟨hconf, fun inb fuel => ?_⟩
  simp only [mpinit, hconf]
  rw [walk_unknown (.here (by decide)) (by decide), Option.map_none]

end Xv6.Mp
