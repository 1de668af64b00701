import Mathlib.Data.List.Nodup
import Xv6Threading.Lib.Machine

/-!
# Interrupts and locks (`spinlock.c:24-125`, `proc.c:395-504`)

Any number of CPUs, each with its scheduler, and of kernel threads of processes that the schedulers switch to.

| here | there |
| --- | --- |
| `Cpu.flag` | `FL_IF` of the CPU |
| `Cpu.ncli` | `ncli`, an `int` there: what is proved is about nesting less than 2^31 deep |
| `Sys.lock` | `lk->locked` and `lk->cpu` |
| `Who.sched c` | the thread that `main` runs on CPU `c` and that ends up in `scheduler` |
| `Pc.spin`, `Pc.pop` | in `acquire`, at the `xchg` loop; in `release`, before `popcli` |
| `Pc.off`, `Pc.back` | in `swtch`; after it, before `mycpu()->intena = intena`. A new thread starts at `forkret` |
| `Act.acquire`, `xchg` | `acquire` up to the loop, and an `xchg` that succeeds |
| `Act.release`, `pop` | `release` up to `popcli`, and that |
| `Act.sched`, `restore` | `sched`, and what it does after `swtch` |
| `Act.swtch` | the `swtch` of `scheduler`, which has taken `ptable.lock` and nothing else |
| `Act.flag` | the flag changes outside all nesting: an interrupt comes or returns, `sti` in `scheduler`, user mode |

A call that panics takes no step, nor does an `xchg` that fails. An interrupt between the first two statements of
`pushcli` comes when the flag is set and returns with the flag set, so `pushcli` is one step; what a handler does is
done by the thread it has interrupted.

History: the locks that a CPU has, the calls of `pushcli` and `popcli` on it, the calls of `pushcli` by a thread that
`popcli` or a lock does not account for (`plain`), and the flag before the outermost of them (`before`). A new
thread has made none.
-/

namespace Xv6.Interrupts

open Function

structure Cpu where
  ncli : Nat
  intena : Bool
  flag : Bool
  pushed : Nat
  popped : Nat

namespace Cpu

variable (k : Cpu)

def pushcli : Cpu :=
  { k with
    intena := if k.ncli = 0 then k.flag else k.intena
    flag := false
    ncli := k.ncli + 1
    pushed := k.pushed + 1 }

/-- Both panics are `none`. -/
def popcli : Option Cpu :=
  if k.flag then none
  else if k.ncli = 0 then none
  else some
    { k with
      ncli := k.ncli - 1
      flag := decide (k.ncli - 1 = 0) && k.intena
      popped := k.popped + 1 }

/-- `holding` reads the lock between a `pushcli` and a `popcli`. -/
def holding : Option Cpu := k.pushcli.popcli

end Cpu

inductive Pc (Lk : Type) where
  | run
  | spin (lk : Lk)
  | pop
  | off (intena : Option Bool)
  | back (intena : Bool)

inductive Who (ι T : Type) where
  | proc (t : T)
  | sched (c : ι)
deriving DecidableEq

structure Thread (Lk : Type) where
  pc : Pc Lk
  plain : Nat
  before : Option Bool

structure Sys (ι T Lk : Type) where
  cpu : ι → Cpu
  lock : Lk → Option ι
  held : ι → List Lk
  cur : ι → Who ι T
  thread : Who ι T → Thread Lk

inductive Act (ι T Lk : Type) where
  | pushcli (c : ι)
  | popcli (c : ι)
  | acquire (c : ι) (lk : Lk)
  | xchg (c : ι)
  | release (c : ι) (lk : Lk)
  | pop (c : ι)
  | sched (c : ι)
  | restore (c : ι)
  | swtch (c : ι) (t : T)
  | flag (c : ι) (b : Bool)

variable {ι T Lk : Type}

/-- The flag is remembered for the threads of processes. -/
def Who.mark : Who ι T → Bool → Option Bool
  | .proc _, b => some b
  | .sched _, _ => none

namespace Thread

/-- The thread has called `pushcli` on `k`. -/
def pushed (th : Thread Lk) (w : Who ι T) (k : Cpu) (pc : Pc Lk) : Thread Lk :=
  ⟨pc, th.plain + 1, if k.ncli = 0 then w.mark k.flag else th.before⟩

/-- The thread has called `popcli`, which has left `k`. -/
def popped (th : Thread Lk) (k : Cpu) : Thread Lk :=
  ⟨.run, th.plain - 1, if k.ncli = 0 then none else th.before⟩

end Thread

namespace Sys

variable [DecidableEq ι] [DecidableEq T] [DecidableEq Lk] (s : Sys ι T Lk)

/-- The thread that `c` runs. -/
def who (c : ι) : Thread Lk := s.thread (s.cur c)

/-- What the thread on `c` does to the CPU and to itself. -/
def set (c : ι) (k : Cpu) (th : Thread Lk) : Sys ι T Lk :=
  { s with cpu := update s.cpu c k, thread := update s.thread (s.cur c) th }

def setLock (c : ι) (lk : Lk) (owner : Option ι) (held : List Lk) : Sys ι T Lk :=
  { s with lock := update s.lock lk owner, held := update s.held c held }

/-- `c` goes over from one thread to another. -/
def switch (c : ι) (out : Thread Lk) (w : Who ι T) (th : Thread Lk) : Sys ι T Lk :=
  { s with
    cur := update s.cur c w
    thread := update (update s.thread (s.cur c) out) w th }

def pushcli (c : ι) : Option (Sys ι T Lk) :=
  match (s.who c).pc with
  | .run => some (s.set c (s.cpu c).pushcli ((s.who c).pushed (s.cur c) (s.cpu c) .run))
  | _ => none

/-- There is a `pushcli` for it. -/
def popcli (c : ι) : Option (Sys ι T Lk) :=
  match (s.who c).pc with
  | .run => if 0 < (s.who c).plain then (s.cpu c).popcli.map fun k => s.set c k ((s.who c).popped k) else none
  | _ => none

def acquire (c : ι) (lk : Lk) : Option (Sys ι T Lk) :=
  match (s.who c).pc with
  | .run =>
    if s.lock lk = some c then none
    else (s.cpu c).pushcli.holding.map fun k => s.set c k ((s.who c).pushed (s.cur c) (s.cpu c) (.spin lk))
  | _ => none

def xchg (c : ι) : Option (Sys ι T Lk) :=
  match (s.who c).pc with
  | .spin lk =>
    if s.lock lk = none then
      some ((s.set c (s.cpu c) { s.who c with pc := .run, plain := (s.who c).plain - 1 }).setLock c lk (some c)
        (lk :: s.held c))
    else none
  | _ => none

def release (c : ι) (lk : Lk) : Option (Sys ι T Lk) :=
  match (s.who c).pc with
  | .run =>
    if s.lock lk = some c then
      (s.cpu c).holding.map fun k =>
        (s.set c k { s.who c with pc := .pop, plain := (s.who c).plain + 1 }).setLock c lk none ((s.held c).erase lk)
    else none
  | _ => none

def pop (c : ι) : Option (Sys ι T Lk) :=
  match (s.who c).pc with
  | .pop => (s.cpu c).popcli.map fun k => s.set c k ((s.who c).popped k)
  | _ => none

/-- A process calls it; `p->state` has been changed. -/
def sched (ptable : Lk) (c : ι) : Option (Sys ι T Lk) :=
  match s.cur c, (s.who c).pc with
  | .proc _, .run =>
    if s.lock ptable = some c then
      (s.cpu c).holding.bind fun k =>
        if k.ncli = 1 ∧ k.flag = false then
          some (({ s with cpu := update s.cpu c k } : Sys ι T Lk).switch c
            { s.who c with pc := .off (some k.intena) } (.sched c) { s.thread (.sched c) with pc := .run })
        else none
    else none
  | _, _ => none

def restore (c : ι) : Option (Sys ι T Lk) :=
  match (s.who c).pc with
  | .back i => some (s.set c { s.cpu c with intena := i } { s.who c with pc := .run })
  | _ => none

def swtch (ptable : Lk) (c : ι) (t : T) : Option (Sys ι T Lk) :=
  match s.cur c, (s.who c).pc, (s.thread (.proc t)).pc with
  | .sched _, .run, .off i =>
    if s.lock ptable = some c ∧ (s.cpu c).ncli = 1 then
      some (s.switch c { s.who c with pc := .off none } (.proc t)
        { s.thread (.proc t) with pc := i.elim .run .back })
    else none
  | _, _, _ => none

def setFlag (c : ι) (b : Bool) : Option (Sys ι T Lk) :=
  match (s.who c).pc with
  | .run => if (s.cpu c).ncli = 0 then some (s.set c { s.cpu c with flag := b } (s.who c)) else none
  | _ => none

def step (ptable : Lk) (s : Sys ι T Lk) : Act ι T Lk → Option (Sys ι T Lk)
  | .pushcli c => s.pushcli c
  | .popcli c => s.popcli c
  | .acquire c lk => s.acquire c lk
  | .xchg c => s.xchg c
  | .release c lk => s.release c lk
  | .pop c => s.pop c
  | .sched c => s.sched ptable c
  | .restore c => s.restore c
  | .swtch c t => s.swtch ptable c t
  | .flag c b => s.setFlag c b

end Sys

/-- Every CPU is on its way to `scheduler`, and no process has run. -/
structure Boot (s : Sys ι T Lk) : Prop where
  cpu : ∀ c, (s.cpu c).ncli = 0 ∧ (s.cpu c).pushed = 0 ∧ (s.cpu c).popped = 0
  lock : ∀ lk, s.lock lk = none
  held : ∀ c, s.held c = []
  cur : ∀ c, s.cur c = .sched c
  sched : ∀ c, s.thread (.sched c) = ⟨.run, 0, none⟩
  proc : ∀ t, s.thread (.proc t) = ⟨.off none, 0, none⟩

def machine [DecidableEq ι] [DecidableEq T] [DecidableEq Lk] (ptable : Lk) : Machine (Sys ι T Lk) (Act ι T Lk) where
  init := Boot
  step := Sys.step ptable

/-! ## One CPU -/

/-- The `intena` that belongs to a thread which is on a CPU. -/
def Pc.mine (k : Cpu) : Pc Lk → Bool
  | .back i => i
  | _ => k.intena

/-- It has called `pushcli` on this CPU, or taken over a lock. -/
def Pc.ok (k : Cpu) (plain : Nat) : Pc Lk → Prop
  | .run => True
  | .spin _ | .pop => 0 < plain
  | .off _ => False
  | .back _ => 0 < k.ncli

/-- A CPU that has the locks `l` and runs the thread `th`. -/
structure Good (k : Cpu) (l : List Lk) (th : Thread Lk) : Prop where
  count : k.ncli = l.length + th.plain
  off : 0 < k.ncli → k.flag = false
  calls : k.pushed = k.popped + k.ncli
  pc : th.pc.ok k th.plain
  before : ∀ b, th.before = some b → 0 < k.ncli ∧ th.pc.mine k = b

variable {k k' : Cpu} {l : List Lk} {th : Thread Lk} {w : Who ι T} {lk : Lk}

theorem popcli_eq (hoff : 0 < k.ncli → k.flag = false) (h : 0 < k.ncli) : k.popcli = some
    { k with ncli := k.ncli - 1, flag := decide (k.ncli - 1 = 0) && k.intena, popped := k.popped + 1 } := by
  rw [Cpu.popcli, if_neg (by simp [hoff h]), if_neg (by omega)]

/-- In between, `holding` changes nothing but the numbers of calls. -/
theorem holding_eq (hoff : 0 < k.ncli → k.flag = false) (h : 0 < k.ncli) :
    k.holding = some { k with pushed := k.pushed + 1, popped := k.popped + 1 } := by
  have hn : k.ncli ≠ 0 := by omega
  rw [Cpu.holding, popcli_eq (fun _ => rfl) (Nat.succ_pos _)]
  simp [Cpu.pushcli, hn, hoff h]

namespace Good

section

variable (h : Good k l th)
include h

theorem pushcli (hpc : th.pc = .run) : Good k.pushcli l (th.pushed w k .run) := by
  refine ⟨?_, fun _ => rfl, ?_, trivial, ?_⟩
  · show k.ncli + 1 = l.length + (th.plain + 1)
    rw [h.count]
    omega
  · show k.pushed + 1 = k.popped + (k.ncli + 1)
    rw [h.calls]
    omega
  intro b hb
  refine ⟨Nat.succ_pos _, ?_⟩
  show (if k.ncli = 0 then k.flag else k.intena) = b
  replace hb : (if k.ncli = 0 then w.mark k.flag else th.before) = some b := hb
  split at hb
  next hz =>
    rw [if_pos hz]
    cases w with
    | proc t => exact Option.some.inj hb
    | sched c => cases hb
  next hz =>
    rw [if_neg hz]
    have hmine := (h.before b hb).2
    rwa [hpc] at hmine

/-- `popcli` with a `pushcli` to match succeeds; the outermost one gives the flag back. -/
theorem popcli (hpc : th.pc = .run ∨ th.pc = .pop) (hplain : 0 < th.plain) :
    ∃ k', k.popcli = some k' ∧ Good k' l (th.popped k') ∧ ∀ b, th.before = some b → k'.ncli = 0 → k'.flag = b := by
  have hpos : 0 < k.ncli := by
    rw [h.count]
    omega
  have hmine : th.pc.mine k = k.intena := by
    obtain hpc | hpc := hpc <;> rw [hpc] <;> rfl
  refine ⟨_, popcli_eq h.off hpos, ⟨?_, ?_, ?_, trivial, ?_⟩, ?_⟩
  · show k.ncli - 1 = l.length + (th.plain - 1)
    rw [h.count]
    omega
  · intro hn
    have hne : k.ncli - 1 ≠ 0 := Nat.ne_of_gt hn
    simp [hne]
  · show k.pushed = k.popped + 1 + (k.ncli - 1)
    rw [h.calls]
    omega
  · intro b hb
    replace hb : (if k.ncli - 1 = 0 then none else th.before) = some b := hb
    split at hb
    · cases hb
    rename_i hne
    refine ⟨Nat.pos_of_ne_zero hne, ?_⟩
    show k.intena = b
    rw [← hmine]
    exact (h.before b hb).2
  intro b hb hz
  have hz : k.ncli - 1 = 0 := hz
  have hint : k.intena = b := by
    rw [← hmine]
    exact (h.before b hb).2
  simp [hz, hint]

theorem acquire (hpc : th.pc = .run) (w : Who ι T) (lk : Lk) :
    ∃ k', k.pushcli.holding = some k' ∧
    Good k' l (th.pushed w k (.spin lk)) := by
  have hg := h.pushcli (w := w) hpc
  refine ⟨_, holding_eq hg.off (Nat.succ_pos _), hg.count, hg.off, ?_, Nat.succ_pos _, hg.before⟩
  have hcalls := hg.calls
  simp only at hcalls ⊢
  omega

theorem xchg (hpc : th.pc = .spin lk) : Good k (lk :: l) { th with pc := .run, plain := th.plain - 1 } := by
  have hplain := h.pc
  rw [hpc] at hplain
  replace hplain : 0 < th.plain := hplain
  refine ⟨?_, h.off, h.calls, trivial, ?_⟩
  · rw [h.count, List.length_cons]
    simp only
    omega
  · intro b hb
    have hbefore := h.before b hb
    rwa [hpc] at hbefore

theorem release [DecidableEq Lk] (hpc : th.pc = .run) (hlk : lk ∈ l) :
    ∃ k', k.holding = some k' ∧ Good k' (l.erase lk) { th with pc := .pop, plain := th.plain + 1 } := by
  have hlen := List.length_erase_of_mem hlk
  have hl := List.length_pos_of_mem hlk
  have hcount := h.count
  refine ⟨_, holding_eq h.off (by omega), ?_, h.off, ?_, Nat.succ_pos _, ?_⟩
  · show k.ncli = (l.erase lk).length + (th.plain + 1)
    omega
  · have hcalls := h.calls
    simp only
    omega
  · intro b hb
    have hbefore := h.before b hb
    rwa [hpc] at hbefore

theorem restore {i : Bool} (hpc : th.pc = .back i) : Good { k with intena := i } l { th with pc := .run } := by
  refine ⟨h.count, h.off, h.calls, trivial, ?_⟩
  intro b hb
  have hbefore := h.before b hb
  rwa [hpc] at hbefore

/-- Outside all nesting, nothing is remembered. -/
theorem setFlag (hpc : th.pc = .run) (hz : k.ncli = 0) (b : Bool) : Good { k with flag := b } l th := by
  refine ⟨h.count, fun hpos => ?_, h.calls, ?_, fun b' hb => ?_⟩
  · replace hpos : 0 < k.ncli := hpos
    omega
  · rw [hpc]
    trivial
  · have hpos := (h.before b' hb).1
    omega

/-- Who holds `ptable.lock` with `ncli` 1 has nothing else. -/
theorem plain_eq_zero (hlk : lk ∈ l) (hone : k.ncli = 1) : th.plain = 0 := by
  have hl := List.length_pos_of_mem hlk
  have hcount := h.count
  omega

end

end Good

/-! ## All CPUs -/

/-- A thread that no CPU runs: it is in `swtch`, and has kept its `intena`. -/
structure Away (th : Thread Lk) : Prop where
  plain : th.plain = 0
  pc : ∃ i, th.pc = .off i ∧ ∀ b, th.before = some b → i = some b

structure Inv (s : Sys ι T Lk) : Prop where
  own : ∀ c d, s.cur c = .sched d → d = c
  inj : ∀ c d, s.cur c = s.cur d → c = d
  away : ∀ w, (∀ c, s.cur c ≠ w) → Away (s.thread w)
  good : ∀ c, Good (s.cpu c) (s.held c) (s.who c)
  sched : ∀ c, (s.thread (.sched c)).before = none
  lock : ∀ lk c, s.lock lk = some c ↔ lk ∈ s.held c
  nodup : ∀ c, (s.held c).Nodup

theorem Boot.inv {s : Sys ι T Lk} (h : Boot s) : Inv s := by
  refine ⟨?_, ?_, ?_, ?_, ?_, ?_, ?_⟩
  · intro c d hc
    rw [h.cur c] at hc
    exact (Who.sched.inj hc).symm
  · intro c d hcd
    rw [h.cur c, h.cur d] at hcd
    exact Who.sched.inj hcd
  · intro w hw
    cases w with
    | proc t =>
      rw [h.proc t]
      exact ⟨rfl, none, rfl, nofun⟩
    | sched c => exact absurd (h.cur c) (hw c)
  · intro c
    obtain ⟨hn, hpush, hpop⟩ := h.cpu c
    rw [h.held c, Sys.who, h.cur c, h.sched c]
    exact ⟨by simp [hn], by simp [hn], by omega, trivial, nofun⟩
  · intro c
    rw [h.sched c]
  · intro lk c
    rw [h.lock lk, h.held c]
    simp
  · intro c
    rw [h.held c]
    exact List.nodup_nil

section

variable {s s' : Sys ι T Lk} {c : ι} {out : Thread Lk}

theorem Inv.who_before (h : Inv s) {d : ι} (hd : s.cur c = .sched d) : (s.who c).before = none := by
  rw [Sys.who, hd]
  exact h.sched d

/-- The thread that has called `pushcli` remembers something if it is one of a process. -/
theorem Inv.pushed_before (h : Inv s) (pc : Pc Lk) (d : ι) (hd : s.cur c = .sched d) :
    ((s.who c).pushed (s.cur c) (s.cpu c) pc).before = none := by
  show (if (s.cpu c).ncli = 0 then (s.cur c).mark (s.cpu c).flag else (s.who c).before) = none
  rw [h.who_before hd, hd]
  split <;> rfl

theorem Inv.popped_before (h : Inv s) (k : Cpu) (d : ι) (hd : s.cur c = .sched d) : ((s.who c).popped k).before = none := by
  show (if k.ncli = 0 then none else (s.who c).before) = none
  rw [h.who_before hd]
  split <;> rfl

variable [DecidableEq ι] [DecidableEq T]

section

variable (h : Inv s)
include h

/-- The thread on `c` takes a step and remembers nothing if it is a scheduler. -/
theorem Inv.act {m : Lk → Option ι} (hgood : Good k l th) (hsched : ∀ d, s.cur c = .sched d → th.before = none)
    (hlock : ∀ lk d, m lk = some d ↔ lk ∈ update s.held c l d) (hnodup : l.Nodup) :
    Inv { s with
      cpu := update s.cpu c k, held := update s.held c l, lock := m
      thread := update s.thread (s.cur c) th } := by
  refine ⟨h.own, h.inj, ?_, ?_, ?_, hlock, ?_⟩
  · intro w hw
    show Away (update s.thread (s.cur c) th w)
    rw [update_of_ne (hw c).symm]
    exact h.away w hw
  · intro d
    show Good (update s.cpu c k d) (update s.held c l d) (update s.thread (s.cur c) th (s.cur d))
    by_cases hd : d = c
    · rw [hd, update_self, update_self, update_self]
      exact hgood
    · rw [update_of_ne hd, update_of_ne hd, update_of_ne fun e => hd (h.inj d c e)]
      exact h.good d
  · refine fun d => (forall_update_iff s.thread fun w x => w = .sched d → x.before = none).2 ⟨hsched d, ?_⟩ _ rfl
    rintro w _ rfl
    exact h.sched d
  · exact (forall_update_iff s.held fun _ x => x.Nodup).2 ⟨hnodup, fun d _ => h.nodup d⟩

theorem Inv.set (hgood : Good k (s.held c) th) (hsched : ∀ d, s.cur c = .sched d → th.before = none) :
    Inv (s.set c k th) := by
  have hact := h.act (c := c) (m := s.lock) hgood hsched (by rw [update_eq_self]; exact h.lock) (h.nodup c)
  rwa [update_eq_self] at hact

/-- `c` goes over to a thread that no CPU runs. -/
theorem Inv.switch (hw : ∀ d, s.cur d ≠ w) (hown : ∀ d, w = .sched d → d = c) (hout : Away out)
    (hin : Good (s.cpu c) (s.held c) th) (hsout : ∀ d, s.cur c = .sched d → out.before = none)
    (hsin : ∀ d, w = .sched d → th.before = none) : Inv (s.switch c out w th) := by
  have hthread : ∀ x, x ≠ w → x ≠ s.cur c → (s.switch c out w th).thread x = s.thread x := by
    intro x hxw hxc
    show update (update s.thread (s.cur c) out) w th x = _
    rw [update_of_ne hxw, update_of_ne hxc]
  have hold : (s.switch c out w th).thread (s.cur c) = out := by
    show update (update s.thread (s.cur c) out) w th (s.cur c) = _
    rw [update_of_ne (hw c), update_self]
  have hnew : (s.switch c out w th).thread w = th := update_self ..
  have hcur : ∀ d, d ≠ c → (s.switch c out w th).cur d = s.cur d := fun d hd => update_of_ne hd _ _
  have hcurc : (s.switch c out w th).cur c = w := update_self ..
  refine ⟨?_, ?_, ?_, ?_, ?_, h.lock, h.nodup⟩
  · intro d e hde
    by_cases hd : d = c
    · rw [hd, hcurc] at hde
      exact (hown e hde).trans hd.symm
    · rw [hcur d hd] at hde
      exact h.own d e hde
  · intro d e hde
    by_cases hd : d = c <;> by_cases he : e = c
    · rw [hd, he]
    · rw [hd, hcurc, hcur e he] at hde
      exact absurd hde.symm (hw e)
    · rw [he, hcurc, hcur d hd] at hde
      exact absurd hde (hw d)
    · rw [hcur d hd, hcur e he] at hde
      exact h.inj d e hde
  · intro x hx
    have hxw : x ≠ w := fun e => hx c (hcurc.trans e.symm)
    by_cases hxc : x = s.cur c
    · rw [hxc, hold]
      exact hout
    rw [hthread x hxw hxc]
    refine h.away x fun d hd => ?_
    by_cases hdc : d = c
    · exact hxc (hdc ▸ hd.symm)
    · exact hx d ((hcur d hdc).trans hd)
  · intro d
    rw [Sys.who]
    by_cases hd : d = c
    · rw [hd, hcurc, hnew]
      exact hin
    · rw [hcur d hd, hthread _ (hw d) fun e => hd (h.inj d c e)]
      exact h.good d
  intro d
  by_cases hdw : .sched d = w
  · rw [hdw, hnew]
    exact hsin d hdw.symm
  by_cases hdc : .sched d = s.cur c
  · rw [hdc, hold]
    exact hsout d hdc.symm
  · rw [hthread _ hdw hdc]
    exact h.sched d

theorem inv_pushcli (hs : s.pushcli c = some s') : Inv s' := by
  unfold Sys.pushcli at hs
  split at hs
  case h_2 => cases hs
  rename_i hpc
  obtain rfl := Option.some.inj hs
  exact h.set ((h.good c).pushcli hpc) (h.pushed_before _)

/-- The outermost `popcli` of a thread gives the flag back. -/
theorem popcli_flag (hs : s.popcli c = some s') :
    Inv s' ∧ ∀ b, (s.who c).before = some b → (s'.cpu c).ncli = 0 → (s'.cpu c).flag = b := by
  unfold Sys.popcli at hs
  split at hs
  case h_2 => cases hs
  rename_i hpc
  split at hs
  case isFalse => cases hs
  obtain ⟨k, hk, hgood, hflag⟩ := (h.good c).popcli (.inl hpc) ‹_›
  rw [hk] at hs
  obtain rfl := Option.some.inj hs
  refine ⟨h.set hgood (h.popped_before k), ?_⟩
  rw [show (s.set c k ((s.who c).popped k)).cpu c = k from update_self ..]
  exact hflag

theorem pop_flag (hs : s.pop c = some s') :
    Inv s' ∧ ∀ b, (s.who c).before = some b → (s'.cpu c).ncli = 0 → (s'.cpu c).flag = b := by
  unfold Sys.pop at hs
  split at hs
  case h_2 => cases hs
  rename_i hpc
  have hplain := (h.good c).pc
  rw [hpc] at hplain
  obtain ⟨k, hk, hgood, hflag⟩ := (h.good c).popcli (.inr hpc) hplain
  rw [hk] at hs
  obtain rfl := Option.some.inj hs
  refine ⟨h.set hgood (h.popped_before k), ?_⟩
  rw [show (s.set c k ((s.who c).popped k)).cpu c = k from update_self ..]
  exact hflag

theorem inv_restore (hs : s.restore c = some s') : Inv s' := by
  unfold Sys.restore at hs
  split at hs
  case h_2 => cases hs
  rename_i i hpc
  obtain rfl := Option.some.inj hs
  exact h.set ((h.good c).restore hpc) fun d hd => h.who_before hd

theorem inv_setFlag {b : Bool} (hs : s.setFlag c b = some s') : Inv s' := by
  unfold Sys.setFlag at hs
  split at hs
  case h_2 => cases hs
  rename_i hpc
  split at hs
  case isFalse => cases hs
  obtain rfl := Option.some.inj hs
  exact h.set ((h.good c).setFlag hpc ‹_› b) fun d hd => h.who_before hd

end

variable {ptable : Lk}

theorem inv_acquire (h : Inv s) (hs : s.acquire c lk = some s') : Inv s' := by
  unfold Sys.acquire at hs
  split at hs
  case h_2 => cases hs
  rename_i hpc
  split at hs
  case isTrue => cases hs
  obtain ⟨k, hk, hgood⟩ := (h.good c).acquire hpc (s.cur c) lk
  rw [hk] at hs
  obtain rfl := Option.some.inj hs
  exact h.set hgood (h.pushed_before _)

theorem inv_sched (h : Inv s) (hs : s.sched ptable c = some s') : Inv s' := by
  unfold Sys.sched at hs
  split at hs
  case h_2 => cases hs
  rename_i t hcur hpc
  split at hs
  case isFalse => cases hs
  rename_i hmine
  have hlk := (h.lock ptable c).1 hmine
  have hg := h.good c
  have hpos : 0 < (s.cpu c).ncli := by
    have := hg.count
    have := List.length_pos_of_mem hlk
    omega
  rw [holding_eq hg.off hpos, Option.bind_some] at hs
  split at hs
  case isFalse => cases hs
  rename_i hone
  obtain ⟨hone, -⟩ := hone
  obtain rfl := Option.some.inj hs
  have hplain := hg.plain_eq_zero hlk hone
  have hw : ∀ d, s.cur d ≠ .sched c := by
    intro d hd
    rw [← h.own d c hd, hcur] at hd
    cases hd
  have hin : Good { s.cpu c with pushed := (s.cpu c).pushed + 1, popped := (s.cpu c).popped + 1 } (s.held c) (s.who c) := by
    refine ⟨hg.count, hg.off, ?_, ?_, hg.before⟩
    · have hcalls := hg.calls
      simp only
      omega
    · rw [hpc]
      trivial
  have hset := h.set hin fun d hd => h.who_before hd
  rw [Sys.set, Sys.who, update_eq_self] at hset
  refine hset.switch hw (fun d hd => (Who.sched.inj hd).symm) ⟨hplain, _, rfl, ?_⟩ ?_ ?_ ?_
  · intro b hb
    have hbefore := (hg.before b hb).2
    rw [hpc] at hbefore
    exact congrArg some hbefore
  · refine ⟨?_, ?_, ?_, trivial, ?_⟩
    all_goals simp only [update_self]
    · have hcount := hg.count
      have hzero := (h.away _ hw).plain
      omega
    · exact hg.off
    · have hcalls := hg.calls
      omega
    · intro b hb
      rw [h.sched c] at hb
      cases hb
  · intro d hd
    rw [hcur] at hd
    cases hd
  · exact fun d _ => h.sched c

theorem inv_swtch {t : T} (h : Inv s) (hs : s.swtch ptable c t = some s') : Inv s' := by
  unfold Sys.swtch at hs
  split at hs
  case h_2 => cases hs
  rename_i d i hcur hpc hoff
  split at hs
  case isFalse => cases hs
  rename_i hmine
  obtain ⟨hmine, hone⟩ := hmine
  obtain rfl := Option.some.inj hs
  have hlk := (h.lock ptable c).1 hmine
  have hg := h.good c
  have hplain := hg.plain_eq_zero hlk hone
  have hw : ∀ d, s.cur d ≠ .proc t := by
    intro d hd
    have hpc := (h.good d).pc
    rw [Sys.who, hd, hoff] at hpc
    exact hpc
  obtain ⟨hzero, i', hpc', hkept⟩ := h.away _ hw
  obtain rfl : i' = i := Pc.off.inj (hpc'.symm.trans hoff)
  refine h.switch hw nofun ⟨hplain, none, rfl, ?_⟩ ?_ (fun d hd => h.who_before hd) nofun
  · intro b hb
    rw [show (s.who c).before = none from h.who_before hcur] at hb
    cases hb
  refine ⟨?_, hg.off, hg.calls, ?_, ?_⟩
  · have hcount := hg.count
    simp only
    omega
  · cases i' with
    | none => trivial
    | some i =>
      show 0 < (s.cpu c).ncli
      omega
  · intro b hb
    obtain rfl := hkept b hb
    exact ⟨by omega, rfl⟩

variable [DecidableEq Lk]

theorem inv_xchg (h : Inv s) (hs : s.xchg c = some s') : Inv s' := by
  unfold Sys.xchg at hs
  split at hs
  case h_2 => cases hs
  rename_i lk hpc
  split at hs
  case isFalse => cases hs
  rename_i hfree
  obtain rfl := Option.some.inj hs
  have hnone : ∀ d, lk ∉ s.held d := by
    intro d hd
    rw [← h.lock lk d, hfree] at hd
    cases hd
  have hact := h.act (c := c) (m := update s.lock lk (some c)) ((h.good c).xchg hpc)
    (fun d hd => h.who_before hd) ?_ (List.nodup_cons.2 ⟨hnone c, h.nodup c⟩)
  · have hcpu := update_eq_self c s.cpu
    simp only [hcpu] at hact
    simpa only [Sys.set, Sys.setLock, hcpu] using hact
  intro lk' d
  by_cases hlk : lk' = lk
  · subst hlk
    rw [update_self]
    by_cases hd : d = c
    · simp [hd]
    · simp [update_of_ne hd, hnone d, Ne.symm hd]
  · rw [update_of_ne hlk, h.lock lk' d]
    by_cases hd : d = c
    · simp [hd, hlk]
    · rw [update_of_ne hd]

theorem inv_release (h : Inv s) (hs : s.release c lk = some s') : Inv s' := by
  unfold Sys.release at hs
  split at hs
  case h_2 => cases hs
  rename_i hpc
  split at hs
  case isFalse => cases hs
  rename_i hmine
  obtain ⟨k, hk, hgood⟩ := (h.good c).release hpc ((h.lock lk c).1 hmine)
  rw [hk] at hs
  obtain rfl := Option.some.inj hs
  refine h.act (c := c) (m := update s.lock lk none) hgood (fun d hd => h.who_before hd) ?_
    ((h.nodup c).erase lk)
  intro lk' d
  by_cases hd : d = c
  · rw [hd, update_self, (h.nodup c).mem_erase_iff, ← h.lock lk' c]
    by_cases hlk : lk' = lk
    · simp [hlk]
    · simp [hlk]
  rw [update_of_ne hd, ← h.lock lk' d]
  by_cases hlk : lk' = lk
  · simp [hlk, hmine, Ne.symm hd]
  · simp [hlk]

theorem inv_reach (h : (machine ptable).Reach s) : Inv s := by
  refine h.inv (I := Inv) (fun s hs => Boot.inv hs) ?_
  intro s a s' h hs
  cases a with
  | pushcli c => exact inv_pushcli h hs
  | popcli c => exact (popcli_flag h hs).1
  | acquire c lk => exact inv_acquire h hs
  | xchg c => exact inv_xchg h hs
  | release c lk => exact inv_release h hs
  | pop c => exact (pop_flag h hs).1
  | sched c => exact inv_sched h hs
  | restore c => exact inv_restore h hs
  | swtch c t => exact inv_swtch h hs
  | flag c b => exact inv_setFlag h hs

/-- **Interrupts follow the nesting of locks.** In every state of every run, on every CPU: interrupts are off when
`ncli > 0`; `ncli` is the number of `pushcli` calls there without a `popcli`, one for each lock that the CPU has and
one for each other call by the thread it runs. When the outermost `popcli` of a thread of a process returns, alone or at
the end of `release`, the flag is what it was before the `pushcli` that matches it, on whichever CPU that was. A
`popcli` that has a `pushcli` to match and the `release` of a lock that the CPU has do not panic. -/
theorem interrupts_follow_nesting (h : (machine (ι := ι) (T := T) ptable).Reach s) :
    (∀ c, 0 < (s.cpu c).ncli → (s.cpu c).flag = false) ∧
      (∀ c, (s.cpu c).pushed = (s.cpu c).popped + (s.cpu c).ncli ∧
        (s.cpu c).ncli = (s.held c).length + (s.who c).plain ∧ (s.held c).Nodup ∧
        ∀ lk, lk ∈ s.held c ↔ s.lock lk = some c) ∧
      (∀ c t b s', s.cur c = .proc t → (s.thread (.proc t)).before = some b → (s'.cpu c).ncli = 0 →
        s.step ptable (.popcli c) = some s' ∨ s.step ptable (.pop c) = some s' → (s'.cpu c).flag = b) ∧
      (∀ c, (s.who c).pc = .run → 0 < (s.who c).plain → (s.step ptable (.popcli c)).isSome) ∧
      ∀ c lk, (s.who c).pc = .run → s.lock lk = some c → ∃ s', s.step ptable (.release c lk) = some s' ∧
        (s'.step ptable (.pop c)).isSome := by
  have hinv := inv_reach h
  refine ⟨fun c => (hinv.good c).off, ?_, ?_, ?_, ?_⟩
  · exact fun c => ⟨(hinv.good c).calls, (hinv.good c).count, hinv.nodup c, fun lk => (hinv.lock lk c).symm⟩
  · intro c t b s' hcur hb hz hs
    have hbefore : (s.who c).before = some b := by
      rw [Sys.who, hcur]
      exact hb
    obtain hs | hs := hs
    · exact (popcli_flag hinv hs).2 b hbefore hz
    · exact (pop_flag hinv hs).2 b hbefore hz
  · intro c hpc hplain
    obtain ⟨k, hk, -⟩ := (hinv.good c).popcli (.inl hpc) hplain
    show (s.popcli c).isSome
    simp [Sys.popcli, hpc, hplain, hk]
  intro c lk hpc hmine
  obtain ⟨k, hk, hgood⟩ := (hinv.good c).release hpc ((hinv.lock lk c).1 hmine)
  obtain ⟨k', hk', -⟩ := hgood.popcli (.inr rfl) (Nat.succ_pos _)
  refine ⟨(s.set c k { s.who c with pc := .pop, plain := (s.who c).plain + 1 }).setLock c lk none
    ((s.held c).erase lk), ?_, ?_⟩
  · simp [Sys.step, Sys.release, hpc, hmine, hk]
  · simp [Sys.step, Sys.pop, Sys.who, Sys.set, Sys.setLock, hk']

end

/-- Two CPUs and one process. -/
def twoCpus : Sys (Fin 2) (Fin 1) (Fin 1) where
  cpu _ := ⟨0, false, true, 0, 0⟩
  lock _ := none
  held _ := []
  cur := .sched
  thread
    | .proc _ => ⟨.off none, 0, none⟩
    | .sched _ => ⟨.run, 0, none⟩

theorem twoCpus_boot : Boot twoCpus := by
  refine ⟨?_, ?_, ?_, ?_, ?_, ?_⟩
  all_goals exact fun _ => by simp [twoCpus]

/-- A process yields on one CPU, where interrupts were on, and goes on on the other, where they were off. -/
theorem interrupts_follow_nesting_yield : ∃ s s' : Sys (Fin 2) (Fin 1) (Fin 1), (machine 0).Reach s ∧
    s.step 0 (.pop 1) = some s' ∧ s.cur 1 = .proc 0 ∧ (s.thread (.proc 0)).before = some true ∧
    (s.cpu 1).flag = false ∧ (s'.cpu 1).ncli = 0 ∧ (s'.cpu 1).flag = true := by
  obtain ⟨s, hs, hp⟩ := Machine.exists_reachBy (M := machine (ι := Fin 2) (T := Fin 1) (0 : Fin 1))
    (G := fun _ _ => True) twoCpus_boot
    [.acquire 0 0, .xchg 0, .swtch 0 0, .release 0 0, .pop 0, .acquire 0 0, .xchg 0, .sched 0, .release 0 0, .pop 0,
      .flag 1 false, .acquire 1 0, .xchg 1, .swtch 1 0, .restore 1, .release 1 0]
    (fun s => s.cur 1 = .proc 0 ∧ (s.thread (.proc 0)).before = some true ∧ (s.cpu 1).flag = false ∧
      (s.step 0 (.pop 1)).map (fun s' => (s'.cpu 1).ncli) = some 0) (by decide)
  obtain ⟨hcur, hbefore, hoff, hpop⟩ := of_decide_eq_true hp
  obtain ⟨s', hs', hz⟩ := Option.map_eq_some_iff.1 hpop
  exact ⟨s, s', hs, hs', hcur, hbefore, hoff, hz,
    (interrupts_follow_nesting hs).2.2.1 1 0 true s' hcur hbefore hz (.inr hs')⟩

/-- Of a process that calls `sched`, the checks of locks and interrupts pass just when it has `ptable.lock` and nothing
else: no other lock goes through a `swtch`, and `sched interruptible` is never the reason of a panic. -/
theorem sched_iff [DecidableEq ι] [DecidableEq T] [DecidableEq Lk] {ptable : Lk} {s : Sys ι T Lk} {c : ι} {t : T}
    (h : (machine ptable).Reach s) (hcur : s.cur c = .proc t) (hpc : (s.who c).pc = .run) :
    (s.step ptable (.sched c)).isSome ↔ s.held c = [ptable] ∧ (s.who c).plain = 0 := by
  have hinv := inv_reach h
  by_cases hlk : s.lock ptable = some c
  · have hg := hinv.good c
    have hcount := hg.count
    have hmem := (hinv.lock ptable c).1 hlk
    have hlen := List.length_pos_of_mem hmem
    have hpos : 0 < (s.cpu c).ncli := by omega
    have hone : (s.cpu c).ncli = 1 ↔ s.held c = [ptable] ∧ (s.who c).plain = 0 := by
      constructor
      · intro hone
        obtain ⟨lk, hl⟩ := List.length_eq_one_iff.1 (show (s.held c).length = 1 by omega)
        have hplain := hg.plain_eq_zero hmem hone
        rw [hl, List.mem_singleton] at hmem
        exact ⟨hmem ▸ hl, hplain⟩
      · rintro ⟨hl, hplain⟩
        rw [hcount, hl, hplain, List.length_singleton]
    simp [Sys.step, Sys.sched, hcur, hpc, hlk, holding_eq hg.off hpos, hg.off hpos, hone]
  · simp only [Sys.step, Sys.sched, hcur, hpc, if_neg hlk]
    refine iff_of_false (by simp) fun ⟨hl, _⟩ => hlk ((hinv.lock ptable c).2 ?_)
    rw [hl]
    exact List.mem_singleton_self ptable

theorem sched_iff_swtch : ∃ s : Sys (Fin 2) (Fin 1) (Fin 1), (machine 0).Reach s ∧ s.held 0 = [0] ∧
    (s.who 0).plain = 0 := by
  obtain ⟨s, hs, hp⟩ := Machine.exists_reachBy (M := machine (ι := Fin 2) (T := Fin 1) (0 : Fin 1))
    (G := fun _ _ => True) twoCpus_boot [.acquire 0 0, .xchg 0, .swtch 0 0]
    (fun s => s.cur 0 = .proc 0 ∧ (s.who 0).pc matches .run ∧ (s.step 0 (.sched 0)).isSome) (by decide)
  obtain ⟨hcur, hrun, hsome⟩ := of_decide_eq_true hp
  have hpc : (s.who 0).pc = .run := by
    split at hrun
    · assumption
    · cases hrun
  exact ⟨s, hs, (sched_iff hs hcur hpc).1 hsome⟩

end Xv6.Interrupts
