import Xv6Threading.Lib.Chain
import Xv6Threading.Log.Calls
import Xv6Threading.Sync.Guarded

/-!
# The disk driver (`ide.c:72-168`)

Any number of processes in `iderw`, the drive, and its interrupts.

| here | there |
| --- | --- |
| `Buf.sector` | the drive and the sector that `idestart` selects; one sector is one block (`ide.c:79-92`) |
| `Disk.cmd` | the command in progress; `IDE_BSY` is that there is one |
| `Disk.port` | what `insl(0x1f0, ..)` reads |
| `transfer` | the drive: it carries the command out and raises one interrupt |
| `Call.rw b x` | `iderw(b)`, where `x` is what the caller has put into the locked buffer |
| `Call.intr` | an interrupt is delivered and `ideintr` is called; it has a place of its own among the processes |
| `Pc.link`, `append` | `ide.c:150-154`; `pp` is `none` for `&idequeue` and `some c` for `&c->qnext` |
| `Pc.check`, `wait` | the tests of `ide.c:157` and `ide.c:161`; `Pc.ret` is the `release` |
| `Pc.panic` | `panic("incorrect blockno")`, which never lets go of the lock |

A call that panics before the lock, since it has nothing to do or there is no such drive, is none. The caller holds
the lock of its buffer, so there is one call for a buffer at a time and nobody else touches the buffer; the cache has
one buffer for a block, and all file system blocks are on one drive.

`busy` and the three lists are history: the buffers in a call, and the requests in the order they were appended,
started and completed. `Irq.taken` is that the interrupt was delivered and its handler has not got the lock yet.
-/

namespace Xv6.Ide

open Function
open Log (NBUF)
open Guarded (Notes Sound)

abbrev FSSIZE : Nat := 1000

structure Buf (β : Type) where
  dev : Nat
  blockno : Nat
  valid : Bool
  dirty : Bool
  data : β

variable {β : Type}

/-- `(b->flags & (B_VALID|B_DIRTY)) == B_VALID`. -/
def Buf.clean (x : Buf β) : Bool := x.valid && !x.dirty

def Buf.sector (x : Buf β) : Nat × Nat := (x.dev % 2, x.blockno)

/-- A write has the data with it. -/
structure Cmd (β : Type) where
  sector : Nat × Nat
  data : Option β

inductive Irq where
  | none
  | raised
  | taken
deriving DecidableEq

structure Disk (β : Type) where
  buf : Fin NBUF → Buf β
  qnext : Fin NBUF → Option (Fin NBUF)
  idequeue : Option (Fin NBUF)
  havedisk1 : Bool
  disk : Nat × Nat → β
  cmd : Option (Cmd β)
  port : β
  irq : Irq
  busy : Fin NBUF → Bool
  appended : List (Fin NBUF)
  started : List (Fin NBUF)
  completed : List (Fin NBUF)

inductive Call (β : Type) where
  | rw (b : Fin NBUF) (x : Buf β)
  | intr

inductive Ret where
  | rw (b : Fin NBUF)
  | intr

inductive Pc where
  | link (b : Fin NBUF)
  | append (b : Fin NBUF) (pp : Option (Fin NBUF))
  | check (b : Fin NBUF)
  | wait (b : Fin NBUF)
  | ret (b : Fin NBUF)
  | intr
  | intrData (b : Fin NBUF)
  | intrWake (b : Fin NBUF)
  | intrNext
  | intrDone
  | panic
deriving DecidableEq

namespace Disk

variable (d : Disk β)

/-- The requests that are appended and not completed. -/
def pending : List (Fin NBUF) := d.appended.drop d.completed.length

/-- `iderw` of `b` begins. -/
def lock (b : Fin NBUF) (x : Buf β) : Disk β :=
  { d with buf := update d.buf b x, busy := update d.busy b true }

/-- `*pp = b`. -/
def append (b : Fin NBUF) (pp : Option (Fin NBUF)) : Disk β :=
  let q := Chain.store d.qnext d.idequeue b pp
  { d with qnext := q.1, idequeue := q.2, appended := d.appended ++ [b] }

def command (b : Fin NBUF) : Cmd β :=
  ⟨(d.buf b).sector, if (d.buf b).dirty then some (d.buf b).data else none⟩

/-- The `outb`s of `idestart`. -/
def issue (b : Fin NBUF) : Disk β := { d with cmd := some (d.command b), started := d.started ++ [b] }

/-- `idestart`, which `self` has called; `idewait(0)` comes first. -/
def idestart (b : Fin NBUF) (self next : Pc) : Effect Pc (Disk β) (Fin NBUF) Ret :=
  if FSSIZE ≤ (d.buf b).blockno then .go d .panic
  else if d.cmd.isSome then .go d self
  else .go (d.issue b) next

/-- The data of a read is fetched, `B_VALID` is set and `B_DIRTY` is cleared. -/
def complete (b : Fin NBUF) : Disk β :=
  let x := d.buf b
  { d with
    buf := update d.buf b { x with data := if x.dirty then x.data else d.port, valid := true, dirty := false }
    completed := d.completed ++ [b] }

def transfer (c : Cmd β) : Disk β :=
  match c.data with
  | some x => { d with disk := update d.disk c.sector x, cmd := none, irq := .raised }
  | none => { d with port := d.disk c.sector, cmd := none, irq := .raised }

/-- Nothing has been asked of the disk. -/
def boot (buf : Fin NBUF → Buf β) (qnext : Fin NBUF → Option (Fin NBUF)) (havedisk1 : Bool) (disk : Nat × Nat → β)
    (port : β) : Disk β :=
  ⟨buf, qnext, none, havedisk1, disk, none, port, .none, fun _ => false, [], [], []⟩

end Disk

def start : Call β → Pc
  | .rw b _ => .link b
  | .intr => .intr

def enter : Call β → Disk β → Option (Disk β)
  | .rw b x, d =>
    if d.busy b = false ∧ x.clean = false ∧ (x.dev = 0 ∨ d.havedisk1 = true) ∧
        ∀ c, d.busy c = true → (d.buf c).sector ≠ x.sector then
      some (d.lock b x)
    else none
  | .intr, d => if d.irq = .raised then some { d with irq := .taken } else none

def code : Pc → Bool → Disk β → Effect Pc (Disk β) (Fin NBUF) Ret
  | .link b, _, d => .go { d with qnext := update d.qnext b none } (.append b none)
  | .append b pp, _, d =>
    match Chain.deref d.qnext d.idequeue pp with
    | some c => .go d (.append b (some c))
    | none => .go (d.append b pp) (.check b)
  | .check b, _, d => if d.idequeue = some b then d.idestart b (.check b) (.wait b) else .go d (.wait b)
  | .wait b, _, d => if (d.buf b).clean then .go d (.ret b) else .sleep b (.wait b)
  | .ret b, _, _ => .done (.rw b)
  | .intr, _, d =>
    match d.idequeue with
    | none => .go { d with irq := .none } .intrDone
    | some b => .go { d with idequeue := d.qnext b, irq := .none } (.intrData b)
  -- idewait(1) waits for the drive; there are no errors
  | .intrData b, _, d =>
    if !(d.buf b).dirty && d.cmd.isSome then .go d (.intrData b) else .go (d.complete b) (.intrWake b)
  | .intrWake b, _, _ => .wakeup b .intrNext
  | .intrNext, _, d =>
    match d.idequeue with
    | none => .go d .intrDone
    | some b => d.idestart b .intrNext .intrDone
  | .intrDone, _, _ => .done .intr
  | .panic, _, d => .go d .panic

def finish : Ret → Disk β → Disk β
  | .rw b, d => { d with busy := update d.busy b false }
  | .intr, d => d

def ide : Guarded (Call β) Pc (Disk β) (Fin NBUF) Ret Unit where
  start := start
  enter := enter
  code := code
  finish := finish
  device _ d := d.cmd.map d.transfer

/-! ## What is true of the queue -/

/-- The requests `q` are pending. -/
structure Queue (d : Disk β) (q : List (Fin NBUF)) : Prop where
  appended : d.appended = d.completed ++ q
  nodup : q.Nodup
  mine : ∀ b ∈ q, d.busy b = true ∧ (d.buf b).clean = false
  sectors : ∀ b c, d.busy b = true → d.busy c = true → (d.buf b).sector = (d.buf c).sector → b = c

structure Idle (d : Disk β) : Prop where
  cmd : d.cmd = none
  irq : d.irq = .none
  started : d.started = d.completed

/-- The drive has done what the request of `b` is for. -/
def Moved (d : Disk β) (b : Fin NBUF) : Prop :=
  if (d.buf b).dirty then d.disk (d.buf b).sector = (d.buf b).data else d.port = d.disk (d.buf b).sector

/-- The request of `b` is started and not completed: the drive is at it, or has done it and the interrupt is due. -/
structure Served (d : Disk β) (b : Fin NBUF) : Prop where
  started : d.started = d.completed ++ [b]
  drive : d.cmd = some (d.command b) ∧ d.irq = .none ∨ d.cmd = none ∧ d.irq ≠ .none ∧ Moved d b

/-- The handler has taken the request of `b` off the queue. -/
structure Popped (d : Disk β) (b : Fin NBUF) : Prop where
  started : d.started = d.completed ++ [b]
  cmd : d.cmd = none
  irq : d.irq = .none
  moved : Moved d b

def Serves (d : Disk β) : List (Fin NBUF) → Prop
  | [] => Idle d
  | b :: _ => Served d b

structure Runs (d : Disk β) (q : List (Fin NBUF)) : Prop extends Queue d q where
  chain : Chain d.qnext d.idequeue q
  serves : Serves d q

structure Synced (d : Disk β) (b : Fin NBUF) : Prop where
  valid : (d.buf b).valid = true
  dirty : (d.buf b).dirty = false
  data : d.disk (d.buf b).sector = (d.buf b).data

/-- A call that has not appended its request. -/
structure Fresh (d : Disk β) (b : Fin NBUF) : Prop where
  busy : d.busy b = true
  todo : (d.buf b).clean = false
  out : b ∉ d.pending

/-- A call that has. -/
structure Waits (d : Disk β) (b : Fin NBUF) : Prop where
  busy : d.busy b = true
  synced : b ∉ d.pending → Synced d b ∧ ∀ c, d.cmd = some c → c.sector ≠ (d.buf b).sector

def Pc.at : Pc → Disk β → Prop
  | .link b, d => (∃ q, Runs d q) ∧ Fresh d b
  | .append b pp, d => ∃ l₁ l₂, Runs d (l₁ ++ l₂) ∧ pp = l₁.getLast? ∧ Fresh d b ∧ d.qnext b = none
  | .check b, d => ∃ q, Queue d (q ++ [b]) ∧ Chain d.qnext d.idequeue (q ++ [b]) ∧ Serves d q
  | .wait b, d => (∃ q, Runs d q) ∧ Waits d b
  | .ret b, d => (∃ q, Runs d q) ∧ Waits d b ∧ b ∉ d.pending
  | .intr, d => (∃ q, Runs d q) ∧ d.irq = .taken
  | .intrData b, d => ∃ q, Queue d (b :: q) ∧ Chain d.qnext d.idequeue q ∧ Popped d b
  | .intrWake _, d | .intrNext, d => ∃ q, Queue d q ∧ Chain d.qnext d.idequeue q ∧ Idle d
  | .intrDone, d => ∃ q, Runs d q
  | .panic, d => ∃ q, Queue d q ∧ Idle d

/-- The buffer of the call; the handler has the interrupt. -/
def Pc.tok : Pc → Option (Option (Fin NBUF))
  | .link b | .append b _ | .check b | .wait b | .ret b => some (some b)
  | .intr => some none
  | _ => none

def Pc.own : Pc → Disk β → Prop
  | .link b, d => Fresh d b
  | .wait b, d => Waits d b
  | .append b _, d | .check b, d | .ret b, d => d.busy b = true
  | .intr, d => d.irq = .taken ∧ d.cmd = none
  | _, _ => True

def notes : Notes Pc (Disk β) (Fin NBUF) (Option (Fin NBUF)) where
  J d := ∃ q, Runs d q
  cond b d := b ∈ d.pending
  At := Pc.at
  -- whose request has just been completed is about to be woken
  Wait l b d := b ∈ d.pending ∨ l = .intrWake b
  tok := Pc.tok
  Own := Pc.own

variable {d d' : Disk β} {b c : Fin NBUF} {q : List (Fin NBUF)} {x : Buf β} {pp : Option (Fin NBUF)} {l : Pc}

theorem Queue.pending_eq (h : Queue d q) : d.pending = q := by
  rw [Disk.pending, h.appended, List.drop_left]

theorem Synced.clean (h : Synced d b) : (d.buf b).clean = true := by
  rw [Buf.clean, h.valid, h.dirty]
  rfl

theorem Served.busy (h : Served d b) : d.irq = .taken → d.cmd = none := by
  intro hirq
  obtain ⟨-, hno⟩ | ⟨hcmd, -⟩ := h.drive
  · rw [hirq] at hno
    cases hno
  · exact hcmd

/-! ## Behind the back of who has the lock -/

/-- Nothing that is claimed of `d` is lost in `d'`. -/
structure Calm (d d' : Disk β) : Prop where
  qnext : d'.qnext = d.qnext
  idequeue : d'.idequeue = d.idequeue
  pending : d'.pending = d.pending
  busy : ∀ b, d.busy b = true → d'.busy b = true
  queue : ∀ q, Queue d q → Queue d' q
  idle : Idle d → Idle d'
  served : ∀ b, d.busy b = true → Served d b → Served d' b
  popped : ∀ b, d.busy b = true → Popped d b → Popped d' b
  fresh : ∀ b, Fresh d b → Fresh d' b
  waits : ∀ b, Waits d b → Waits d' b
  taken : d.irq = .taken → d.cmd = none → d'.irq = .taken ∧ d'.cmd = none

namespace Calm

theorem serves (h : Calm d d') (hq : Queue d q) (hs : Serves d q) : Serves d' q := by
  cases q with
  | nil => exact h.idle hs
  | cons b q => exact h.served b (hq.mine b List.mem_cons_self).1 hs

theorem runs (h : Calm d d') (hr : Runs d q) : Runs d' q := by
  refine ⟨h.queue q hr.toQueue, ?_, h.serves hr.toQueue hr.serves⟩
  rw [h.qnext, h.idequeue]
  exact hr.chain

theorem pc_at (h : Calm d d') (l : Pc) (hat : l.at d) : l.at d' := by
  have hJ : (∃ q, Runs d q) → ∃ q, Runs d' q := fun ⟨q, hq⟩ => ⟨q, h.runs hq⟩
  have hchain : ∀ q, Chain d.qnext d.idequeue q → Chain d'.qnext d'.idequeue q := by
    rw [h.qnext, h.idequeue]
    exact fun _ => id
  cases l with
  | link b => exact ⟨hJ hat.1, h.fresh b hat.2⟩
  | append b pp =>
    obtain ⟨l₁, l₂, hr, hpp, hf, hn⟩ := hat
    exact ⟨l₁, l₂, h.runs hr, hpp, h.fresh b hf, h.qnext ▸ hn⟩
  | check b =>
    obtain ⟨q, hq, hc, hs⟩ := hat
    refine ⟨q, h.queue _ hq, hchain _ hc, ?_⟩
    cases q with
    | nil => exact h.idle hs
    | cons b q => exact h.served b (hq.mine b List.mem_cons_self).1 hs
  | wait b => exact ⟨hJ hat.1, h.waits b hat.2⟩
  | ret b => exact ⟨hJ hat.1, h.waits b hat.2.1, h.pending ▸ hat.2.2⟩
  | intr =>
    obtain ⟨⟨q, hr⟩, hirq⟩ := hat
    have hcmd : d.cmd = none := by
      have hs := hr.serves
      cases q with
      | nil => exact hs.cmd
      | cons b q => exact hs.busy hirq
    exact ⟨⟨q, h.runs hr⟩, (h.taken hirq hcmd).1⟩
  | intrData b =>
    obtain ⟨q, hq, hc, hp⟩ := hat
    exact ⟨q, h.queue _ hq, hchain _ hc, h.popped b (hq.mine b List.mem_cons_self).1 hp⟩
  | intrWake b | intrNext =>
    obtain ⟨q, hq, hc, hi⟩ := hat
    exact ⟨q, h.queue _ hq, hchain _ hc, h.idle hi⟩
  | intrDone => exact hJ hat
  | panic =>
    obtain ⟨q, hq, hi⟩ := hat
    exact ⟨q, h.queue _ hq, h.idle hi⟩

theorem stable (h : Calm d d') : notes.Stable d d' := by
  refine ⟨?_, ?_, h.pc_at, ?_, ?_⟩
  · rintro ⟨q, hq⟩
    exact ⟨q, h.runs hq⟩
  · intro b _ (hb : b ∈ d.pending)
    show b ∈ d'.pending
    rwa [h.pending]
  · rintro l b _ (hb | hl)
    · refine .inl ?_
      rwa [h.pending]
    · exact .inr hl
  intro l hown
  cases l with
  | link b => exact h.fresh b hown
  | wait b => exact h.waits b hown
  | append b _ | check b | ret b => exact h.busy b hown
  | intr => exact h.taken hown.1 hown.2
  | intrData b | intrWake b | intrNext | intrDone | panic => trivial

end Calm

theorem calm_lock (hb : d.busy b = false) (hsec : ∀ c, d.busy c = true → (d.buf c).sector ≠ x.sector) :
    Calm d (d.lock b x) := by
  have hne : ∀ c, d.busy c = true → c ≠ b := by
    rintro c hc rfl
    rw [hb] at hc
    cases hc
  have hbuf : ∀ c, d.busy c = true → (d.lock b x).buf c = d.buf c := fun c hc => update_of_ne (hne c hc) _ _
  have hbusy : ∀ c, d.busy c = true → (d.lock b x).busy c = true := by
    intro c hc
    rw [← hc]
    exact update_of_ne (hne c hc) _ _
  have hmoved : ∀ c, d.busy c = true → Moved d c → Moved (d.lock b x) c := by
    intro c hc hm
    rw [Moved, hbuf c hc]
    exact hm
  have hold : ∀ c, (d.lock b x).busy c = true → c = b ∨ d.busy c = true := by
    intro c hc
    by_cases hcb : c = b
    · exact .inl hcb
    · refine .inr (Eq.trans ?_ hc)
      exact (update_of_ne hcb _ _).symm
  have hself : (d.lock b x).buf b = x := update_self ..
  refine ⟨rfl, rfl, rfl, hbusy, ?_, ?_, ?_, ?_, ?_, ?_, fun hi hc => ⟨hi, hc⟩⟩
  · intro q hq
    refine ⟨hq.appended, hq.nodup, ?_, ?_⟩
    · intro c hc
      obtain ⟨hcb, hcl⟩ := hq.mine c hc
      rw [hbuf c hcb]
      exact ⟨hbusy c hcb, hcl⟩
    intro c e hc he heq
    obtain hcb | hc := hold c hc <;> obtain heb | he := hold e he
    · rw [hcb, heb]
    · rw [hcb, hself, hbuf e he] at heq
      exact absurd heq.symm (hsec e he)
    · rw [heb, hself, hbuf c hc] at heq
      exact absurd heq (hsec c hc)
    · rw [hbuf c hc, hbuf e he] at heq
      exact hq.sectors c e hc he heq
  · exact fun hi => ⟨hi.cmd, hi.irq, hi.started⟩
  · intro c hc hs
    refine ⟨hs.started, ?_⟩
    have hcmd : (d.lock b x).command c = d.command c := by rw [Disk.command, hbuf c hc]; rfl
    rw [hcmd]
    exact hs.drive.imp_right fun ⟨h1, h2, h3⟩ => ⟨h1, h2, hmoved c hc h3⟩
  · exact fun c hc hp => ⟨hp.started, hp.cmd, hp.irq, hmoved c hc hp.moved⟩
  · intro c hf
    refine ⟨hbusy c hf.busy, ?_, hf.out⟩
    rw [hbuf c hf.busy]
    exact hf.todo
  intro c hw
  refine ⟨hbusy c hw.busy, fun hout => ?_⟩
  obtain ⟨hs, hcmd⟩ := hw.synced hout
  rw [hbuf c hw.busy]
  refine ⟨⟨?_, ?_, ?_⟩, hcmd⟩
  all_goals rw [hbuf c hw.busy]
  · exact hs.valid
  · exact hs.dirty
  · exact hs.data

theorem calm_taken (hirq : d.irq = .raised) : Calm d { d with irq := .taken } := by
  have hno : d.irq ≠ .none := by rw [hirq]; nofun
  refine ⟨rfl, rfl, rfl, fun _ => id, ?_, ?_, ?_, ?_, ?_, ?_, fun _ hc => ⟨rfl, hc⟩⟩
  · exact fun q hq => ⟨hq.appended, hq.nodup, hq.mine, hq.sectors⟩
  · exact fun hi => absurd hi.irq hno
  · intro b _ hs
    refine ⟨hs.started, ?_⟩
    obtain ⟨-, h⟩ | ⟨hc, -, hm⟩ := hs.drive
    · exact absurd h hno
    · exact .inr ⟨hc, nofun, hm⟩
  · exact fun b _ hp => absurd hp.irq hno
  · exact fun b hf => ⟨hf.busy, hf.todo, hf.out⟩
  · intro b hw
    refine ⟨hw.busy, fun hout => ?_⟩
    obtain ⟨hs, hc⟩ := hw.synced hout
    exact ⟨⟨hs.valid, hs.dirty, hs.data⟩, hc⟩

section

variable (d : Disk β) (c : Cmd β)

/-- The drive reaches neither the buffers nor the queue. -/
theorem Disk.transfer_eq : d.transfer c =
    { d with disk := (d.transfer c).disk, port := (d.transfer c).port, cmd := none, irq := .raised } := by
  unfold Disk.transfer
  split <;> rfl

theorem Disk.transfer_disk {p : Nat × Nat} (h : c.sector ≠ p) : (d.transfer c).disk p = d.disk p := by
  unfold Disk.transfer
  split
  · exact update_of_ne h.symm _ _
  · rfl

theorem moved_transfer (b : Fin NBUF) : Moved (d.transfer (d.command b)) b := by
  cases hdirty : (d.buf b).dirty <;> simp [Moved, Disk.transfer, Disk.command, hdirty]

end

theorem calm_transfer {c : Cmd β} (hc : d.cmd = some c) : Calm d (d.transfer c) := by
  have hno : d.cmd ≠ none := by rw [hc]; nofun
  have hmoved := moved_transfer d
  have hdisk := fun p => d.transfer_disk c (p := p)
  rw [Disk.transfer_eq]
  refine ⟨rfl, rfl, rfl, fun _ hb => hb, ?_, ?_, ?_, ?_, ?_, ?_, fun _ h => absurd h hno⟩
  · exact fun q hq => ⟨hq.appended, hq.nodup, hq.mine, hq.sectors⟩
  · exact fun hi => absurd hi.cmd hno
  · intro b _ hs
    obtain ⟨hcmd, -⟩ | ⟨hcmd, -⟩ := hs.drive
    · obtain rfl : c = d.command b := Option.some.inj (hc.symm.trans hcmd)
      exact ⟨hs.started, .inr ⟨rfl, nofun, Disk.transfer_eq d _ ▸ hmoved b⟩⟩
    · exact absurd hcmd hno
  · exact fun b _ hp => absurd hp.cmd hno
  · exact fun b hf => ⟨hf.busy, hf.todo, hf.out⟩
  intro b hw
  refine ⟨hw.busy, fun hout => ?_⟩
  obtain ⟨hs, hcmd⟩ := hw.synced hout
  exact ⟨⟨hs.valid, hs.dirty, (hdisk _ (hcmd c hc)).trans hs.data⟩, nofun⟩

/-! ## Under the lock -/

/-- What a call owns is not lost, whatever it is. -/
theorem own_of {m : Pc} (h : m.own d) (hbusy : ∀ b, m.tok = some (some b) → d.busy b = true → d'.busy b = true)
    (hfresh : ∀ b, m.tok = some (some b) → Fresh d b → Fresh d' b) (hwaits : ∀ b, Waits d b → Waits d' b)
    (hirq : m.tok = some none → d.irq = .taken ∧ d.cmd = none → d'.irq = .taken ∧ d'.cmd = none) : m.own d' := by
  cases m with
  | link b => exact hfresh b rfl h
  | wait b => exact hwaits b h
  | append b _ | check b | ret b => exact hbusy b rfl h
  | intr => exact hirq rfl h
  | intrData b | intrWake b | intrNext | intrDone | panic => trivial

theorem Waits.congr (h : Waits d b) (hbuf : d'.buf = d.buf) (hbusy : d'.busy b = true) (hdisk : d'.disk = d.disk)
    (hpending : b ∉ d'.pending → b ∉ d.pending)
    (hcmd : b ∉ d.pending → ∀ c, d'.cmd = some c → d.cmd = some c ∨ c.sector ≠ (d.buf b).sector) : Waits d' b := by
  refine ⟨hbusy, fun hout => ?_⟩
  obtain ⟨hs, hc⟩ := h.synced (hpending hout)
  rw [hbuf]
  refine ⟨⟨hbuf ▸ hs.valid, hbuf ▸ hs.dirty, ?_⟩, ?_⟩
  · rw [hbuf, hdisk]
    exact hs.data
  intro c hc'
  obtain hold | hne := hcmd (hpending hout) c hc'
  · exact hc c hold
  · exact hne

/-- A step that leaves the requests and the drive as they are. -/
theorem after_go {l l' : Pc} (hat : l'.at d') (hl : ∀ b, l ≠ .intrWake b) (hhands : notes.Hands (D := Disk β) l l')
    (hpending : d'.pending = d.pending) (hkeep : notes.Keeps l d d') : notes.After ide l d (.go d' l') := by
  refine ⟨hat, ?_, hhands, hkeep⟩
  rintro b (hb | hb)
  · refine .inl ?_
    rwa [hpending]
  · exact absurd hb (hl b)

theorem keeps_same (l : Pc) : notes.Keeps l d d := fun _ _ => id

/-- `idestart` for the first request. -/
theorem after_idestart {self next : Pc} (hl : ∀ b, self ≠ .intrWake b) (hself : self.at d) (hq : Queue d (b :: q))
    (hidle : Idle d) (hhands : notes.Hands (D := Disk β) self next)
    (hnext : Queue (d.issue b) (b :: q) → Served (d.issue b) b → next.at (d.issue b)) :
    notes.After ide self d (d.idestart b self next) := by
  unfold Disk.idestart
  split
  · exact after_go ⟨_, hq, hidle⟩ hl nofun rfl (keeps_same _)
  split
  · exact after_go hself hl (fun _ => id) rfl (keeps_same _)
  refine after_go (hnext ⟨hq.appended, hq.nodup, hq.mine, hq.sectors⟩ ⟨?_, .inl ⟨rfl, hidle.irq⟩⟩) hl hhands rfl ?_
  · show d.started ++ [b] = d.completed ++ [b]
    rw [hidle.started]
  intro m _ hown
  refine own_of hown (fun _ _ => id) (fun c _ h => ⟨h.busy, h.todo, h.out⟩) ?_ ?_
  · intro c hw
    refine hw.congr rfl hw.busy rfl id fun hout e he => .inr ?_
    obtain rfl := Option.some.inj he
    -- another buffer, hence another block
    intro hsec
    obtain ⟨hb, -⟩ := hq.mine b List.mem_cons_self
    refine hout ?_
    rw [← hq.sectors b c hb hw.busy hsec, hq.pending_eq]
    exact List.mem_cons_self
  · intro _ ⟨hirq, _⟩
    rw [hidle.irq] at hirq
    cases hirq

theorem queue_append {p : Option (Fin NBUF)} (hq : Queue d q) (hb : Fresh d b) : Queue (d.append b p) (q ++ [b]) := by
  have hout : b ∉ q := hq.pending_eq ▸ hb.out
  refine ⟨?_, ?_, ?_, hq.sectors⟩
  · show d.appended ++ [b] = d.completed ++ (q ++ [b])
    rw [hq.appended, List.append_assoc]
  · exact List.nodup_append.2 ⟨hq.nodup, List.nodup_singleton b, by
      rintro x hx y hy rfl
      exact hout (List.mem_singleton.1 hy ▸ hx)⟩
  intro c hc
  obtain hc | hc := List.mem_append.1 hc
  · exact hq.mine c hc
  · rw [List.mem_singleton.1 hc]
    exact ⟨hb.busy, hb.todo⟩

theorem serves_append (h : Serves d q) : Serves (d.append b pp) q := by
  cases q with
  | nil => exact ⟨h.cmd, h.irq, h.started⟩
  | cons c q => exact ⟨h.started, h.drive⟩

theorem after_append (hat : (Pc.append b pp).at d) (killed : Bool) :
    notes.After ide (.append b pp) d (code (.append b pp) killed d) := by
  obtain ⟨l₁, l₂, hr, rfl, hf, hn⟩ := hat
  have hderef := hr.chain.deref_getLast
  rw [code, hderef]
  cases l₂ with
  | cons c l₂ =>
    refine after_go ⟨l₁ ++ [c], l₂, ?_, ?_, hf, hn⟩ nofun (fun _ => id) rfl (keeps_same _)
    · rw [List.append_assoc]
      exact hr
    · rw [List.getLast?_append]
      rfl
  | nil =>
    rw [List.append_nil] at hr
    have hq := queue_append (p := l₁.getLast?) hr.toQueue hf
    have hout : b ∉ l₁ := hr.pending_eq ▸ hf.out
    refine ⟨⟨l₁, hq, hr.chain.snoc hr.nodup hout hn, serves_append hr.serves⟩, ?_, fun _ => id, ?_⟩
    · rintro c (hc | hc)
      · refine .inl ?_
        rw [hr.pending_eq] at hc
        rw [hq.pending_eq]
        exact List.mem_append_left _ hc
      · cases hc
    intro m hm hown
    refine own_of hown (fun _ _ => id) ?_ ?_ fun _ => id
    · intro c hc h
      refine ⟨h.busy, h.todo, ?_⟩
      have hcb : c ≠ b := by
        rintro rfl
        exact hm _ hc rfl
      have hc := h.out
      rw [hr.pending_eq] at hc
      rw [hq.pending_eq]
      simp [hc, hcb]
    · intro c hw
      refine hw.congr rfl hw.busy rfl ?_ fun _ _ => .inl
      rw [hr.pending_eq, hq.pending_eq]
      exact fun hc hin => hc (List.mem_append_left _ hin)

theorem after_intrData (hat : (Pc.intrData b).at d) (killed : Bool) :
    notes.After ide (.intrData b) d (code (.intrData b) killed d) := by
  obtain ⟨q, hq, hchain, hp⟩ := hat
  obtain ⟨hbq, hnodup⟩ := List.nodup_cons.1 hq.nodup
  obtain ⟨hbusy, -⟩ := hq.mine b List.mem_cons_self
  have hbuf : ∀ c, c ≠ b → (d.complete b).buf c = d.buf c := fun c hc => update_of_ne hc _ _
  have hself : (d.complete b).buf b = { (d.buf b) with
      data := if (d.buf b).dirty then (d.buf b).data else d.port, valid := true, dirty := false } := update_self ..
  have hsector : ∀ c, ((d.complete b).buf c).sector = (d.buf c).sector := by
    intro c
    by_cases hc : c = b
    · rw [hc, hself]
      rfl
    · rw [hbuf c hc]
  have hsync : Synced (d.complete b) b := by
    refine ⟨by rw [hself], by rw [hself], ?_⟩
    rw [hself]
    have hm := hp.moved
    unfold Moved at hm
    split at hm
    next hdirty =>
      rw [if_pos hdirty]
      exact hm
    next hdirty =>
      rw [if_neg hdirty]
      exact hm.symm
  have hq' : Queue (d.complete b) q := by
    refine ⟨?_, hnodup, ?_, ?_⟩
    · show d.appended = d.completed ++ [b] ++ q
      rw [hq.appended, List.append_assoc]
      rfl
    · intro c hc
      have hcb : c ≠ b := fun hcb => hbq (hcb ▸ hc)
      rw [hbuf c hcb]
      exact hq.mine c (List.mem_cons_of_mem b hc)
    · intro c e hc he
      rw [hsector, hsector]
      exact hq.sectors c e hc he
  rw [code]
  split
  · exact after_go ⟨q, hq, hchain, hp⟩ nofun (fun _ => id) rfl (keeps_same _)
  refine ⟨⟨q, hq', hchain, hp.cmd, hp.irq, hp.started⟩, ?_, nofun, ?_⟩
  · rintro c (hc | hc)
    · rw [hq.pending_eq] at hc
      obtain rfl | hc := List.mem_cons.1 hc
      · exact .inr rfl
      · refine .inl ?_
        rwa [hq'.pending_eq]
    · cases hc
  intro m _ hown
  refine own_of hown (fun _ _ => id) ?_ ?_ fun _ => id
  · intro c _ h
    have hc := h.out
    rw [hq.pending_eq, List.mem_cons, not_or] at hc
    refine ⟨h.busy, ?_, ?_⟩
    · rw [hbuf c hc.1]
      exact h.todo
    · rw [hq'.pending_eq]
      exact hc.2
  intro c hw
  refine ⟨hw.busy, fun hout => ?_⟩
  have hcmd : ∀ e, (d.complete b).cmd = some e → e.sector ≠ ((d.complete b).buf c).sector := by
    intro e he
    exact absurd (hp.cmd.symm.trans he) nofun
  refine ⟨?_, hcmd⟩
  by_cases hcb : c = b
  · rwa [hcb]
  rw [hq'.pending_eq] at hout
  obtain ⟨hs, -⟩ := hw.synced (by rw [hq.pending_eq]; simp [hcb, hout])
  refine ⟨?_, ?_, ?_⟩
  all_goals rw [hbuf c hcb]
  · exact hs.valid
  · exact hs.dirty
  · exact hs.data

theorem after_check (hat : (Pc.check b).at d) (killed : Bool) :
    notes.After ide (.check b) d (code (.check b) killed d) := by
  have hat' := hat
  obtain ⟨q, hq, hchain, hs⟩ := hat
  obtain ⟨hbusy, -⟩ := hq.mine b (by simp)
  have hhead := hchain.head_eq
  have hwaits : ∀ d' : Disk β, d'.busy b = true → Queue d' (q ++ [b]) → Waits d' b := by
    intro d' hb hq'
    refine ⟨hb, fun hout => absurd ?_ hout⟩
    rw [hq'.pending_eq]
    simp
  rw [code]
  cases q with
  | nil =>
    rw [if_pos (show d.idequeue = some b from hhead)]
    refine after_idestart nofun hat' hq hs (fun _ => id) fun hq' hserved => ?_
    exact ⟨⟨[b], hq', hchain, hserved⟩, hwaits _ hbusy hq'⟩
  | cons c q =>
    have hcb : c ≠ b := by
      rintro rfl
      exact (List.nodup_cons.1 hq.nodup).1 (by simp)
    rw [if_neg (by rw [hhead]; simpa using hcb)]
    exact after_go ⟨⟨_, hq, hchain, hs⟩, hwaits d hbusy hq⟩ nofun (fun _ => id) rfl (keeps_same _)

theorem after_intr (hat : Pc.intr.at d) (killed : Bool) : notes.After ide .intr d (code .intr killed d) := by
  obtain ⟨⟨q, hr⟩, hirq⟩ := hat
  have hs := hr.serves
  cases q with
  | nil =>
    have hno := hs.irq
    rw [hirq] at hno
    cases hno
  | cons b q =>
    have hcmd := hs.busy hirq
    have hmoved : Moved d b := by
      obtain ⟨hbusy, -⟩ | ⟨-, -, hm⟩ := hs.drive
      · rw [hcmd] at hbusy
        cases hbusy
      · exact hm
    rw [code, hr.chain.1]
    refine after_go ?_ nofun nofun rfl ?_
    · exact ⟨q, ⟨hr.appended, hr.nodup, hr.mine, hr.sectors⟩, hr.chain.2, hs.started, hcmd, rfl, hmoved⟩
    intro m hm hown
    refine own_of hown (fun _ _ => id) (fun c _ h => ⟨h.busy, h.todo, h.out⟩) ?_ ?_
    · exact fun c hw => hw.congr rfl hw.busy rfl id fun _ _ => .inl
    · exact fun htok => absurd rfl (hm none htok)

theorem after_intrNext (hat : Pc.intrNext.at d) (killed : Bool) :
    notes.After ide .intrNext d (code .intrNext killed d) := by
  have hat' := hat
  obtain ⟨q, hq, hchain, hidle⟩ := hat
  rw [code, hchain.head_eq]
  cases q with
  | nil => exact after_go ⟨[], hq, hchain, hidle⟩ nofun nofun rfl (keeps_same _)
  | cons b q => exact after_idestart nofun hat' hq hidle nofun fun hq' hserved => ⟨b :: q, hq', hchain, hserved⟩

theorem after_wait (hat : (Pc.wait b).at d) (killed : Bool) :
    notes.After ide (.wait b) d (code (.wait b) killed d) := by
  obtain ⟨⟨q, hr⟩, hw⟩ := hat
  rw [code]
  split
  next hclean =>
    have hout : b ∉ d.pending := by
      rw [hr.pending_eq]
      intro hb
      rw [(hr.mine b hb).2] at hclean
      cases hclean
    exact after_go ⟨⟨q, hr⟩, hw, hout⟩ nofun (fun _ => id) rfl (keeps_same _)
  next hclean =>
    have hin : b ∈ d.pending := by
      by_contra hout
      exact hclean (hw.synced hout).1.clean
    refine ⟨⟨q, hr⟩, hin, ?_, fun _ => id, hw, ?_⟩
    · rintro c (hc | hc)
      · exact hc
      · cases hc
    · exact fun d' hJ hown => ⟨⟨hJ, hown⟩, fun _ => .inl⟩

theorem after_ret (hat : (Pc.ret b).at d) (killed : Bool) : notes.After ide (.ret b) d (code (.ret b) killed d) := by
  obtain ⟨⟨q, hr⟩, hw, hout⟩ := hat
  rw [hr.pending_eq] at hout
  have hbusy : ∀ c, c ≠ b → (finish (.rw b) d).busy c = d.busy c := fun c hc => update_of_ne hc _ _
  have hsub : ∀ c, (finish (.rw b) d).busy c = true → d.busy c = true := by
    intro c hc
    by_cases hcb : c = b
    · exact hcb ▸ hw.busy
    · rwa [hbusy c hcb] at hc
  refine ⟨⟨q, ⟨⟨hr.appended, hr.nodup, ?_, ?_⟩, hr.chain, ?_⟩⟩, ?_, ?_⟩
  · intro c hc
    have hcb : c ≠ b := fun hcb => hout (hcb ▸ hc)
    rw [show (ide.finish (Ret.rw b) d).busy c = d.busy c from hbusy c hcb]
    exact hr.mine c hc
  · exact fun c e hc he => hr.sectors c e (hsub c hc) (hsub e he)
  · have hs := hr.serves
    cases q with
    | nil => exact ⟨hs.cmd, hs.irq, hs.started⟩
    | cons c q => exact ⟨hs.started, hs.drive⟩
  · rintro c (hc | hc)
    · exact hc
    · cases hc
  intro m hm hown
  have hne : ∀ c, m.tok = some (some c) → c ≠ b := by
    rintro c hc rfl
    exact hm _ hc rfl
  cases m with
  | link c => exact ⟨(hbusy c (hne c rfl)).trans hown.busy, hown.todo, hown.out⟩
  | wait c => exact hown.congr rfl ((hbusy c (hne c rfl)).trans hown.busy) rfl id fun _ _ => .inl
  | append c _ | check c | ret c => exact (hbusy c (hne c rfl)).trans hown
  | intr => exact hown
  | intrData b | intrWake b | intrNext | intrDone | panic => trivial

theorem own_busy (hl : l.tok = some (some b)) (h : l.own d ∨ l.at d) : d.busy b = true := by
  cases l with
  | link c | wait c =>
    obtain rfl := Option.some.inj (Option.some.inj hl)
    exact h.elim (·.busy) (·.2.busy)
  | append c _ =>
    obtain rfl := Option.some.inj (Option.some.inj hl)
    exact h.elim id fun ⟨_, _, _, _, hf, _⟩ => hf.busy
  | check c =>
    obtain rfl := Option.some.inj (Option.some.inj hl)
    exact h.elim id fun ⟨_, hq, _⟩ => (hq.mine c (by simp)).1
  | ret c =>
    obtain rfl := Option.some.inj (Option.some.inj hl)
    exact h.elim id (·.2.1.busy)
  | intr | intrData b | intrWake b | intrNext | intrDone | panic => cases hl

theorem own_taken (hl : l.tok = some none) (h : l.own d ∨ l.at d) : d.irq = .taken := by
  cases l with
  | intr => exact h.elim (·.1) (·.2)
  | link c | wait c | append c _ | check c | ret c | intrData b | intrWake b | intrNext | intrDone | panic => cases hl

/-- In every state, the requests are in order and the command in progress is that of the first one. -/
structure Order (d : Disk β) (q : List (Fin NBUF)) : Prop extends Queue d q where
  started : d.started = d.completed ∨ ∃ b, d.started = d.completed ++ [b] ∧ q.head? = some b
  cmd : ∀ c, d.cmd = some c → ∃ b, d.idequeue = some b ∧ q.head? = some b ∧ d.started = d.completed ++ [b] ∧
    c = d.command b ∧ d.irq = .none

theorem Order.of_idle (hq : Queue d q) (h : Idle d) : Order d q :=
  ⟨hq, .inl h.started, fun _ hc => absurd (h.cmd.symm.trans hc) nofun⟩

theorem Order.of_served (hq : Queue d (b :: q)) (h : Served d b) (hhead : d.idequeue = some b) : Order d (b :: q) := by
  refine ⟨hq, .inr ⟨b, h.started, rfl⟩, fun c hc => ?_⟩
  obtain ⟨hcmd, hirq⟩ | ⟨hcmd, -⟩ := h.drive
  · exact ⟨b, hhead, rfl, h.started, Option.some.inj (hc.symm.trans hcmd), hirq⟩
  · exact absurd (hcmd.symm.trans hc) nofun

theorem Runs.order (h : Runs d q) : Order d q := by
  have hs := h.serves
  cases q with
  | nil => exact .of_idle h.toQueue hs
  | cons b q => exact .of_served h.toQueue hs h.chain.1

theorem Pc.at_order (h : l.at d) : ∃ q, Order d q := by
  cases l with
  | link b | wait b | intr => exact h.1.imp fun _ => Runs.order
  | ret b => exact h.1.imp fun _ => Runs.order
  | append b pp =>
    obtain ⟨l₁, l₂, hr, -⟩ := h
    exact ⟨_, hr.order⟩
  | check b =>
    obtain ⟨q, hq, hchain, hs⟩ := h
    cases q with
    | nil => exact ⟨_, .of_idle hq hs⟩
    | cons c q => exact ⟨_, .of_served hq hs hchain.1⟩
  | intrData b =>
    obtain ⟨q, hq, -, hp⟩ := h
    exact ⟨_, hq, .inr ⟨b, hp.started, rfl⟩, fun _ hc => absurd (hp.cmd.symm.trans hc) nofun⟩
  | intrWake b | intrNext =>
    obtain ⟨q, hq, -, hidle⟩ := h
    exact ⟨q, .of_idle hq hidle⟩
  | intrDone => exact h.imp fun _ => Runs.order
  | panic =>
    obtain ⟨q, hq, hidle⟩ := h
    exact ⟨q, .of_idle hq hidle⟩

theorem known_order (h : notes.Known d) : ∃ q, Order d q :=
  h.elim (fun ⟨q, hr⟩ => ⟨q, hr.order⟩) fun ⟨_, hat⟩ => Pc.at_order hat

theorem notes_sound : Sound (ide (β := β)) notes fun _ _ _ => True := by
  refine ⟨?_, ?_, ?_, ?_⟩
  · intro l killed d _ (hat : l.at d)
    show notes.After ide l d (code l killed d)
    cases l with
    | link b =>
      obtain ⟨⟨q, hr⟩, hf⟩ := hat
      have hout : b ∉ q := hr.pending_eq ▸ hf.out
      refine after_go ⟨[], q, ⟨⟨hr.appended, hr.nodup, hr.mine, hr.sectors⟩, ?_, ?_⟩, rfl,
        ⟨hf.busy, hf.todo, hf.out⟩, update_self ..⟩ nofun (fun _ => id) rfl ?_
      · refine hr.chain.congr fun x hx => update_of_ne ?_ _ _
        rintro rfl
        exact hout hx
      · have hs := hr.serves
        cases q with
        | nil => exact ⟨hs.cmd, hs.irq, hs.started⟩
        | cons c q => exact ⟨hs.started, hs.drive⟩
      · intro m _ hown
        refine own_of hown (fun _ _ => id) (fun c _ h => ⟨h.busy, h.todo, h.out⟩) ?_ fun _ => id
        exact fun c hw => hw.congr rfl hw.busy rfl id fun _ _ => .inl
    | append b pp => exact after_append hat killed
    | check b => exact after_check hat killed
    | wait b => exact after_wait hat killed
    | ret b => exact after_ret hat killed
    | intr => exact after_intr hat killed
    | intrData b => exact after_intrData hat killed
    | intrWake b =>
      refine ⟨hat, ?_, nofun⟩
      rintro c hne (hc | hc)
      · exact .inl hc
      · exact absurd (Pc.intrWake.inj hc).symm hne
    | intrNext => exact after_intrNext hat killed
    | intrDone =>
      refine ⟨hat, ?_, keeps_same _⟩
      rintro c (hc | hc)
      · exact hc
      · cases hc
    | panic => exact after_go hat nofun (fun _ => id) rfl (keeps_same _)
  · intro i
    cases i with
    | rw b x => exact fun d hJ hown => ⟨⟨hJ, hown⟩, fun _ => .inl⟩
    | intr => exact fun d hJ hown => ⟨⟨hJ, hown.1⟩, fun _ => .inl⟩
  · intro i d d' hknown hd
    cases i with
    | rw b x =>
      replace hd : enter (.rw b x) d = some d' := hd
      rw [enter] at hd
      split at hd
      case isFalse => cases hd
      rename_i hok
      obtain ⟨hb, hx, -, hsec⟩ := hok
      obtain rfl := Option.some.inj hd
      have hout : b ∉ d.pending := by
        obtain ⟨q, hq⟩ := known_order hknown
        rw [hq.pending_eq]
        exact fun hin => absurd (hq.mine b hin).1 (by simp [hb])
      refine ⟨(calm_lock hb hsec).stable, ⟨update_self .., ?_, hout⟩, ?_⟩
      · show (update d.buf b x b).clean = false
        rwa [update_self]
      intro k hk m hm
      obtain rfl := Option.some.inj hk
      exact ⟨fun hown => absurd (own_busy hm (.inl hown)) (by simp [hb]),
        fun hat => absurd (own_busy hm (.inr hat)) (by simp [hb])⟩
    | intr =>
      replace hd : enter .intr d = some d' := hd
      rw [enter] at hd
      split at hd
      case isFalse => cases hd
      rename_i hirq
      obtain rfl := Option.some.inj hd
      refine ⟨(calm_taken hirq).stable, ⟨rfl, ?_⟩, ?_⟩
      · obtain ⟨q, ho⟩ := known_order hknown
        refine Option.eq_none_iff_forall_ne_some.2 fun c hc => ?_
        obtain ⟨b, -, -, -, -, hno⟩ := ho.cmd c hc
        rw [hirq] at hno
        cases hno
      · intro k hk m hm
        obtain rfl := Option.some.inj hk
        exact ⟨fun hown => absurd (own_taken hm (.inl hown)) (by simp [hirq]),
          fun hat => absurd (own_taken hm (.inr hat)) (by simp [hirq])⟩
  · intro _ d d' _ hd
    obtain ⟨c, hc, rfl⟩ := Option.map_eq_some_iff.1 hd
    exact (calm_transfer hc).stable

theorem boot_runs (buf : Fin NBUF → Buf β) (qnext : Fin NBUF → Option (Fin NBUF)) (havedisk1 : Bool)
    (disk : Nat × Nat → β) (port : β) : Runs (Disk.boot buf qnext havedisk1 disk port) [] :=
  ⟨⟨rfl, List.nodup_nil, nofun, nofun⟩, rfl, rfl, rfl, rfl⟩

variable {T : Type} [DecidableEq T] {buf : Fin NBUF → Buf β} {qnext : Fin NBUF → Option (Fin NBUF)} {havedisk1 : Bool}
  {disk : Nat × Nat → β} {port : β} {s : Guarded.Sys T Pc (Disk β) (Fin NBUF)}

/-- **The request queue of the disk.** Whatever calls of `iderw` and interrupts come in, the requests are started in the
order in which they were appended, and completed in this order, each one before the next is started; a command in
progress is the one for the head of `idequeue`. When the lock is free, `idequeue` leads through what is not completed,
the first of it is started and its interrupt is to come or due, and who sleeps has its request in the queue. `iderw`
returns with `B_VALID` set and `B_DIRTY` clear, and with the same data in the buffer and on disk. -/
theorem ide_queue (h : (ide.machine T (Disk.boot buf qnext havedisk1 disk port)).Reach s) :
    s.data.appended = s.data.completed ++ s.data.pending ∧
      (s.data.started = s.data.completed ∨
        ∃ b, s.data.started = s.data.completed ++ [b] ∧ s.data.pending.head? = some b) ∧
      (∀ c, s.data.cmd = some c → ∃ b, s.data.idequeue = some b ∧ s.data.pending.head? = some b ∧
        s.data.started = s.data.completed ++ [b] ∧ c = s.data.command b) ∧
      (s.lk = none → Chain s.data.qnext s.data.idequeue s.data.pending ∧
        (∀ b, s.data.idequeue = some b → Served s.data b) ∧ (s.data.idequeue = none → Idle s.data) ∧
        ∀ t b, (s.phase t).awaits = some b → b ∈ s.data.pending) ∧
      ∀ t b, s.phase t = .inside (.ret b) → Synced s.data b := by
  have hinv := notes_sound.inv (T := T) ⟨[], boot_runs buf qnext havedisk1 disk port⟩ (Guarded.Reach.only h)
  obtain ⟨q, ho⟩ := known_order hinv.known
  rw [ho.pending_eq]
  refine ⟨ho.appended, ho.started, ?_, ?_, ?_⟩
  · intro c hc
    obtain ⟨b, hhead, hb, hstarted, hcb, -⟩ := ho.cmd c hc
    exact ⟨b, hhead, hb, hstarted, hcb⟩
  · intro hfree
    obtain ⟨⟨q', hr⟩, hcond⟩ := hinv.free hfree
    obtain rfl : q' = q := hr.pending_eq.symm.trans ho.pending_eq
    have hs := hr.serves
    have hhead := hr.chain.head_eq
    refine ⟨hr.chain, ?_, ?_, ?_⟩
    · intro b hb
      cases q' with
      | nil => exact absurd (hhead.symm.trans hb) nofun
      | cons c q =>
        obtain rfl : c = b := Option.some.inj (hhead.symm.trans hb)
        exact hs
    · intro hb
      cases q' with
      | nil => exact hs
      | cons c q => exact absurd (hhead.symm.trans hb) nofun
    · intro t b hb
      exact hr.pending_eq ▸ hcond t b hb
  · intro t b ht
    have hplace := hinv.place t
    rw [ht] at hplace
    exact (hplace.2.1.synced hplace.2.2).1

/-- Block 3, with 9 on it, is read while block 5 is being written. -/
theorem ide_queue_read : ∃ s, (ide.machine (Fin 3) (Disk.boot (fun _ => ⟨0, 0, false, false, 0⟩) (fun _ => none) false
    (fun p => if p.2 = 3 then 9 else (0 : UInt8)) 0)).Reach s ∧ s.phase 1 = .inside (.ret 4) ∧
      (s.data.buf 4).data = 9 ∧ s.data.completed = [2, 4] ∧ Synced s.data 4 := by
  obtain ⟨s, hs, hp⟩ := Machine.exists_reachBy (M := ide.machine (Fin 3) (Disk.boot (fun _ => ⟨0, 0, false, false, 0⟩)
      (fun _ => none) false (fun p => if p.2 = 3 then 9 else (0 : UInt8)) 0)) (G := fun _ _ => True) rfl
    (.call 0 (.rw 2 ⟨0, 5, false, true, 7⟩) :: List.replicate 8 (.go 0) ++
      .call 1 (.rw 4 ⟨0, 3, false, false, 0⟩) :: List.replicate 9 (.go 1) ++
      .device () :: .call 2 .intr :: List.replicate 9 (.go 2) ++
      .device () :: .call 2 .intr :: List.replicate 9 (.go 2) ++ List.replicate 4 (.go 1))
    (fun s => s.phase 1 = .inside (.ret 4) ∧ (s.data.buf 4).data = 9 ∧ s.data.completed = [2, 4]) (by decide)
  obtain ⟨hphase, hdata, hcompleted⟩ := of_decide_eq_true hp
  exact ⟨s, hs, hphase, hdata, hcompleted, (ide_queue hs).2.2.2.2 1 4 hphase⟩

end Xv6.Ide
