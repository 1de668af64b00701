import Xv6Threading.Lib.Window
import Xv6Threading.Sync.Guarded

/-!
# Pipes (`pipe.c`)

One pipe, and any number of processes that write, read and close it at the same time.

| here | there |
| --- | --- |
| `Pipe` | `struct pipe` without its lock, and three histories |
| `Chan.nread`, `nwrite` | `&p->nread`, `&p->nwrite` |
| `Pc.writeLoop` | the test of the `for` loop of `pipewrite` and, below it, of the `while` loop |
| `Pc.readWait`, `readLoop` | the tests of the two loops of `piperead` |
| `Ret` | `none` for -1; the bytes of a read stand in the buffer of the caller |

`fresh` is not in the source: whether a byte was stored since the last `wakeup(&p->nread)`. The histories are the
bytes stored, the bytes fetched and the bytes returned, each in the order it was done. When both ends are closed the
page is freed; here the pipe stays as it was.
-/

namespace Xv6.Pipes

open Guarded (Notes Sound Only)

abbrev PIPESIZE : Nat := 512

structure Pipe where
  data : Nat → UInt8
  nread : BitVec 32
  nwrite : BitVec 32
  readopen : Bool
  writeopen : Bool
  stored : List UInt8
  fetched : List UInt8
  returned : List UInt8

inductive Chan where
  | nread
  | nwrite
deriving DecidableEq

inductive Call where
  | write (src : List UInt8)
  | read (n : Nat)
  | close (writable : Bool)

inductive Ret where
  | write (n : Option Nat)
  | read (bytes : Option (List UInt8))
  | closed

/-- `rest` is what is left of the `n` bytes to write, `got` what has been read. -/
inductive Pc where
  | writeLoop (fresh : Bool) (n : Nat) (rest : List UInt8)
  | writeSleep (n : Nat) (rest : List UInt8)
  | writeDone (n : Nat)
  | readWait (n : Nat)
  | readLoop (n : Nat) (got : List UInt8)
  | readDone (got : List UInt8)
  | close (writable : Bool)
  | closeWake (writable : Bool)
  | closeDone

namespace Pipe

def full (p : Pipe) : Bool := p.nwrite = p.nread + BitVec.ofNat 32 PIPESIZE
def empty (p : Pipe) : Bool := p.nread = p.nwrite

/-- `p->data[p->nwrite++ % PIPESIZE] = c`. -/
def store (p : Pipe) (c : UInt8) : Pipe :=
  { p with
    data := Function.update p.data (Window.slot PIPESIZE p.nwrite) c
    nwrite := p.nwrite + 1
    stored := p.stored ++ [c] }

/-- `p->data[p->nread % PIPESIZE]`. -/
def next (p : Pipe) : UInt8 := p.data (Window.slot PIPESIZE p.nread)

/-- `p->nread++`. -/
def fetch (p : Pipe) : Pipe := { p with nread := p.nread + 1, fetched := p.fetched ++ [p.next] }

def closeEnd (p : Pipe) (writable : Bool) : Pipe :=
  if writable then { p with writeopen := false } else { p with readopen := false }

/-- `pipealloc` on a page with any bytes on it. -/
def alloc (page : Nat → UInt8) : Pipe := ⟨page, 0, 0, true, true, [], [], []⟩

end Pipe

def start : Call → Pc
  | .write src => .writeLoop false src.length src
  | .read n => .readWait n
  | .close w => .close w

def code : Pc → Bool → Pipe → Effect Pc Pipe Chan Ret
  | .writeLoop _ n [], _, _ => .wakeup .nread (.writeDone n)
  | .writeLoop _ n (c :: cs), killed, p =>
    if p.full then
      if !p.readopen || killed then .done (.write none) else .wakeup .nread (.writeSleep n (c :: cs))
    else .go (p.store c) (.writeLoop true n cs)
  | .writeSleep n rest, _, _ => .sleep .nwrite (.writeLoop false n rest)
  | .writeDone n, _, _ => .done (.write (some n))
  | .readWait n, killed, p =>
    if p.empty && p.writeopen then
      if killed then .done (.read none) else .sleep .nread (.readWait n)
    else .go p (.readLoop n [])
  | .readLoop n got, _, p =>
    if got.length = n ∨ p.empty then .wakeup .nwrite (.readDone got)
    else .go p.fetch (.readLoop n (got ++ [p.next]))
  | .readDone got, _, _ => .done (.read (some got))
  | .close w, _, p => .go (p.closeEnd w) (.closeWake w)
  | .closeWake w, _, _ => .wakeup (if w then .nread else .nwrite) .closeDone
  | .closeDone, _, _ => .done .closed

def finish : Ret → Pipe → Pipe
  | .read (some bytes), p => { p with returned := p.returned ++ bytes }
  | _, p => p

def pipe : Guarded Call Pc Pipe Chan Ret Empty where
  start := start
  enter _ := some
  code := code
  finish := finish
  device := nofun

/-! ## A queue of bytes -/

/-- The bytes of `q` are in the ring and nothing else has been stored and not fetched. -/
structure Fifo (p : Pipe) (q : List UInt8) : Prop where
  window : Window PIPESIZE p.data p.nread q
  nwrite : p.nwrite = p.nread + BitVec.ofNat 32 q.length
  stored : p.stored = p.fetched ++ q

variable {p : Pipe} {q : List UInt8} {c : UInt8}

theorem PIPESIZE_dvd : PIPESIZE ∣ 2 ^ 32 := ⟨2 ^ 23, rfl⟩

namespace Fifo

theorem full_iff (h : Fifo p q) : p.full = true ↔ q.length = PIPESIZE := by
  have hlen : q.length ≤ 512 := h.window.length_le
  rw [Pipe.full, decide_eq_true_eq, h.nwrite, Window.add_inj (by omega) (by decide)]

theorem empty_iff (h : Fifo p q) : p.empty = true ↔ q = [] := by
  have hlen : q.length ≤ 512 := h.window.length_le
  have hinj := Window.add_inj (r := p.nread) (a := q.length) (b := 0) (by omega) (by decide)
  rw [BitVec.add_zero] at hinj
  rw [Pipe.empty, decide_eq_true_eq, eq_comm, h.nwrite, hinj, List.length_eq_zero_iff]

theorem store (h : Fifo p q) (hfull : ¬ p.full = true) : Fifo (p.store c) (q ++ [c]) := by
  have hlt : q.length < PIPESIZE := Nat.lt_of_le_of_ne h.window.length_le (mt h.full_iff.2 hfull)
  refine ⟨?_, ?_, ?_⟩
  · have hpush := h.window.push PIPESIZE_dvd hlt (x := c)
    rwa [← h.nwrite] at hpush
  · show p.nwrite + 1 = p.nread + BitVec.ofNat 32 (q ++ [c]).length
    rw [h.nwrite, List.length_append, List.length_singleton, BitVec.ofNat_add, BitVec.add_assoc]
    rfl
  · show p.stored ++ [c] = p.fetched ++ (q ++ [c])
    rw [h.stored, List.append_assoc]

theorem fetch (h : Fifo p q) (hempty : ¬ p.empty = true) : Fifo p.fetch q.tail := by
  cases q with
  | nil => exact absurd (h.empty_iff.2 rfl) hempty
  | cons x q =>
    have hx : p.next = x := h.window.head
    refine ⟨h.window.pop PIPESIZE_dvd, ?_, ?_⟩
    · show p.nwrite = p.nread + 1 + BitVec.ofNat 32 q.length
      rw [h.nwrite, List.length_cons, Nat.add_comm, BitVec.ofNat_add, BitVec.add_assoc]
      rfl
    · show p.stored = p.fetched ++ [p.next] ++ q
      rw [h.stored, hx, List.append_assoc]
      rfl

theorem closeEnd (h : Fifo p q) (w : Bool) : Fifo (p.closeEnd w) q := by
  cases w <;> exact ⟨h.window, h.nwrite, h.stored⟩

end Fifo

/-- `got` is what has been fetched and not returned. -/
structure Stream (got : List UInt8) (p : Pipe) : Prop where
  fifo : ∃ q, Fifo p q
  returned : p.fetched = p.returned ++ got

/-- The bytes a call has fetched. -/
def Pc.got : Pc → List UInt8
  | .readLoop _ got | .readDone got => got
  | _ => []

/-- Nothing is claimed of the sleepers. -/
def stream : Notes Pc Pipe Chan Empty where
  J := Stream []
  cond _ _ := True
  At l := Stream l.got
  Wait _ _ _ := True
  tok _ := none
  Own _ _ := True

theorem Stream.closeEnd {got : List UInt8} (h : Stream got p) (w : Bool) : Stream got (p.closeEnd w) := by
  obtain ⟨⟨q, hq⟩, hret⟩ := h
  refine ⟨⟨q, hq.closeEnd w⟩, ?_⟩
  cases w <;> exact hret

theorem stream_sound : Sound pipe stream fun _ _ _ => True := by
  have hentry : ∀ l : Pc, l.got = [] → stream.Entry l := by
    intro l hl p hJ _
    refine ⟨?_, fun _ _ => trivial⟩
    show Stream l.got p
    rwa [hl]
  have hgo : ∀ l l' p p', Stream (Pc.got l') p' → stream.After pipe l p (.go p' l') := fun l l' p p' h =>
    ⟨h, fun _ _ => trivial, nofun, fun _ _ => id⟩
  have hwake : ∀ l l' p ch, Stream (Pc.got l') p → stream.After pipe l p (.wakeup ch l') := fun l l' p ch h =>
    ⟨h, fun _ _ _ => trivial, nofun⟩
  have hdone : ∀ l p r, Stream [] (finish r p) → stream.After pipe l p (.done r) := fun l p r h =>
    ⟨h, fun _ _ => trivial, fun _ _ => id⟩
  have hsleep : ∀ l l' p ch, Stream [] p → Pc.got l' = [] → stream.After pipe l p (.sleep ch l') := fun l l' p ch h hl =>
    ⟨h, trivial, fun _ _ => trivial, nofun, trivial, hentry l' hl⟩
  refine ⟨?_, ?_, ?_, nofun⟩
  · intro l b p _ (h : Stream l.got p)
    show stream.After pipe l p (code l b p)
    cases l with
    | writeLoop fresh n rest =>
      cases rest with
      | nil => exact hwake _ _ _ _ h
      | cons c cs =>
        rw [code]
        split
        · split
          · exact hdone _ _ _ h
          · exact hwake _ _ _ _ h
        next hfull =>
          obtain ⟨⟨q, hq⟩, hret⟩ := h
          exact hgo _ _ _ _ ⟨⟨_, hq.store hfull⟩, hret⟩
    | writeSleep n rest => exact hsleep _ _ _ _ h rfl
    | writeDone n => exact hdone _ _ _ h
    | readWait n =>
      rw [code]
      split
      · split
        · exact hdone _ _ _ h
        · exact hsleep _ _ _ _ h rfl
      · exact hgo _ _ _ _ h
    | readLoop n got =>
      rw [code]
      split
      · exact hwake _ _ _ _ h
      rename_i hmore
      obtain ⟨⟨q, hq⟩, hret⟩ := h
      refine hgo _ _ _ _ ⟨⟨_, hq.fetch fun he => hmore (.inr he)⟩, ?_⟩
      show p.fetched ++ [p.next] = p.returned ++ (got ++ [p.next])
      rw [hret, List.append_assoc]
      rfl
    | readDone got =>
      obtain ⟨⟨q, hq⟩, hret⟩ := h
      refine hdone _ _ _ ⟨⟨q, hq.window, hq.nwrite, hq.stored⟩, ?_⟩
      show p.fetched = p.returned ++ got ++ []
      rw [List.append_nil]
      exact hret
    | close w => exact hgo _ _ _ _ (h.closeEnd w)
    | closeWake w => exact hwake _ _ _ _ h
    | closeDone => exact hdone _ _ _ h
  · intro i
    cases i <;> exact hentry _ rfl
  · intro i p p' _ hp
    obtain rfl := Option.some.inj hp
    exact ⟨⟨id, fun _ _ => id, fun _ => id, fun _ _ _ => id, fun _ => id⟩, trivial, nofun⟩

theorem alloc_stream (page : Nat → UInt8) : Stream [] (Pipe.alloc page) := ⟨⟨[], Window.nil, rfl, rfl⟩, rfl⟩

variable {T : Type} [DecidableEq T] {page : Nat → UInt8} {s : Guarded.Sys T Pc Pipe Chan}

/-- **A pipe is a FIFO byte stream.** Whatever writers, readers, closers and killers do, and however often the
counters wrap around: what the reads have returned is a prefix of what the writes have stored, the bytes that are
stored and not fetched stand in the ring, and there are at most `PIPESIZE` of them. All that was fetched has been
returned unless a read is under way, which has the lock. -/
theorem pipe_fifo (h : (pipe.machine T (Pipe.alloc page)).Reach s) :
    s.data.returned <+: s.data.stored ∧
      Window PIPESIZE s.data.data s.data.nread (s.data.stored.drop s.data.fetched.length) ∧
      (s.data.nwrite - s.data.nread).toNat = (s.data.stored.drop s.data.fetched.length).length ∧
      (s.data.nwrite - s.data.nread).toNat ≤ PIPESIZE ∧ s.data.fetched <+: s.data.stored ∧
      (s.lk = none → s.data.returned = s.data.fetched) := by
  have hinv := stream_sound.inv (T := T) (alloc_stream page) (Guarded.Reach.only h)
  have hdata : ∃ got, Stream got s.data := 
    hinv.data (I := fun p => ∃ got, Stream got p) (fun p hp => ⟨_, hp⟩) fun l p hp => ⟨_, hp⟩
  obtain ⟨got, ⟨q, hq⟩, hret⟩ := hdata
  have hlen : q.length ≤ 512 := hq.window.length_le
  have hdrop : s.data.stored.drop s.data.fetched.length = q := by simp [hq.stored]
  have hsub : (s.data.nwrite - s.data.nread).toNat = q.length := by
    rw [hq.nwrite, add_sub_cancel_left, BitVec.toNat_ofNat, Nat.mod_eq_of_lt (by omega)]
  rw [hdrop, hsub]
  refine ⟨?_, hq.window, rfl, hlen, ⟨q, hq.stored.symm⟩, ?_⟩
  · exact ⟨got ++ q, by rw [hq.stored, hret, List.append_assoc]⟩
  intro hfree
  have hall := (hinv.free hfree).1.returned
  rw [List.append_nil] at hall
  exact hall.symm

/-- Two bytes are written and one is read. -/
theorem pipe_fifo_read : ∃ s, (pipe.machine (Fin 2) (Pipe.alloc fun _ => 0)).Reach s ∧ s.data.returned = [7] ∧
    [7] <+: s.data.stored := by
  obtain ⟨s, hs, hp⟩ := Machine.exists_reachBy (M := pipe.machine (Fin 2) (Pipe.alloc fun _ => 0))
    (G := fun _ _ => True) rfl
    (.call 0 (.write [7, 8]) :: List.replicate 8 (.go 0) ++ .call 1 (.read 1) :: List.replicate 8 (.go 1))
    (fun s => s.data.returned = [7]) (by decide)
  have hret : s.data.returned = [7] := of_decide_eq_true hp
  exact ⟨s, hs, hret, hret ▸ (pipe_fifo hs).1⟩

/-! ## Who sleeps -/

def Chan.cond : Chan → Pipe → Prop
  | .nread, p => p.empty = true ∧ p.writeopen = true
  | .nwrite, p => p.full = true ∧ p.readopen = true

/-- While the holder of the lock is at `l`, processes sleep only with this. -/
def Pc.wait : Pc → Chan → Pipe → Prop
  -- a byte has been stored, an end has been closed, bytes have been fetched: the wakeup is still to come
  | .writeLoop true _ _, .nread, _ | .closeWake true, .nread, _ => True
  | .closeWake false, .nwrite, _ | .readLoop _ _, .nwrite, _ => True
  | .writeSleep _ _, .nread, _ | .writeDone _, .nread, _ | .readLoop _ _, .nread, _ => False
  | .readDone _, _, _ => False
  | _, ch, p => ch.cond p

def sleepers : Notes Pc Pipe Chan Empty where
  J _ := True
  cond := Chan.cond
  At
    | .writeSleep _ _, p => p.full = true ∧ p.readopen = true
    | _, _ => True
  Wait := Pc.wait
  tok _ := none
  Own _ _ := True

/-- A write that has stored bytes without a wakeup does not find the pipe full when nobody can read it any more or
its process is killed. -/
def Announced : Pc → Bool → Pipe → Prop
  | .writeLoop true _ (_ :: _), killed, p => p.full = true → p.readopen = true ∧ killed = false
  | _, _, _ => True

instance (l : Pc) (killed : Bool) (p : Pipe) : Decidable (Announced l killed p) := by
  unfold Announced
  split <;> infer_instance

theorem sleepers_sound : Sound pipe sleepers Announced := by
  refine ⟨?_, ?_, ?_, nofun⟩
  · intro l b p hP hat
    show sleepers.After pipe l p (code l b p)
    cases l with
    | writeLoop fresh n rest =>
      have hnwrite : Pc.wait (.writeLoop fresh n rest) .nwrite p = Chan.cond .nwrite p := by cases fresh <;> rfl
      cases rest with
      | nil =>
        refine ⟨trivial, ?_, nofun⟩
        rintro (_ | _) hne hw
        · exact absurd rfl hne
        · exact hnwrite.mp hw
      | cons c cs =>
        rw [code]
        split
        next hfull =>
          split
          next hgive =>
            cases fresh with
            | false => exact ⟨trivial, fun ch => by cases ch <;> exact id, fun _ _ => id⟩
            | true =>
              obtain ⟨hopen, hlive⟩ := hP hfull
              simp [hopen, hlive] at hgive
          next hstay =>
            refine ⟨⟨hfull, by simp_all⟩, ?_, nofun⟩
            rintro (_ | _) hne hw
            · exact absurd rfl hne
            · exact hnwrite.mp hw
        next hfull =>
          refine ⟨trivial, ?_, nofun, fun _ _ => id⟩
          rintro (_ | _) hw
          · trivial
          · exact absurd (hnwrite.mp hw).1 hfull
    | writeSleep n rest =>
      refine ⟨trivial, hat, ?_, nofun, trivial, fun p _ _ => ⟨trivial, fun ch => by cases ch <;> exact id⟩⟩
      rintro (_ | _) hw
      · exact absurd hw id
      · exact hw
    | writeDone n =>
      refine ⟨trivial, ?_, fun _ _ => id⟩
      rintro (_ | _) hw
      · exact absurd hw id
      · exact hw
    | readWait n =>
      have hwait : ∀ ch, Pc.wait (.readWait n) ch p → Chan.cond ch p := fun ch => by cases ch <;> exact id
      rw [code]
      split
      next hempty =>
        rw [Bool.and_eq_true] at hempty
        split
        · exact ⟨trivial, hwait, fun _ _ => id⟩
        · exact ⟨trivial, hempty, hwait, nofun, trivial, fun p _ _ => ⟨trivial, fun ch => by cases ch <;> exact id⟩⟩
      next hmore =>
        refine ⟨trivial, ?_, nofun, fun _ _ => id⟩
        rintro (_ | _) hw
        · exact absurd (hwait .nread hw) (by simpa [Chan.cond] using hmore)
        · trivial
    | readLoop n got =>
      rw [code]
      split
      · refine ⟨trivial, ?_, nofun⟩
        rintro (_ | _) hne hw
        · exact hw
        · exact absurd rfl hne
      · exact ⟨trivial, fun ch => by cases ch <;> exact id, nofun, fun _ _ => id⟩
    | readDone got => exact ⟨trivial, fun ch hw => absurd hw (by cases ch <;> exact id), fun _ _ => id⟩
    | close w =>
      refine ⟨trivial, ?_, nofun, fun _ _ => id⟩
      rintro (_ | _) hw <;> cases w
      · exact hw
      · trivial
      · trivial
      · exact hw
    | closeWake w =>
      refine ⟨trivial, ?_, nofun⟩
      rintro (_ | _) hne hw <;> cases w
      · exact hw
      · exact absurd rfl hne
      · exact absurd rfl hne
      · exact hw
    | closeDone => exact ⟨trivial, fun ch => by cases ch <;> exact id, fun _ _ => id⟩
  · intro i p _ _
    cases i <;> exact ⟨trivial, fun ch h => by cases ch <;> exact h⟩
  · intro i p p' _ hp
    obtain rfl := Option.some.inj hp
    exact ⟨⟨id, fun _ _ => id, fun _ => id, fun _ _ _ => id, fun _ => id⟩, trivial, nofun⟩

/-- **Sleepers on a pipe have a reason.** In every run of writes, reads, closes and kills in which no write gives up
with bytes it has not announced: whenever the lock is free, who sleeps on `&p->nread` finds the pipe empty with its
write end open, and who sleeps on `&p->nwrite` finds it full with its read end open. -/
theorem sleepers_justified (h : (pipe.machine T (Pipe.alloc page)).ReachBy (Only Announced) s) (hfree : s.lk = none) :
    (∀ t l, s.phase t = .asleep .nread l → s.data.empty = true ∧ s.data.writeopen = true) ∧
      ∀ t l, s.phase t = .asleep .nwrite l → s.data.full = true ∧ s.data.readopen = true := by
  have hcond := ((sleepers_sound.inv (T := T) trivial h).free hfree).2
  constructor
  · intro t l ht
    exact hcond t .nread (by rw [ht]; rfl)
  · intro t l ht
    exact hcond t .nwrite (by rw [ht]; rfl)

/-- The one who reads first. -/
def readerAsleep (t : T) : List (Guarded.Label Call T Empty) := .call t (.read 1) :: List.replicate 5 (.go t)

instance (s : Guarded.Sys T Pc Pipe Chan) : ∀ a : Guarded.Label Call T Empty, Decidable (Only Announced s a)
  | .go t =>
    match ht : s.phase t with
    | .inside l => decidable_of_iff (Announced l (s.killed t) s.data) (by simp [Only, ht])
    | .out | .entry _ | .wakeAcquire _ _ | .wakeScan _ _ | .wakeRelease _ | .sleepAcquire _ _ | .sleepRelease _ _
    | .sleepState _ _ | .asleep _ _ | .roused _ | .tidy _ => isTrue (by simp [Only, ht])
  | .call _ _ | .kill _ | .device _ => isTrue trivial

def isAsleepOn (ch : Chan) : Guarded.Phase Pc Chan → Bool
  | .asleep ch' _ => ch' = ch
  | _ => false

theorem isAsleepOn_iff {ch : Chan} {n : Guarded.Phase Pc Chan} : isAsleepOn ch n = true ↔ ∃ l, n = .asleep ch l := by
  cases n <;> simp [isAsleepOn]

/-- A reader sleeps on an empty pipe. -/
theorem sleepers_justified_reader : ∃ s, (pipe.machine (Fin 2) (Pipe.alloc fun _ => 0)).ReachBy (Only Announced) s ∧
    s.lk = none ∧ (∃ l, s.phase 0 = .asleep .nread l) ∧ s.data.empty = true := by
  obtain ⟨s, hs, hp⟩ := Machine.exists_reachBy (M := pipe.machine (Fin 2) (Pipe.alloc fun _ => 0))
    (G := Only Announced) rfl (readerAsleep 0) (fun s => s.lk = none ∧ isAsleepOn .nread (s.phase 0)) (by decide)
  obtain ⟨hfree, hsleep⟩ := of_decide_eq_true hp
  obtain ⟨l, hl⟩ := isAsleepOn_iff.1 hsleep
  exact ⟨s, hs, hfree, ⟨l, hl⟩, ((sleepers_justified hs hfree).1 0 l hl).1⟩

/-- A process is killed as it enters a write of 513 bytes: 512 are stored, and the reader is not woken. -/
theorem reader_not_woken : ∃ s, (pipe.machine (Fin 2) (Pipe.alloc fun _ => 0)).Reach s ∧ s.lk = none ∧
    (∃ l, s.phase 0 = .asleep .nread l) ∧ s.data.empty = false := by
  obtain ⟨s, hs, hp⟩ := Machine.exists_reachBy (M := pipe.machine (Fin 2) (Pipe.alloc fun _ => 0))
    (G := fun _ _ => True) rfl
    (readerAsleep 0 ++ .call 1 (.write (List.replicate 513 7)) :: .kill 1 :: List.replicate 514 (.go 1))
    (fun s => s.lk = none ∧ isAsleepOn .nread (s.phase 0) ∧ s.data.empty = false) (by decide +kernel)
  obtain ⟨hfree, hsleep, hempty⟩ := of_decide_eq_true hp
  exact ⟨s, hs, hfree, isAsleepOn_iff.1 hsleep, hempty⟩

end Xv6.Pipes
