import Xv6Threading.Lib.Window
import Xv6Threading.Sync.Guarded

/-!
# Console input (`console.c:181-271`)

Characters arrive in interrupts and are read by any number of processes.

| here | there |
| --- | --- |
| `Input` | `input`, and the history |
| `Pc.intr` | the loop of `consoleintr`, with the characters that are still to come in this interrupt |
| `Pc.killLine` | the loop for `^U` |
| `Pc.read` | the test of `while(n > 0)` and, below it, of `while(input.r == input.w)` |
| `ctrl` | `C(x)` |

The history is what arrived, what was copied to a reader or consumed as an end of file, and which reads returned 0.
What a terminal should make of it is said apart (`Tty`): which characters are committed, and which are not yet.
-/

namespace Xv6.Console

open Guarded (Notes Sound Only)

abbrev INPUT_BUF : Nat := 128

def ctrl (x : Char) : UInt8 := UInt8.ofNat (x.toNat - '@'.toNat)

abbrev newline : UInt8 := 10
abbrev carriage : UInt8 := 13
abbrev delete : UInt8 := 127

inductive Event where
  | char (c : UInt8)
  | byte (c : UInt8)
  | eof
  | zero
deriving DecidableEq

structure Input where
  buf : Nat → UInt8
  r : BitVec 32
  w : BitVec 32
  e : BitVec 32
  log : List Event

/-! ## What a terminal does -/

/-- All that was committed, how much of it has been taken, and the line that is being edited. -/
structure Tty where
  committed : List UInt8
  taken : Nat
  line : List UInt8

namespace Tty

def unread (t : Tty) : Nat := t.committed.length - t.taken

/-- A character of the line, `\r` being read as `\n`. -/
def type (t : Tty) (c : UInt8) : Tty :=
  if t.unread + t.line.length < INPUT_BUF then
    let c := if c = carriage then newline else c
    let line := t.line ++ [c]
    if c = newline ∨ c = ctrl 'D' ∨ t.unread + line.length = INPUT_BUF then
      { t with committed := t.committed ++ line, line := [] }
    else { t with line := line }
  else t

def char (t : Tty) (c : UInt8) : Tty :=
  if c = ctrl 'P' then t
  else if c = ctrl 'U' then { t with line := [] }
  else if c = ctrl 'H' ∨ c = delete then { t with line := t.line.dropLast }
  else if c = 0 then t
  else t.type c

def step (t : Tty) : Event → Tty
  | .char c => t.char c
  | .byte _ | .eof => { t with taken := t.taken + 1 }
  | .zero => t

end Tty

/-- What the history should have led to. -/
def Input.tty (d : Input) : Tty := d.log.foldl Tty.step ⟨[], 0, []⟩

/-- What has left the buffer, in order. -/
def Input.consumed (d : Input) : List UInt8 := d.log.filterMap fun
  | .byte c => some c
  | .eof => some (ctrl 'D')
  | _ => none

/-- What has been copied to readers, in order. -/
def Input.delivered (d : Input) : List UInt8 := d.log.filterMap fun
  | .byte c => some c
  | _ => none

/-! ## The code -/

inductive Chan where
  | r
deriving DecidableEq

inductive Call where
  | intr (cs : List UInt8)
  | read (n : Nat)

inductive Ret where
  | intr
  | read (target : Nat) (got : Option (List UInt8))

/-- `n` bytes of `target` are left to read, `got` have been. -/
inductive Pc where
  | intr (cs : List UInt8)
  | intrWake (cs : List UInt8)
  | killLine (cs : List UInt8)
  | read (n target : Nat) (got : List UInt8)
  | readDone (target : Nat) (got : List UInt8)

namespace Input

def note (d : Input) (ev : Event) : Input := { d with log := d.log ++ [ev] }

/-- `input.buf[i % INPUT_BUF]`. -/
def charAt (d : Input) (i : BitVec 32) : UInt8 := d.buf (Window.slot INPUT_BUF i)

/-- `input.buf[input.e++ % INPUT_BUF] = c`. -/
def put (d : Input) (c : UInt8) : Input :=
  { d with buf := Function.update d.buf (Window.slot INPUT_BUF d.e) c, e := d.e + 1 }

/-- The default case of `consoleintr`, with the character in the history. -/
def type (d : Input) (c : UInt8) (cs : List UInt8) : Effect Pc Input Chan Ret :=
  if c ≠ 0 ∧ d.e - d.r < BitVec.ofNat 32 INPUT_BUF then
    let c := if c = carriage then newline else c
    let d := d.put c
    if c = newline ∨ c = ctrl 'D' ∨ d.e = d.r + BitVec.ofNat 32 INPUT_BUF then .go { d with w := d.e } (.intrWake cs)
    else .go d (.intr cs)
  else .go d (.intr cs)

end Input

def start : Call → Pc
  | .intr cs => .intr cs
  | .read n => .read n n []

def code : Pc → Bool → Input → Effect Pc Input Chan Ret
  | .intr [], _, _ => .done .intr
  | .intr (c :: cs), _, d =>
    if c = ctrl 'P' then .go (d.note (.char c)) (.intr cs)
    else if c = ctrl 'U' then .go (d.note (.char c)) (.killLine cs)
    else if c = ctrl 'H' ∨ c = delete then
      if d.e ≠ d.w then .go { d.note (.char c) with e := d.e - 1 } (.intr cs) else .go (d.note (.char c)) (.intr cs)
    else (d.note (.char c)).type c cs
  | .intrWake cs, _, _ => .wakeup .r (.intr cs)
  | .killLine cs, _, d =>
    if d.e ≠ d.w ∧ d.charAt (d.e - 1) ≠ newline then .go { d with e := d.e - 1 } (.killLine cs) else .go d (.intr cs)
  | .read n target got, killed, d =>
    if 0 < n then
      if d.r = d.w then
        if killed then .done (.read target none) else .sleep .r (.read n target got)
      else
        let c := d.charAt d.r
        let d := { d with r := d.r + 1 }
        if c = ctrl 'D' then
          if n < target then .go { d with r := d.r - 1 } (.readDone target got)
          else .go (d.note .eof) (.readDone target got)
        else if c = newline then .go (d.note (.byte c)) (.readDone target (got ++ [c]))
        else .go (d.note (.byte c)) (.read (n - 1) target (got ++ [c]))
    else .go d (.readDone target got)
  | .readDone target got, _, _ => .done (.read target (some got))

def finish : Ret → Input → Input
  | .read target (some []), d => if 0 < target then d.note .zero else d
  | _, d => d

def console : Guarded Call Pc Input Chan Ret Empty where
  start := start
  enter _ := some
  code := code
  finish := finish
  device := nofun

/-- Zero, as all static data. -/
def Input.boot : Input := ⟨fun _ => 0, 0, 0, 0, []⟩

/-! ## The ring -/

/-- The committed bytes that are not read, and after them the line. -/
structure Ring (d : Input) (pending line : List UInt8) : Prop where
  window : Window INPUT_BUF d.buf d.r (pending ++ line)
  w : d.w = d.r + BitVec.ofNat 32 pending.length
  e : d.e = d.r + BitVec.ofNat 32 (pending ++ line).length

variable {d : Input} {pending line : List UInt8} {c : UInt8}

theorem INPUT_BUF_dvd : INPUT_BUF ∣ 2 ^ 32 := ⟨2 ^ 25, rfl⟩

theorem ofNat_succ (n : Nat) : BitVec.ofNat 32 (n + 1) = BitVec.ofNat 32 n + 1 := BitVec.ofNat_add n 1

namespace Ring

section

variable (h : Ring d pending line)
include h

theorem log (l : List Event) : Ring { d with log := l } pending line := ⟨h.window, h.w, h.e⟩

theorem length_le : pending.length + line.length ≤ 128 := by
  have := h.window.length_le
  rwa [List.length_append] at this

theorem empty_iff : d.r = d.w ↔ pending = [] := by
  have hlen := h.length_le
  have hinj := Window.add_inj (r := d.r) (a := pending.length) (b := 0) (by omega) (by decide)
  rw [BitVec.add_zero] at hinj
  rw [eq_comm, h.w, hinj, List.length_eq_zero_iff]

theorem blank_iff : d.e = d.w ↔ line = [] := by
  have hlen := h.length_le
  rw [h.e, h.w, Window.add_inj (by rw [List.length_append]; omega) (by omega), List.length_append,
    ← List.length_eq_zero_iff]
  omega

theorem sub_toNat : (d.e - d.r).toNat = pending.length + line.length := by
  have hlen := h.length_le
  rw [h.e, add_sub_cancel_left, BitVec.toNat_ofNat, List.length_append, Nat.mod_eq_of_lt (by omega)]

theorem room_iff : d.e - d.r < BitVec.ofNat 32 INPUT_BUF ↔ pending.length + line.length < INPUT_BUF := by
  rw [BitVec.lt_def, h.sub_toNat]
  rfl

theorem full_iff : d.e = d.r + BitVec.ofNat 32 INPUT_BUF ↔ pending.length + line.length = INPUT_BUF := by
  have hlen := h.length_le
  rw [h.e, Window.add_inj (by rw [List.length_append]; omega) (by decide), List.length_append]

theorem put (hroom : pending.length + line.length < INPUT_BUF) : Ring (d.put c) pending (line ++ [c]) := by
  refine ⟨?_, h.w, ?_⟩
  · have hpush := h.window.push INPUT_BUF_dvd (by rwa [List.length_append]) (x := c)
    rwa [← h.e, List.append_assoc] at hpush
  · show d.e + 1 = d.r + _
    have hlen : (pending ++ (line ++ [c])).length = (pending ++ line).length + 1 := by simp [Nat.add_assoc]
    rw [hlen, ofNat_succ, ← BitVec.add_assoc, ← h.e]

theorem commit : Ring { d with w := d.e } (pending ++ line) [] := by
  refine ⟨?_, h.e, ?_⟩
  · rw [List.append_nil]
    exact h.window
  · rw [List.append_nil]
    exact h.e

end

/-- The last character of the line, and what is left without it. -/
theorem back (h : Ring d pending (line ++ [c])) :
    d.charAt (d.e - 1) = c ∧ Ring { d with e := d.e - 1 } pending line := by
  have he : d.e - 1 = d.r + BitVec.ofNat 32 (pending ++ line).length := by
    have hlen : (pending ++ (line ++ [c])).length = (pending ++ line).length + 1 := by simp [Nat.add_assoc]
    rw [h.e, hlen, ofNat_succ, ← BitVec.add_assoc, add_sub_cancel_right]
  have hwin : Window INPUT_BUF d.buf d.r (pending ++ line ++ [c]) := by
    rw [List.append_assoc]
    exact h.window
  refine ⟨?_, hwin.left, h.w, he⟩
  have hget := hwin.get (pending ++ line).length (by simp)
  rw [Input.charAt, he, Window.slot_add INPUT_BUF_dvd, hget]
  simp

/-- The first byte that is not read is taken. -/
theorem take (h : Ring d (c :: pending) line) : d.charAt d.r = c ∧ Ring { d with r := d.r + 1 } pending line := by
  refine ⟨h.window.head, h.window.pop INPUT_BUF_dvd, ?_, ?_⟩
  · show d.w = d.r + 1 + _
    rw [h.w, List.length_cons, ofNat_succ, BitVec.add_assoc, BitVec.add_comm 1]
  · show d.e = d.r + 1 + _
    rw [h.e, List.cons_append, List.length_cons, ofNat_succ, BitVec.add_assoc, BitVec.add_comm 1]

end Ring

/-! ## The history -/

/-- The ring holds what the terminal should have, and all that has been taken was committed. `line` is the line as
far as it is erased. -/
structure Ok (d : Input) (line : List UInt8) : Prop where
  ring : Ring d (d.tty.committed.drop d.tty.taken) line
  taken_le : d.tty.taken ≤ d.tty.committed.length
  consumed : d.consumed = d.tty.committed.take d.tty.taken
  noEof : ctrl 'D' ∉ d.delivered
  plain : newline ∉ line

/-- All ends of file but `owed` have led to a read that returned 0. -/
def Zeros (d : Input) (owed : Nat) : Prop := d.log.count .zero + owed = d.log.count .eof

variable {d' : Input} {ev : Event}

/-- What the history says depends on the history only. -/
theorem tty_append (h : d'.log = d.log ++ [ev]) : d'.tty = d.tty.step ev := by
  simp [Input.tty, h]

theorem tty_char (h : d'.log = d.log ++ [.char c]) : d'.tty = d.tty.char c := tty_append h

/-- A character has arrived, and `more` was committed with it. -/
theorem Ok.char {line' : List UInt8} (more : List UInt8) (h : Ok d line) (hlog : d'.log = d.log ++ [.char c])
    (hmore : (d.tty.char c).committed = d.tty.committed ++ more) (htaken : (d.tty.char c).taken = d.tty.taken)
    (hring : Ring d' (d.tty.committed.drop d.tty.taken ++ more) line') (hplain : newline ∉ line') : Ok d' line' := by
  have hle := h.taken_le
  have htty := tty_char hlog
  have hcons : d'.consumed = d.consumed := by
    rw [Input.consumed, hlog, List.filterMap_append]
    exact List.append_nil _
  have hdel : d'.delivered = d.delivered := by simp [Input.delivered, hlog]
  refine ⟨?_, ?_, ?_, ?_, hplain⟩
  · rw [htty, hmore, htaken, List.drop_append_of_le_length hle]
    exact hring
  · rw [htty, hmore, htaken, List.length_append]
    omega
  · rw [htty, hmore, htaken, List.take_append_of_le_length hle, hcons, h.consumed]
  · rw [hdel]
    exact h.noEof

/-- A byte was taken: `ev` says by whom. -/
theorem Ok.take {rest : List UInt8} (h : Ok d line)
    (hpend : d.tty.committed.drop d.tty.taken = c :: rest) (hlog : d'.log = d.log ++ [ev]) (hring : Ring d' rest line)
    (hev : ev = .byte c ∧ c ≠ ctrl 'D' ∨ ev = .eof ∧ c = ctrl 'D') : Ok d' line := by
  have hlt : d.tty.taken < d.tty.committed.length := by
    have := congrArg List.length hpend
    rw [List.length_drop, List.length_cons] at this
    omega
  have hget : d.tty.committed[d.tty.taken] = c := by
    rw [List.drop_eq_getElem_cons hlt] at hpend
    exact (List.cons.inj hpend).1
  have hrest : d.tty.committed.drop (d.tty.taken + 1) = rest := by
    rw [List.drop_eq_getElem_cons hlt] at hpend
    exact (List.cons.inj hpend).2
  have htty : d'.tty = { d.tty with taken := d.tty.taken + 1 } := by
    rw [tty_append hlog]
    rcases hev with ⟨rfl, -⟩ | ⟨rfl, -⟩ <;> rfl
  have hcons : d'.consumed = d.consumed ++ [c] := by
    rcases hev with ⟨rfl, -⟩ | ⟨rfl, rfl⟩ <;> rw [Input.consumed, hlog, List.filterMap_append] <;> rfl
  refine ⟨?_, ?_, ?_, ?_, h.plain⟩
  · rw [htty]
    show Ring d' (d.tty.committed.drop (d.tty.taken + 1)) line
    rw [hrest]
    exact hring
  · rw [htty]
    exact hlt
  · rw [htty]
    show d'.consumed = d.tty.committed.take (d.tty.taken + 1)
    rw [hcons, h.consumed, List.take_succ_eq_append_getElem hlt, hget]
  · have hno := h.noEof
    rcases hev with ⟨rfl, hne⟩ | ⟨rfl, -⟩
    · simp only [Input.delivered, hlog, List.filterMap_append, List.mem_append] at hno ⊢
      simpa [Ne.symm hne] using hno
    · simpa [Input.delivered, hlog] using hno

variable {n : Nat} {l : Pc}

theorem Zeros.char (h : Zeros d n) (hlog : d'.log = d.log ++ [.char c]) : Zeros d' n := by
  simpa [Zeros, hlog, List.count_append] using h

theorem Zeros.byte (h : Zeros d n) (hlog : d'.log = d.log ++ [.byte c]) : Zeros d' n := by
  simpa [Zeros, hlog, List.count_append] using h

theorem Zeros.eof (h : Zeros d n) (hlog : d'.log = d.log ++ [.eof]) : Zeros d' (n + 1) := by
  simp only [Zeros, hlog, List.count_append] at h ⊢
  simp
  omega

/-- A read has returned 0. -/
theorem Ok.zero (h : Ok d line) : Ok (d.note .zero) line := by
  have htty : (d.note .zero).tty = d.tty.step .zero := tty_append rfl
  change _ = d.tty at htty
  have hcons : (d.note .zero).consumed = d.consumed := by
    rw [Input.consumed, Input.note, List.filterMap_append]
    exact List.append_nil _
  have hdel : (d.note .zero).delivered = d.delivered := by simp [Input.delivered, Input.note]
  refine ⟨?_, ?_, ?_, ?_, h.plain⟩
  · rw [htty]
    exact h.ring.log _
  · rw [htty]
    exact h.taken_le
  · rw [htty, hcons]
    exact h.consumed
  · rw [hdel]
    exact h.noEof

theorem Zeros.zero (h : Zeros d (n + 1)) : Zeros (d.note .zero) n := by
  simp only [Zeros, Input.note, List.count_append] at h ⊢
  simp
  omega

/-! ## One character -/

structure Rest (d : Input) : Prop where
  ok : Ok d d.tty.line
  zeros : Zeros d 0

namespace Rest

theorem of_char (more line' : List UInt8) (h : Rest d) (hlog : d'.log = d.log ++ [.char c])
    (hc : d.tty.char c = ⟨d.tty.committed ++ more, d.tty.taken, line'⟩)
    (hring : Ring d' (d.tty.committed.drop d.tty.taken ++ more) line') (hplain : newline ∉ line') : Rest d' := by
  refine ⟨?_, h.zeros.char hlog⟩
  rw [tty_char hlog, hc]
  exact h.ok.char _ hlog (by rw [hc]) (by rw [hc]) hring hplain

/-- A character that is dropped, or not one of the line. -/
theorem ignore (h : Rest d) (hc : d.tty.char c = d.tty) : Rest (d.note (.char c)) := by
  refine h.of_char [] d.tty.line rfl ?_ ?_ h.ok.plain
  · rw [hc, List.append_nil]
  · rw [List.append_nil]
    exact h.ok.ring.log _

theorem backspace (h : Rest d) (hc : d.tty.char c = { d.tty with line := d.tty.line.dropLast }) (he : d.e ≠ d.w) :
    Rest { d.note (.char c) with e := d.e - 1 } := by
  have hne : d.tty.line ≠ [] := fun hnil => he (h.ok.ring.blank_iff.2 hnil)
  have hline := List.dropLast_append_getLast hne
  have hring := h.ok.ring
  have hplain := h.ok.plain
  rw [← hline] at hring hplain
  refine h.of_char [] d.tty.line.dropLast rfl ?_ ?_ ?_
  · rw [hc, List.append_nil]
  · rw [List.append_nil]
    exact hring.back.2.log _
  · exact fun hin => hplain (List.mem_append_left _ hin)

/-- A character of the line. -/
theorem put {x : UInt8} (h : Rest d) (hroom : d.tty.unread + d.tty.line.length < INPUT_BUF)
    (hc : d.tty.char c = { d.tty with line := d.tty.line ++ [x] }) (hx : x ≠ newline) :
    Rest ((d.note (.char c)).put x) := by
  have hroom' : (d.tty.committed.drop d.tty.taken).length + d.tty.line.length < INPUT_BUF := by
    rwa [List.length_drop]
  refine h.of_char [] (d.tty.line ++ [x]) rfl ?_ ?_ ?_
  · rw [hc, List.append_nil]
  · rw [List.append_nil]
    exact (h.ok.ring.put hroom').log _
  · have hplain := h.ok.plain
    simp [hplain, Ne.symm hx]

/-- The last character of the line. -/
theorem commit {x : UInt8} (h : Rest d) (hroom : d.tty.unread + d.tty.line.length < INPUT_BUF)
    (hc : d.tty.char c = { d.tty with committed := d.tty.committed ++ (d.tty.line ++ [x]), line := [] }) :
    Rest { (d.note (.char c)).put x with w := ((d.note (.char c)).put x).e } := by
  have hroom' : (d.tty.committed.drop d.tty.taken).length + d.tty.line.length < INPUT_BUF := by
    rwa [List.length_drop]
  refine h.of_char _ _ rfl hc ?_ (by simp)
  exact (h.ok.ring.put hroom' (c := x)).commit.log _

end Rest

/-- What is true of the data at each place. -/
def Pc.at : Pc → Input → Prop
  | .intr _, d | .intrWake _, d => Rest d
  | .killLine _, d => ∃ line, Ok d line ∧ d.tty.line = [] ∧ Zeros d 0
  | .read n target got, d => Rest d ∧ got.length + n = target
  | .readDone target got, d => Ok d d.tty.line ∧ Zeros d (if 0 < target ∧ got = [] then 1 else 0)

def notes : Notes Pc Input Chan Empty where
  J := Rest
  cond _ _ := True
  At := Pc.at
  Wait _ _ _ := True
  tok _ := none
  Own _ _ := True

theorem after_go {l l' : Pc} (h : l'.at d') : notes.After console l d (.go d' l') :=
  ⟨h, fun _ _ => trivial, nofun, fun _ _ => id⟩

/-- The default case. -/
theorem after_type {cs : List UInt8} (h : Rest d) (hc : d.tty.char c = if c = 0 then d.tty else d.tty.type c) :
    notes.After console l d ((d.note (.char c)).type c cs) := by
  have hring := h.ok.ring
  have hunread : (d.tty.committed.drop d.tty.taken).length = d.tty.unread := List.length_drop
  have hroom : d.e - d.r < BitVec.ofNat 32 INPUT_BUF ↔ d.tty.unread + d.tty.line.length < INPUT_BUF := by
    rw [hring.room_iff, hunread]
  unfold Input.type
  by_cases h0 : c = 0
  · rw [if_pos h0] at hc
    rw [if_neg fun hboth => hboth.1 h0]
    exact after_go (h.ignore hc)
  rw [if_neg h0, Tty.type] at hc
  by_cases hfits : d.tty.unread + d.tty.line.length < INPUT_BUF
  · rw [if_pos hfits] at hc
    rw [if_pos ⟨h0, hroom.2 hfits⟩]
    dsimp only at hc ⊢
    generalize (if c = carriage then newline else c) = x at hc ⊢
    have hfull : ((d.note (.char c)).put x).e = ((d.note (.char c)).put x).r + BitVec.ofNat 32 INPUT_BUF ↔
        d.tty.unread + (d.tty.line ++ [x]).length = INPUT_BUF := by
      exact (hring.put (c := x) (by rwa [hunread])).full_iff.trans (by rw [hunread])
    by_cases hend : x = newline ∨ x = ctrl 'D' ∨ d.tty.unread + (d.tty.line ++ [x]).length = INPUT_BUF
    · rw [if_pos hend] at hc
      rw [if_pos (by rwa [hfull])]
      exact after_go (h.commit hfits hc)
    · rw [if_neg hend] at hc
      rw [if_neg (by rwa [hfull])]
      exact after_go (h.put hfits hc fun hx => hend (.inl hx))
  · rw [if_neg hfits] at hc
    rw [if_neg fun hboth => hfits (hroom.1 hboth.2)]
    exact after_go (h.ignore hc)

/-- One byte for a reader. -/
theorem after_read {target : Nat} {got : List UInt8} (h : Rest d) (hn : 0 < n) (hgot : got.length + n = target)
    (hne : d.r ≠ d.w) (b : Bool) (hl : l = .read n target got) : notes.After console l d (code l b d) := by
  have hring := h.ok.ring
  have hpend : d.tty.committed.drop d.tty.taken ≠ [] := fun hnil => hne (hring.empty_iff.2 hnil)
  obtain ⟨c, rest, hcons⟩ := List.exists_cons_of_ne_nil hpend
  rw [hcons] at hring
  obtain ⟨hchar, htake⟩ := hring.take
  subst hl
  rw [code, if_pos hn, if_neg hne]
  dsimp only
  rw [hchar]
  by_cases hD : c = ctrl 'D'
  · rw [if_pos hD]
    by_cases hlt : n < target
    · rw [if_pos hlt]
      have hback : ({ d with r := d.r + 1 - 1 } : Input) = d := by rw [add_sub_cancel_right]
      rw [hback]
      refine after_go ⟨h.ok, ?_⟩
      have hne : got ≠ [] := by
        rintro rfl
        rw [List.length_nil] at hgot
        omega
      rw [if_neg fun hboth => hne hboth.2]
      exact h.zeros
    rw [if_neg hlt]
    have hnil : got = [] := List.length_eq_zero_iff.1 (by omega)
    have htty : (Input.note { d with r := d.r + 1 } .eof).tty.line = d.tty.line := by
      rw [tty_append (d := d) rfl]
      rfl
    refine after_go ⟨?_, ?_⟩
    · rw [htty]
      exact h.ok.take hcons rfl (htake.log _) (.inr ⟨rfl, hD⟩)
    · rw [if_pos ⟨by omega, hnil⟩]
      exact h.zeros.eof rfl
  rw [if_neg hD]
  have hnext : Rest (Input.note { d with r := d.r + 1 } (.byte c)) := by
    refine ⟨?_, h.zeros.byte rfl⟩
    rw [tty_append (d := d) rfl]
    exact h.ok.take hcons rfl (htake.log _) (.inl ⟨rfl, hD⟩)
  by_cases hnl : c = newline
  · rw [if_pos hnl]
    refine after_go ⟨hnext.ok, ?_⟩
    rw [if_neg fun hboth => by simp at hboth]
    exact hnext.zeros
  rw [if_neg hnl]
  refine after_go ⟨hnext, ?_⟩
  rw [List.length_append, List.length_singleton]
  omega

theorem notes_sound : Sound console notes fun _ _ _ => True := by
  have hentry : ∀ n target got, got.length + n = target → notes.Entry (.read n target got) :=
    fun n target got hgot d h _ => ⟨⟨h, hgot⟩, fun _ _ => trivial⟩
  refine ⟨?_, ?_, ?_, nofun⟩
  · intro l b d _ hat
    show notes.After console l d (code l b d)
    cases l with
    | intr cs =>
      have h : Rest d := hat
      cases cs with
      | nil => exact ⟨h, fun _ _ => trivial, fun _ _ => id⟩
      | cons c cs =>
        rw [code]
        split
        next hP =>
          exact after_go (h.ignore (by rw [Tty.char, if_pos hP]))
        rename_i hP
        split
        next hU =>
          have hc : d.tty.char c = { d.tty with line := [] } := by rw [Tty.char, if_neg hP, if_pos hU]
          refine after_go ⟨d.tty.line, ?_, ?_, h.zeros.char rfl⟩
          · refine h.ok.char [] rfl (by simp [hc]) (by rw [hc]) ?_ h.ok.plain
            rw [List.append_nil]
            exact h.ok.ring.log _
          · rw [tty_char (d := d) rfl, hc]
        rename_i hU
        split
        next hH =>
          have hc : d.tty.char c = { d.tty with line := d.tty.line.dropLast } := by
            rw [Tty.char, if_neg hP, if_neg hU, if_pos hH]
          split
          · exact after_go (h.backspace hc ‹_›)
          rename_i he
          have hnil : d.tty.line = [] := h.ok.ring.blank_iff.1 (not_not.1 he)
          refine after_go (h.ignore (hc.trans ?_))
          rw [hnil]
          show (⟨d.tty.committed, d.tty.taken, []⟩ : Tty) = d.tty
          rw [← hnil]
        next hH =>
          exact after_type h (by rw [Tty.char, if_neg hP, if_neg hU, if_neg hH])
    | intrWake cs => exact ⟨hat, fun _ _ _ => trivial, nofun⟩
    | killLine cs =>
      obtain ⟨line, hok, hline, hz⟩ := hat
      rw [code]
      split
      next hmore =>
        have hne : line ≠ [] := fun hnil => hmore.1 (hok.ring.blank_iff.2 hnil)
        have hlast := List.dropLast_append_getLast hne
        have hring := hok.ring
        have hplain := hok.plain
        rw [← hlast] at hring hplain
        refine after_go ⟨line.dropLast, ⟨hring.back.2, hok.taken_le, hok.consumed, hok.noEof, ?_⟩, hline, hz⟩
        exact fun hin => hplain (List.mem_append_left _ hin)
      next hstop =>
        -- the line has no end in it, so the loop has come to its start
        have hnil : line = [] := by
          by_contra hne
          have hlast := List.dropLast_append_getLast hne
          have hring := hok.ring
          rw [← hlast] at hring
          refine hstop ⟨fun he => hne (hok.ring.blank_iff.1 he), ?_⟩
          rw [hring.back.1]
          exact fun hin => hok.plain (hin ▸ List.getLast_mem hne)
        refine after_go ⟨?_, hz⟩
        rw [hline, ← hnil]
        exact hok
    | read n target got =>
      obtain ⟨h, hgot⟩ := hat
      by_cases hn : 0 < n
      · by_cases hrw : d.r = d.w
        · rw [code, if_pos hn, if_pos hrw]
          split
          · exact ⟨h, fun _ _ => trivial, fun _ _ => id⟩
          · exact ⟨h, trivial, fun _ _ => trivial, nofun, trivial, hentry n target got hgot⟩
        · exact after_read h hn hgot hrw b rfl
      rw [code, if_neg hn]
      refine after_go ⟨h.ok, ?_⟩
      rw [if_neg]
      · exact h.zeros
      · rintro ⟨hpos, rfl⟩
        rw [List.length_nil] at hgot
        omega
    | readDone target got =>
      obtain ⟨hok, hz⟩ := hat
      refine ⟨?_, fun _ _ => trivial, fun _ _ => id⟩
      show Rest (finish (.read target (some got)) d)
      cases got with
      | nil =>
        rw [finish]
        split
        next hpos =>
          rw [if_pos ⟨hpos, rfl⟩] at hz
          refine ⟨?_, hz.zero⟩
          rw [tty_append (d := d) rfl]
          exact hok.zero
        next hpos =>
          rw [if_neg fun hboth => hpos hboth.1] at hz
          exact ⟨hok, hz⟩
      | cons c got =>
        rw [if_neg fun hboth => nomatch hboth.2] at hz
        exact ⟨hok, hz⟩
  · intro i
    cases i with
    | intr cs => exact fun d h _ => ⟨h, fun _ _ => trivial⟩
    | read n => exact hentry n n [] (by simp)
  · intro i p p' _ hp
    obtain rfl := Option.some.inj hp
    exact ⟨⟨id, fun _ _ => id, fun _ => id, fun _ _ _ => id, fun _ => id⟩, trivial, nofun⟩

theorem boot_rest : Rest Input.boot := by
  refine ⟨⟨⟨Window.nil, rfl, rfl⟩, Nat.le_refl _, rfl, ?_, ?_⟩, rfl⟩
  · exact List.not_mem_nil
  · exact List.not_mem_nil

/-- The last events of a read that has consumed an end of file are to come. -/
theorem Pc.at_ok (h : l.at d) : ∃ line, Ok d line := by
  cases l with
  | intr cs | intrWake cs => exact ⟨_, h.ok⟩
  | killLine cs => exact ⟨h.choose, h.choose_spec.1⟩
  | read n target got => exact ⟨_, h.1.ok⟩
  | readDone target got => exact ⟨_, h.1⟩

variable {T : Type} [DecidableEq T] {s : Guarded.Sys T Pc Input Chan}

/-- **The line discipline of the console.** In every state of every run of interrupts, reads and kills, the offsets are
in order. What the terminal should have committed of the characters that arrived (`Tty`) is what readers have taken, in
order and unaltered, followed by what stands in the buffer from `r` to `w`. A `^D` is never copied to a reader; each one
that was taken has ended a read of positive length, which returned 0 (unless it is just about to), and no other read
of positive length returns 0. -/
theorem console_discipline (h : (console.machine T Input.boot).Reach s) :
    (s.data.w - s.data.r).toNat ≤ (s.data.e - s.data.r).toNat ∧ (s.data.e - s.data.r).toNat ≤ INPUT_BUF ∧
      s.data.consumed = s.data.tty.committed.take s.data.tty.taken ∧
      Window INPUT_BUF s.data.buf s.data.r (s.data.tty.committed.drop s.data.tty.taken) ∧
      (s.data.w - s.data.r).toNat = (s.data.tty.committed.drop s.data.tty.taken).length ∧
      ctrl 'D' ∉ s.data.delivered ∧ (s.lk = none → s.data.log.count .zero = s.data.log.count .eof) := by
  have hinv := notes_sound.inv (T := T) boot_rest (Guarded.Reach.only h)
  have hdata : ∃ line, Ok s.data line :=
    hinv.data (I := fun d => ∃ line, Ok d line) (fun d hd => ⟨_, hd.ok⟩) fun l d hd => Pc.at_ok hd
  obtain ⟨line, hok⟩ := hdata
  have hlen := hok.ring.length_le
  have hw : (s.data.w - s.data.r).toNat = (s.data.tty.committed.drop s.data.tty.taken).length := by
    rw [hok.ring.w, add_sub_cancel_left, BitVec.toNat_ofNat, Nat.mod_eq_of_lt (by omega)]
  rw [hw, hok.ring.sub_toNat]
  refine ⟨by omega, hlen, hok.consumed, hok.ring.window.left, rfl, hok.noEof, fun hfree => ?_⟩
  exact (hinv.free hfree).1.zeros

/-- A line is edited and read: `a`, `b`, backspace, `c`, return. -/
theorem console_discipline_line : ∃ s, (console.machine (Fin 2) Input.boot).Reach s ∧
    s.data.delivered = [97, 99, 10] ∧ s.data.consumed = s.data.tty.committed.take s.data.tty.taken := by
  obtain ⟨s, hs, hp⟩ := Machine.exists_reachBy (M := console.machine (Fin 2) Input.boot) (G := fun _ _ => True) rfl
    (.call 0 (.intr [97, 98, 8, 99, 13]) :: List.replicate 11 (.go 0) ++ .call 1 (.read 10) :: List.replicate 5 (.go 1))
    (fun s => s.data.delivered = [97, 99, 10]) (by decide)
  exact ⟨s, hs, of_decide_eq_true hp, (console_discipline hs).2.2.1⟩

end Xv6.Console
