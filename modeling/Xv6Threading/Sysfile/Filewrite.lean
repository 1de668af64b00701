import Xv6Threading.Sysfile.Write

/-!
# A write to an open file (`file.c:116-156`, `fs.c:481-511`)

`filewrite` writes pieces of `maxWrite` bytes and gives up at the first piece that `writei` refuses. The pieces before it
stay written and `f->off` stays where they end, but what is returned is -1, as if nothing had happened.

| here | there |
| --- | --- |
| `Opened.disk` | the inodes and the disk, with nobody else around |
| `Opened.f` | the `struct file` |
| `Opened.out` | what has been written to the console |
| `Crosses` | the first piece ends in front of the limit of a file, and the whole write does not |
-/

namespace Xv6.Sysfile

structure Opened where
  disk : Solo
  f : File Nat
  out : List UInt8

namespace Opened

open Solo (emptyFiles emptyFiles_sound emptyFiles_mapped tenBlocks largest place_largest largest_mapped)

def step (s : Opened) : (a : Act Nat Unit ⊕ Blk) → Except Stop (Resp Blk.Resp a × Opened)
  | .inl (.file _) => .ok (s.f, s)
  | .inl (.setOff _ off) => .ok ((), { s with f := { s.f with off := off } })
  | .inl (.devwrite src) => .ok (some src.length, { s with out := s.out ++ src })
  | a => (s.disk.step a).map fun r => (r.1, { s with disk := r.2 })

def call {α : Type} (sb : Super) (p : Sys Nat Unit α) (s : Opened) : Except Stop (α × Opened) :=
  (p.expand (lower sb)).run step s

variable {sb : Super} {L : Set Nat} {s s' : Opened} {ip : Nat} {α β : Type} {src : List UInt8} {p : Sys Nat Unit α}

theorem call_bind {x : α} (hp : call sb p s = .ok (x, s')) (f : α → Sys Nat Unit β) :
    call sb (p >>= f) s = call sb (f x) s' := by
  rw [call, Prog.expand_bind]
  exact Prog.run_bind_ok hp _

theorem call_error {e : Stop} (hp : call sb p s = .error e) (f : α → Sys Nat Unit β) :
    call sb (p >>= f) s = .error e := by
  rw [call, Prog.expand_bind, Prog.run_bind]
  exact congrArg (· >>= _) hp

/-- What one process alone does on the disk it does here too: it cannot have touched the open file. -/
theorem step_disk (s : Opened) (d : Solo) (a : Act Nat Unit ⊕ Blk) (h : d.step a ≠ .error .other) :
    step { s with disk := d } a = (d.step a).map fun r => (r.1, { s with disk := r.2 }) := by
  rcases a with a | a
  · cases a <;> first | rfl | exact absurd rfl h
  · rfl

variable {e : Panic} {c : Content Nat} {r : Option Nat} {d : Solo}

theorem run_disk {p : Low Nat Unit α} (h : Solo.exec p s.disk ≠ .error .other) :
    p.run step s = (Solo.exec p s.disk).map fun r => (r.1, { s with disk := r.2 }) :=
  Prog.run_embed (fun d => { s with disk := d }) (step_disk s) h

theorem call_content {x : c.Resp} (h : Solo.exec (F := Unit) (impl sb c) s.disk = .ok (x, d)) :
    call sb (content c) s = .ok (x, { s with disk := d }) := by
  have hrun := run_disk (s := s) (by rw [h]; exact nofun)
  rw [h] at hrun
  exact (Prog.run_bind_ok hrun _).trans rfl

theorem call_content_panic (h : Solo.exec (F := Unit) (impl sb c) s.disk = .error (.panic e)) :
    call sb (content c) s = .error (.panic e) := by
  have hrun := run_disk (s := s) (by rw [h]; exact nofun)
  rw [h] at hrun
  exact (Prog.run_bind _ _ _).trans (congrArg (· >>= _) hrun)

/-! ## One piece -/

theorem call_ilock (hv : s.disk.valid ip = true) : call sb (ilock ip) s = .ok ((), s) := by
  show call sb (if s.disk.valid ip = true then _ else _) s = _
  rw [if_pos hv]
  rfl

theorem call_writei (sb : Super) (src : List UInt8) (htype : (s.disk.node ip).type ≠ T_DEV) (off : BitVec 32) :
    call sb (writei ip off src) s = call sb (content (.writeBytes ip off src)) s := by
  show call sb (if (s.disk.node ip).type = T_DEV then _ else _) s = _
  rw [if_neg htype]

/-- Where `begin_op` and `end_op` leave the log. -/
def within (s : Opened) (t : Option (Finset Nat)) : Opened := { s with disk := { s.disk with trans := t } }

theorem within_self (h : s.disk.trans = none) : s.within none = s := by
  rw [within, ← h]

theorem call_beginOp (h : s.disk.trans = none) : call sb beginOp s = .ok ((), s.within (some ∅)) := by
  rcases s with ⟨⟨blk, node, valid, _ | J⟩, f, out⟩
  · rfl
  · cases h

theorem call_endOp (h : s.disk.trans.isSome) : call sb endOp s = .ok ((), s.within none) := by
  rcases s with ⟨⟨blk, node, valid, _ | J⟩, f, out⟩
  · cases h
  · rfl

section

variable (hidle : s.disk.trans = none) (hv : s.disk.valid ip = true)
include hidle hv

/-- After `writei` the file's offset is moved and the inode unlocked. -/
theorem call_writeChunk (hw : call sb (writei ip s.f.off src) (s.within (some ∅)) = .ok (r, s'))
    (hop : s'.disk.trans.isSome) : call sb (writeChunk () ip src) s =
      .ok (r, { s'.within none with f := { s'.f with off := s.f.off + BitVec.ofNat 32 (r.getD 0) } }) := by
  rw [writeChunk, call_bind (call_beginOp hidle), call_bind (call_ilock (s := s.within (some ∅)) hv)]
  show call sb (writei ip s.f.off src >>= _) (s.within (some ∅)) = _
  rw [call_bind hw]
  exact call_bind (call_endOp (s := { s' with f := { s'.f with off := s.f.off + BitVec.ofNat 32 (r.getD 0) } }) hop) _

theorem call_writeChunk_panic (hw : call sb (writei ip s.f.off src) (s.within (some ∅)) = .error (.panic e)) :
    call sb (writeChunk () ip src) s = .error (.panic e) := by
  rw [writeChunk, call_bind (call_beginOp hidle), call_bind (call_ilock (s := s.within (some ∅)) hv)]
  exact call_error hw _

end

/-! ## Files -/

/-- What a write needs of the state: the inode is in memory and has a block for each of its bytes, and no operation is
running. -/
structure Ready (sb : Super) (L : Set Nat) (ip : Nat) (s : Opened) : Prop where
  sound : Sound sb L s.disk
  known : ip ∈ L
  mapped : s.disk.MappedTo ip (s.disk.node ip).size.toNat
  valid : s.disk.valid ip = true
  type : (s.disk.node ip).type ≠ T_DEV
  idle : s.disk.trans = none

/-- All of `src` has been written at the offset, and the offset moved behind it. -/
structure Wrote (ip : Nat) (src : List UInt8) (s s' : Opened) : Prop where
  off : s'.f.off = s.f.off + BitVec.ofNat 32 src.length
  file : s'.disk.file ip =
    (s.disk.file ip).take s.f.off.toNat ++ src ++ (s.disk.file ip).drop (s.f.off.toNat + src.length)
  out : s'.out = s.out

theorem wrote_nil (ip : Nat) (s : Opened) : Wrote ip [] s s :=
  ⟨(BitVec.add_zero _).symm, by rw [List.append_nil, List.length_nil, Nat.add_zero, List.take_append_drop], rfl⟩

/-- One piece is refused, and nothing changes, or it is written. -/
theorem chunk_cases (h : Ready sb L ip s) (hlen : src.length < 2 ^ 32)
    (hrun : call sb (writeChunk () ip src) s = .ok (r, s')) :
    (s.disk.Refuses ip s.f.off src.length ∧ r = none ∧ s' = s) ∨
    (¬ s.disk.Refuses ip s.f.off src.length ∧ r = some src.length ∧ Wrote ip src s s' ∧ Ready sb L ip s' ∧
      s.f.off.toNat + src.length ≤ (s'.disk.node ip).size.toNat) := by
  have hwritei := call_writei sb src (s := s.within (some ∅)) h.type s.f.off
  by_cases hr : s.disk.Refuses ip s.f.off src.length
  · have hcontent := call_content (s := s.within (some ∅)) (c := .writeBytes ip s.f.off src)
      (Solo.writeBytes_refused sb hlen hr)
    rw [call_writeChunk h.idle h.valid (hwritei.trans hcontent) rfl] at hrun
    cases hrun
    refine .inl ⟨hr, rfl, ?_⟩
    show { s.within none with f := { s.f with off := s.f.off + 0#32 } } = s
    rw [BitVec.add_zero, within_self h.idle]
  rcases Solo.writeBytes_spec (F := Unit) (h.sound.setTrans (some ∅)) rfl h.known h.mapped hlen hr with
    ⟨e, hpanic, -⟩ | ⟨_, d, hex, rfl, hw⟩
  · rw [call_writeChunk_panic h.idle h.valid (hwritei.trans (call_content_panic hpanic))] at hrun
    cases hrun
  · rw [call_writeChunk h.idle h.valid (hwritei.trans (call_content hex)) hw.op] at hrun
    cases hrun
    obtain ⟨size, addrs, hself⟩ := hw.self
    refine .inr ⟨hr, rfl, ⟨rfl, hw.file, rfl⟩, ⟨hw.sound.setTrans none, h.known, hw.mapped, ?_, ?_, rfl⟩, ?_⟩
    · show d.valid ip = true
      rw [hw.valid]
      exact h.valid
    · show (d.node ip).type ≠ T_DEV
      rw [hself]
      exact h.type
    · show _ ≤ (d.node ip).size.toNat
      rw [hw.size]
      exact Nat.le_max_right _ _

/-- Two writes, one behind the other. -/
theorem Wrote.trans {s'' : Opened} {src' : List UInt8} (h : Wrote ip src s s') (h' : Wrote ip src' s' s'')
    (hoff : s.f.off.toNat ≤ (s.disk.node ip).size.toNat) (hmax : s.f.off.toNat + src.length < 2 ^ 32) :
    Wrote ip (src ++ src') s s'' := by
  have hoff' : s'.f.off.toNat = s.f.off.toNat + src.length := by
    rw [h.off, BitVec.toNat_add, BitVec.toNat_ofNat]
    omega
  have htake : ((s.disk.file ip).take s.f.off.toNat).length = s.f.off.toNat := by
    rw [List.length_take, Solo.length_file]
    omega
  refine ⟨?_, ?_, h'.out.trans h.out⟩
  · rw [h'.off, h.off, List.length_append, BitVec.ofNat_add, BitVec.add_assoc]
  rw [h'.file, h.file, hoff', List.take_append_of_le_length (by rw [List.length_append, htake]),
    List.take_of_length_le (by rw [List.length_append, htake]), List.drop_append]
  simp only [List.length_append, htake, List.append_assoc]
  rw [List.drop_eq_nil_of_le (by rw [List.length_append, htake]; omega), List.nil_append, List.drop_drop]
  congr 4
  omega

def limit : Nat := MAXFILE * BSIZE

theorem pieces (src : List UInt8) : src.take maxWrite ++ src.drop (src.take maxWrite).length = src := by
  have hmin : src.take maxWrite = src.take (src.take maxWrite).length := by
    rw [List.length_take]
    exact List.take_eq_take_min
  exact (congrArg (· ++ _) hmin).trans (List.take_append_drop _ _)

/-- How the loop over the pieces ends: all of them are written, or the first one is refused, or a later one at the
limit. -/
inductive Ended (ip : Nat) (src : List UInt8) (s s' : Opened) : Bool → Prop
  | all (hw : Wrote ip src s s') (hend : src = [] ∨ s.f.off.toNat + src.length ≤ limit) : Ended ip src s s' true
  | first (hsame : s' = s) (hr : s.disk.Refuses ip s.f.off (src.take maxWrite).length) : Ended ip src s s' false
  | later (hmoved : s.f.off.toNat < s'.f.off.toNat) (hr : ¬ s.disk.Refuses ip s.f.off (src.take maxWrite).length)
      (hlimit : limit < s.f.off.toNat + src.length) : Ended ip src s s' false

/-- The first piece is written. -/
theorem Ended.cons {t : Opened} {b : Bool} (hne : src ≠ []) (hr : ¬ s.disk.Refuses ip s.f.off (src.take maxWrite).length)
    (hw : Wrote ip (src.take maxWrite) s t)
    (hsize : s.f.off.toNat + (src.take maxWrite).length ≤ (t.disk.node ip).size.toNat)
    (h : Ended ip (src.drop (src.take maxWrite).length) t s' b) : Ended ip src s s' b := by
  have hpos : 0 < src.length := List.length_pos_of_ne_nil hne
  have hmw : maxWrite = 1536 := rfl
  have hlim : limit = 71680 := rfl
  have htake : (src.take maxWrite).length = min maxWrite src.length := List.length_take ..
  have hrest : (src.drop (src.take maxWrite).length).length = src.length - (src.take maxWrite).length :=
    List.length_drop
  have hpart := hr
  simp only [Solo.Refuses, not_or, not_lt, not_le] at hpart
  obtain ⟨hoff, hwrap, hmax⟩ := hpart
  have hmax : s.f.off.toNat + (src.take maxWrite).length ≤ limit := hmax
  have hoff' : t.f.off.toNat = s.f.off.toNat + (src.take maxWrite).length := by
    rw [hw.off, BitVec.toNat_add, BitVec.toNat_ofNat]
    omega
  cases h with
  | all hw' hend =>
    refine .all (pieces src ▸ hw.trans hw' hoff hwrap) (.inr ?_)
    rcases hend with hnil | hle
    · have := congrArg List.length hnil
      rw [hrest, List.length_nil] at this
      omega
    · omega
  | first hsame hr' =>
    subst hsame
    refine .later (by omega) hr ?_
    -- the next piece is refused: not for its offset, which is within the file, so at the limit
    have hnext := List.length_take_le maxWrite (src.drop (src.take maxWrite).length)
    have hnext' := List.length_take_le' maxWrite (src.drop (src.take maxWrite).length)
    rcases hr' with hr' | hr' | hr'
    · omega
    · omega
    · have hr' : limit < _ := hr'
      omega
  | later hmoved _ hlimit => exact .later (by omega) hr (by omega)

theorem filewriteLoop_ended : ∀ fuel (src : List UInt8) {s : Opened} {b : Bool}, src.length ≤ fuel →
    Ready sb L ip s → call sb (filewriteLoop () ip fuel src) s = .ok (b, s') → Ended ip src s s' b := by
  intro fuel
  induction fuel with
  | zero =>
    intro src s b hfuel _ hrun
    obtain rfl := List.eq_nil_of_length_eq_zero (Nat.le_zero.1 hfuel)
    cases hrun
    exact .all (wrote_nil ip _) (.inl rfl)
  | succ fuel ih =>
    intro src s b hfuel h hrun
    by_cases hne : src = []
    · subst hne
      cases hrun
      exact .all (wrote_nil ip _) (.inl rfl)
    have hpos : 0 < src.length := List.length_pos_of_ne_nil hne
    have htake : (src.take maxWrite).length = min 1536 src.length := List.length_take ..
    rw [filewriteLoop, if_neg (by simpa using hne)] at hrun
    cases hchunk : call sb (writeChunk () ip (src.take maxWrite)) s with
    | error e =>
      rw [call_error hchunk] at hrun
      cases hrun
    | ok r =>
      obtain ⟨r, t⟩ := r
      rw [call_bind hchunk] at hrun
      rcases chunk_cases h (by omega) hchunk with ⟨hr, rfl, rfl⟩ | ⟨hr, rfl, hw, ht, hsize⟩
      · cases hrun
        exact .first rfl hr
      · change call sb (if (src.take maxWrite).length ≠ (src.take maxWrite).length then _ else _) t = _ at hrun
        rw [if_neg (not_not.2 rfl)] at hrun
        exact .cons hne hr hw hsize (ih _ (by rw [List.length_drop]; omega) ht hrun)

/-! ## Devices -/

theorem call_writei_console (sb : Super) (src : List UInt8) (hv : s.disk.valid ip = true)
    (htype : (s.disk.node ip).type = T_DEV) (hmajor : (s.disk.node ip).major = CONSOLE) (off : BitVec 32) :
    call sb (writei ip off src) s = .ok (some src.length, { s with out := s.out ++ src }) := by
  show call sb (if (s.disk.node ip).type = T_DEV then _ else _) s = _
  rw [if_pos htype]
  show call sb (if (s.disk.node ip).major = CONSOLE then _ else _) s = _
  rw [if_pos hmajor]
  have hlock : call sb (ilock ip) { s with out := s.out ++ src } = .ok ((), { s with out := s.out ++ src }) :=
    call_ilock hv
  exact (call_bind hlock _).trans rfl

theorem call_writei_other (sb : Super) (src : List UInt8) (htype : (s.disk.node ip).type = T_DEV)
    (hmajor : (s.disk.node ip).major ≠ CONSOLE) (off : BitVec 32) : call sb (writei ip off src) s = .ok (none, s) := by
  show call sb (if (s.disk.node ip).type = T_DEV then _ else _) s = _
  rw [if_pos htype]
  show call sb (if (s.disk.node ip).major = CONSOLE then _ else _) s = _
  rw [if_neg hmajor]
  rfl

/-- `src` has gone to the console. -/
def print (s : Opened) (src : List UInt8) : Opened :=
  { s with f := { s.f with off := s.f.off + BitVec.ofNat 32 src.length }, out := s.out ++ src }

theorem print_nil (s : Opened) : s.print [] = s := by
  rw [print, List.append_nil, List.length_nil, BitVec.add_zero]

theorem print_append (s : Opened) (src src' : List UInt8) : (s.print src).print src' = s.print (src ++ src') := by
  simp only [print, List.append_assoc, List.length_append, BitVec.ofNat_add, BitVec.add_assoc]

theorem filewriteLoop_console : ∀ fuel (src : List UInt8) {s : Opened}, src.length ≤ fuel → s.disk.trans = none →
    s.disk.valid ip = true →
    (s.disk.node ip).type = T_DEV → (s.disk.node ip).major = CONSOLE →
    call sb (filewriteLoop () ip fuel src) s = .ok (true, s.print src) := by
  intro fuel
  induction fuel with
  | zero =>
    intro src s hfuel _ _ _ _
    obtain rfl := List.eq_nil_of_length_eq_zero (Nat.le_zero.1 hfuel)
    rw [print_nil]
    rfl
  | succ fuel ih =>
    intro src s hfuel hidle hv htype hmajor
    by_cases hne : src = []
    · subst hne
      rw [print_nil]
      rfl
    have hpos : 0 < src.length := List.length_pos_of_ne_nil hne
    have htake : (src.take maxWrite).length = min 1536 src.length := List.length_take ..
    have hchunk : call sb (writeChunk () ip (src.take maxWrite)) s =
        .ok (some (src.take maxWrite).length, s.print (src.take maxWrite)) := by
      have hwritei := call_writei_console sb (src.take maxWrite) (s := s.within (some ∅)) hv htype hmajor s.f.off
      rw [call_writeChunk hidle hv hwritei rfl]
      exact congrArg (fun t : Opened => Except.ok (_, t.print (src.take maxWrite))) (within_self hidle)
    rw [filewriteLoop, if_neg (by simpa using hne), call_bind hchunk]
    show call sb (if (src.take maxWrite).length ≠ (src.take maxWrite).length then _ else _) _ = _
    have hrest := ih (src.drop (src.take maxWrite).length) (s := s.print (src.take maxWrite))
      (by rw [List.length_drop]; omega) hidle hv htype hmajor
    rw [if_neg (not_not.2 rfl), hrest, print_append, pieces]

/-- Another device has no `write`. -/
theorem filewriteLoop_other (hidle : s.disk.trans = none) (hv : s.disk.valid ip = true)
    (htype : (s.disk.node ip).type = T_DEV) (hmajor : (s.disk.node ip).major ≠ CONSOLE) (src : List UInt8) :
    call sb (filewriteLoop () ip src.length src) s = .ok (src.isEmpty, s) := by
  cases src with
  | nil => rfl
  | cons x xs =>
    have hwritei := call_writei_other sb ((x :: xs).take maxWrite) (s := s.within (some ∅)) htype hmajor s.f.off
    rw [List.length_cons, filewriteLoop, if_neg (by simp), call_bind (call_writeChunk hidle hv hwritei rfl)]
    show Except.ok (false, { s.within none with f := { s.f with off := s.f.off + 0#32 } }) = _
    rw [BitVec.add_zero, within_self hidle]
    rfl

/-! ## The call -/

/-- The first piece of `n` bytes can be written, and not all of them: the file would be too large. -/
def Crosses (s : Opened) (ip n : Nat) : Prop :=
  s.f.writable = true ∧ (s.disk.node ip).type ≠ T_DEV ∧ s.f.off.toNat ≤ (s.disk.node ip).size.toNat ∧
    s.f.off.toNat + min maxWrite n ≤ limit ∧ limit < s.f.off.toNat + n

instance (s : Opened) (ip n : Nat) : Decidable (s.Crosses ip n) := inferInstanceAs (Decidable (_ ∧ _ ∧ _ ∧ _ ∧ _))

/-- Contents, size and offset are as they were. -/
def Untouched (ip : Nat) (s s' : Opened) : Prop :=
  s'.disk.file ip = s.disk.file ip ∧ (s'.disk.node ip).size = (s.disk.node ip).size ∧ s'.f.off = s.f.off

/-- The bytes are at the old offset of the file, or have gone to the console; the offset is behind them. -/
def Delivered (ip : Nat) (src : List UInt8) (s s' : Opened) : Prop :=
  s'.f.off = s.f.off + BitVec.ofNat 32 src.length ∧
    if (s.disk.node ip).type = T_DEV then s'.out = s.out ++ src ∧ s'.disk.file ip = s.disk.file ip
    else s'.disk.file ip =
      (s.disk.file ip).take s.f.off.toNat ++ src ++ (s.disk.file ip).drop (s.f.off.toNat + src.length)

theorem call_filewrite (hf : s.f.type = .inode ip) (hw : s.f.writable = true) :
    call sb (filewrite () src) s = (call sb (filewriteLoop () ip src.length src) s).map fun r =>
      (if r.1 then some src.length else none, r.2) := by
  show call sb (if s.f.writable = true then _ else _) s = _
  rw [if_pos hw, hf]
  show call sb (filewriteLoop () ip src.length src >>= _) s = _
  cases h : call sb (filewriteLoop () ip src.length src) s with
  | error e => exact call_error h _
  | ok r =>
    rw [call_bind h]
    show call sb (if r.1 = true then _ else _) r.2 = .ok (if r.1 = true then _ else _, r.2)
    split <;> rfl

/-- A write of some bytes begins an operation. -/
theorem idle_of_run {α : Type} {g : Bool × Opened → α × Opened} {r : α × Opened} (hne : src ≠ [])
    (hrun : (call sb (filewriteLoop () ip src.length src) s).map g = .ok r) : s.disk.trans = none := by
  rcases s with ⟨⟨blk, node, valid, _ | J⟩, f, out⟩
  · rfl
  · obtain ⟨x, xs, rfl⟩ := List.exists_cons_of_ne_nil hne
    cases hrun

/-- **When a failed write has done nothing.** Whatever `filewrite` returns on an open file, a -1 means that contents, size
and offset are as before, and a count that exactly these bytes were written at the old offset, if and only if the write does
not go over the limit of a file behind its first piece. -/
theorem filewrite_clean_iff (hs : Sound sb L s.disk) (hip : ip ∈ L)
    (hm : s.disk.MappedTo ip (s.disk.node ip).size.toNat) (hv : s.disk.valid ip = true) (hf : s.f.type = .inode ip)
    (src : List UInt8) {r : Option Nat} (hrun : call sb (filewrite () src) s = .ok (r, s')) :
    ((r = none → Untouched ip s s') ∧ ∀ n, r = some n → n = src.length ∧ Delivered ip src s s') ↔
      ¬ s.Crosses ip src.length := by
  by_cases hw : s.f.writable = true
  swap
  · have hno : call sb (filewrite () src) s = .ok (none, s) := by
      show call sb (if s.f.writable = true then _ else _) s = _
      rw [if_neg hw]
      rfl
    rw [hno] at hrun
    cases hrun
    exact ⟨fun _ h => hw h.1, fun _ => ⟨fun _ => ⟨rfl, rfl, rfl⟩, fun _ h => by cases h⟩⟩
  rw [call_filewrite hf hw] at hrun
  by_cases hne : src = []
  · subst hne
    cases hrun
    refine iff_of_true ⟨fun h => (Option.some_ne_none _ h).elim, fun n h => ⟨(Option.some.inj h).symm, ?_, ?_⟩⟩ ?_
    · exact (wrote_nil ip s).off
    · split
      · exact ⟨(List.append_nil _).symm, rfl⟩
      · exact (wrote_nil ip s).file
    · rintro ⟨-, -, -, h1, h2⟩
      exact absurd h2 (Nat.not_lt.2 h1)
  have hidle := idle_of_run hne hrun
  by_cases htype : (s.disk.node ip).type = T_DEV
  · refine iff_of_true ?_ fun h => h.2.1 htype
    by_cases hmajor : (s.disk.node ip).major = CONSOLE
    · rw [filewriteLoop_console src.length src (Nat.le_refl _) hidle hv htype hmajor] at hrun
      cases hrun
      exact ⟨fun h => (Option.some_ne_none _ h).elim, fun n h => ⟨(Option.some.inj h).symm, rfl, by
        rw [if_pos htype]; exact ⟨rfl, rfl⟩⟩⟩
    rw [filewriteLoop_other hidle hv htype hmajor, show src.isEmpty = false by simpa using hne] at hrun
    cases hrun
    exact ⟨fun _ => ⟨rfl, rfl, rfl⟩, fun n h => by cases h⟩
  cases hloop : call sb (filewriteLoop () ip src.length src) s with
  | error e =>
    rw [hloop] at hrun
    cases hrun
  | ok q =>
    obtain ⟨b, t⟩ := q
    rw [hloop] at hrun
    have hend := filewriteLoop_ended src.length src (Nat.le_refl _) ⟨hs, hip, hm, hv, htype, hidle⟩ hloop
    cases hrun
    have htake : (src.take maxWrite).length = min maxWrite src.length := List.length_take ..
    cases hend with
    | all hw' hend =>
      refine iff_of_true ⟨fun h => (Option.some_ne_none _ h).elim, fun n h => ⟨(Option.some.inj h).symm, hw'.off, ?_⟩⟩ ?_
      · rw [if_neg htype]
        exact hw'.file
      rintro ⟨-, -, -, h1, h2⟩
      have := hend.resolve_left hne
      omega
    | first hsame hr =>
      subst hsame
      refine iff_of_true ⟨fun _ => ⟨rfl, rfl, rfl⟩, fun n h => by cases h⟩ ?_
      rintro ⟨-, -, h0, h1, -⟩
      have hlim : limit = 71680 := rfl
      rcases hr with hr | hr | hr
      · omega
      · omega
      · have hr : limit < _ := hr
        omega
    | later hmoved hr hlimit =>
      refine iff_of_false (fun h => ?_) (not_not.2 ⟨hw, htype, ?_⟩)
      · have hoff : t.f.off.toNat = s.f.off.toNat := congrArg BitVec.toNat (h.1 rfl).2.2
        omega
      · simp only [Solo.Refuses, not_or, not_lt, not_le, htake] at hr
        exact ⟨hr.1, hr.2.2, hlimit⟩

/-- Inode 1 is open for writing, from byte `off` on, and no operation is running. -/
def opened (disk : Solo) (off : BitVec 32) : Opened := ⟨{ disk with trans := none }, ⟨.inode 1, true, true, off⟩, []⟩

/-- Three bytes for an empty file. -/
theorem filewrite_clean_tenBlocks : ∃ s', call tenBlocks (filewrite () [7, 8, 9]) (opened (emptyFiles 0xF) 0) =
    .ok (some 3, s') ∧ Delivered 1 [7, 8, 9] (opened (emptyFiles 0xF) 0) s' :=
  ⟨_, rfl, (((filewrite_clean_iff (emptyFiles_sound.setTrans none) (show 1 ∈ {i | i < 7} from by decide)
    emptyFiles_mapped rfl rfl [7, 8, 9] rfl).2 (by decide)).2 3 rfl).2⟩

theorem largest_ready : Ready ⟨200, 7, 1, 2, 3⟩ {1} 1 (opened largest 70144) := by
  have hmarked : ∀ b < 200, Marked ⟨200, 7, 1, 2, 3⟩ largest.blk b := by decide +kernel
  have hslot : ∀ p ∈ slots {1}, place largest.blk largest.node p = 10 + p.2 ∧ p.1 = 1 ∧ p.2 < 141 := by
    rintro ⟨i, k⟩ ⟨rfl, hk⟩
    exact ⟨place_largest k hk, rfl, hk⟩
  refine ⟨⟨by decide, by decide, ?_, fun b _ hb => hmarked b hb, ⟨?_, ?_⟩⟩, rfl, largest_mapped, rfl, by decide, rfl⟩
  · rintro i rfl
    decide
  · intro p hp _
    obtain ⟨hplace, -, hlt⟩ := hslot p hp
    show place largest.blk largest.node p ∈ _
    rw [hplace]
    exact ⟨show 4 ≤ _ by omega, show _ < 200 by omega, hmarked _ (by omega)⟩
  · intro p hp q hq _ heq
    obtain ⟨hp1, hp2, -⟩ := hslot p hp
    obtain ⟨hq1, hq2, -⟩ := hslot q hq
    have heq : 10 + p.2 = 10 + q.2 := hp1.symm.trans (heq.trans hq1)
    exact Prod.ext (hp2.trans hq2.symm) (by omega)

/-- The bytes from 70144 on, and one more than the file can have: `filewrite` returns -1, with the first 1536 of them
written and the offset behind them. -/
theorem filewrite_crosses : Ready ⟨200, 7, 1, 2, 3⟩ {1} 1 (opened largest 70144) ∧
    byteAt largest.blk largest.node 1 70144 = 0 ∧
    (call ⟨200, 7, 1, 2, 3⟩ (filewrite () (List.replicate 1537 7)) (opened largest 70144)).toOption.map
      (fun r => (r.1, r.2.f.off, byteAt r.2.disk.blk r.2.disk.node 1 70144)) = some (none, 71680, 7) :=
  ⟨largest_ready, by decide, by decide +kernel⟩

end Opened

end Xv6.Sysfile
