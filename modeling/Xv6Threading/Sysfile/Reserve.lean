import Xv6Threading.Log.Calls
import Xv6Threading.Sysfile.Blocks

/-!
# What one turn of `filewrite` logs (`file.c:126-152`, `fs.c:41-78`, `fs.c:372-400`, `fs.c:481-511`)

`filewrite` cuts a write into pieces of `maxWrite` bytes, one operation of the log for each, and says why a piece fits:
"i-node, indirect block, allocation blocks, and 2 blocks of slop for non-aligned writes". Here the blocks are counted, for
every answer that the program may get from the disk and from the inode in memory: a piece touches four blocks of the file
at most, each turn of `writei` logs the data block and at most one indirect block besides the bitmap, and at the end there
is the inode's block.

| here | there |
| --- | --- |
| `logged` | the blocks passed to `log_write` in a run |
| `Room sb n S` | with the blocks of `S` logged and a place kept for the bitmap, `n` more fit |
-/

namespace Xv6.Sysfile

open Log (MAXOPBLOCKS)

variable {I F α β : Type} {p : Low I F α}

def logs : Act I F ⊕ Blk → Option Nat
  | .inr (.logWrite b) => some b
  | _ => none

def logged (tr : List ((a : Act I F ⊕ Blk) × Resp Blk.Resp a)) : Finset Nat :=
  (tr.filterMap fun e => logs e.1).toFinset

/-- Every `log_write` stays within the reservation. -/
def reservation : Protocol (Act I F ⊕ Blk) (Resp Blk.Resp) (Finset Nat) where
  pre S a := ∀ b ∈ logs a, (insert b S).card ≤ MAXOPBLOCKS
  resp _ _ _ := True
  next S a _ := (logs a).elim S (insert · S)

abbrev Fits (Q : α → Finset Nat → Prop) (p : Low I F α) (S : Finset Nat) : Prop := reservation.Follows Q p S

theorem record_reservation (tr : List ((a : Act I F ⊕ Blk) × Resp Blk.Resp a)) (S : Finset Nat) :
    reservation.record S tr = S ∪ logged tr := by
  induction tr generalizing S with
  | nil => simp [Protocol.record, logged]
  | cons e tr ih =>
    refine (ih _).trans ?_
    show (logs e.1).elim S (insert · S) ∪ _ = _
    cases h : logs e.1 with
    | none => simp [logged, h]
    | some b => simp [logged, h, Finset.insert_union]

/-! ## What logs nothing -/

def Silent : Low I F α → Prop
  | .ret _ => True
  | .act a k => logs a = none ∧ ∀ r, Silent (k r)

theorem Silent.bind {f : α → Low I F β} (hp : Silent p) (hf : ∀ x, Silent (f x)) : Silent (p >>= f) := by
  induction p with
  | ret x => exact hf x
  | act a k ih => exact ⟨hp.1, fun r => ih r (hp.2 r)⟩

theorem Silent.fits (hp : Silent p) {Q : α → Finset Nat → Prop} {S : Finset Nat} (hQ : ∀ x, Q x S) :
    Fits Q p S := by
  induction p with
  | ret x => exact hQ x
  | act a k ih =>
    refine ⟨fun b hb => ?_, fun r _ => ?_⟩
    · rw [hp.1] at hb
      cases hb
    · show Fits Q (k r) ((logs a).elim S (insert · S))
      rw [hp.1]
      exact ih r (hp.2 r)

/-- An action that logs nothing, and what comes after it. -/
theorem Fits.quiet {a : Act I F ⊕ Blk} (h : logs a = none) {f : Resp Blk.Resp a → Low I F β}
    {Q : β → Finset Nat → Prop} {S : Finset Nat} (hf : ∀ r, Fits Q (f r) S) : Fits Q (Prog.ask a >>= f) S := by
  refine Protocol.Follows.quiet (fun b hb => ?_) (fun r => ?_) fun r _ => hf r
  · rw [h] at hb
    cases hb
  · show (logs a).elim S (insert · S) = S
    rw [h]
    rfl

theorem panic_fits {e : Panic} {Q : α → Finset Nat → Prop} {S : Finset Nat} : Fits Q (panic e : Low I F α) S := by
  refine ⟨fun b hb => ?_, fun r _ => r.elim⟩
  cases hb

theorem silent_panic (sb : Super) (e : Panic) : Silent ((panic e : Sys I F α).expand (lower sb)) := ⟨rfl, Empty.rec⟩

theorem silent_writeLog (sb : Super) : ∀ tail bs, Silent (writeLog sb tail bs : Low I F Unit)
  | _, [] => trivial
  | tail, _ :: bs =>
    ⟨rfl, fun _ => ⟨rfl, fun _ => ⟨rfl, fun _ => ⟨rfl, fun _ => ⟨rfl, fun _ => ⟨rfl, fun _ =>
      silent_writeLog sb (tail + 1) bs⟩⟩⟩⟩⟩⟩

theorem silent_installTrans (sb : Super) : ∀ tail bs, Silent (installTrans sb tail bs : Low I F Unit)
  | _, [] => trivial
  | tail, _ :: bs =>
    ⟨rfl, fun _ => ⟨rfl, fun _ => ⟨rfl, fun _ => ⟨rfl, fun _ => ⟨rfl, fun _ => ⟨rfl, fun _ =>
      silent_installTrans sb (tail + 1) bs⟩⟩⟩⟩⟩⟩

theorem silent_writeHead (sb : Super) (bs : List Nat) : Silent (writeHead sb bs : Low I F Unit) :=
  ⟨rfl, fun _ => ⟨rfl, fun _ => ⟨rfl, fun _ => ⟨rfl, fun _ => trivial⟩⟩⟩⟩

theorem silent_commit (sb : Super) (bs : List Nat) : Silent (commit sb bs : Low I F Unit) := by
  rw [commit]
  split
  · exact (silent_writeLog sb 0 bs).bind fun _ => (silent_writeHead sb bs).bind fun _ =>
      (silent_installTrans sb 0 bs).bind fun _ => silent_writeHead sb []
  · trivial

theorem silent_load (sb : Super) (ip : I) : Silent (load sb ip : Low I F Unit) :=
  ⟨rfl, fun _ => ⟨rfl, fun _ => ⟨rfl, fun _ => ⟨rfl, fun _ => trivial⟩⟩⟩⟩

theorem silent_endOp (sb : Super) : Silent ((endOp : Sys I F Unit).expand (lower sb)) := by
  refine ⟨rfl, fun r => ?_⟩
  cases r with
  | none => trivial
  | some bs => exact (silent_commit sb bs).bind fun _ => trivial

theorem silent_ilock (sb : Super) (ip : I) : Silent ((ilock ip : Sys I F Unit).expand (lower sb)) := by
  refine ⟨rfl, fun n => ?_⟩
  show Silent (Prog.expand (lower sb) (if n < 1 then _ else _))
  split
  · exact silent_panic sb _
  refine ⟨rfl, fun _ => ⟨rfl, fun v => ?_⟩⟩
  show Silent (Prog.expand (lower sb) (if v then _ else _))
  split
  · trivial
  refine (silent_load sb ip).bind fun _ => ⟨rfl, fun _ => ⟨rfl, fun d => ?_⟩⟩
  show Silent (Prog.expand (lower sb) (if d.type = 0 then _ else _))
  split
  · exact silent_panic sb _
  · trivial

theorem silent_iunlock (sb : Super) (ip : I) : Silent ((iunlock ip : Sys I F Unit).expand (lower sb)) := by
  refine ⟨rfl, fun v => ?_⟩
  show Silent (Prog.expand (lower sb) (if v then _ else _))
  split
  · refine ⟨rfl, fun n => ?_⟩
    show Silent (Prog.expand (lower sb) (if n < 1 then _ else _))
    split
    · exact silent_panic sb _
    · exact ⟨rfl, fun _ => trivial⟩
  · exact silent_panic sb _

theorem silent_consolewrite (sb : Super) (ip : I) (src : List UInt8) :
    Silent ((consolewrite ip src : Sys I F _).expand (lower sb)) := by
  rw [consolewrite, Prog.expand_bind]
  refine (silent_iunlock sb ip).bind fun _ => ⟨rfl, fun r => ?_⟩
  show Silent (Prog.expand (lower sb) (ilock ip >>= fun _ => pure r))
  rw [Prog.expand_bind]
  exact (silent_ilock sb ip).bind fun _ => trivial

/-! ## Counting -/

def Room (sb : Super) (n : Nat) (S : Finset Nat) : Prop := (S.erase sb.bmapstart).card + n ≤ MAXOPBLOCKS - 1

namespace Room

variable {sb : Super} {n b : Nat} {S : Finset Nat}

theorem weaken {m : Nat} (h : Room sb n S) (hm : m ≤ n) : Room sb m S :=
  (Nat.add_le_add_left hm _).trans h

theorem card_le (h : Room sb n S) : S.card ≤ MAXOPBLOCKS := by
  have hpred := Finset.pred_card_le_card_erase (a := sb.bmapstart) (s := S)
  simp only [Room, MAXOPBLOCKS] at h ⊢
  omega

theorem insert_bitmap (h : Room sb n S) : Room sb n (insert sb.bmapstart S) := by
  rwa [Room, Finset.erase_insert_eq_erase]

theorem of_insert (h : Room sb n (insert b S)) : Room sb n S :=
  (Nat.add_le_add_right (Finset.card_le_card (Finset.erase_subset_erase _ (Finset.subset_insert b S))) n).trans h

theorem insert_block (h : Room sb (n + 1) S) (b : Nat) : Room sb n (insert b S) := by
  by_cases hb : b = sb.bmapstart
  · rw [hb]
    exact (h.weaken n.le_succ).insert_bitmap
  rw [Room, Finset.erase_insert_of_ne hb]
  have := Finset.card_insert_le b (S.erase sb.bmapstart)
  rw [Room] at h
  omega

end Room

variable {sb : Super} {ip : I} {n : Nat} {S : Finset Nat} {Q : Unit → Finset Nat → Prop} {src : List UInt8}
  {off : BitVec 32}

theorem store_fits {b : Nat} {data : Block} (hS : Room sb n (insert b S))
    (hQ : Q () (insert b S)) : Fits Q (store b data : Low I F Unit) S := by
  refine Fits.quiet rfl fun _ => Protocol.Follows.act ?_ fun _ _ => Fits.quiet rfl fun _ => hQ
  intro b' hb'
  cases hb'
  exact hS.card_le

/-- There is one bitmap block, so the loop has one turn. -/
theorem balloc_fits {Q : Nat → Finset Nat → Prop} (hsb : sb.size ≤ BPB) (hS : Room sb (n + 1) S)
    (hQ : ∀ b, Q b (insert b (insert sb.bmapstart S))) : Fits Q (balloc sb : Low I F Nat) S := by
  have hone : (sb.size + BPB - 1) / BPB = 0 ∨ (sb.size + BPB - 1) / BPB = 1 := by
    simp only [BPB] at hsb ⊢
    omega
  have hblock : BBLOCK sb 0 = sb.bmapstart := by
    simp [BBLOCK]
  rw [balloc]
  rcases hone with h | h
  · rw [h]
    exact panic_fits
  rw [h, ballocLoop]
  refine Fits.quiet rfl fun blk => ?_
  cases findFree sb blk 0 with
  | none => exact Fits.quiet rfl fun _ => panic_fits
  | some bi =>
    simp only [hblock]
    have hbit : Room sb (n + 1) (insert sb.bmapstart S) := hS.insert_bitmap
    refine .bind (store_fits hbit ?_)
    refine .bind ?_
    exact Fits.quiet rfl fun _ => store_fits (hbit.insert_block _) (hQ _)

/-- The block may be there already, and then it is the caller who logs it. -/
theorem mapAddr_fits {j : Fin (NDIRECT + 1)} {Q : Nat → Finset Nat → Prop} (hsb : sb.size ≤ BPB)
    (hS : Room sb (n + 1) S) (hQ : ∀ b S', Room sb n (insert b S') → Q b S') :
    Fits Q (mapAddr sb ip j : Low I F Nat) S := by
  rw [mapAddr]
  refine Fits.quiet rfl fun d => ?_
  show Fits Q (if d.addrs j ≠ 0 then _ else _) S
  split
  · exact hQ _ S (hS.insert_block _)
  · refine .bind (balloc_fits hsb hS fun b => Fits.quiet rfl fun _ => Fits.quiet rfl fun _ => hQ b _ ?_)
    rw [Finset.insert_idem]
    exact hS.insert_bitmap.insert_block b

theorem bmap_fits {bn : Nat} {Q : Nat → Finset Nat → Prop} (hsb : sb.size ≤ BPB) (hS : Room sb (n + 2) S)
    (hQ : ∀ b S', Room sb n (insert b S') → Q b S') : Fits Q (bmap sb ip bn : Low I F Nat) S := by
  rw [bmap]
  split
  · exact mapAddr_fits hsb (hS.weaken (Nat.le_succ _)) hQ
  split
  · refine .bind (mapAddr_fits hsb hS fun ind S' hS' => Fits.quiet rfl fun a => ?_)
    show Fits Q (if uintAt a (bn - NDIRECT) ≠ 0 then _ else _) S'
    split
    · refine Fits.quiet rfl fun _ => hQ _ S' ?_
      exact hS'.of_insert.insert_block _
    refine .bind (balloc_fits hsb hS'.of_insert fun b => ?_)
    have hroom : Room sb n (insert ind (insert b (insert sb.bmapstart S'))) := by
      rw [Finset.insert_comm, Finset.insert_comm ind]
      exact hS'.insert_bitmap.insert_block b
    refine .bind (store_fits hroom (hQ b _ ?_))
    rwa [Finset.insert_comm, Finset.insert_idem]
  · exact panic_fits

/-- How many blocks the bytes from `off` on are in. -/
def spread (off len : Nat) : Nat := if len = 0 then 0 else (off % BSIZE + len + (BSIZE - 1)) / BSIZE

theorem spread_step (off : Nat) {len : Nat} (h : 0 < len) :
    spread (off + min len (BSIZE - off % BSIZE)) (len - min len (BSIZE - off % BSIZE)) + 1 ≤ spread off len := by
  simp only [spread, BSIZE, if_neg (Nat.ne_of_gt h)]
  split <;> omega

/-- Each turn logs a block of the file and at most an indirect block. -/
theorem writeLoop_fits (hsb : sb.size ≤ BPB) (hQ : ∀ S', Room sb n S' → Q () S') :
    ∀ fuel off src {t : Nat} {S : Finset Nat}, spread off src.length ≤ t → Room sb (n + 2 * t) S →
      Fits Q (writeLoop sb ip fuel off src : Low I F Unit) S
  | 0, _, _, _, S, _, hS => hQ S (hS.weaken (Nat.le_add_right _ _))
  | fuel + 1, off, src, t, S, ht, hS => by
    rw [writeLoop]
    split
    · exact hQ S (hS.weaken (Nat.le_add_right _ _))
    rename_i hne
    have hstep := spread_step off (List.length_pos_of_ne_nil hne)
    obtain ⟨t, rfl⟩ : ∃ t', t = t' + 1 := ⟨t - 1, by omega⟩
    refine .bind (bmap_fits (n := n + 2 * t) hsb hS fun b S' hS' => Fits.quiet rfl fun blk => ?_)
    refine .bind (store_fits hS' (writeLoop_fits hsb hQ fuel _ _ (t := t) ?_ hS'))
    rw [List.length_drop]
    omega

theorem iupdate_fits (hS : Room sb (n + 1) S) (hQ : ∀ S', Room sb n S' → Q () S') :
    Fits Q (iupdate sb ip : Low I F Unit) S := by
  rw [iupdate]
  refine Fits.quiet rfl fun i => Fits.quiet rfl fun blk => Fits.quiet rfl fun d => ?_
  exact store_fits (hS.insert_block _) (hQ _ (hS.insert_block _))

theorem writeBytes_fits {Q : Option Nat → Finset Nat → Prop}
    (hsb : sb.size ≤ BPB) (hlen : src.length ≤ maxWrite) (hS : Room sb 9 S) (hQ : ∀ r S', Room sb 0 S' → Q r S') :
    Fits Q (writeBytes sb ip off src : Low I F _) S := by
  have hspread : spread off.toNat src.length ≤ 4 := by
    simp only [spread, BSIZE, maxWrite] at hlen ⊢
    split <;> omega
  have hstop : ∀ r, Q r S := fun r => hQ r S (hS.weaken (Nat.zero_le _))
  rw [writeBytes]
  refine Fits.quiet rfl fun d => ?_
  show Fits Q (if off > d.size ∨ _ then _ else _) S
  split
  · exact hstop none
  split
  · exact hstop none
  refine .bind (writeLoop_fits (n := 1) hsb (fun S' hS' => ?_) _ _ _ hspread hS)
  refine Fits.quiet rfl fun d => ?_
  show Fits Q (if 0 < _ ∧ _ > d.size then _ else _) S'
  split
  · exact Fits.quiet rfl fun _ => .bind (iupdate_fits hS' fun S'' hS'' => hQ _ S'' hS'')
  · exact hQ _ S' (hS'.weaken (Nat.zero_le _))

theorem writei_fits {Q : Option Nat → Finset Nat → Prop}
    (hsb : sb.size ≤ BPB) (hlen : src.length ≤ maxWrite) (hS : Room sb 9 S) (hQ : ∀ r S', Room sb 0 S' → Q r S') :
    Fits Q ((writei ip off src : Sys I F _).expand (lower sb)) S := by
  have hstop : ∀ r, Q r S := fun r => hQ r S (hS.weaken (Nat.zero_le _))
  refine Fits.quiet rfl fun d => ?_
  show Fits Q (Prog.expand (lower sb) (if d.type = T_DEV then _ else _)) S
  split
  · show Fits Q (Prog.expand (lower sb) (if d.major = CONSOLE then _ else _)) S
    split
    · exact (silent_consolewrite sb ip src).fits hstop
    · exact hstop none
  · exact .bind (writeBytes_fits hsb hlen hS hQ)

/-- **A piece of a write fits its reservation.** Whatever the program is answered, the blocks that it passes to
`log_write` in one turn of the loop of `filewrite` are at most `MAXOPBLOCKS`, if the disk has one bitmap block. -/
theorem writeChunk_fits (sb : Super) (hsb : sb.size ≤ BPB) (f : F) (ip : I) (src : List UInt8)
    (tr : List ((a : Act I F ⊕ Blk) × Resp Blk.Resp a))
    (htr : ((writeChunk f ip (src.take maxWrite)).expand (lower sb)).Trace tr) :
    (logged tr).card ≤ MAXOPBLOCKS := by
  have hempty : Room sb 9 (∅ : Finset Nat) := by
    simp [Room]
  have hlen : (src.take maxWrite).length ≤ maxWrite := by
    rw [List.length_take]
    exact Nat.min_le_left _ _
  have hfits : Fits (fun _ _ => True) ((writeChunk f ip (src.take maxWrite)).expand (lower sb)) ∅ := by
    refine Fits.quiet rfl fun _ => ?_
    show Fits _ (Prog.expand (lower sb) (ilock ip >>= _)) ∅
    rw [Prog.expand_bind]
    refine .bind ((silent_ilock sb ip).fits fun _ => Fits.quiet rfl fun x => ?_)
    show Fits _ (Prog.expand (lower sb) (writei ip x.off (src.take maxWrite) >>= _)) ∅
    rw [Prog.expand_bind]
    refine .bind (writei_fits hsb hlen hempty fun r S' _ => Fits.quiet rfl fun _ => ?_)
    show Fits _ (Prog.expand (lower sb) (iunlock ip >>= _)) S'
    rw [Prog.expand_bind]
    refine .bind ((silent_iunlock sb ip).fits fun _ => ?_)
    rw [Prog.expand_bind]
    exact .bind ((silent_endOp sb).fits fun _ => trivial)
  have hcard := hfits.invariant (J := fun S => S.card ≤ MAXOPBLOCKS) (fun _ _ _ => trivial) ?_ htr (Nat.zero_le _)
  · rwa [record_reservation, Finset.empty_union] at hcard
  intro S a r hS hpre
  show ((logs a).elim S (insert · S)).card ≤ MAXOPBLOCKS
  cases h : logs a with
  | none => exact hS
  | some b => exact hpre b h

/-- The first byte of an empty file, on a disk of eight blocks of which three are in use: up to where the block that is
allocated has been zeroed. -/
def firstByte : List ((a : Act Unit Unit ⊕ Blk) × Resp Blk.Resp a) :=
  let d : Dinode := ⟨T_FILE, 0, 0, 1, 0, fun _ => 0⟩
  [⟨.inl .beginOp, ()⟩, ⟨.inl (.ref ()), (1 : Nat)⟩, ⟨.inl (.acquiresleep ()), ()⟩, ⟨.inl (.valid ()), true⟩,
    ⟨.inl (.file ()), (⟨.inode (), true, true, 0⟩ : File Unit)⟩, ⟨.inl (.fields ()), d⟩, ⟨.inl (.fields ()), d⟩,
    ⟨.inl (.fields ()), d⟩, ⟨.inr (.bread 2), (fun _ => 7 : Block)⟩, ⟨.inr (.put 2 (Codec.setBit (fun _ => 7) 3)), ()⟩,
    ⟨.inr (.logWrite 2), ()⟩, ⟨.inr (.brelse 2), ()⟩, ⟨.inr (.bread 3), (fun _ => 0 : Block)⟩,
    ⟨.inr (.put 3 fun _ => 0), ()⟩, ⟨.inr (.logWrite 3), ()⟩]

theorem trace_firstByte :
    ((writeChunk () () ([7].take maxWrite)).expand (lower ⟨8, 8, 0, 1, 2⟩)).Trace firstByte :=
  .act _ _ _ (.act _ _ _ (.act _ _ _ (.act _ _ _ (.act _ _ _ (.act _ _ _ (.act _ _ _ (.act _ _ _
    (.act _ _ _ (.act _ _ _ (.act _ _ _ (.act _ _ _ (.act _ _ _ (.act _ _ _ (.act _ _ _ (.nil _)))))))))))))))

theorem writeChunk_fits_firstByte : logged firstByte = {2, 3} ∧ (logged firstByte).card ≤ MAXOPBLOCKS :=
  ⟨by decide, writeChunk_fits ⟨8, 8, 0, 1, 2⟩ (by decide) () () [7] firstByte trace_firstByte⟩

end Xv6.Sysfile
