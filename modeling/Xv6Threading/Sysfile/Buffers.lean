import Xv6Threading.Sysfile.Blocks
import Xv6Threading.Sysfile.CallRules

/-!
# No buffer is kept (`fs.c:24-236`, `fs.c:362-511`, `log.c:100-215`)

The same for the programs on blocks: a buffer is only changed, logged or released by the call that holds it, and
every function leaves the buffers the way it found them, whatever the blocks hold. With that the calls follow the
protocol with their contents written out, `Call.prog_follows`.
-/

namespace Xv6.Sysfile

variable {I F : Type} [DecidableEq I] [DecidableEq F]

namespace Ghost

omit [DecidableEq I] [DecidableEq F]

def take (g : Ghost I F) (b : Nat) : Ghost I F := { g with bufs := insert b g.bufs }
def drop (g : Ghost I F) (b : Nat) : Ghost I F := { g with bufs := g.bufs.erase b }

theorem mem_take (g : Ghost I F) (b : Nat) : b ∈ (g.take b).bufs := Finset.mem_insert_self b g.bufs

variable {g : Ghost I F} {b b' : Nat}

theorem mem_take_of_mem (h : b ∈ g.bufs) : b ∈ (g.take b').bufs :=
  Finset.mem_insert_of_mem h

theorem drop_take {b : Nat} (h : b ∉ g.bufs) : (g.take b).drop b = g := by
  simp [take, drop, h]

theorem drop_take_take (h : b ∉ g.bufs) (h' : b' ∉ (g.take b).bufs) : ((g.take b).take b').drop b = g.take b' := by
  have hne : b' ≠ b := by
    rintro rfl
    exact h' (g.mem_take b')
  simp [take, drop, Finset.erase_insert_of_ne hne, h]

end Ghost

omit [DecidableEq I] [DecidableEq F] in
/-- A buffer that is held is not given again, not even to the one who holds it. -/
def buffers : Protocol Blk Blk.Resp (Ghost I F) where
  pre g
    | .bread _ => True
    | .put b _ => b ∈ g.bufs
    | .bwrite b => b ∈ g.bufs
    | .logWrite b => b ∈ g.bufs
    | .brelse b => b ∈ g.bufs
  resp g
    | .bread b, _ => b ∉ g.bufs
    | _, _ => True
  next g
    | .bread b, _ => g.take b
    | .brelse b, _ => g.drop b
    | _, _ => g

abbrev Low.Follows {α : Type} (Q : α → Ghost I F → Prop) (p : Low I F α) (g : Ghost I F) : Prop :=
  (protocol buffers).Follows Q p g

section Rules

variable {g : Ghost I F} {b : Nat} {sb : Super} {ip : I} {Q : Unit → Ghost I F → Prop}

theorem store_rule (data : Block) (hb : b ∉ g.bufs) (hQ : Q () g) : Low.Follows Q (store b data) (g.take b) := by
  refine .quiet (g.mem_take b) (fun _ => rfl) fun _ _ => .quiet (g.mem_take b) (fun _ => rfl) fun _ _ => ?_
  refine ⟨g.mem_take b, fun _ _ => ?_⟩
  show Q () ((g.take b).drop b)
  rwa [Ghost.drop_take hb]

theorem brelse_rule {α : Type} {Q : α → Ghost I F → Prop} {p : Low I F α} (hb : b ∉ g.bufs) (h : Low.Follows Q p g) :
    Low.Follows Q (do brelse b; p) (g.take b) := by
  refine .act (g.mem_take b) fun _ _ => ?_
  show Low.Follows Q p ((g.take b).drop b)
  rwa [Ghost.drop_take hb]

theorem bzero_rule (hQ : Q () g) : Low.Follows Q (bzero b) g :=
  .act trivial fun _ hb => store_rule _ hb hQ

theorem ballocLoop_rule {Q : Nat → Ghost I F → Prop} (hQ : ∀ r, Q r g) :
    ∀ n b, Low.Follows Q (ballocLoop sb n b) g
  | 0, _ => follows_panic _ _
  | n + 1, b => by
    refine .act trivial fun blk hb => ?_
    split
    · exact .bind (store_rule _ hb (.bind (bzero_rule (hQ _))))
    · exact brelse_rule hb (ballocLoop_rule hQ n _)

theorem balloc_rule {Q : Nat → Ghost I F → Prop} (hQ : ∀ r, Q r g) : Low.Follows Q (balloc sb) g :=
  ballocLoop_rule hQ _ _

theorem bfree_rule (hQ : Q () g) : Low.Follows Q (bfree sb b) g := by
  refine .act trivial fun blk hb => ?_
  split
  · exact store_rule _ hb hQ
  · exact follows_panic _ _

theorem load_rule (hQ : Q () g) : Low.Follows Q (load sb ip) g := by
  refine .act trivial fun i _ => .act trivial fun blk hb => .act trivial fun _ _ => ?_
  exact brelse_rule (p := pure ()) hb hQ

theorem iupdate_rule (hQ : Q () g) : Low.Follows Q (iupdate sb ip) g :=
  .act trivial fun _ _ => .act trivial fun _ hb => .act trivial fun _ _ =>
    store_rule _ hb hQ

theorem diallocLoop_rule {Q : Nat → Ghost I F → Prop} (type : BitVec 16) (hQ : ∀ r, Q r g) :
    ∀ n i, Low.Follows Q (diallocLoop sb type n i) g
  | 0, _ => follows_panic _ _
  | n + 1, i => by
    refine .act trivial fun blk hb => ?_
    split
    · exact .bind (store_rule _ hb (hQ _))
    · exact brelse_rule hb (diallocLoop_rule type hQ n _)

theorem setAddr_rule (j : Fin (NDIRECT + 1)) (addr : BitVec 32) (hQ : Q () g) :
    Low.Follows Q (setAddr ip j addr) g :=
  .act trivial fun _ _ => ⟨trivial, fun _ _ => hQ⟩

theorem mapAddr_rule {Q : Nat → Ghost I F → Prop} (j : Fin (NDIRECT + 1)) (hQ : ∀ r, Q r g) :
    Low.Follows Q (mapAddr sb ip j) g := by
  refine .act trivial fun d _ => ?_
  dsimp only
  split
  · exact hQ _
  · exact .bind (balloc_rule fun b => .bind (setAddr_rule j _ (hQ b)))

theorem bmap_rule {Q : Nat → Ghost I F → Prop} (bn : Nat) (hQ : ∀ r, Q r g) : Low.Follows Q (bmap sb ip bn) g := by
  rw [bmap]
  split
  · exact mapAddr_rule _ hQ
  split
  · refine .bind (mapAddr_rule _ fun ind => .act trivial fun a hind => ?_)
    split
    · exact brelse_rule hind (hQ _)
    · exact .bind (balloc_rule fun b => .bind (store_rule _ hind (hQ b)))
  · exact follows_panic _ _

theorem freeDirect_rule (hQ : Q () g) : ∀ js, Low.Follows Q (freeDirect sb ip js) g
  | [] => hQ
  | j :: js => by
    refine .act trivial fun d _ => ?_
    dsimp only
    split
    · exact .bind (bfree_rule (.bind (setAddr_rule j 0 (freeDirect_rule hQ js))))
    · exact freeDirect_rule hQ js

theorem freeEntries_rule (a : Block) (hQ : Q () g) :
    ∀ js, Low.Follows Q (freeEntries sb a js) g
  | [] => hQ
  | j :: js => by
    rw [freeEntries]
    split
    · exact .bind (bfree_rule (freeEntries_rule a hQ js))
    · exact freeEntries_rule a hQ js

theorem freeIndirect_rule (hQ : Q () g) : Low.Follows Q (freeIndirect sb ip) g := by
  refine .act trivial fun d _ => ?_
  dsimp only
  split
  · refine .act trivial fun a ha => .bind (freeEntries_rule a (brelse_rule ha ?_) _)
    exact .bind (bfree_rule (setAddr_rule _ 0 hQ))
  · exact hQ

theorem itrunc_rule (hQ : Q () g) : Low.Follows Q (itrunc sb ip) g := by
  refine .bind (freeDirect_rule (.bind (freeIndirect_rule ?_)) _)
  exact .act trivial fun _ _ => .act trivial fun _ _ => iupdate_rule hQ

theorem readLoop_rule {Q : List UInt8 → Ghost I F → Prop} (hQ : ∀ r, Q r g) :
    ∀ fuel off n, Low.Follows Q (readLoop sb ip fuel off n) g
  | 0, _, _ => hQ _
  | fuel + 1, off, n => by
    rw [readLoop]
    split
    · exact hQ _
    · refine .bind (bmap_rule _ fun b => .act trivial fun blk hb => brelse_rule hb (.bind ?_))
      exact readLoop_rule (fun r => hQ _) fuel _ _

theorem readBytes_rule {Q : Option (List UInt8) → Ghost I F → Prop} (off n : BitVec 32) (hQ : ∀ r, Q r g) :
    Low.Follows Q (readBytes sb ip off n) g := by
  refine .act trivial fun d _ => ?_
  dsimp only
  split
  · exact hQ none
  · exact .bind (readLoop_rule (fun r => hQ (some r)) _ _ _)

theorem writeLoop_rule (hQ : Q () g) :
    ∀ fuel off src, Low.Follows Q (writeLoop sb ip fuel off src) g
  | 0, _, _ => hQ
  | fuel + 1, off, src => by
    rw [writeLoop]
    split
    · exact hQ
    · refine .bind (bmap_rule _ fun b => .act trivial fun blk hb => .bind (store_rule _ hb ?_))
      exact writeLoop_rule hQ fuel _ _

theorem writeBytes_rule {Q : Option Nat → Ghost I F → Prop} (off : BitVec 32) (src : List UInt8) (hQ : ∀ r, Q r g) :
    Low.Follows Q (writeBytes sb ip off src) g := by
  refine .act trivial fun d _ => ?_
  split
  · exact hQ none
  split
  · exact hQ none
  refine .bind (writeLoop_rule (.act trivial fun d _ => ?_) _ _ _)
  split
  · exact .act trivial fun _ _ => .bind (iupdate_rule (hQ _))
  · exact hQ _

theorem writeLog_rule (hQ : Q () g) : ∀ tail bs, Low.Follows Q (writeLog sb tail bs) g
  | _, [] => hQ
  | tail, b :: bs => by
    refine .act trivial fun _ hlb => .act trivial fun data hb => ?_
    refine .quiet (Ghost.mem_take_of_mem (g.mem_take _)) (fun _ => rfl) fun _ _ => ?_
    refine .quiet (Ghost.mem_take_of_mem (g.mem_take _)) (fun _ => rfl) fun _ _ => ?_
    exact brelse_rule hb (brelse_rule hlb (writeLog_rule hQ _ bs))

theorem writeHead_rule (blocks : List Nat) (hQ : Q () g) : Low.Follows Q (writeHead sb blocks) g := by
  refine .act trivial fun blk hb => .quiet (g.mem_take _) (fun _ => rfl) fun _ _ => ?_
  exact .quiet (g.mem_take _) (fun _ => rfl) fun _ _ => brelse_rule (p := pure ()) hb hQ

theorem installTrans_rule (hQ : Q () g) :
    ∀ tail bs, Low.Follows Q (installTrans sb tail bs) g
  | _, [] => hQ
  | tail, b :: bs => by
    refine .act trivial fun _ hlb => .act trivial fun _ hb => .quiet (Ghost.mem_take _ b) (fun _ => rfl) fun _ _ => ?_
    refine .quiet (Ghost.mem_take _ b) (fun _ => rfl) fun _ _ => ?_
    refine .act (Ghost.mem_take_of_mem (g.mem_take _)) fun _ _ => ?_
    -- released in the order in which they were taken
    show Low.Follows Q _ (((g.take (sb.logstart + tail + 1)).take b).drop (sb.logstart + tail + 1))
    rw [Ghost.drop_take_take hlb hb]
    exact brelse_rule (fun h => hb (Ghost.mem_take_of_mem h)) (installTrans_rule hQ _ bs)

theorem commit_rule (blocks : List Nat) (hQ : Q () g) : Low.Follows Q (commit sb blocks) g := by
  rw [commit]
  split
  · exact .bind (writeLog_rule (.bind (writeHead_rule _ (.bind (installTrans_rule (writeHead_rule _ hQ) _ _)))) _ _)
  · exact hQ

theorem impl_rule (c : Content I) {Q : c.Resp → Ghost I F → Prop} (hQ : ∀ r, Q r g) :
    Low.Follows Q (impl sb c) g := by
  cases c with
  | load ip => exact load_rule (hQ ())
  | iupdate ip => exact iupdate_rule (hQ ())
  | itrunc ip => exact itrunc_rule (hQ ())
  | ialloc dev type => exact diallocLoop_rule type hQ _ _
  | readBytes ip off n => exact readBytes_rule off n hQ
  | writeBytes ip off src => exact writeBytes_rule off src hQ
  | readDe dp off =>
    refine .bind (readBytes_rule off 16 fun r => ?_)
    cases r with
    | none => exact hQ none
    | some b => exact hQ _
  | writeDe dp off de => exact .bind (writeBytes_rule off _ fun r => hQ _)
  | commit blocks => exact commit_rule blocks (hQ ())

end Rules

/-- **Every call that starts at rest follows the protocol down to its buffers and ends at rest.** -/
theorem Call.prog_follows (sb : Super) (c : Call) {g : Ghost I F} (h : g.Rest) : Low.Follows Done (c.prog sb) g := by
  refine (c.code_follows h).expand ?_
  rintro (a | c) g Q hpre hQ
  · exact ⟨hpre, hQ⟩
  · exact impl_rule c fun r => hQ r trivial

end Xv6.Sysfile
