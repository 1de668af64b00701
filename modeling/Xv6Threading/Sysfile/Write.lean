import Mathlib.Order.Interval.Finset.Nat
import Xv6Threading.Sysfile.Solo

/-!
# Writing to files (`fs.c:24-95`, `fs.c:372-400`, `fs.c:452-511`)

What `balloc`, `bmap` and `writei` do for one process alone with the disk, in a transaction. A block is free if its bit is
clear; a write has to fill the slots it touches that are empty, and needs as many free blocks (`Enough`). Each block that is
written is logged, and the log has room for `nlog - 1` (`FitsLog`).

| here | there |
| --- | --- |
| `dstart` | the first block behind the bitmap (`fs.h:7-11`) |
| `Marked` | `bp->data[bi/8] & (1 << (bi % 8))`, for the bitmap block and the bit of a block |
| `Sound` | the map of the inodes `L`: different blocks behind the bitmap, all of them marked |
| `touched` | the slots `bmap` goes through for bytes `off` to `off + n` |
| `logBlocks` | the bitmap blocks, and the blocks in the slots `T` |
| `Refuses` | the two tests at `fs.c:493-496` |
-/

namespace Xv6.Sysfile

open Function

def dstart (sb : Super) : Nat := sb.bmapstart + sb.size / BPB + 1

def Marked (sb : Super) (blk : Nat → Block) (b : Nat) : Prop := Codec.Bit (blk (BBLOCK sb b)) (b % BPB)

instance (sb : Super) (blk : Nat → Block) (b : Nat) : Decidable (Marked sb blk b) :=
  inferInstanceAs (Decidable (Codec.Bit _ _))

/-- Blocks in use for files. -/
def InUse (sb : Super) (blk : Nat → Block) : Set Nat := { b | dstart sb ≤ b ∧ b < sb.size ∧ Marked sb blk b }

structure Sound (sb : Super) (L : Set Nat) (s : Solo) : Prop where
  inodes : sb.inodestart + sb.ninodes / IPB + 1 ≤ sb.bmapstart
  size : sb.size < 2 ^ 32
  known : ∀ i ∈ L, i < sb.ninodes
  reserved : ∀ b, b < dstart sb → b < sb.size → Marked sb s.blk b
  placed : Placement (place s.blk s.node) (slots L) (InUse sb s.blk)

theorem Sound.setTrans {sb : Super} {L : Set Nat} {s : Solo} (h : Sound sb L s) (t : Option (Finset Nat)) :
    Sound sb L { s with trans := t } := ⟨h.inodes, h.size, h.known, h.reserved, h.placed⟩

def freeBlocks (sb : Super) (s : Solo) : Finset Nat := (Finset.range sb.size).filter fun b => ¬ Marked sb s.blk b

def emptySlots (s : Solo) (ip : Nat) (T : Finset Nat) : Finset Nat := T.filter fun k => place s.blk s.node (ip, k) = 0

def Enough (sb : Super) (ip : Nat) (T : Finset Nat) (s : Solo) : Prop :=
  (emptySlots s ip T).card ≤ (freeBlocks sb s).card

instance (sb : Super) (ip : Nat) (T : Finset Nat) (s : Solo) : Decidable (Enough sb ip T s) :=
  inferInstanceAs (Decidable (_ ≤ _))

def Solo.lh (s : Solo) : Finset Nat := s.trans.getD ∅

def filledSlots (s : Solo) (ip : Nat) (T : Finset Nat) : Finset Nat := T.filter fun k => place s.blk s.node (ip, k) ≠ 0

def logBlocks (sb : Super) (ip : Nat) (T : Finset Nat) (s : Solo) : Finset Nat :=
  Finset.Ico sb.bmapstart (dstart sb) ∪ (filledSlots s ip T).image fun k => place s.blk s.node (ip, k)

/-- What is in the log already, the bitmap, a block for each of the slots and the block of the inode: together they fit
the log. -/
def FitsLog (sb : Super) (ip : Nat) (T : Finset Nat) (s : Solo) : Prop :=
  (s.lh \ logBlocks sb ip T s).card + (dstart sb - sb.bmapstart) + T.card + 1 ≤ Log.nlog - 1

instance (sb : Super) (ip : Nat) (T : Finset Nat) (s : Solo) : Decidable (FitsLog sb ip T s) :=
  inferInstanceAs (Decidable (_ ≤ _))

variable {F : Type} {sb : Super} {L : Set Nat} {s s' s'' : Solo} {ip b k bn : Nat} {T : Finset Nat} {α β : Type}
  {c : Nat} {p : Low Nat F α}

theorem bblock_lt (hb : b < sb.size) : BBLOCK sb b < dstart sb := by
  have := Nat.div_le_div_right (c := 4096) hb.le
  simp only [BBLOCK, dstart, BPB]
  omega

/-! ## `balloc` -/

namespace Solo

/-- A buffer has been filled and logged. -/
def setBlk (s : Solo) (a : Nat) (data : Block) : Solo :=
  { s with blk := update s.blk a data, trans := s.trans.map (insert a) }

theorem setBlk_of_ne (s : Solo) {a c : Nat} (h : c ≠ a) (data : Block) : (s.setBlk a data).blk c = s.blk c :=
  update_of_ne h _ _

theorem setBlk_isSome (s : Solo) (a : Nat) (data : Block) : (s.setBlk a data).trans.isSome = s.trans.isSome :=
  Option.isSome_map

theorem lh_setBlk (s : Solo) (a : Nat) (data : Block) : (s.setBlk a data).lh ⊆ insert a s.lh := by
  rcases s with ⟨blk, node, valid, _ | J⟩
  · exact Finset.empty_subset _
  · exact Finset.Subset.refl _

/-- The block is marked and zeroed. -/
def take (sb : Super) (s : Solo) (b : Nat) : Solo :=
  (s.setBlk (BBLOCK sb b) (Codec.setBit (s.blk (BBLOCK sb b)) (b % BPB))).setBlk b fun _ => 0

theorem take_blk (sb : Super) (s : Solo) (b : Nat) : (s.take sb b).blk =
    update (update s.blk (BBLOCK sb b) (Codec.setBit (s.blk (BBLOCK sb b)) (b % BPB))) b fun _ => 0 :=
  rfl

theorem lh_take (sb : Super) (s : Solo) (b : Nat) : (s.take sb b).lh ⊆ insert b (insert (BBLOCK sb b) s.lh) :=
  (lh_setBlk ..).trans (Finset.insert_subset_insert _ (lh_setBlk ..))

theorem take_isSome (sb : Super) (s : Solo) (b : Nat) : (s.take sb b).trans.isSome = s.trans.isSome :=
  (setBlk_isSome ..).trans (setBlk_isSome ..)

theorem exec_error {p : Low Nat F α} {e : Stop} (hp : exec p s = .error e) (f : α → Low Nat F β) :
    exec (p >>= f) s = .error e := by
  show Prog.run _ _ _ = _
  rw [Prog.run_bind]
  show (exec p s >>= _) = _
  rw [hp]
  rfl

/-- `log_write` looks for room before it looks for the block. -/
theorem exec_store (hop : s.trans.isSome) (a : Nat) (data : Block) : exec (store (F := F) a data) s =
    if Log.nlog - 1 ≤ s.lh.card then .error (.panic .tooBigATransaction) else .ok ((), s.setBlk a data) := by
  rcases s with ⟨blk, node, valid, _ | J⟩
  · cases hop
  have hlog : exec (F := F) (logWrite a) ⟨update blk a data, node, valid, some J⟩ =
      if J.card ≥ 30 ∨ J.card ≥ 29 then .error (.panic .tooBigATransaction)
      else .ok ((), ⟨update blk a data, node, valid, some (insert a J)⟩) := Prog.run_ask ..
  show exec (logWrite a >>= _) ⟨update blk a data, node, valid, some J⟩ = if 29 ≤ J.card then _ else _
  by_cases hfull : 29 ≤ J.card
  · rw [if_pos (.inr hfull)] at hlog
    rw [if_pos hfull, exec_error hlog]
  · rw [if_neg (by omega)] at hlog
    rw [if_neg hfull, exec_bind hlog]
    rfl

variable {b0 bi : Nat}

theorem findFree_some {blk : Block} (h : findFree sb blk b0 = some bi) :
    bi < BPB ∧ b0 + bi < sb.size ∧ ¬ Codec.Bit blk bi := by
  have hmem := List.mem_range.1 (List.mem_of_find?_eq_some h)
  have hbit := List.find?_some h
  simp only [decide_eq_true_eq] at hbit
  exact ⟨by omega, by omega, hbit⟩

theorem findFree_none {blk : Block} (h : findFree sb blk b0 = none) (hbi : bi < BPB)
    (hlt : b0 + bi < sb.size) : Codec.Bit blk bi := by
  have hall := List.find?_eq_none.1 h bi (List.mem_range.2 (by omega))
  simpa using hall

theorem bblock_add (sb : Super) (h0 : b0 % BPB = 0) (hbi : bi < BPB) :
    BBLOCK sb (b0 + bi) = BBLOCK sb b0 ∧ (b0 + bi) % BPB = bi := by
  simp only [BPB] at h0 hbi
  simp only [BBLOCK, BPB]
  omega

/-- The bitmap block is logged, and then the block. -/
theorem take_cases (sb : Super) (hop : s.trans.isSome) (b : Nat) {p : Low Nat F Nat} (hp : p = do
      store (BBLOCK sb b) (Codec.setBit (s.blk (BBLOCK sb b)) (b % BPB))
      bzero b
      return b) :
    exec p s = .ok (b, s.take sb b) ∨
    exec p s = .error (.panic .tooBigATransaction) ∧ Log.nlog - 1 ≤ (insert (BBLOCK sb b) s.lh).card := by
  subst hp
  have hfirst := exec_store (F := F) hop (BBLOCK sb b) (Codec.setBit (s.blk (BBLOCK sb b)) (b % BPB))
  split at hfirst
  case isTrue hfull =>
    exact .inr ⟨exec_error hfirst _, hfull.trans (Finset.card_le_card (Finset.subset_insert _ _))⟩
  have hsecond := exec_store (F := F) ((setBlk_isSome s (BBLOCK sb b)
    (Codec.setBit (s.blk (BBLOCK sb b)) (b % BPB))).trans hop) b fun _ => 0
  rw [exec_bind hfirst]
  show exec (store b _ >>= _) _ = _ ∨ exec (store b _ >>= _) _ = _ ∧ _
  split at hsecond
  case isTrue hfull => exact .inr ⟨exec_error hsecond _, hfull.trans (Finset.card_le_card (lh_setBlk ..))⟩
  case isFalse hroom => exact .inl (exec_bind hsecond _)

/-- From block `b0` on: the first free block is taken, and there is a panic if there is none. -/
theorem ballocLoop_eq (hop : s.trans.isSome) (n : Nat) : ∀ b0 : Nat, b0 % BPB = 0 → sb.size ≤ b0 + n * BPB →
    (∃ b, b0 ≤ b ∧ b < sb.size ∧ ¬ Marked sb s.blk b ∧
      (exec (ballocLoop (F := F) sb n b0) s = .ok (b, s.take sb b) ∨
        exec (ballocLoop (F := F) sb n b0) s = .error (.panic .tooBigATransaction) ∧
          Log.nlog - 1 ≤ (insert (BBLOCK sb b) s.lh).card)) ∨
    (∀ b, b0 ≤ b → b < sb.size → Marked sb s.blk b) ∧
      exec (ballocLoop (F := F) sb n b0) s = .error (.panic .ballocOutOfBlocks) := by
  induction n with
  | zero =>
    intro b0 _ hn
    exact .inr ⟨fun b h1 h2 => by omega, rfl⟩
  | succ n ih =>
    intro b0 h0 hn
    rw [ballocLoop, exec_bread]
    cases hf : findFree sb (s.blk (BBLOCK sb b0)) b0 with
    | some bi =>
      obtain ⟨hbi, hlt, hbit⟩ := findFree_some hf
      obtain ⟨hbb, hmod⟩ := bblock_add sb h0 hbi
      refine .inl ⟨b0 + bi, by omega, hlt, ?_, ?_⟩
      · rw [Marked, hbb, hmod]
        exact hbit
      · exact take_cases sb hop (b0 + bi) (by rw [hbb, hmod])
    | none =>
      have hrest : ∀ b, b0 ≤ b → b < b0 + BPB → b < sb.size → Marked sb s.blk b := by
        intro b h1 h2 h3
        obtain ⟨bi, rfl⟩ : ∃ bi, b = b0 + bi := ⟨b - b0, by omega⟩
        obtain ⟨hbb, hmod⟩ := bblock_add sb h0 (show bi < BPB by omega)
        rw [Marked, hbb, hmod]
        exact findFree_none hf (by omega) h3
      have hn' : sb.size ≤ b0 + BPB + n * BPB := by
        rw [Nat.succ_mul] at hn
        omega
      rcases ih (b0 + BPB) (by simp only [BPB] at *; omega) hn' with ⟨b, h1, h2, h3, h4⟩ | ⟨hall, herr⟩
      · exact .inl ⟨b, by omega, h2, h3, h4⟩
      refine .inr ⟨fun b h1 h2 => ?_, herr⟩
      by_cases hb : b < b0 + BPB
      · exact hrest b h1 hb h2
      · exact hall b (by omega) h2

theorem balloc_cases (sb : Super) (hop : s.trans.isSome) :
    (∃ b, b < sb.size ∧ ¬ Marked sb s.blk b ∧
      (exec (balloc (F := F) sb) s = .ok (b, s.take sb b) ∨
        exec (balloc (F := F) sb) s = .error (.panic .tooBigATransaction) ∧
          Log.nlog - 1 ≤ (insert (BBLOCK sb b) s.lh).card)) ∨
    (∀ b, b < sb.size → Marked sb s.blk b) ∧ exec (balloc (F := F) sb) s = .error (.panic .ballocOutOfBlocks) := by
  have hcover : sb.size ≤ 0 + (sb.size + BPB - 1) / BPB * BPB := by
    simp only [BPB]
    omega
  rcases ballocLoop_eq (F := F) hop ((sb.size + BPB - 1) / BPB) 0 rfl hcover with ⟨b, -, h⟩ | ⟨hall, h⟩
  · exact .inl ⟨b, h⟩
  · exact .inr ⟨fun b => hall b (Nat.zero_le b), h⟩

end Solo

/-! ## A block is taken -/

theorem Sound.dstart_le (h : Sound sb L s) (hb : b < sb.size) (hfree : ¬ Marked sb s.blk b) : dstart sb ≤ b := by
  by_contra hlt
  exact hfree (h.reserved b (by omega) hb)

theorem marked_take (hb : b < sb.size) (hdata : dstart sb ≤ b) (hc : c < sb.size) :
    Marked sb (s.take sb b).blk c ↔ c = b ∨ Marked sb s.blk c := by
  have hbc := bblock_lt hc
  rw [Marked, Solo.take_blk, update_of_ne (by omega)]
  by_cases hsame : BBLOCK sb c = BBLOCK sb b
  · rw [hsame, update_self, Codec.bit_setBit, Marked, hsame]
    refine or_congr_left ?_
    simp only [BBLOCK, BPB] at hsame ⊢
    omega
  rw [update_of_ne hsame, Marked]
  have hne : c ≠ b := by
    rintro rfl
    exact hsame rfl
  simp [hne]

theorem inUse_take (hb : b < sb.size) (hdata : dstart sb ≤ b) :
    InUse sb (s.take sb b).blk = insert b (InUse sb s.blk) := by
  ext c
  simp only [InUse, Set.mem_ofPred_eq, Set.mem_insert_iff]
  constructor
  · rintro ⟨h1, h2, h3⟩
    exact ((marked_take hb hdata h2).1 h3).imp_right fun h3 => ⟨h1, h2, h3⟩
  · rintro (rfl | ⟨h1, h2, h3⟩)
    · exact ⟨hdata, hb, (marked_take hb hdata hb).2 (.inl rfl)⟩
    · exact ⟨h1, h2, (marked_take hb hdata h2).2 (.inr h3)⟩

theorem take_blk_of_inUse (hb : b < sb.size) (hfree : ¬ Marked sb s.blk b) (hc : c ∈ InUse sb s.blk) :
    (s.take sb b).blk c = s.blk c := by
  obtain ⟨hlo, -, hm⟩ := hc
  have hbb := bblock_lt hb
  have hne : c ≠ b := by
    rintro rfl
    exact hfree hm
  rw [Solo.take_blk, update_of_ne hne, update_of_ne (by omega)]

theorem Sound.place_take (h : Sound sb L s) (hb : b < sb.size) (hfree : ¬ Marked sb s.blk b) {p : Nat × Nat}
    (hp : p ∈ slots L) : place (s.take sb b).blk s.node p = place s.blk s.node p := by
  refine place_congr rfl fun h0 => ?_
  exact take_blk_of_inUse hb hfree (h.placed.mem _ (indirect_mem hp.1) h0)

/-- No slot says that the block is its own yet. -/
theorem Sound.grown_take (h : Sound sb L s) (hb : b < sb.size) (hfree : ¬ Marked sb s.blk b) :
    Grown L s.blk s.node (s.take sb b).blk s.node ∧
      Placement (place (s.take sb b).blk s.node) (slots L) (InUse sb s.blk) := by
  have hplace := fun p (hp : p ∈ slots L) => h.place_take hb hfree hp
  refine ⟨⟨fun p hp _ => hplace p hp, ?_, ?_⟩, h.placed.congr hplace⟩
  · intro p hp _ hne
    exact take_blk_of_inUse hb hfree (h.placed.mem p hp hne)
  · intro p hp _ h0 hne
    exact absurd ((hplace p hp).trans h0) hne

/-! ## `bmap` -/

/-- What the panics of a program that fills the slots `T` mean. -/
def Lacks (sb : Super) (ip : Nat) (T : Finset Nat) (s : Solo) : Panic → Prop
  | .ballocOutOfBlocks => ¬ Enough sb ip T s
  | .tooBigATransaction => ¬ FitsLog sb ip T s
  | _ => False

/-- A program ends well, unless the disk has too few blocks for the slots `T`, or the log too little room. -/
def Succeeds {α : Type} (sb : Super) (ip : Nat) (T : Finset Nat) (p : Low Nat F α) (s : Solo)
    (Q : α → Solo → Prop) : Prop :=
  (∃ e, Solo.exec p s = .error (.panic e) ∧ Lacks sb ip T s e) ∨ ∃ x s', Solo.exec p s = .ok (x, s') ∧ Q x s'

theorem Succeeds.bind {f : α → Low Nat F β} {P : α → Solo → Prop} {Q : β → Solo → Prop}
    (hp : Succeeds sb ip T p s P) (hlacks : ∀ x s', P x s' → ∀ {e}, Lacks sb ip T s' e → Lacks sb ip T s e)
    (hf : ∀ x s', P x s' → Succeeds sb ip T (f x) s' Q) : Succeeds sb ip T (p >>= f) s Q := by
  rcases hp with ⟨e, herr, hl⟩ | ⟨x, s', hex, hP⟩
  · exact .inl ⟨e, Solo.exec_error herr f, hl⟩
  · rcases hf x s' hP with ⟨e, herr, hl⟩ | ⟨y, s'', hex', hQ⟩
    · exact .inl ⟨e, (Solo.exec_bind hex f).trans herr, hlacks x s' hP hl⟩
    · exact .inr ⟨y, s'', (Solo.exec_bind hex f).trans hex', hQ⟩

/-! ### The log -/

theorem card_logBlocks (sb : Super) (ip : Nat) (T : Finset Nat) (s : Solo) :
    (logBlocks sb ip T s).card + (emptySlots s ip T).card ≤ dstart sb - sb.bmapstart + T.card := by
  have hsplit : (emptySlots s ip T).card + (filledSlots s ip T).card = T.card :=
    Finset.card_filter_add_card_filter_not _
  have hbits := Nat.card_Ico sb.bmapstart (dstart sb)
  have himage : ((filledSlots s ip T).image fun k => place s.blk s.node (ip, k)).card ≤ (filledSlots s ip T).card :=
    Finset.card_image_le
  have hunion := Finset.card_union_le (Finset.Ico sb.bmapstart (dstart sb))
    ((filledSlots s ip T).image fun k => place s.blk s.node (ip, k))
  rw [logBlocks]
  omega

/-- With room for the write there is room for what it has logged so far, and for a block for each empty slot. -/
theorem FitsLog.card_le (h : FitsLog sb ip T s) {S : Finset Nat} (hS : S ⊆ s.lh ∪ logBlocks sb ip T s) :
    S.card + (emptySlots s ip T).card < Log.nlog - 1 := by
  have hcard := Finset.card_le_card hS
  rw [← Finset.sdiff_union_self_eq_union] at hcard
  have hunion := Finset.card_union_le (s.lh \ logBlocks sb ip T s) (logBlocks sb ip T s)
  have hblocks := card_logBlocks sb ip T s
  rw [FitsLog] at h
  omega

theorem bblock_mem_logBlocks (hb : b < sb.size) : BBLOCK sb b ∈ logBlocks sb ip T s :=
  Finset.mem_union_left _ (Finset.mem_Ico.2 ⟨Nat.le_add_left _ _, bblock_lt hb⟩)

theorem place_mem_logBlocks (sb : Super) (s : Solo) (hk : k ∈ T) (hne : place s.blk s.node (ip, k) ≠ 0) :
    place s.blk s.node (ip, k) ∈ logBlocks sb ip T s :=
  Finset.mem_union_right _ (Finset.mem_image_of_mem (fun k => place s.blk s.node (ip, k)) (Finset.mem_filter.2 ⟨hk, hne⟩))

theorem insert_bblock_subset (hb : b < sb.size) : insert (BBLOCK sb b) s.lh ⊆ s.lh ∪ logBlocks sb ip T s' :=
  Finset.insert_subset (Finset.mem_union_right _ (bblock_mem_logBlocks hb)) Finset.subset_union_left

/-- The block that was taken is in a slot in the end. -/
theorem lh_take_subset (s s' : Solo) (hb : b < sb.size) (hk : k ∈ T) (hself : place s'.blk s'.node (ip, k) = b)
    (hb0 : b ≠ 0) :
    (s.take sb b).lh ⊆ s.lh ∪ logBlocks sb ip T s' := by
  have hin := place_mem_logBlocks sb s' hk (hself.trans_ne hb0)
  rw [hself] at hin
  exact (Solo.lh_take sb s b).trans (Finset.insert_subset (Finset.mem_union_right _ hin) (insert_bblock_subset hb))

/-! ### The map -/

theorem Succeeds.mono {P Q : α → Solo → Prop} (hp : Succeeds sb ip T p s P)
    (h : ∀ x s', P x s' → Q x s') : Succeeds sb ip T p s Q :=
  hp.imp_right fun ⟨x, s', hex, hP⟩ => ⟨x, s', hex, h x s' hP⟩

/-- From one state to another blocks were taken for inode `ip` and blocks of it written, and all of them logged. -/
structure Evolves (sb : Super) (L : Set Nat) (ip : Nat) (T : Finset Nat) (s s' : Solo) : Prop where
  sound : Sound sb L s'
  fresh : ∀ c, c < sb.size → Marked sb s'.blk c → Marked sb s.blk c ∨ c ≠ 0 ∧ ∃ l < NSLOT, place s'.blk s'.node (ip, l) = c
  keep : ∀ p ∈ slots L, place s.blk s.node p ≠ 0 → place s'.blk s'.node p = place s.blk s.node p
  other : ∀ j, j ≠ ip → s'.node j = s.node j
  self : ∃ addrs, s'.node ip = { s.node ip with addrs := addrs }
  low : ∀ c, c < sb.bmapstart → s'.blk c = s.blk c
  valid : s'.valid = s.valid
  still : (∀ l ∈ T, place s.blk s.node (ip, l) ≠ 0) → s'.node = s.node
  log : s'.lh ⊆ s.lh ∪ logBlocks sb ip T s'
  op : s'.trans.isSome = s.trans.isSome

theorem Evolves.refl (h : Sound sb L s) : Evolves sb L ip T s s :=
  ⟨h, fun _ _ => .inl, fun _ _ _ => rfl, fun _ _ => rfl, ⟨_, rfl⟩, fun _ _ => rfl, rfl, fun _ => rfl,
    Finset.subset_union_left, rfl⟩

section

variable (hip : ip ∈ L) (hT : ∀ l ∈ T, l < NSLOT)
include hip hT

theorem Evolves.logBlocks_subset (h : Evolves sb L ip T s s') : logBlocks sb ip T s ⊆ logBlocks sb ip T s' := by
  refine Finset.union_subset_union_right fun b hb => ?_
  obtain ⟨k, hk, rfl⟩ := Finset.mem_image.1 hb
  obtain ⟨hk, hne⟩ := Finset.mem_filter.1 hk
  have hsame := h.keep (ip, k) ⟨hip, hT k hk⟩ hne
  exact Finset.mem_image.2 ⟨k, Finset.mem_filter.2 ⟨hk, hsame.trans_ne hne⟩, hsame⟩

theorem Evolves.fitsLog (h : Evolves sb L ip T s s') (hf : FitsLog sb ip T s) : FitsLog sb ip T s' := by
  have hle : (s'.lh \ logBlocks sb ip T s').card ≤ (s.lh \ logBlocks sb ip T s).card := by
    refine Finset.card_le_card fun b hb => ?_
    obtain ⟨hb, hnot⟩ := Finset.mem_sdiff.1 hb
    refine Finset.mem_sdiff.2 ⟨(Finset.mem_union.1 (h.log hb)).resolve_right hnot, fun hin => hnot ?_⟩
    exact h.logBlocks_subset hip hT hin
  rw [FitsLog] at hf ⊢
  omega

theorem Evolves.lacks (h : Evolves sb L ip T s s') (henough : Enough sb ip T s → Enough sb ip T s') {e : Panic}
    (he : Lacks sb ip T s' e) : Lacks sb ip T s e := by
  cases e with
  | ballocOutOfBlocks => exact fun h => he (henough h)
  | tooBigATransaction => exact fun hf => he (h.fitsLog hip hT hf)
  | _ => exact he

/-- What is mapped stays so. -/
theorem Evolves.mapped (h : Evolves sb L ip T s s') (hm : ∀ l ∈ T, place s.blk s.node (ip, l) ≠ 0) :
    ∀ l ∈ T, place s'.blk s'.node (ip, l) ≠ 0 := by
  intro l hl
  exact (h.keep (ip, l) ⟨hip, hT l hl⟩ (hm l hl)).trans_ne (hm l hl)

theorem Evolves.trans (h : Evolves sb L ip T s s') (h' : Evolves sb L ip T s' s'') : Evolves sb L ip T s s'' := by
  obtain ⟨a, ha⟩ := h.self
  obtain ⟨a', ha'⟩ := h'.self
  refine ⟨h'.sound, ?_, ?_, ?_, ⟨a', by rw [ha', ha]⟩, ?_, h'.valid.trans h.valid,
    fun hm => (h'.still (h.mapped hip hT hm)).trans (h.still hm), ?_, h'.op.trans h.op⟩
  · intro c hc hm
    rcases h'.fresh c hc hm with hm | hnew
    · refine (h.fresh c hc hm).imp_right ?_
      rintro ⟨hc0, l, hl, hpl⟩
      exact ⟨hc0, l, hl, (h'.keep (ip, l) ⟨hip, hl⟩ (hpl.trans_ne hc0)).trans hpl⟩
    · exact .inr hnew
  · intro p hp hne
    have hsame := h.keep p hp hne
    exact (h'.keep p hp (hsame.trans_ne hne)).trans hsame
  · intro j hj
    rw [h'.other j hj, h.other j hj]
  · intro c hc
    rw [h'.low c hc, h.low c hc]
  · refine h'.log.trans (Finset.union_subset (h.log.trans ?_) Finset.subset_union_right)
    exact Finset.union_subset_union_right (h'.logBlocks_subset hip hT)

end

/-- The map has grown, by all blocks that were taken. -/
structure Extends (sb : Super) (L : Set Nat) (ip : Nat) (T : Finset Nat) (s s' : Solo) : Prop extends
    Evolves sb L ip T s s' where
  enough : Enough sb ip T s → Enough sb ip T s'
  grown : Grown L s.blk s.node s'.blk s'.node

theorem Extends.refl (h : Sound sb L s) : Extends sb L ip T s s := ⟨.refl h, id, .refl _ _ _⟩

theorem Extends.trans (hip : ip ∈ L) (hT : ∀ l ∈ T, l < NSLOT) (h : Extends sb L ip T s s')
    (h' : Extends sb L ip T s' s'') : Extends sb L ip T s s'' :=
  ⟨h.toEvolves.trans hip hT h'.toEvolves, h'.enough ∘ h.enough, h.grown.trans h'.grown⟩

/-- Filling a slot uses up one empty slot and one free block. -/
theorem Enough.fill (h : Enough sb ip T s) (hk : k ∈ T) (h0 : place s.blk s.node (ip, k) = 0) (hb : b < sb.size)
    (hb0 : b ≠ 0) (hfree : ¬ Marked sb s.blk b)
    (hplace : ∀ l ∈ T, place s'.blk s'.node (ip, l) = if l = k then b else place s.blk s.node (ip, l))
    (hmark : ∀ c, c < sb.size → (Marked sb s'.blk c ↔ c = b ∨ Marked sb s.blk c)) : Enough sb ip T s' := by
  have hempty : emptySlots s' ip T = (emptySlots s ip T).erase k := by
    ext l
    simp only [emptySlots, Finset.mem_filter, Finset.mem_erase]
    constructor
    · rintro ⟨hl, hl0⟩
      rw [hplace l hl] at hl0
      split at hl0
      · exact absurd hl0 hb0
      · exact ⟨‹_›, hl, hl0⟩
    · rintro ⟨hne, hl, hl0⟩
      exact ⟨hl, by rw [hplace l hl, if_neg hne, hl0]⟩
  have hfree' : freeBlocks sb s' = (freeBlocks sb s).erase b := by
    ext c
    simp only [freeBlocks, Finset.mem_filter, Finset.mem_range, Finset.mem_erase]
    constructor
    · rintro ⟨hc, hm⟩
      rw [hmark c hc, not_or] at hm
      exact ⟨hm.1, hc, hm.2⟩
    · rintro ⟨hne, hc, hm⟩
      exact ⟨hc, by rw [hmark c hc, not_or]; exact ⟨hne, hm⟩⟩
  have hkmem : k ∈ emptySlots s ip T := Finset.mem_filter.2 ⟨hk, h0⟩
  have hbmem : b ∈ freeBlocks sb s := Finset.mem_filter.2 ⟨Finset.mem_range.2 hb, hfree⟩
  rw [Enough, hempty, hfree', Finset.card_erase_of_mem hkmem, Finset.card_erase_of_mem hbmem]
  exact Nat.sub_le_sub_right h 1

theorem emptySlots_pos (hk : k ∈ T) (h0 : place s.blk s.node (ip, k) = 0) : 0 < (emptySlots s ip T).card :=
  Finset.card_pos.2 ⟨k, Finset.mem_filter.2 ⟨hk, h0⟩⟩

/-- With enough free blocks there is one for an empty slot, and with room in the log it is taken. -/
theorem balloc_spec (hs : Sound sb L s) (hop : s.trans.isSome) (hk : k ∈ T) (h0 : place s.blk s.node (ip, k) = 0) :
    Succeeds sb ip T (balloc (F := F) sb) s fun b s' =>
      dstart sb ≤ b ∧ b < sb.size ∧ ¬ Marked sb s.blk b ∧ s' = s.take sb b := by
  have hsome := emptySlots_pos hk h0
  rcases Solo.balloc_cases (F := F) sb hop with ⟨b, hb, hfree, hex | ⟨herr, hfull⟩⟩ | ⟨hall, herr⟩
  · exact .inr ⟨b, _, hex, hs.dstart_le hb hfree, hb, hfree, rfl⟩
  · refine .inl ⟨_, herr, fun h => ?_⟩
    have := h.card_le (insert_bblock_subset hb)
    omega
  refine .inl ⟨_, herr, fun h => ?_⟩
  have hnone : (freeBlocks sb s).card = 0 := by
    rw [Finset.card_eq_zero, freeBlocks, Finset.filter_eq_empty_iff]
    intro b hb
    exact not_not.2 (hall b (Finset.mem_range.1 hb))
  rw [Enough, hnone] at h
  omega

theorem toNat_block (h : Sound sb L s) (hb : b < sb.size) : (BitVec.ofNat 32 b).toNat = b :=
  Nat.mod_eq_of_lt (Nat.lt_trans hb h.size)

theorem bmapstart_lt (sb : Super) : sb.bmapstart < dstart sb := Nat.lt_succ_of_le (Nat.le_add_right _ _)

theorem low_take (hdata : dstart sb ≤ b) (hc : c < sb.bmapstart) : (s.take sb b).blk c = s.blk c := by
  have hbb : sb.bmapstart ≤ BBLOCK sb b := Nat.le_add_left _ _
  have hds := bmapstart_lt sb
  rw [Solo.take_blk, update_of_ne (by omega), update_of_ne (by omega)]

variable {blk : Nat → Block}

theorem marked_update {a c : Nat} (ha : dstart sb ≤ a) (hc : c < sb.size) (data : Block) :
    Marked sb (update blk a data) c ↔ Marked sb blk c := by
  have := bblock_lt hc
  rw [Marked, update_of_ne (by omega), Marked]

theorem inUse_update {a : Nat} (ha : dstart sb ≤ a) (data : Block) :
    InUse sb (update blk a data) = InUse sb blk := by
  ext c
  simp only [InUse, Set.mem_ofPred_eq]
  exact and_congr_right fun _ => and_congr_right fun hc => marked_update ha hc data

theorem dstart_pos (sb : Super) : 0 < dstart sb := Nat.succ_pos _

section

variable (h : Sound sb L s) (hop : s.trans.isSome) (hip : ip ∈ L) (hT : ∀ l ∈ T, l < NSLOT)
include h hop hip hT

omit hop hip in
/-- A free block is put into the empty slot `k`. -/
theorem Extends.fill (hkT : k ∈ T) (h0 : place s.blk s.node (ip, k) = 0) (hb : b < sb.size) (hb0 : b ≠ 0)
    (hfree : ¬ Marked sb s.blk b) (hmark : ∀ c, c < sb.size → (Marked sb s'.blk c ↔ c = b ∨ Marked sb s.blk c))
    (hplace : ∀ l < NSLOT, place s'.blk s'.node (ip, l) = if l = k then b else place s.blk s.node (ip, l))
    (hgrown : Grown L s.blk s.node s'.blk s'.node) (hplaced : Placement (place s'.blk s'.node) (slots L) (InUse sb s'.blk))
    (hother : ∀ j, j ≠ ip → s'.node j = s.node j) (hself : ∃ addrs, s'.node ip = { s.node ip with addrs := addrs })
    (hlow : ∀ c, c < sb.bmapstart → s'.blk c = s.blk c) (hvalid : s'.valid = s.valid)
    (hlog : s'.lh ⊆ s.lh ∪ logBlocks sb ip T s') (hop : s'.trans.isSome = s.trans.isSome) : Extends sb L ip T s s' := by
  have hreserved : ∀ c, c < dstart sb → c < sb.size → Marked sb s'.blk c :=
    fun c hc hlt => (hmark c hlt).2 (.inr (h.reserved c hc hlt))
  refine ⟨⟨⟨h.inodes, h.size, h.known, hreserved, hplaced⟩, fun c hc hm => ?_, hgrown.keep, hother, hself, hlow, hvalid,
    fun hm => absurd h0 (hm k hkT), hlog, hop⟩, fun he => ?_, hgrown⟩
  · refine ((hmark c hc).1 hm).symm.imp_right ?_
    rintro rfl
    exact ⟨hb0, k, hT k hkT, (hplace k (hT k hkT)).trans (if_pos rfl)⟩
  · exact he.fill hkT h0 hb hb0 hfree (fun l hl => hplace l (hT l hl)) hmark

/-- An address of the inode is there afterwards. -/
theorem mapAddr_spec (hk : k ≤ NDIRECT) (hkT : k ∈ T) :
    Succeeds sb ip T (mapAddr (F := F) sb ip (Fin.ofNat _ k)) s fun b s' =>
      b = place s'.blk s'.node (ip, k) ∧ b ≠ 0 ∧ Extends sb L ip T s s' := by
  by_cases h0 : place s.blk s.node (ip, k) = 0
  case neg => exact .inr ⟨_, s, Solo.mapAddr_eq hk h0, rfl, h0, .refl h⟩
  have haddr : (s.node ip).addrs (Fin.ofNat _ k) = 0 := by
    rw [place_direct ip hk] at h0
    exact BitVec.eq_of_toNat_eq h0
  rcases balloc_spec (F := F) h hop hkT h0 with ⟨e, herr, hl⟩ | ⟨b, _, hex, hdata, hb, hfree, rfl⟩
  · refine .inl ⟨e, ?_, hl⟩
    rw [mapAddr, Solo.exec_fields, if_neg (not_not.2 haddr)]
    exact Solo.exec_error herr _
  have hb0 : b ≠ 0 := by
    have := dstart_pos sb
    omega
  have hx := toNat_block h hb
  have hslot : (ip, k) ∈ slots L := ⟨hip, by show k < NSLOT; simp only [NSLOT]; omega⟩
  obtain ⟨hg1, hp1⟩ := h.grown_take hb hfree
  have h0' : place (s.take sb b).blk s.node (ip, k) = 0 := (h.place_take hb hfree hslot).trans h0
  obtain ⟨hg2, hp2⟩ := Grown.setAddr hp1 hk h0' (x := BitVec.ofNat 32 b) (by rwa [hx])
    (by rw [hx]; exact fun hin => hfree hin.2.2) (by rw [hx]; exact update_self ..)
  have hplace := place_setAddr (x := BitVec.ofNat 32 b) ip hk h0' (by rwa [hx])
    fun _ => by rw [hx]; exact update_self ..
  have hslots : ∀ l < NSLOT, place (s.take sb b).blk
      (update s.node ip ((s.node ip).setAddr (Fin.ofNat _ k) (BitVec.ofNat 32 b))) (ip, l) =
        if l = k then b else place s.blk s.node (ip, l) := by
    intro l hl
    rw [hplace, hx, h.place_take hb hfree ⟨hip, hl⟩]
    simp
  have hself := (hslots k hslot.2).trans (if_pos rfl)
  refine .inr ⟨b, { s.take sb b with
    node := update s.node ip ((s.node ip).setAddr (Fin.ofNat _ k) (BitVec.ofNat 32 b)) }, ?_, hself.symm, hb0, ?_⟩
  · rw [mapAddr, Solo.exec_fields, if_neg (not_not.2 haddr), Solo.exec_bind hex]
    rfl
  rw [hx, ← inUse_take hb hdata] at hp2
  exact .fill h hT hkT h0 hb hb0 hfree (fun c hc => marked_take hb hdata hc) hslots (hg1.trans hg2) hp2
    (fun j hj => update_of_ne hj _ _) ⟨_, update_self ..⟩ (fun c hc => low_take hdata hc) rfl
    (lh_take_subset _ _ hb hkT hself hb0) (Solo.take_isSome ..)

/-- The block of the file is the entry `e` of the indirect block, and the entry is empty. -/
theorem fillEntry_spec {e : Nat} (hen : e < NINDIRECT)
    (hkT : NDIRECT + 1 + e ∈ T) (hindT : NDIRECT ∈ T) (hind : place s.blk s.node (ip, NDIRECT) ≠ 0)
    (h0 : place s.blk s.node (ip, NDIRECT + 1 + e) = 0) : let ind := place s.blk s.node (ip, NDIRECT)
    Succeeds sb ip T (do
      let b ← balloc (F := F) sb
      store ind (setUint (s.blk ind) e (BitVec.ofNat 32 b))
      return b) s fun b s' => b = place s'.blk s'.node (ip, NDIRECT + 1 + e) ∧ b ≠ 0 ∧ Extends sb L ip T s s' := by
  intro ind
  rcases balloc_spec (F := F) h hop hkT h0 with ⟨e, herr, hl⟩ | ⟨b, _, hex, hdata, hb, hfree, rfl⟩
  · exact .inl ⟨e, Solo.exec_error herr _, hl⟩
  rw [Succeeds, Solo.exec_bind hex]
  have hstore := Solo.exec_store (F := F) ((Solo.take_isSome sb s b).trans hop) ind
    (setUint (s.blk ind) e (BitVec.ofNat 32 b))
  split at hstore
  case isTrue hfull =>
    refine .inl ⟨_, Solo.exec_error hstore _, fun hfits => ?_⟩
    have hroom := hfits.card_le (insert_bblock_subset hb)
    have htaken := (Finset.card_le_card (Solo.lh_take sb s b)).trans (Finset.card_insert_le _ _)
    have := emptySlots_pos hkT h0
    omega
  have hb0 : b ≠ 0 := by
    have := dstart_pos sb
    omega
  have hx := toNat_block h hb
  have hslots : (ip, NDIRECT + 1 + e) ∈ slots L := entry_mem hip hen
  have hsame : place (s.take sb b).blk s.node (ip, NDIRECT) = ind := h.place_take hb hfree (indirect_mem hip)
  have hinUse : ind ∈ InUse sb s.blk := h.placed.mem _ (indirect_mem hip) hind
  have hblk : (s.take sb b).blk ind = s.blk ind := take_blk_of_inUse hb hfree hinUse
  obtain ⟨hg1, hp1⟩ := h.grown_take hb hfree
  have hind1 : place (s.take sb b).blk s.node (ip, NDIRECT) ≠ 0 := hsame.trans_ne hind
  have hfresh : (BitVec.ofNat 32 b).toNat ∉ InUse sb s.blk := by
    rw [hx]
    exact fun hin => hfree hin.2.2
  obtain ⟨hg2, hp2⟩ := Grown.setEntry hp1 hip hind1 hen ((h.place_take hb hfree hslots).trans h0)
    (x := BitVec.ofNat 32 b) (by rwa [hx]) hfresh (by rw [hx]; exact update_self ..)
  have hplace := fun p hp => place_setEntry hp1 hip hind1 e (BitVec.ofNat 32 b) (p := p) hp
  rw [hsame, hblk] at hg2 hp2 hplace
  have hself := hplace _ hslots
  rw [if_pos rfl, hx] at hself
  have hindirect := hplace _ (indirect_mem hip)
  rw [if_neg (by simp only [Prod.mk.injEq]; omega), hsame] at hindirect
  set s' := (s.take sb b).setBlk ind (setUint (s.blk ind) e (BitVec.ofNat 32 b))
  refine .inr ⟨b, s', Solo.exec_bind hstore _, hself.symm, hb0, .fill h hT hkT h0 hb hb0 hfree ?_ ?_ (hg1.trans hg2) ?_
    (fun _ _ => rfl) ⟨_, rfl⟩ ?_ rfl ?_ ((Solo.setBlk_isSome ..).trans (Solo.take_isSome ..))⟩
  · exact fun c hc => (marked_update hinUse.1 hc _).trans (marked_take hb hdata hc)
  · intro l hl
    have hl' := hplace (ip, l) ⟨hip, hl⟩
    rw [hx, h.place_take hb hfree ⟨hip, hl⟩] at hl'
    simp only [Prod.mk.injEq, true_and] at hl'
    exact hl'
  · rw [hx, ← inUse_take hb hdata] at hp2
    show Placement _ _ (InUse sb (update _ ind _))
    rwa [inUse_update hinUse.1]
  · intro c hc
    have hlow : c ≠ ind := by
      have := bmapstart_lt sb
      have := hinUse.1
      omega
    rw [Solo.setBlk_of_ne _ hlow, low_take hdata hc]
  · have hin := place_mem_logBlocks sb s' hindT (hindirect.trans_ne hind)
    have htake := lh_take_subset s s' hb hkT hself hb0
    exact (Solo.lh_setBlk ..).trans (Finset.insert_subset (Finset.mem_union_right _ (hindirect ▸ hin)) htake)

/-- A block of the file is there afterwards. -/
theorem bmap_spec (hbn : bn < MAXFILE) (hbT : slotOf bn ∈ T) (hind : NDIRECT ≤ bn → NDIRECT ∈ T) :
    Succeeds sb ip T (bmap (F := F) sb ip bn) s fun b s' =>
      b = place s'.blk s'.node (ip, slotOf bn) ∧ b ≠ 0 ∧ Extends sb L ip T s s' := by
  by_cases hlt : bn < NDIRECT
  · have hslot : slotOf bn = bn := if_pos hlt
    rw [hslot] at hbT ⊢
    rw [bmap, if_pos hlt]
    exact mapAddr_spec h hop hip hT (Nat.le_of_lt hlt) hbT
  obtain ⟨e, rfl⟩ : ∃ e, bn = NDIRECT + e := ⟨bn - NDIRECT, by omega⟩
  have hslot : slotOf (NDIRECT + e) = NDIRECT + 1 + e := by
    rw [slotOf, if_neg hlt]
    omega
  have hen : e < NINDIRECT := by
    simp only [MAXFILE] at hbn
    omega
  rw [hslot] at hbT ⊢
  rw [bmap, if_neg hlt, Nat.add_sub_cancel_left, if_pos hen]
  refine .bind (mapAddr_spec h hop hip hT (Nat.le_refl NDIRECT) (hind (by omega)))
    (fun _ _ h1 => h1.2.2.toEvolves.lacks hip hT h1.2.2.enough) ?_
  rintro _ s1 ⟨rfl, hne1, hext1⟩
  have hentry := place_entry ip e hne1
  by_cases h0 : uintAt (s1.blk (place s1.blk s1.node (ip, NDIRECT))) e = 0
  · have hp0 : place s1.blk s1.node (ip, NDIRECT + 1 + e) = 0 := by
      rw [hentry, h0]
      rfl
    have hfill := fillEntry_spec (F := F) hext1.sound (hext1.op.trans hop) hip hT hen hbT (hind (by omega)) hne1 hp0
    rw [Succeeds, Solo.exec_bread, if_neg (not_not.2 h0)]
    refine hfill.mono ?_
    rintro b s' ⟨hself, hb0, hext⟩
    exact ⟨hself, hb0, hext1.trans hip hT hext⟩
  · refine .inr ⟨_, s1, ?_, rfl, ?_, hext1⟩
    · rw [Solo.exec_bread, if_pos h0, hentry]
      rfl
    · rw [hentry]
      exact fun hz => h0 (BitVec.eq_of_toNat_eq hz)

end

/-! ## `writei` -/

/-- Bytes have been written to inode `ip` from `off` on. -/
structure Wrote (sb : Super) (L : Set Nat) (ip : Nat) (T : Finset Nat) (off : Nat) (src : List UInt8) (s s' : Solo) :
    Prop extends Evolves sb L ip T s s' where
  mapped : ∀ pos, off ≤ pos → pos < off + src.length → place s'.blk s'.node (ip, slotOf (pos / 512)) ≠ 0
  bytes : ∀ j ∈ L, ∀ pos, pos / 512 < MAXFILE →
    place s.blk s.node (j, slotOf (pos / 512)) ≠ 0 ∨ j = ip ∧ off ≤ pos ∧ pos < off + src.length →
    byteAt s'.blk s'.node j pos =
      if j = ip ∧ off ≤ pos ∧ pos < off + src.length then src.getD (pos - off) 0 else byteAt s.blk s.node j pos

theorem Wrote.nil (h : Sound sb L s) (off : Nat) : Wrote sb L ip T off [] s s := by
  refine ⟨.refl h, ?_, ?_⟩
  · intro pos h1 h2
    rw [List.length_nil] at h2
    omega
  intro j _ pos _ _
  rw [if_neg]
  rintro ⟨-, h1, h2⟩
  rw [List.length_nil] at h2
  omega

/-- A block of a file has been written. -/
structure Stored (sb : Super) (L : Set Nat) (ip : Nat) (T : Finset Nat) (s s' : Solo) : Prop extends
    Evolves sb L ip T s s' where
  enough : Enough sb ip T s → Enough sb ip T s'
  place : ∀ p ∈ slots L, place s'.blk s'.node p = Sysfile.place s.blk s.node p

/-- Bytes are written into one block that is mapped. -/
theorem setData_spec (h : Sound sb L s) (hip : ip ∈ L) (hT : ∀ l ∈ T, l < NSLOT) (hbn : bn < MAXFILE)
    (hslot : slotOf bn ∈ T) (hne : place s.blk s.node (ip, slotOf bn) ≠ 0) (data : Block) :
    Stored sb L ip T s (s.setBlk (place s.blk s.node (ip, slotOf bn)) data) := by
  set s' := s.setBlk (place s.blk s.node (ip, slotOf bn)) data with hs'
  have hmem := slotOf_mem hip hbn
  have hinUse := h.placed.mem _ hmem hne
  have hplace : ∀ p ∈ slots L, place s'.blk s'.node p = place s.blk s.node p := fun p hp =>
    place_setData h.placed hmem (slotOf_ne bn) data hp
  refine ⟨⟨⟨h.inodes, h.size, h.known, ?_, ?_⟩, fun c hc hm => .inl ((marked_update hinUse.1 hc _).1 hm),
    fun p hp _ => hplace p hp, fun _ _ => rfl, ⟨_, rfl⟩, ?_, rfl, fun _ => rfl, ?_, Solo.setBlk_isSome ..⟩,
    fun he => ?_, hplace⟩
  · intro c hc hlt
    exact (marked_update hinUse.1 hlt _).2 (h.reserved c hc hlt)
  · show Placement _ _ (InUse sb (update _ _ _))
    rw [inUse_update hinUse.1]
    exact h.placed.congr hplace
  · intro c hc
    have := bmapstart_lt sb
    have := hinUse.1
    exact Solo.setBlk_of_ne s (by omega) data
  · have hin := place_mem_logBlocks sb s' hslot ((hplace _ hmem).trans_ne hne)
    rw [hplace _ hmem] at hin
    exact (Solo.lh_setBlk ..).trans (Finset.insert_subset (Finset.mem_union_right _ hin) Finset.subset_union_left)
  · have hempty : emptySlots s' ip T = emptySlots s ip T := by
      refine Finset.filter_congr fun l hl => ?_
      rw [hplace _ ⟨hip, hT l hl⟩]
    have hfree : freeBlocks sb s' = freeBlocks sb s := by
      refine Finset.filter_congr fun c hc => ?_
      exact not_congr (marked_update hinUse.1 (Finset.mem_range.1 hc) _)
    rw [Enough, hempty, hfree]
    exact he

theorem getD_take {l : List UInt8} {m i : Nat} (h : i < m) : (l.take m).getD i 0 = l.getD i 0 := by
  simp [List.getD_eq_getElem?_getD, List.getElem?_take_of_lt h]

theorem getD_drop (l : List UInt8) (m i : Nat) : (l.drop m).getD i 0 = l.getD (m + i) 0 := by
  simp [List.getD_eq_getElem?_getD, List.getElem?_drop]

variable {src : List UInt8} {off : Nat}

/-- One block, and then the rest. -/
theorem Wrote.cons {m : Nat} {s1 t : Solo} (hip : ip ∈ L) (hT : ∀ l ∈ T, l < NSLOT) (hm : m ≤ src.length)
    (hblock : off % 512 + m ≤ 512) (hpos : 0 < m) (hbn : off / 512 < MAXFILE) (h1 : Extends sb L ip T s s1)
    (hne : place s1.blk s1.node (ip, slotOf (off / 512)) ≠ 0)
    (ht : t = s1.setBlk (place s1.blk s1.node (ip, slotOf (off / 512)))
      (setBytes (s1.blk (place s1.blk s1.node (ip, slotOf (off / 512)))) (off % 512) (src.take m)))
    (hstored : Stored sb L ip T s1 t) (h2 : Wrote sb L ip T (off + m) (src.drop m) t s') :
    Wrote sb L ip T off src s s' := by
  have hplace := hstored.place
  have hevolves := (h1.toEvolves.trans hip hT hstored.toEvolves).trans hip hT h2.toEvolves
  have hdrop : off + m + (src.drop m).length = off + src.length := by
    rw [List.length_drop]
    omega
  have hlen : (src.take m).length = m := by
    rw [List.length_take]
    omega
  subst ht
  refine ⟨hevolves, ?_, ?_⟩
  · intro pos hlo hhi
    by_cases hfirst : pos < off + m
    · rw [show pos / 512 = off / 512 by omega]
      have hk := h2.keep _ (slotOf_mem hip hbn) ((hplace _ (slotOf_mem hip hbn)).trans_ne hne)
      exact hk.trans_ne ((hplace _ (slotOf_mem hip hbn)).trans_ne hne)
    · exact h2.mapped pos (by omega) (by rw [hdrop]; exact hhi)
  · intro j hj pos hposM hor
    have hjm := slotOf_mem hj hposM
    -- whatever is mapped in the middle keeps its bytes but for those of the first block
    have hmid : place s1.blk s1.node (j, slotOf (pos / 512)) ≠ 0 → byteAt s'.blk s'.node j pos =
        if j = ip ∧ off + m ≤ pos ∧ pos < off + src.length then src.getD (pos - off) 0
        else if j = ip ∧ off ≤ pos ∧ pos < off + m then src.getD (pos - off) 0 else byteAt s1.blk s1.node j pos := by
      intro hm1
      rw [h2.bytes j hj pos hposM (.inl ((hplace _ hjm).trans_ne hm1)), hdrop]
      split
      next hin =>
        rw [getD_drop, show m + (pos - (off + m)) = pos - off by omega]
      have hset := byteAt_setBytes h1.sound.placed hip hbn (off % 512) (src.take m) hj hposM hm1
      dsimp only at hset
      rw [hlen] at hset
      refine hset.trans ?_
      by_cases hin : j = ip ∧ off ≤ pos ∧ pos < off + m
      · rw [if_pos hin, if_pos ⟨hin.1, by simp only [BSIZE]; omega, by simp only [BSIZE]; omega,
            by simp only [BSIZE]; omega⟩, getD_take (by simp only [BSIZE]; omega),
          show pos % BSIZE - off % 512 = pos - off by simp only [BSIZE]; omega]
      rw [if_neg hin, if_neg]
      rintro ⟨rfl, hd, hl, hr⟩
      simp only [BSIZE] at hd hl hr
      exact hin ⟨rfl, by omega, by omega⟩
    by_cases hin : j = ip ∧ off ≤ pos ∧ pos < off + src.length
    · rw [if_pos hin]
      by_cases hlate : off + m ≤ pos
      · rw [h2.bytes j hj pos hposM (.inr ⟨hin.1, hlate, by rw [hdrop]; exact hin.2.2⟩), if_pos ⟨hin.1, hlate, by
          rw [hdrop]; exact hin.2.2⟩, getD_drop, show m + (pos - (off + m)) = pos - off by omega]
      · have hsame : pos / 512 = off / 512 := by omega
        rw [hmid (by rw [hin.1, hsame]; exact hne), if_neg (by omega), if_pos ⟨hin.1, hin.2.1, by omega⟩]
    · have hold : place s.blk s.node (j, slotOf (pos / 512)) ≠ 0 := hor.resolve_right hin
      have hk1 := h1.grown.keep _ hjm hold
      rw [if_neg hin, hmid (hk1.trans_ne hold), if_neg (by omega), if_neg (by omega)]
      exact h1.grown.byteAt hj hposM hold

theorem writeLoop_spec (hip : ip ∈ L) (hT : ∀ l ∈ T, l < NSLOT) (fuel : Nat) : ∀ (s : Solo) (off : Nat)
    (src : List UInt8), Sound sb L s → s.trans.isSome → src.length ≤ fuel → off + src.length ≤ MAXFILE * BSIZE →
    (∀ pos, off ≤ pos → pos < off + src.length →
      slotOf (pos / 512) ∈ T ∧ (NDIRECT ≤ pos / 512 → NDIRECT ∈ T)) →
    Succeeds sb ip T (writeLoop (F := F) sb ip fuel off src) s fun _ s' => Wrote sb L ip T off src s s' := by
  induction fuel with
  | zero =>
    intro s off src h _ hlen _ _
    obtain rfl := List.eq_nil_of_length_eq_zero (Nat.le_zero.1 hlen)
    exact .inr ⟨(), s, rfl, .nil h off⟩
  | succ fuel ih =>
    intro s off src h hop hlen hmax htouch
    rw [writeLoop]
    by_cases hsrc : src = []
    · subst hsrc
      exact .inr ⟨(), s, rfl, .nil h off⟩
    rw [if_neg hsrc]
    have hlpos : 0 < src.length := List.length_pos_of_ne_nil hsrc
    have hmax' : off + src.length ≤ 71680 := hmax
    have hbn : off / 512 < MAXFILE := by
      show off / 512 < 140
      omega
    obtain ⟨hslot, hind⟩ := htouch off (Nat.le_refl _) (by omega)
    refine .bind (bmap_spec h hop hip hT hbn hslot hind) (fun _ _ h1 => h1.2.2.toEvolves.lacks hip hT h1.2.2.enough) ?_
    rintro _ s1 ⟨rfl, hne, hext⟩
    set m := min src.length (512 - off % 512) with hm
    have hop1 := hext.op.trans hop
    set data := setBytes (s1.blk (place s1.blk s1.node (ip, slotOf (off / 512)))) (off % 512) (src.take m)
    have hstored := setData_spec hext.sound hip hT hbn hslot hne data
    have hdrop : off + m + (src.drop m).length = off + src.length := by
      rw [List.length_drop]
      omega
    -- the buffer is stored if there is room in the log, and the loop goes on
    show Succeeds sb ip T (store _ data >>= _) s1 _
    have hstore := Solo.exec_store (F := F) hop1 (place s1.blk s1.node (ip, slotOf (off / 512))) data
    split at hstore
    case isTrue hfull =>
      refine .inl ⟨_, Solo.exec_error hstore _, fun hfits => ?_⟩
      have := hfits.card_le Finset.subset_union_left
      omega
    rw [Succeeds, Solo.exec_bind hstore]
    rcases ih _ (off + m) (src.drop m) hstored.sound ((Solo.setBlk_isSome ..).trans hop1)
      (by rw [List.length_drop]; omega) (by rw [hdrop]; exact hmax)
      fun pos h1 h2 => htouch pos (by omega) (by omega) with ⟨e, herr, hl⟩ | ⟨_, s', hex, hw⟩
    · exact .inl ⟨e, herr, hstored.toEvolves.lacks hip hT hstored.enough hl⟩
    · exact .inr ⟨(), s', hex, .cons hip hT (by omega) (by omega) (by omega) hbn hext hne rfl hstored hw⟩

/-- The blocks of the file in which bytes `off` to `off + n` lie, and the indirect block. -/
def touched (off n : Nat) : Finset Nat :=
  let bns := (Finset.Ico off (off + n)).image (· / BSIZE)
  bns.image slotOf ∪ (bns.filter (NDIRECT ≤ ·)).image fun _ => NDIRECT

theorem mem_touched {n pos : Nat} (h1 : off ≤ pos) (h2 : pos < off + n) :
    slotOf (pos / 512) ∈ touched off n ∧ (NDIRECT ≤ pos / 512 → NDIRECT ∈ touched off n) := by
  have hbn : pos / 512 ∈ (Finset.Ico off (off + n)).image (· / BSIZE) :=
    Finset.mem_image_of_mem _ (Finset.mem_Ico.2 ⟨h1, h2⟩)
  refine ⟨Finset.mem_union_left _ (Finset.mem_image_of_mem _ hbn), ?_⟩
  intro hge
  exact Finset.mem_union_right _ (Finset.mem_image.2 ⟨_, Finset.mem_filter.2 ⟨hbn, hge⟩, rfl⟩)

theorem touched_lt {n : Nat} (hmax : off + n ≤ MAXFILE * BSIZE) : ∀ l ∈ touched off n, l < NSLOT := by
  intro l hl
  have hmax' : off + n ≤ 71680 := hmax
  rcases Finset.mem_union.1 hl with hl | hl
  · obtain ⟨bn, hbn, rfl⟩ := Finset.mem_image.1 hl
    obtain ⟨pos, hpos, rfl⟩ := Finset.mem_image.1 hbn
    obtain ⟨-, hlt⟩ := Finset.mem_Ico.1 hpos
    show slotOf (pos / 512) < 141
    unfold slotOf
    split <;> omega
  · obtain ⟨-, -, rfl⟩ := Finset.mem_image.1 hl
    decide

theorem iblock_lt (h : Sound sb L s) {i : Nat} (hi : i < sb.ninodes) : IBLOCK sb i < sb.bmapstart := by
  have h1 := h.inodes
  have h2 := Nat.div_le_div_right (c := 8) hi.le
  simp only [IBLOCK, IPB] at *
  omega

/-- The fields of an inode change, in memory and then on the disk. -/
def Solo.setNode (sb : Super) (s : Solo) (ip : Nat) (d : Dinode) : Solo :=
  { s.setBlk (IBLOCK sb ip) (setDinode (s.blk (IBLOCK sb ip)) (ip % IPB) d) with node := update s.node ip d }

theorem Solo.setNode_self (sb : Super) (s : Solo) (ip : Nat) (d : Dinode) : (s.setNode sb ip d).node ip = d :=
  update_self ..

variable {j : Nat} {d : Dinode} {blk' : Nat → Block}

theorem Solo.setNode_of_ne (hj : j ≠ ip) : (s.setNode sb ip d).node j = s.node j :=
  update_of_ne hj ..

theorem Solo.dinodeAt_setNode (sb : Super) (s : Solo) (ip : Nat) (d : Dinode) :
    dinodeAt ((s.setNode sb ip d).blk (IBLOCK sb ip)) (ip % IPB) = d := by
  show dinodeAt (update s.blk _ _ _) _ = d
  rw [update_self, dinodeAt_setDinode]

theorem Solo.dinodeAt_setNode_of_ne (hj : j ≠ ip) :
    dinodeAt ((s.setNode sb ip d).blk (IBLOCK sb j)) (j % IPB) = dinodeAt (s.blk (IBLOCK sb j)) (j % IPB) := by
  show dinodeAt (update s.blk _ _ _) _ = _
  by_cases hb : IBLOCK sb j = IBLOCK sb ip
  · have hmod : j % IPB ≠ ip % IPB := by
      simp only [IBLOCK, IPB] at *
      omega
    rw [hb, update_self, dinodeAt_setDinode_of_ne hmod]
  · rw [update_of_ne hb]

/-- A block in front of the bitmap changes. -/
theorem marked_low (hblk : ∀ b, sb.bmapstart ≤ b → blk' b = blk b) : Marked sb blk' b ↔ Marked sb blk b := by
  rw [Marked, Marked, hblk (BBLOCK sb b) (Nat.le_add_left _ _)]

theorem inUse_low (hblk : ∀ b, sb.bmapstart ≤ b → blk' b = blk b) : InUse sb blk' = InUse sb blk := by
  ext b
  simp only [InUse, Set.mem_ofPred_eq, marked_low hblk]

/-- The addresses of the inode stay. -/
theorem Sound.setNode (h : Sound sb L s) (hip : ip ∈ L) (haddrs : d.addrs = (s.node ip).addrs) :
    let s' := s.setNode sb ip d
    Sound sb L s' ∧ (∀ p ∈ slots L, place s'.blk s'.node p = place s.blk s.node p) ∧
      ∀ b, sb.bmapstart ≤ b → s'.blk b = s.blk b := by
  intro s'
  have hds := bmapstart_lt sb
  have hlow := iblock_lt h (h.known ip hip)
  have hblk : ∀ b, sb.bmapstart ≤ b → s'.blk b = s.blk b := fun b hb => update_of_ne (by omega) _ _
  have hplace : ∀ p ∈ slots L, place s'.blk s'.node p = place s.blk s.node p := by
    intro p hp
    refine place_congr ?_ fun h0 => hblk _ ?_
    · by_cases hi : p.1 = ip
      · rw [hi, Solo.setNode_self, haddrs]
      · rw [Solo.setNode_of_ne hi]
    · have := (h.placed.mem _ (indirect_mem hp.1) h0).1
      omega
  refine ⟨⟨h.inodes, h.size, h.known, ?_, ?_⟩, hplace, hblk⟩
  · intro b h1 h2
    exact (marked_low hblk).2 (h.reserved b h1 h2)
  · rw [inUse_low hblk]
    exact h.placed.congr hplace

namespace Solo

/-- The contents of a file. -/
def file (s : Solo) (ip : Nat) : List UInt8 := s.bytes ip 0 (s.node ip).size.toNat

theorem length_file (s : Solo) (ip : Nat) : (s.file ip).length = (s.node ip).size.toNat := by simp [file, bytes]

theorem getElem_file (s : Solo) (ip : Nat) (h : j < (s.file ip).length) :
    (s.file ip)[j] = byteAt s.blk s.node ip j := by
  simp [file, bytes]

/-- `readi` of a file without holes. -/
theorem readi_eq (sb : Super) (htype : (s.node ip).type ≠ T_DEV) (hm : s.MappedTo ip (s.node ip).size.toNat)
    (off n : BitVec 32) : call sb (readi (F := F) ip off n) s =
      .ok (if (s.node ip).size.toNat < off.toNat ∨ 2 ^ 32 ≤ off.toNat + n.toNat then none
        else some (((s.file ip).drop off.toNat).take n.toNat), s) := by
  rw [readi, call_bind (show call sb (fields (F := F) ip) s = .ok (s.node ip, s) from rfl), if_neg htype, call_content]
  show exec (readBytes sb ip off n) s = _
  rw [readBytes_eq sb s off n (hm.mono (Nat.min_le_right _ _))]
  split
  · rfl
  congr 3
  apply List.ext_getElem
  · simp [bytes, length_file]
  · intro j h1 h2
    rw [List.getElem_take, List.getElem_drop, getElem_file]
    simp [bytes]

/-- All slots that bytes of the file lie in are filled. -/
theorem MappedTo.touched {n e : Nat} (h : s.MappedTo ip e) (hle : off + n ≤ e) :
    ∀ l ∈ touched off n, place s.blk s.node (ip, l) ≠ 0 := by
  intro l hl
  rcases Finset.mem_union.1 hl with hl | hl
  · obtain ⟨bn, hbn, rfl⟩ := Finset.mem_image.1 hl
    obtain ⟨pos, hpos, rfl⟩ := Finset.mem_image.1 hbn
    obtain ⟨-, hlt⟩ := Finset.mem_Ico.1 hpos
    exact h.2 (pos / 512) (by omega)
  obtain ⟨bn, hbn, rfl⟩ := Finset.mem_image.1 hl
  obtain ⟨hbn, hge⟩ := Finset.mem_filter.1 hbn
  obtain ⟨pos, hpos, rfl⟩ := Finset.mem_image.1 hbn
  obtain ⟨-, hlt⟩ := Finset.mem_Ico.1 hpos
  -- an entry of the indirect block is filled, so the block is there
  intro h0
  refine h.2 (pos / 512) (by omega) ?_
  have hslot : slotOf (pos / 512) = NDIRECT + 1 + (pos / 512 - NDIRECT) := by
    rw [slotOf, if_neg (Nat.not_lt.2 hge)]
    have : NDIRECT ≤ pos / 512 := hge
    omega
  rw [hslot]
  exact place_entry_zero ip _ h0

/-- The refusals of `writei`. -/
def Refuses (s : Solo) (ip : Nat) (off : BitVec 32) (n : Nat) : Prop :=
  (s.node ip).size.toNat < off.toNat ∨ 2 ^ 32 ≤ off.toNat + n ∨ MAXFILE * BSIZE < off.toNat + n

instance (s : Solo) (ip : Nat) (off : BitVec 32) (n : Nat) : Decidable (s.Refuses ip off n) :=
  inferInstanceAs (Decidable (_ ∨ _ ∨ _))

theorem writeBytes_refused (sb : Super) {off : BitVec 32} (hlen : src.length < 2 ^ 32)
    (h : s.Refuses ip off src.length) : exec (writeBytes (F := F) sb ip off src) s = .ok (none, s) := by
  have hn : (BitVec.ofNat 32 src.length).toNat = src.length := Nat.mod_eq_of_lt hlen
  have hoff := off.isLt
  rw [writeBytes, exec_fields]
  by_cases hfirst : off > (s.node ip).size ∨ off + BitVec.ofNat 32 src.length < off
  · rw [if_pos hfirst]
    rfl
  rw [if_neg hfirst, if_pos]
  · rfl
  rw [add_lt_iff, gt_iff_lt, BitVec.lt_def, hn, not_or] at hfirst
  have hmax : MAXFILE * BSIZE < off.toNat + src.length := (h.resolve_left hfirst.1).resolve_left hfirst.2
  rw [gt_iff_lt, BitVec.lt_def, BitVec.toNat_add, hn]
  show 71680 < _
  have : 71680 < off.toNat + src.length := hmax
  omega

/-- What `writei` leaves: the bytes, in a file that may have grown, and all other inodes as they were, in memory and on
the disk, with every byte that has a block. -/
structure Written (sb : Super) (L : Set Nat) (ip off : Nat) (src : List UInt8) (s s' : Solo) : Prop where
  fresh : ∀ c, c < sb.size → Marked sb s'.blk c → Marked sb s.blk c ∨ c ≠ 0 ∧ ∃ l < NSLOT, place s'.blk s'.node (ip, l) = c
  keep : ∀ p ∈ slots L, place s.blk s.node p ≠ 0 → place s'.blk s'.node p = place s.blk s.node p
  file : s'.file ip = (s.file ip).take off ++ src ++ (s.file ip).drop (off + src.length)
  size : (s'.node ip).size.toNat = max (s.node ip).size.toNat (off + src.length)
  sound : Sound sb L s'
  mapped : s'.MappedTo ip (s'.node ip).size.toNat
  node : ∀ j, j ≠ ip → s'.node j = s.node j
  byte : ∀ j ∈ L, j ≠ ip → ∀ pos, pos / BSIZE < MAXFILE → place s.blk s.node (j, slotOf (pos / BSIZE)) ≠ 0 →
    byteAt s'.blk s'.node j pos = byteAt s.blk s.node j pos
  dinode : ∀ j, j < sb.ninodes → j ≠ ip →
    dinodeAt (s'.blk (IBLOCK sb j)) (j % IPB) = dinodeAt (s.blk (IBLOCK sb j)) (j % IPB)
  self : ∃ size addrs, s'.node ip = { s.node ip with size := size, addrs := addrs }
  sync : dinodeAt (s.blk (IBLOCK sb ip)) (ip % IPB) = s.node ip → dinodeAt (s'.blk (IBLOCK sb ip)) (ip % IPB) = s'.node ip
  valid : s'.valid = s.valid
  op : s'.trans.isSome = s.trans.isSome

/-- The contents of the others, where they have no holes. -/
theorem Written.other (h : Written sb L ip off src s s') (hj : j ∈ L) (hne : j ≠ ip)
    (hm : s.MappedTo j (s.node j).size.toNat) : s'.file j = s.file j := by
  unfold Solo.file Solo.bytes
  rw [h.node j hne]
  refine List.map_congr_left fun pos hpos => ?_
  have hlt := List.mem_range.1 hpos
  have hmax : (s.node j).size.toNat ≤ 71680 := hm.1
  rw [Nat.zero_add]
  refine h.byte j hj hne pos ?_ (hm.2 (pos / 512) (by omega))
  show pos / 512 < 140
  omega

/-- The end of `writei`: nothing, or a new size, in memory and on the disk. -/
structure Resized (sb : Super) (L : Set Nat) (ip : Nat) (s s' : Solo) : Prop where
  sound : Sound sb L s'
  place : ∀ p ∈ slots L, place s'.blk s'.node p = Sysfile.place s.blk s.node p
  blk : ∀ b, sb.bmapstart ≤ b → s'.blk b = s.blk b
  other : ∀ j, j ≠ ip → s'.node j = s.node j
  dinode : ∀ j, j ≠ ip → dinodeAt (s'.blk (IBLOCK sb j)) (j % IPB) = dinodeAt (s.blk (IBLOCK sb j)) (j % IPB)
  self : ∃ size, s'.node ip = { s.node ip with size := size }
  valid : s'.valid = s.valid
  op : s'.trans.isSome = s.trans.isSome

theorem Resized.refl (h : Sound sb L s) : Resized sb L ip s s :=
  ⟨h, fun _ _ => rfl, fun _ _ => rfl, fun _ _ => rfl, fun _ _ => rfl, ⟨_, rfl⟩, rfl, rfl⟩

theorem Resized.setNode (h : Sound sb L s) (hip : ip ∈ L) (size : BitVec 32) :
    Resized sb L ip s (s.setNode sb ip { s.node ip with size := size }) := by
  obtain ⟨hsound, hplace, hblk⟩ := h.setNode hip (d := { s.node ip with size := size }) rfl
  exact ⟨hsound, hplace, hblk, fun j hj => setNode_of_ne hj, fun j hj => dinodeAt_setNode_of_ne hj,
    ⟨size, setNode_self ..⟩, rfl, Option.isSome_map⟩

/-- The file after its bytes from `off` on are those of `src`. -/
theorem file_overwrite (hoff : off ≤ (s.node ip).size.toNat)
    (hsize : (s'.node ip).size.toNat = max (s.node ip).size.toNat (off + src.length))
    (hbytes : ∀ pos, pos < max (s.node ip).size.toNat (off + src.length) → byteAt s'.blk s'.node ip pos =
      if off ≤ pos ∧ pos < off + src.length then src.getD (pos - off) 0 else byteAt s.blk s.node ip pos) :
    s'.file ip = (s.file ip).take off ++ src ++ (s.file ip).drop (off + src.length) := by
  have htake : ((s.file ip).take off).length = off := by
    rw [List.length_take, length_file]
    omega
  apply List.ext_getElem
  · simp only [List.length_append, List.length_take, List.length_drop, length_file, hsize]
    omega
  intro pos h1 h2
  rw [getElem_file, hbytes pos (by rwa [length_file, hsize] at h1)]
  by_cases hbefore : pos < off
  · rw [if_neg (by omega), List.getElem_append_left (by rw [List.length_append, htake]; omega),
      List.getElem_append_left (by omega), List.getElem_take, getElem_file]
  by_cases hin : pos < off + src.length
  · rw [if_pos ⟨by omega, hin⟩, List.getElem_append_left (by rw [List.length_append, htake]; omega),
      List.getElem_append_right (by omega), List.getD_eq_getElem?_getD, List.getElem?_eq_getElem (by omega)]
    simp only [htake, Option.getD_some]
  rw [if_neg (by omega), List.getElem_append_right (by rw [List.length_append, htake]; omega), List.getElem_drop,
    getElem_file]
  congr 1
  rw [List.length_append, htake]
  omega

theorem written_of_wrote {t : Solo} (hip : ip ∈ L)
    (hoff : off ≤ (s.node ip).size.toNat) (hmax : off + src.length ≤ MAXFILE * BSIZE)
    (hmap : s.MappedTo ip (s.node ip).size.toNat) (hw : Wrote sb L ip T off src s t)
    (hr : Resized sb L ip t s') (hsize : (s'.node ip).size.toNat = max (s.node ip).size.toNat (off + src.length))
    (hsync : dinodeAt (s.blk (IBLOCK sb ip)) (ip % IPB) = s.node ip →
      dinodeAt (s'.blk (IBLOCK sb ip)) (ip % IPB) = s'.node ip) : Written sb L ip off src s s' := by
  have hmax' : off + src.length ≤ 71680 := hmax
  have hold : (s.node ip).size.toNat ≤ 71680 := hmap.1
  -- the bytes of a block that is mapped are the same in `t` and in the end
  have hbyte : ∀ j ∈ L, ∀ pos, pos / 512 < MAXFILE → place t.blk t.node (j, slotOf (pos / 512)) ≠ 0 →
      byteAt s'.blk s'.node j pos = byteAt t.blk t.node j pos := by
    intro j hj pos hpos hne
    have hmem := slotOf_mem hj hpos
    unfold byteAt
    have hlow := (hw.sound.placed.mem _ hmem hne).1
    rw [show pos / BSIZE = pos / 512 from rfl, hr.place _ hmem, hr.blk _ (by have := bmapstart_lt sb; omega)]
  have hmapped : ∀ pos, pos < max (s.node ip).size.toNat (off + src.length) →
      place t.blk t.node (ip, slotOf (pos / 512)) ≠ 0 := by
    intro pos hpos
    by_cases hin : off ≤ pos ∧ pos < off + src.length
    · exact hw.mapped pos hin.1 hin.2
    have hne := hmap.2 (pos / 512) (by omega)
    have hlt : pos / 512 < MAXFILE := by
      show pos / 512 < 140
      omega
    exact (hw.keep _ (slotOf_mem hip hlt) hne).trans_ne hne
  refine ⟨?_, ?_, ?_, hsize, hr.sound, ⟨?_, ?_⟩, ?_, ?_, ?_, ?_, hsync, hr.valid.trans hw.valid, hr.op.trans hw.op⟩
  · intro c hc hm
    refine (hw.fresh c hc ((marked_low hr.blk).1 hm)).imp_right ?_
    rintro ⟨hc0, l, hl, hpl⟩
    exact ⟨hc0, l, hl, (hr.place (ip, l) ⟨hip, hl⟩).trans hpl⟩
  · intro p hp hne
    exact (hr.place p hp).trans (hw.keep p hp hne)
  · refine file_overwrite hoff hsize fun pos hpos => ?_
    have hlt : pos / 512 < MAXFILE := by
      show pos / 512 < 140
      omega
    have hcase : place s.blk s.node (ip, slotOf (pos / 512)) ≠ 0 ∨ ip = ip ∧ off ≤ pos ∧ pos < off + src.length := by
      by_cases hin : off ≤ pos ∧ pos < off + src.length
      · exact .inr ⟨rfl, hin⟩
      · exact .inl (hmap.2 (pos / 512) (by omega))
    rw [hbyte ip hip pos hlt (hmapped pos hpos), hw.bytes ip hip pos hlt hcase]
    simp only [true_and]
  · rw [hsize]
    show max _ _ ≤ 71680
    omega
  · intro bn hbn
    rw [hsize] at hbn
    have hne := hmapped (bn * 512) hbn
    rw [Nat.mul_div_cancel bn (by decide)] at hne
    have hlt : bn < MAXFILE := by
      show bn < 140
      omega
    exact (hr.place _ (slotOf_mem hip hlt)).trans_ne hne
  · intro j hj
    rw [hr.other j hj, hw.other j hj]
  · intro j hj hne pos hlt hne0
    rw [hbyte j hj pos hlt ((hw.keep _ (slotOf_mem hj hlt) hne0).trans_ne hne0), hw.bytes j hj pos hlt (.inl hne0),
      if_neg fun h => hne h.1]
  · intro j hj hne
    rw [hr.dinode j hne, hw.low _ (iblock_lt hw.sound hj)]
  · obtain ⟨addrs, ha⟩ := hw.self
    obtain ⟨size, hs⟩ := hr.self
    exact ⟨size, addrs, by rw [hs, ha]⟩

theorem exec_assign_iupdate (sb : Super) (hop : s.trans.isSome) (ip : Nat) (d : Dinode) :
    exec (F := F) (do assign ip d; iupdate sb ip) s =
      if Log.nlog - 1 ≤ s.lh.card then .error (.panic .tooBigATransaction) else .ok ((), s.setNode sb ip d) := by
  show exec (F := F) (store (IBLOCK sb ip) (setDinode (s.blk (IBLOCK sb ip)) (ip % IPB) (update s.node ip d ip)))
    { s with node := update s.node ip d } = _
  rw [exec_store (s := { s with node := update s.node ip d }) hop, update_self]
  rfl

theorem writeBytes_spec (h : Sound sb L s) (hop : s.trans.isSome) (hip : ip ∈ L)
    (hm : s.MappedTo ip (s.node ip).size.toNat) {off : BitVec 32}
    (hlen : src.length < 2 ^ 32) (hr : ¬ s.Refuses ip off src.length) :
    Succeeds sb ip (touched off.toNat src.length) (writeBytes (F := F) sb ip off src) s fun r s' =>
      r = some src.length ∧ Written sb L ip off.toNat src s s' := by
  obtain ⟨hsize, hwrap, hmax⟩ : off.toNat ≤ (s.node ip).size.toNat ∧ off.toNat + src.length < 2 ^ 32 ∧
      off.toNat + src.length ≤ MAXFILE * BSIZE := by
    simpa only [Refuses, not_or, not_lt, not_le] using hr
  have hn : (BitVec.ofNat 32 src.length).toNat = src.length := Nat.mod_eq_of_lt hlen
  have hsum : (off + BitVec.ofNat 32 src.length).toNat = off.toNat + src.length := by
    rw [BitVec.toNat_add, hn, Nat.mod_eq_of_lt hwrap]
  have hfirst : ¬ (off > (s.node ip).size ∨ off + BitVec.ofNat 32 src.length < off) := by
    rw [add_lt_iff, gt_iff_lt, BitVec.lt_def, hn]
    omega
  have hsecond : ¬ off + BitVec.ofNat 32 src.length > BitVec.ofNat 32 (MAXFILE * BSIZE) := by
    rw [gt_iff_lt, BitVec.lt_def, hsum]
    show ¬ 71680 < _
    exact not_lt.2 hmax
  rw [Succeeds, writeBytes, exec_fields, if_neg hfirst, if_neg hsecond]
  rcases writeLoop_spec (F := F) hip (touched_lt hmax) src.length s off.toNat src h hop (Nat.le_refl _) hmax
    (fun pos => mem_touched) with ⟨e, herr, hl⟩ | ⟨_, t, hex, hw⟩
  · exact .inl ⟨e, exec_error herr _, hl⟩
  rw [exec_bind hex, exec_fields]
  obtain ⟨addrs, hself⟩ := hw.self
  have htsize : (t.node ip).size = (s.node ip).size := by rw [hself]
  by_cases hgrow : 0 < BitVec.ofNat 32 src.length ∧ off + BitVec.ofNat 32 src.length > (t.node ip).size
  · rw [if_pos hgrow]
    have hlt := hgrow.2
    rw [gt_iff_lt, BitVec.lt_def, hsum, htsize] at hlt
    have hupdate := exec_assign_iupdate (F := F) sb (hw.op.trans hop) ip
      { t.node ip with size := off + BitVec.ofNat 32 src.length }
    split at hupdate
    case isTrue hfull =>
      refine .inl ⟨_, exec_error hupdate _, fun hfits => ?_⟩
      have := (hw.toEvolves.fitsLog hip (touched_lt hmax) hfits).card_le Finset.subset_union_left
      omega
    refine .inr ⟨_, _, exec_bind hupdate _, rfl, ?_⟩
    refine written_of_wrote hip hsize hmax hm hw (.setNode hw.sound hip _) ?_ fun _ => ?_
    · rw [setNode_self, hsum]
      omega
    · rw [dinodeAt_setNode, setNode_self]
  rw [if_neg hgrow]
  have hle : off.toNat + src.length ≤ (s.node ip).size.toNat := by
    by_contra hlt
    rw [gt_iff_lt, BitVec.lt_def, BitVec.lt_def, hsum, htsize, hn, show (0 : BitVec 32).toNat = 0 from rfl] at hgrow
    omega
  refine .inr ⟨_, t, rfl, rfl, written_of_wrote hip hsize hmax hm hw (.refl hw.sound) ?_ fun hs => ?_⟩
  · rw [htsize]
    omega
  · have hiblock := iblock_lt h (h.known ip hip)
    rw [hw.low _ hiblock, hs, hw.still fun l hl => ?_]
    exact hm.touched hle l hl

/-- **Files are byte arrays.** `readi` gives a part of the contents. `writei` refuses, and changes nothing, exactly for
an offset behind the end, a sum that wraps and a file too large; otherwise, in a transaction, if the disk has a free block
for each empty slot and the blocks fit the log, all bytes are written, and no other inode changes. Without the blocks or the
room there is one more outcome each, the panic of `balloc` or of `log_write`. -/
theorem readi_writei (h : Sound sb L s) (hip : ip ∈ L) (htype : (s.node ip).type ≠ T_DEV)
    (hm : s.MappedTo ip (s.node ip).size.toNat) (off : BitVec 32) :
    (∀ n : BitVec 32, call sb (readi (F := F) ip off n) s =
      .ok (if (s.node ip).size.toNat < off.toNat ∨ 2 ^ 32 ≤ off.toNat + n.toNat then none
        else some (((s.file ip).drop off.toNat).take n.toNat), s)) ∧
    ∀ src : List UInt8, src.length < 2 ^ 32 →
      if s.Refuses ip off src.length then call sb (writei (F := F) ip off src) s = .ok (none, s)
      else s.trans.isSome → (call sb (writei (F := F) ip off src) s = .error (.panic .ballocOutOfBlocks) ∧
          ¬ Enough sb ip (touched off.toNat src.length) s) ∨
        (call sb (writei (F := F) ip off src) s = .error (.panic .tooBigATransaction) ∧
          ¬ FitsLog sb ip (touched off.toNat src.length) s) ∨
        ∃ s', call sb (writei (F := F) ip off src) s = .ok (some src.length, s') ∧
          Written sb L ip off.toNat src s s' ∧
          ∀ j ∈ L, j ≠ ip → s.MappedTo j (s.node j).size.toNat → s'.file j = s.file j := by
  refine ⟨readi_eq sb htype hm off, fun src hlen => ?_⟩
  have hcall : call sb (writei (F := F) ip off src) s = exec (writeBytes (F := F) sb ip off src) s := by
    rw [writei, call_bind (show call sb (fields (F := F) ip) s = .ok (s.node ip, s) from rfl), if_neg htype,
      call_content]
    rfl
  rw [hcall]
  split
  case isTrue hr => exact writeBytes_refused sb hlen hr
  case isFalse hr =>
    intro hop
    rcases writeBytes_spec (F := F) h hop hip hm hlen hr with ⟨e, herr, hl⟩ | ⟨_, s', hex, rfl, hw⟩
    · cases e with
      | ballocOutOfBlocks => exact .inl ⟨herr, hl⟩
      | tooBigATransaction => exact .inr (.inl ⟨herr, hl⟩)
      | _ => exact hl.elim
    · exact .inr (.inr ⟨s', hex, hw, fun j hj hne hj' => hw.other hj hne hj'⟩)

/-- A disk of ten blocks: the inodes in block 2, the bitmap in block 3. -/
def tenBlocks : Super := ⟨10, 7, 1, 2, 3⟩

/-- Every inode is an empty file; byte `v` is everywhere in the bitmap; a transaction has begun. -/
def emptyFiles (v : UInt8) : Solo where
  blk b _ := if b = 3 then v else 0
  node _ := { Dinode.zero with type := T_FILE }
  valid _ := true
  trans := some ∅

theorem emptyFiles_sound : Sound tenBlocks {i | i < 7} (emptyFiles 0xF) := by
  have hplace : ∀ p, place (emptyFiles 0xF).blk (emptyFiles 0xF).node p = 0 := by
    intro p
    simp [place, slotAddr, emptyFiles, Dinode.zero]
  refine ⟨by decide, by decide, fun i hi => hi, ?_, ⟨?_, ?_⟩⟩
  · decide
  · exact fun p _ hne => absurd (hplace p) hne
  · exact fun p _ _ _ hne => absurd (hplace p) hne

theorem emptyFiles_mapped : (emptyFiles 0xF).MappedTo 1 0 := ⟨by decide, fun _ h => absurd h (Nat.not_lt_zero _)⟩

/-- Three bytes go to an empty file, on a disk with blocks 4 to 7 free. -/
theorem readi_writei_tenBlocks : ¬ (emptyFiles 0xF).Refuses 1 0 3 ∧ ∃ s',
    call tenBlocks (writei (F := Unit) 1 0 [7, 8, 9]) (emptyFiles 0xF) = .ok (some 3, s') ∧
      Written tenBlocks {i | i < 7} 1 0 [7, 8, 9] (emptyFiles 0xF) s' := by
  have hr : ¬ (emptyFiles 0xF).Refuses 1 0 ([7, 8, 9] : List UInt8).length := by decide
  have h := (readi_writei (F := Unit) emptyFiles_sound (show 1 < 7 by decide) (by decide) emptyFiles_mapped 0).2
    [7, 8, 9] (by decide)
  rw [if_neg hr] at h
  obtain ⟨s', hcall, hw, -⟩ := ((h rfl).resolve_left fun h => h.2 (by decide)).resolve_left fun h => h.2 (by decide)
  exact ⟨hr, s', hcall, hw⟩

/-- Every inode is a file of one byte, in block 4. -/
def sharedBlock : Solo where
  blk b _ := if b = 3 then 0xFF else 0
  node _ := { Dinode.zero with type := T_FILE, size := 1, addrs := fun k => if k = 0 then 4 else 0 }
  valid _ := true
  trans := some ∅

theorem sharedBlock_mapped : sharedBlock.MappedTo 1 1 := by
  refine ⟨by decide, fun bn h => ?_⟩
  obtain rfl : bn = 0 := by omega
  decide

/-- A disk of 200 blocks with a file on it that is as large as files can be: slot `k` of inode 1 is block `10 + k`. -/
def largest : Solo where
  blk b i := if b = 3 then 0xFF else if b = 22 ∧ i % 4 = 0 then UInt8.ofNat (23 + i / 4) else 0
  node _ := ⟨T_FILE, 0, 0, 1, 71680, fun k => BitVec.ofNat 32 (10 + k)⟩
  valid _ := true
  trans := some ∅

theorem place_largest : ∀ k < NSLOT, place largest.blk largest.node (1, k) = 10 + k := by
  decide

theorem largest_mapped : largest.MappedTo 1 71680 := by
  refine ⟨by decide, fun bn hbn => ?_⟩
  have hmem : slotOf bn < NSLOT := by
    show slotOf bn < 141
    unfold slotOf
    split <;> omega
  rw [place_largest _ hmem]
  omega

/-- On a full disk one byte more is not refused, and gets no answer; nor does a write of 30 blocks of a file that has
them; with a block in two files, the other file changes. -/
theorem writei_full_shared :
    (((emptyFiles 0xFF).node 1).type ≠ T_DEV ∧ (emptyFiles 0xFF).MappedTo 1 0 ∧ ¬ (emptyFiles 0xFF).Refuses 1 0 1 ∧
      call tenBlocks (writei (F := Unit) 1 0 [7]) (emptyFiles 0xFF) = .error (.panic .ballocOutOfBlocks)) ∧
    ((largest.node 1).type ≠ T_DEV ∧ largest.MappedTo 1 71680 ∧ ¬ largest.Refuses 1 0 14849 ∧
      (call ⟨200, 7, 1, 2, 3⟩ (writei (F := Unit) 1 0 (List.replicate 14849 7)) largest).map (fun _ => ()) =
        .error (.panic .tooBigATransaction)) ∧
    (sharedBlock.node 1).type ≠ T_DEV ∧ sharedBlock.MappedTo 1 1 ∧ sharedBlock.file 2 = [0] ∧
      ∃ s', call tenBlocks (writei (F := Unit) 1 0 [7]) sharedBlock = .ok (some 1, s') ∧ s'.file 2 = [7] := by
  refine ⟨⟨by decide, ⟨by decide, fun _ h => absurd h (Nat.not_lt_zero _)⟩, by decide, rfl⟩,
    ⟨by decide, largest_mapped, by decide, by decide +kernel⟩, by decide, sharedBlock_mapped, by decide, _, rfl, ?_⟩
  decide

end Solo

end Xv6.Sysfile
