import Xv6Threading.Fs.Cache
import Xv6Threading.Sysfile.Protocol

/-!
# One call alone on a store

The calls of `Code`, with their locks, run one at a time on the inodes of `Fs`: what each action answers and does is
said on the store, and a process has to wait for itself when it acquires a lock it holds. So `Follows` is here that
this never happens, whatever the surroundings answer otherwise (`pre`).

The rules are equivalences: without a lock in the way `ilock`, `iput`, `dirlookup` and `namex` of `Code` do to the
store what those of `Fs` do, and stop where they panic.

| here | there |
| --- | --- |
| `Alone.store` | the inodes, and `ref` and `valid` of their entries in `icache` |
| `Alone.locks` | the inode locks of the process |
| `Alone.file` | the open-file table; a file that `filealloc` returns has no type (`file.c:70`) |

Contents of files, memory and descriptors may be anything.
-/

namespace Xv6.Sysfile

open Fs (Name Inum Store lookup)

def itype : Fs.Itype → BitVec 16
  | .free => 0
  | .dir => T_DIR
  | .file => T_FILE
  | .dev => T_DEV

def ofItype (t : BitVec 16) : Fs.Itype :=
  if t = 0 then .free else if t = T_DIR then .dir else if t = T_FILE then .file else .dev

@[simp] theorem ofItype_itype (t : Fs.Itype) : ofItype (itype t) = t := by
  cases t <;> rfl

@[simp] theorem itype_eq_dir (t : Fs.Itype) : itype t = 1#16 ↔ t = .dir := by
  cases t <;> decide

@[simp] theorem itype_eq_zero (t : Fs.Itype) : itype t = 0#16 ↔ t = .free := by
  cases t <;> decide

/-- The copy in memory. The size is that of a directory. -/
def dinode (n : Fs.Inode) : Dinode := ⟨itype n.type, n.major, n.minor, n.nlink, BitVec.ofNat 32 (16 * n.ents.length), fun _ => 0⟩

def assigned (n : Fs.Inode) (d : Dinode) : Fs.Inode :=
  { n with type := ofItype d.type, major := d.major, minor := d.minor, nlink := d.nlink }

def dirent (e : Fs.Dirent) : Dirent := ⟨BitVec.ofNat 16 e.inum, e.name⟩

structure Alone (F : Type) where
  store : Store
  locks : Finset Inum
  cwd : Inum
  file : F → File Inum

namespace Alone

variable {F : Type}

def setStore (s : Alone F) (t : Store) : Alone F := { s with store := t }
def lock (s : Alone F) (ip : Inum) : Alone F := { s with locks := insert ip s.locks }
def unlock (s : Alone F) (ip : Inum) : Alone F := { s with locks := s.locks.erase ip }

section

variable (s : Alone F)
include s

@[simp] theorem lock_store (ip : Inum) : (s.lock ip).store = s.store := rfl
@[simp] theorem setStore_store (t : Store) : (s.setStore t).store = t := rfl
@[simp] theorem setStore_locks (t : Store) : (s.setStore t).locks = s.locks := rfl
@[simp] theorem lock_locks (ip : Inum) : (s.lock ip).locks = insert ip s.locks := rfl
@[simp] theorem unlock_locks (ip : Inum) : (s.unlock ip).locks = s.locks.erase ip := rfl
@[simp] theorem setStore_self : s.setStore s.store = s := rfl
@[simp] theorem setStore_lock (t : Store) (ip : Inum) : (s.lock ip).setStore t = (s.setStore t).lock ip := rfl

end

theorem unlock_lock {s : Alone F} {ip : Inum} (h : ip ∉ s.locks) : (s.lock ip).unlock ip = s := by
  simp [lock, unlock, h]

/-- What may be answered. -/
def resp (s : Alone F) : (a : Act Inum F ⊕ Content Inum) → Resp Content.Resp a → Prop
  | .inl (.iget _ i), ip => ip.val = i ∧ ∃ t, s.store.iget ip = .ok t
  | .inl (.ref ip), r => r = s.store.ref ip
  | .inl (.dev _), r => r = ROOTDEV
  | .inl (.inum ip), r => r = ip.val
  | .inl (.holdingsleep ip), r => r = decide (ip ∈ s.locks)
  | .inl (.valid ip), r => r = s.store.valid ip
  | .inl (.fields ip), r => r = dinode (s.store.node ip)
  | .inl .cwd, r => r = some s.cwd
  | .inl .filealloc, r => ∀ f, r = some f → (s.file f).type = .none
  | .inl (.closeRef f), r => r = none ∨ r = some (s.file f)
  | .inr (.ialloc _ _), r => ∃ i : Inum, r = i ∧ Fin.find? (fun i : Inum => i ≠ 0 ∧ (s.store.node i).type = .free) = some i
  | .inr (.readDe dp off), r => r = ((s.store.node dp).ents[off.toNat / 16]?).map dirent
  | .inr (.writeDe _ off _), r => r = decide (off.toNat / 16 < Fs.MAXENTS)
  | _, _ => True

def next [DecidableEq F] (s : Alone F) : (a : Act Inum F ⊕ Content Inum) → Resp Content.Resp a → Alone F
  | .inl (.iget _ _), ip => s.setStore ((s.store.iget ip).toOption.getD s.store)
  | .inl (.idup ip), _ => s.setStore (s.store.idup ip)
  | .inl (.drop ip), _ => s.setStore (s.store.setRef ip (s.store.ref ip - 1))
  | .inl (.acquiresleep ip), _ => s.lock ip
  | .inl (.releasesleep ip), _ => s.unlock ip
  | .inl (.setValid ip v), _ => s.setStore (s.store.setValid ip v)
  | .inl (.assign ip d), _ => s.setStore (s.store.modify ip (assigned · d))
  | .inl (.setCwd ip), _ => { s with cwd := ip.getD s.cwd }
  | .inl (.setFile f x), _ => { s with file := Function.update s.file f x }
  | .inr (.itrunc ip), _ => s.setStore (s.store.modify ip fun n => { n with ents := [] })
  | .inr (.ialloc _ type), i => s.setStore (s.store.setNode (Fin.ofNat _ i) { Fs.Inode.zero with type := ofItype type })
  | .inr (.writeDe dp off de), _ =>
    s.setStore (s.store.writei dp (off.toNat / 16) ⟨Fin.ofNat _ de.inum.toNat, de.name⟩)
  | _, _ => s

end Alone

/-- A process does not acquire a lock it holds. -/
def alone {F : Type} [DecidableEq F] : Protocol (Act Inum F ⊕ Content Inum) (Resp Content.Resp) (Alone F) where
  pre s
    | .inl (.acquiresleep ip) => ip ∉ s.locks
    | _ => True
  resp := Alone.resp
  next := Alone.next

abbrev Sys.Lone {F : Type} [DecidableEq F] {α : Type} (Q : α → Alone F → Prop) (p : Sys Inum F α) (s : Alone F) : Prop :=
  alone.Follows Q p s

section Rules

variable {F α β : Type} [DecidableEq F] {s : Alone F} {ip dp : Inum} {name : Name} {P : β → Alone F → Prop}
  {U : Unit → Alone F → Prop}
  {Q : α → Alone F → Prop}

theorem lone_bind (p : Sys Inum F α) (f : α → Sys Inum F β) :
    Sys.Lone P (p >>= f) s ↔ Sys.Lone (fun x => Sys.Lone P (f x)) p s :=
  Protocol.follows_bind p f

theorem lone_panic (e : Panic) : Sys.Lone Q (panic e) s ↔ True :=
  ⟨fun _ => trivial, fun _ => ⟨trivial, fun r => r.elim⟩⟩

theorem done (r : Unit) : True ↔ r = () := by
  simp

/-- An action with one answer. -/
theorem lone_det {a : Act Inum F ⊕ Content Inum} {f : Resp Content.Resp a → Sys Inum F β} (x : Resp Content.Resp a)
    (hpre : alone.pre s a) (hresp : ∀ r, s.resp a r ↔ r = x) :
    Sys.Lone P (.ask a >>= f) s ↔ Sys.Lone P (f x) (s.next a x) := by
  rw [Sys.Lone, Protocol.follows_act]
  refine ⟨fun h => h.2 x ((hresp x).2 rfl), fun h => ⟨hpre, fun r hr => ?_⟩⟩
  rw [(hresp r).1 hr]
  exact h

theorem lone_ref {f : Nat → Sys Inum F β} : Sys.Lone P (ref ip >>= f) s ↔ Sys.Lone P (f (s.store.ref ip)) s :=
  lone_det (a := .inl (.ref ip)) _ trivial fun _ => Iff.rfl

theorem lone_valid {f : Bool → Sys Inum F β} : Sys.Lone P (valid ip >>= f) s ↔ Sys.Lone P (f (s.store.valid ip)) s :=
  lone_det (a := .inl (.valid ip)) _ trivial fun _ => Iff.rfl

theorem lone_fields {f : Dinode → Sys Inum F β} :
    Sys.Lone P (fields ip >>= f) s ↔ Sys.Lone P (f (dinode (s.store.node ip))) s :=
  lone_det (a := .inl (.fields ip)) _ trivial fun _ => Iff.rfl

variable {f : Unit → Sys Inum F β}

theorem lone_acquire (h : ip ∉ s.locks) : Sys.Lone P (acquiresleep ip >>= f) s ↔ Sys.Lone P (f ()) (s.lock ip) :=
  lone_det (a := .inl (.acquiresleep ip)) () h done

theorem lone_release : Sys.Lone P (releasesleep ip >>= f) s ↔ Sys.Lone P (f ()) (s.unlock ip) :=
  lone_det (a := .inl (.releasesleep ip)) () trivial done

theorem lone_setValid {v : Bool} :
    Sys.Lone P (setValid ip v >>= f) s ↔ Sys.Lone P (f ()) (s.setStore (s.store.setValid ip v)) :=
  lone_det (a := .inl (.setValid ip v)) () trivial done

theorem lone_load : Sys.Lone P (content (.load ip) >>= f) s ↔ Sys.Lone P (f ()) s :=
  lone_det (a := .inr (.load ip)) () trivial done

theorem lone_ilock (h : ip ∉ s.locks) :
    Sys.Lone U (ilock ip) s ↔ Returns (s.store.ilock ip) fun t => U () ((s.setStore t).lock ip) := by
  unfold ilock Store.ilock
  rw [lone_ref]
  by_cases href : s.store.ref ip < 1
  · simp [href, lone_panic]
  rw [if_neg href, if_neg href, lone_acquire h, lone_valid]
  by_cases hv : s.store.valid ip = true
  · simp [Alone.lock, hv, Alone.setStore]
  rw [Alone.lock_store, if_neg hv, if_neg hv, lone_load, lone_setValid, lone_fields]
  by_cases ht : (s.store.node ip).type = .free
  · simp [dinode, ht, lone_panic]
  · simp [dinode, ht]

/-- A lock in the way. -/
theorem not_lone_ilock (h : ip ∈ s.locks) (href : 0 < s.store.ref ip) : ¬ Sys.Lone U (ilock ip) s := by
  unfold ilock
  rw [lone_ref, if_neg (by omega)]
  exact fun hno => hno.1 h

theorem lone_iunlock (h : ip ∈ s.locks) :
    Sys.Lone U (iunlock ip) s ↔ (0 < s.store.ref ip → U () (s.unlock ip)) := by
  unfold iunlock
  rw [lone_det (a := .inl (.holdingsleep ip)) (decide (ip ∈ s.locks)) trivial fun _ => Iff.rfl]
  show Sys.Lone U (if decide (ip ∈ s.locks) = true then _ else _) s ↔ _
  rw [if_pos (by simpa using h), lone_ref]
  by_cases href : s.store.ref ip < 1
  · simp [href, lone_panic]
    omega
  rw [if_neg href]
  constructor
  · exact fun hQ _ => hQ.2 () trivial
  · exact fun hQ => ⟨trivial, fun _ _ => hQ (by omega)⟩

theorem modify_modify (t : Store) (i : Inum) (f g : Fs.Inode → Fs.Inode) :
    (t.modify i f).modify i g = t.modify i fun n => g (f n) := by
  simp [Store.modify, Store.setNode, Store.node]

theorem lone_ifree : Sys.Lone P (ifree ip >>= f) s ↔ Sys.Lone P (f ()) (s.setStore (s.store.ifree ip)) := by
  have hfree : ((s.store.modify ip fun n => { n with ents := [] }).modify ip
      (assigned · { dinode ((s.store.modify ip fun n => { n with ents := [] }).node ip) with type := 0 })).setValid ip false =
      s.store.ifree ip := by
    rw [modify_modify, Store.ifree]
    simp [Store.modify, assigned, dinode, ofItype]
  unfold ifree
  rw [lone_bind, lone_det (a := .inr (.itrunc ip)) () trivial done, lone_fields,
    lone_det (a := .inl (.assign ip _)) () trivial done,
    lone_det (a := .inr (.iupdate ip)) () trivial done]
  rw [← hfree]
  exact ⟨fun hQ => hQ.2 () trivial, fun hQ => ⟨trivial, fun _ _ => hQ⟩⟩

theorem lone_iput (h : ip ∉ s.locks) : Sys.Lone U (iput ip) s ↔ U () (s.setStore (s.store.iput ip)) := by
  have hend : ∀ t : Store, Sys.Lone U (do releasesleep ip; drop ip) ((s.setStore t).lock ip) ↔
      U () (s.setStore (t.setRef ip (t.ref ip - 1))) := by
    intro t
    rw [lone_release, Alone.unlock_lock (by simpa using h)]
    exact ⟨fun hQ => hQ.2 () trivial, fun hQ => ⟨trivial, fun _ _ => hQ⟩⟩
  unfold iput
  rw [lone_acquire h, lone_valid]
  dsimp only
  rw [Alone.lock_store]
  have hskip : ¬ (s.store.valid ip = true ∧ (s.store.node ip).nlink = 0 ∧ s.store.ref ip = 1) →
      (Sys.Lone U (do releasesleep ip; drop ip) (s.lock ip) ↔ U () (s.setStore (s.store.iput ip))) := by
    intro hno
    rw [Store.iput, if_neg hno]
    exact hend s.store
  by_cases hv : s.store.valid ip = true
  · rw [if_pos hv, lone_fields]
    by_cases hl : (s.store.node ip).nlink = 0
    · show Sys.Lone U (if (s.store.node ip).nlink = 0 then _ else _) _ ↔ _
      rw [if_pos hl, lone_ref]
      by_cases hr : s.store.ref ip = 1
      · rw [Alone.lock_store, if_pos hr, lone_ifree, Store.iput, if_pos ⟨hv, hl, hr⟩]
        exact hend (s.store.ifree ip)
      · rw [Alone.lock_store, if_neg hr]
        exact hskip fun hall => hr hall.2.2
    · show Sys.Lone U (if (s.store.node ip).nlink = 0 then _ else _) _ ↔ _
      rw [if_neg hl]
      exact hskip fun hall => hl hall.2.1
  · rw [if_neg hv]
    exact hskip fun hall => hv hall.1

theorem lone_iunlockput (h : ip ∈ s.locks) (href : 0 < s.store.ref ip) :
    Sys.Lone U (iunlockput ip) s ↔ U () ((s.setStore (s.store.iput ip)).unlock ip) := by
  unfold iunlockput
  rw [lone_bind, lone_iunlock h]
  have hin : ip ∉ (s.unlock ip).locks := by simp
  refine ⟨fun hQ => (lone_iput hin).1 (hQ href), fun hQ _ => (lone_iput hin).2 hQ⟩

/-! ## Directories -/

theorem lone_iget {dev : Nat} (ip : Inum) {f : Inum → Sys Inum F β} :
    Sys.Lone P (iget dev ip.val >>= f) s ↔ Returns (s.store.iget ip) fun t => Sys.Lone P (f ip) (s.setStore t) := by
  have hnext : ∀ t, s.store.iget ip = .ok t → alone.next s (.inl (.iget dev ip.val)) ip = s.setStore t := by
    intro t ht
    show s.setStore ((s.store.iget ip).toOption.getD s.store) = _
    rw [ht]
    rfl
  rw [Sys.Lone, Protocol.follows_act]
  constructor
  · intro h t ht
    rw [← hnext t ht]
    exact h.2 ip ⟨rfl, t, ht⟩
  intro h
  refine ⟨trivial, ?_⟩
  rintro i ⟨hi, t, ht⟩
  have hip : i = ip := Fin.ext hi
  rw [hip] at ht ⊢
  rw [hnext t ht]
  exact h t ht

/-- The first entry with this name from entry `k` on. -/
def lookFrom (ents : List Fs.Dirent) (name : Name) (k : Nat) : Option (Inum × Nat) :=
  (Store.findName (ents.drop k) name).map fun j => ((ents.getD (k + j) ⟨0, []⟩).inum, k + j)

theorem lookFrom_zero (n : Inum → Fs.Inode) : lookFrom (n dp).ents name 0 = lookup n dp name := by
  simp [lookFrom, lookup]

variable {ents : List Fs.Dirent} {k : Nat}

theorem lookFrom_end (h : ents.length ≤ k) : lookFrom ents name k = none := by
  simp [lookFrom, Store.findName, List.drop_eq_nil_of_le h]

theorem lookFrom_hit (hk : k < ents.length) (h0 : ents[k].inum ≠ 0)
    (hname : ents[k].name = name) : lookFrom ents name k = some (ents[k].inum, k) := by
  rw [lookFrom, List.drop_eq_getElem_cons hk, Store.findName, List.findIdx?_cons]
  simp [h0, hname, hk]

theorem lookFrom_miss (hk : k < ents.length)
    (h : ¬ (ents[k].inum ≠ 0 ∧ ents[k].name = name)) : lookFrom ents name k = lookFrom ents name (k + 1) := by
  rw [lookFrom, List.drop_eq_getElem_cons hk, Store.findName, List.findIdx?_cons, if_neg (by simpa using h), lookFrom,
    Option.map_map]
  simp only [Function.comp_def, Store.findName, Nat.add_assoc, Nat.add_comm 1]

/-- No directory is longer than a file can be. -/
def Small (t : Store) : Prop := ∀ i, (t.node i).ents.length ≤ Fs.MAXENTS

variable {t u : Store}

theorem ilock_ok (h : t.ilock ip = .ok u) :
    u.node = t.node ∧ u.ref = t.ref ∧ 0 < t.ref ip ∧ u.valid ip = true := by
  unfold Store.ilock at h
  split at h
  · cases h
  split at h
  · cases h
    exact ⟨rfl, rfl, by omega, ‹_›⟩
  split at h
  · cases h
  · cases h
    exact ⟨rfl, rfl, by omega, by simp⟩

theorem iget_ok (h : t.iget ip = .ok u) : u.node = t.node ∧ 0 < u.ref ip ∧ ∀ i, t.ref i ≤ u.ref i := by
  unfold Store.iget at h
  split at h
  · cases h
    refine ⟨rfl, by simp, fun i => ?_⟩
    by_cases hi : i = ip
    · simp [hi]
    · simp [hi]
  split at h
  · cases h
  cases h
  refine ⟨rfl, by simp, fun i => ?_⟩
  by_cases hi : i = ip
  · simp only [Store.ref_setValid, Store.ref_setRef, hi, Function.update_self]
    omega
  · simp [hi]

theorem returns_dirlookup (t : Store) (dp : Inum) (name : Name) :
    Returns (t.dirlookup dp name) fun q => q.1.node = t.node ∧ q.2 = lookup t.node dp name ∧
      (t.node dp).type = .dir ∧ (∀ i, t.ref i ≤ q.1.ref i) ∧ (q.2 = none → q.1 = t) := by
  unfold Store.dirlookup
  split
  · exact returns_error _
  rename_i hdir
  rw [ne_eq, Decidable.not_not] at hdir
  split
  next hnone =>
    exact (returns_ok _).2 ⟨rfl, by simp [lookup, hnone], hdir, fun i => Nat.le_refl _, fun _ => rfl⟩
  rename_i off hoff
  rw [returns_bind]
  intro u hu
  obtain ⟨hn, -, hle⟩ := iget_ok hu
  refine (returns_ok _).2 ⟨hn, by simp [lookup, hoff], hdir, hle, ?_⟩
  rintro ⟨⟩

theorem Small.of_node (h : Small t) (hn : u.node = t.node) : Small u := by
  intro i
  rw [hn]
  exact h i

theorem Small.iput (h : Small t) (i : Inum) : Small (t.iput i) := by
  intro j
  unfold Store.iput
  split
  · by_cases hj : j = i
    · simp [Store.ifree, hj]
    · simpa [Store.ifree, hj] using h j
  · exact h j

theorem dinode_entries {n : Fs.Inode} (h : n.ents.length ≤ Fs.MAXENTS) : entries (dinode n).size = n.ents.length := by
  simp only [entries, dinode, BitVec.toNat_ofNat]
  simp only [Fs.MAXENTS] at h
  omega

theorem dirent_toNat (e : Fs.Dirent) : (dirent e).inum.toNat = e.inum.val := by
  have : e.inum.val < 200 := e.inum.isLt
  simp only [dirent, BitVec.toNat_ofNat]
  omega

theorem dirent_inum_eq_zero (e : Fs.Dirent) : (dirent e).inum = 0 ↔ e.inum = 0 := by
  rw [← BitVec.toNat_inj, dirent_toNat, Fin.ext_iff]
  rfl

theorem lone_dirlookupLoop {Q : Option (Inum × BitVec 32) → Alone F → Prop} (dp : Inum) (name : Name)
    (hsmall : Small s.store) :
    ∀ n k, k + n = (s.store.node dp).ents.length →
      (Sys.Lone Q (dirlookupLoop dp name n (BitVec.ofNat 32 (16 * k))) s ↔
        (lookFrom (s.store.node dp).ents name k = none → Q none s) ∧
          ∀ ip off, lookFrom (s.store.node dp).ents name k = some (ip, off) →
            Returns (s.store.iget ip) fun t => Q (some (ip, BitVec.ofNat 32 (16 * off))) (s.setStore t))
  | 0, k, hk => by
    rw [lookFrom_end (by omega)]
    simp [dirlookupLoop]
  | n + 1, k, hk => by
    have hlt : k < (s.store.node dp).ents.length := by omega
    have hoff : (BitVec.ofNat 32 (16 * k)).toNat / 16 = k := by
      have := hsmall dp
      simp only [Fs.MAXENTS] at this
      rw [BitVec.toNat_ofNat]
      omega
    have hread : ∀ r, s.resp (.inr (.readDe dp (BitVec.ofNat 32 (16 * k)))) r ↔
        r = some (dirent (s.store.node dp).ents[k]) := by
      intro r
      show r = ((s.store.node dp).ents[(BitVec.ofNat 32 (16 * k)).toNat / 16]?).map dirent ↔ _
      rw [hoff, List.getElem?_eq_getElem hlt]
      rfl
    unfold dirlookupLoop
    rw [lone_det (a := .inr (.readDe dp (BitVec.ofNat 32 (16 * k)))) _ trivial hread]
    show Sys.Lone Q (if (dirent (s.store.node dp).ents[k]).inum ≠ 0 ∧ (s.store.node dp).ents[k].name = name
      then _ else _) s ↔ _
    by_cases hit : (dirent (s.store.node dp).ents[k]).inum ≠ 0 ∧ (s.store.node dp).ents[k].name = name
    · rw [if_pos hit, lookFrom_hit hlt (fun h0 => hit.1 ((dirent_inum_eq_zero _).2 h0)) hit.2,
        lone_det (a := .inl (.dev dp)) _ trivial fun _ => Iff.rfl, dirent_toNat]
      refine Iff.trans (lone_iget _ (f := fun ip => pure (some (ip, _)))) ?_
      simp [Alone.next]
    · rw [if_neg hit, lookFrom_miss hlt fun h => hit ⟨fun h0 => h.1 ((dirent_inum_eq_zero _).1 h0), h.2⟩,
        ← lone_dirlookupLoop dp name hsmall n (k + 1) (by omega), Nat.mul_add, BitVec.ofNat_add]
      rfl

theorem lone_dirlookup {Q : Option (Inum × BitVec 32) → Alone F → Prop} (hsmall : Small s.store) :
    Sys.Lone Q (dirlookup dp name) s ↔ Returns (s.store.dirlookup dp name) fun q =>
      Q (q.2.map fun x => (x.1, BitVec.ofNat 32 (16 * x.2))) (s.setStore q.1) := by
  unfold dirlookup Store.dirlookup
  rw [lone_fields]
  by_cases hd : (s.store.node dp).type = .dir
  · have hloop := lone_dirlookupLoop (Q := Q) dp name hsmall _ 0 (Nat.zero_add _)
    rw [lookFrom_zero, lookup] at hloop
    rw [if_neg (by simp [dinode, hd]), if_neg (by simp [hd]), dinode_entries (hsmall dp)]
    refine Iff.trans hloop ?_
    cases Store.findName (s.store.node dp).ents name with
    | none => simp
    | some off =>
      dsimp only
      rw [returns_bind]
      simp [pure, Except.pure]
  · rw [if_pos (by simp [dinode, hd]), if_pos hd]
    simp [lone_panic]

/-! ## Paths -/

theorem lone_namexLoop {Q : Option (Inum × Name) → Alone F → Prop} (parent : Bool) : ∀ (fuel : Nat) {s : Alone F}
    (ip : Inum) (path : Path) (name : Name) (_ : s.locks = ∅) (_ : Small s.store),
    Sys.Lone Q (namexLoop parent fuel ip path name) s ↔
      Returns (s.store.namexLoop parent fuel ip path name) fun q => Q q.2 (s.setStore q.1)
  | 0, s, ip, path, name, _, _ => by
    simp [namexLoop, Store.namexLoop]
  | fuel + 1, s, ip, path, name, hlocks, hsmall => by
    unfold namexLoop Store.namexLoop
    have hfree : ∀ i, i ∉ s.locks := by simp [hlocks]
    cases Fs.skipelem path with
    | none =>
      cases parent with
      | false => simp
      | true =>
        show Sys.Lone Q (iput ip >>= fun _ => pure none) s ↔ Returns (.ok (s.store.iput ip, none)) _
        rw [lone_bind, lone_iput (hfree ip), returns_ok]
        rfl
    | some q =>
      obtain ⟨elem, rest⟩ := q
      show Sys.Lone Q (ilock ip >>= fun _ => _) s ↔ _
      rw [lone_bind, lone_ilock (hfree ip), returns_bind]
      refine Returns.congr fun t ht => ?_
      obtain ⟨hn, hr, hpos, -⟩ := ilock_ok ht
      have hin : ∀ u, ip ∈ ((s.setStore u).lock ip).locks := by simp
      have hback : ∀ u, ((s.setStore u).lock ip).unlock ip = s.setStore u := fun u =>
        Alone.unlock_lock (s := s.setStore u) (hfree ip)
      rw [lone_fields]
      by_cases hd : (t.node ip).type ≠ .dir
      · have hdt : (dinode (t.node ip)).type ≠ T_DIR := by simpa [dinode] using hd
        show Sys.Lone Q (if (dinode (t.node ip)).type ≠ T_DIR then _ else _) _ ↔ _
        rw [if_pos hdt, if_pos hd, lone_bind, lone_iunlockput (hin t) (by simpa [hr] using hpos)]
        show Q none (((s.setStore (t.iput ip)).lock ip).unlock ip) ↔ Returns (.ok (t.iput ip, none)) _
        rw [returns_ok, hback]
      have hdt : ¬ (dinode (t.node ip)).type ≠ T_DIR := by simpa [dinode] using hd
      show Sys.Lone Q (if (dinode (t.node ip)).type ≠ T_DIR then _ else _) _ ↔ _
      rw [if_neg hdt, if_neg hd]
      by_cases hp : parent = true ∧ rest = []
      · rw [if_pos hp, if_pos hp, lone_bind, lone_iunlock (hin t), hback]
        show (_ → Q (some (ip, elem)) _) ↔ Returns (.ok (t, some (ip, elem))) _
        rw [returns_ok]
        exact ⟨fun h => h (by simpa [hr] using hpos), fun h _ => h⟩
      rw [if_neg hp, if_neg hp, lone_bind, lone_dirlookup (hsmall.of_node hn), returns_bind]
      refine Returns.congr fun q hq => ?_
      obtain ⟨u, r⟩ := q
      obtain ⟨hun, -, -, hle, -⟩ := returns_dirlookup t ip elem _ hq
      have hupos : 0 < u.ref ip := Nat.lt_of_lt_of_le (by rw [hr]; exact hpos) (hle ip)
      have husmall : Small u := (hsmall.of_node hn).of_node hun
      cases r with
      | none =>
        show Sys.Lone Q (iunlockput ip >>= fun _ => pure none) ((s.setStore u).lock ip) ↔
          Returns (.ok (u.iput ip, none)) _
        rw [lone_bind, lone_iunlockput (hin u) hupos, returns_ok]
        show Q none (((s.setStore (u.iput ip)).lock ip).unlock ip) ↔ _
        rw [hback]
      | some x =>
        obtain ⟨next, off⟩ := x
        show Sys.Lone Q (iunlockput ip >>= fun _ => namexLoop parent fuel next rest elem)
          ((s.setStore u).lock ip) ↔ _
        rw [lone_bind, lone_iunlockput (hin u) hupos]
        show Sys.Lone Q _ (((s.setStore (u.iput ip)).lock ip).unlock ip) ↔ _
        rw [hback]
        exact lone_namexLoop parent fuel next rest elem hlocks (husmall.iput ip)

omit [DecidableEq F] in
theorem Small.namexLoop (parent : Bool) : ∀ (fuel : Nat) {t : Store} (ip : Inum) (path : Path) (name : Name),
    Small t → Returns (t.namexLoop parent fuel ip path name) fun q => Small q.1
  | 0, t, ip, path, name, h => (returns_ok _).2 h
  | fuel + 1, t, ip, path, name, h => by
    unfold Store.namexLoop
    split
    · split
      · exact (returns_ok _).2 (h.iput ip)
      · exact (returns_ok _).2 h
    rw [returns_bind]
    intro u hu
    have hsmall := h.of_node (ilock_ok hu).1
    split
    · exact (returns_ok _).2 (hsmall.iput ip)
    split
    · exact (returns_ok _).2 hsmall
    rw [returns_bind]
    rintro ⟨w, r⟩ hr
    have hw : Small w := hsmall.of_node (returns_dirlookup _ _ _ _ hr).1
    cases r with
    | none => exact (returns_ok _).2 (hw.iput ip)
    | some x => exact Small.namexLoop parent fuel _ _ _ (hw.iput ip)

theorem lone_mycwd {Q : Inum → Alone F → Prop} : Sys.Lone Q mycwd s ↔ Q s.cwd s := by
  unfold mycwd
  rw [lone_det (a := .inl .cwd) (some s.cwd) trivial fun _ => Iff.rfl]
  exact Iff.rfl

theorem lone_namex {Q : Option (Inum × Name) → Alone F → Prop} (path : Path) (parent : Bool) (hlocks : s.locks = ∅)
    (hsmall : Small s.store) : Sys.Lone Q (namex path parent) s ↔
      Returns (s.store.namex s.cwd path parent) fun q => Q q.2 (s.setStore q.1) := by
  unfold namex Store.namex namexStart
  rw [lone_bind]
  dsimp only
  by_cases hs : path.head? = some Fs.slash
  · rw [if_pos hs, if_pos hs, returns_bind, returns_map]
    refine Iff.trans (lone_iget Fs.ROOTINO (f := pure)) (Returns.congr fun t ht => ?_)
    exact lone_namexLoop parent _ _ path [] hlocks (hsmall.of_node (iget_ok ht).1)
  · rw [if_neg hs, if_neg hs, returns_bind, returns_ok, lone_bind, lone_mycwd]
    refine Iff.trans (lone_det (a := .inl (.idup s.cwd)) () trivial done) ?_
    exact lone_namexLoop parent _ _ path [] hlocks hsmall

omit [DecidableEq F] in
theorem Small.namex (h : Small t) (cwd : Inum) (path : Path) (parent : Bool) :
    Returns (t.namex cwd path parent) fun q => Small q.1 := by
  unfold Store.namex
  dsimp only
  split
  · rw [returns_bind, returns_map]
    intro u hu
    exact Small.namexLoop parent _ _ _ _ (h.of_node (iget_ok hu).1)
  · rw [returns_bind, returns_ok]
    exact Small.namexLoop parent _ _ _ _ h

omit [DecidableEq F] in
theorem Small.namei (h : Small t) (cwd : Inum) (path : Path) : Returns (t.namei cwd path) fun q => Small q.1 := by
  unfold Store.namei
  rw [returns_map]
  exact h.namex cwd path false

theorem lone_namei {Q : Option Inum → Alone F → Prop} (path : Path) (hlocks : s.locks = ∅) (hsmall : Small s.store) :
    Sys.Lone Q (namei path) s ↔ Returns (s.store.namei s.cwd path) fun q => Q q.2 (s.setStore q.1) := by
  unfold namei Store.namei
  rw [lone_bind, lone_namex path false hlocks hsmall, returns_map]
  rfl

theorem lone_nameiparent {Q : Option (Inum × Name) → Alone F → Prop} (path : Path) (hlocks : s.locks = ∅)
    (hsmall : Small s.store) : Sys.Lone Q (nameiparent path) s ↔
      Returns (s.store.nameiparent s.cwd path) fun q => Q q.2 (s.setStore q.1) :=
  lone_namex path true hlocks hsmall

end Rules

end Xv6.Sysfile
