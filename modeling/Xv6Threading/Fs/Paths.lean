import Xv6Threading.Fs.Namex
import Mathlib.Data.List.DropRight

/-!
# Paths as lists of components (`fs.c:583-670`)

`namex` takes a path apart while it goes along. Here a path is its list of components first, and then they are looked up
one after the other; `namei` and `nameiparent` return what that gives, with one reference to it and no other change.

| here | there |
| --- | --- |
| `components` | the pieces of the path between slashes, without the empty ones, cut to `DIRSIZ` bytes |
| `follow`, `parentOf` | where a list of components leads, and the directory and name of its last one |
-/

namespace Xv6.Fs

variable {R : Inum → Nat} {K L : Multiset Inum} {s : Store} {cwd ip : Inum} {n : Inum → Inode} {path : List UInt8}
  {rest : List UInt8}

def components (path : List UInt8) : List Name := ((path.splitOn slash).filter (· ≠ [])).map (·.take DIRSIZ)

def follow (n : Inum → Inode) : Inum → List Name → Option Inum
  | ip, [] => some ip
  | ip, c :: cs => if (n ip).type ≠ .dir then none else (lookup n ip c).bind fun r => follow n r.1 cs

def parentOf (n : Inum → Inode) (ip : Inum) (cs : List Name) : Option (Inum × Name) :=
  cs.getLast?.bind fun c => (follow n ip cs.dropLast).bind fun dp => if (n dp).type ≠ .dir then none else some (dp, c)

/-! ## `skipelem` -/

@[simp] theorem components_nil : components [] = [] := by simp [components]

theorem components_slash (path : List UInt8) : components (slash :: path) = components path := by
  simp [components, List.splitOn, List.splitOnP_cons_eq_if_modifyHead]

theorem components_dropWhile : ∀ path : List UInt8, components (path.dropWhile (· = slash)) = components path
  | [] => rfl
  | c :: path => by
    rw [List.dropWhile_cons]
    by_cases hc : c = slash
    · rw [if_pos (decide_eq_true hc), hc, components_slash, components_dropWhile path]
    · rw [if_neg (by simpa using hc)]

/-- A word without slashes, up to a slash or the end. -/
theorem components_word {w : List UInt8} (hw : ∀ c ∈ w, c ≠ slash) (hne : w ≠ [])
    (hrest : rest = [] ∨ ∃ r, rest = slash :: r) : components (w ++ rest) = w.take DIRSIZ :: components rest := by
  have hp : ∀ c ∈ w, (c == slash) = false := fun c hc => by simpa using hw c hc
  rcases hrest with rfl | ⟨r, rfl⟩
  · simp [components, List.splitOn, List.splitOnP_eq_singleton hp, hne]
  · rw [components_slash]
    simp [components, List.splitOn, List.splitOnP_append_cons_of_forall_mem hp, hne]

theorem skipelem_none (h : skipelem path = none) : components path = [] := by
  rw [← components_dropWhile path]
  simp only [skipelem] at h
  split at h
  next hnil =>
    rw [hnil, components_nil]
  · cases h

theorem not_of_dropWhile {p : UInt8 → Bool} {l xs : List UInt8} {x : UInt8} (h : l.dropWhile p = x :: xs) :
    p x = false := by
  have hhead := List.head?_dropWhile_not p l
  rw [h] at hhead
  exact hhead

/-- One element, and what is left: it is shorter and does not start with a slash. -/
theorem skipelem_some {c : Name} (h : skipelem path = some (c, rest)) :
    components path = c :: components rest ∧ rest.length < path.length ∧ rest.dropWhile (· = slash) = rest := by
  simp only [skipelem] at h
  split at h
  · cases h
  rename_i hne
  obtain ⟨rfl, rfl⟩ := Prod.mk.inj (Option.some.inj h)
  have hlen := (List.dropWhile_suffix (l := path) (· = slash)).length_le
  rw [← components_dropWhile path]
  obtain ⟨x, xs, hx⟩ := List.exists_cons_of_ne_nil hne
  have hslash : x ≠ slash := by simpa using not_of_dropWhile hx
  rw [hx] at hlen ⊢
  obtain ⟨w, hw⟩ : ∃ w, w = (x :: xs).takeWhile (· ≠ slash) := ⟨_, rfl⟩
  obtain ⟨d, hd⟩ : ∃ d, d = (x :: xs).dropWhile (· ≠ slash) := ⟨_, rfl⟩
  have hsplit : w ++ d = x :: xs := by
    rw [hw, hd]
    exact List.takeWhile_append_dropWhile
  have hwslash : ∀ c ∈ w, c ≠ slash := by
    intro c hc
    rw [hw] at hc
    simpa using List.mem_takeWhile_imp hc
  have hwne : w ≠ [] := by
    rw [hw, List.takeWhile_cons, if_pos (by simpa using hslash)]
    exact List.cons_ne_nil _ _
  have hdslash : d = [] ∨ ∃ r, d = slash :: r := by
    by_cases hd0 : d = []
    · exact .inl hd0
    · obtain ⟨y, r, hy⟩ := List.exists_cons_of_ne_nil hd0
      have hy' : y = slash := by simpa using not_of_dropWhile (hd.symm.trans hy)
      exact .inr ⟨r, by rw [hy, hy']⟩
  rw [← hw, ← hd]
  refine ⟨?_, ?_, List.dropWhile_idempotent _ _⟩
  · rw [← hsplit, components_word hwslash hwne hdslash, components_dropWhile]
  have hlen' := congrArg List.length hsplit
  rw [List.length_append] at hlen'
  have hwpos := List.length_pos_of_ne_nil hwne
  have hd' := (List.dropWhile_suffix (l := d) (· = slash)).length_le
  omega

theorem components_eq_nil (h : path.dropWhile (· = slash) = path) : components path = [] ↔ path = [] := by
  refine ⟨fun hnil => ?_, fun hnil => by rw [hnil, components_nil]⟩
  by_contra hne
  cases hs : skipelem path with
  | none =>
    simp only [skipelem, h, if_neg hne] at hs
    cases hs
  | some q =>
    rw [(skipelem_some hs).1] at hnil
    cases hnil

/-! ## The walk -/

theorem parentOf_cons (ip : Inum) (c : Name) (cs : List Name) : parentOf n ip (c :: cs) =
    if (n ip).type ≠ .dir then none else if cs = [] then some (ip, c) else
      (lookup n ip c).bind fun r => parentOf n r.1 cs := by
  cases cs with
  | nil => simp [parentOf, follow]
  | cons d ds =>
    rw [if_neg (List.cons_ne_nil d ds)]
    simp only [parentOf, List.dropLast_cons_of_ne_nil (List.cons_ne_nil d ds), List.getLast?_cons_cons, follow]
    split
    · cases (d :: ds).getLast? <;> rfl
    · cases lookup n ip c with
      | none => cases (d :: ds).getLast? <;> rfl
      | some q => rfl

/-- The loop of `namex` goes through the components. -/
theorem walk_eq (n : Inum → Inode) (fuel : Nat) : ∀ {path : List UInt8} (ip : Inum) (name : Name), path.length < fuel →
    (walk n false fuel ip path name).map (·.1) = follow n ip (components path) ∧
      walk n true fuel ip path name = parentOf n ip (components path) := by
  induction fuel with
  | zero => exact fun _ _ h => absurd h (Nat.not_lt_zero _)
  | succ fuel ih =>
    intro path ip name hlen
    cases hs : skipelem path with
    | none => simp [walk, hs, skipelem_none hs, follow, parentOf]
    | some q =>
      obtain ⟨c, rest⟩ := q
      obtain ⟨hcomp, hshort, hrest⟩ := skipelem_some hs
      rw [hcomp, parentOf_cons, follow]
      simp only [walk, hs, components_eq_nil hrest, Bool.false_eq_true, false_and, true_and, if_false]
      split
      · exact ⟨rfl, rfl⟩
      cases lookup n ip c with
      | none => exact ⟨rfl, by split <;> rfl⟩
      | some q =>
        obtain ⟨hfollow, hparent⟩ := ih q.1 c (by omega : rest.length < fuel)
        refine ⟨hfollow, ?_⟩
        split
        · rfl
        · exact hparent

def start (cwd : Inum) (path : List UInt8) : Inum := if path.head? = some slash then ROOTINO else cwd

theorem resolve_eq (n : Inum → Inode) (cwd : Inum) (path : List UInt8) :
    (resolve n cwd path false).map (·.1) = follow n (start cwd path) (components path) ∧
      resolve n cwd path true = parentOf n (start cwd path) (components path) :=
  walk_eq n (path.length + 1) _ [] (Nat.lt_succ_self _)

/-! ## References -/

/-- One reference more to what is returned, and no other change. -/
def Took (s s' : Store) (r : Option Inum) : Prop :=
  s'.node = s.node ∧ ∀ i, s'.ref i = s.ref i + if r = some i then 1 else 0

theorem took_of_found {s' : Store} {r : Option Inum} (hn : s'.node = s.node) (h : Found s.ref 0 0 s' r) : Took s s' r := by
  refine ⟨hn, fun i => ?_⟩
  cases r with
  | none =>
    have href := (show Live s.ref 0 0 s' from h).ref i
    simpa using href
  | some j =>
    have href := (show Live s.ref 0 (j ::ₘ 0) s' from h).ref i
    rw [Multiset.count_zero, Multiset.count_cons, Multiset.count_zero] at href
    simp only [Option.some.injEq, eq_comm (a := j)]
    omega

theorem namex_outcome (h : Live s.ref 0 0 s) (hroot : (s.node ROOTINO).type ≠ .free) (hcwd : 0 < s.ref cwd)
    (htree : ¬ Dangles s.node) (path : List UInt8) (parent : Bool) :
    (s.namex cwd path parent = .error .iget ∧ NINODE < used s + 2) ∨
      ∃ s', s.namex cwd path parent = .ok (s', resolve s.node cwd path parent) ∧
        Took s s' ((resolve s.node cwd path parent).map (·.1)) := by
  have hout := namex_spec h h.steady hroot hcwd path parent
  cases hx : s.namex cwd path parent with
  | error e =>
    rcases hout.error e hx with ⟨rfl, hlt⟩ | ⟨-, hd⟩
    · rw [← used_eq] at hlt
      exact .inl ⟨rfl, hlt⟩
    · exact absurd hd htree
  | ok r =>
    obtain ⟨s', r⟩ := r
    obtain ⟨hn, rfl, hfound, -⟩ := hout.ok _ hx
    exact .inr ⟨s', rfl, took_of_found hn hfound⟩

/-- **Path resolution follows the component list.** In a tree without dangling entries, `namei` returns what looking up
the components one after the other gives, and `nameiparent` the directory of the last component together with it; the only
reference they leave is one to what they return. With room for two more inodes in the cache they always return, and with
less they stop, if they do, in `iget`. -/
theorem namei_nameiparent_components (h : Live s.ref 0 0 s) (hroot : (s.node ROOTINO).type ≠ .free)
    (hcwd : 0 < s.ref cwd) (htree : ¬ Dangles s.node) (path : List UInt8) :
    ((s.namei cwd path = .error .iget ∧ NINODE < used s + 2) ∨
      ∃ s', s.namei cwd path = .ok (s', follow s.node (start cwd path) (components path)) ∧
        Took s s' (follow s.node (start cwd path) (components path))) ∧
    ((s.nameiparent cwd path = .error .iget ∧ NINODE < used s + 2) ∨
      ∃ s', s.nameiparent cwd path = .ok (s', parentOf s.node (start cwd path) (components path)) ∧
        Took s s' ((parentOf s.node (start cwd path) (components path)).map (·.1))) := by
  obtain ⟨hfollow, hparent⟩ := resolve_eq s.node cwd path
  constructor
  · rw [← hfollow]
    rcases namex_outcome h hroot hcwd htree path false with ⟨he, hlt⟩ | ⟨s', hs', htook⟩
    · exact .inl ⟨by rw [Store.namei, he]; rfl, hlt⟩
    · exact .inr ⟨s', by rw [Store.namei, hs']; rfl, htook⟩
  · rw [← hparent]
    exact namex_outcome h hroot hcwd htree path true

/-! ## A full cache -/

/-- A root directory with the name `a` for inode 60, and files; the first `k` inodes are in use. -/
def rootWithA (k : Nat) : Store where
  inodes := Vector.ofFn fun i => if i = 1 then ⟨.dir, 0, 0, 1, [⟨1, dot⟩, ⟨1, dotdot⟩, ⟨60, [97]⟩]⟩
    else if i ≠ 0 ∧ i.val ≤ 60 then ⟨.file, 0, 0, 1, []⟩ else Inode.zero
  refs := Vector.ofFn fun i => if i ≠ 0 ∧ i.val ≤ k then 1 else 0
  valids := Vector.ofFn fun _ => true

theorem node_rootWithA (k : Nat) (i : Inum) : (rootWithA k).node i =
    if i = 1 then ⟨.dir, 0, 0, 1, [⟨1, dot⟩, ⟨1, dotdot⟩, ⟨60, [97]⟩]⟩
    else if i ≠ 0 ∧ i.val ≤ 60 then ⟨.file, 0, 0, 1, []⟩ else Inode.zero := by
  simp [Store.node, rootWithA]

theorem ref_rootWithA (k : Nat) (i : Inum) : (rootWithA k).ref i = if i ≠ 0 ∧ i.val ≤ k then 1 else 0 := by
  simp [Store.ref, rootWithA]

theorem live_rootWithA {k : Nat} (hk : k ≤ 60) : Live (rootWithA k).ref 0 0 (rootWithA k) := by
  refine ⟨fun i => by simp, fun i hi => absurd hi (Multiset.notMem_zero i), ?_, ?_, ?_⟩
  · intro i hf
    have href : (rootWithA k).ref i = 0 := by
      rw [node_rootWithA] at hf
      rw [ref_rootWithA, if_neg]
      rintro ⟨h0, hik⟩
      split at hf
      · cases hf
      · rw [if_pos ⟨h0, hik.trans hk⟩] at hf
        cases hf
    exact ⟨href, fun hpos => absurd href (Nat.ne_of_gt hpos)⟩
  · intro i hf h0
    rw [node_rootWithA] at hf h0
    split at h0
    · cases h0
    rename_i h1
    rw [if_neg h1] at hf
    split at h0
    · cases h0
    next h2 =>
      rw [if_neg h2] at hf
      exact absurd rfl hf
  · intro i _
    exact .inl (by simp [Store.valid, rootWithA])

theorem not_dangles_rootWithA (k : Nat) : ¬ Dangles (rootWithA k).node := by
  rintro ⟨d, hd, e, he, h0, hf⟩
  rw [node_rootWithA] at hd he hf
  split at he
  · simp only [List.mem_cons, List.not_mem_nil, or_false] at he
    rcases he with rfl | rfl | rfl <;> revert hf <;> decide
  · split at he <;> cases he

theorem used_rootWithA : used (rootWithA 1) = 1 := by
  decide +kernel

/-- `a` is found. -/
theorem namei_nameiparent_a : ∃ s', (rootWithA 1).namei 1 [97] = .ok (s', some 60) ∧ Took (rootWithA 1) s' (some 60) := by
  have hfollow : follow (rootWithA 1).node (start 1 [97]) (components [97]) = some 60 := by decide +kernel
  have h := (@namei_nameiparent_components (rootWithA 1) 1 (live_rootWithA (by decide)) (by rw [node_rootWithA]; decide)
    (by rw [ref_rootWithA]; decide) (not_dangles_rootWithA 1) [97]).1
  rw [hfollow, used_rootWithA] at h
  exact h.resolve_left fun hfull => absurd hfull.2 (by decide)

/-- All entries of the cache are in use, and `a` is not one of them: `iget` panics. -/
theorem namei_full : Live (rootWithA 50).ref 0 0 (rootWithA 50) ∧ ¬ Dangles (rootWithA 50).node ∧
    follow (rootWithA 50).node 1 (components [97]) = some 60 ∧ (rootWithA 50).namei 1 [97] = .error .iget :=
  ⟨live_rootWithA (by decide), not_dangles_rootWithA 50, by decide +kernel, by decide +kernel⟩

end Xv6.Fs
