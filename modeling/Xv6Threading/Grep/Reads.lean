import Mathlib.Data.List.Basic

/-!
# `grep` on a file that comes in pieces (`grep.c`, `ulib.c:41-46`)

A string is the bytes in front of its NUL. `grep` keeps the bytes of a line that has no end yet for the next `read`,
but if there is no newline in the buffer at all it forgets what it has (`m = 0`, `grep.c:29`): a `read` that brings
no newline loses the beginning of a line.

| here | there |
| --- | --- |
| `matchstar c here text` | `matchstar(c, re, text)`, with `here` for `matchhere(re, ·)` |
| `scan` | the inner loop, from `p` on: what is written, and the bytes from `p` on after it |
| `turn` | the body of the outer loop; what is kept are the `m` bytes of `buf` |
| `grep` | `read` has returned these results; then it returns 0 |
-/

namespace Xv6.Grep

abbrev newline : UInt8 := 10
abbrev dot : UInt8 := 46
abbrev star : UInt8 := 42
abbrev dollar : UInt8 := 36
abbrev caret : UInt8 := 94

/-- The size of `buf`. -/
abbrev BUFSIZE : Nat := 1024

/-! ## Matching -/

def matchstar (c : UInt8) (here : List UInt8 → Bool) : List UInt8 → Bool
  | [] => here []
  | t :: text => here (t :: text) || ((t = c || c = dot) && matchstar c here text)

def matchhere : List UInt8 → List UInt8 → Bool
  | [], _ => true
  | [c], text =>
    if c = dollar then text.isEmpty
    else match text with
      | [] => false
      | t :: text => (c = dot || c = t) && matchhere [] text
  | c :: c' :: re, text =>
    if c' = star then matchstar c (matchhere re) text
    else match text with
      | [] => false
      | t :: text => (c = dot || c = t) && matchhere (c' :: re) text

/-- The loop of `match` over the suffixes of the text, the empty one included. -/
def matchAny (re : List UInt8) : List UInt8 → Bool
  | [] => matchhere re []
  | t :: text => matchhere re (t :: text) || matchAny re text

def «match» : List UInt8 → List UInt8 → Bool
  | [], text => matchAny [] text
  | c :: re, text => if c = caret then matchhere re text else matchAny (c :: re) text

/-! ## Lines -/

def strchr (c : UInt8) : List UInt8 → Option Nat
  | [] => none
  | x :: s => if x = 0 then none else if x = c then some 0 else (strchr c s).map (· + 1)

/-- Every turn takes a byte off at least, so their number is fuel enough. -/
def scanLoop (pattern : List UInt8) : Nat → List UInt8 → List UInt8 × List UInt8
  | 0, p => ([], p)
  | fuel + 1, p =>
    match strchr newline p with
    | none => ([], p)
    | some q =>
      let (out, rest) := scanLoop pattern fuel (p.drop (q + 1))
      ((if «match» pattern (p.take q) then p.take q ++ [newline] else []) ++ out, rest)

def scan (pattern text : List UInt8) : List UInt8 × List UInt8 := scanLoop pattern text.length text

/-- What is written, and what is kept. -/
def turn (pattern kept result : List UInt8) : List UInt8 × List UInt8 :=
  let text := kept ++ result
  let (out, rest) := scan pattern text
  (out, if rest.length = text.length then [] else rest)

def grepLoop (pattern : List UInt8) : List UInt8 → List (List UInt8) → List UInt8
  | _, [] => []
  | kept, r :: rs =>
    let (out, kept) := turn pattern kept r
    out ++ grepLoop pattern kept rs

def grep (pattern : List UInt8) (results : List (List UInt8)) : List UInt8 := grepLoop pattern [] results

/-- What `read` can have returned: some bytes, and no more than there is room for. Which bytes are kept does not depend
on the pattern. -/
def Reads : List UInt8 → List (List UInt8) → Prop
  | _, [] => True
  | kept, r :: rs => r ≠ [] ∧ r.length ≤ BUFSIZE - kept.length - 1 ∧ Reads (turn [] kept r).2 rs

instance : ∀ kept rs, Decidable (Reads kept rs)
  | _, [] => isTrue trivial
  | kept, r :: rs =>
    have := instDecidableReads (turn [] kept r).2 rs
    inferInstanceAs (Decidable (r ≠ [] ∧ r.length ≤ BUFSIZE - kept.length - 1 ∧ _))

/-- Lines, each with its newline. -/
def unlines (ls : List (List UInt8)) : List UInt8 := ls.flatMap (· ++ [newline])

@[simp] theorem unlines_nil : unlines [] = [] := rfl

@[simp] theorem unlines_cons (l : List UInt8) (ls : List (List UInt8)) :
    unlines (l :: ls) = l ++ newline :: unlines ls := by
  simp [unlines]

theorem unlines_append (ls ls' : List (List UInt8)) : unlines (ls ++ ls') = unlines ls ++ unlines ls' := by
  simp [unlines]

/-- The lines that match. -/
def matching (pattern : List UInt8) (ls : List (List UInt8)) : List UInt8 := unlines (ls.filter («match» pattern))

/-! ## The buffer -/

variable {pattern kept s l : List UInt8} {ls rs : List (List UInt8)} {t : List UInt8} {r : List UInt8}

theorem strchr_newline (hl : newline ∉ l) (h0 : 0 ∉ l) (s : List UInt8) :
    strchr newline (l ++ newline :: s) = some l.length := by
  induction l with
  | nil => rfl
  | cons x l ih =>
    obtain ⟨hx, hl⟩ := not_or.1 (List.mem_cons.not.1 hl)
    obtain ⟨hx0, h0⟩ := not_or.1 (List.mem_cons.not.1 h0)
    rw [List.cons_append, strchr, if_neg (Ne.symm hx0), if_neg (Ne.symm hx), ih hl h0]
    rfl

theorem strchr_none (hs : newline ∉ s) : strchr newline s = none := by
  induction s with
  | nil => rfl
  | cons x s ih =>
    obtain ⟨hx, hs⟩ := not_or.1 (List.mem_cons.not.1 hs)
    rw [strchr, if_neg (Ne.symm hx), ih hs]
    simp

/-- Every text is whole lines and a beginning of one. -/
theorem exists_lines (s : List UInt8) : ∃ ls t, s = unlines ls ++ t ∧ newline ∉ t ∧ ∀ l ∈ ls, newline ∉ l := by
  induction s with
  | nil => exact ⟨[], [], rfl, List.not_mem_nil, fun l hl => absurd hl List.not_mem_nil⟩
  | cons x s ih =>
    obtain ⟨ls, t, rfl, ht, hls⟩ := ih
    by_cases hx : x = newline
    · refine ⟨[] :: ls, t, by simp [hx], ht, ?_⟩
      intro l hl
      rcases List.mem_cons.1 hl with rfl | hl
      · exact List.not_mem_nil
      · exact hls l hl
    cases ls with
    | nil => exact ⟨[], x :: t, rfl, by simp [ht, Ne.symm hx], hls⟩
    | cons l ls =>
      refine ⟨(x :: l) :: ls, t, by simp, ht, ?_⟩
      intro l' hl'
      rcases List.mem_cons.1 hl' with rfl | hl'
      · have := hls l List.mem_cons_self
        simp [this, Ne.symm hx]
      · exact hls l' (List.mem_cons_of_mem _ hl')

theorem scanLoop_lines (pattern : List UInt8) (ht : newline ∉ t) : ∀ (ls : List (List UInt8)) (fuel : Nat),
    (∀ l ∈ ls, newline ∉ l) → 0 ∉ unlines ls → (unlines ls).length ≤ fuel →
    scanLoop pattern fuel (unlines ls ++ t) = (matching pattern ls, t)
  | [], fuel, _, _, _ => by
    cases fuel with
    | zero => rfl
    | succ fuel =>
      rw [scanLoop, unlines_nil, List.nil_append, strchr_none ht]
      rfl
  | l :: ls, 0, _, _, hfuel => by
    rw [unlines_cons, List.length_append, List.length_cons] at hfuel
    omega
  | l :: ls, fuel + 1, hls, h0, hfuel => by
    rw [unlines_cons, List.length_append, List.length_cons] at hfuel
    rw [unlines_cons, List.mem_append, List.mem_cons, not_or, not_or] at h0
    rw [scanLoop, unlines_cons, List.append_assoc, List.cons_append, strchr_newline (hls l List.mem_cons_self) h0.1]
    have hdrop : (l ++ newline :: (unlines ls ++ t)).drop (l.length + 1) = unlines ls ++ t := by
      rw [← List.drop_drop, List.drop_left]
      rfl
    simp only [hdrop, List.take_left]
    rw [scanLoop_lines pattern ht ls fuel (fun l' hl' => hls l' (List.mem_cons_of_mem _ hl')) h0.2.2 (by omega)]
    by_cases hm : «match» pattern l
    · simp [matching, hm]
    · simp [matching, hm]

theorem scan_lines (pattern : List UInt8) (ht : newline ∉ t) (hls : ∀ l ∈ ls, newline ∉ l)
    (h0 : 0 ∉ unlines ls) : scan pattern (unlines ls ++ t) = (matching pattern ls, t) := by
  refine scanLoop_lines pattern ht ls _ hls h0 ?_
  rw [List.length_append]
  exact Nat.le_add_right _ _

/-- What is kept goes in front of what comes next. -/
theorem scan_append (pattern s s' : List UInt8) (h0 : 0 ∉ s ++ s') : (scan pattern (s ++ s')).1 =
    (scan pattern s).1 ++ (scan pattern ((scan pattern s).2 ++ s')).1 := by
  obtain ⟨ls, t, rfl, ht, hls⟩ := exists_lines s
  obtain ⟨ls', t', heq, ht', hls'⟩ := exists_lines (t ++ s')
  have h1 : 0 ∉ unlines ls := fun h => h0 (by simp [h])
  have h2 : 0 ∉ unlines ls' := by
    intro h
    have hmem : 0 ∈ t ++ s' := heq ▸ List.mem_append_left _ h
    exact h0 (by rw [List.append_assoc]; exact List.mem_append_right _ hmem)
  have h3 : 0 ∉ unlines (ls ++ ls') := by
    rw [unlines_append, List.mem_append, not_or]
    exact ⟨h1, h2⟩
  have hall : ∀ l ∈ ls ++ ls', newline ∉ l := by
    intro l hl
    rcases List.mem_append.1 hl with hl | hl
    · exact hls l hl
    · exact hls' l hl
  rw [scan_lines pattern ht hls h1, List.append_assoc, heq, scan_lines pattern ht' hls' h2, ← List.append_assoc,
    ← unlines_append, scan_lines pattern ht' hall h3]
  simp [matching, unlines_append]

section

variable (pattern : List UInt8)

theorem scan_suffix (h0 : 0 ∉ s) : newline ∉ (scan pattern s).2 ∧ (scan pattern s).2 <:+ s := by
  obtain ⟨ls, t, rfl, ht, hls⟩ := exists_lines s
  rw [scan_lines pattern ht hls fun h => h0 (List.mem_append_left _ h)]
  exact ⟨ht, List.suffix_append _ _⟩

theorem scan_none (hs : newline ∉ s) : scan pattern s = ([], s) := by
  cases s with
  | nil => rfl
  | cons x s =>
    rw [scan, List.length_cons, scanLoop, strchr_none hs]

theorem zero_notMem_rest {s' : List UInt8} (h0 : 0 ∉ s ++ s') : 0 ∉ (scan pattern s).2 ++ s' := by
  rw [List.mem_append, not_or] at h0 ⊢
  exact ⟨fun h => h0.1 ((scan_suffix pattern h0.1).2.subset h), h0.2⟩

/-! ## The results of `read` -/

/-- A newline leaves less than the whole text, and that is kept. -/
theorem turn_of_mem (h0 : 0 ∉ kept ++ r) (hr : newline ∈ r) : turn pattern kept r = scan pattern (kept ++ r) := by
  have hne : (scan pattern (kept ++ r)).2.length ≠ (kept ++ r).length := by
    obtain ⟨hrest, hsuffix⟩ := scan_suffix pattern h0
    intro hlen
    rw [hsuffix.eq_of_length hlen] at hrest
    exact hrest (List.mem_append_right _ hr)
  simp only [turn, if_neg hne]

/-- Without a newline all is forgotten. -/
theorem turn_of_notMem (hkept : newline ∉ kept) (hr : newline ∉ r) : turn pattern kept r = ([], []) := by
  have hno : newline ∉ kept ++ r := by
    rw [List.mem_append, not_or]
    exact ⟨hkept, hr⟩
  simp only [turn, scan_none pattern hno, if_true]

end

/-- As long as every result has a newline, the pieces do not matter. -/
theorem grepLoop_eq (pattern : List UInt8) : ∀ (rs : List (List UInt8)) (kept : List UInt8), newline ∉ kept →
    0 ∉ kept ++ rs.flatten → (∀ r ∈ rs, newline ∈ r) →
    grepLoop pattern kept rs = (scan pattern (kept ++ rs.flatten)).1
  | [], kept, hkept, _, _ => by
    rw [List.flatten_nil, List.append_nil, scan_none pattern hkept]
    rfl
  | r :: rs, kept, hkept, h0, hrs => by
    rw [List.flatten_cons, ← List.append_assoc] at h0 ⊢
    have h1 : 0 ∉ kept ++ r := fun h => h0 (List.mem_append_left _ h)
    rw [scan_append pattern _ _ h0, grepLoop, turn_of_mem pattern h1 (hrs r List.mem_cons_self)]
    dsimp only
    rw [grepLoop_eq pattern rs _ (scan_suffix pattern h1).1 (zero_notMem_rest pattern h0)
      fun r' hr' => hrs r' (List.mem_cons_of_mem _ hr')]

theorem match_nil (text : List UInt8) : «match» [] text = true := by
  cases text <;> simp [«match», matchAny, matchhere]

/-- The empty pattern matches every line, so that all that is not kept is written. -/
theorem length_scan_nil (h0 : 0 ∉ s) : (scan [] s).1.length + (scan [] s).2.length = s.length := by
  obtain ⟨ls, t, rfl, ht, hls⟩ := exists_lines s
  rw [scan_lines [] ht hls fun h => h0 (List.mem_append_left _ h), matching,
    List.filter_eq_self.2 fun l _ => match_nil l, List.length_append]

/-- No more is written than is read, and less if a result is forgotten. -/
theorem length_grepLoop_nil : ∀ (rs : List (List UInt8)) (kept : List UInt8), newline ∉ kept → 0 ∉ kept ++ rs.flatten →
    (∀ r ∈ rs, r ≠ []) → (grepLoop [] kept rs).length ≤ (kept ++ rs.flatten).length ∧
      ((∃ r ∈ rs, newline ∉ r) → (grepLoop [] kept rs).length < (kept ++ rs.flatten).length)
  | [], kept, _, _, _ => ⟨Nat.zero_le _, fun ⟨r, hr, _⟩ => absurd hr List.not_mem_nil⟩
  | r :: rs, kept, hkept, h0, hne => by
    rw [List.flatten_cons, ← List.append_assoc] at h0 ⊢
    have h1 : 0 ∉ kept ++ r := fun h => h0 (List.mem_append_left _ h)
    have h2 : 0 ∉ rs.flatten := fun h => h0 (List.mem_append_right _ h)
    have hne' : ∀ r' ∈ rs, r' ≠ [] := fun r' hr' => hne r' (List.mem_cons_of_mem _ hr')
    rw [grepLoop]
    by_cases hr : newline ∈ r
    · have hsum := length_scan_nil h1
      obtain ⟨hle, hlt⟩ := length_grepLoop_nil rs _ (scan_suffix [] h1).1 (zero_notMem_rest [] h0) hne'
      rw [turn_of_mem [] h1 hr]
      simp only [List.length_append] at hle hlt hsum ⊢
      refine ⟨by omega, ?_⟩
      rintro ⟨r', hr', hno⟩
      rcases List.mem_cons.1 hr' with rfl | hr'
      · exact absurd hr hno
      · have := hlt ⟨r', hr', hno⟩
        omega
    · obtain ⟨hle, -⟩ := length_grepLoop_nil rs [] List.not_mem_nil h2 hne'
      have hpos : 0 < r.length := List.length_pos_of_ne_nil (hne r List.mem_cons_self)
      rw [turn_of_notMem [] hkept hr]
      simp only [List.length_append, List.nil_append] at hle ⊢
      exact ⟨by omega, fun _ => by omega⟩

theorem Reads.ne_nil : ∀ {rs : List (List UInt8)} {kept : List UInt8}, Reads kept rs → ∀ r ∈ rs, r ≠ []
  | r :: rs, kept, ⟨hne, _, h⟩, r', hr' => by
    rcases List.mem_cons.1 hr' with rfl | hr'
    · exact hne
    · exact h.ne_nil r' hr'

/-- **`grep` and the pieces of its input.** Of lines that are given to it in any pieces, `grep` writes those that match,
whatever the pattern is, if and only if every piece has a newline in it. -/
theorem grep_pieces (ls rs : List (List UInt8)) (hls : ∀ l ∈ ls, newline ∉ l ∧ 0 ∉ l ∧ l.length < BUFSIZE - 1)
    (hrs : Reads [] rs) (heq : rs.flatten = unlines ls) :
    (∀ pattern, grep pattern rs = matching pattern ls) ↔ ∀ r ∈ rs, newline ∈ r := by
  have h0 : 0 ∉ rs.flatten := by
    rw [heq, unlines, List.mem_flatMap]
    rintro ⟨l, hl, h⟩
    rcases List.mem_append.1 h with h | h
    · exact (hls l hl).2.1 h
    · exact absurd (List.mem_singleton.1 h) (by decide)
  constructor
  · intro h r hr
    by_contra hno
    have hlt := (length_grepLoop_nil rs [] List.not_mem_nil h0 hrs.ne_nil).2 ⟨r, hr, hno⟩
    have hall : grep [] rs = unlines ls := by
      rw [h [], matching, List.filter_eq_self.2 fun l _ => match_nil l]
    rw [List.nil_append, heq, ← hall] at hlt
    exact absurd hlt (Nat.lt_irrefl _)
  · intro h pattern
    rw [grep, grepLoop_eq pattern rs [] List.not_mem_nil h0 h, List.nil_append, heq, ← List.append_nil (unlines ls),
      scan_lines pattern List.not_mem_nil (fun l hl => (hls l hl).1) (heq ▸ h0)]

/-- The lines `ab` and `bc`, cut in the middle of the second one. -/
theorem grep_pieces_two : grep [99] [[97, 98, 10, 98], [99, 10]] = [98, 99, 10] :=
  (grep_pieces [[97, 98], [98, 99]] [[97, 98, 10, 98], [99, 10]] (by decide) (by decide) rfl).2 (by decide) [99]

/-- The line `ab` comes in two pieces, and `grep ab` does not write it. -/
theorem grep_forgets : Reads [] [[97], [98, 10]] ∧ [[97], [98, 10]].flatten = unlines [[97, 98]] ∧
    matching [97, 98] [[97, 98]] = [97, 98, 10] ∧ grep [97, 98] [[97], [98, 10]] = [] := by
  decide

end Xv6.Grep
