import Xv6Threading.Sh.Lex

/-!
# The shell reads what the grammar says (`sh.c:327-493`)

`nulterminate` writes its NULs behind words only, where no other word has a byte. So the strings the commands point to
are the texts of the tokens, and the tree is the one that the grammar has for the line.

| here | there |
| --- | --- |
| `cstr buf q` | the string that begins at `q` |
| `Cmd.strings` | `argv` and `file`, read when `parsecmd` has returned |
-/

namespace Xv6.Sh

variable {line : List UInt8}

/-- The bytes up to the next NUL. -/
def cstr (buf : List UInt8) (q : Nat) : List UInt8 := (buf.drop q).takeWhile (· ≠ 0)

def Cmd.strings (buf : List UInt8) (c : Cmd (Word line)) : Cmd (List UInt8) := c.map fun w => cstr buf w.q

/-! ## The words of a command -/

def Cmd.words {W : Type} : Cmd W → List W
  | .exec argv => argv
  | .redir cmd r => cmd.words ++ [r.file]
  | .pipe left right => left.words ++ right.words
  | .list left right => left.words ++ right.words
  | .back cmd => cmd.words

theorem nulterminate_eq (c : Cmd (Word line)) (buf : List UInt8) :
    nulterminate line c buf = c.words.foldl (fun buf w => buf.set w.eq 0) buf := by
  induction c generalizing buf with
  | exec argv => rfl
  | redir cmd r ih => simp only [nulterminate, Cmd.words, List.foldl_append, List.foldl_cons, List.foldl_nil, ih]
  | pipe left right ihl ihr => simp only [nulterminate, Cmd.words, List.foldl_append, ihl, ihr]
  | list left right ihl ihr => simp only [nulterminate, Cmd.words, List.foldl_append, ihl, ihr]
  | back cmd ih => exact ih buf

theorem Cmd.map_congr {W W' : Type} {f g : W → W'} {c : Cmd W} (h : ∀ w ∈ c.words, f w = g w) : c.map f = c.map g := by
  induction c with
  | exec argv => exact congrArg Cmd.exec (List.map_congr_left h)
  | redir cmd r ih =>
    simp only [Cmd.words, List.mem_append, List.mem_singleton] at h
    simp only [Cmd.map, Redir.map, ih fun w hw => h w (.inl hw), h r.file (.inr rfl)]
  | pipe left right ihl ihr =>
    simp only [Cmd.words, List.mem_append] at h
    simp only [Cmd.map, ihl fun w hw => h w (.inl hw), ihr fun w hw => h w (.inr hw)]
  | list left right ihl ihr =>
    simp only [Cmd.words, List.mem_append] at h
    simp only [Cmd.map, ihl fun w hw => h w (.inl hw), ihr fun w hw => h w (.inr hw)]
  | back cmd ih => exact congrArg Cmd.back (ih h)

/-! ## The strings -/

theorem charAt_set_zero (buf : List UInt8) (i j : Nat) :
    charAt (buf.set i 0) j = if i = j then 0 else charAt buf j := by
  rw [charAt, charAt, List.getD_eq_getElem?_getD, List.getD_eq_getElem?_getD, List.getElem?_set]
  split
  · split <;> rfl
  · rfl

/-- NULs behind the words, and nothing else. -/
theorem charAt_foldl_set (ws : List (Word line)) (buf : List UInt8) (j : Nat) :
    charAt (ws.foldl (fun buf w => buf.set w.eq 0) buf) j =
      if ∃ w ∈ ws, w.eq = j then 0 else charAt buf j := by
  induction ws generalizing buf with
  | nil => simp
  | cons w ws ih =>
    rw [List.foldl_cons, ih, charAt_set_zero]
    by_cases hmem : ∃ w ∈ ws, w.eq = j
    · rw [if_pos hmem, if_pos]
      obtain ⟨v, hv, hj⟩ := hmem
      exact ⟨v, List.mem_cons_of_mem w hv, hj⟩
    rw [if_neg hmem]
    by_cases hj : w.eq = j
    · rw [if_pos hj, if_pos ⟨w, List.mem_cons_self, hj⟩]
    rw [if_neg hj, if_neg]
    rintro ⟨v, hv, hvj⟩
    obtain rfl | hv := List.mem_cons.1 hv
    · exact hj hvj
    · exact hmem ⟨v, hv, hvj⟩

theorem length_foldl_set (ws : List (Word line)) (buf : List UInt8) :
    (ws.foldl (fun buf w => buf.set w.eq 0) buf).length = buf.length := by
  induction ws generalizing buf with
  | nil => rfl
  | cons w ws ih => rw [List.foldl_cons, ih, List.length_set]

/-- Where a word has its bytes no word ends. -/
theorem Word.eq_ne (w v : Word line) {i : Nat} (hq : w.q ≤ i) (hi : i < w.eq) : v.eq ≠ i := by
  rintro rfl
  have hends := v.ends (Nat.lt_of_lt_of_le hi w.bound)
  rw [w.chars _ hq hi] at hends
  cases hends

/-- A string that is the word and then a NUL. -/
theorem cstr_eq (w : Word line) {buf : List UInt8} (hnul : 0 ∉ line) (hlen : w.eq < buf.length)
    (hin : ∀ i, w.q ≤ i → i < w.eq → charAt buf i = charAt line i) (hend : charAt buf w.eq = 0) :
    cstr buf w.q = Word.text line w := by
  have hle := w.le
  have hbound := w.bound
  have hidx : w.eq - w.q < (buf.drop w.q).length := by
    rw [List.length_drop]
    omega
  have hget : ∀ i (h : i < (buf.drop w.q).length), (buf.drop w.q)[i] = charAt buf (w.q + i) := by
    intro i h
    rw [List.length_drop] at h
    rw [List.getElem_drop, charAt_eq_getElem (by omega)]
  have hfind : (buf.drop w.q).findIdx (fun c => !decide (c ≠ 0)) = w.eq - w.q := by
    rw [List.findIdx_eq hidx]
    refine ⟨?_, fun j hj => ?_⟩
    · rw [hget, Nat.add_sub_cancel' hle, hend]
      rfl
    rw [hget, hin _ (Nat.le_add_right _ _) (by omega)]
    have hmem : charAt line (w.q + j) ∈ line := charAt_mem (by omega)
    have hne : charAt line (w.q + j) ≠ 0 := fun h0 => hnul (h0 ▸ hmem)
    simp [hne]
  rw [cstr, List.takeWhile_eq_take_findIdx_not, hfind, Word.text]
  refine List.ext_getElem (by simp; omega) fun i hi hi' => ?_
  rw [List.length_take, List.length_drop] at hi
  rw [List.getElem_take, List.getElem_take, hget, hin _ (Nat.le_add_right _ _) (by omega), List.getElem_drop,
    charAt_eq_getElem (by omega)]

/-- Every string is its token's text. -/
theorem cstr_nulterminate (hnul : 0 ∉ line) {c : Cmd (Word line)} {w : Word line} (hw : w ∈ c.words) :
    cstr (nulterminate line c (line ++ [0])) w.q = Word.text line w := by
  have hbound := w.bound
  rw [nulterminate_eq]
  refine cstr_eq w hnul ?_ ?_ ?_
  · rw [length_foldl_set, List.length_append, List.length_singleton]
    omega
  · intro i hq hi
    rw [charAt_foldl_set, if_neg]
    · rw [charAt, charAt, List.getD_append _ _ _ _ (by omega)]
    · rintro ⟨v, -, hv⟩
      exact w.eq_ne v hq hi hv
  · rw [charAt_foldl_set, if_pos ⟨w, hw, rfl⟩]

theorem strings_nulterminate (hnul : 0 ∉ line) (c : Cmd (Word line)) :
    c.strings (nulterminate line c (line ++ [0])) = c.map (Word.text line) :=
  Cmd.map_congr fun _ hw => cstr_nulterminate hnul hw

/-! ## The line -/

/-- **The shell parses what the grammar describes**: for a line without a NUL `parsecmd` returns, with a command if and
only if the tokens of the line are a line of the grammar. The command is then the tree of that line, and the strings
that it points to are the texts of the tokens. -/
theorem parsecmd_correct (line : List UInt8) (hnul : 0 ∉ line) : match parsecmd line with
    | .ok (cmd, buf) => ∀ t, Derives .line (lex line) t ↔ t = cmd.strings buf
    | .error e => e ≠ .fuel ∧ ∀ t, ¬ Derives .line (lex line) t := by
  have hhom := (parse_hom (hom_source hnul) (4 * line.length + 6) 0).1
  have hfuel : 4 * (lex line).length + 6 ≤ 4 * line.length + 6 := by
    have := lex_length line
    omega
  have hcorrect := parseline_correct (lex line) hfuel
  have hlex : lex (line.drop (0 : Pos line)) = lex line := rfl
  rw [hlex] at hhom
  rw [← hhom] at hcorrect
  rw [parsecmd]
  cases hparse : parseline (source line) (4 * line.length + 6) 0 with
  | error e =>
    rw [hparse] at hcorrect
    exact hcorrect
  | ok r =>
    obtain ⟨cmd, s⟩ := r
    rw [hparse] at hcorrect
    have hcorrect : ∀ d, Derives .line (lex line) d ↔ lex (line.drop s) = [] ∧ d = cmd.map (Word.text line) := hcorrect
    show match (if (skip line s).val ≠ line.length then _ else _ : Except Fail (Cmd (Word line) × List UInt8)) with
      | .ok (cmd, buf) => ∀ t, Derives .line (lex line) t ↔ t = cmd.strings buf
      | .error e => e ≠ .fuel ∧ ∀ t, ¬ Derives .line (lex line) t
    by_cases hend : (skip line s).val = line.length
    · rw [if_neg (not_not.2 hend)]
      intro t
      rw [strings_nulterminate hnul, hcorrect]
      exact and_iff_right ((skip_eq_length s).1 hend)
    · rw [if_pos hend]
      refine ⟨nofun, fun t ht => ?_⟩
      exact hend ((skip_eq_length s).2 ((hcorrect t).1 ht).1)

/-- `(a|b)>c` has one tree. -/
theorem parsecmd_correct_pipe : (0 : UInt8) ∉ [40, 97, 124, 98, 41, 62, 99] ∧
    ∀ t, Derives .line (lex [40, 97, 124, 98, 41, 62, 99]) t ↔
      t = .redir (.pipe (.exec [[97]]) (.exec [[98]])) ⟨[99], O_WRONLY ||| O_CREATE, 1⟩ := by
  have hnul : (0 : UInt8) ∉ [40, 97, 124, 98, 41, 62, 99] := by decide
  refine ⟨hnul, ?_⟩
  have hcorrect := parsecmd_correct [40, 97, 124, 98, 41, 62, 99] hnul
  have heval : (parsecmd [40, 97, 124, 98, 41, 62, 99]).map (fun r => r.1.strings r.2) =
      .ok (.redir (.pipe (.exec [[97]]) (.exec [[98]])) ⟨[99], O_WRONLY ||| O_CREATE, 1⟩) := by
    decide
  cases hparse : parsecmd [40, 97, 124, 98, 41, 62, 99] with
  | error e =>
    rw [hparse] at heval
    cases heval
  | ok r =>
    rw [hparse] at heval hcorrect
    rw [Except.map, Except.ok.injEq] at heval
    rw [← heval]
    exact hcorrect

end Xv6.Sh
