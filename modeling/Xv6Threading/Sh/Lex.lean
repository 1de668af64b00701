import Xv6Threading.Sh.Grammar

/-!
# From bytes to tokens (`sh.c:265-320`)

`lex` says what the tokens of a line are. `gettoken` and `peek` read them from left to right, so the parser does with the
bytes what it does with the list of tokens.
-/

namespace Xv6.Sh

/-! ## Replacing words -/

section Hom

variable {σ σ' W W' : Type} {S : Source σ W} {S' : Source σ' W'} {φ : σ → σ'} {f g : W → W'}

def Token.map (f : W → W') : Token W → Token W'
  | .lt => .lt
  | .gt => .gt
  | .ggt => .ggt
  | .bar => .bar
  | .amp => .amp
  | .semi => .semi
  | .lpar => .lpar
  | .rpar => .rpar
  | .word w => .word (f w)

def Redir.map (f : W → W') (r : Redir W) : Redir W' := ⟨f r.file, r.mode, r.fd⟩

def Cmd.map (f : W → W') : Cmd W → Cmd W'
  | .exec argv => .exec (argv.map f)
  | .redir cmd r => .redir (cmd.map f) (r.map f)
  | .pipe left right => .pipe (left.map f) (right.map f)
  | .list left right => .list (left.map f) (right.map f)
  | .back cmd => .back (cmd.map f)

theorem Cmd.map_wrap (f : W → W') (rs : List (Redir W)) (c : Cmd W) : (c.wrap rs).map f = (c.map f).wrap (rs.map (Redir.map f)) := by
  induction rs generalizing c with
  | nil => rfl
  | cons r rs ih => exact ih (.redir c r)

theorem map_redircmd (f : W → W') (tok : Option (Token W)) (w : W) :
    (redircmd tok w).map (Redir.map f) = redircmd (tok.map (Token.map f)) (f w) := by
  obtain _ | t := tok
  · rfl
  · cases t <;> rfl

/-- Two sources deliver the same tokens, with other words. The bytes looked for are symbols. -/
structure Hom (S : Source σ W) (S' : Source σ' W') (φ : σ → σ') (f : W → W') : Prop where
  peek : ∀ s toks, toks ⊆ symbols → S'.peek (φ s) toks = ((S.peek s toks).1, φ (S.peek s toks).2)
  gettoken : ∀ s, S'.gettoken (φ s) = ((S.gettoken s).1.map (Token.map f), φ (S.gettoken s).2)

theorem map_bind_eq {α β α' β' : Type} {x : Except Fail α} {x' : Except Fail α'} {k : α → Except Fail β}
    {k' : α' → Except Fail β'} {g : α → α'} {h : β → β'} (hx : x.map g = x') (hk : ∀ a, (k a).map h = k' (g a)) :
    (x >>= k).map h = x' >>= k' := by
  subst hx
  cases x with
  | error e => rfl
  | ok a => exact hk a

theorem parseredirs_hom (h : Hom S S' φ f) : ∀ (fuel : Nat) (s : σ),
    (parseredirs S fuel s).map (Prod.map (List.map (Redir.map f)) φ) = parseredirs S' fuel (φ s)
  | 0, s => rfl
  | fuel + 1, s => by
    rw [parseredirs, parseredirs, h.peek s _ (by decide)]
    rcases hp : S.peek s [60, 62] with ⟨b, s1⟩
    cases b with
    | false => rfl
    | true =>
      rcases htok : S.gettoken s1 with ⟨tok, s2⟩
      rcases hfile : S.gettoken s2 with ⟨_ | t, s3⟩
      · simp only [h.gettoken, htok, hfile]
        rfl
      cases t with
      | word w =>
        simp only [h.gettoken, htok, hfile]
        refine map_bind_eq (parseredirs_hom h fuel s3) fun r => ?_
        show Except.ok (List.map _ (redircmd tok w ++ r.1), _) = _
        rw [List.map_append, map_redircmd]
        rfl
      | _ =>
        simp only [h.gettoken, htok, hfile]
        rfl

theorem parseargs_hom (h : Hom S S' φ f) : ∀ (fuel argc : Nat) (s : σ),
    (parseargs S fuel argc s).map (Prod.map (List.map f) (Prod.map (List.map (Redir.map f)) φ)) =
      parseargs S' fuel argc (φ s)
  | 0, _, s => rfl
  | fuel + 1, argc, s => by
    rw [parseargs, parseargs, h.peek s _ (by decide)]
    rcases hp : S.peek s [124, 41, 38, 59] with ⟨b, s1⟩
    cases b with
    | true => rfl
    | false =>
      rcases htok : S.gettoken s1 with ⟨_ | t, s2⟩
      · simp only [h.gettoken, htok]
        rfl
      cases t with
      | word w =>
        simp only [h.gettoken, htok, Option.map_some, Token.map]
        split
        · rfl
        refine map_bind_eq (parseredirs_hom h fuel s2) fun r => ?_
        refine map_bind_eq (parseargs_hom h fuel (argc + 1) r.2) fun r' => ?_
        show Except.ok (List.map f (w :: r'.1), List.map _ (r.1 ++ r'.2.1), _) = _
        rw [List.map_append]
        rfl
      | _ =>
        simp only [h.gettoken, htok]
        rfl

theorem parsebacks_hom (h : Hom S S' φ f) : ∀ (fuel : Nat) (c : Cmd W) (s : σ),
    (parsebacks S fuel c s).map (Prod.map (Cmd.map f) φ) = parsebacks S' fuel (c.map f) (φ s)
  | 0, _, s => rfl
  | fuel + 1, c, s => by
    rw [parsebacks, parsebacks, h.peek s _ (by decide)]
    rcases hp : S.peek s [38] with ⟨b, s1⟩
    cases b with
    | false => rfl
    | true =>
      simp only [h.gettoken]
      exact parsebacks_hom h fuel (.back c) _

/-- The parser of the bytes is the parser of their tokens. -/
theorem parse_hom (h : Hom S S' φ f) : ∀ (fuel : Nat) (s : σ),
    (parseline S fuel s).map (Prod.map (Cmd.map f) φ) = parseline S' fuel (φ s) ∧
    (parsepipe S fuel s).map (Prod.map (Cmd.map f) φ) = parsepipe S' fuel (φ s) ∧
    (parseblock S fuel s).map (Prod.map (Cmd.map f) φ) = parseblock S' fuel (φ s) ∧
    (parseexec S fuel s).map (Prod.map (Cmd.map f) φ) = parseexec S' fuel (φ s)
  | 0, s => ⟨rfl, rfl, rfl, rfl⟩
  | fuel + 1, s => by
    refine ⟨?_, ?_, ?_, ?_⟩
    · rw [parseline, parseline]
      refine map_bind_eq (parse_hom h fuel s).2.1 fun r => ?_
      refine map_bind_eq (parsebacks_hom h fuel r.1 r.2) fun r' => ?_
      simp only [Prod.map_snd, Prod.map_fst]
      rw [h.peek r'.2 _ (by decide)]
      rcases hp : S.peek r'.2 [59] with ⟨b, s1⟩
      cases b with
      | false => rfl
      | true =>
        simp only [h.gettoken]
        exact map_bind_eq (parse_hom h fuel _).1 fun _ => rfl
    · rw [parsepipe, parsepipe]
      refine map_bind_eq (parse_hom h fuel s).2.2.2 fun r => ?_
      simp only [Prod.map_snd, Prod.map_fst]
      rw [h.peek r.2 _ (by decide)]
      rcases hp : S.peek r.2 [124] with ⟨b, s1⟩
      cases b with
      | false => rfl
      | true =>
        simp only [h.gettoken]
        exact map_bind_eq (parse_hom h fuel _).2.1 fun _ => rfl
    · rw [parseblock, parseblock, h.peek s _ (by decide)]
      rcases hp : S.peek s [40] with ⟨b, s1⟩
      cases b with
      | false => rfl
      | true =>
        simp only [h.gettoken]
        refine map_bind_eq (parse_hom h fuel _).1 fun r => ?_
        simp only [Prod.map_snd, Prod.map_fst]
        rw [h.peek r.2 _ (by decide)]
        rcases hp' : S.peek r.2 [41] with ⟨b, s2⟩
        cases b with
        | false => rfl
        | true =>
          simp only [h.gettoken]
          refine map_bind_eq (parseredirs_hom h fuel _) fun r' => ?_
          show Except.ok ((r.1.wrap r'.1).map f, _) = _
          rw [Cmd.map_wrap]
          rfl
    rw [parseexec, parseexec, h.peek s _ (by decide)]
    rcases hp : S.peek s [40] with ⟨b, s1⟩
    cases b with
    | true => exact (parse_hom h fuel s1).2.2.1
    | false =>
      refine map_bind_eq (parseredirs_hom h fuel _) fun r => ?_
      refine map_bind_eq (parseargs_hom h fuel 0 _) fun r' => ?_
      show Except.ok ((Cmd.wrap (.exec r'.1) (r.1 ++ r'.2.1)).map f, _) = _
      rw [Cmd.map_wrap, List.map_append]
      rfl

end Hom

/-! ## The tokens of a line -/

/-- White space ends a token, symbols stand for themselves and a word is as long as it can be. -/
def lex : List UInt8 → List (Token (List UInt8))
  | [] => []
  | c :: cs =>
    if white c then lex cs
    else if c = 62 then
      if cs.head? = some 62 then .ggt :: lex cs.tail else .gt :: lex cs
    else
      match single c with
      | some tok => tok :: lex cs
      | none => .word (c :: cs.takeWhile wordChar) :: lex (cs.dropWhile wordChar)
termination_by l => l.length
decreasing_by
  all_goals simp only [List.length_cons, List.length_tail]
  all_goals first | omega | exact Nat.lt_succ_of_le (List.length_dropWhile_le _ _)

theorem lex_length : ∀ (l : List UInt8), (lex l).length ≤ l.length := by
  intro l
  fun_induction lex l with
  | case1 => exact Nat.le_refl _
  | case2 c cs _ ih => exact ih.trans (Nat.le_succ _)
  | case3 cs _ _ ih =>
    simp only [List.length_cons, List.length_tail] at ih ⊢
    omega
  | case4 cs _ _ ih =>
    simp only [List.length_cons] at ih ⊢
    omega
  | case5 c cs _ _ tok _ ih =>
    simp only [List.length_cons] at ih ⊢
    omega
  | case6 c cs _ _ _ ih =>
    have := List.length_dropWhile_le wordChar cs
    simp only [List.length_cons] at ih ⊢
    omega

theorem lex_dropWhile (l : List UInt8) : lex (l.dropWhile white) = lex l := by
  induction l with
  | nil => rfl
  | cons c cs ih =>
    by_cases hc : white c = true
    · rw [List.dropWhile_cons_of_pos hc, ih, lex, if_pos hc]
    · rw [List.dropWhile_cons_of_neg hc]

variable {c : UInt8}

theorem lex_ne_nil {cs : List UInt8} (hc : white c ≠ true) : lex (c :: cs) ≠ [] := by
  rw [lex, if_neg hc]
  repeat' split
  all_goals exact List.cons_ne_nil _ _

section Line

variable {line : List UInt8} {s : Pos line} {W : Type}

theorem lex_skip (s : Pos line) : lex (line.drop (skip line s)) = lex (line.drop s) := by
  rw [skip]
  show lex (line.drop (run line white s)) = _
  rw [drop_run, lex_dropWhile]

/-- What is not white and no symbol is part of a word. -/
theorem wordChar_of_single (hwhite : white c ≠ true) (hgt : c ≠ 62)
    (hsingle : single (W := W) c = none) : wordChar c = true := by
  rw [wordChar, decide_eq_true_eq]
  refine ⟨fun hmem => hwhite (decide_eq_true hmem), fun hmem => ?_⟩
  simp only [symbols, List.mem_cons, List.not_mem_nil, or_false] at hmem
  obtain rfl | rfl | rfl | rfl | rfl | rfl | rfl := hmem
  all_goals first | exact hgt rfl | cases hsingle

theorem drop_eq_cons {i : Nat} (hi : i < line.length) : line.drop i = charAt line i :: line.drop (i + 1) := by
  rw [charAt_eq_getElem hi, List.drop_eq_getElem_cons hi]

theorem head_drop (l : List UInt8) (i : Nat) : (l.drop i).head? = some 62 ↔ charAt l i = 62 := by
  rw [List.head?_drop, charAt, List.getD_eq_getElem?_getD]
  cases l[i]? with
  | none => simp
  | some c => simp

theorem map_single {W W' : Type} (f : W → W') (c : UInt8) : (single c).map (Token.map f) = single c := by
  simp only [single]
  repeat' split
  all_goals rfl

theorem text_wordAt (s : Pos line) : Word.text line (wordAt line s) = (line.drop s).takeWhile wordChar := by
  rw [List.prefix_iff_eq_take.1 (List.takeWhile_prefix wordChar (l := line.drop s))]
  show (line.drop s).take (run line wordChar s - s) = _
  rw [run, Nat.add_sub_cancel_left]

/-- At a position that is not at white space, the first token is read. -/
theorem gettoken_lex (hnul : 0 ∉ line) (hs : s.val < line.length → white (charAt line s) ≠ true) :
    tokens.gettoken (lex (line.drop s)) =
      ((tokenAt line s).1.map (Token.map (Word.text line)), lex (line.drop (tokenAt line s).2)) := by
  by_cases hlt : s.val < line.length
  case neg =>
    have h0 : charAt line s = 0 := by
      by_contra hne
      exact hlt (lt_of_charAt line hne)
    rw [tokenAt, dif_pos h0, List.drop_eq_nil_of_le (Nat.le_of_not_lt hlt), lex]
    rfl
  case pos =>
    have h0 : charAt line s ≠ 0 := by
      intro h0
      exact hnul (h0 ▸ charAt_mem hlt)
    rw [tokenAt, dif_neg h0, drop_eq_cons hlt, lex, if_neg (hs hlt)]
    by_cases hgt : charAt line s = 62
    · rw [if_pos hgt, if_pos hgt]
      by_cases hgg : charAt line (s + 1) = 62
      · rw [dif_pos hgg, if_pos ((head_drop line _).2 hgg), List.tail_drop]
        rfl
      · rw [dif_neg hgg, if_neg (fun h => hgg ((head_drop line _).1 h))]
        rfl
    rw [if_neg hgt, if_neg hgt]
    have hmap := map_single (Word.text line) (charAt line s)
    cases hsingle : (single (charAt line s) : Option (Token (Word line))) with
    | some tok =>
      rw [hsingle, Option.map_some] at hmap
      simp only [← hmap]
      rfl
    | none =>
      rw [hsingle, Option.map_none] at hmap
      have hword : wordChar (charAt line s) = true := wordChar_of_single (hs hlt) hgt hsingle
      have htext : Word.text line (wordAt line s) = charAt line s :: (line.drop (s + 1)).takeWhile wordChar := by
        rw [text_wordAt, drop_eq_cons hlt, List.takeWhile_cons_of_pos hword]
      have hdrop : line.drop (wordAt line s).eq = (line.drop (s + 1)).dropWhile wordChar := by
        show line.drop (run line wordChar s) = _
        rw [drop_run, drop_eq_cons hlt, List.dropWhile_cons_of_pos hword]
      simp only [← hmap, Option.map_some, Token.map, htext, hdrop]
      rfl

theorem skip_white (s : Pos line) (h : (skip line s).val < line.length) : white (charAt line (skip line s)) ≠ true := by
  have hend : white (charAt line (skip line s)) = false := run_end line h
  simp [hend]

theorem first_single {tok : Token W} (h : single c = some tok) : tok.first = some c := by
  simp only [single] at h
  repeat' split at h
  all_goals cases h
  all_goals
    rename_i hc
    rw [hc]
    rfl

theorem first_map {W W' : Type} (f : W → W') (t : Token W) : (t.map f).first = t.first := by
  cases t <;> rfl

/-- The byte at a position that is not at white space says which symbol stands there. -/
theorem first_tokenAt (hs : s.val < line.length → white (charAt line s) ≠ true) {toks : List UInt8}
    (htoks : toks ⊆ symbols) :
    ((tokenAt line s).1.any (·.isIn toks)) = decide (charAt line s ≠ 0 ∧ charAt line s ∈ toks) := by
  rw [tokenAt]
  split
  case isTrue h0 => simp [h0]
  case isFalse h0 =>
    split
    case isTrue hgt =>
      split <;> simp [Token.isIn, Token.first, hgt]
    case isFalse hgt =>
      split
      case h_1 tok hsingle =>
        simp [Token.isIn, first_single hsingle, h0]
      case h_2 hsingle =>
        have hword := wordChar_of_single (hs (lt_of_charAt line h0)) hgt hsingle
        rw [wordChar, decide_eq_true_eq] at hword
        have hnot : charAt line s ∉ toks := fun hmem => hword.2 (htoks hmem)
        simp [Token.isIn, Token.first, hnot]

theorem startsIn_eq (ts : List (Token W)) (toks : List UInt8) :
    startsIn ts toks = (tokens.gettoken ts).1.any (·.isIn toks) := by
  cases ts <;> rfl

/-- A line delivers its tokens. -/
theorem hom_source (hnul : 0 ∉ line) : Hom (source line) tokens (fun s => lex (line.drop s)) (Word.text line) := by
  refine ⟨?_, ?_⟩
  · intro s toks htoks
    show (startsIn (lex (line.drop s)) toks, lex (line.drop s)) =
      (decide (charAt line (skip line s) ≠ 0 ∧ charAt line (skip line s) ∈ toks), lex (line.drop (skip line s)))
    rw [lex_skip, ← first_tokenAt (skip_white s) htoks, startsIn_eq, ← lex_skip, gettoken_lex hnul (skip_white s)]
    congr 1
    cases (tokenAt line (skip line s)).1 with
    | none => rfl
    | some t =>
      show (t.map _).isIn toks = t.isIn toks
      rw [Token.isIn, first_map, Token.isIn]
  · intro s
    show tokens.gettoken (lex (line.drop s)) = ((tokenAt line (skip line s)).1.map _,
      lex (line.drop (skip line (tokenAt line (skip line s)).2)))
    rw [lex_skip, ← lex_skip s, gettoken_lex hnul (skip_white s)]

/-- Nothing but white space is left. -/
theorem skip_eq_length (s : Pos line) : (skip line s).val = line.length ↔ lex (line.drop s) = [] := by
  rw [← lex_skip]
  constructor
  · intro h
    rw [h, List.drop_length, lex]
  intro h
  by_contra hne
  have hlt : (skip line s).val < line.length := Nat.lt_of_le_of_ne (Nat.le_of_lt_succ (skip line s).isLt) hne
  rw [drop_eq_cons hlt] at h
  exact lex_ne_nil (skip_white s hlt) h

end Line

end Xv6.Sh
