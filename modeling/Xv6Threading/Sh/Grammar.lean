import Xv6Threading.Sh.Parser

/-!
# The grammar of the shell

```
line  := pipe '&'* [';' line]
pipe  := exec ['|' pipe]
exec  := '(' line ')' redir* | redir* (word redir*)*      with at most MAXARGS - 1 words
redir := ('<' | '>' | '>>') word
```

`Derives nt ts c`: the tokens `ts` are one of these, and `c` is its tree. The parser is correct on tokens: run on a list of
them it finds the tree if there is one, and it is never short of fuel.
-/

namespace Xv6.Sh

section

variable {W : Type}

inductive Redirs : List (Token W) → List (Redir W) → Prop
  | nil : Redirs [] []
  | lt {ts rs} (w : W) : Redirs ts rs → Redirs (.lt :: .word w :: ts) (⟨w, O_RDONLY, 0⟩ :: rs)
  | gt {ts rs} (w : W) : Redirs ts rs → Redirs (.gt :: .word w :: ts) (⟨w, O_WRONLY ||| O_CREATE, 1⟩ :: rs)
  | ggt {ts rs} (w : W) : Redirs ts rs → Redirs (.ggt :: .word w :: ts) (⟨w, O_WRONLY ||| O_CREATE, 1⟩ :: rs)

/-- Words, with redirections behind each. -/
inductive Words : List (Token W) → List W → List (Redir W) → Prop
  | nil : Words [] [] []
  | cons {us rs ts ws rs'} (w : W) : Redirs us rs → Words ts ws rs' →
      Words (.word w :: (us ++ ts)) (w :: ws) (rs ++ rs')

inductive Nonterminal where
  | line
  | pipe
  | exec

inductive Derives : Nonterminal → List (Token W) → Cmd W → Prop
  | line {ts c} (n : Nat) : Derives .pipe ts c → Derives .line (ts ++ .replicate n .amp) (Cmd.back^[n] c)
  | list {ts c us d} (n : Nat) : Derives .pipe ts c → Derives .line us d →
      Derives .line (ts ++ (.replicate n .amp ++ .semi :: us)) (.list (Cmd.back^[n] c) d)
  | exec {ts c} : Derives .exec ts c → Derives .pipe ts c
  | pipe {ts c us d} : Derives .exec ts c → Derives .pipe us d → Derives .pipe (ts ++ .bar :: us) (.pipe c d)
  | block {ts c us rs} : Derives .line ts c → Redirs us rs → Derives .exec (.lpar :: (ts ++ .rpar :: us)) (c.wrap rs)
  | simple {us rs ts ws rs'} : Redirs us rs → Words ts ws rs' → ws.length ≤ MAXARGS - 1 →
      Derives .exec (us ++ ts) (Cmd.wrap (.exec ws) (rs ++ rs'))

end

variable {W : Type} {ts us : List (Token W)} {rs : List (Redir W)} {ws : List W} {c : Cmd W} {fuel argc : Nat}

/-! ## Tokens from a list -/

def Token.isIn (t : Token W) (toks : List UInt8) : Bool := t.first.any (· ∈ toks)

def startsIn (ts : List (Token W)) (toks : List UInt8) : Bool := ts.head?.any (·.isIn toks)

def tokens : Source (List (Token W)) W where
  peek ts toks := (startsIn ts toks, ts)
  gettoken
    | [] => (none, [])
    | t :: ts => (some t, ts)

@[simp] theorem tokens_peek (ts : List (Token W)) (toks : List UInt8) : tokens.peek ts toks = (startsIn ts toks, ts) := rfl

@[simp] theorem tokens_gettoken_cons (t : Token W) (ts : List (Token W)) : tokens.gettoken (t :: ts) = (some t, ts) := rfl

@[simp] theorem startsIn_cons (t : Token W) (ts : List (Token W)) (toks : List UInt8) : startsIn (t :: ts) toks = t.isIn toks :=
  rfl

variable {toks : List UInt8}

theorem of_startsIn (h : startsIn ts toks = true) : ∃ t us, ts = t :: us ∧ t.isIn toks = true := by
  cases ts with
  | nil => cases h
  | cons t us => exact ⟨t, us, rfl, h⟩

/-! ## What is parsed is derived -/

/-- A parser delivers something with `Q` or fails, and for want of fuel only if there is not `enough`. -/
def Delivers {β : Type} (enough : Prop) (Q : β → Prop) : Except Fail β → Prop
  | .ok b => Q b
  | .error e => enough → e ≠ .fuel

theorem Delivers.bind {α β : Type} {enough enough' : Prop} {P : α → Prop} {Q : β → Prop} {x : Except Fail α}
    {f : α → Except Fail β} (hx : Delivers enough P x) (he : enough' → enough)
    (hf : ∀ a, P a → Delivers enough' Q (f a)) : Delivers enough' Q (x >>= f) := by
  cases x with
  | error e => exact fun h => hx (he h)
  | ok a => exact hf a hx

theorem parseredirs_spec : ∀ (fuel : Nat) (ts : List (Token W)),
    Delivers (ts.length < fuel) (fun r => ∃ vs, ts = vs ++ r.2 ∧ Redirs vs r.1) (parseredirs tokens fuel ts)
  | 0, ts => fun h => absurd h (Nat.not_lt_zero _)
  | fuel + 1, ts => by
    rw [parseredirs]
    simp only [tokens_peek]
    cases hp : startsIn ts [60, 62] with
    | false => exact ⟨[], rfl, .nil⟩
    | true =>
      obtain ⟨t, us, rfl, ht⟩ := of_startsIn hp
      cases us with
      | nil => exact fun _ => nofun
      | cons t' us =>
        cases t' with
        | word w =>
          refine (parseredirs_spec fuel us).bind (by simp only [List.length_cons]; omega) ?_
          rintro ⟨rs, us⟩ ⟨vs, rfl, hvs⟩
          refine ⟨t :: .word w :: vs, rfl, ?_⟩
          cases t <;> cases ht
          · exact .lt w hvs
          · exact .gt w hvs
          · exact .ggt w hvs
        | _ => exact fun _ => nofun

theorem parseargs_spec : ∀ (fuel : Nat) {argc : Nat} (ts : List (Token W)), argc < MAXARGS →
    Delivers (ts.length + 1 < fuel) (fun r => ∃ vs, ts = vs ++ r.2.2 ∧ Words vs r.1 r.2.1 ∧ argc + r.1.length < MAXARGS)
      (parseargs tokens fuel argc ts)
  | 0, _, _, _ => fun h => absurd h (Nat.not_lt_zero _)
  | fuel + 1, argc, ts, hargc => by
    rw [parseargs]
    simp only [tokens_peek]
    cases hp : startsIn ts [124, 41, 38, 59] with
    | true => exact ⟨[], rfl, .nil, hargc⟩
    | false =>
      cases ts with
      | nil => exact ⟨[], rfl, .nil, hargc⟩
      | cons t ts =>
        cases t with
        | word w =>
          simp only [tokens_gettoken_cons]
          split
          · exact fun _ => nofun
          rename_i hlt
          refine (parseredirs_spec fuel ts).bind (by simp only [List.length_cons]; omega) ?_
          rintro ⟨rs, ts⟩ ⟨vs, rfl, hvs⟩
          refine (parseargs_spec fuel ts (Nat.lt_of_not_le hlt)).bind
            (by simp only [List.length_cons, List.length_append]; omega) ?_
          rintro ⟨ws, rs', us⟩ ⟨vs', rfl, hvs', hlen⟩
          refine ⟨.word w :: (vs ++ vs'), by simp, .cons w hvs hvs', ?_⟩
          rw [List.length_cons]
          omega
        | _ => exact fun _ => nofun

theorem parsebacks_spec : ∀ (fuel : Nat) (c : Cmd W) (ts : List (Token W)),
    Delivers (ts.length < fuel) (fun r => ∃ n, ts = .replicate n .amp ++ r.2 ∧ r.1 = Cmd.back^[n] c)
      (parsebacks tokens fuel c ts)
  | 0, _, _ => fun h => absurd h (Nat.not_lt_zero _)
  | fuel + 1, c, ts => by
    rw [parsebacks]
    simp only [tokens_peek]
    cases hp : startsIn ts [38] with
    | false => exact ⟨0, rfl, rfl⟩
    | true =>
      obtain ⟨t, us, rfl, ht⟩ := of_startsIn hp
      have ih := parsebacks_spec fuel c.back us
      simp only [tokens_gettoken_cons]
      cases hr : parsebacks tokens fuel c.back us with
      | error e =>
        rw [hr] at ih
        exact fun h => ih (Nat.lt_of_succ_lt_succ h)
      | ok r =>
        rw [hr] at ih
        obtain ⟨n, rfl, hn⟩ := ih
        refine ⟨n + 1, ?_, hn⟩
        cases t <;> cases ht
        rfl

/-- The parser of each nonterminal. -/
def parse : Nonterminal → Nat → List (Token W) → Except Fail (Cmd W × List (Token W))
  | .line => parseline tokens
  | .pipe => parsepipe tokens
  | .exec => parseexec tokens

/-- How much fuel is enough for a number of tokens. -/
def need : Nonterminal → Nat → Nat
  | .line, n => 4 * n + 6
  | .pipe, n => 4 * n + 5
  | .exec, n => 4 * n + 4

/-- What is parsed is derived, and the rest is left. -/
theorem parse_spec : ∀ (fuel : Nat) (nt : Nonterminal) (ts : List (Token W)),
    Delivers (need nt ts.length ≤ fuel) (fun r => ∃ vs, ts = vs ++ r.2 ∧ Derives nt vs r.1) (parse nt fuel ts)
  | 0, nt, ts => by cases nt <;> exact fun h => absurd h (Nat.not_succ_le_zero _)
  | fuel + 1, .line, ts => by
    rw [parse, parseline]
    refine (parse_spec fuel .pipe ts).bind (by simp only [need]; omega) ?_
    rintro ⟨c, ts⟩ ⟨vs, rfl, hvs⟩
    refine (parsebacks_spec fuel c ts).bind (by simp only [need, List.length_append]; omega) ?_
    rintro ⟨_, ts⟩ ⟨n, rfl, rfl⟩
    simp only [tokens_peek]
    cases hp : startsIn ts [59] with
    | false => exact ⟨vs ++ .replicate n .amp, by simp, .line n hvs⟩
    | true =>
      obtain ⟨t, us, rfl, ht⟩ := of_startsIn hp
      refine (parse_spec fuel .line us).bind (by simp only [need, List.length_append, List.length_cons]; omega) ?_
      rintro ⟨d, us⟩ ⟨vs', rfl, hvs'⟩
      refine ⟨vs ++ (.replicate n .amp ++ .semi :: vs'), ?_, .list n hvs hvs'⟩
      cases t <;> cases ht
      simp
  | fuel + 1, .pipe, ts => by
    rw [parse, parsepipe]
    refine (parse_spec fuel .exec ts).bind (by simp only [need]; omega) ?_
    rintro ⟨c, ts⟩ ⟨vs, rfl, hvs⟩
    simp only [tokens_peek]
    cases hp : startsIn ts [124] with
    | false => exact ⟨vs, rfl, .exec hvs⟩
    | true =>
      obtain ⟨t, us, rfl, ht⟩ := of_startsIn hp
      refine (parse_spec fuel .pipe us).bind (by simp only [need, List.length_append, List.length_cons]; omega) ?_
      rintro ⟨d, us⟩ ⟨vs', rfl, hvs'⟩
      refine ⟨vs ++ .bar :: vs', ?_, .pipe hvs hvs'⟩
      cases t <;> cases ht
      simp
  | fuel + 1, .exec, ts => by
    rw [parse, parseexec]
    simp only [tokens_peek]
    cases hp : startsIn ts [40] with
    | false =>
      refine (parseredirs_spec fuel ts).bind (by simp only [need]; omega) ?_
      rintro ⟨rs, ts⟩ ⟨vs, rfl, hvs⟩
      refine (parseargs_spec fuel ts (by decide)).bind (by simp only [need, List.length_append]; omega) ?_
      rintro ⟨ws, rs', us⟩ ⟨vs', rfl, hvs', hlen⟩
      exact ⟨vs ++ vs', by simp, .simple hvs hvs' (by omega)⟩
    | true =>
      obtain ⟨t, us, rfl, ht⟩ := of_startsIn hp
      cases fuel with
      | zero => exact fun h => by simp only [need] at h; omega
      | succ fuel =>
        simp only
        rw [parseblock]
        simp only [tokens_peek, hp, tokens_gettoken_cons]
        refine (parse_spec fuel .line us).bind (by simp only [need, List.length_cons]; omega) ?_
        rintro ⟨c, ts⟩ ⟨vs, rfl, hvs⟩
        cases hp' : startsIn ts [41] with
        | false => exact fun _ => nofun
        | true =>
          obtain ⟨t', us, rfl, ht'⟩ := of_startsIn hp'
          refine (parseredirs_spec fuel us).bind (by simp only [need, List.length_append, List.length_cons]; omega) ?_
          rintro ⟨rs, us⟩ ⟨vs', rfl, hvs'⟩
          refine ⟨.lpar :: (vs ++ .rpar :: vs'), ?_, .block hvs hvs'⟩
          cases t <;> cases ht
          cases t' <;> cases ht'
          simp

/-! ## What is derived is parsed -/

/-- One turn of `parseredirs`. -/
theorem parseredirs_cons {t : Token W} (ht : t.isIn [60, 62] = true) (w : W) (ts : List (Token W))
    (h : parseredirs tokens fuel ts = .ok (rs, us)) :
    parseredirs tokens (fuel + 1) (t :: .word w :: ts) = .ok (redircmd (some t) w ++ rs, us) := by
  rw [parseredirs]
  simp only [tokens_peek, startsIn_cons, ht, tokens_gettoken_cons, h]
  rfl

variable {vs : List (Token W)}

theorem parseredirs_complete (h : Redirs vs rs) (hus : startsIn us [60, 62] = false) :
    ∀ fuel, (vs ++ us).length < fuel → parseredirs tokens fuel (vs ++ us) = .ok (rs, us) := by
  induction h with
  | nil =>
    intro fuel hfuel
    obtain - | fuel := fuel
    · cases hfuel
    rw [List.nil_append, parseredirs]
    simp only [tokens_peek, hus]
  | lt w _ ih | gt w _ ih | ggt w _ ih =>
    intro fuel hfuel
    obtain - | fuel := fuel
    · cases hfuel
    exact parseredirs_cons rfl w _ (ih _ (by simp only [List.cons_append, List.length_cons] at hfuel; omega))

/-- Words begin with no symbol. -/
theorem Words.startsIn (h : Words vs ws rs) (hus : Sh.startsIn us toks = false) :
    Sh.startsIn (vs ++ us) toks = false := by
  cases h with
  | nil => exact hus
  | cons w _ _ => rfl

theorem Redirs.startsIn (h : Redirs vs rs) (hus : Sh.startsIn us [40] = false) :
    Sh.startsIn (vs ++ us) [40] = false := by
  cases h with
  | nil => exact hus
  | lt w _ | gt w _ | ggt w _ => rfl

theorem parseargs_complete (h : Words vs ws rs)
    (hus : us = [] ∨ startsIn us [124, 41, 38, 59] = true) : ∀ fuel argc, argc + ws.length < MAXARGS →
    (vs ++ us).length + 1 < fuel → parseargs tokens fuel argc (vs ++ us) = .ok (ws, rs, us) := by
  have hredir : startsIn us [60, 62] = false := by
    obtain rfl | hus := hus
    · rfl
    · obtain ⟨t, us, rfl, ht⟩ := of_startsIn hus
      cases t <;> cases ht <;> rfl
  induction h with
  | nil =>
    intro fuel argc _ hfuel
    obtain - | fuel := fuel
    · cases hfuel
    rw [List.nil_append, parseargs]
    obtain rfl | hus := hus
    · rfl
    · simp only [tokens_peek, hus]
  | cons w hr hw ih =>
    intro fuel argc hargc hfuel
    obtain - | fuel := fuel
    · cases hfuel
    simp only [List.length_cons, List.cons_append, List.append_assoc, List.length_append] at hargc hfuel
    have hrs := parseredirs_complete hr (hw.startsIn hredir) fuel (by simp only [List.length_append]; omega)
    have hws := ih fuel (argc + 1) (by omega) (by rw [List.length_append]; omega)
    rw [List.cons_append, List.append_assoc, parseargs]
    have hpeek : Token.isIn (.word w) [124, 41, 38, 59] = false := rfl
    simp only [tokens_peek, startsIn_cons, hpeek, tokens_gettoken_cons]
    rw [if_neg (by omega), hrs]
    show (parseargs tokens fuel (argc + 1) _ >>= _) = _
    rw [hws]
    rfl

theorem parsebacks_complete (hus : startsIn us [38] = false) : ∀ (n fuel : Nat) (c : Cmd W),
    n + us.length < fuel → parsebacks tokens fuel c (.replicate n .amp ++ us) = .ok (Cmd.back^[n] c, us)
  | 0, fuel, c, hfuel => by
    obtain - | fuel := fuel
    · cases hfuel
    rw [List.replicate_zero, List.nil_append, parsebacks]
    simp only [tokens_peek, hus]
    rfl
  | n + 1, fuel, c, hfuel => by
    obtain - | fuel := fuel
    · cases hfuel
    rw [List.replicate_succ, List.cons_append, parsebacks]
    exact parsebacks_complete hus n fuel (.back c) (by omega)

/-- What can stand behind a nonterminal. -/
def follow : Nonterminal → List UInt8
  | .line => [41]
  | .pipe => [38, 59, 41]
  | .exec => [124, 41, 38, 59]

def Follows (nt : Nonterminal) (us : List (Token W)) : Prop := us = [] ∨ startsIn us (follow nt) = true

variable {nt : Nonterminal}

/-- What does not begin what can stand behind a nonterminal. -/
theorem Follows.startsIn_eq_false (h : Follows nt us)
    (hdisj : ∀ c ∈ follow nt, c ∉ toks) : startsIn us toks = false := by
  obtain rfl | h := h
  · rfl
  obtain ⟨t, us, rfl, ht⟩ := of_startsIn h
  simp only [startsIn_cons, Token.isIn] at ht ⊢
  cases hfirst : t.first with
  | none => rfl
  | some c =>
    rw [hfirst] at ht
    have hc : c ∈ follow nt := by simpa using ht
    simpa using hdisj c hc

theorem Follows.mono {nt' : Nonterminal} (h : Follows nt us) (hsub : follow nt ⊆ follow nt') : Follows nt' us := by
  refine h.imp_right fun h => ?_
  obtain ⟨t, us, rfl, ht⟩ := of_startsIn h
  simp only [startsIn_cons, Token.isIn] at ht ⊢
  cases hfirst : t.first with
  | none =>
    rw [hfirst] at ht
    cases ht
  | some c =>
    rw [hfirst] at ht
    simpa using hsub (by simpa using ht)

/-- Behind the pipe of a line. -/
theorem follows_backs (n : Nat) (h : Follows .pipe us) : Follows .pipe (.replicate n .amp ++ us) := by
  cases n with
  | zero => exact h
  | succ n => exact .inr rfl

theorem parse_complete (h : Derives nt vs c) :
    ∀ us fuel, Follows nt us → need nt (vs ++ us).length ≤ fuel → parse nt fuel (vs ++ us) = .ok (c, us) := by
  induction h with
  | @line ts c n _ ih =>
    intro us fuel hus hfuel
    simp only [need, List.length_append, List.length_replicate] at hfuel
    obtain - | fuel := fuel
    · omega
    have hpipe := ih (.replicate n .amp ++ us) fuel (follows_backs n (hus.mono (by decide)))
      (by simp only [need, List.length_append, List.length_replicate]; omega)
    have hbacks := parsebacks_complete (hus.startsIn_eq_false (by simp [follow])) n fuel c (by omega)
    have hsemi : startsIn us [59] = false := hus.startsIn_eq_false (by simp [follow])
    rw [List.append_assoc, parse, parseline]
    simp only [parse] at hpipe
    simp only [hpipe, hbacks, bind, Except.bind, tokens_peek, hsemi]
    rfl
  | @list ts c us' d n _ _ ih ih' =>
    intro us fuel hus hfuel
    simp only [need, List.length_append, List.length_replicate, List.length_cons] at hfuel
    obtain - | fuel := fuel
    · omega
    have hpipe := ih (.replicate n .amp ++ .semi :: (us' ++ us)) fuel (follows_backs n (.inr rfl))
      (by simp only [need, List.length_append, List.length_replicate, List.length_cons]; omega)
    have hamp : startsIn (.semi :: (us' ++ us)) [38] = false := rfl
    have hbacks := parsebacks_complete hamp n fuel c
      (by simp only [List.length_cons, List.length_append]; omega)
    have hline := ih' us fuel hus (by simp only [need, List.length_append]; omega)
    simp only [parse] at hpipe hline
    rw [List.append_assoc, List.append_assoc, List.cons_append, parse, parseline]
    have hsemi : Token.isIn (.semi : Token W) [59] = true := rfl
    simp only [hpipe, hbacks, bind, Except.bind, tokens_peek, startsIn_cons, hsemi, tokens_gettoken_cons, hline]
    rfl
  | @exec ts c _ ih =>
    intro us fuel hus hfuel
    simp only [need] at hfuel
    obtain - | fuel := fuel
    · omega
    have hexec := ih us fuel (hus.mono (by decide)) (by simp only [need]; omega)
    have hbar : startsIn us [124] = false := hus.startsIn_eq_false (by simp [follow])
    simp only [parse] at hexec
    rw [parse, parsepipe]
    simp only [hexec, bind, Except.bind, tokens_peek, hbar]
    rfl
  | @pipe ts c us' d _ _ ih ih' =>
    intro us fuel hus hfuel
    simp only [need, List.length_append, List.length_cons] at hfuel
    obtain - | fuel := fuel
    · omega
    have hexec := ih (.bar :: (us' ++ us)) fuel (.inr rfl)
      (by simp only [need, List.length_append, List.length_cons]; omega)
    have hpipe := ih' us fuel hus (by simp only [need, List.length_append]; omega)
    simp only [parse] at hexec hpipe
    rw [List.append_assoc, List.cons_append, parse, parsepipe]
    have hbar : Token.isIn (.bar : Token W) [124] = true := rfl
    simp only [hexec, bind, Except.bind, tokens_peek, startsIn_cons, hbar, tokens_gettoken_cons, hpipe]
    rfl
  | @block ts c us' rs _ hr ih =>
    intro us fuel hus hfuel
    simp only [need, List.length_append, List.length_cons, List.cons_append] at hfuel
    obtain ⟨fuel, rfl⟩ := Nat.exists_eq_add_of_le (by omega : 2 ≤ fuel)
    rw [Nat.add_comm]
    have hline := ih (.rpar :: (us' ++ us)) fuel (.inr rfl)
      (by simp only [need, List.length_append, List.length_cons]; omega)
    have hredirs := parseredirs_complete hr (hus.startsIn_eq_false (by simp [follow])) fuel
      (by rw [List.length_append]; omega)
    simp only [parse] at hline
    rw [List.cons_append, List.append_assoc, List.cons_append, parse, parseexec]
    have hl : Token.isIn (.lpar : Token W) [40] = true := rfl
    have hrp : Token.isIn (.rpar : Token W) [41] = true := rfl
    simp only [tokens_peek, startsIn_cons, hl]
    rw [parseblock]
    simp only [tokens_peek, startsIn_cons, hl, hrp, tokens_gettoken_cons, hline, bind, Except.bind, hredirs]
    rfl
  | @simple us' rs ts ws rs' hr hw hlen =>
    intro us fuel hus hfuel
    simp only [need, List.length_append] at hfuel
    obtain - | fuel := fuel
    · omega
    have hredir : startsIn us [60, 62] = false := hus.startsIn_eq_false (by simp [follow])
    have hredirs := parseredirs_complete hr (hw.startsIn hredir) fuel (by simp only [List.length_append]; omega)
    have hargs := parseargs_complete hw hus fuel 0
      (by have : MAXARGS = 10 := rfl; omega) (by rw [List.length_append]; omega)
    have hpar := hr.startsIn (hw.startsIn (hus.startsIn_eq_false (by simp [follow])))
    rw [List.append_assoc, parse, parseexec]
    simp only [tokens_peek, hpar, hredirs, hargs, bind, Except.bind]
    rfl

/-- The parser finds the one tree there is for all the tokens, and does not end without a result. -/
theorem parseline_correct (ts : List (Token W)) (hfuel : 4 * ts.length + 6 ≤ fuel) : match parseline tokens fuel ts with
    | .ok (c, us) => ∀ d, Derives .line ts d ↔ us = [] ∧ d = c
    | .error e => e ≠ .fuel ∧ ∀ d, ¬ Derives .line ts d := by
  have hcomplete : ∀ d, Derives .line ts d → parseline tokens fuel ts = .ok (d, []) := by
    intro d hd
    have := parse_complete hd [] fuel (.inl rfl) (by simpa [need] using hfuel)
    rwa [List.append_nil] at this
  have hspec := parse_spec fuel .line ts
  simp only [parse] at hspec
  cases h : parseline tokens fuel ts with
  | error e =>
    rw [h] at hspec
    refine ⟨hspec hfuel, fun d hd => ?_⟩
    rw [hcomplete d hd] at h
    cases h
  | ok r =>
    obtain ⟨c, us⟩ := r
    intro d
    constructor
    · intro hd
      rw [hcomplete d hd] at h
      cases h
      exact ⟨rfl, rfl⟩
    rintro ⟨rfl, rfl⟩
    rw [h] at hspec
    obtain ⟨vs, rfl, hvs⟩ := hspec
    rwa [List.append_nil]

end Xv6.Sh
