import Mathlib.Data.List.GetD
import Mathlib.Data.List.TakeWhile
import Mathlib.Logic.Function.Iterate

/-!
# The parser of the shell (`sh.c:265-493`)

A line is the bytes up to the NUL. Pointers into it are positions, and the parser is written over what `peek` and
`gettoken` deliver, whatever they read from. The commands point to their words in the line; `nulterminate` ends every
word with a NUL, in place.

| here | there |
| --- | --- |
| `charAt line i` | `*s`, with the NUL behind the line |
| `Pos line` | `s`, from the beginning of the line up to `es` |
| `Word line` | `q` and `eq` of a token `'a'` |
| `Token`, `none` | what `gettoken` returns; `none` is 0 |
| `parseredirs` | the commands to wrap around, the innermost first |
| `parsebacks`, `parseargs` | the loops of `parseline` and `parseexec` |
| `Fail.panic` | `panic`, with its text |
| `Fail.fuel` | the number of calls and turns that are allowed is used up |

`malloc` is taken to succeed.
-/

namespace Xv6.Sh

abbrev MAXARGS : Nat := 10
abbrev O_RDONLY : BitVec 32 := 0x000
abbrev O_WRONLY : BitVec 32 := 0x001
abbrev O_CREATE : BitVec 32 := 0x200

/-- Space, tab, carriage return, newline, vertical tab. -/
def whitespace : List UInt8 := [32, 9, 13, 10, 11]

/-- The symbols `<|>&;()`. -/
def symbols : List UInt8 := [60, 124, 62, 38, 59, 40, 41]

/-! ## Commands -/

structure Redir (W : Type) where
  file : W
  mode : BitVec 32
  fd : Nat
deriving DecidableEq

inductive Cmd (W : Type) where
  | exec (argv : List W)
  | redir (cmd : Cmd W) (r : Redir W)
  | pipe (left right : Cmd W)
  | list (left right : Cmd W)
  | back (cmd : Cmd W)
deriving DecidableEq

inductive Token (W : Type) where
  | lt
  | gt
  | ggt
  | bar
  | amp
  | semi
  | lpar
  | rpar
  | word (w : W)
deriving DecidableEq

/-- The byte a symbol begins with. -/
def Token.first {W : Type} : Token W → Option UInt8
  | .lt => some 60
  | .gt | .ggt => some 62
  | .bar => some 124
  | .amp => some 38
  | .semi => some 59
  | .lpar => some 40
  | .rpar => some 41
  | .word _ => none

/-! ## The parser -/

inductive Fail where
  | panic (msg : String)
  | fuel
deriving DecidableEq

/-- Where tokens come from. -/
structure Source (σ W : Type) where
  peek : σ → List UInt8 → Bool × σ
  gettoken : σ → Option (Token W) × σ

section Parser

variable {σ W : Type} (S : Source σ W)

/-- The last one is outermost. -/
def Cmd.wrap (cmd : Cmd W) (rs : List (Redir W)) : Cmd W := rs.foldl .redir cmd

/-- The `switch` of `parseredirs`. -/
def redircmd (tok : Option (Token W)) (w : W) : List (Redir W) :=
  match tok with
  | some .lt => [⟨w, O_RDONLY, 0⟩]
  | some .gt => [⟨w, O_WRONLY ||| O_CREATE, 1⟩]
  | some .ggt => [⟨w, O_WRONLY ||| O_CREATE, 1⟩]
  | _ => []

def parseredirs : Nat → σ → Except Fail (List (Redir W) × σ)
  | 0, _ => .error .fuel
  | fuel + 1, s =>
    match S.peek s [60, 62] with
    | (false, s) => .ok ([], s)
    | (true, s) =>
      match S.gettoken s with
      | (tok, s) =>
        match S.gettoken s with
        | (some (.word w), s) => do
          let (rs, s) ← parseredirs fuel s
          return (redircmd tok w ++ rs, s)
        | _ => .error (.panic "missing file for redirection")

/-- `argc` words are there already. -/
def parseargs : Nat → Nat → σ → Except Fail (List W × List (Redir W) × σ)
  | 0, _, _ => .error .fuel
  | fuel + 1, argc, s =>
    match S.peek s [124, 41, 38, 59] with
    | (true, s) => .ok ([], [], s)
    | (false, s) =>
      match S.gettoken s with
      | (none, s) => .ok ([], [], s)
      | (some (.word w), s) =>
        if argc + 1 ≥ MAXARGS then .error (.panic "too many args")
        else do
          let (rs, s) ← parseredirs S fuel s
          let (ws, rs', s) ← parseargs fuel (argc + 1) s
          return (w :: ws, rs ++ rs', s)
      | _ => .error (.panic "syntax")

def parsebacks : Nat → Cmd W → σ → Except Fail (Cmd W × σ)
  | 0, _, _ => .error .fuel
  | fuel + 1, cmd, s =>
    match S.peek s [38] with
    | (true, s) => parsebacks fuel (.back cmd) (S.gettoken s).2
    | (false, s) => .ok (cmd, s)

mutual

def parseline : Nat → σ → Except Fail (Cmd W × σ)
  | 0, _ => .error .fuel
  | fuel + 1, s => do
    let (cmd, s) ← parsepipe fuel s
    let (cmd, s) ← parsebacks S fuel cmd s
    match S.peek s [59] with
    | (true, s) =>
      let (right, s) ← parseline fuel (S.gettoken s).2
      return (.list cmd right, s)
    | (false, s) => return (cmd, s)

def parsepipe : Nat → σ → Except Fail (Cmd W × σ)
  | 0, _ => .error .fuel
  | fuel + 1, s => do
    let (cmd, s) ← parseexec fuel s
    match S.peek s [124] with
    | (true, s) =>
      let (right, s) ← parsepipe fuel (S.gettoken s).2
      return (.pipe cmd right, s)
    | (false, s) => return (cmd, s)

def parseblock : Nat → σ → Except Fail (Cmd W × σ)
  | 0, _ => .error .fuel
  | fuel + 1, s =>
    match S.peek s [40] with
    | (false, _) => .error (.panic "parseblock")
    | (true, s) => do
      let (cmd, s) ← parseline fuel (S.gettoken s).2
      match S.peek s [41] with
      | (false, _) => .error (.panic "syntax - missing )")
      | (true, s) =>
        let (rs, s) ← parseredirs S fuel (S.gettoken s).2
        return (cmd.wrap rs, s)

def parseexec : Nat → σ → Except Fail (Cmd W × σ)
  | 0, _ => .error .fuel
  | fuel + 1, s =>
    match S.peek s [40] with
    | (true, s) => parseblock fuel s
    | (false, s) => do
      let (rs, s) ← parseredirs S fuel s
      let (ws, rs', s) ← parseargs S fuel 0 s
      return (Cmd.wrap (.exec ws) (rs ++ rs'), s)

end

end Parser

/-! ## Tokens of a line -/

section Line

variable (line : List UInt8) {i j : Nat} {p : UInt8 → Bool} {l : List UInt8}

def charAt (i : Nat) : UInt8 := line.getD i 0

/-- A position, at most that of the NUL. -/
abbrev Pos := Fin (line.length + 1)

def white (c : UInt8) : Bool := c ∈ whitespace

def wordChar (c : UInt8) : Bool := c ∉ whitespace ∧ c ∉ symbols

/-- `while(s < es && ...) s++`, from `i` on. -/
def run (p : UInt8 → Bool) (i : Nat) : Nat := i + ((line.drop i).takeWhile p).length

theorem run_le (hi : i ≤ line.length) : run line p i ≤ line.length := by
  have := (List.takeWhile_prefix p (l := line.drop i)).length_le
  rw [List.length_drop] at this
  rw [run]
  omega

theorem le_run : i ≤ run line p i := Nat.le_add_right _ _

theorem run_char (hi : i ≤ j) (hj : j < run line p i) : p (charAt line j) = true := by
  rw [run] at hj
  have hlen : j - i < ((line.drop i).takeWhile p).length := by omega
  have hget := List.mem_takeWhile_imp (List.getElem_mem hlen)
  rw [(List.takeWhile_prefix p).getElem hlen, List.getElem_drop] at hget
  rw [charAt, List.getD_eq_getElem?_getD, List.getElem?_eq_getElem, Option.getD_some]
  · convert hget using 2
    congr 1
    omega
  · have := (List.takeWhile_prefix p (l := line.drop i)).length_le
    rw [List.length_drop] at this
    omega

theorem drop_run : line.drop (run line p i) = (line.drop i).dropWhile p := by
  have happ := List.takeWhile_append_dropWhile (p := p) (l := line.drop i)
  rw [run, ← List.drop_drop]
  exact (congrArg (List.drop _) happ.symm).trans List.drop_left

theorem charAt_eq_getElem (hi : i < l.length) : charAt l i = l[i] := List.getD_eq_getElem _ _ hi

theorem charAt_mem (hi : i < l.length) : charAt l i ∈ l := by
  rw [charAt_eq_getElem hi]
  exact List.getElem_mem hi

theorem lt_of_charAt (h : charAt line i ≠ 0) : i < line.length := by
  by_contra hge
  exact h (List.getD_eq_default _ _ (Nat.le_of_not_lt hge))

theorem run_end (h : run line p i < line.length) : p (charAt line (run line p i)) = false := by
  have hlen : 0 < ((line.drop i).dropWhile p).length := by
    rw [← drop_run, List.length_drop]
    omega
  have hget := List.dropWhile_get_zero_not p (line.drop i) hlen
  rw [charAt_eq_getElem h]
  simpa [← drop_run] using hget

/-- The bytes of a word are neither white nor symbols, and what is behind it is not part of a word. -/
structure Word where
  q : Nat
  eq : Nat
  le : q ≤ eq
  bound : eq ≤ line.length
  chars : ∀ i, q ≤ i → i < eq → wordChar (charAt line i) = true
  ends : eq < line.length → wordChar (charAt line eq) = false

def Word.text (w : Word line) : List UInt8 := (line.drop w.q).take (w.eq - w.q)

def wordAt (s : Pos line) : Word line where
  q := s
  eq := run line wordChar s
  le := le_run line
  bound := run_le line (Nat.le_of_lt_succ s.isLt)
  chars _ hi hj := run_char line hi hj
  ends h := run_end line h

/-- White space is skipped. -/
def skip (s : Pos line) : Pos line := ⟨run line white s, Nat.lt_succ_of_le (run_le line (Nat.le_of_lt_succ s.isLt))⟩

/-- The symbols of one byte other than `>`. -/
def single {W : Type} (c : UInt8) : Option (Token W) :=
  if c = 124 then some .bar
  else if c = 40 then some .lpar
  else if c = 41 then some .rpar
  else if c = 59 then some .semi
  else if c = 38 then some .amp
  else if c = 60 then some .lt
  else none

/-- The `switch` of `gettoken`, with the position behind the token. -/
def tokenAt (s : Pos line) : Option (Token (Word line)) × Pos line :=
  if h : charAt line s = 0 then (none, s)
  else if charAt line s = 62 then
    if h' : charAt line (s + 1) = 62 then
      (some .ggt, ⟨s + 2, Nat.succ_lt_succ (lt_of_charAt line (h' ▸ by decide))⟩)
    else (some .gt, ⟨s + 1, Nat.succ_lt_succ (lt_of_charAt line h)⟩)
  else
    match single (charAt line s) with
    | some tok => (some tok, ⟨s + 1, Nat.succ_lt_succ (lt_of_charAt line h)⟩)
    | none => (some (.word (wordAt line s)), ⟨(wordAt line s).eq, Nat.lt_succ_of_le (wordAt line s).bound⟩)

def gettoken (s : Pos line) : Option (Token (Word line)) × Pos line :=
  let (ret, s) := tokenAt line (skip line s)
  (ret, skip line s)

def peek (s : Pos line) (toks : List UInt8) : Bool × Pos line :=
  let s := skip line s
  (charAt line s ≠ 0 ∧ charAt line s ∈ toks, s)

def source : Source (Pos line) (Word line) := ⟨peek line, gettoken line⟩

/-! ## The whole line -/

def nulterminate : Cmd (Word line) → List UInt8 → List UInt8
  | .exec argv, buf => argv.foldl (fun buf w => buf.set w.eq 0) buf
  | .redir cmd r, buf => (nulterminate cmd buf).set r.file.eq 0
  | .pipe left right, buf => nulterminate right (nulterminate left buf)
  | .list left right, buf => nulterminate right (nulterminate left buf)
  | .back cmd, buf => nulterminate cmd buf

/-- The command, and what is in the buffer then. -/
def parsecmd : Except Fail (Cmd (Word line) × List UInt8) := do
  let (cmd, s) ← parseline (source line) (4 * line.length + 6) 0
  let (_, s) := peek line s []
  if s.val ≠ line.length then .error (.panic "syntax") else return (cmd, nulterminate line cmd (line ++ [0]))

end Line

end Xv6.Sh
