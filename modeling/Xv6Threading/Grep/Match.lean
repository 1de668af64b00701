import Mathlib.Computability.Language
import Xv6Threading.Grep.Reads

/-!
# What the matcher of `grep` decides (`grep.c:67-106`)

The matcher works on the text of a pattern. Here a pattern is read once, from the left, into pieces, each piece stands
for a language, and `match_iff` says that `match` finds exactly the substrings in the product of these languages. The
three functions are structural recursions over the two strings, so they return on all of them.

| here | there |
| --- | --- |
| `anchored`, `body` | `re[0] == '^'` and what is left of the pattern, `grep.c:75-76` |
| `parse` | the pieces of it; a `$` in the end is no piece, `closed` says that there is one |
| `Piece.language` | `c` or `.`, and `c*` or `.*` |
-/

namespace Xv6.Grep

open scoped Computability

inductive Piece
  | one (c : UInt8)
  | many (c : UInt8)
  deriving DecidableEq

structure Pattern where
  pieces : List Piece
  closed : Bool
  deriving DecidableEq

def Pattern.cons (a : Piece) (r : Pattern) : Pattern := { r with pieces := a :: r.pieces }

/-- A `*` makes the character in front of it a `many`, whatever that is; `$` is special only as the last character. -/
def parse : List UInt8 → Pattern
  | [] => ⟨[], false⟩
  | [c] => if c = dollar then ⟨[], true⟩ else ⟨[.one c], false⟩
  | c :: c' :: re => if c' = star then (parse re).cons (.many c) else (parse (c' :: re)).cons (.one c)

def anchored (re : List UInt8) : Bool := re.head? = some caret

def body (re : List UInt8) : List UInt8 := if anchored re then re.tail else re

/-- The character `c` of a pattern stands for `x`. -/
def Fits (c x : UInt8) : Prop := c = dot ∨ c = x

/-- The words of one letter that `c` stands for. -/
def letter (c : UInt8) : Language UInt8 := {w | ∃ x, Fits c x ∧ w = [x]}

def Piece.language : Piece → Language UInt8
  | .one c => letter c
  | .many c => (letter c)∗

def Pattern.language (r : Pattern) : Language UInt8 := (r.pieces.map Piece.language).prod

variable {c t : UInt8} {re text u w : List UInt8} {r : Pattern} {here : List UInt8 → Bool}

theorem mem_letter : w ∈ letter c ↔ ∃ x, Fits c x ∧ w = [x] := Iff.rfl

/-- `c*` are the words all of whose letters `c` stands for. -/
theorem mem_letter_kstar : w ∈ (letter c)∗ ↔ ∀ x ∈ w, Fits c x := by
  rw [Language.mem_kstar]
  constructor
  · rintro ⟨L, rfl, hL⟩ x hx
    obtain ⟨y, hy, hxy⟩ := List.mem_flatten.mp hx
    obtain ⟨z, hz, rfl⟩ := hL y hy
    exact List.mem_singleton.mp hxy ▸ hz
  intro h
  refine ⟨w.map fun x => [x], ?_, ?_⟩
  · rw [← List.flatMap_def, List.flatMap_singleton']
  · intro y hy
    obtain ⟨x, hx, rfl⟩ := List.mem_map.mp hy
    exact ⟨x, h x hx, rfl⟩

@[simp] theorem language_cons (a : Piece) : (r.cons a).language = a.language * r.language := by
  simp [Pattern.language, Pattern.cons]

/-! ## Matching at the beginning of the text -/

/-- A prefix of the text is in the language, and it is the whole text if the pattern is closed. -/
def Pattern.Here (r : Pattern) (text : List UInt8) : Prop :=
  ∃ w b, text = w ++ b ∧ w ∈ r.language ∧ (r.closed = true → b = [])

theorem here_nil (closed : Bool) : Pattern.Here ⟨[], closed⟩ text ↔ (closed = true → text = []) := by
  constructor
  · rintro ⟨w, b, rfl, hw, hb⟩ hc
    obtain rfl : w = [] := hw
    exact hb hc
  · exact fun h => ⟨[], text, rfl, Language.nil_mem_one, h⟩

theorem here_one : (r.cons (.one c)).Here text ↔ ∃ t text', text = t :: text' ∧ Fits c t ∧ r.Here text' := by
  constructor
  · rintro ⟨w, b, rfl, hw, hb⟩
    rw [language_cons, Language.mem_mul] at hw
    obtain ⟨-, ⟨t, ht, rfl⟩, w, hw, rfl⟩ := hw
    exact ⟨t, w ++ b, rfl, ht, w, b, rfl, hw, hb⟩
  rintro ⟨t, -, rfl, ht, w, b, rfl, hw, hb⟩
  refine ⟨t :: w, b, rfl, ?_, hb⟩
  rw [language_cons]
  exact Language.append_mem_mul (mem_letter.mpr ⟨t, ht, rfl⟩) hw

theorem here_many : (r.cons (.many c)).Here text ↔ ∃ u v, text = u ++ v ∧ (∀ x ∈ u, Fits c x) ∧ r.Here v := by
  constructor
  · rintro ⟨w, b, rfl, hw, hb⟩
    rw [language_cons, Language.mem_mul] at hw
    obtain ⟨u, hu, w, hw, rfl⟩ := hw
    exact ⟨u, w ++ b, List.append_assoc .., mem_letter_kstar.mp hu, w, b, rfl, hw, hb⟩
  rintro ⟨u, -, rfl, hu, w, b, rfl, hw, hb⟩
  refine ⟨u ++ w, b, (List.append_assoc ..).symm, ?_, hb⟩
  rw [language_cons]
  exact Language.append_mem_mul (mem_letter_kstar.mpr hu) hw

theorem fits_iff : (decide (t = c) || decide (c = dot)) = true ↔ Fits c t := by
  rw [Bool.or_eq_true, decide_eq_true_eq, decide_eq_true_eq, Or.comm, @eq_comm _ t]
  rfl

/-- The loop tries every number of letters, none included. -/
theorem matchstar_iff :
    matchstar c here text = true ↔ ∃ u v, text = u ++ v ∧ (∀ x ∈ u, Fits c x) ∧ here v = true := by
  induction text with
  | nil => simp [matchstar]
  | cons t text ih =>
    rw [matchstar, Bool.or_eq_true, Bool.and_eq_true, fits_iff, ih]
    constructor
    · rintro (h | ⟨ht, u, v, rfl, hu, hv⟩)
      · exact ⟨[], t :: text, rfl, nofun, h⟩
      · exact ⟨t :: u, v, rfl, List.forall_mem_cons.mpr ⟨ht, hu⟩, hv⟩
    rintro ⟨_ | ⟨x, u⟩, v, htext, hu, hv⟩
    · exact .inl (htext ▸ hv)
    · obtain ⟨rfl, rfl⟩ := List.cons.inj htext
      obtain ⟨ht, hu⟩ := List.forall_mem_cons.mp hu
      exact .inr ⟨ht, u, v, rfl, hu, hv⟩

/-- The last lines of `matchhere`: one letter, then the rest. -/
theorem matchletter_iff (h : ∀ text, here text = true ↔ r.Here text) :
    (match text with | [] => false | t :: text => (c = dot || c = t) && here text) = true ↔
      (r.cons (.one c)).Here text := by
  rw [here_one]
  cases text with
  | nil => simp
  | cons t text => simp [h, Fits]

/-- **`matchhere` decides its language.** -/
theorem matchhere_iff : matchhere re text = true ↔ (parse re).Here text := by
  induction re using parse.induct generalizing text with
  | case1 => simp [matchhere, parse, here_nil]
  | case2 => simp [matchhere, parse, here_nil]
  | case3 c hc =>
    rw [matchhere.eq_def, parse, if_neg hc]
    simp only [if_neg hc]
    exact matchletter_iff (r := ⟨[], false⟩) fun text => by simp [matchhere, here_nil]
  | case4 c re ih =>
    rw [matchhere.eq_def, parse, if_pos rfl, here_many]
    simp only [if_true, matchstar_iff, ih]
  | case5 c c' re hc ih =>
    rw [matchhere.eq_def, parse, if_neg hc]
    simp only [if_neg hc]
    exact matchletter_iff fun text => ih

/-! ## Matching anywhere -/

theorem matchAny_iff : matchAny re text = true ↔ ∃ a v, text = a ++ v ∧ (parse re).Here v := by
  induction text with
  | nil => simp [matchAny, matchhere_iff]
  | cons t text ih =>
    rw [matchAny, Bool.or_eq_true, matchhere_iff, ih]
    constructor
    · rintro (h | ⟨a, v, rfl, h⟩)
      · exact ⟨[], _, rfl, h⟩
      · exact ⟨t :: a, v, rfl, h⟩
    rintro ⟨_ | ⟨x, a⟩, v, htext, h⟩
    · exact .inl (htext ▸ h)
    · obtain ⟨rfl, rfl⟩ := List.cons.inj htext
      exact .inr ⟨a, v, rfl, h⟩

theorem match_eq : «match» re text = if anchored re then matchhere (body re) text else matchAny (body re) text := by
  cases re with
  | nil => rfl
  | cons c re => by_cases hc : c = caret <;> simp [«match», anchored, body, hc]

/-- **The matcher decides its language.** It returns 1 exactly if some substring of the text is described by the pattern:
one at the beginning of the text if the pattern starts with `^`, and one at the end of it if the pattern ends in `$`. -/
theorem match_iff (re text : List UInt8) : «match» re text = true ↔
    ∃ a w b, text = a ++ w ++ b ∧ w ∈ (parse (body re)).language ∧
      (anchored re = true → a = []) ∧ ((parse (body re)).closed = true → b = []) := by
  rw [match_eq]
  split
  next h =>
    rw [matchhere_iff]
    constructor
    · rintro ⟨w, b, rfl, hw, hb⟩
      exact ⟨[], w, b, rfl, hw, fun _ => rfl, hb⟩
    · rintro ⟨a, w, b, rfl, hw, ha, hb⟩
      exact ⟨w, b, by rw [ha h, List.nil_append], hw, hb⟩
  next h =>
    rw [matchAny_iff]
    constructor
    · rintro ⟨a, -, rfl, w, b, rfl, hw, hb⟩
      exact ⟨a, w, b, (List.append_assoc ..).symm, hw, (absurd · h), hb⟩
    · rintro ⟨a, w, b, rfl, hw, -, hb⟩
      exact ⟨a, w ++ b, List.append_assoc .., w, b, rfl, hw, hb⟩

-- `^*a.*$` on `*abc`, and on `b*abc`: the first `*` stands for itself, the second is one.
example : «match» [caret, star, 97, dot, star, dollar] [star, 97, 98, 99] = true ∧
    «match» [caret, star, 97, dot, star, dollar] [98, star, 97, 98, 99] = false := by
  decide

end Xv6.Grep
