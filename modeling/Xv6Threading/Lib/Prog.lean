import Mathlib.Logic.Basic

/-!
# Programs that ask their surroundings

A `Prog A R α` is a program that performs actions of type `A` one after the other and goes on with the
answer, of type `R a` for the action `a`; in the end it returns an `α`. What the actions do is not part of
it. `run` interprets them one program at a time on a state.

A `Protocol` says what a program has to ensure before each action (`pre`), what it may rely on of the answer
(`resp`), and keeps a record `G` of what it has done (`next`). `Follows T Q p g`: started with the record
`g`, the program keeps to `T` whatever it is answered, and `Q` holds of what it returns and the record then.
The rules follow the shape of the program.

`Trace` is what can be seen of one program from outside: its actions and the answers it got, up to some point.
-/

/-- Answers are of type `R a`. -/
inductive Prog (A : Type) (R : A → Type) (α : Type) where
  | ret (x : α)
  | act (a : A) (k : R a → Prog A R α)

namespace Prog

variable {A : Type} {R : A → Type} {α β : Type} {B : Type}

def bind : Prog A R α → (α → Prog A R β) → Prog A R β
  | .ret x, f => f x
  | .act a k, f => .act a fun r => (k r).bind f

theorem bind_assoc {γ : Type} (p : Prog A R α) (f : α → Prog A R β) (g : β → Prog A R γ) :
    (p.bind f).bind g = p.bind fun x => (f x).bind g := by
  induction p with
  | ret x => rfl
  | act a k ih => exact congrArg _ (funext ih)

instance : Monad (Prog A R) where
  pure := .ret
  bind := .bind

/-- One action. -/
def ask (a : A) : Prog A R (R a) := .act a .ret

/-- Every action is replaced by a program. -/
def expand {B : Type} {S : B → Type} (impl : (a : A) → Prog B S (R a)) : Prog A R α → Prog B S α
  | .ret x => .ret x
  | .act a k => impl a >>= fun r => (k r).expand impl

theorem expand_bind {S : B → Type} (impl : (a : A) → Prog B S (R a)) (p : Prog A R α) (f : α → Prog A R β) :
    (p >>= f).expand impl = p.expand impl >>= fun x => (f x).expand impl := by
  induction p with
  | ret x => rfl
  | act a k ih =>
    show (impl a).bind (fun r => ((k r).bind f).expand impl) = ((impl a).bind fun r => (k r).expand impl).bind _
    rw [bind_assoc]
    exact congrArg _ (funext ih)

/-- The actions of a run and their answers, which may be any, up to some point. -/
inductive Trace : Prog A R α → List ((a : A) × R a) → Prop
  | nil (p : Prog A R α) : Trace p []
  | act (a : A) (k : R a → Prog A R α) (r : R a) {tr : List ((a : A) × R a)} (h : Trace (k r) tr) :
      Trace (.act a k) (⟨a, r⟩ :: tr)

/-- The program alone, with its actions interpreted by `h`. -/
def run {ε σ : Type} (h : σ → (a : A) → Except ε (R a × σ)) : Prog A R α → σ → Except ε (α × σ)
  | .ret x, s => .ok (x, s)
  | .act a k, s =>
    match h s a with
    | .error e => .error e
    | .ok (r, s) => (k r).run h s

section Run

variable {ε σ : Type} {h : σ → (a : A) → Except ε (R a × σ)} {p : Prog A R α} {s s' : σ} {τ : Type} {x : α}

@[simp] theorem run_ask (a : A) (s : σ) : (ask a : Prog A R (R a)).run h s = h s a := by
  rw [ask, run]
  cases h s a <;> rfl

theorem run_bind (p : Prog A R α) (f : α → Prog A R β) (s : σ) :
    (p >>= f).run h s = p.run h s >>= fun r => (f r.1).run h r.2 := by
  induction p generalizing s with
  | ret x => rfl
  | act a k ih =>
    show run h (.act a fun r => (k r).bind f) s = _
    rw [run, run]
    cases h s a with
    | error e => rfl
    | ok r => exact ih r.1 r.2

theorem run_bind_ok (hp : p.run h s = .ok (x, s')) (f : α → Prog A R β) : (p >>= f).run h s = (f x).run h s' := by
  rw [run_bind, hp]
  rfl

/-- An interpretation on a larger state does what one on a part of it does, unless that stops with `bad`. -/
theorem run_embed {g : τ → (a : A) → Except ε (R a × τ)} (emb : σ → τ) {bad : ε}
    (hg : ∀ s a, h s a ≠ .error bad → g (emb s) a = (h s a).map fun q => (q.1, emb q.2))
    {p : Prog A R α} {s : σ} (hp : p.run h s ≠ .error bad) :
    p.run g (emb s) = (p.run h s).map fun q => (q.1, emb q.2) := by
  induction p generalizing s with
  | ret y => rfl
  | act a k ih =>
    rw [run] at hp ⊢
    cases hs : h s a with
    | error e =>
      rw [hs] at hp
      have hne : (Except.error e : Except ε (R a × σ)) ≠ .error bad := fun heq => hp (by cases heq; rfl)
      rw [run, hg s a (hs ▸ hne), hs]
      rfl
    | ok r =>
      rw [hs] at hp
      rw [run, hg s a (by rw [hs]; exact nofun), hs]
      exact ih r.1 hp

/-- Running the expanded program is running what stands for its actions. -/
theorem run_expand {S : B → Type} {g : σ → (b : B) → Except ε (S b × σ)} (impl : (a : A) → Prog B S (R a))
    (p : Prog A R α) (s : σ) : (p.expand impl).run g s = p.run (fun s a => (impl a).run g s) s := by
  induction p generalizing s with
  | ret x => rfl
  | act a k ih =>
    rw [expand, run_bind, run]
    cases (impl a).run g s with
    | error e => rfl
    | ok r => exact ih r.1 r.2

end Run

end Prog

structure Protocol (A : Type) (R : A → Type) (G : Type) where
  pre : G → A → Prop
  resp : G → (a : A) → R a → Prop
  next : G → (a : A) → R a → G

namespace Protocol

variable {A : Type} {R : A → Type} {G α β : Type} (T : Protocol A R G)

def Follows (Q : α → G → Prop) : Prog A R α → G → Prop
  | .ret x, g => Q x g
  | .act a k, g => T.pre g a ∧ ∀ r, T.resp g a r → Follows Q (k r) (T.next g a r)

variable {T} {Q : α → G → Prop} {P : β → G → Prop} {g : G} {p : Prog A R α} {f : α → Prog A R β} {a : A}

@[simp] theorem follows_pure (x : α) : T.Follows Q (pure x) g ↔ Q x g := Iff.rfl

@[simp] theorem follows_bind (p : Prog A R α) (f : α → Prog A R β) :
    T.Follows P (p >>= f) g ↔ T.Follows (fun x g => T.Follows P (f x) g) p g := by
  induction p generalizing g with
  | ret x => exact Iff.rfl
  | act a k ih => exact and_congr_right fun _ => forall_congr' fun r => imp_congr_right fun _ => ih r

theorem follows_act {f : R a → Prog A R β} :
    T.Follows P (.ask a >>= f) g ↔ T.pre g a ∧ ∀ r, T.resp g a r → T.Follows P (f r) (T.next g a r) := Iff.rfl

theorem Follows.bind (h : T.Follows (fun x g => T.Follows P (f x) g) p g) : T.Follows P (p >>= f) g :=
  (follows_bind p f).2 h

/-- An action and what comes after it. -/
theorem Follows.act {f : R a → Prog A R β} (hpre : T.pre g a)
    (h : ∀ r, T.resp g a r → T.Follows P (f r) (T.next g a r)) : T.Follows P (.ask a >>= f) g :=
  ⟨hpre, h⟩

/-- The same for an action that leaves the record as it is. -/
theorem Follows.quiet {f : R a → Prog A R β} (hpre : T.pre g a)
    (hnext : ∀ r, T.next g a r = g) (h : ∀ r, T.resp g a r → T.Follows P (f r) g) : T.Follows P (.ask a >>= f) g := by
  refine .act hpre fun r hr => ?_
  rw [hnext]
  exact h r hr

/-- A protocol is kept by the expanded program if what stands for an action keeps it, with the same effect on the
record. -/
theorem Follows.expand {B : Type} {S : B → Type} {T' : Protocol B S G} {impl : (a : A) → Prog B S (R a)}
    (himpl : ∀ a g (Q : R a → G → Prop), T.pre g a → (∀ r, T.resp g a r → Q r (T.next g a r)) →
      T'.Follows Q (impl a) g) (h : T.Follows Q p g) : T'.Follows Q (p.expand impl) g := by
  induction p generalizing g with
  | ret x => exact h
  | act a k ih => exact .bind (himpl a g _ h.1 fun r hr => ih r (h.2 r hr))

/-- A program that keeps `J`, whatever it returns. -/
def Stable (T : Protocol A R G) (J : G → Prop) (p : Prog A R α) : Prop :=
  ∀ g (Q : α → G → Prop), J g → (∀ x g', J g' → Q x g') → T.Follows Q p g

namespace Stable

variable {J : G → Prop}

theorem pure (x : α) : T.Stable J (pure x) := fun g _ hg hQ => hQ x g hg

theorem bind (hp : T.Stable J p) (hf : ∀ x, T.Stable J (f x)) : T.Stable J (p >>= f) :=
  fun g _ hg hQ => .bind (hp g _ hg fun x g' hg' => hf x g' _ hg' hQ)

theorem ask (h : ∀ g, J g → T.pre g a ∧ ∀ r, T.resp g a r → J (T.next g a r)) : T.Stable J (.ask a) :=
  fun g _ hg hQ => ⟨(h g hg).1, fun r hr => hQ r _ ((h g hg).2 r hr)⟩

end Stable

/-- The record after a run. -/
def record (T : Protocol A R G) (g : G) (tr : List ((a : A) × R a)) : G := tr.foldl (fun g e => T.next g e.1 e.2) g

/-- What every action keeps that the protocol admits holds at every point of a run, if any answer is admitted. -/
theorem Follows.invariant {J : G → Prop} (hresp : ∀ g a r, T.resp g a r)
    (hJ : ∀ g a r, J g → T.pre g a → J (T.next g a r)) (h : T.Follows Q p g)
    {tr : List ((a : A) × R a)} (ht : p.Trace tr) (hg : J g) : J (T.record g tr) := by
  induction ht generalizing g with
  | nil p => exact hg
  | act a k r _ ih => exact ih (h.2 r (hresp g a r)) (hJ g a r hg h.1)

end Protocol
