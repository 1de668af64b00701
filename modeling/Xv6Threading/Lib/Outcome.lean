import Mathlib.Logic.Basic

/-!
# What a computation that may stop comes to

`Outcome x E Q`: it returns a value of which `Q` holds, or it stops with an error of which `E` holds. The rules follow
the shape of the computation. `Returns x Q` says nothing of the errors, and its rules are equivalences. `Mirrors T P x y`
is for two of them that run side by side.
-/

universe u v

variable {ε : Type u} {α β : Type v} {E : ε → Prop} {Q : α → Prop} {P : β → Prop}
  {x : Except ε α} {Q' : α → Prop}

structure Outcome (x : Except ε α) (E : ε → Prop) (Q : α → Prop) : Prop where
  ok : ∀ a, x = .ok a → Q a
  error : ∀ e, x = .error e → E e

namespace Outcome

theorem ret {a : α} (h : Q a) : Outcome (.ok a : Except ε α) E Q := by
  constructor
  · rintro _ ⟨⟩
    exact h
  · rintro _ ⟨⟩

theorem stop {e : ε} (h : E e) : Outcome (.error e : Except ε α) E Q := by
  constructor
  · rintro _ ⟨⟩
  · rintro _ ⟨⟩
    exact h

theorem bind {f : α → Except ε β} (hx : Outcome x E Q) (hf : ∀ a, Q a → Outcome (f a) E P) :
    Outcome (x >>= f) E P := by
  cases x with
  | error e => exact stop (hx.error e rfl)
  | ok a => exact hf a (hx.ok a rfl)

theorem map {f : α → β} (h : Outcome x E fun a => P (f a)) : Outcome (x.map f) E P := by
  cases x with
  | error e => exact stop (h.error e rfl)
  | ok a => exact ret (h.ok a rfl)

theorem mono {Q' : α → Prop} (h : Outcome x E Q) (hQ : ∀ a, Q a → Q' a) : Outcome x E Q' :=
  ⟨fun a ha => hQ a (h.ok a ha), h.error⟩

theorem mono_error {E' : ε → Prop} (h : Outcome x E Q) (hE : ∀ e, E e → E' e) : Outcome x E' Q :=
  ⟨h.ok, fun e he => hE e (h.error e he)⟩

/-- A loop over a list. -/
theorem foldlM {γ : Type v} {f : α → γ → Except ε α} (hf : ∀ a c, Q a → Outcome (f a c) E Q) :
    ∀ (l : List γ) {a : α}, Q a → Outcome (l.foldlM f a) E Q
  | [], _, ha => ret ha
  | c :: l, a, ha => by
    rw [List.foldlM_cons]
    exact (hf a c ha).bind fun b hb => foldlM hf l hb

end Outcome

/-- If it returns, then with `Q`. -/
def Returns (x : Except ε α) (Q : α → Prop) : Prop := ∀ a, x = .ok a → Q a

@[simp] theorem returns_ok (a : α) : Returns (.ok a : Except ε α) Q ↔ Q a := by
  simp [Returns]

@[simp] theorem returns_error (e : ε) : Returns (.error e : Except ε α) Q := by
  simp [Returns]

theorem returns_bind (x : Except ε α) (f : α → Except ε β) :
    Returns (x >>= f) P ↔ Returns x fun a => Returns (f a) P := by
  cases x with
  | error e =>
    show Returns (.error e) P ↔ _
    simp
  | ok a =>
    show Returns (f a) P ↔ _
    simp

theorem returns_map (x : Except ε α) (f : α → β) : Returns (x.map f) P ↔ Returns x fun a => P (f a) := by
  cases x <;> simp [Except.map]

theorem Returns.congr (h : ∀ a, x = .ok a → (Q a ↔ Q' a)) : Returns x Q ↔ Returns x Q' :=
  forall_congr' fun a => imp_congr_right (h a)

/-- The second does what the first does, seen through `T`, and `P` holds of what the first returns. -/
structure Mirrors {β : Type v} (T : α → β) (Q : α → Prop) (x : Except ε α) (y : Except ε β) : Prop where
  eq : y = x.map T
  holds : ∀ a, x = .ok a → Q a

namespace Mirrors

variable {γ δ : Type v} {T : α → β} {T' : γ → δ} {P' : γ → Prop} {y : Except ε β}

theorem ret {a : α} (h : Q a) : Mirrors T Q (.ok a : Except ε α) (.ok (T a)) := by
  refine ⟨rfl, ?_⟩
  rintro _ ⟨⟩
  exact h

theorem stop {e : ε} : Mirrors T Q (.error e) (.error e) := by
  refine ⟨rfl, ?_⟩
  rintro _ ⟨⟩

theorem bind {f : α → Except ε γ} {g : β → Except ε δ} (h : Mirrors T Q x y)
    (hf : ∀ a, x = .ok a → Q a → Mirrors T' P' (f a) (g (T a))) : Mirrors T' P' (x >>= f) (y >>= g) := by
  obtain rfl := h.eq
  cases x with
  | error e => exact stop
  | ok a => exact hf a rfl (h.holds a rfl)

theorem mono (h : Mirrors T Q x y) (hQ : ∀ a, Q a → Q' a) : Mirrors T Q' x y :=
  ⟨h.eq, fun a ha => hQ a (h.holds a ha)⟩

theorem map {f : α → γ} {g : β → δ} (h : Mirrors T Q x y)
    (hT : ∀ a, T' (f a) = g (T a)) (hP : ∀ a, Q a → P' (f a)) : Mirrors T' P' (x.map f) (y.map g) := by
  obtain rfl := h.eq
  cases x with
  | error e => exact stop
  | ok a =>
    have := ret (T := T') (hP a (h.holds a rfl)) (ε := ε)
    rwa [hT] at this

end Mirrors
