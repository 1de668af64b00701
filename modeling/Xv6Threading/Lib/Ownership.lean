import Mathlib.Data.Set.Basic

/-!
# Resources split between a free list and places

An allocator hands out the resources of a set `U` from a free list; what is out stands at some
place. `Split U free loc` says that each resource of `U` is in exactly one spot: once in the free
list, or at one place. Allocating, freeing and moving a resource keep it.
-/

universe u v w

/-- `loc x` is what stands at place `x`. -/
structure Split {F : Type u} {X : Type v} (U : Set F) (free : List F) (loc : X → Option F) : Prop where
  nodup : free.Nodup
  apart : ∀ x f, loc x = some f → f ∉ free
  inj : ∀ x y f, loc x = some f → loc y = some f → x = y
  mem : ∀ f, f ∈ U ↔ f ∈ free ∨ ∃ x, loc x = some f

namespace Split

open Function

variable {F : Type u} {X : Type v} {Y : Type w} {U : Set F} {free : List F} {loc : X → Option F}

section

variable (h : Split U free loc)
include h

theorem mem_of_loc {x : X} {f : F} (hx : loc x = some f) : f ∈ U :=
  (h.mem f).2 (.inr ⟨x, hx⟩)

/-- What stands at the places says which resources are free. -/
theorem perm {free' : List F} (h' : Split U free' loc) : free'.Perm free := by
  have hmem : ∀ {l : List F}, Split U l loc → ∀ f, f ∈ l ↔ f ∈ U ∧ ∀ x, loc x ≠ some f := by
    intro l hl f
    refine ⟨fun hf => ⟨(hl.mem f).2 (.inl hf), fun x hx => hl.apart x f hx hf⟩, ?_⟩
    rintro ⟨hU, hno⟩
    exact ((hl.mem f).1 hU).resolve_right fun ⟨x, hx⟩ => hno x hx
  exact (List.perm_ext_iff_of_nodup h'.nodup h.nodup).2 fun f => (hmem h' f).trans (hmem h f).symm

/-- The places may be embedded among others, where nothing stands. -/
theorem embed {loc' : Y → Option F} (e : X → Y) (he : ∀ x, loc' (e x) = loc x)
    (hr : ∀ y f, loc' y = some f → ∃ x, e x = y) : Split U free loc' := by
  have hb : ∀ y f, loc' y = some f → ∃ x, e x = y ∧ loc x = some f := by
    intro y f hy
    obtain ⟨x, rfl⟩ := hr y f hy
    exact ⟨x, rfl, he x ▸ hy⟩
  refine ⟨h.nodup, ?_, ?_, ?_⟩
  · intro y f hy
    obtain ⟨x, -, hx⟩ := hb y f hy
    exact h.apart x f hx
  · intro y z f hy hz
    obtain ⟨x, rfl, hx⟩ := hb y f hy
    obtain ⟨x', rfl, hx'⟩ := hb z f hz
    rw [h.inj x x' f hx hx']
  intro f
  rw [h.mem]
  refine or_congr_right ⟨fun ⟨x, hx⟩ => ⟨e x, (he x).trans hx⟩, ?_⟩
  rintro ⟨y, hy⟩
  obtain ⟨x, -, hx⟩ := hb y f hy
  exact ⟨x, hx⟩

/-- Places where nothing stands may be dropped. -/
theorem restrict {loc' : Y → Option F} (e : Y → X) (hinj : Injective e)
    (he : ∀ y, loc' y = loc (e y)) (hr : ∀ x f, loc x = some f → ∃ y, e y = x) : Split U free loc' := by
  refine ⟨h.nodup, fun y f hy => h.apart (e y) f (he y ▸ hy), ?_, ?_⟩
  · intro y z f hy hz
    exact hinj (h.inj _ _ f (he y ▸ hy) (he z ▸ hz))
  intro f
  rw [h.mem]
  refine or_congr_right ⟨?_, fun ⟨y, hy⟩ => ⟨e y, he y ▸ hy⟩⟩
  rintro ⟨x, hx⟩
  obtain ⟨y, rfl⟩ := hr x f hx
  exact ⟨y, (he y).trans hx⟩

end

variable [DecidableEq X]

/-- The head of the free list goes to an empty place. -/
theorem take {f : F} (h : Split U (f :: free) loc) {x : X} (hx : loc x = none) :
    Split U free (update loc x (some f)) := by
  obtain ⟨hf, hnd⟩ := List.nodup_cons.1 h.nodup
  have hne : ∀ y, loc y ≠ some f := fun y hy => h.apart y f hy (by simp)
  refine ⟨hnd, ?_, ?_, ?_⟩
  · intro y g hy
    rw [update_apply] at hy
    split at hy
    · cases hy
      exact hf
    · exact fun hg => h.apart y g hy (by simp [hg])
  · intro y z g hy hz
    rw [update_apply] at hy hz
    split at hy <;> split at hz
    · simp_all
    · cases hy
      exact absurd hz (hne z)
    · cases hz
      exact absurd hy (hne y)
    · exact h.inj y z g hy hz
  intro g
  rw [h.mem, List.mem_cons, or_assoc]
  constructor
  · rintro (rfl | hg | ⟨y, hy⟩)
    · exact .inr ⟨x, by simp⟩
    · exact .inl hg
    · have : y ≠ x := by
        rintro rfl
        simp [hx] at hy
      exact .inr ⟨y, by simp [this, hy]⟩
  rintro (hg | ⟨y, hy⟩)
  · exact .inr (.inl hg)
  · rw [update_apply] at hy
    split at hy
    · exact .inl (Option.some.inj hy).symm
    · exact .inr (.inr ⟨y, hy⟩)

/-- What stands at a place is put back on the free list. -/
theorem give (h : Split U free loc) {x : X} {f : F} (hx : loc x = some f) :
    Split U (f :: free) (update loc x none) := by
  refine ⟨List.nodup_cons.2 ⟨h.apart x f hx, h.nodup⟩, ?_, ?_, ?_⟩
  · intro y g hy
    rw [update_apply] at hy
    split at hy
    · cases hy
    rename_i hyx
    rw [List.mem_cons, not_or]
    refine ⟨?_, h.apart y g hy⟩
    rintro rfl
    exact hyx (h.inj y x g hy hx)
  · intro y z g hy hz
    rw [update_apply] at hy hz
    split at hy
    · cases hy
    · split at hz
      · cases hz
      · exact h.inj y z g hy hz
  intro g
  rw [h.mem, List.mem_cons, or_assoc]
  constructor
  · rintro (hg | ⟨y, hy⟩)
    · exact .inr (.inl hg)
    · by_cases e : y = x
      · subst e
        exact .inl (Option.some.inj (hy.symm.trans hx))
      · exact .inr (.inr ⟨y, by simp [e, hy]⟩)
  rintro (rfl | hg | ⟨y, hy⟩)
  · exact .inr ⟨x, hx⟩
  · exact .inl hg
  · rw [update_apply] at hy
    split at hy
    · cases hy
    · exact .inr ⟨y, hy⟩

/-- A resource changes its place. -/
theorem move (h : Split U free loc) {x y : X} {f : F} (hx : loc x = some f) (hy : loc y = none) :
    Split U free (update (update loc x none) y (some f)) := by
  have hyx : y ≠ x := by
    rintro rfl
    simp [hx] at hy
  exact (h.give hx).take (by simp [hyx, hy])

end Split
