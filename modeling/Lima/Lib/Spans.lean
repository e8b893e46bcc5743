import Mathlib

/-!
# Families of disjoint spans

An allocator hands out spans of addresses that do not overlap. A family assigns
to each name the span it holds, if any. The rules say how disjointness survives
handing out fresh spans and taking spans back, and that an address has at most
one owner; the last section reads an address through a list of owners.
-/

namespace Spans

/-- The addresses from `start` on, `size` of them. -/
structure Span where
  start : ℕ
  size : ℕ
deriving DecidableEq, Repr

def Span.Has (s : Span) (a : ℕ) : Prop := s.start ≤ a ∧ a < s.start + s.size

/-- The spans do not overlap. -/
def Span.Apart (s t : Span) : Prop :=
  s.start + s.size ≤ t.start ∨ t.start + t.size ≤ s.start

instance (s : Span) (a : ℕ) : Decidable (s.Has a) :=
  inferInstanceAs (Decidable (_ ∧ _))

instance (s t : Span) : Decidable (s.Apart t) :=
  inferInstanceAs (Decidable (_ ∨ _))

theorem Span.Apart.symm {s t : Span} (h : s.Apart t) : t.Apart s := Or.symm h

theorem Span.Apart.not_has {s t : Span} (h : s.Apart t) {a : ℕ} (ha : s.Has a) :
    ¬ t.Has a := by
  rintro ⟨h1, h2⟩
  obtain ⟨h3, h4⟩ := ha
  rcases h with h | h <;> omega

/-! ## Families -/

variable {κ : Type*} {f f' : κ → Option Span}

/-- Different names hold spans that do not overlap. -/
def PairwiseApart (f : κ → Option Span) : Prop :=
  ∀ ⦃i j s t⦄, f i = some s → f j = some t → i ≠ j → s.Apart t

theorem pairwiseApart_none : PairwiseApart fun _ : κ => none := by
  rintro i j s t ⟨⟩

/-- An address has one owner. -/
theorem PairwiseApart.owner_unique (hf : PairwiseApart f) {i j : κ} {s t : Span}
    {a : ℕ} (hi : f i = some s) (hj : f j = some t) (hs : s.Has a) (ht : t.Has a) :
    i = j := by
  by_contra hne
  exact (hf hi hj hne).not_has hs ht

/-- Handing out spans `g` that are fresh. -/
theorem PairwiseApart.extend (hf : PairwiseApart f) (g : κ → Option Span)
    (hstep : ∀ i, f' i = f i ∨ f i = none ∧ f' i = g i) (hg : PairwiseApart g)
    (hfresh : ∀ ⦃i j s t⦄, f i = some s → g j = some t → s.Apart t) :
    PairwiseApart f' := by
  intro i j s t hi hj hne
  rcases hstep i with h | ⟨-, h⟩ <;> rcases hstep j with h' | ⟨-, h'⟩ <;>
    rw [h] at hi <;> rw [h'] at hj
  · exact hf hi hj hne
  · exact hfresh hi hj
  · exact (hfresh hj hi).symm
  · exact hg hi hj hne

/-- Taking spans back. -/
theorem PairwiseApart.shrink (hf : PairwiseApart f)
    (hstep : ∀ i, f' i = f i ∨ f' i = none) : PairwiseApart f' := by
  intro i j s t hi hj hne
  rcases hstep i with h | h <;> rcases hstep j with h' | h' <;>
    rw [h] at hi <;> rw [h'] at hj
  · exact hf hi hj hne
  · cases hj
  · cases hi
  · cases hi

/-- Handing out one fresh span. -/
theorem PairwiseApart.update [DecidableEq κ] (hf : PairwiseApart f) {i : κ}
    {s : Span} (hfresh : ∀ ⦃j t⦄, f j = some t → j ≠ i → t.Apart s) :
    PairwiseApart (Function.update f i (some s)) := by
  intro j k t u hj hk hne
  by_cases hji : j = i
  · subst hji
    rw [Function.update_self] at hj
    rw [Function.update_of_ne (Ne.symm hne)] at hk
    obtain rfl := Option.some.inj hj
    exact (hfresh hk (Ne.symm hne)).symm
  · rw [Function.update_of_ne hji] at hj
    by_cases hki : k = i
    · subst hki
      rw [Function.update_self] at hk
      obtain rfl := Option.some.inj hk
      exact hfresh hj hji
    · rw [Function.update_of_ne hki] at hk
      exact hf hj hk hne

/-! ## Reading through a list of owners -/

/-- A search all of whose hits agree returns what they agree on. -/
theorem findSome?_eq_some_of_agree {α β : Type*} {l : List α} {read : α → Option β}
    {x : α} {y : β} (hx : x ∈ l) (hread : read x = some y)
    (hagree : ∀ z ∈ l, ∀ w, read z = some w → w = y) :
    l.findSome? read = some y := by
  cases h : l.findSome? read with
  | none =>
      rw [List.findSome?_eq_none_iff.mp h x hx] at hread
      cases hread
  | some w =>
      obtain ⟨z, hz, hw⟩ := List.exists_of_findSome?_eq_some h
      rw [hagree z hz w hw]

end Spans
