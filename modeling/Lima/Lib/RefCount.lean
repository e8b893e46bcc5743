import Mathlib

/-!
# Reference counts and their users

A resource is released when its count would fall to zero. `Balanced` says that the
stored count is the number of users somebody else counts, and that the resource has
been released once exactly if nobody uses it. A reference that one user drops and
another takes keeps the balance as long as the number of users follows; the number of
users is a sum over holders, of which a step changes one.
-/

namespace RefCount

variable {R : Type*} [DecidableEq R] {count count' : R → Option ℕ} {released released' : List R}

/-- A put of `a`, if there is one: the last reference releases the resource. -/
def Drops (count count' : R → Option ℕ) (released released' : List R) : Option R → Prop
  | none => count' = count ∧ released' = released
  | some a => ∃ n, count a = some n ∧
      count' = Function.update count a (if n = 1 then none else some (n - 1)) ∧
      released' = if n = 1 then a :: released else released

/-- A get of `b`, if there is one. -/
def Takes (count count' : R → Option ℕ) : Option R → Prop
  | none => count' = count
  | some b => ∃ n, count b = some n ∧ count' = Function.update count b (some (n + 1))

/-- The count of `r` is `n` if it has users, and `r` is released once if it has none. -/
structure Balanced (count : R → Option ℕ) (released : List R) (r : R) (n : ℕ) : Prop where
  count : count r = if n = 0 then none else some n
  released : released.count r = if n = 0 then 1 else 0

/-- One reference to `a`, as a number of users of `r`. -/
def one (a : Option R) (r : R) : ℕ := if a = some r then 1 else 0

@[simp] theorem one_none (r : R) : one none r = 0 := rfl

@[simp] theorem one_self (r : R) : one (some r) r = 1 := if_pos rfl

theorem one_of_ne {a : Option R} {r : R} (h : a ≠ some r) : one a r = 0 := if_neg h

theorem Drops.mem_released {a : Option R} (h : Drops count count' released released' a) {r : R}
    (hr : r ∈ released') : r ∈ released ∨ a = some r := by
  cases a with
  | none =>
      obtain ⟨-, rfl⟩ := h
      exact .inl hr
  | some a =>
      obtain ⟨n, -, -, rfl⟩ := h
      split at hr
      · rcases List.mem_cons.mp hr with rfl | hr
        · exact .inr rfl
        · exact .inl hr
      · exact .inl hr

namespace Balanced

variable {r : R} {n m : ℕ}

theorem eq_of_count {k : ℕ} (h : Balanced count released r n) (hr : count r = some k) :
    n = k ∧ n ≠ 0 := by
  have hc := h.count
  rw [hr] at hc
  split at hc
  · cases hc
  · rename_i hn
    exact ⟨(Option.some.inj hc).symm, hn⟩

theorem drop (h : Balanced count released r n) {a : Option R}
    (hd : Drops count count' released released' a) (hm : m + one a r = n) :
    Balanced count' released' r m := by
  cases a with
  | none =>
      obtain ⟨rfl, rfl⟩ := hd
      obtain rfl : m = n := by simpa using hm
      exact h
  | some a =>
      obtain ⟨k, hk, rfl, rfl⟩ := hd
      by_cases hr : a = r
      · subst hr
        obtain ⟨rfl, -⟩ := h.eq_of_count hk
        have hzero : released.count a = 0 := by
          rw [h.released, if_neg (h.eq_of_count hk).2]
        rw [one_self] at hm
        constructor
        · rw [Function.update_self]
          by_cases hn : n = 1
          · rw [if_pos hn, if_pos (by omega)]
          · rw [if_neg hn, if_neg (by omega)]
            congr 1
            omega
        · by_cases hn : n = 1
          · rw [if_pos hn, if_pos (by omega), List.count_cons_self, hzero]
          · rw [if_neg hn, if_neg (by omega), hzero]
      · have hne : some a ≠ some r := fun he => hr (Option.some.inj he)
        obtain rfl : m = n := by rwa [one_of_ne hne, add_zero] at hm
        constructor
        · rw [Function.update_of_ne (Ne.symm hr)]
          exact h.count
        · rw [← h.released]
          split
          · rw [List.count_cons_of_ne hr]
          · rfl

theorem take (h : Balanced count released r n) {b : Option R} (ht : Takes count count' b)
    (hm : m = n + one b r) : Balanced count' released r m := by
  cases b with
  | none =>
      obtain rfl : count' = count := ht
      obtain rfl : m = n := by simpa using hm
      exact h
  | some b =>
      obtain ⟨k, hk, rfl⟩ := ht
      by_cases hr : b = r
      · subst hr
        obtain ⟨rfl, hn⟩ := h.eq_of_count hk
        rw [one_self] at hm
        subst hm
        refine ⟨by simp, ?_⟩
        rw [h.released, if_neg hn, if_neg (Nat.succ_ne_zero _)]
      · have hne : some b ≠ some r := fun he => hr (Option.some.inj he)
        obtain rfl : m = n := by rwa [one_of_ne hne, add_zero] at hm
        refine ⟨?_, h.released⟩
        rw [Function.update_of_ne (Ne.symm hr)]
        exact h.count

/-- **One reference moves** from `a` to `b`, and the users follow. -/
theorem move (h : Balanced count released r n) {a b : Option R} {count₁ : R → Option ℕ}
    (hd : Drops count count₁ released released' a) (ht : Takes count₁ count' b)
    (hm : m + one a r = n + one b r) : Balanced count' released' r m := by
  have hle : one a r ≤ n := by
    by_cases ha : a = some r
    · subst ha
      obtain ⟨k, hk, -⟩ := hd
      have hn := (h.eq_of_count hk).2
      rw [one_self]
      omega
    · rw [one_of_ne ha]
      exact Nat.zero_le n
  have hmid : Balanced count₁ released' r (n - one a r) := h.drop hd (by omega)
  exact hmid.take ht (by omega)

/-- A resource that has been made is used once. -/
theorem fresh (hc : count r = some 1) (hr : r ∉ released) : Balanced count released r 1 :=
  ⟨hc, List.count_eq_zero_of_not_mem hr⟩

end Balanced

/-! ## Living resources -/

/-- The resource is there, and referenced. -/
def Alive (count : R → Option ℕ) (r : R) : Prop := ∃ n, 0 < n ∧ count r = some n

theorem Balanced.live {r : R} {n : ℕ} (h : Balanced count released r n) (hn : 0 < n) :
    Alive count r :=
  ⟨n, hn, h.count.trans (if_neg hn.ne')⟩

/-- Only the last put ends a resource. -/
theorem Drops.live {a : Option R} (h : Drops count count' released released' a) {r : R}
    (hr : Alive count r) (hlast : a = some r → count r ≠ some 1) : Alive count' r := by
  cases a with
  | none =>
      obtain ⟨rfl, -⟩ := h
      exact hr
  | some a =>
      obtain ⟨n, hn, hpos⟩ := hr
      obtain ⟨k, hk, rfl, -⟩ := h
      by_cases ha : a = r
      · subst ha
        obtain rfl : n = k := Option.some.inj (hpos.symm.trans hk)
        have hne : n ≠ 1 := fun h1 => hlast rfl (h1 ▸ hk)
        exact ⟨n - 1, by omega, by rw [Function.update_self, if_neg hne]⟩
      · exact ⟨n, hn, by rw [Function.update_of_ne (Ne.symm ha), hpos]⟩

theorem Drops.dead {r : R} (h : Drops count count' released released' (some r))
    (hone : count r = some 1) : count' r = none := by
  obtain ⟨k, hk, rfl, -⟩ := h
  obtain rfl : 1 = k := Option.some.inj (hone.symm.trans hk)
  rw [Function.update_self, if_pos rfl]

theorem Takes.live {b : Option R} (h : Takes count count' b) {r : R} (hr : Alive count r) :
    Alive count' r := by
  cases b with
  | none =>
      obtain rfl : count' = count := h
      exact hr
  | some b =>
      obtain ⟨n, hn, hpos⟩ := hr
      obtain ⟨k, hk, rfl⟩ := h
      by_cases hb : b = r
      · subst hb
        exact ⟨k + 1, Nat.succ_pos k, Function.update_self ..⟩
      · exact ⟨n, hn, by rw [Function.update_of_ne (Ne.symm hb), hpos]⟩

/-- What is released cannot be taken again. -/
theorem Takes.dead {b : Option R} (h : Takes count count' b) {r : R} (hr : count r = none) :
    count' r = none := by
  cases b with
  | none =>
      obtain rfl : count' = count := h
      exact hr
  | some b =>
      obtain ⟨k, hk, rfl⟩ := h
      have hne : r ≠ b := by
        rintro rfl
        rw [hr] at hk
        cases hk
      rw [Function.update_of_ne hne, hr]

/-! ## Counting holders -/

/-- What all holders have changes with what one of them has. -/
theorem sum_change {ι : Type*} [DecidableEq ι] {s : Finset ι} {i : ι} (hi : i ∈ s) {g g' : ι → ℕ}
    (h : ∀ j, j ≠ i → g' j = g j) :
    ∑ j ∈ s, g' j + g i = ∑ j ∈ s, g j + g' i := by
  have hrest : ∑ j ∈ s.erase i, g' j = ∑ j ∈ s.erase i, g j :=
    Finset.sum_congr rfl fun j hj => h j (Finset.ne_of_mem_erase hj)
  rw [← Finset.add_sum_erase s g' hi, ← Finset.add_sum_erase s g hi, hrest]
  omega

/-- How many of the holders `s` hold `r`. -/
def holders {ι : Type*} (s : Finset ι) (held : ι → Option R) (r : R) : ℕ :=
  (s.filter fun i => held i = some r).card

section Holders

variable {ι : Type*} {s : Finset ι} {held held' : ι → Option R} {r : R}

theorem holders_eq_sum : holders s held r = ∑ i ∈ s, one (held i) r :=
  Finset.card_filter ..

/-- A holder drops what it held and takes something else. -/
theorem holders_change [DecidableEq ι] {i : ι} (hi : i ∈ s) (h : ∀ j, j ≠ i → held' j = held j) :
    holders s held' r + one (held i) r = holders s held r + one (held' i) r := by
  have hone : ∀ j, j ≠ i → one (held' j) r = one (held j) r := fun j hj => by rw [h j hj]
  rw [holders_eq_sum, holders_eq_sum]
  exact sum_change (g := fun j => one (held j) r) hi hone

theorem holders_pos : 0 < holders s held r ↔ ∃ i ∈ s, held i = some r := by
  rw [holders, Finset.card_pos]
  constructor
  · rintro ⟨i, hi⟩
    exact ⟨i, (Finset.mem_filter.mp hi).1, (Finset.mem_filter.mp hi).2⟩
  · rintro ⟨i, hi, hr⟩
    exact ⟨i, Finset.mem_filter.mpr ⟨hi, hr⟩⟩

end Holders

end RefCount
