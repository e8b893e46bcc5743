import Mathlib.Order.Nat
import Mathlib.Data.List.Basic
import Mathlib.Logic.Function.Basic

/-!
# Reservation objects

The users of a shared object leave their fences on it, each with the use it stands for, and a
new user waits for those whose use conflicts with its own. An implementation may drop a
fence that is signalled, and may put a new one in the place of a fence of the same context
whose use it includes: contexts are ordered, so whoever waits for the new fence has waited for
the old one. What stays true of a fence is that it is *covered*. Of the dependencies of a
context it is enough to keep the latest in the same way.
-/

namespace Resv

variable {F C U : Type*}

/-- What adding a fence does: it is there; nothing else is new; and what has gone was
signalled, or of the context of the new fence and for a use that this one includes. -/
structure Impl (F C U : Type*) [LE U] where
  add : (F → C) → (F → Bool) → List (F × U) → F → U → List (F × U)
  added : ∀ ctx done l f u, (f, u) ∈ add ctx done l f u
  only : ∀ ctx done l f u x, x ∈ add ctx done l f u → x = (f, u) ∨ x ∈ l
  kept : ∀ ctx done l f u x, x ∈ l → x ∈ add ctx done l f u ∨ done x.1 = true ∨
    ctx x.1 = ctx f ∧ u ≤ x.2

/-- A fence for use `u` is on the object, or a later one of its context for a use that
includes `u`. -/
def Covered [LE U] (later : F → F → Prop) (l : List (F × U)) (f : F) (u : U) : Prop :=
  ∃ x ∈ l, x.2 ≤ u ∧ (x.1 = f ∨ later f x.1)

/-- The fences that a user waits for who gets along with the uses beyond `u`. -/
def upTo [LE U] [DecidableRel (α := U) (· ≤ ·)] (u : U) (l : List (F × U)) : List F :=
  (l.filter fun x => decide (x.2 ≤ u)).map Prod.fst

theorem mem_upTo [LE U] [DecidableRel (α := U) (· ≤ ·)] {u : U} {l : List (F × U)} {f : F} :
    f ∈ upTo u l ↔ ∃ v, (f, v) ∈ l ∧ v ≤ u := by
  simp [upTo]

section Cover

variable [Preorder U] {later : F → F → Prop} {l : List (F × U)} {f g : F} {u v : U}

/-- Who waits for the uses up to `v` waits for every fence covered for one of them. -/
theorem Covered.waits [DecidableRel (α := U) (· ≤ ·)] (h : Covered later l f u) (huv : u ≤ v) :
    ∃ g ∈ upTo v l, g = f ∨ later f g := by
  obtain ⟨⟨g, w⟩, hmem, hle, hg⟩ := h
  exact ⟨g, mem_upTo.mpr ⟨w, hmem, le_trans hle huv⟩, hg⟩

theorem Covered.mono {later' : F → F → Prop} (h : Covered later l f u)
    (hlater : ∀ g, later f g → later' f g) : Covered later' l f u := by
  obtain ⟨x, hmem, hle, hx⟩ := h
  exact ⟨x, hmem, hle, hx.imp_right (hlater x.1)⟩

variable (I : Impl F C U) {ctx : F → C} {done : F → Bool}

/-- **A fence that is covered stays covered** when another is added, unless what covers it is
signalled; the new fence comes after those of its context. -/
theorem Covered.add (h : Covered later l f u)
    (hlive : ∀ e, e = f ∨ later f e → done e = false)
    (hlater : ∀ e, ctx e = ctx g → e = f ∨ later f e → g = f ∨ later f g) :
    Covered later (I.add ctx done l g v) f u := by
  obtain ⟨x, hmem, hle, hx⟩ := h
  obtain hstays | hdone | ⟨hctx, hvu⟩ := I.kept ctx done l g v x hmem
  · exact ⟨x, hstays, hle, hx⟩
  · rw [hlive x.1 hx] at hdone
    cases hdone
  · exact ⟨(g, v), I.added ctx done l g v, le_trans hvu hle, hlater x.1 hctx hx⟩

theorem covered_added : Covered later (I.add ctx done l f u) f u :=
  ⟨(f, u), I.added ctx done l f u, le_rfl, .inl rfl⟩

variable [DecidableEq B]

/-- The fence `g` goes on all objects of a list. -/
def addAll (ctx : F → C) (done : F → Bool) (g : F) :
    List (B × U) → (B → List (F × U)) → B → List (F × U)
  | [], resv => resv
  | x :: xs, resv =>
      addAll ctx done g xs (Function.update resv x.1 (I.add ctx done (resv x.1) g x.2))

variable {I} {resv : B → List (F × U)} {leaves : List (B × U)} {b : B}

theorem mem_addAll {x : F × U} (h : x ∈ addAll I ctx done g leaves resv b) :
    x ∈ resv b ∨ x.1 = g ∧ (b, x.2) ∈ leaves := by
  induction leaves generalizing resv with
  | nil => exact .inl h
  | cons y ys ih =>
      rcases ih h with hx | ⟨hx, hmem⟩
      · by_cases hb : b = y.1
        · subst hb
          rw [Function.update_self] at hx
          rcases I.only ctx done _ g y.2 x hx with rfl | hx
          · exact .inr ⟨rfl, List.mem_cons_self⟩
          · exact .inl hx
        · rw [Function.update_of_ne hb] at hx
          exact .inl hx
      · exact .inr ⟨hx, List.mem_cons_of_mem _ hmem⟩

theorem Covered.addAll (h : Covered later (resv b) f u)
    (hlive : ∀ e, e = f ∨ later f e → done e = false)
    (hlater : ∀ e, ctx e = ctx g → e = f ∨ later f e → g = f ∨ later f g) :
    Covered later (addAll I ctx done g leaves resv b) f u := by
  induction leaves generalizing resv with
  | nil => exact h
  | cons y ys ih =>
      refine ih ?_
      by_cases hb : b = y.1
      · subst hb
        rw [Function.update_self]
        exact h.add I hlive hlater
      · rwa [Function.update_of_ne hb]

/-- The new fence is covered wherever it was put. -/
theorem covered_addAll (hmem : (b, u) ∈ leaves) (hlive : ∀ e, e = g ∨ later g e → done e = false) :
    Covered later (Resv.addAll I ctx done g leaves resv b) g u := by
  induction leaves generalizing resv with
  | nil => cases hmem
  | cons y ys ih =>
      rcases List.mem_cons.mp hmem with rfl | htail
      · rw [Resv.addAll]
        refine Covered.addAll ?_ hlive fun _ _ _ => .inl rfl
        rw [Function.update_self]
        exact covered_added I
      · exact ih htail

end Cover

/-! ## Dependencies -/

/-- What adding a dependency does: it may go when it is of the context of another one and not
later. -/
structure Deps (F C : Type*) where
  add : (F → C) → (F → ℕ) → List F → F → List F
  only : ∀ ctx seq l f g, g ∈ add ctx seq l f → g = f ∨ g ∈ l
  kept : ∀ ctx seq l f g, g = f ∨ g ∈ l → ∃ e ∈ add ctx seq l f, ctx e = ctx g ∧ seq g ≤ seq e

/-- Among the dependencies is the fence, or one of its context that is not earlier. -/
def Awaited (ctx : F → C) (seq : F → ℕ) (l : List F) (f : F) : Prop :=
  ∃ e ∈ l, ctx e = ctx f ∧ seq f ≤ seq e

section Depend

variable (D : Deps F C) {ctx : F → C} {seq : F → ℕ} {l fs : List F} {f g : F}

theorem Awaited.add (h : g = f ∨ Awaited ctx seq l g) : Awaited ctx seq (D.add ctx seq l f) g := by
  rcases h with rfl | ⟨e, hmem, hctx, hseq⟩
  · exact D.kept ctx seq l g g (.inl rfl)
  · obtain ⟨e', hmem', hctx', hseq'⟩ := D.kept ctx seq l f e (.inr hmem)
    exact ⟨e', hmem', hctx'.trans hctx, hseq.trans hseq'⟩

theorem Awaited.foldl (h : g ∈ fs ∨ Awaited ctx seq l g) :
    Awaited ctx seq (fs.foldl (D.add ctx seq) l) g := by
  induction fs generalizing l with
  | nil => exact h.resolve_left (by simp)
  | cons f fs ih =>
      refine ih ?_
      rcases h with hmem | h
      · rcases List.mem_cons.mp hmem with rfl | hmem
        · exact .inr (.add D (.inl rfl))
        · exact .inl hmem
      · exact .inr (.add D (.inr h))

theorem mem_foldl_add (h : g ∈ fs.foldl (D.add ctx seq) l) : g ∈ fs ∨ g ∈ l := by
  induction fs generalizing l with
  | nil => exact .inr h
  | cons f fs ih =>
      rcases ih h with hmem | hmem
      · exact .inl (List.mem_cons_of_mem _ hmem)
      · rcases D.only ctx seq l f g hmem with rfl | hmem
        · exact .inl List.mem_cons_self
        · exact .inr hmem

variable [LE U] [DecidableRel (α := U) (· ≤ ·)]

/-- The dependencies on the fences of a list of objects. -/
def awaitAll (ctx : F → C) (seq : F → ℕ) (resv : B → List (F × U)) :
    List (B × U) → List F → List F
  | [], deps => deps
  | x :: xs, deps => awaitAll ctx seq resv xs ((upTo x.2 (resv x.1)).foldl (D.add ctx seq) deps)

variable {resv : B → List (F × U)} {awaits : List (B × U)}

theorem Awaited.awaitAll (h : (∃ x ∈ awaits, g ∈ upTo x.2 (resv x.1)) ∨ Awaited ctx seq l g) :
    Awaited ctx seq (awaitAll D ctx seq resv awaits l) g := by
  induction awaits generalizing l with
  | nil =>
      refine h.resolve_left ?_
      rintro ⟨x, hmem, -⟩
      cases hmem
  | cons y ys ih =>
      refine ih ?_
      rcases h with ⟨x, hmem, hg⟩ | h
      · rcases List.mem_cons.mp hmem with rfl | hmem
        · exact .inr (.foldl D (.inl hg))
        · exact .inl ⟨x, hmem, hg⟩
      · exact .inr (.foldl D (.inr h))

theorem mem_awaitAll (h : g ∈ Resv.awaitAll D ctx seq resv awaits l) :
    (∃ x ∈ awaits, g ∈ upTo x.2 (resv x.1)) ∨ g ∈ l := by
  induction awaits generalizing l with
  | nil => exact .inr h
  | cons y ys ih =>
      rcases ih h with ⟨x, hmem, hg⟩ | hmem
      · exact .inl ⟨x, List.mem_cons_of_mem _ hmem, hg⟩
      · rcases mem_foldl_add D hmem with hg | hmem
        · exact .inl ⟨y, List.mem_cons_self, hg⟩
        · exact .inr hmem

end Depend

/-! ## The slots of a list -/

section Slots

variable [DecidableEq C] [LE U] [DecidableRel (α := U) (· ≤ ·)] (ctx : F → C) (done : F → Bool)

/-- The new fence takes the first slot whose fence is signalled or superseded, or a new one. -/
def slotAdd : List (F × U) → F → U → List (F × U)
  | [], f, u => [(f, u)]
  | x :: xs, f, u =>
      if ctx x.1 = ctx f ∧ u ≤ x.2 ∨ done x.1 = true then (f, u) :: xs
      else x :: slotAdd xs f u

theorem slotAdd_added (l : List (F × U)) (f : F) (u : U) :
    (f, u) ∈ slotAdd ctx done l f u := by
  induction l with
  | nil => simp [slotAdd]
  | cons x xs ih =>
      rw [slotAdd]
      split
      · exact List.mem_cons_self
      · exact List.mem_cons_of_mem _ ih

theorem slotAdd_only {l : List (F × U)} {f : F} {u : U} {x : F × U}
    (h : x ∈ slotAdd ctx done l f u) : x = (f, u) ∨ x ∈ l := by
  induction l with
  | nil => exact .inl (by simpa [slotAdd] using h)
  | cons y ys ih =>
      rw [slotAdd] at h
      split at h
      · exact (List.mem_cons.mp h).imp_right (List.mem_cons_of_mem _)
      · rcases List.mem_cons.mp h with rfl | hys
        · exact .inr List.mem_cons_self
        · exact (ih hys).imp_right (List.mem_cons_of_mem _)

theorem slotAdd_kept {l : List (F × U)} {f : F} {u : U} {x : F × U} (h : x ∈ l) :
    x ∈ slotAdd ctx done l f u ∨ done x.1 = true ∨ ctx x.1 = ctx f ∧ u ≤ x.2 := by
  induction l with
  | nil => cases h
  | cons y ys ih =>
      rw [slotAdd]
      split
      · rename_i hslot
        rcases List.mem_cons.mp h with rfl | hys
        · exact .inr hslot.symm
        · exact .inl (List.mem_cons_of_mem _ hys)
      · rcases List.mem_cons.mp h with rfl | hys
        · exact .inl List.mem_cons_self
        · exact (ih hys).imp_left (List.mem_cons_of_mem _)

end Slots

section Latest

variable [DecidableEq C] (ctx : F → C) (seq : F → ℕ)

/-- Of the dependencies of a context the latest is kept. -/
def latestAdd : List F → F → List F
  | [], f => [f]
  | g :: gs, f =>
      if ctx g = ctx f then (if seq g < seq f then f else g) :: gs else g :: latestAdd gs f

theorem latestAdd_only {l : List F} {f g : F} (h : g ∈ latestAdd ctx seq l f) :
    g = f ∨ g ∈ l := by
  induction l with
  | nil => exact .inl (by simpa [latestAdd] using h)
  | cons e es ih =>
      rw [latestAdd] at h
      split at h
      · rcases List.mem_cons.mp h with rfl | hes
        · split
          · exact .inl rfl
          · exact .inr List.mem_cons_self
        · exact .inr (List.mem_cons_of_mem _ hes)
      · rcases List.mem_cons.mp h with rfl | hes
        · exact .inr List.mem_cons_self
        · exact (ih hes).imp_right (List.mem_cons_of_mem _)

theorem latestAdd_kept {l : List F} {f g : F} (h : g = f ∨ g ∈ l) :
    ∃ e ∈ latestAdd ctx seq l f, ctx e = ctx g ∧ seq g ≤ seq e := by
  induction l with
  | nil =>
      obtain rfl := h.resolve_right (by simp)
      exact ⟨g, by simp [latestAdd], rfl, le_rfl⟩
  | cons x xs ih =>
      rw [latestAdd]
      split
      · rename_i hctx
        rcases h with rfl | hmem
        · refine ⟨_, List.mem_cons_self, ?_⟩
          split
          · exact ⟨rfl, le_rfl⟩
          · exact ⟨hctx, by omega⟩
        · rcases List.mem_cons.mp hmem with rfl | hxs
          · refine ⟨_, List.mem_cons_self, ?_⟩
            split
            · exact ⟨hctx.symm, by omega⟩
            · exact ⟨rfl, le_rfl⟩
          · exact ⟨g, List.mem_cons_of_mem _ hxs, rfl, le_rfl⟩
      · rcases h with rfl | hmem
        · obtain ⟨e, hmem, he⟩ := ih (.inl rfl)
          exact ⟨e, List.mem_cons_of_mem _ hmem, he⟩
        · rcases List.mem_cons.mp hmem with rfl | hxs
          · exact ⟨g, List.mem_cons_self, rfl, le_rfl⟩
          · obtain ⟨e, hmem, he⟩ := ih (.inr hxs)
            exact ⟨e, List.mem_cons_of_mem _ hmem, he⟩

end Latest

/-- Reservation objects as lists of slots. -/
def slots (F C U : Type*) [DecidableEq C] [LE U] [DecidableRel (α := U) (· ≤ ·)] :
    Impl F C U where
  add := slotAdd
  added := slotAdd_added
  only ctx done _ _ _ _ h := slotAdd_only ctx done h
  kept ctx done _ _ _ _ h := slotAdd_kept ctx done h

/-- Dependencies of which each context has one. -/
def latest (F C : Type*) [DecidableEq C] : Deps F C where
  add := latestAdd
  only ctx seq _ _ _ h := latestAdd_only ctx seq h
  kept ctx seq _ _ _ h := latestAdd_kept ctx seq h

end Resv
