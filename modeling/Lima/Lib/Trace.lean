import Mathlib

/-!
# Traces that follow a protocol

A trace lists events, the newest first. A protocol says which event may follow a
trace; a trace follows it when each of its events could follow those before it.
The rules here turn what a protocol demands of one event into what holds of a whole
trace: what an event presupposes has happened, what it excludes has not, and what
excludes itself happens once.
-/

namespace Trace

variable {E : Type*} {ok : List E → E → Prop}

/-- Every event of the trace could follow the events before it. -/
def Follows (ok : List E → E → Prop) : List E → Prop
  | [] => True
  | e :: pre => ok pre e ∧ Follows ok pre

/-- An event at any place of the trace could follow what is before it. -/
theorem Follows.split {post pre : List E} {e : E} (h : Follows ok (post ++ e :: pre)) :
    ok pre e := by
  induction post with
  | nil => exact h.1
  | cons x post ih => exact ih h.2

/-- What an event presupposes is in a trace that has the event. -/
theorem Follows.presupposed {tr : List E} {x : E} {P : List E → Prop} (h : Follows ok tr)
    (hP : ∀ pre, ok pre x → P pre) (hmono : ∀ e pre, P pre → P (e :: pre)) (hx : x ∈ tr) :
    P tr := by
  induction tr with
  | nil => cases hx
  | cons e pre ih =>
      rcases List.mem_cons.mp hx with rfl | hx
      · exact hmono _ _ (hP pre h.1)
      · exact hmono _ _ (ih h.2 hx)

/-- An event that one event excludes does not come after it. -/
theorem Follows.excluded {post pre : List E} {e x : E} (h : Follows ok (post ++ e :: pre))
    (hx : ∀ pre, ok pre x → e ∉ pre) : x ∉ post := by
  induction post with
  | nil => exact List.not_mem_nil
  | cons y post ih =>
      rw [List.mem_cons, not_or]
      refine ⟨?_, ih h.2⟩
      rintro rfl
      exact hx _ h.1 (List.mem_append_right _ List.mem_cons_self)

/-- An event that excludes itself happens at most once. -/
theorem Follows.count_le_one [DecidableEq E] {tr : List E} {e : E} (h : Follows ok tr)
    (he : ∀ pre, ok pre e → e ∉ pre) : tr.count e ≤ 1 := by
  induction tr with
  | nil => simp
  | cons x pre ih =>
      by_cases hx : x = e
      · subst hx
        rw [List.count_cons_self, List.count_eq_zero_of_not_mem (he pre h.1)]
      · rw [List.count_cons_of_ne hx]
        exact ih h.2

end Trace
