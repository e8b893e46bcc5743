import Mathlib

/-!
# Words, error codes and outcomes

The vocabulary shared by the models of the driver's functions: reduction to
32 bits, the errno values the driver returns, and the outcome of a call. A C
call does not only return: it can dereference a pointer that is `NULL` or
freed (`oops`), and a loop on wrapping addresses can fail to end (`hang`,
reported when the fuel given to the loop runs out).
-/

namespace Lima

/-- Reduction of a value stored in a `u32`. -/
def u32 (n : ℕ) : ℕ := n % 2 ^ 32

@[simp] theorem u32_lt (n : ℕ) : u32 n < 2 ^ 32 := Nat.mod_lt _ (by norm_num)

theorem u32_le (n : ℕ) : u32 n ≤ n := Nat.mod_le _ _

theorem u32_of_lt {n : ℕ} (h : n < 2 ^ 32) : u32 n = n := Nat.mod_eq_of_lt h

/-- The negative errno values returned by the modelled functions. -/
inductive Errno where
  | enoent | enomem | einval | efault | enospc | erange | enodev | ecanceled | esrch
  | etimedout | etime | eio | enxio | ebusy
  | eother
deriving DecidableEq, Repr

/-- How a call ends: it returns, it dereferences a bad pointer, or its loop
does not finish within the given fuel. -/
inductive Outcome (α : Type) where
  | ok (a : α)
  | oops
  | hang

namespace Outcome

variable {α β : Type}

def bind : Outcome α → (α → Outcome β) → Outcome β
  | ok a, f => f a
  | oops, _ => oops
  | hang, _ => hang

@[simp] theorem bind_ok (a : α) (f : α → Outcome β) : (ok a).bind f = f a := rfl

theorem bind_eq_ok {x : Outcome α} {f : α → Outcome β} {b : β}
    (h : x.bind f = ok b) : ∃ a, x = ok a ∧ f a = ok b := by
  cases x with
  | ok a => exact ⟨a, rfl, h⟩
  | oops => cases h
  | hang => cases h

/-- The result of a call that returned. -/
def toOption : Outcome α → Option α
  | ok a => some a
  | _ => none

/-- The call has dereferenced a bad pointer. -/
def isOops : Outcome α → Bool
  | oops => true
  | _ => false

theorem isOops_iff {x : Outcome α} : x.isOops = true ↔ x = oops := by
  cases x <;> simp [isOops]

theorem toOption_eq_some {x : Outcome α} {a : α} : x.toOption = some a ↔ x = ok a := by
  cases x <;> simp [toOption]

end Outcome

end Lima
