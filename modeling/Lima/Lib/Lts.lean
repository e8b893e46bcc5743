import Mathlib

/-!
# Guarded runs of a labelled transition system

A system is a set of initial states and a labelled step relation. `Via ok`
collects the states reached by runs every step of which satisfies the guard
`ok`, a condition on the label and on the state the step is taken from; plain
reachability is the run without a guard. The invariant rules are stated once
here: an invariant proof supplies the initial case and one step lemma.
-/

/-- A labelled transition system. -/
structure Lts (S A : Type*) where
  init : S → Prop
  step : S → A → S → Prop

namespace Lts

variable {S A : Type*} {M : Lts S A}

/-- States reached by runs all of whose steps satisfy the guard `ok`. -/
inductive Via (M : Lts S A) (ok : S → A → Prop) : S → Prop
  | init {s : S} : M.init s → Via M ok s
  | step {s s' : S} {a : A} : Via M ok s → ok s a → M.step s a s' → Via M ok s'

/-- States reached by any run. -/
def Reachable (M : Lts S A) : S → Prop := M.Via fun _ _ => True

theorem Via.mono {ok ok' : S → A → Prop} (h : ∀ s a, ok s a → ok' s a) {s : S}
    (hs : M.Via ok s) : M.Via ok' s := by
  induction hs with
  | init h0 => exact .init h0
  | step _ hok hstep ih => exact .step ih (h _ _ hok) hstep

theorem Via.reachable {ok : S → A → Prop} {s : S} (hs : M.Via ok s) :
    M.Reachable s :=
  hs.mono fun _ _ _ => trivial

theorem Reachable.step {s s' : S} {a : A} (hs : M.Reachable s)
    (h : M.step s a s') : M.Reachable s' :=
  Via.step hs trivial h

/-- **Guarded invariant rule.** An invariant that holds initially and that
every permitted step out of a permitted state preserves holds along every
guarded run. -/
theorem Via.invariant {ok : S → A → Prop} {I : S → Prop}
    (h0 : ∀ s, M.init s → I s)
    (hstep : ∀ s a s', M.Via ok s → I s → ok s a → M.step s a s' → I s')
    {s : S} (hs : M.Via ok s) : I s := by
  induction hs with
  | init h => exact h0 _ h
  | step hs hok h ih => exact hstep _ _ _ hs ih hok h

/-- The unguarded invariant rule. -/
theorem Reachable.invariant {I : S → Prop} (h0 : ∀ s, M.init s → I s)
    (hstep : ∀ s a s', M.Reachable s → I s → M.step s a s' → I s')
    {s : S} (hs : M.Reachable s) : I s :=
  Via.invariant h0 (fun s a s' hr hi _ h => hstep s a s' hr hi h) hs

/-! ## History variables -/

/-- The system with a history variable: `upd` sees the state a step is taken from and
its label, and what the variable holds influences no step. -/
def record {H : Type*} (M : Lts S A) (h₀ : H) (upd : H → S → A → H) : Lts (S × H) A where
  init x := M.init x.1 ∧ x.2 = h₀
  step x a x' := M.step x.1 a x'.1 ∧ x'.2 = upd x.2 x.1 a

/-- A run with its history is a run. -/
theorem Via.of_record {H : Type*} {h₀ : H} {upd : H → S → A → H}
    {ok : S × H → A → Prop} {x : S × H} (hx : (M.record h₀ upd).Via ok x) :
    M.Reachable x.1 := by
  induction hx with
  | init h => exact .init h.1
  | step _ _ h ih => exact ih.step h.1

/-! ## Executing a deterministic system -/

/-- Run a partial step function along a list of labels. -/
def exec (f : S → A → Option S) : S → List A → Option S
  | s, [] => some s
  | s, a :: as => (f s a).bind fun s' => exec f s' as

theorem exec_cons {f : S → A → Option S} {s t : S} {a : A} {as : List A}
    (h : exec f s (a :: as) = some t) :
    ∃ s', f s a = some s' ∧ exec f s' as = some t :=
  Option.bind_eq_some_iff.mp h

/-- An execution of a function that takes permitted steps only is a guarded run. -/
theorem Via.exec {ok : S → A → Prop} {f : S → A → Option S}
    (hf : ∀ s a s', f s a = some s' → ok s a ∧ M.step s a s') :
    ∀ {as : List A} {s t : S}, M.Via ok s → Lts.exec f s as = some t → M.Via ok t
  | [], s, t, hs, h => by
      obtain rfl : s = t := Option.some.inj h
      exact hs
  | _ :: _, _, _, hs, h => by
      obtain ⟨s', hstep, hrest⟩ := exec_cons h
      obtain ⟨hok, hstep⟩ := hf _ _ _ hstep
      exact Via.exec hf (hs.step hok hstep) hrest

/-- A step function with a history variable. -/
def recordStep {H : Type*} (f : S → A → Option S) (upd : H → S → A → H) (x : S × H)
    (a : A) : Option (S × H) :=
  (f x.1 a).map fun s => (s, upd x.2 x.1 a)

theorem recordStep_step {H : Type*} {h₀ : H} {upd : H → S → A → H} {f : S → A → Option S}
    (hf : ∀ s a s', f s a = some s' → M.step s a s') {x x' : S × H} {a : A}
    (h : recordStep f upd x a = some x') : (M.record h₀ upd).step x a x' := by
  obtain ⟨s, hs, rfl⟩ := Option.map_eq_some_iff.mp h
  exact ⟨hf _ _ _ hs, rfl⟩

/-- Where the step function goes, its system goes with its history. -/
theorem record_step_getD {H : Type*} {h₀ : H} {upd : H → S → A → H} {f : S → A → Option S}
    (hf : ∀ s a s', f s a = some s' → M.step s a s') {x : S × H} {a : A}
    (h : (f x.1 a).isSome = true) :
    (M.record h₀ upd).step x a ((f x.1 a).getD x.1, upd x.2 x.1 a) := by
  obtain ⟨s', hs'⟩ := Option.isSome_iff_exists.mp h
  refine ⟨hf _ _ _ ?_, rfl⟩
  rw [hs', Option.getD_some]

/-- An execution of the step function is a run of the system. -/
theorem Reachable.exec {f : S → A → Option S}
    (hf : ∀ s a s', f s a = some s' → M.step s a s') {as : List A} {s t : S}
    (hs : M.Reachable s) (h : Lts.exec f s as = some t) : M.Reachable t :=
  Via.exec (fun s a s' hstep => ⟨trivial, hf s a s' hstep⟩) hs h

end Lts
