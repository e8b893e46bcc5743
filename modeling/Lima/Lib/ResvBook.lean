import Lima.Lib.Resv
import Mathlib.Data.Nat.Init

/-!
# Jobs, their queues and their fences

The jobs behind the fences leave the queue of their context in order, each after the fences
it depends on. What the queues and the reservation objects promise together is `Book.Ok`: of
two jobs that conflict, the later one does not start before the earlier one is done.
-/

namespace Resv

variable {F C B U : Type*}

/-- A pushed job: the context and the sequence number of its fence, its place among all
pushed jobs, the uses it leaves its fence for, the uses it waited for, and the fences it
depends on. -/
structure Job (F C B U : Type*) where
  ctx : C
  seqno : ℕ
  place : ℕ
  leaves : List (B × U)
  awaits : List (B × U)
  deps : List F

/-- The pushed jobs and the fences on the objects. -/
structure Book (F C B U : Type*) where
  job : F → Option (Job F C B U)
  resv : B → List (F × U)
  pushes : ℕ

namespace Book

def empty : Book F C B U := ⟨fun _ => none, fun _ => [], 0⟩

variable (K : Book F C B U)

def ctxOf (f : F) : Option C := (K.job f).map Job.ctx

def seqOf (f : F) : ℕ := (K.job f).elim 0 Job.seqno

/-- The job of `g` was pushed after that of `f`, and to the same queue. -/
def Later (f g : F) : Prop :=
  ∃ j k, K.job f = some j ∧ K.job g = some k ∧ j.ctx = k.ctx ∧ j.place < k.place

/-- What the objects and the queues promise: `left` are the jobs that have left their queue,
`done` those whose fence is signalled. -/
structure Ok [LE U] (left : F → Prop) (done : F → Bool) : Prop where
  place : ∀ f j, K.job f = some j → j.place < K.pushes
  placeInj : ∀ f g j k, K.job f = some j → K.job g = some k → j.place = k.place → f = g
  order : ∀ f g j k, K.job f = some j → K.job g = some k → j.ctx = k.ctx →
    j.place < k.place → j.seqno < k.seqno
  doneLeft : ∀ f j, K.job f = some j → done f = true → left f
  fifo : ∀ f g, K.Later f g → left g → done f = true
  waited : ∀ g k, K.job g = some k → left g → ∀ f ∈ k.deps, done f = true
  depsOld : ∀ g k, K.job g = some k → ∀ f ∈ k.deps, ∃ j, K.job f = some j ∧ j.place < k.place
  entries : ∀ b f u, (f, u) ∈ K.resv b → ∃ j, K.job f = some j ∧ (b, u) ∈ j.leaves
  covered : ∀ f j, K.job f = some j → ∀ b u, (b, u) ∈ j.leaves →
    done f = true ∨ Covered K.Later (K.resv b) f u
  awaited : ∀ f g j k, K.job f = some j → K.job g = some k → j.place < k.place →
    ∀ b u w, (b, u) ∈ j.leaves → (b, w) ∈ k.awaits → u ≤ w →
      done f = true ∨ ∃ e ∈ k.deps, e = f ∨ K.Later f e

namespace Ok

variable {K} {left left' : F → Prop} {done done' : F → Bool} {f g : F} {j k : Job F C B U}

section Facts

variable [Preorder U] (h : K.Ok left done)

include h

/-- In a context the sequence numbers follow the pushes. -/
theorem eq_or_later (hf : K.job f = some j) (hg : K.job g = some k) (hctx : k.ctx = j.ctx)
    (hseq : j.seqno ≤ k.seqno) : g = f ∨ K.Later f g := by
  rcases lt_trichotomy j.place k.place with hlt | heq | hgt
  · exact .inr ⟨j, k, hf, hg, hctx.symm, hlt⟩
  · exact .inl (h.placeInj _ _ _ _ hg hf heq.symm)
  · exact absurd (h.order _ _ _ _ hg hf hctx hgt) (Nat.not_lt.mpr hseq)

/-- A fence is signalled once it, or a later one of its context, is. -/
theorem done_of_covered (hg : K.job g = some k) (hdone : done g = true)
    (hfg : g = f ∨ K.Later f g) : done f = true := by
  rcases hfg with rfl | hlater
  · exact hdone
  · exact h.fifo f g hlater (h.doneLeft g k hg hdone)

/-- **Conflicting jobs exclude each other**: the later one leaves its queue after the earlier
one is done. -/
theorem exclusive (hf : K.job f = some j) (hg : K.job g = some k) (hlt : j.place < k.place)
    {b : B} {u w : U} (hu : (b, u) ∈ j.leaves) (hw : (b, w) ∈ k.awaits) (huw : u ≤ w)
    (hleft : left g) : done f = true := by
  obtain hdone | ⟨e, hmem, he⟩ := h.awaited f g j k hf hg hlt b u w hu hw huw
  · exact hdone
  · obtain ⟨i, hi, -⟩ := h.depsOld g k hg e hmem
    exact h.done_of_covered hi (h.waited g k hg hleft e hmem) he

/-- **Who finds the fences of an object signalled** knows of every job of the object. -/
theorem drained [DecidableRel (α := U) (· ≤ ·)] (b : B) (w : U) :
    (∀ e ∈ upTo w (K.resv b), done e = true) ↔
      ∀ f j, K.job f = some j → ∀ u, (b, u) ∈ j.leaves → u ≤ w → done f = true := by
  constructor
  · intro hall f j hf u hu huw
    obtain hdone | hcov := h.covered f j hf b u hu
    · exact hdone
    · obtain ⟨e, he, hfe⟩ := hcov.waits huw
      obtain ⟨v, hv, -⟩ := mem_upTo.mp he
      obtain ⟨i, hi, -⟩ := h.entries b e v hv
      exact h.done_of_covered hi (hall e he) hfe
  · intro hall e he
    obtain ⟨v, hv, hvw⟩ := mem_upTo.mp he
    obtain ⟨i, hi, hleaves⟩ := h.entries b e v hv
    exact hall e i hi v hleaves hvw

/-- **Nobody waits in a circle**: while a job is not done, there is one such that waits for
nothing any more. -/
theorem exists_ready (hf : K.job f = some j) (hdone : done f = false) :
    ∃ g k, K.job g = some k ∧ done g = false ∧ (∀ e ∈ k.deps, done e = true) ∧
      ∀ e, K.Later e g → done e = true := by
  induction hn : j.place using Nat.strong_induction_on generalizing f j with
  | _ n ih =>
      have hearlier : ∀ e i, K.job e = some i → i.place < j.place → done e = false → _ :=
        fun e i hi hlt he => ih i.place (hn ▸ hlt) hi he rfl
      by_cases hold : ∃ e i, K.job e = some i ∧ i.place < j.place ∧ done e = false
      · obtain ⟨e, i, hi, hlt, he⟩ := hold
        exact hearlier e i hi hlt he
      have hall : ∀ e i, K.job e = some i → i.place < j.place → done e = true := by
        intro e i hi hlt
        by_contra hne
        exact hold ⟨e, i, hi, hlt, Bool.eq_false_iff.mpr hne⟩
      refine ⟨f, j, hf, hdone, fun e he => ?_, ?_⟩
      · obtain ⟨i, hi, hlt⟩ := h.depsOld f j hf e he
        exact hall e i hi hlt
      · rintro e ⟨i, j', hi, hj', -, hlt⟩
        obtain rfl := Option.some.inj (hf.symm.trans hj')
        exact hall e i hi hlt

end Facts

/-- Nothing is pushed yet. -/
theorem empty [LE U] : (Book.empty : Book F C B U).Ok left done := by
  constructor
  case entries =>
    intro b f u hmem
    cases hmem
  case fifo =>
    rintro f g ⟨j, -, hj, -⟩
    cases hj
  all_goals
    intro f
    intros
    contradiction

/-- **Jobs move on**: those that leave their queue do so in order, after their dependencies. -/
theorem advance [LE U] (h : K.Ok left done)
    (hkept : ∀ f j, K.job f = some j → done f = true → done' f = true)
    (hdl : ∀ f j, K.job f = some j → done' f = true → left' f)
    (hnew : ∀ g k, K.job g = some k → left' g → left g ∨ (∀ f, K.Later f g → done' f = true) ∧
      ∀ f ∈ k.deps, K.ctxOf f = some k.ctx ∨ done' f = true) : K.Ok left' done' where
  place := h.place
  placeInj := h.placeInj
  order := h.order
  doneLeft := hdl
  fifo f g hlater hleft := by
    obtain ⟨j, k, hf, hg, -⟩ := id hlater
    rcases hnew g k hg hleft with hold | ⟨hearlier, -⟩
    · exact hkept f j hf (h.fifo f g hlater hold)
    · exact hearlier f hlater
  waited g k hg hleft f hf := by
    obtain ⟨j, hj, hlt⟩ := h.depsOld g k hg f hf
    rcases hnew g k hg hleft with hold | ⟨hearlier, hdeps⟩
    · exact hkept f j hj (h.waited g k hg hold f hf)
    · rcases hdeps f hf with hown | hdone
      · rw [ctxOf, hj] at hown
        exact hearlier f ⟨j, k, hj, hg, Option.some.inj hown, hlt⟩
      · exact hdone
  depsOld := h.depsOld
  entries := h.entries
  covered f j hf b u hu := (h.covered f j hf b u hu).imp_left (hkept f j hf)
  awaited f g j k hf hg hlt b u w hu hw huw :=
    (h.awaited f g j k hf hg hlt b u w hu hw huw).imp_left (hkept f j hf)

end Ok

/-! ## Pushing a job -/

section Defs

variable [DecidableEq F] [DecidableEq B] [Preorder U] [DecidableRel (α := U) (· ≤ ·)]

/-- A job about to be pushed: it depends on the fences in `given` and on those of its
objects. -/
def newJob (D : Deps F (Option C)) (ctx : C) (seqno : ℕ) (leaves awaits : List (B × U))
    (given : List F) : Job F C B U where
  ctx := ctx
  seqno := seqno
  place := K.pushes
  leaves := leaves
  awaits := awaits
  deps := awaitAll D K.ctxOf K.seqOf K.resv awaits (given.foldl (D.add K.ctxOf K.seqOf) [])

def enter (f : F) (j : Job F C B U) : Book F C B U :=
  { K with
    job := Function.update K.job f (some j)
    pushes := K.pushes + 1 }

/-- The job `j` is pushed, and its fence `f` goes on the objects. -/
def push (I : Impl F (Option C) U) (done : F → Bool) (f : F) (j : Job F C B U) : Book F C B U :=
  { K.enter f j with resv := addAll I (K.enter f j).ctxOf done f j.leaves K.resv }

end Defs

variable {K} {left : F → Prop} {done : F → Bool} {e f g : F} {i j k : Job F C B U}

theorem Later.trans (hef : K.Later e f) (hfg : K.Later f g) : K.Later e g := by
  obtain ⟨i, j, hi, hj, hctx, hlt⟩ := hef
  obtain ⟨j', k, hj', hk, hctx', hlt'⟩ := hfg
  obtain rfl := Option.some.inj (hj.symm.trans hj')
  exact ⟨i, k, hi, hk, hctx.trans hctx', hlt.trans hlt'⟩

section Enter

theorem ne_of_job (hnew : K.job f = none) (hg : K.job g = some k) : g ≠ f := by
  rintro rfl
  rw [hnew] at hg
  cases hg

variable [DecidableEq F]

theorem enter_job (hnew : K.job f = none) (hg : K.job g = some k) :
    (K.enter f j).job g = some k := by
  change Function.update K.job f (some j) g = some k
  rw [Function.update_of_ne (ne_of_job hnew hg), hg]

theorem later_enter (hnew : K.job f = none) (h : K.Later e g) : (K.enter f j).Later e g := by
  obtain ⟨i, k, hi, hk, hctx, hlt⟩ := h
  exact ⟨i, k, enter_job hnew hi, enter_job hnew hk, hctx, hlt⟩

@[simp] theorem enter_job_self : (K.enter f j).job f = some j := Function.update_self ..

theorem enter_job_cases (hg : (K.enter f j).job g = some k) :
    g = f ∧ k = j ∨ g ≠ f ∧ K.job g = some k := by
  by_cases hgf : g = f
  · subst hgf
    rw [enter_job_self] at hg
    exact .inl ⟨rfl, (Option.some.inj hg).symm⟩
  · change Function.update K.job f (some j) g = some k at hg
    rw [Function.update_of_ne hgf] at hg
    exact .inr ⟨hgf, hg⟩

end Enter

namespace Ok

section Push

variable [DecidableEq F] [Preorder U] (h : K.Ok left done) (hnew : K.job f = none)
  (hplace : j.place = K.pushes)

include h hnew hplace

/-- Nothing comes after the new job. -/
theorem later_enter_cases (hlater : (K.enter f j).Later e g) :
    K.Later e g ∨ g = f ∧ ∃ i, K.job e = some i ∧ i.ctx = j.ctx := by
  obtain ⟨i, k, hi, hk, hctx, hlt⟩ := hlater
  rcases enter_job_cases hi with ⟨rfl, rfl⟩ | ⟨-, hi'⟩
  · rcases enter_job_cases hk with ⟨rfl, rfl⟩ | ⟨-, hk'⟩
    · exact absurd hlt (Nat.lt_irrefl _)
    · have hold := h.place g k hk'
      omega
  · rcases enter_job_cases hk with ⟨rfl, rfl⟩ | ⟨-, hk'⟩
    · exact .inr ⟨rfl, i, hi', hctx⟩
    · exact .inl ⟨i, k, hi', hk', hctx, hlt⟩

theorem later_new (he : K.job e = some i) (hctx : i.ctx = j.ctx) : (K.enter f j).Later e f := by
  refine ⟨i, j, enter_job hnew he, enter_job_self, hctx, ?_⟩
  rw [hplace]
  exact h.place e i he

/-- The fence of an unfinished job stays covered. -/
theorem covered_push [DecidableEq B] {I : Impl F (Option C) U} (hnd : done f = false)
    (he : K.job e = some i) (hlive : done e = false) {b : B} {u : U}
    (hcov : Covered K.Later (K.resv b) e u) :
    Covered (K.enter f j).Later (addAll I (K.enter f j).ctxOf done f j.leaves K.resv b) e u := by
  refine (hcov.mono fun x hx => later_enter hnew hx).addAll (fun x hx => ?_) fun x hctx hx => ?_
  · rcases hx with rfl | hlater
    · exact hlive
    · obtain hold | ⟨rfl, -⟩ := later_enter_cases h hnew hplace hlater
      · obtain ⟨-, k, -, hk, -⟩ := id hold
        refine Bool.eq_false_iff.mpr fun hdone => ?_
        rw [h.fifo e x hold (h.doneLeft x k hk hdone)] at hlive
        cases hlive
      · exact hnd
  · have hself : (K.enter f j).ctxOf f = some j.ctx := by simp [ctxOf, enter]
    have hi := enter_job (j := j) hnew he
    refine .inr (later_new h hnew hplace he ?_)
    rcases hx with rfl | ⟨i', k, hi', hk, hik, -⟩
    · rw [hself, ctxOf, hi] at hctx
      exact Option.some.inj hctx
    · rw [hself, ctxOf, hk] at hctx
      obtain rfl := Option.some.inj (hi.symm.trans hi')
      exact hik.trans (Option.some.inj hctx)

end Push

section NewJob

variable [Preorder U] [DecidableRel (α := U) (· ≤ ·)] (D : Deps F (Option C)) (ctx : C)
  (seqno : ℕ) (leaves : List (B × U)) {awaits : List (B × U)} {given : List F} (h : K.Ok left done)
  (hgiven : ∀ g ∈ given, (K.job g).isSome = true)

include h hgiven

/-- The dependencies of a new job are jobs. -/
theorem newJob_dep (he : e ∈ (K.newJob D ctx seqno leaves awaits given).deps) :
    ∃ i, K.job e = some i := by
  rcases mem_awaitAll D he with ⟨x, -, hx⟩ | hmem
  · obtain ⟨v, hv, -⟩ := mem_upTo.mp hx
    obtain ⟨i, hi, -⟩ := h.entries x.1 e v hv
    exact ⟨i, hi⟩
  · have hin := (mem_foldl_add D hmem).resolve_right (by simp)
    exact Option.isSome_iff_exists.mp (hgiven e hin)

/-- A new job depends on every unfinished job it conflicts with. -/
theorem newJob_awaits (hf : K.job f = some i) {b : B} {u w : U} (hu : (b, u) ∈ i.leaves)
    (hw : (b, w) ∈ awaits) (huw : u ≤ w) : done f = true ∨
      ∃ e ∈ (K.newJob D ctx seqno leaves awaits given).deps, e = f ∨ K.Later f e := by
  refine (h.covered f i hf b u hu).imp_right fun hcov => ?_
  obtain ⟨x, hx, hfx⟩ := hcov.waits huw
  obtain ⟨e, hmem, hctx, hseq⟩ :=
    Awaited.awaitAll (l := given.foldl (D.add K.ctxOf K.seqOf) []) D (.inl ⟨(b, w), hw, hx⟩)
  obtain ⟨v, hv, -⟩ := mem_upTo.mp hx
  obtain ⟨k, hk, -⟩ := h.entries b x v hv
  obtain ⟨l, hl⟩ := newJob_dep D ctx seqno leaves h hgiven hmem
  refine ⟨e, hmem, ?_⟩
  rw [ctxOf, ctxOf, hl, hk] at hctx
  rw [seqOf, seqOf, hl, hk] at hseq
  rcases h.eq_or_later hk hl (Option.some.inj hctx) hseq with rfl | hxe
  · exact hfx
  · rcases hfx with rfl | hfx
    · exact .inr hxe
    · exact .inr (Later.trans hfx hxe)

end NewJob

/-- **A push keeps the promises**, if the job is the last of its queue and depends on those
it conflicts with. -/
theorem enter_push [DecidableEq F] [DecidableEq B] [Preorder U] (h : K.Ok left done)
    (I : Impl F (Option C) U) (hnew : K.job f = none) (hleft : ¬ left f) (hnd : done f = false)
    (hplace : j.place = K.pushes)
    (hseq : ∀ g k, K.job g = some k → k.ctx = j.ctx → k.seqno < j.seqno)
    (hdeps : ∀ e ∈ j.deps, ∃ i, K.job e = some i)
    (hawaits : ∀ g i, K.job g = some i → ∀ b u w, (b, u) ∈ i.leaves → (b, w) ∈ j.awaits →
      u ≤ w → done g = true ∨ ∃ e ∈ j.deps, e = g ∨ K.Later g e) :
    (K.push I done f j).Ok left done := by
  constructor
  case place =>
    intro g k hg
    rcases enter_job_cases hg with ⟨-, rfl⟩ | ⟨-, hg⟩
    · exact hplace ▸ Nat.lt_succ_self _
    · exact (h.place g k hg).trans (Nat.lt_succ_self _)
  case placeInj =>
    intro g g' k k' hg hg' heq
    rcases enter_job_cases hg with ⟨rfl, rfl⟩ | ⟨-, hold⟩ <;>
      rcases enter_job_cases hg' with ⟨rfl, rfl⟩ | ⟨-, hold'⟩
    · rfl
    · have hlt := h.place g' k' hold'
      omega
    · have hlt := h.place g k hold
      omega
    · exact h.placeInj g g' k k' hold hold' heq
  case order =>
    intro g g' k k' hg hg' hctx hlt
    rcases enter_job_cases hg with ⟨rfl, rfl⟩ | ⟨-, hold⟩ <;>
      rcases enter_job_cases hg' with ⟨rfl, rfl⟩ | ⟨-, hold'⟩
    · exact absurd hlt (Nat.lt_irrefl _)
    · have hlt' := h.place g' k' hold'
      omega
    · exact hseq g k hold hctx
    · exact h.order g g' k k' hold hold' hctx hlt
  case doneLeft =>
    intro g k hg hdone
    rcases enter_job_cases hg with ⟨rfl, -⟩ | ⟨-, hold⟩
    · rw [hnd] at hdone
      cases hdone
    · exact h.doneLeft g k hold hdone
  case fifo =>
    intro g g' hlater hl
    rcases later_enter_cases h hnew hplace hlater with hold | ⟨rfl, -⟩
    · exact h.fifo g g' hold hl
    · exact absurd hl hleft
  case waited =>
    intro g k hg hl
    rcases enter_job_cases hg with ⟨rfl, -⟩ | ⟨-, hold⟩
    · exact absurd hl hleft
    · exact h.waited g k hold hl
  case depsOld =>
    intro g k hg e he
    rcases enter_job_cases hg with ⟨rfl, rfl⟩ | ⟨-, hold⟩
    · obtain ⟨i, hi⟩ := hdeps e he
      exact ⟨i, enter_job hnew hi, hplace ▸ h.place e i hi⟩
    · obtain ⟨i, hi, hlt⟩ := h.depsOld g k hold e he
      exact ⟨i, enter_job hnew hi, hlt⟩
  case entries =>
    intro b g u hmem
    rcases mem_addAll hmem with hold | ⟨rfl, hleaves⟩
    · obtain ⟨i, hi, hleaves⟩ := h.entries b g u hold
      exact ⟨i, enter_job hnew hi, hleaves⟩
    · exact ⟨j, enter_job_self, hleaves⟩
  case covered =>
    intro g k hg b u hu
    cases hdone : done g with
    | true => exact .inl rfl
    | false =>
        right
        rcases enter_job_cases hg with ⟨rfl, rfl⟩ | ⟨-, hold⟩
        · refine covered_addAll hu fun e he => ?_
          rcases he with rfl | ⟨i, k', hi, hk', -, hlt⟩
          · exact hnd
          · obtain rfl := Option.some.inj (hg.symm.trans hi)
            rcases enter_job_cases hk' with ⟨rfl, rfl⟩ | ⟨-, hold⟩
            · exact absurd hlt (Nat.lt_irrefl _)
            · have hlt' := h.place e k' hold
              omega
        · refine covered_push h hnew hplace hnd hold hdone ?_
          refine (h.covered g k hold b u hu).resolve_left ?_
          rw [hdone]
          simp
  case awaited =>
    intro g g' k k' hg hg' hlt b u w hu hw huw
    rcases enter_job_cases hg with ⟨rfl, rfl⟩ | ⟨-, hold⟩
    · rcases enter_job_cases hg' with ⟨rfl, rfl⟩ | ⟨-, hold'⟩
      · exact absurd hlt (Nat.lt_irrefl _)
      · have hlt' := h.place g' k' hold'
        omega
    · have hdep : done g = true ∨ ∃ e ∈ k'.deps, e = g ∨ K.Later g e := by
        rcases enter_job_cases hg' with ⟨rfl, rfl⟩ | ⟨-, hold'⟩
        · exact hawaits g k hold b u w hu hw huw
        · exact h.awaited g g' k k' hold hold' hlt b u w hu hw huw
      refine hdep.imp_right ?_
      rintro ⟨e, hmem, he⟩
      exact ⟨e, hmem, he.imp_right (later_enter hnew)⟩

theorem push [DecidableEq F] [DecidableEq B] [Preorder U] [DecidableRel (α := U) (· ≤ ·)]
    (h : K.Ok left done) (I : Impl F (Option C) U) {D : Deps F (Option C)} {ctx : C} {seqno : ℕ}
    {leaves awaits : List (B × U)} {given : List F} (hnew : K.job f = none) (hleft : ¬ left f)
    (hnd : done f = false) (hseq : ∀ g k, K.job g = some k → k.ctx = ctx → k.seqno < seqno)
    (hgiven : ∀ g ∈ given, (K.job g).isSome = true) :
    (K.push I done f (K.newJob D ctx seqno leaves awaits given)).Ok left done :=
  h.enter_push I hnew hleft hnd rfl hseq (fun _ he => newJob_dep _ _ _ _ h hgiven he)
    fun _ _ hg _ _ _ hu hw huw => newJob_awaits _ _ _ _ h hgiven hg hu hw huw

end Ok

end Book

end Resv
