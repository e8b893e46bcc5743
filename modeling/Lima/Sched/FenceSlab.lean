import Lima.Vm.Sys
import Lima.Lib.Lts

/-!
# The cache of the fences

All `lima_fence`s of all devices come from one cache, `lima_fence_slab`, which lives as
long as a device is probed; a fence lives as long as somebody refers to it, and until
the RCU callback queued at the last put has run. Nothing ties the two together but the
order in which the holders let go.
-/

namespace Lima

/-- A `struct lima_fence` that has not been freed: the cache it is from, the references
on it, and whether `lima_fence_release_rcu` is queued for it. -/
structure SlabFence where
  slab : ℕ
  refs : ℕ
  queued : Bool
deriving DecidableEq

/-- The caches are named in the order of their creation. `devices` counts the probes that
have taken a reference on the cache and not dropped it. -/
structure SlabSys where
  limaFenceSlab : Option ℕ
  refcnt : ℤ
  numSlabs : ℕ
  fence : ℕ → Option SlabFence
  numFences : ℕ
  devices : ℕ

/-! ## The functions -/

namespace SlabSys

variable (s : SlabSys)

def setFence (f : ℕ) (x : Option SlabFence) : SlabSys :=
  { s with fence := Function.update s.fence f x }

/-- `lima_sched_slab_init`. -/
def limaSchedSlabInit (createOk : Bool) : SlabSys × Option Errno :=
  match s.limaFenceSlab with
  | some _ => ({ s with refcnt := s.refcnt + 1 }, none)
  | none =>
      if createOk then
        ({ s with
          limaFenceSlab := some s.numSlabs
          numSlabs := s.numSlabs + 1
          refcnt := s.refcnt + 1 }, none)
      else (s, some .enomem)

theorem limaSchedSlabInit_cases (createOk : Bool) :
    (s.limaFenceSlab.isSome = true ∧
      s.limaSchedSlabInit createOk = ({ s with refcnt := s.refcnt + 1 }, none)) ∨
    s.limaFenceSlab = none ∧
      (s.limaSchedSlabInit createOk = ({ s with
        limaFenceSlab := some s.numSlabs
        numSlabs := s.numSlabs + 1
        refcnt := s.refcnt + 1 }, none) ∨
      s.limaSchedSlabInit createOk = (s, some .enomem)) := by
  unfold limaSchedSlabInit
  split
  · rename_i slab hslab
    exact .inl ⟨by rw [hslab]; rfl, rfl⟩
  · rename_i hslab
    cases createOk with
    | true => exact .inr ⟨hslab, .inl rfl⟩
    | false => exact .inr ⟨hslab, .inr rfl⟩

/-- `lima_sched_slab_fini`. -/
def limaSchedSlabFini : SlabSys :=
  let s := { s with refcnt := s.refcnt - 1 }
  if s.refcnt = 0 then { s with limaFenceSlab := none } else s

/-- `lima_fence_create`. -/
def limaFenceCreate (allocOk : Bool) : Outcome (SlabSys × Option ℕ) :=
  match s.limaFenceSlab with
  | none => .oops
  | some slab =>
      if allocOk then
        .ok ({ s.setFence s.numFences (some ⟨slab, 1, false⟩) with
          numFences := s.numFences + 1 }, some s.numFences)
      else .ok (s, none)

/-- `dma_fence_get`. -/
def dmaFenceGet (f : ℕ) (x : SlabFence) : SlabSys :=
  s.setFence f (some { x with refs := x.refs + 1 })

/-- `lima_fence_release`. -/
def limaFenceRelease (f : ℕ) (x : SlabFence) : SlabSys :=
  s.setFence f (some { x with queued := true })

/-- `dma_fence_put`. -/
def dmaFencePut (f : ℕ) (x : SlabFence) : SlabSys :=
  let x := { x with refs := x.refs - 1 }
  if x.refs = 0 then s.limaFenceRelease f x else s.setFence f (some x)

/-- `lima_fence_release_rcu`: `kmem_cache_free` into a cache that is `NULL`, or not the
one the fence is from. -/
def limaFenceReleaseRcu (f : ℕ) (x : SlabFence) : Outcome SlabSys :=
  if s.limaFenceSlab = some x.slab then .ok (s.setFence f none) else .oops

end SlabSys

/-! ## Runs -/

inductive SlabEvent where
  /-- A probe begins. -/
  | init (createOk : Bool)
  /-- A probe that has failed, or a removal, ends. -/
  | fini
  /-- A device dispatches a job. -/
  | create (allocOk : Bool)
  /-- A holder takes another reference, or drops one. -/
  | get (f : ℕ)
  | put (f : ℕ)
  /-- A grace period is over. -/
  | rcu (f : ℕ)

/-- A holder refers to fence `f`. -/
def SlabSys.held (s : SlabSys) (f : ℕ) : Option SlabFence :=
  (s.fence f).filter fun x => decide (0 < x.refs)

def slabStep (s : SlabSys) : SlabEvent → Option SlabSys
  | .init createOk =>
      let x := s.limaSchedSlabInit createOk
      some (if x.2 = none then { x.1 with devices := s.devices + 1 } else x.1)
  | .fini =>
      if s.devices = 0 then none
      else some { s.limaSchedSlabFini with devices := s.devices - 1 }
  | .create allocOk =>
      if s.devices = 0 then none
      else (s.limaFenceCreate allocOk).toOption.map Prod.fst
  | .get f => (s.held f).map fun x => s.dmaFenceGet f x
  | .put f => (s.held f).map fun x => s.dmaFencePut f x
  | .rcu f =>
      match (s.fence f).filter SlabFence.queued with
      | none => none
      | some x => (s.limaFenceReleaseRcu f x).toOption

/-- No module has been loaded yet. -/
def slabLts : Lts SlabSys SlabEvent where
  init s := s = ⟨none, 0, 0, fun _ => none, 0, 0⟩
  step s e s' := slabStep s e = some s'

/-- Nobody refers to a fence, and no callback is queued. -/
def SlabSys.Drained (s : SlabSys) : Prop :=
  ∀ f x, s.fence f = some x → x.refs = 0 ∧ x.queued = false

/-- The last device goes when the fences have been let go of and the callbacks have run. -/
def DrainedFirst (s : SlabSys) : SlabEvent → Prop
  | .fini => s.refcnt = 1 → s.Drained
  | _ => True

/-! ## The invariant -/

/-- The cache of every fence is the current one. -/
def SlabSys.Backed (s : SlabSys) : Prop :=
  ∀ f x, s.fence f = some x → s.limaFenceSlab = some x.slab

structure SlabWf (s : SlabSys) : Prop where
  refcnt : s.refcnt = s.devices
  slab : s.limaFenceSlab.isSome = true ↔ 0 < s.devices
  backed : s.Backed
  /-- A fence is referred to until its callback is queued. -/
  alive : ∀ f x, s.fence f = some x → (x.queued = false ↔ 0 < x.refs)

namespace SlabWf

variable {s : SlabSys}

/-- A fence that nobody refers to and that has no callback queued has been freed. -/
theorem drained_iff (h : SlabWf s) : s.Drained ↔ ∀ f, s.fence f = none := by
  constructor
  · intro hdrained f
    cases hf : s.fence f with
    | none => rfl
    | some x =>
        obtain ⟨hrefs, hqueued⟩ := hdrained f x hf
        have hpos := (h.alive f x hf).mp hqueued
        omega
  · intro hnone f x hf
    rw [hnone f] at hf
    cases hf

/-- One fence has changed. -/
theorem setFence (h : SlabWf s) {f : ℕ} {x : Option SlabFence}
    (hx : ∀ y, x = some y → s.limaFenceSlab = some y.slab ∧ (y.queued = false ↔ 0 < y.refs)) :
    SlabWf (s.setFence f x) := by
  refine ⟨h.refcnt, h.slab, fun g y hg => ?_, fun g y hg => ?_⟩
  · by_cases hgf : g = f
    · subst hgf
      exact (hx y (by simpa [SlabSys.setFence] using hg)).1
    · exact h.backed g y (by simpa [SlabSys.setFence, hgf] using hg)
  · by_cases hgf : g = f
    · subst hgf
      exact (hx y (by simpa [SlabSys.setFence] using hg)).2
    · exact h.alive g y (by simpa [SlabSys.setFence, hgf] using hg)

theorem init (h : SlabWf s) (createOk : Bool) {s' : SlabSys}
    (hstep : slabStep s (.init createOk) = some s') : SlabWf s' := by
  obtain rfl := Option.some.inj hstep
  have hcount := h.refcnt
  rcases s.limaSchedSlabInit_cases createOk with ⟨hsome, hinit⟩ | ⟨hslab, hinit | hinit⟩
  · rw [hinit]
    refine ⟨?_, ?_, h.backed, h.alive⟩
    · change s.refcnt + 1 = ((s.devices + 1 : ℕ) : ℤ)
      omega
    · change s.limaFenceSlab.isSome = true ↔ 0 < s.devices + 1
      simp [hsome]
  · rw [hinit]
    -- no fence is left from an earlier cache
    have hnone : ∀ f x, s.fence f ≠ some x := by
      intro f x hf
      have := h.backed f x hf
      rw [hslab] at this
      cases this
    refine ⟨?_, ?_, fun f x hf => absurd hf (hnone f x), h.alive⟩
    · change s.refcnt + 1 = ((s.devices + 1 : ℕ) : ℤ)
      omega
    · change true = true ↔ 0 < s.devices + 1
      simp
  · rw [hinit]
    exact h

theorem fini (h : SlabWf s) (hok : s.refcnt = 1 → s.Drained) {s' : SlabSys}
    (hstep : slabStep s .fini = some s') : SlabWf s' := by
  have hcount := h.refcnt
  simp only [slabStep] at hstep
  split at hstep
  · cases hstep
  rename_i hpos
  obtain rfl := Option.some.inj hstep
  unfold SlabSys.limaSchedSlabFini
  by_cases hlast : s.refcnt = 1
  · have hnone := h.drained_iff.mp (hok hlast)
    have hzero : s.refcnt - 1 = 0 := by omega
    simp only [hzero, if_true]
    refine ⟨?_, ?_, fun f x hf => ?_, h.alive⟩
    · change (0 : ℤ) = ((s.devices - 1 : ℕ) : ℤ)
      omega
    · change false = true ↔ 0 < s.devices - 1
      simp
      omega
    · have := hnone f
      rw [this] at hf
      cases hf
  · have hmore : s.refcnt - 1 ≠ 0 := by omega
    simp only [if_neg hmore]
    refine ⟨?_, ?_, h.backed, h.alive⟩
    · change s.refcnt - 1 = ((s.devices - 1 : ℕ) : ℤ)
      omega
    · change s.limaFenceSlab.isSome = true ↔ 0 < s.devices - 1
      rw [h.slab]
      omega

theorem step (h : SlabWf s) {e : SlabEvent} {s' : SlabSys} (hok : DrainedFirst s e)
    (hstep : slabStep s e = some s') : SlabWf s' := by
  cases e with
  | init createOk => exact h.init createOk hstep
  | fini => exact h.fini hok hstep
  | create allocOk =>
      simp only [slabStep] at hstep
      split at hstep
      · cases hstep
      obtain ⟨⟨s₁, r⟩, hcall, rfl⟩ := Option.map_eq_some_iff.mp hstep
      have hcall := Outcome.toOption_eq_some.mp hcall
      unfold SlabSys.limaFenceCreate at hcall
      split at hcall
      · cases hcall
      rename_i slab hslab
      split at hcall
      · obtain ⟨rfl, rfl⟩ := Prod.mk.inj (Outcome.ok.inj hcall)
        have hnew := h.setFence (f := s.numFences) (x := some ⟨slab, 1, false⟩) (by
          intro y hy
          obtain rfl := Option.some.inj hy
          exact ⟨hslab, by simp⟩)
        exact ⟨hnew.refcnt, hnew.slab, hnew.backed, hnew.alive⟩
      · obtain ⟨rfl, rfl⟩ := Prod.mk.inj (Outcome.ok.inj hcall)
        exact h
  | get f =>
      obtain ⟨x, hx, rfl⟩ := Option.map_eq_some_iff.mp hstep
      obtain ⟨hf, hrefs⟩ := Option.filter_eq_some_iff.mp hx
      have halive := h.alive f x hf
      refine h.setFence fun y hy => ?_
      obtain rfl := Option.some.inj hy
      refine ⟨h.backed f x hf, ?_⟩
      rw [halive]
      simpa using hrefs
  | put f =>
      obtain ⟨x, hx, rfl⟩ := Option.map_eq_some_iff.mp hstep
      obtain ⟨hf, hrefs⟩ := Option.filter_eq_some_iff.mp hx
      have halive := h.alive f x hf
      have hqueued := halive.mpr (by simpa using hrefs)
      unfold SlabSys.dmaFencePut
      simp only
      split
      · rename_i hzero
        refine h.setFence fun y hy => ?_
        obtain rfl := Option.some.inj hy
        refine ⟨h.backed f x hf, ?_⟩
        simp [hzero]
      · rename_i hmore
        refine h.setFence fun y hy => ?_
        obtain rfl := Option.some.inj hy
        refine ⟨h.backed f x hf, ?_⟩
        simp only [hqueued, true_iff]
        omega
  | rcu f =>
      simp only [slabStep] at hstep
      split at hstep
      · cases hstep
      rename_i x hx
      have hcall := Outcome.toOption_eq_some.mp hstep
      unfold SlabSys.limaFenceReleaseRcu at hcall
      split at hcall
      · obtain rfl := Outcome.ok.inj hcall
        exact h.setFence nofun
      · cases hcall

theorem of_via (h : slabLts.Via DrainedFirst s) : SlabWf s := by
  refine h.invariant (fun s hs => ?_) fun s e s' _ hi hok hstep => hi.step hok hstep
  obtain rfl : s = _ := hs
  exact ⟨rfl, by simp, nofun, nofun⟩

end SlabWf

/-! ## Main result -/

/-- **Main result.** If the last device never goes while somebody refers to a fence or a
callback is queued, every fence has its cache, and every callback frees into it. The
removal of the last device strands a fence exactly if the condition fails. -/
theorem fence_slab_outlives {s : SlabSys} (h : slabLts.Via DrainedFirst s) :
    s.Backed ∧
    (∀ f x, s.fence f = some x → ∃ s', s.limaFenceReleaseRcu f x = .ok s') ∧
    (s.refcnt = 1 → (s.limaSchedSlabFini.Backed ↔ s.Drained)) := by
  have hwf := SlabWf.of_via h
  refine ⟨hwf.backed, fun f x hf => ⟨_, if_pos (hwf.backed f x hf)⟩, fun hlast => ?_⟩
  rw [hwf.drained_iff]
  have hzero : s.refcnt - 1 = 0 := by omega
  have hfini : s.limaSchedSlabFini = { s with
      refcnt := s.refcnt - 1
      limaFenceSlab := none } := by
    simp [SlabSys.limaSchedSlabFini, hzero]
  rw [hfini]
  constructor
  · intro hbacked f
    cases hf : s.fence f with
    | none => rfl
    | some x => cases hbacked f x hf
  · intro hnone f x hf
    have := hnone f
    rw [this] at hf
    cases hf

def slabEmpty : SlabSys := ⟨none, 0, 0, fun _ => none, 0, 0⟩

/-- A device comes, dispatches one job whose fence is let go of and freed, and goes. -/
theorem fence_slab_outlives_oneJob : ∃ s : SlabSys, s.numFences = 1 ∧ s.Backed := by
  have hrun : ((Lts.exec slabStep slabEmpty [.init true, .create true, .put 0, .rcu 0]).map
      fun s => s.numFences) = some 1 := rfl
  obtain ⟨s, hs, hnum⟩ := Option.map_eq_some_iff.mp hrun
  obtain ⟨s₁, h₁, hs⟩ := Lts.exec_cons hs
  obtain ⟨s₂, h₂, hs⟩ := Lts.exec_cons hs
  obtain ⟨s₃, h₃, hs⟩ := Lts.exec_cons hs
  obtain ⟨s₄, h₄, hs⟩ := Lts.exec_cons hs
  obtain rfl := Option.some.inj hs
  have v₀ : slabLts.Via DrainedFirst slabEmpty := .init rfl
  have v₁ := Lts.Via.step (a := SlabEvent.init true) v₀ trivial h₁
  have v₂ := Lts.Via.step (a := SlabEvent.create true) v₁ trivial h₂
  have v₃ := Lts.Via.step (a := SlabEvent.put 0) v₂ trivial h₃
  have v₄ := Lts.Via.step (a := SlabEvent.rcu 0) v₃ trivial h₄
  exact ⟨s₄, hnum, (fence_slab_outlives v₄).1⟩

/-- The holder of a fence lets go only after the device is gone: the callback finds no
cache. -/
theorem fence_slab_gone : ∃ s x, slabLts.Reachable s ∧ s.fence 0 = some x ∧
    x.queued = true ∧ s.limaFenceReleaseRcu 0 x = .oops := by
  have hrun : ((Lts.exec slabStep slabEmpty [.init true, .create true, .fini, .put 0]).map
      fun s => (s.limaFenceSlab, s.fence 0)) = some (none, some ⟨0, 0, true⟩) := rfl
  obtain ⟨s, hs, hobs⟩ := Option.map_eq_some_iff.mp hrun
  obtain ⟨hslab, hfence⟩ := Prod.mk.inj hobs
  refine ⟨s, ⟨0, 0, true⟩, ?_, hfence, rfl, ?_⟩
  · exact Lts.Reachable.exec (fun _ _ _ hstep => hstep) (.init rfl) hs
  · simp [SlabSys.limaFenceReleaseRcu, hslab]

end Lima
