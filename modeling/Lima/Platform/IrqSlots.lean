import Lima.Lib.Lts
import Lima.Lib.Trace
import Lima.Platform.IrqToken

/-!
# Interrupt handlers of a platform device

`request_irq` allocates a descriptor with `kzalloc`, which the slot owns until
`free_irq`; `devm_request_irq` allocates it on the device's devres list, which owns it
until the last reference to the device goes. A handler is torn down by `free_irq`, by
the release of a devres entry, which tears down whatever the slot then holds, and by
detach. A failed probe and a detach run the devres list and release the interrupts.

The history of what is asked of newbus and of the allocator is part of the state: it
is newbus's table of handlers, and it says which descriptors are allocated.
-/

namespace Lima

/-! ## Descriptors and events -/

/-- A `struct lkpi_platform_irqe`: its allocation, its slot and its owner. -/
structure Irqe where
  id : ℕ
  idx : ℕ
  devres : Bool
deriving DecidableEq, Repr

/-- Allocation, use and freeing of a descriptor; setting up, with the cookie newbus
returns, and tearing down a handler; releasing an interrupt. -/
inductive IrqEvent where
  | alloc (e : Irqe)
  | use (e : Irqe)
  | free (e : Irqe)
  | setup (tag idx : ℕ) (e : Irqe)
  | teardown (tag : ℕ)
  | release (idx : ℕ)
deriving DecidableEq, Repr

/-- The descriptor is allocated and not freed. -/
def Live (tr : List IrqEvent) (e : Irqe) : Prop := .alloc e ∈ tr ∧ .free e ∉ tr

/-- The handler is established. -/
def Up (tr : List IrqEvent) (tag idx : ℕ) (e : Irqe) : Prop :=
  .setup tag idx e ∈ tr ∧ .teardown tag ∉ tr

instance (tr : List IrqEvent) (e : Irqe) : Decidable (Live tr e) :=
  inferInstanceAs (Decidable (_ ∧ _))

instance (tr : List IrqEvent) (tag idx : ℕ) (e : Irqe) : Decidable (Up tr tag idx e) :=
  inferInstanceAs (Decidable (_ ∧ _))

/-! ## Functions -/

inductive IrqPhase where
  | probing | attached | gone
deriving DecidableEq, Repr

/-- A platform device's interrupts: `irqTag` and `irqEnt` for each, the devres list,
where the device is in its life, and the names the next allocation and the next setup
get. -/
structure PlatformIrqs where
  nirq : ℕ
  irqTag : ℕ → Option ℕ
  irqEnt : ℕ → Option Irqe
  devres : List Irqe
  phase : IrqPhase
  nextIrqe : ℕ
  nextTag : ℕ
  trace : List IrqEvent

namespace PlatformIrqs

def record (ev : IrqEvent) (d : PlatformIrqs) : PlatformIrqs := { d with trace := ev :: d.trace }

def setTag (idx : ℕ) (tag : Option ℕ) (d : PlatformIrqs) : PlatformIrqs :=
  { d with irqTag := Function.update d.irqTag idx tag }

def setEnt (idx : ℕ) (ent : Option Irqe) (d : PlatformIrqs) : PlatformIrqs :=
  { d with irqEnt := Function.update d.irqEnt idx ent }

/-- `bus_teardown_intr` on what the slot holds, and the slot cleared. -/
def busTeardownIntr (idx : ℕ) (d : PlatformIrqs) : PlatformIrqs :=
  match d.irqTag idx with
  | some tag => (d.record (.teardown tag)).setTag idx none
  | none => d

/-- It reads the descriptor's device and index, and acts on the slot. -/
def lkpiPlatformIrqTeardown (irqe : Irqe) (d : PlatformIrqs) : PlatformIrqs :=
  ((d.record (.use irqe)).busTeardownIntr irqe.idx).setEnt irqe.idx none

/-- How the calls `lkpi_platform_request_irq` makes end. -/
structure RequestEnv where
  handler : Bool
  alloc : Bool
  setup : Option Errno
deriving DecidableEq, Repr

/-- `managed` tells `devm_request_irq` on the device from `request_irq`. -/
def lkpiPlatformRequestIrq (managed : Bool) (irq : ℕ) (env : RequestEnv) (d : PlatformIrqs) :
    PlatformIrqs × Option Errno :=
  if !env.handler then (d, some .einval)
  else if !lkpiPlatformIrqIsToken irq then (d, some .enxio)
  else
    let idx := lkpiPlatformIrqIndex irq
    if idx ≥ d.nirq then (d, some .enxio)
    else if (d.irqTag idx).isSome then (d, some .ebusy)
    else if !env.alloc then (d, some .enomem)
    else
      let irqe : Irqe := ⟨d.nextIrqe, idx, managed⟩
      let tag := d.nextTag
      let d := { d.record (.alloc irqe) with nextIrqe := d.nextIrqe + 1 }
      match env.setup with
      | some e => ((d.setTag idx none).record (.free irqe), some e)
      | none =>
          let d := { d.record (.setup tag idx irqe) with nextTag := tag + 1 }
          let d := (d.setTag idx (some tag)).setEnt idx (some irqe)
          (if managed then { d with devres := irqe :: d.devres } else d, none)

/-- A devres entry stays on the list. -/
def lkpiPlatformFreeIrq (irq : ℕ) (d : PlatformIrqs) : PlatformIrqs :=
  if !lkpiPlatformIrqIsToken irq then d
  else
    let idx := lkpiPlatformIrqIndex irq
    if idx ≥ d.nirq then d
    else
      match d.irqEnt idx with
      | none => d
      | some irqe =>
          let d := (d.lkpiPlatformIrqTeardown irqe).record (.use irqe)
          if irqe.devres then d else d.record (.free irqe)

/-- `lkpi_devres_release_free_list`: each entry is released, newest first, and freed. -/
def lkpiDevresReleaseFreeList : List Irqe → PlatformIrqs → PlatformIrqs
  | [], d => d
  | irqe :: rest, d =>
      lkpiDevresReleaseFreeList rest
        { (d.lkpiPlatformIrqTeardown irqe).record (.free irqe) with devres := rest }

/-- The last reference to the device goes. -/
def putDevice (d : PlatformIrqs) : PlatformIrqs := lkpiDevresReleaseFreeList d.devres d

/-- The loop of `bus_release_resource` over the first `n` interrupts. -/
def releaseIrqs : ℕ → PlatformIrqs → PlatformIrqs
  | 0, d => d
  | n + 1, d => (releaseIrqs n d).record (.release n)

/-- The loop of `lkpi_platform_bus_detach` over the first `n` slots. -/
def teardownIrqs : ℕ → PlatformIrqs → PlatformIrqs
  | 0, d => d
  | n + 1, d => (teardownIrqs n d).busTeardownIntr n

/-- What `lkpi_platform_bus_attach` does after a probe that failed. -/
def attachFail (d : PlatformIrqs) : PlatformIrqs :=
  { d.putDevice.releaseIrqs d.nirq with phase := .gone }

/-- `lkpi_platform_bus_detach` after the driver's `remove`. -/
def lkpiPlatformBusDetach (d : PlatformIrqs) : PlatformIrqs :=
  { (d.teardownIrqs d.nirq).putDevice.releaseIrqs d.nirq with phase := .gone }

end PlatformIrqs

/-! ## The transition system -/

inductive SlotAct where
  | request (managed : Bool) (irq : ℕ) (env : PlatformIrqs.RequestEnv)
  | free (irq : ℕ)
  | interrupt (tag idx : ℕ) (e : Irqe)
  | probed (ok : Bool)
  | detach
deriving DecidableEq, Repr

/-- The driver calls from its probe until the end of its `remove`. An established
handler can be entered at any time and reads its descriptor. -/
def irqsStep (d : PlatformIrqs) : SlotAct → Option PlatformIrqs
  | .request managed irq env =>
      if d.phase ≠ .gone then some (d.lkpiPlatformRequestIrq managed irq env).1 else none
  | .free irq => if d.phase ≠ .gone then some (d.lkpiPlatformFreeIrq irq) else none
  | .interrupt tag idx e => if Up d.trace tag idx e then some (d.record (.use e)) else none
  | .probed ok =>
      if d.phase = .probing then some (if ok then { d with phase := .attached } else d.attachFail)
      else none
  | .detach => if d.phase = .attached then some d.lkpiPlatformBusDetach else none

/-- A device whose attach has acquired `nirq` interrupts and is about to probe. -/
def PlatformIrqs.blank (nirq : ℕ) : PlatformIrqs where
  nirq := nirq
  irqTag := fun _ => none
  irqEnt := fun _ => none
  devres := []
  phase := .probing
  nextIrqe := 0
  nextTag := 0
  trace := []

def irqsLts (nirq : ℕ) : Lts PlatformIrqs SlotAct where
  init d := d = .blank nirq
  step d a d' := irqsStep d a = some d'

/-! ## The property -/

/-- In a trace, newest event first: a slot has one handler at a time; a handler is set
up once and torn down at most once, after its setup; it is torn down before its
interrupt is released; a descriptor is allocated once, freed at most once and after
that not used. -/
structure Accounted (tr : List IrqEvent) : Prop where
  one : ∀ idx t e t' e', Up tr t idx e → Up tr t' idx e' → t = t' ∧ e = e'
  setup : ∀ t idx e, tr.count (.setup t idx e) ≤ 1
  teardown : ∀ t, tr.count (.teardown t) ≤ 1
  matched : ∀ post pre t, tr = post ++ .teardown t :: pre → ∃ idx e, .setup t idx e ∈ pre
  release : ∀ post pre idx, tr = post ++ .release idx :: pre →
    ∀ t e, .setup t idx e ∈ tr → .teardown t ∈ pre
  alloc : ∀ e, tr.count (.alloc e) ≤ 1
  free : ∀ e, tr.count (.free e) ≤ 1
  unused : ∀ post pre e, tr = post ++ .free e :: pre → .use e ∉ post

/-- Every handler has been torn down once and every descriptor freed once. -/
structure Settled (tr : List IrqEvent) : Prop where
  teardown : ∀ t idx e, .setup t idx e ∈ tr → tr.count (.teardown t) = 1
  free : ∀ e, .alloc e ∈ tr → tr.count (.free e) = 1

/-- What was requested without devm has been freed when the probe fails or the device
is detached. -/
def PlatformIrqs.NoneHeld (d : PlatformIrqs) : SlotAct → Prop
  | .probed false | .detach => ∀ idx e, d.irqEnt idx = some e → e.devres = true
  | _ => True

/-! ## The protocol of the trace -/

/-- What an event takes for granted of the events before it. -/
def irqProtocol (pre : List IrqEvent) : IrqEvent → Prop
  | .alloc e => .alloc e ∉ pre
  | .use e => Live pre e
  | .free e => Live pre e
  | .setup t idx _ =>
      (∀ i f, .setup t i f ∉ pre) ∧ (∀ t' f, ¬ Up pre t' idx f) ∧ .release idx ∉ pre ∧
        .teardown t ∉ pre
  | .teardown t => (∃ idx e, .setup t idx e ∈ pre) ∧ .teardown t ∉ pre
  | .release idx => ∀ t e, .setup t idx e ∈ pre → .teardown t ∈ pre

open Trace (Follows)

section Events

variable {tr : List IrqEvent} {e f : Irqe} {t t' idx i : ℕ}

@[simp] theorem live_alloc :
    Live (.alloc f :: tr) e ↔ (e = f ∨ .alloc e ∈ tr) ∧ .free e ∉ tr := by simp [Live]
@[simp] theorem live_use : Live (.use f :: tr) e ↔ Live tr e := by simp [Live]
@[simp] theorem live_free : Live (.free f :: tr) e ↔ Live tr e ∧ e ≠ f := by
  simp [Live]
  tauto
@[simp] theorem live_setup : Live (.setup t idx f :: tr) e ↔ Live tr e := by simp [Live]
@[simp] theorem live_teardown : Live (.teardown t :: tr) e ↔ Live tr e := by simp [Live]
@[simp] theorem live_release : Live (.release idx :: tr) e ↔ Live tr e := by simp [Live]

@[simp] theorem up_alloc : Up (.alloc f :: tr) t idx e ↔ Up tr t idx e := by simp [Up]
@[simp] theorem up_use : Up (.use f :: tr) t idx e ↔ Up tr t idx e := by simp [Up]
@[simp] theorem up_free : Up (.free f :: tr) t idx e ↔ Up tr t idx e := by simp [Up]
@[simp] theorem up_setup :
    Up (.setup t' i f :: tr) t idx e ↔
      (t = t' ∧ idx = i ∧ e = f ∨ .setup t idx e ∈ tr) ∧ .teardown t ∉ tr := by simp [Up]
@[simp] theorem up_teardown : Up (.teardown t' :: tr) t idx e ↔ Up tr t idx e ∧ t ≠ t' := by
  simp [Up]
  tauto
@[simp] theorem up_release : Up (.release i :: tr) t idx e ↔ Up tr t idx e := by simp [Up]

end Events

/-- A cookie is the cookie of one handler. -/
theorem setup_inj {tr : List IrqEvent} (h : Follows irqProtocol tr) {t i j : ℕ} {e f : Irqe}
    (hi : .setup t i e ∈ tr) (hj : .setup t j f ∈ tr) : i = j ∧ e = f := by
  induction tr with
  | nil => cases hi
  | cons ev pre ih =>
      rcases List.mem_cons.mp hi with rfl | hi' <;> rcases List.mem_cons.mp hj with heq | hj'
      · cases heq
        exact ⟨rfl, rfl⟩
      · exact absurd hj' (h.1.1 j f)
      · subst heq
        exact absurd hi' (h.1.1 i e)
      · exact ih h.2 hi' hj'

/-- A slot has one handler at a time. -/
theorem up_inj {tr : List IrqEvent} (h : Follows irqProtocol tr) {idx t t' : ℕ} {e e' : Irqe}
    (hu : Up tr t idx e) (hu' : Up tr t' idx e') : t = t' := by
  induction tr with
  | nil => cases hu.1
  | cons ev pre ih =>
      have hold : ∀ {t e}, Up (ev :: pre) t idx e → .setup t idx e ∈ pre → Up pre t idx e :=
        fun hu hmem => ⟨hmem, fun hdown => hu.2 (List.mem_cons_of_mem _ hdown)⟩
      rcases List.mem_cons.mp hu.1 with rfl | hin <;>
        rcases List.mem_cons.mp hu'.1 with heq | hin'
      · cases heq
        rfl
      · exact absurd (hold hu' hin') (h.1.2.1 _ _)
      · subst heq
        exact absurd (hold hu hin) (h.1.2.1 _ _)
      · exact ih h.2 (hold hu hin) (hold hu' hin')

/-- A trace that follows the protocol is accounted for. -/
theorem accounted_of_follows {tr : List IrqEvent} (h : Follows irqProtocol tr) :
    Accounted tr := by
  constructor
  · intro idx t e t' e' hu hu'
    obtain rfl := up_inj h hu hu'
    exact ⟨rfl, (setup_inj h hu.1 hu'.1).2⟩
  · intro t idx e
    exact h.count_le_one fun pre hok => hok.1 idx e
  · intro t
    exact h.count_le_one fun pre hok => hok.2
  · rintro post pre t rfl
    exact h.split.1
  · rintro post pre idx rfl t e hmem
    rcases List.mem_append.mp hmem with hpost | hpre
    · have hno : IrqEvent.setup t idx e ∉ post := h.excluded fun _ hok => hok.2.2.1
      exact absurd hpost hno
    · rcases List.mem_cons.mp hpre with heq | hpre
      · cases heq
      · exact h.split t e hpre
  · intro e
    exact h.count_le_one fun pre hok => hok
  · intro e
    exact h.count_le_one fun pre hok => hok.2
  · rintro post pre e rfl
    have hno : IrqEvent.use e ∉ post := h.excluded fun _ hok => hok.2
    exact hno

/-- If nothing is left established or allocated, the trace is settled. -/
theorem settled_of_follows {tr : List IrqEvent} (h : Follows irqProtocol tr)
    (hup : ∀ t idx e, ¬ Up tr t idx e) (hlive : ∀ e, ¬ Live tr e) : Settled tr := by
  constructor
  · intro t idx e hmem
    have hdown : .teardown t ∈ tr := by
      by_contra hno
      exact hup t idx e ⟨hmem, hno⟩
    have hle := (accounted_of_follows h).teardown t
    have hpos := List.count_pos_iff.mpr hdown
    omega
  · intro e hmem
    have hfree : .free e ∈ tr := by
      by_contra hno
      exact hlive e ⟨hmem, hno⟩
    have hle := (accounted_of_follows h).free e
    have hpos := List.count_pos_iff.mpr hfree
    omega

/-! ## The invariant -/

namespace PlatformIrqs

variable {d : PlatformIrqs} {e : Irqe}

/-- The tags are the handlers newbus has, and the devres list is the list of the
allocated devres descriptors. -/
structure Core (d : PlatformIrqs) : Prop where
  follows : Follows irqProtocol d.trace
  tag : ∀ idx t, d.irqTag idx = some t ↔ ∃ e, Up d.trace t idx e
  up : ∀ t idx e, Up d.trace t idx e → Live d.trace e ∧ e.idx = idx ∧ idx < d.nirq
  devres : ∀ e, e ∈ d.devres ↔ Live d.trace e ∧ e.devres = true
  nodup : d.devres.Nodup
  irqe : ∀ e, .alloc e ∈ d.trace → e.id < d.nextIrqe
  cookie : ∀ t idx e, .setup t idx e ∈ d.trace → t < d.nextTag
  held : ∀ idx, .release idx ∉ d.trace

/-- While the driver has the device, a slot's descriptor is that of its handler, and the
descriptors that are on no list are in their slots. -/
structure Inv (d : PlatformIrqs) : Prop extends Core d where
  ent : ∀ idx e, d.irqEnt idx = some e ↔ ∃ t, Up d.trace t idx e
  plain : ∀ e, Live d.trace e → e.devres = false → d.irqEnt e.idx = some e

theorem Core.not_up (h : d.Core) {idx : ℕ} (hidx : d.irqTag idx = none) (t : ℕ) (e : Irqe) :
    ¬ Up d.trace t idx e := by
  intro hup
  rw [(h.tag idx t).mpr ⟨e, hup⟩] at hidx
  cases hidx

/-- What is freed was allocated, so a descriptor under the next name is not freed. -/
theorem Core.fresh_irqe (h : d.Core) {e : Irqe} (he : e.id = d.nextIrqe) :
    .alloc e ∉ d.trace ∧ .free e ∉ d.trace := by
  have hno : .alloc e ∉ d.trace := fun hmem => absurd (h.irqe e hmem) (by omega)
  refine ⟨hno, fun hfree => hno ?_⟩
  exact h.follows.presupposed (P := fun tr => .alloc e ∈ tr)
    (fun pre (hok : irqProtocol pre (.free e)) => hok.1)
    (fun _ _ => List.mem_cons_of_mem _) hfree

/-- The next cookie has been neither set up nor torn down. -/
theorem Core.fresh_tag (h : d.Core) :
    (∀ i f, .setup d.nextTag i f ∉ d.trace) ∧ .teardown d.nextTag ∉ d.trace := by
  have hno : ∀ i f, .setup d.nextTag i f ∉ d.trace :=
    fun i f hmem => lt_irrefl _ (h.cookie _ i f hmem)
  refine ⟨hno, fun hdown => ?_⟩
  obtain ⟨i, f, hmem⟩ := h.follows.presupposed
    (P := fun tr => ∃ i f, .setup d.nextTag i f ∈ tr)
    (fun pre (hok : irqProtocol pre (.teardown d.nextTag)) => hok.1)
    (fun _ _ ⟨i, f, hmem⟩ => ⟨i, f, List.mem_cons_of_mem _ hmem⟩) hdown
  exact hno i f hmem

/-! ## One call -/

theorem Core.use (h : d.Core) (he : Live d.trace e) : (d.record (.use e)).Core where
  follows := ⟨he, h.follows⟩
  tag := by
    intro idx t
    simpa [record] using h.tag idx t
  up := by simpa [record] using h.up
  devres := by simpa [record] using h.devres
  nodup := h.nodup
  irqe := by simpa [record] using h.irqe
  cookie := by simpa [record] using h.cookie
  held := by simpa [record] using h.held

/-- What `bus_teardown_intr` on a slot changes: the slot's handler is gone. -/
theorem Core.busTeardownIntr (h : d.Core) (idx : ℕ) : (d.busTeardownIntr idx).Core ∧
    (∀ t i e, Up (d.busTeardownIntr idx).trace t i e ↔ Up d.trace t i e ∧ i ≠ idx) ∧
    ∀ e, Live (d.busTeardownIntr idx).trace e ↔ Live d.trace e := by
  unfold PlatformIrqs.busTeardownIntr
  cases htag : d.irqTag idx with
  | none =>
      refine ⟨h, ?_, fun e => Iff.rfl⟩
      intro t i e
      constructor
      · intro hup
        refine ⟨hup, ?_⟩
        rintro rfl
        exact h.not_up htag t e hup
      · exact And.left
  | some tag =>
      obtain ⟨f, hf⟩ := (h.tag idx tag).mp htag
      have hup : ∀ t i e, Up (.teardown tag :: d.trace) t i e ↔ Up d.trace t i e ∧ i ≠ idx := by
        intro t i e
        rw [up_teardown]
        refine and_congr_right fun hup => not_congr ?_
        constructor
        · rintro rfl
          exact (setup_inj h.follows hup.1 hf.1).1
        · rintro rfl
          exact up_inj h.follows hup hf
      refine ⟨?_, hup, fun e => live_teardown⟩
      constructor
      · exact ⟨⟨⟨idx, f, hf.1⟩, hf.2⟩, h.follows⟩
      · intro i t
        show Function.update d.irqTag idx none i = some t ↔ ∃ e, Up (.teardown tag :: d.trace) t i e
        by_cases hi : i = idx
        · subst hi
          simp [hup]
        · simp only [Function.update_of_ne hi, hup, h.tag, hi, ne_eq, not_false_eq_true, and_true]
      · intro t i e hu
        rw [show (setTag idx none (d.record (.teardown tag))).trace = .teardown tag :: d.trace
          from rfl, live_teardown]
        exact h.up t i e ((hup t i e).mp hu).1
      · intro e
        exact (h.devres e).trans (and_congr_left' live_teardown.symm)
      · exact h.nodup
      · intro e hmem
        exact h.irqe e (by simpa [record, setTag] using hmem)
      · intro t i e hmem
        exact h.cookie t i e (by simpa [record, setTag] using hmem)
      · intro i hmem
        exact h.held i (by simpa [record, setTag] using hmem)

theorem busTeardownIntr_frame (d : PlatformIrqs) (idx : ℕ) :
    (d.busTeardownIntr idx).devres = d.devres ∧ (d.busTeardownIntr idx).irqEnt = d.irqEnt ∧
      (d.busTeardownIntr idx).nirq = d.nirq ∧ (d.busTeardownIntr idx).phase = d.phase := by
  unfold busTeardownIntr
  cases d.irqTag idx with
  | none => exact ⟨rfl, rfl, rfl, rfl⟩
  | some tag => exact ⟨rfl, rfl, rfl, rfl⟩

/-- What the teardown of an allocated descriptor changes: its slot is empty. -/
theorem Core.irqTeardown (h : d.Core) (he : Live d.trace e) :
    (d.lkpiPlatformIrqTeardown e).Core ∧
    (∀ t i f, Up (d.lkpiPlatformIrqTeardown e).trace t i f ↔ Up d.trace t i f ∧ i ≠ e.idx) ∧
    ∀ f, Live (d.lkpiPlatformIrqTeardown e).trace f ↔ Live d.trace f := by
  obtain ⟨hcore, hup, hlive⟩ := (h.use he).busTeardownIntr e.idx
  refine ⟨?_, ?_, ?_⟩
  · exact ⟨hcore.follows, hcore.tag, hcore.up, hcore.devres, hcore.nodup, hcore.irqe,
      hcore.cookie, hcore.held⟩
  · intro t i f
    exact (hup t i f).trans (and_congr_left' up_use)
  · intro f
    exact (hlive f).trans live_use

theorem irqTeardown_frame (d : PlatformIrqs) (e : Irqe) :
    (d.lkpiPlatformIrqTeardown e).devres = d.devres ∧
      (d.lkpiPlatformIrqTeardown e).irqEnt = Function.update d.irqEnt e.idx none ∧
      (d.lkpiPlatformIrqTeardown e).nirq = d.nirq ∧
      (d.lkpiPlatformIrqTeardown e).phase = d.phase := by
  obtain ⟨hdev, hent, hnirq, hphase⟩ := busTeardownIntr_frame (d.record (.use e)) e.idx
  refine ⟨hdev, ?_, hnirq, hphase⟩
  rw [lkpiPlatformIrqTeardown, setEnt, hent]
  rfl

/-- An allocated descriptor of no handler can be freed, and taken off the list. -/
theorem Core.free (h : d.Core) (he : Live d.trace e) (hno : ∀ t i, ¬ Up d.trace t i e)
    (rest : List Irqe) (hrest : ∀ f, f ∈ rest ↔ f ∈ d.devres ∧ f ≠ e) (hnodup : rest.Nodup) :
    Core { d.record (.free e) with devres := rest } where
  follows := ⟨he, h.follows⟩
  tag := by
    intro idx t
    simpa [record] using h.tag idx t
  up := by
    intro t idx f hup
    have hup' : Up d.trace t idx f := up_free.mp hup
    obtain ⟨hlive, hidx, hlt⟩ := h.up t idx f hup'
    refine ⟨live_free.mpr ⟨hlive, ?_⟩, hidx, hlt⟩
    rintro rfl
    exact hno t idx hup'
  devres := by
    intro f
    show f ∈ rest ↔ Live (.free e :: d.trace) f ∧ _
    rw [hrest, h.devres, live_free]
    tauto
  nodup := hnodup
  irqe := by simpa [record] using h.irqe
  cookie := by simpa [record] using h.cookie
  held := by simpa [record] using h.held

/-- The handler of a slot is torn down, and its descriptor freed if the slot owns it. -/
theorem Inv.freeEnt (h : d.Inv) {idx : ℕ} (hent : d.irqEnt idx = some e) :
    Inv (if e.devres then (d.lkpiPlatformIrqTeardown e).record (.use e)
      else ((d.lkpiPlatformIrqTeardown e).record (.use e)).record (.free e)) := by
  obtain ⟨t, hupt⟩ := (h.ent idx e).mp hent
  obtain ⟨hlive, hidx, -⟩ := h.up t idx e hupt
  subst hidx
  obtain ⟨hcore, hup, hlv⟩ := h.irqTeardown hlive
  obtain ⟨hdev, hent', hnirq, -⟩ := irqTeardown_frame d e
  have hlive' := (hlv e).mpr hlive
  have hcore' := hcore.use hlive'
  generalize d.lkpiPlatformIrqTeardown e = d' at *
  have hent'' : ∀ i f, d'.irqEnt i = some f ↔ ∃ t, Up d'.trace t i f := by
    intro i f
    rw [hent']
    by_cases hi : i = e.idx
    · subst hi
      simp [hup]
    · simp only [Function.update_of_ne hi, h.ent, hup, hi, ne_eq, not_false_eq_true,
        and_true]
  have hplain : ∀ f, Live d'.trace f → f.devres = false → f ≠ e →
      d'.irqEnt f.idx = some f := by
    intro f hf hdf hne
    have hin := h.plain f ((hlv f).mp hf) hdf
    have hidx : f.idx ≠ e.idx := by
      intro heq
      rw [heq, hent] at hin
      exact hne (Option.some.inj hin).symm
    rw [hent', Function.update_of_ne hidx]
    exact hin
  cases hdv : e.devres with
  | true =>
      refine ⟨hcore', ?_, ?_⟩
      · intro i f
        simpa [record] using hent'' i f
      · intro f hf hdf
        refine hplain f (live_use.mp hf) hdf ?_
        rintro rfl
        rw [hdv] at hdf
        cases hdf
  | false =>
      have hfreed := hcore'.free (live_use.mpr hlive') ?_ d'.devres ?_ hcore.nodup
      · refine ⟨hfreed, ?_, ?_⟩
        · intro i f
          simpa [record] using hent'' i f
        · intro f hf hdf
          have hf' := live_free.mp hf
          exact hplain f (live_use.mp hf'.1) hdf hf'.2
      · intro t i hu
        have hu' := (hup t i e).mp (up_use.mp hu)
        exact hu'.2 (h.up t i e hu'.1).2.1.symm
      · intro f
        constructor
        · intro hf
          refine ⟨hf, ?_⟩
          rintro rfl
          have := ((hcore.devres f).mp hf).2
          rw [hdv] at this
          cases this
        · exact And.left

theorem Inv.freeIrq (h : d.Inv) (irq : ℕ) : (d.lkpiPlatformFreeIrq irq).Inv := by
  unfold lkpiPlatformFreeIrq
  split
  · exact h
  · dsimp only
    split
    · exact h
    · split
      · exact h
      · next e hent => exact h.freeEnt hent

/-- The descriptor a request has allocated, set up in an empty slot. -/
theorem Inv.setupOk (h : d.Inv) {idx : ℕ} (hlt : idx < d.nirq) (htag : d.irqTag idx = none)
    (managed : Bool) (he : e = ⟨d.nextIrqe, idx, managed⟩) :
    Inv { d with
      irqTag := Function.update d.irqTag idx (some d.nextTag)
      irqEnt := Function.update d.irqEnt idx (some e)
      devres := if managed then e :: d.devres else d.devres
      nextIrqe := d.nextIrqe + 1
      nextTag := d.nextTag + 1
      trace := .setup d.nextTag idx e :: .alloc e :: d.trace } := by
  obtain ⟨halloc, hfree⟩ := h.fresh_irqe (e := e) (by rw [he])
  obtain ⟨hsetup, hdown⟩ := h.fresh_tag
  have hnone := h.not_up htag
  have hlive : ∀ f, Live (.setup d.nextTag idx e :: .alloc e :: d.trace) f ↔
      f = e ∨ Live d.trace f := by
    intro f
    rw [live_setup, live_alloc]
    constructor
    · rintro ⟨rfl | hf, hno⟩
      · exact .inl rfl
      · exact .inr ⟨hf, hno⟩
    · rintro (rfl | hf)
      · exact ⟨.inl rfl, hfree⟩
      · exact ⟨.inr hf.1, hf.2⟩
  have hup : ∀ t i f, Up (.setup d.nextTag idx e :: .alloc e :: d.trace) t i f ↔
      (t = d.nextTag ∧ i = idx ∧ f = e) ∨ Up d.trace t i f := by
    intro t i f
    rw [up_setup]
    constructor
    · rintro ⟨hnew | hold, hno⟩
      · exact .inl hnew
      · exact .inr (up_alloc.mp ⟨hold, hno⟩)
    · rintro (⟨rfl, rfl, rfl⟩ | hold)
      · exact ⟨.inl ⟨rfl, rfl, rfl⟩, by simpa using hdown⟩
      · exact ⟨.inr (List.mem_cons_of_mem _ hold.1), by simpa using hold.2⟩
  constructor
  · constructor
    · refine ⟨⟨?_, ?_, ?_, ?_⟩, halloc, h.follows⟩
      · intro i f hmem
        exact hsetup i f (by simpa using hmem)
      · intro t f hu
        exact hnone t f (up_alloc.mp hu)
      · simpa using h.held idx
      · simpa using hdown
    · intro i t
      show Function.update d.irqTag idx (some d.nextTag) i = some t ↔ ∃ f, Up _ t i f
      simp only [hup]
      by_cases hi : i = idx
      · subst hi
        simp [hnone, eq_comm]
      · simp [hi, h.tag]
    · intro t i f hu
      rcases (hup t i f).mp hu with ⟨rfl, rfl, rfl⟩ | hold
      · exact ⟨(hlive f).mpr (.inl rfl), by rw [he], hlt⟩
      · obtain ⟨hf, hidx, hlt'⟩ := h.up t i f hold
        exact ⟨(hlive f).mpr (.inr hf), hidx, hlt'⟩
    · intro f
      show f ∈ (if managed then e :: d.devres else d.devres) ↔ Live _ f ∧ f.devres = true
      have hdv : e.devres = managed := by rw [he]
      rw [hlive]
      cases managed with
      | true =>
          rw [if_pos rfl, List.mem_cons, h.devres]
          constructor
          · rintro (rfl | hf)
            · exact ⟨.inl rfl, hdv⟩
            · exact ⟨.inr hf.1, hf.2⟩
          · rintro ⟨rfl | hf, hfd⟩
            · exact .inl rfl
            · exact .inr ⟨hf, hfd⟩
      | false =>
          rw [if_neg Bool.false_ne_true, h.devres]
          constructor
          · rintro ⟨hf, hfd⟩
            exact ⟨.inr hf, hfd⟩
          · rintro ⟨rfl | hf, hfd⟩
            · rw [hdv] at hfd
              cases hfd
            · exact ⟨hf, hfd⟩
    · show (if managed then e :: d.devres else d.devres).Nodup
      cases managed with
      | true =>
          rw [if_pos rfl, List.nodup_cons]
          exact ⟨fun hmem => halloc ((h.devres e).mp hmem).1.1, h.nodup⟩
      | false => exact h.nodup
    · intro f hmem
      rcases List.mem_cons.mp ((List.mem_cons.mp hmem).resolve_left (by simp)) with heq | hmem
      · cases heq
        rw [he]
        exact Nat.lt_succ_self _
      · exact (h.irqe f hmem).trans (Nat.lt_succ_self _)
    · intro t i f hmem
      rcases List.mem_cons.mp hmem with heq | hmem
      · cases heq
        exact Nat.lt_succ_self _
      · exact (h.cookie t i f (by simpa using hmem)).trans (Nat.lt_succ_self _)
    · intro i
      simpa using h.held i
  · intro i f
    show Function.update d.irqEnt idx (some e) i = some f ↔ ∃ t, Up _ t i f
    simp only [hup]
    by_cases hi : i = idx
    · subst hi
      simp [hnone, eq_comm]
    · simp [hi, h.ent]
  · intro f hf hdf
    show Function.update d.irqEnt idx (some e) f.idx = some f
    rcases (hlive f).mp hf with rfl | hf
    · rw [he, Function.update_self]
    · have hin := h.plain f hf hdf
      obtain ⟨t, hu⟩ := (h.ent f.idx f).mp hin
      rw [Function.update_of_ne, hin]
      intro hidx
      rw [hidx] at hu
      exact hnone t f hu

/-- The descriptor a request has allocated, freed because the setup failed. -/
theorem Inv.setupFails (h : d.Inv) (he : e.id = d.nextIrqe) :
    Inv { d with
      nextIrqe := d.nextIrqe + 1
      trace := .free e :: .alloc e :: d.trace } := by
  obtain ⟨halloc, hfree⟩ := h.fresh_irqe he
  have hlive : ∀ f, Live (.free e :: .alloc e :: d.trace) f ↔ Live d.trace f := by
    intro f
    rw [live_free, live_alloc]
    constructor
    · rintro ⟨⟨rfl | hf, hno⟩, hne⟩
      · exact absurd rfl hne
      · exact ⟨hf, hno⟩
    · intro hf
      refine ⟨⟨.inr hf.1, hf.2⟩, ?_⟩
      rintro rfl
      exact halloc hf.1
  have hup : ∀ t i f, Up (.free e :: .alloc e :: d.trace) t i f ↔ Up d.trace t i f := by
    intro t i f
    rw [up_free, up_alloc]
  constructor
  · constructor
    · exact ⟨live_alloc.mpr ⟨.inl rfl, hfree⟩, halloc, h.follows⟩
    · intro i t
      simpa only [hup] using h.tag i t
    · intro t i f hu
      rw [hlive]
      exact h.up t i f ((hup t i f).mp hu)
    · intro f
      rw [hlive]
      exact h.devres f
    · exact h.nodup
    · intro f hmem
      show f.id < d.nextIrqe + 1
      rcases List.mem_cons.mp ((List.mem_cons.mp hmem).resolve_left (by simp)) with heq | hmem
      · cases heq
        omega
      · exact (h.irqe f hmem).trans (Nat.lt_succ_self _)
    · intro t i f hmem
      exact h.cookie t i f (by simpa using hmem)
    · intro i
      simpa using h.held i
  · intro i f
    simpa only [hup] using h.ent i f
  · intro f hf hdf
    exact h.plain f ((hlive f).mp hf) hdf

theorem Inv.requestIrq (h : d.Inv) (managed : Bool) (irq : ℕ) (env : RequestEnv) :
    (d.lkpiPlatformRequestIrq managed irq env).1.Inv := by
  unfold lkpiPlatformRequestIrq
  split
  · exact h
  · split
    · exact h
    · dsimp only
      generalize lkpiPlatformIrqIndex irq = idx
      split
      · exact h
      · next hidx =>
          split
          · exact h
          · next htag =>
              have hnone : d.irqTag idx = none := by simpa using htag
              split
              · exact h
              · split
                · have hsame : Function.update d.irqTag idx none = d.irqTag := by
                    rw [← hnone, Function.update_eq_self]
                  have hfail := h.setupFails (e := ⟨d.nextIrqe, idx, managed⟩) rfl
                  simpa only [record, setTag, hsame] using hfail
                · have hok := h.setupOk (not_le.mp hidx) hnone managed rfl
                  cases managed with
                  | true => exact hok
                  | false => exact hok

/-! ## The end of a device -/

/-- The devres list runs: each entry empties its slot and is freed, and the descriptors
left are those that were on no list. -/
theorem Core.releaseFreeList {l : List Irqe} : ∀ {d : PlatformIrqs}, d.Core → d.devres = l →
    (lkpiDevresReleaseFreeList l d).Core ∧ (lkpiDevresReleaseFreeList l d).devres = [] ∧
    ∀ e, Live (lkpiDevresReleaseFreeList l d).trace e ↔ Live d.trace e ∧ e.devres = false := by
  induction l with
  | nil =>
      intro d h hl
      refine ⟨h, hl, fun e => ⟨fun he => ⟨he, ?_⟩, And.left⟩⟩
      rw [← Bool.not_eq_true]
      intro hdv
      have hmem := (h.devres e).mpr ⟨he, hdv⟩
      rw [hl] at hmem
      cases hmem
  | cons e rest ih =>
      intro d h hl
      obtain ⟨hlive, hdv⟩ := (h.devres e).mp (by rw [hl]; exact List.mem_cons_self)
      have hnodup : (e :: rest).Nodup := by
        rw [← hl]
        exact h.nodup
      obtain ⟨hcore, hup, hlv⟩ := h.irqTeardown hlive
      obtain ⟨hdev, -⟩ := irqTeardown_frame d e
      have hfreed := hcore.free ((hlv e).mpr hlive) ?_ rest ?_ hnodup.of_cons
      · obtain ⟨hcore', hnil, hback⟩ := ih hfreed rfl
        refine ⟨hcore', hnil, ?_⟩
        intro f
        refine (hback f).trans (and_congr_left fun hfd => ?_)
        show Live (.free e :: _) f ↔ _
        rw [live_free, hlv f]
        refine and_iff_left ?_
        rintro rfl
        rw [hdv] at hfd
        cases hfd
      · intro t i hu
        have hu' := (hup t i e).mp hu
        exact hu'.2 (h.up t i e hu'.1).2.1.symm
      · intro f
        rw [hdev, hl, List.mem_cons]
        constructor
        · intro hf
          refine ⟨.inr hf, ?_⟩
          rintro rfl
          exact (List.nodup_cons.mp hnodup).1 hf
        · rintro ⟨rfl | hf, hne⟩
          · exact absurd rfl hne
          · exact hf

/-- If every allocated descriptor is a devres one, dropping the device leaves none
allocated and no handler established. -/
theorem Core.putDevice (h : d.Core) (hall : ∀ e, Live d.trace e → e.devres = true) :
    Follows irqProtocol d.putDevice.trace ∧ (∀ t i e, ¬ Up d.putDevice.trace t i e) ∧
      ∀ e, ¬ Live d.putDevice.trace e := by
  obtain ⟨hcore, hnil, hback⟩ := h.releaseFreeList rfl
  have hnone : ∀ e, ¬ Live d.putDevice.trace e := by
    intro e he
    obtain ⟨hl, hdv⟩ := (hback e).mp he
    rw [hall e hl] at hdv
    cases hdv
  exact ⟨hcore.follows, fun t i e hu => hnone e (hcore.up t i e hu).1, hnone⟩

/-- The loop of the detach over the slots. -/
theorem Core.teardownIrqs (h : d.Core) (n : ℕ) : (d.teardownIrqs n).Core ∧
    ∀ e, Live (d.teardownIrqs n).trace e ↔ Live d.trace e := by
  induction n with
  | zero => exact ⟨h, fun e => Iff.rfl⟩
  | succ n ih =>
      obtain ⟨hcore, -, hlv⟩ := ih.1.busTeardownIntr n
      exact ⟨hcore, fun e => (hlv e).trans (ih.2 e)⟩

/-- With no handler established the interrupts can be released. -/
theorem releaseIrqs_follows (h : Follows irqProtocol d.trace)
    (hup : ∀ t i e, ¬ Up d.trace t i e) (n : ℕ) :
    Follows irqProtocol (d.releaseIrqs n).trace ∧
      ∀ t i e, ¬ Up (d.releaseIrqs n).trace t i e := by
  induction n with
  | zero => exact ⟨h, hup⟩
  | succ n ih =>
      obtain ⟨hf, hno⟩ := ih
      refine ⟨⟨?_, hf⟩, ?_⟩
      · intro t e hmem
        by_contra hdown
        exact hno t n e ⟨hmem, hdown⟩
      · intro t i e hu
        exact hno t i e (up_release.mp hu)

theorem releaseIrqs_live (d : PlatformIrqs) (n : ℕ) (e : Irqe) :
    Live (d.releaseIrqs n).trace e ↔ Live d.trace e := by
  induction n with
  | zero => exact Iff.rfl
  | succ n ih => exact live_release.trans ih

/-- Nothing is established and nothing allocated. -/
structure Over (d : PlatformIrqs) : Prop where
  follows : Follows irqProtocol d.trace
  up : ∀ t i e, ¬ Up d.trace t i e
  live : ∀ e, ¬ Live d.trace e

theorem Over.release {d : PlatformIrqs} (h : Follows irqProtocol d.trace)
    (hup : ∀ t i e, ¬ Up d.trace t i e) (hlive : ∀ e, ¬ Live d.trace e) (n : ℕ) :
    Over { d.releaseIrqs n with phase := .gone } := by
  obtain ⟨hf, hno⟩ := releaseIrqs_follows h hup n
  exact ⟨hf, hno, fun e he => hlive e ((releaseIrqs_live d n e).mp he)⟩

/-- Descriptors of the slots that are all devres ones are all there are. -/
theorem Inv.all_devres (h : d.Inv)
    (hheld : ∀ idx e, d.irqEnt idx = some e → e.devres = true) :
    ∀ e, Live d.trace e → e.devres = true := by
  intro e he
  cases hdv : e.devres with
  | true => rfl
  | false => rw [← hdv, hheld _ _ (h.plain e he hdv)]

theorem Inv.attachFail (h : d.Inv)
    (hheld : ∀ idx e, d.irqEnt idx = some e → e.devres = true) : d.attachFail.Over := by
  obtain ⟨hf, hup, hlive⟩ := h.toCore.putDevice (h.all_devres hheld)
  exact Over.release hf hup hlive d.nirq

theorem Inv.busDetach (h : d.Inv)
    (hheld : ∀ idx e, d.irqEnt idx = some e → e.devres = true) :
    d.lkpiPlatformBusDetach.Over := by
  obtain ⟨hcore, hlv⟩ := h.toCore.teardownIrqs d.nirq
  have hall : ∀ e, Live (d.teardownIrqs d.nirq).trace e → e.devres = true :=
    fun e he => h.all_devres hheld e ((hlv e).mp he)
  obtain ⟨hf, hup, hlive⟩ := hcore.putDevice hall
  exact Over.release hf hup hlive d.nirq

/-! ## Runs -/

/-- What holds along a guarded run. -/
structure RunOk (d : PlatformIrqs) : Prop where
  inv : d.phase ≠ .gone → d.Inv
  done : d.phase = .gone → d.Over

theorem RunOk.follows (h : d.RunOk) : Follows irqProtocol d.trace := by
  by_cases hg : d.phase = .gone
  · exact (h.done hg).follows
  · exact (h.inv hg).follows

theorem Inv.runOk (h : d.Inv) (hg : d.phase ≠ .gone) : d.RunOk :=
  ⟨fun _ => h, fun hgone => absurd hgone hg⟩

theorem Over.runOk (h : d.Over) (hg : d.phase = .gone) : d.RunOk :=
  ⟨fun hne => absurd hg hne, fun _ => h⟩

theorem requestIrq_phase (d : PlatformIrqs) (managed : Bool) (irq : ℕ) (env : RequestEnv) :
    (d.lkpiPlatformRequestIrq managed irq env).1.phase = d.phase := by
  unfold lkpiPlatformRequestIrq
  grind [record, setTag, setEnt]

theorem freeIrq_phase (d : PlatformIrqs) (irq : ℕ) :
    (d.lkpiPlatformFreeIrq irq).phase = d.phase := by
  have hframe := fun e => (irqTeardown_frame d e).2.2.2
  unfold lkpiPlatformFreeIrq
  grind [record]

theorem Inv.blank (nirq : ℕ) : (PlatformIrqs.blank nirq).Inv := by
  constructor
  · constructor <;> simp [PlatformIrqs.blank, Follows, Up, Live]
  · simp [PlatformIrqs.blank, Up]
  · simp [PlatformIrqs.blank, Live]

theorem RunOk.step {d' : PlatformIrqs} {a : SlotAct} (h : d.RunOk) (ha : d.NoneHeld a)
    (hstep : irqsStep d a = some d') : d'.RunOk := by
  cases a with
  | request managed irq env =>
      simp only [irqsStep] at hstep
      split at hstep
      · next hg =>
          obtain rfl := Option.some.inj hstep
          exact ((h.inv hg).requestIrq managed irq env).runOk (by rwa [requestIrq_phase])
      · cases hstep
  | free irq =>
      simp only [irqsStep] at hstep
      split at hstep
      · next hg =>
          obtain rfl := Option.some.inj hstep
          exact ((h.inv hg).freeIrq irq).runOk (by rwa [freeIrq_phase])
      · cases hstep
  | interrupt t idx e =>
      simp only [irqsStep] at hstep
      split at hstep
      · next hu =>
          obtain rfl := Option.some.inj hstep
          by_cases hg : d.phase = .gone
          · exact absurd hu ((h.done hg).up t idx e)
          · have hinv := h.inv hg
            refine Inv.runOk ⟨hinv.toCore.use (hinv.up t idx e hu).1, ?_, ?_⟩ hg
            · intro i f
              simpa [record] using hinv.ent i f
            · intro f hf
              exact hinv.plain f (live_use.mp hf)
      · cases hstep
  | probed ok =>
      simp only [irqsStep] at hstep
      split at hstep
      · next hg =>
          obtain rfl := Option.some.inj hstep
          have hinv := h.inv (by rw [hg]; decide)
          cases ok with
          | true => exact Inv.runOk ⟨⟨hinv.follows, hinv.tag, hinv.up, hinv.devres, hinv.nodup,
              hinv.irqe, hinv.cookie, hinv.held⟩, hinv.ent, hinv.plain⟩ (by simp)
          | false => exact (hinv.attachFail ha).runOk rfl
      · cases hstep
  | detach =>
      simp only [irqsStep] at hstep
      split at hstep
      · next hg =>
          obtain rfl := Option.some.inj hstep
          exact ((h.inv (by rw [hg]; decide)).busDetach ha).runOk rfl
      · cases hstep

theorem runOk_of_via {nirq : ℕ} (h : (irqsLts nirq).Via NoneHeld d) : d.RunOk := by
  refine Lts.Via.invariant (I := RunOk) ?_ ?_ h
  · rintro d rfl
    exact (Inv.blank nirq).runOk (by simp [PlatformIrqs.blank])
  · intro d a d' _ hd ha hstep
    exact hd.step ha hstep

end PlatformIrqs

/-- A descriptor on no list outlives the device. -/
theorem PlatformIrqs.Inv.live_after {d : PlatformIrqs} (h : d.Inv) {e : Irqe}
    (he : Live d.trace e) (hdv : e.devres = false) :
    Live d.attachFail.trace e ∧ Live d.lkpiPlatformBusDetach.trace e := by
  have hput : ∀ {d' : PlatformIrqs}, d'.Core → Live d'.trace e → Live d'.putDevice.trace e :=
    fun hcore hl => ((hcore.releaseFreeList rfl).2.2 e).mpr ⟨hl, hdv⟩
  obtain ⟨hcore, hlv⟩ := h.toCore.teardownIrqs d.nirq
  constructor
  · exact (PlatformIrqs.releaseIrqs_live _ _ e).mpr (hput h.toCore he)
  · exact (PlatformIrqs.releaseIrqs_live _ _ e).mpr (hput hcore ((hlv e).mpr he))

/-! ## Main results -/

/-- **Main result.** If the driver frees what it requested without devm before its
probe fails and before its device is detached, every handler and every descriptor is
accounted for, and none is left when the device is gone. -/
theorem irq_handlers_accounted {nirq : ℕ} {d : PlatformIrqs}
    (h : (irqsLts nirq).Via PlatformIrqs.NoneHeld d) :
    Accounted d.trace ∧ (d.phase = .gone → Settled d.trace) := by
  have hrun := PlatformIrqs.runOk_of_via h
  refine ⟨accounted_of_follows hrun.follows, fun hg => ?_⟩
  have hover := hrun.done hg
  exact settled_of_follows hover.follows hover.up hover.live

/-- Any other end of a device leaves a descriptor allocated. -/
theorem noneHeld_needed {nirq : ℕ} {d d' : PlatformIrqs} {a : SlotAct}
    (h : (irqsLts nirq).Via PlatformIrqs.NoneHeld d) (hstep : irqsStep d a = some d')
    (ha : ¬ d.NoneHeld a) : d'.phase = .gone ∧ ¬ Settled d'.trace := by
  have hleft : d.Inv → ∀ {d'}, d' = d.attachFail ∨ d' = d.lkpiPlatformBusDetach →
      (¬ ∀ idx e, d.irqEnt idx = some e → e.devres = true) → ¬ Settled d'.trace := by
    intro hinv d' hd' hheld hset
    push Not at hheld
    obtain ⟨idx, e, hent, hdv⟩ := hheld
    obtain ⟨t, hup⟩ := (hinv.ent idx e).mp hent
    have hlive := hinv.live_after (hinv.up t idx e hup).1 (Bool.eq_false_iff.mpr hdv)
    have hlive' : Live d'.trace e := by
      rcases hd' with rfl | rfl
      · exact hlive.1
      · exact hlive.2
    have hcount := hset.free e hlive'.1
    exact hlive'.2 (List.count_pos_iff.mp (by omega))
  have hrun := PlatformIrqs.runOk_of_via h
  cases a with
  | request managed irq env => exact absurd trivial ha
  | free irq => exact absurd trivial ha
  | interrupt t idx e => exact absurd trivial ha
  | probed ok =>
      cases ok with
      | true => exact absurd trivial ha
      | false =>
          simp only [irqsStep] at hstep
          split at hstep
          · next hg =>
              obtain rfl := Option.some.inj hstep
              exact ⟨rfl, hleft (hrun.inv (by rw [hg]; decide)) (.inl rfl) ha⟩
          · cases hstep
  | detach =>
      simp only [irqsStep] at hstep
      split at hstep
      · next hg =>
          obtain rfl := Option.some.inj hstep
          exact ⟨rfl, hleft (hrun.inv (by rw [hg]; decide)) (.inr rfl) ha⟩
      · cases hstep

/-- A run without a failed probe or a detach needs no guard. -/
theorem irqs_via_exec {nirq : ℕ} : ∀ {as : List SlotAct} {d d' : PlatformIrqs},
    (irqsLts nirq).Via PlatformIrqs.NoneHeld d → (∀ a ∈ as, a ≠ .detach ∧ a ≠ .probed false) →
    Lts.exec irqsStep d as = some d' → (irqsLts nirq).Via PlatformIrqs.NoneHeld d'
  | [], d, d', hd, _, h => by
      obtain rfl : d = d' := Option.some.inj h
      exact hd
  | a :: as, d, d', hd, has, h => by
      obtain ⟨d₁, hstep, hrest⟩ := Lts.exec_cons h
      have hquiet : d.NoneHeld a := by
        obtain ⟨hdet, hprobe⟩ := has a List.mem_cons_self
        cases a with
        | detach => exact absurd rfl hdet
        | probed ok =>
            cases ok with
            | true => trivial
            | false => exact absurd rfl hprobe
        | _ => trivial
      exact irqs_via_exec (hd.step hquiet hstep)
        (fun b hb => has b (List.mem_cons_of_mem _ hb)) hrest

/-- Nothing fails. -/
def PlatformIrqs.RequestEnv.fine : PlatformIrqs.RequestEnv where
  handler := true
  alloc := true
  setup := none

/-- Slot 0 is requested with devm, freed, requested again without, and freed; slot 1 is
requested twice with devm, the first time in vain. -/
def mixedRun : List SlotAct :=
  [.request true 0x71D00000 .fine, .free 0x71D00000, .request false 0x71D00000 .fine,
    .request true 0x71D00001 { PlatformIrqs.RequestEnv.fine with setup := some .enomem },
    .request true 0x71D00001 .fine, .probed true, .free 0x71D00000]

def mixedEnd : PlatformIrqs := (Lts.exec irqsStep (.blank 2) mixedRun).getD (.blank 2)

theorem irq_handlers_accounted_mixed :
    Accounted mixedEnd.lkpiPlatformBusDetach.trace ∧
      Settled mixedEnd.lkpiPlatformBusDetach.trace := by
  have hrun : (irqsLts 2).Via PlatformIrqs.NoneHeld mixedEnd :=
    irqs_via_exec (.init rfl) (by decide) (show Lts.exec _ _ mixedRun = _ from rfl)
  have hheld : mixedEnd.NoneHeld .detach := by
    intro idx e he
    rcases idx with _ | _ | idx
    · cases he
    · cases he
      rfl
    · cases he
  have hdet : (irqsLts 2).Via PlatformIrqs.NoneHeld mixedEnd.lkpiPlatformBusDetach :=
    hrun.step hheld rfl
  exact ⟨(irq_handlers_accounted hdet).1, (irq_handlers_accounted hdet).2 rfl⟩

/-- A probe that requests its first interrupt without devm and then fails. -/
def failedProbe : List SlotAct := [.request false 0x71D00000 .fine, .probed false]

/-- A driver that leaves the same request to the detach. -/
def keptRequest : List SlotAct := [.request false 0x71D00000 .fine, .probed true, .detach]

/-- After the failed probe the interrupt is released with its handler established, and
the descriptor stays; after the detach the descriptor stays. -/
theorem irq_handlers_left :
    (∃ d, (irqsLts 1).Reachable d ∧ d.phase = .gone ∧ .release 0 ∈ d.trace ∧
      Up d.trace 0 0 ⟨0, 0, false⟩ ∧ Live d.trace ⟨0, 0, false⟩) ∧
    ∃ d, (irqsLts 1).Reachable d ∧ d.phase = .gone ∧ Live d.trace ⟨0, 0, false⟩ := by
  have hrun : ∀ as, ∀ d ∈ Lts.exec irqsStep (.blank 1) as, (irqsLts 1).Reachable d := by
    intro as d hd
    exact Lts.Reachable.exec (fun _ _ _ h => h) (.init rfl) hd
  constructor
  · exact ⟨_, hrun failedProbe _ rfl, rfl, by decide, by decide, by decide⟩
  · exact ⟨_, hrun keptRequest _ rfl, rfl, by decide⟩

end Lima
