import Lima.Vm.HeapAtomic
import Lima.Sched.HeapWindow

/-!
# The recovery of an exhausted heap makes progress

`lima_gp_task_recover` resumes a stalled PLBU with a longer window. Between two recoveries
of a task anything may happen to its heap that calls on buffer objects can do, and the
task may be dispatched again. The window lags behind `heap_size` by at least one doubling,
or not at all; so every recovery that succeeds doubles the window or brings it to the
object's size, where the next one fails.
-/

namespace Lima

/-! ## What a call does to the size of a heap -/

/-- The object is as large as before, and its heap as well or at least doubled or full. -/
structure Bo.Grown (bo bo' : Bo) : Prop where
  size : bo'.size = bo.size
  heapSize : bo'.heapSize = bo.heapSize ∨ bo.heapSize < bo.size ∧
    bo'.heapSize ≤ bo.size ∧ min (2 * bo.heapSize) bo.size ≤ bo'.heapSize

theorem Bo.Grown.refl (bo : Bo) : bo.Grown bo := ⟨rfl, .inl rfl⟩

/-- **A heap never shrinks.** -/
theorem Bo.Grown.mono {bo bo' : Bo} (h : bo.Grown bo') : bo.heapSize ≤ bo'.heapSize := by
  rcases h.heapSize with heq | ⟨hlt, -, hmin⟩
  · exact heq.ge
  · rcases min_choice (2 * bo.heapSize) bo.size with hm | hm <;> omega

theorem Bo.Grown.le {bo bo' : Bo} (h : bo.Grown bo') (hle : bo.heapSize ≤ bo.size) :
    bo'.heapSize ≤ bo'.size := by
  rw [h.size]
  rcases h.heapSize with heq | ⟨-, hle', -⟩
  · omega
  · exact hle'

section Calls

variable {s s' : Sys} {b : BoId}

theorem Sys.setBo_grown (bo : Bo) (h : (s.bo b).Grown bo) (c : BoId) :
    (s.bo c).Grown ((s.setBo b bo).bo c) := by
  by_cases hc : c = b
  · subst hc
    simpa using h
  · rw [Sys.setBo_bo, Function.update_of_ne hc]
    exact .refl _

/-- A completed growth, the size it has reached included. -/
theorem limaHeapAlloc_grown {initNrPages : ℕ} {env : HeapEnv} {fuel : ℕ} {vm : Option VmId}
    {r : Option Errno} (h : limaHeapAlloc initNrPages env fuel s b vm = .ok (s', r)) :
    (∀ c, (s.bo c).Grown (s'.bo c)) ∧
      (r = none → (s.bo b).heapSize < (s.bo b).size ∧
        (s'.bo b).heapSize = (s.bo b).grownSize initNrPages) := by
  obtain ⟨e, rfl, rfl, -⟩ | ⟨hroom, bo, hread, hcase⟩ := limaHeapAlloc_cases h
  · exact ⟨fun c => .refl _, fun hr => by cases hr⟩
  have hsame := hread.same
  have hkeep : (s.bo b).Grown bo ∧ (s.bo b).Grown { bo with sgt := none } := by
    rw [hsame]
    exact ⟨⟨rfl, .inl rfl⟩, ⟨rfl, .inl rfl⟩⟩
  have hgrow : (s.bo b).Grown { bo.withTable ((s.bo b).grownSize initNrPages) with
      heapSize := (s.bo b).grownSize initNrPages } := by
    refine ⟨by rw [hsame]; rfl, .inr ⟨hroom, (s.bo b).grownSize_le initNrPages, ?_⟩⟩
    refine min_le_min_right _ ?_
    unfold Bo.heapNewSize
    split <;> omega
  have hmap : ∀ {s₁ : Sys} {bo₁ bo₂ : Bo}, s₁.bo = (s.setBo b bo₁).bo → (s.bo b).Grown bo₂ →
      ∀ c, (s.bo c).Grown ((s₁.setBo b bo₂).bo c) := by
    intro s₁ bo₁ bo₂ hs₁ hbo₂ c
    by_cases hc : c = b
    · subst hc
      simpa using hbo₂
    · rw [Sys.setBo_bo, Function.update_of_ne hc, hs₁, Sys.setBo_bo,
        Function.update_of_ne hc]
      exact .refl _
  obtain ⟨e, rfl, rfl | rfl⟩ | ⟨-, rfl, rfl⟩ | ⟨v, s₁, -, hmapBo, ⟨rfl, rfl⟩ | ⟨hr, rfl⟩⟩ :=
    hcase
  · exact ⟨Sys.setBo_grown _ hkeep.1, fun hr => by cases hr⟩
  · exact ⟨Sys.setBo_grown _ hkeep.2, fun hr => by cases hr⟩
  · exact ⟨Sys.setBo_grown _ hgrow, fun _ => ⟨hroom, by simp⟩⟩
  · exact ⟨hmap (limaVmMapBo_bo hmapBo) hgrow, fun _ => ⟨hroom, by simp⟩⟩
  · exact ⟨hmap (limaVmMapBo_bo hmapBo) hkeep.2, fun hr' => absurd hr' hr⟩

/-- No call shrinks a heap or changes the size of an object. -/
theorem VmCall.Returns.grown {cfg : VmConfig} {c : VmCall} (h : c.Returns cfg s s')
    (b : BoId) : (s.bo b).Grown (s'.bo b) := by
  have hlist : ∀ a va, (s.bo b).Grown ((s.setBo a { s.bo a with va := va }).bo b) :=
    fun a va => Sys.setBo_grown { s.bo a with va := va } ⟨rfl, .inl rfl⟩ b
  cases c with
  | create early kz pd dma =>
      simp only [VmCall.Returns, limaVmCreate] at h
      split at h <;> (obtain rfl := h; exact .refl _)
  | boAdd env v a make =>
      obtain ⟨fuel, r, h⟩ := h
      obtain ⟨x, -, -, rfl⟩ | ⟨-, ⟨e, -, rfl⟩ | ⟨-, vm, start, pas, -, -, -,
        ⟨vm', offset, -, -, rfl⟩ | ⟨vm', offset, e, vm'', -, -, -, rfl⟩⟩⟩ :=
        limaVmBoAdd_cases h
      · exact hlist a _
      · exact .refl _
      · exact hlist a _
      · exact .refl _
  | boDel v a =>
      obtain ⟨fuel, touched, h⟩ := h
      obtain ⟨x, -, ⟨-, rfl⟩ | ⟨-, vm, u, -, -, rfl⟩⟩ := limaVmBoDel_cases h
      · exact hlist a _
      · exact hlist a _
  | mapBo dma v a pageoff =>
      obtain ⟨fuel, r, h⟩ := h
      rw [limaVmMapBo_bo h]
      exact .refl _
  | heapAlloc env a vm =>
      obtain ⟨fuel, r, h⟩ := h
      exact (limaHeapAlloc_grown h).1 b

end Calls

/-! ## The recovery of a task -/

/-- The length of the window the frame allocates from, as `lima_gp_task_recover` computes
it. -/
def Frame.window (f : Frame) : ℕ := u32 (f.plbuAllocEnd + 2 ^ 32 - f.plbuAllocStart)

/-- A window patched to end `n` bytes after its start has length `n`. -/
theorem window_patched {f : Frame} (hstart : f.plbuAllocStart < 2 ^ 32) {n : ℕ}
    (hn : n < 2 ^ 32) :
    { f with plbuAllocEnd := u32 (f.plbuAllocStart + n) }.window = n := by
  simp only [Frame.window, u32]
  omega

section Recover

variable {d d' : Dev} {t : TaskId} {initNrPages : ℕ} {env : HeapEnv} {fuel : ℕ}
  {r : Option Errno}

/-- The device after the PLBU has been resumed. -/
def Dev.resumed (d : Dev) (s : Sys) (t : TaskId) (stop : ℕ) : Dev :=
  ((d.setSys s).modTask t fun x =>
    { x with frame := { x.frame with plbuAllocEnd := stop } }).modPipe .gp fun x =>
      { x with
        intMask := true
        plbuAllocStart := (d.task t).frame.plbuAllocEnd
        plbuAllocEnd := stop }

theorem recoverResume_cases (h : d.recoverResume initNrPages env fuel t = .ok (d', r)) :
    ∃ b s, (d.task t).heap = some b ∧
      ((d.task t).frame.window = (d.sys.bo b).heapSize ∧
          limaHeapAlloc initNrPages env fuel d.sys b (d.task t).vm = .ok (s, r) ∨
        (d.task t).frame.window ≠ (d.sys.bo b).heapSize ∧ s = d.sys ∧ r = none) ∧
      (r ≠ none ∧ d' = d.setSys s ∨ r = none ∧
        d' = d.resumed s t (u32 ((d.task t).frame.plbuAllocStart + (s.bo b).heapSize))) := by
  obtain ⟨task, htask, h⟩ := Outcome.bind_eq_ok h
  have hx : task = d.task t := by
    unfold Dev.readTask at htask
    split at htask
    · cases htask
    · exact (Outcome.ok.inj htask).symm
  subst hx
  split at h
  · cases h
  rename_i b hb
  obtain ⟨⟨s, r₁⟩, hgrow, h⟩ := Outcome.bind_eq_ok h
  refine ⟨b, s, hb, ?_⟩
  have hr : r = r₁ ∧ (r₁ ≠ none ∧ d' = d.setSys s ∨ r₁ = none ∧
      d' = d.resumed s t (u32 ((d.task t).frame.plbuAllocStart + (s.bo b).heapSize))) := by
    cases r₁ with
    | none =>
        obtain ⟨rfl, rfl⟩ := Prod.mk.inj (Outcome.ok.inj h)
        exact ⟨rfl, .inr ⟨rfl, rfl⟩⟩
    | some e =>
        obtain ⟨rfl, rfl⟩ := Prod.mk.inj (Outcome.ok.inj h)
        exact ⟨rfl, .inl ⟨by simp, rfl⟩⟩
  obtain ⟨rfl, hend⟩ := hr
  refine ⟨?_, hend⟩
  split at hgrow
  · rename_i hw
    exact .inl ⟨hw, hgrow⟩
  · rename_i hw
    obtain ⟨rfl, rfl⟩ := Prod.mk.inj (Outcome.ok.inj hgrow)
    exact .inr ⟨hw, rfl, rfl⟩

theorem limaGpTaskRun_sys {resetOk : Bool} {v : VmId}
    (h : d.limaGpTaskRun resetOk t v = .ok d') : d'.sys = d.sys := by
  obtain ⟨task, -, h⟩ := Outcome.bind_eq_ok h
  obtain rfl := Outcome.ok.inj h
  rfl

end Recover

/-! ## Runs -/

/-- What can happen to a task and its heap: a recovery with its result, a dispatch, a call
on address spaces and buffer objects by anyone. -/
inductive RecoverEvent where
  | recover (env : HeapEnv) (fuel : ℕ) (r : Option Errno)
  | dispatch (resetOk : Bool) (v : VmId)
  | call (c : VmCall)

/-- Runs from a dispatch of task `t` that has found its heap `b`, of `h₀` bytes in an object
below 4 GiB, for as long as `b` is the task's heap. -/
def recoverLts (cfg : VmConfig) (t : TaskId) (b : BoId) (h₀ : ℕ) : Lts Dev RecoverEvent where
  init d := ∃ (d₀ : Dev) (resetOk : Bool) (v : VmId), (d₀.task t).heap = none ∧
    d₀.limaGpTaskRun resetOk t v = .ok d ∧ (d.task t).heap = some b ∧
    (d.sys.bo b).heapSize = h₀ ∧ h₀ ≤ (d.sys.bo b).size ∧ (d.sys.bo b).size < 2 ^ 32
  step d e d' := (d'.task t).heap = some b ∧ match e with
    | .recover env fuel r => d.recoverResume cfg.initNrPages env fuel t = .ok (d', r)
    | .dispatch resetOk v => d.limaGpTaskRun resetOk t v = .ok d'
    | .call c => c.Returns cfg d.sys d'.sys ∧ d'.task = d.task

/-- Count the recoveries that succeed. -/
def countRecovery (n : ℕ) (_ : Dev) : RecoverEvent → ℕ
  | .recover _ _ none => n + 1
  | _ => n

/-- After `n` recoveries: the window has been doubled `n` times or is full, and `heap_size`
is its length or at least twice that. -/
structure Recovered (t : TaskId) (b : BoId) (h₀ : ℕ) (d : Dev) (n : ℕ) : Prop where
  heap : (d.task t).heap = some b
  start : (d.task t).frame.plbuAllocStart < 2 ^ 32
  small : (d.sys.bo b).size < 2 ^ 32
  le_size : (d.sys.bo b).heapSize ≤ (d.sys.bo b).size
  le_heap : (d.task t).frame.window ≤ (d.sys.bo b).heapSize
  lag : (d.task t).frame.window = (d.sys.bo b).heapSize ∨
    min (2 * (d.task t).frame.window) (d.sys.bo b).size ≤ (d.sys.bo b).heapSize
  doubled : min (2 ^ n * h₀) (d.sys.bo b).size ≤ (d.task t).frame.window
  count : ∀ m < n, 2 ^ m * h₀ < (d.sys.bo b).size
  pos : 0 < h₀

section Runs

variable {cfg : VmConfig} {t : TaskId} {b : BoId} {h₀ n : ℕ} {d d' : Dev}

/-- Growth of the heap behind the window. -/
theorem Recovered.grow (h : Recovered t b h₀ d n) (hg : (d.sys.bo b).Grown (d'.sys.bo b))
    (htask : d'.task t = d.task t) : Recovered t b h₀ d' n := by
  have hmono := hg.mono
  have hle := h.le_heap
  refine ⟨htask ▸ h.heap, htask ▸ h.start, hg.size ▸ h.small, hg.le h.le_size, ?_, ?_, ?_,
    ?_, h.pos⟩
  · rw [htask]
    exact hle.trans hmono
  · rw [htask, hg.size]
    rcases h.lag with heq | hlag
    · rcases hg.heapSize with hsame | ⟨-, -, hmin⟩
      · exact .inl (heq.trans hsame.symm)
      · right
        rwa [heq]
    · exact .inr (hlag.trans hmono)
  · rw [htask, hg.size]
    exact h.doubled
  · rw [hg.size]
    exact h.count

/-- The window after a patch to the end of the heap. -/
theorem Recovered.patch (h : Recovered t b h₀ d n)
    (hsys : d'.sys = d.sys) (hheap : (d'.task t).heap = some b)
    (hframe : (d'.task t).frame = { (d.task t).frame with
      plbuAllocEnd := u32 ((d.task t).frame.plbuAllocStart + (d.sys.bo b).heapSize) }) :
    Recovered t b h₀ d' n := by
  have hle := h.le_size
  have hsmall := h.small
  have hw : (d'.task t).frame.window = (d.sys.bo b).heapSize := by
    rw [hframe]
    exact window_patched h.start (by omega)
  refine ⟨hheap, by rw [hframe]; exact h.start, hsys ▸ hsmall, ?_, ?_, .inl ?_, ?_, ?_, h.pos⟩
  · rw [hsys]
    exact hle
  · rw [hw, hsys]
  · rw [hw, hsys]
  · rw [hw, hsys]
    exact h.doubled.trans h.le_heap
  · rw [hsys]
    exact h.count

/-- **What a successful recovery does.** -/
structure Resumes (t : TaskId) (b : BoId) (d d' : Dev) : Prop where
  longer : (d.task t).frame.window < (d'.task t).frame.window
  start : (d'.pipe .gp).plbuAllocStart = (d.task t).frame.plbuAllocEnd
  stop : (d'.pipe .gp).plbuAllocEnd = (d'.task t).frame.plbuAllocEnd
  length : (d'.task t).frame.window = (d'.sys.bo b).heapSize
  le_size : (d'.sys.bo b).heapSize ≤ (d'.sys.bo b).size

theorem Recovered.recover (h : Recovered t b h₀ d n)
    {env : HeapEnv} {fuel : ℕ} {r : Option Errno}
    (hcall : d.recoverResume cfg.initNrPages env fuel t = .ok (d', r)) :
    (∀ c, (d.sys.bo c).Grown (d'.sys.bo c)) ∧
      (r ≠ none → Recovered t b h₀ d' n) ∧
      (r = none → Recovered t b h₀ d' (n + 1) ∧ Resumes t b d d') := by
  obtain ⟨b', s, hb, hgrow, hend⟩ := recoverResume_cases hcall
  obtain rfl := Option.some.inj (h.heap.symm.trans hb)
  have hpos := h.pos
  have hsmall := h.small
  have hle := h.le_size
  have hwle := h.le_heap
  have hdoubled := h.doubled
  -- the heap is larger than the window, or has just been grown
  have hg : ∀ c, (d.sys.bo c).Grown (s.bo c) := by
    obtain ⟨-, halloc⟩ | ⟨-, rfl, -⟩ := hgrow
    · exact (limaHeapAlloc_grown halloc).1
    · exact fun c => .refl _
  have hlonger : r = none → (d.task t).frame.window < (d.sys.bo b).size ∧
      (d.task t).frame.window < (s.bo b).heapSize ∧
      min (2 * (d.task t).frame.window) (d.sys.bo b).size ≤ (s.bo b).heapSize := by
    intro hr
    obtain ⟨hw, halloc⟩ | ⟨hw, rfl, -⟩ := hgrow
    · obtain ⟨hroom, hnew⟩ := (limaHeapAlloc_grown halloc).2 hr
      have hwpos : 0 < (d.task t).frame.window := by
        have hpow : 0 < 2 ^ n * h₀ := by positivity
        rcases min_choice (2 ^ n * h₀) (d.sys.bo b).size with hm | hm <;> omega
      rw [hnew, Bo.grownSize, Bo.heapNewSize, if_pos (by omega), hw]
      refine ⟨hroom, lt_min (by omega) hroom, ?_⟩
      rw [Nat.mul_comm]
    · rcases h.lag with heq | hlag
      · exact absurd heq hw
      · exact ⟨by omega, by omega, hlag⟩
  obtain ⟨hr, rfl⟩ | ⟨rfl, rfl⟩ := hend
  · exact ⟨hg, fun _ => h.grow (hg b) rfl, fun hr' => absurd hr' hr⟩
  obtain ⟨hlt, hlong, hmin⟩ := hlonger rfl
  have hsize' : (s.bo b).size = (d.sys.bo b).size := (hg b).size
  have hle' := (hg b).le hle
  have htask : ∀ stop, (d.resumed s t stop).task t =
      { d.task t with frame := { (d.task t).frame with plbuAllocEnd := stop } } := by
    intro stop
    simp [Dev.resumed, Dev.setSys]
  have hpatched : { (d.task t).frame with
      plbuAllocEnd := u32 ((d.task t).frame.plbuAllocStart + (s.bo b).heapSize) }.window =
        (s.bo b).heapSize := window_patched h.start (by omega)
  refine ⟨hg, fun hr => absurd rfl hr, fun _ =>
    ⟨⟨?_, ?_, hsize' ▸ hsmall, hle', ?_, ?_, ?_, ?_, hpos⟩, ?_⟩⟩
  · rw [htask]
    exact h.heap
  · rw [htask]
    exact h.start
  · rw [htask, hpatched]
    exact le_rfl
  · rw [htask, hpatched]
    exact .inl rfl
  · -- one more doubling
    rw [htask, hpatched]
    change min (2 ^ (n + 1) * h₀) (s.bo b).size ≤ (s.bo b).heapSize
    have hpow : 2 ^ (n + 1) * h₀ = 2 * (2 ^ n * h₀) := by ring
    rw [hpow, hsize']
    rcases min_choice (2 ^ n * h₀) (d.sys.bo b).size with hm | hm
    · refine le_trans (min_le_min_right _ ?_) hmin
      omega
    · omega
  · intro m hm
    change 2 ^ m * h₀ < (s.bo b).size
    rw [hsize']
    rcases Nat.lt_succ_iff_lt_or_eq.mp hm with hm | rfl
    · exact h.count m hm
    · rcases min_choice (2 ^ m * h₀) (d.sys.bo b).size with hm | hm <;> omega
  · refine ⟨?_, by simp [Dev.resumed], ?_, ?_, hle'⟩
    · rw [htask, hpatched]
      exact hlong
    · rw [htask]
      simp [Dev.resumed]
    · rw [htask, hpatched]
      rfl

theorem Recovered.init (h : (recoverLts cfg t b h₀).init d) : Recovered t b h₀ d 0 := by
  obtain ⟨d₀, resetOk, v, hnone, hrun, hheap, hh₀, hle, hsmall⟩ := h
  have hsys := limaGpTaskRun_sys hrun
  obtain ⟨-, -, task, hpatch, htask⟩ := limaGpTaskRun_window hrun
  obtain rfl | ⟨c, -, x, -, hne, hat, rfl⟩ := patchHeap_spec hpatch
  · rw [htask, hnone] at hheap
    cases hheap
  have hc : c = b := by
    rw [htask] at hheap
    exact Option.some.inj hheap
  subst hc
  rw [← hsys, hh₀] at hne htask
  have hstart : (d₀.task t).frame.plbuAllocStart < 2 ^ 32 := hat ▸ u32_lt _
  have hw : (d.task t).frame.window = h₀ := by
    rw [htask]
    exact window_patched hstart (by omega)
  refine ⟨hheap, ?_, hsmall, by omega, by rw [hw, hh₀], .inl (by rw [hw, hh₀]), ?_,
    fun m hm => by omega, Nat.pos_of_ne_zero hne⟩
  · rw [htask]
    exact hstart
  · rw [hw]
    exact (min_le_left _ _).trans (by simp)

theorem Recovered.dispatch (h : Recovered t b h₀ d n) {resetOk : Bool} {v : VmId}
    (hheap : (d'.task t).heap = some b) (hrun : d.limaGpTaskRun resetOk t v = .ok d') :
    Recovered t b h₀ d' n := by
  have hsys := limaGpTaskRun_sys hrun
  obtain ⟨-, -, task, hpatch, htask⟩ := limaGpTaskRun_window hrun
  obtain rfl | ⟨c, -, x, -, hne, hat, rfl⟩ := patchHeap_spec hpatch
  · exact h.grow (by rw [hsys]; exact .refl _) htask
  · have hc : c = b := by
      rw [htask] at hheap
      exact Option.some.inj hheap
    subst hc
    exact h.patch hsys hheap (by rw [htask])

/-- **Step lemma.** -/
theorem Recovered.step {e : RecoverEvent} (h : Recovered t b h₀ d n)
    (hstep : (recoverLts cfg t b h₀).step d e d') :
    Recovered t b h₀ d' (countRecovery n d e) := by
  obtain ⟨hheap, hstep⟩ := hstep
  cases e with
  | recover env fuel r =>
      obtain ⟨-, hfail, hok⟩ := h.recover hstep
      cases r with
      | none => exact (hok rfl).1
      | some e => exact hfail (by simp)
  | dispatch resetOk v => exact h.dispatch hheap hstep
  | call c => exact h.grow (hstep.1.grown b) (congrFun hstep.2 t)

/-- **Run lemma.** -/
theorem Recovered.of_reachable {x : Dev × ℕ}
    (hx : ((recoverLts cfg t b h₀).record 0 countRecovery).Reachable x) :
    Recovered t b h₀ x.1 x.2 := by
  refine hx.invariant (I := fun x => Recovered t b h₀ x.1 x.2) ?_ ?_
  · rintro ⟨d, n⟩ ⟨hinit, rfl⟩
    exact .init hinit
  · rintro ⟨d, n⟩ e ⟨d', n'⟩ - h ⟨hstep, rfl⟩
    exact h.step hstep

/-- **Main result.** In every run of a task and its heap: each recovery that succeeds
lengthens the window, resumes at its previous end and leaves it as long as the heap, no call
shrinks a heap, at most `⌈log₂ (size / h₀)⌉` recoveries succeed, and after so many the next
one is refused. -/
theorem recover_terminates {x : Dev × ℕ}
    (hx : ((recoverLts cfg t b h₀).record 0 countRecovery).Reachable x) :
    (∀ env fuel d' r, x.1.recoverResume cfg.initNrPages env fuel t = .ok (d', r) →
      (∀ c, (x.1.sys.bo c).heapSize ≤ (d'.sys.bo c).heapSize) ∧
        (r = none → Resumes t b x.1 d')) ∧
    (∀ (c : VmCall) s', c.Returns cfg x.1.sys s' →
      ∀ a, (x.1.sys.bo a).heapSize ≤ (s'.bo a).heapSize) ∧
    x.2 ≤ Nat.clog 2 ((x.1.sys.bo b).size ⌈/⌉ h₀) ∧
    (Nat.clog 2 ((x.1.sys.bo b).size ⌈/⌉ h₀) ≤ x.2 → (x.1.task t).state ≠ .freed →
      ∀ env fuel, x.1.recoverResume cfg.initNrPages env fuel t = .ok (x.1, some .enospc)) := by
  obtain ⟨d, n⟩ := x
  have h : Recovered t b h₀ d n := Recovered.of_reachable hx
  have hdiv : ∀ m, (d.sys.bo b).size ⌈/⌉ h₀ ≤ m ↔ (d.sys.bo b).size ≤ h₀ * m :=
    fun m => ceilDiv_le_iff_le_mul h.pos
  refine ⟨?_, ?_, ?_, ?_⟩
  · intro env fuel d' r hcall
    obtain ⟨hg, -, hok⟩ := h.recover hcall
    exact ⟨fun c => (hg c).mono, fun hr => (hok hr).2⟩
  · intro c s' hret a
    exact (hret.grown a).mono
  · cases n with
    | zero => exact Nat.zero_le _
    | succ m =>
        refine (Nat.lt_clog_iff_pow_lt one_lt_two).mpr (not_le.mp fun hle => ?_)
        have hcount := h.count m (Nat.lt_succ_self m)
        have hle' := (hdiv _).mp hle
        rw [Nat.mul_comm] at hle'
        exact absurd hcount (not_lt.mpr hle')
  · intro hn hstate env fuel
    -- the window is the whole object
    have hfull : (d.sys.bo b).size ≤ 2 ^ n * h₀ := by
      rw [Nat.mul_comm]
      exact (hdiv _).mp ((Nat.clog_le_iff_le_pow one_lt_two).mp hn)
    have hdoubled := h.doubled
    rw [min_eq_right hfull] at hdoubled
    have hw : (d.task t).frame.window = (d.sys.bo b).heapSize := by
      have := h.le_heap
      have := h.le_size
      omega
    have hroom : (d.sys.bo b).size ≤ (d.sys.bo b).heapSize := by omega
    have hread : d.readTask t = .ok (d.task t) := by simp [Dev.readTask, hstate]
    rw [Frame.window] at hw
    simp only [Dev.recoverResume, hread, Outcome.bind_ok, h.heap, hw, if_true, limaHeapAlloc,
      if_pos hroom]
    rfl

end Runs

/-- A GP task whose window starts in a heap with one page of two. -/
def heapTask : Task :=
  { Task.zeroed .gp .pending with
    vm := some 0
    bos := [0]
    frame := ⟨0, 0, 0, 0, 0x1FFF000, 0x1FFF000, 0, 0⟩ }

/-- The device after its dispatch. -/
def dispatchedDev : Dev :=
  let d := (Dev.boot (openHeap createdHeapSys 0)).modTask 0 fun _ => heapTask
  match d.limaGpTaskRun true 0 0 with
  | .ok d => d
  | _ => d

/-- One recovery fills the heap, and the next one is refused. -/
theorem recover_terminates_onePage : ∃ d : Dev,
    dispatchedDev.recoverResume 1 growHeapEnv 0 0 = .ok (d, none) ∧
    ∀ env fuel, d.recoverResume 1 env fuel 0 = .ok (d, some .enospc) := by
  have hobs : ((dispatchedDev.recoverResume 1 growHeapEnv 0 0).toOption.map fun x =>
      (x.2, (x.1.sys.bo 0).size, (x.1.task 0).state, (x.1.task 0).heap)) =
        some (none, 8192, .pending, some 0) := by decide +kernel
  obtain ⟨⟨d, r⟩, hd, hobs⟩ := Option.map_eq_some_iff.mp hobs
  obtain ⟨rfl, hsize, hstate, hheap⟩ : r = none ∧ (d.sys.bo 0).size = 8192 ∧
      (d.task 0).state = .pending ∧ (d.task 0).heap = some 0 := by simpa using hobs
  have hcall := Outcome.toOption_eq_some.mp hd
  have hinit : (recoverLts onePageHeapConfig 0 0 4096).init dispatchedDev :=
    ⟨(Dev.boot (openHeap createdHeapSys 0)).modTask 0 fun _ => heapTask, true, 0, rfl, rfl, rfl,
      rfl, by decide, by decide⟩
  have hstep : (recoverLts onePageHeapConfig 0 0 4096).step dispatchedDev
      (.recover growHeapEnv 0 none) d := ⟨hheap, hcall⟩
  have hrun : ((recoverLts onePageHeapConfig 0 0 4096).record 0 countRecovery).Reachable
      (d, 1) :=
    Lts.Reachable.step (s := (dispatchedDev, 0)) (.init ⟨hinit, rfl⟩) ⟨hstep, rfl⟩
  refine ⟨d, hcall, (recover_terminates hrun).2.2.2 ?_ (by simp [hstate])⟩
  refine (Nat.clog_le_iff_le_pow one_lt_two).mpr ?_
  rw [hsize]
  exact (ceilDiv_le_iff_le_mul (by decide)).mpr (by norm_num)

end Lima
