import Lima.Sched.HeapRecover
import Lima.Sched.Submit

/-!
# The order of the heap window

`lima_gp_task_validate` refuses a frame whose window ends before it starts. Afterwards
`lima_gp_task_run` and `lima_gp_task_recover` replace the end by a sum of 32 bits, which is
zero where the heap has filled an object that ends at 4 GiB.
-/

namespace Lima

/-! ## The registers -/

/-- The window in the registers is not empty and lies inside a node. -/
structure WindowIn (node : DrmMmNode) (x : Pipe) : Prop where
  ordered : x.plbuAllocStart < x.plbuAllocEnd
  start_le : node.start ≤ x.plbuAllocStart
  end_le : x.plbuAllocEnd ≤ node.start + node.size

/-- A window between two offsets of a node is inside it unless its end wraps. -/
theorem windowIn_iff {node : DrmMmNode} {x : Pipe} {lo hi : ℕ}
    (hstart : x.plbuAllocStart = u32 (node.start + lo))
    (hend : x.plbuAllocEnd = u32 (node.start + hi))
    (hlt : lo < hi ∨ node.start + hi = 2 ^ 32) (hle : hi ≤ node.size)
    (htop : node.start + node.size ≤ 2 ^ 32) :
    WindowIn node x ↔ node.start + hi ≠ 2 ^ 32 := by
  constructor
  · intro h hwrap
    have hzero : x.plbuAllocEnd = 0 := by
      rw [hend, hwrap]
      rfl
    exact absurd h.ordered (by rw [hzero]; exact Nat.not_lt_zero _)
  · intro hne
    have hlt := hlt.resolve_right hne
    have hs : x.plbuAllocStart = node.start + lo := hstart.trans (u32_of_lt (by omega))
    have he : x.plbuAllocEnd = node.start + hi := hend.trans (u32_of_lt (by omega))
    exact ⟨by omega, by omega, by omega⟩

/-! ## The search for the heap -/

/-- The loop patches the window of a task that holds the heap its window starts in. -/
theorem patchHeap_finds {s : Sys} {v : VmId} {b : BoId} {x : BoVa} {task task' : Task}
    (hx : limaVmBoFind v (s.bo b).va = some x) (hsize : (s.bo b).heapSize ≠ 0)
    (hat : u32 x.node.start = task.frame.plbuAllocStart) :
    ∀ {bos : List BoId}, b ∈ bos → patchHeap s v bos task = .ok task' →
      ∃ c, (s.bo c).heapSize ≠ 0 ∧ task' = { task with
        frame := { task.frame with
          plbuAllocEnd := u32 (task.frame.plbuAllocStart + (s.bo c).heapSize) }
        recoverable := true
        heap := some c }
  | [], hmem, _ => by cases hmem
  | c :: bos, hmem, h => by
      rw [patchHeap] at h
      by_cases hc : c = b
      · subst hc
        have hva : limaVmGetVa s v c = .ok task.frame.plbuAllocStart := by
          unfold limaVmGetVa
          rw [hx]
          exact congrArg Outcome.ok hat
        rw [if_pos hsize, hva, Outcome.bind_ok, if_pos rfl] at h
        exact ⟨c, hsize, (Outcome.ok.inj h).symm⟩
      · have hrest := List.mem_of_ne_of_mem (Ne.symm hc) hmem
        split at h
        · rename_i hne
          obtain ⟨va, -, h⟩ := Outcome.bind_eq_ok h
          split at h
          · exact ⟨c, hne, (Outcome.ok.inj h).symm⟩
          · exact patchHeap_finds hx hsize hat hrest h
        · exact patchHeap_finds hx hsize hat hrest h

/-! ## Runs -/

/-- Runs of a validated task `t` in address space `v`, whose window starts in the heap `b`
that the allocator has placed at `node`, for as long as `b` stays there. -/
def windowLts (cfg : VmConfig) (t : TaskId) (v : VmId) (b : BoId) (node : DrmMmNode) :
    Lts Dev RecoverEvent where
  init d := (d.task t).heap = none ∧ limaGpTaskValidate (d.task t).frame = none ∧
    d.sys.node v b = some node ∧ (cfg.dev false).Placed node ∧
    node.size = (d.sys.bo b).size ∧ (d.sys.bo b).heapSize ≤ (d.sys.bo b).size
  step d e d' := d'.sys.node v b = some node ∧ match e with
    | .recover env fuel r => d.recoverResume cfg.initNrPages env fuel t = .ok (d', r)
    | .dispatch resetOk w => w = v ∧ d.limaGpTaskRun resetOk t v = .ok d' ∧
        (d'.task t).heap = some b
    | .call c => c.Returns cfg d.sys d'.sys ∧ d'.task = d.task

/-- The event leaves a new window in the registers. -/
def RecoverEvent.Programs : RecoverEvent → Prop
  | .recover _ _ r => r = none
  | .dispatch _ _ => True
  | .call _ => False

/-- The event patches the window to a heap that fills its object. -/
def Fills (d : Dev) (t : TaskId) (b : BoId) : RecoverEvent → Prop
  | .recover _ _ _ => (d.sys.bo b).size ≤
      if (d.task t).frame.window = (d.sys.bo b).heapSize then 2 * (d.sys.bo b).heapSize
      else (d.sys.bo b).heapSize
  | .dispatch _ _ | .call _ => (d.sys.bo b).size ≤ (d.sys.bo b).heapSize

/-- The frame's window starts with the node and has been patched to a size of the heap. -/
structure Patched (t : TaskId) (b : BoId) (node : DrmMmNode) (d : Dev) : Prop where
  heap : (d.task t).heap = some b
  mem : b ∈ (d.task t).bos
  start : (d.task t).frame.plbuAllocStart = node.start
  stop : ∃ w, 0 < w ∧ w ≤ (d.sys.bo b).heapSize ∧
    (d.task t).frame.plbuAllocEnd = u32 (node.start + w)

structure WindowOk (t : TaskId) (v : VmId) (b : BoId) (node : DrmMmNode) (d : Dev) : Prop where
  held : d.sys.node v b = some node
  top : node.start + node.size ≤ 2 ^ 32
  size : node.size = (d.sys.bo b).size
  heap_le : (d.sys.bo b).heapSize ≤ (d.sys.bo b).size
  window : (d.task t).heap = none ∨ Patched t b node d

/-- In a system that calls have reached, an object is placed as the runs above assume. -/
theorem Isolated.placed {cfg : VmConfig} {s : Sys} (h : Isolated cfg s) {v : VmId} {b : BoId}
    {node : DrmMmNode} (hn : s.node v b = some node) :
    (cfg.dev false).Placed node ∧ node.size = (s.bo b).size ∧
      (s.bo b).heapSize ≤ (s.bo b).size := by
  obtain ⟨vm, hvm, -, hsize, hin⟩ := h.space.live v b node hn
  obtain ⟨hstart, hzero | hfull⟩ := h.space.layout v vm hvm
  · have hpos := hin.size_pos
    have hle := hin.le_hi
    omega
  · have hva : (cfg.dev false).vaStart = 0 := by
      change (limaDeviceInit cfg.gpu cfg.dlbuDma).vaStart = 0
      cases cfg.gpu <;> rfl
    refine ⟨⟨hin.start_dvd, hin.size_dvd, hin.size_pos, ?_, ?_⟩, hsize, (h.space.bo b).heap_le⟩
    · rw [hva]
      exact Nat.zero_le _
    · rw [← hfull, ← Nat.zero_add vm.mmSize, ← hstart]
      exact hin.le_hi

section Runs

variable {cfg : VmConfig} {t : TaskId} {v : VmId} {b : BoId} {node : DrmMmNode} {d d' : Dev}

theorem WindowOk.grow (h : WindowOk t v b node d) (hn : d'.sys.node v b = some node)
    (hg : (d.sys.bo b).Grown (d'.sys.bo b)) (htask : d'.task t = d.task t) :
    WindowOk t v b node d' := by
  refine ⟨hn, h.top, h.size.trans hg.size.symm, hg.le h.heap_le, ?_⟩
  rw [htask]
  refine h.window.imp_right fun hp => ⟨?_, ?_, ?_, ?_⟩
  · rw [htask]
    exact hp.heap
  · rw [htask]
    exact hp.mem
  · rw [htask]
    exact hp.start
  · rw [htask]
    obtain ⟨w, hpos, hle, hstop⟩ := hp.stop
    exact ⟨w, hpos, hle.trans hg.mono, hstop⟩

/-- **A dispatch that finds the heap** leaves all of it as the window. -/
theorem WindowOk.dispatch (h : WindowOk t v b node d) (hn : d'.sys.node v b = some node)
    {resetOk : Bool} (hrun : d.limaGpTaskRun resetOk t v = .ok d')
    (hheap : (d'.task t).heap = some b) :
    WindowOk t v b node d' ∧ 0 < (d.sys.bo b).heapSize ∧
      (d'.pipe .gp).plbuAllocStart = u32 (node.start + 0) ∧
      (d'.pipe .gp).plbuAllocEnd = u32 (node.start + (d.sys.bo b).heapSize) := by
  have hsys := limaGpTaskRun_sys hrun
  have htop := h.top
  have hsize := h.size
  have hle := h.heap_le
  obtain ⟨hstart, hend, task, hpatch, htask⟩ := limaGpTaskRun_window hrun
  -- the patch has been made, in this dispatch
  have hfound : b ∈ (d.task t).bos ∧ (d.sys.bo b).heapSize ≠ 0 ∧
      (d.task t).frame.plbuAllocStart = node.start ∧ task = { d.task t with
        frame := { (d.task t).frame with
          plbuAllocEnd :=
            u32 ((d.task t).frame.plbuAllocStart + (d.sys.bo b).heapSize) }
        recoverable := true
        heap := some b } := by
    obtain ⟨x, hx, hnode⟩ := Option.map_eq_some_iff.mp h.held
    rcases h.window with hnone | hp
    · obtain rfl | ⟨c, hmem, y, hy, hne, hat, rfl⟩ := patchHeap_spec hpatch
      · rw [htask, hnone] at hheap
        cases hheap
      · rw [htask] at hheap
        obtain rfl := Option.some.inj hheap
        obtain rfl := Option.some.inj (hx.symm.trans hy)
        rw [hnode, u32_of_lt (by omega)] at hat
        exact ⟨hmem, hne, hat.symm, rfl⟩
    · obtain ⟨w, hpos, hw, -⟩ := hp.stop
      have hlt : node.start < 2 ^ 32 := by omega
      obtain ⟨c, hne, rfl⟩ := patchHeap_finds hx (by omega)
        (by rw [hnode, u32_of_lt hlt, hp.start]) hp.mem hpatch
      rw [htask] at hheap
      obtain rfl := Option.some.inj hheap
      exact ⟨hp.mem, hne, hp.start, rfl⟩
  obtain ⟨hmem, hne, hat, rfl⟩ := hfound
  refine ⟨⟨hn, htop, by rw [hsys]; exact hsize, by rw [hsys]; exact hle, .inr ⟨hheap, ?_, ?_,
    (d.sys.bo b).heapSize, Nat.pos_of_ne_zero hne, by rw [hsys], ?_⟩⟩, Nat.pos_of_ne_zero hne,
    ?_, ?_⟩
  · rw [htask]
    exact hmem
  · rw [htask]
    exact hat
  · rw [htask, ← hat]
  · rw [hstart, hat]
    exact (u32_of_lt (by omega)).symm
  · rw [hend, htask, ← hat]

/-- **A recovery** lengthens the window to the heap, unless that has filled the whole
address space. -/
theorem WindowOk.recover (h : WindowOk t v b node d) (hn : d'.sys.node v b = some node)
    {env : HeapEnv} {fuel : ℕ} {r : Option Errno}
    (hcall : d.recoverResume cfg.initNrPages env fuel t = .ok (d', r)) :
    WindowOk t v b node d' ∧ (r = none → ∃ lo,
      (d'.pipe .gp).plbuAllocStart = u32 (node.start + lo) ∧
      (d'.pipe .gp).plbuAllocEnd = u32 (node.start + (d'.sys.bo b).heapSize) ∧
      (lo < (d'.sys.bo b).heapSize ∨ node.start + (d'.sys.bo b).heapSize = 2 ^ 32) ∧
      (d'.sys.bo b).heapSize =
        if (d.task t).frame.window = (d.sys.bo b).heapSize then
          min (2 * (d.sys.bo b).heapSize) (d.sys.bo b).size
        else (d.sys.bo b).heapSize) := by
  obtain ⟨b', s, hb, hgrow, hend⟩ := recoverResume_cases hcall
  have hp : Patched t b node d := h.window.resolve_left (by rw [hb]; exact Option.some_ne_none _)
  obtain rfl := Option.some.inj (hp.heap.symm.trans hb)
  obtain ⟨w, hpos, hw, hstop⟩ := hp.stop
  have htop := h.top
  have hsize := h.size
  have hle := h.heap_le
  have hg : ∀ c, (d.sys.bo c).Grown (s.bo c) := by
    obtain ⟨-, halloc⟩ | ⟨-, rfl, -⟩ := hgrow
    · exact (limaHeapAlloc_grown halloc).1
    · exact fun c => .refl _
  obtain ⟨hr, rfl⟩ | ⟨rfl, rfl⟩ := hend
  · exact ⟨h.grow hn (hg b) rfl, fun hr' => absurd hr' hr⟩
  have htask : ∀ stop, (d.resumed s t stop).task t =
      { d.task t with frame := { (d.task t).frame with plbuAllocEnd := stop } } := by
    intro stop
    simp [Dev.resumed, Dev.setSys]
  have hheap : (s.bo b).heapSize = if (d.task t).frame.window = (d.sys.bo b).heapSize then
      min (2 * (d.sys.bo b).heapSize) (d.sys.bo b).size else (d.sys.bo b).heapSize := by
    obtain ⟨hwin, halloc⟩ | ⟨hwin, rfl, -⟩ := hgrow
    · rw [if_pos hwin, ((limaHeapAlloc_grown halloc).2 rfl).2, Bo.grownSize, Bo.heapNewSize,
        if_pos (by omega), Nat.mul_comm]
    · rw [if_neg hwin]
  have hlonger : w < (s.bo b).heapSize ∨ node.start + (s.bo b).heapSize = 2 ^ 32 := by
    obtain ⟨hwin, halloc⟩ | ⟨hwin, rfl, -⟩ := hgrow
    · have hroom := ((limaHeapAlloc_grown halloc).2 rfl).1
      rw [hheap, if_pos hwin]
      exact .inl (hw.trans_lt (lt_min (by omega) hroom))
    · -- a window as long as the heap has not been recognised: its length was cut to 32 bits
      by_cases heq : w = (d.sys.bo b).heapSize
      · right
        by_contra hne
        refine hwin ?_
        rw [Frame.window, hstop, hp.start, ← heq]
        simp only [u32]
        omega
      · exact .inl (lt_of_le_of_ne hw heq)
  have hle' : (s.bo b).heapSize ≤ (s.bo b).size := (hg b).le hle
  refine ⟨⟨hn, htop, hsize.trans (hg b).size.symm, hle', .inr ⟨?_, ?_, ?_,
    (s.bo b).heapSize, ?_, le_rfl, ?_⟩⟩, fun _ => ⟨w, ?_, ?_, hlonger, hheap⟩⟩
  · rw [htask]
    exact hp.heap
  · rw [htask]
    exact hp.mem
  · rw [htask]
    exact hp.start
  · exact hpos.trans_le (hw.trans (hg b).mono)
  · rw [htask, ← hp.start]
  · rw [← hstop]
    simp [Dev.resumed]
  · rw [← hp.start]
    simp [Dev.resumed, Dev.setSys]

theorem WindowOk.init (h : (windowLts cfg t v b node).init d) : WindowOk t v b node d := by
  obtain ⟨hnone, -, hn, hplaced, hsize, hle⟩ := h
  exact ⟨hn, hplaced.le_hi.trans (limaDeviceInit_vaEnd_le cfg.gpu cfg.dlbuDma), hsize, hle,
    .inl hnone⟩

/-- **Step lemma.** -/
theorem WindowOk.step (h : WindowOk t v b node d) {e : RecoverEvent}
    (hstep : (windowLts cfg t v b node).step d e d') : WindowOk t v b node d' := by
  obtain ⟨hn, hstep⟩ := hstep
  cases e with
  | recover env fuel r => exact (h.recover hn hstep).1
  | dispatch resetOk w => exact (h.dispatch hn hstep.2.1 hstep.2.2).1
  | call c => exact h.grow hn (hstep.1.grown b) (congrFun hstep.2 t)

/-- **Run lemma.** -/
theorem WindowOk.of_reachable (hd : (windowLts cfg t v b node).Reachable d) :
    WindowOk t v b node d :=
  hd.invariant (fun _ h => .init h) fun _ _ _ _ h hstep => h.step hstep

/-- **Main result.** In every run: a dispatch or a successful recovery leaves a nonempty
window inside the object if and only if the object does not end at 4 GiB or the heap the
window is patched to does not fill it. -/
theorem window_inside_iff (hd : (windowLts cfg t v b node).Reachable d) {e : RecoverEvent}
    (hstep : (windowLts cfg t v b node).step d e d') (he : e.Programs) :
    WindowIn node (d'.pipe .gp) ↔
      ¬ (node.start + node.size = 2 ^ 32 ∧ Fills d t b e) := by
  have h := WindowOk.of_reachable hd
  have h' := h.step hstep
  have hsize := h.size
  have hle := h.heap_le
  obtain ⟨hn, hstep⟩ := hstep
  cases e with
  | recover env fuel r =>
      obtain ⟨lo, hstart, hend, hlt, hheap⟩ := (h.recover hn hstep).2 he
      rw [windowIn_iff hstart hend hlt (by rw [h'.size]; exact h'.heap_le) h.top]
      refine not_congr ?_
      rw [hheap, Fills]
      have htop := h.top
      split <;> omega
  | dispatch resetOk w =>
      obtain ⟨-, hpos, hstart, hend⟩ := h.dispatch hn hstep.2.1 hstep.2.2
      rw [windowIn_iff hstart hend (.inl hpos) (by omega) h.top]
      refine not_congr ?_
      rw [Fills]
      have htop := h.top
      omega
  | call c => exact absurd he not_false

/-- Below the DLBU page no window wraps. -/
theorem window_inside_mali450 (hgpu : cfg.gpu = .mali450)
    (hplaced : (cfg.dev false).Placed node)
    (hd : (windowLts cfg t v b node).Reachable d) {e : RecoverEvent}
    (hstep : (windowLts cfg t v b node).step d e d') (he : e.Programs) :
    WindowIn node (d'.pipe .gp) := by
  refine (window_inside_iff hd hstep he).mpr fun ⟨htop, _⟩ => ?_
  have hle : node.start + node.size ≤ limaVaReserveStart := by
    have := hplaced.le_hi
    unfold VmConfig.dev limaDeviceInit at this
    rwa [hgpu] at this
  rw [htop] at hle
  exact absurd hle (by decide)

end Runs

/-! ## A heap at the top of the address space -/

/-- The heap of two pages, one of them allocated, opened at `start`. -/
def heapSysAt (start : ℕ) : Sys :=
  match limaVmBoAdd ⟨true, some start, tablesOf 0⟩ 0 createdHeapSys 0 0 true with
  | .ok (s, _) => s
  | _ => createdHeapSys

/-- A validated task whose window starts in the heap. -/
def windowTask (start : ℕ) : Task :=
  { Task.zeroed .gp .pending with
    vm := some 0
    bos := [0]
    frame := ⟨0, 0, 0x10000, 0x10040, start, start, 0, 0⟩ }

def windowDev (start : ℕ) : Dev :=
  (Dev.boot (heapSysAt start)).modTask 0 fun _ => windowTask start

/-- The device after the dispatch of the task. -/
def windowRun (start : ℕ) : Dev :=
  match (windowDev start).limaGpTaskRun true 0 0 with
  | .ok d => d
  | _ => windowDev start

/-- Away from the top the dispatch programs the first page. -/
theorem window_inside_low : WindowIn ⟨0x1FFF000, 8192⟩ ((windowRun 0x1FFF000).pipe .gp) := by
  have hinit : (windowLts onePageHeapConfig 0 0 0 ⟨0x1FFF000, 8192⟩).init
      (windowDev 0x1FFF000) :=
    ⟨rfl, rfl, rfl, ⟨by decide, by decide, by decide, by decide, by decide⟩, rfl, by decide⟩
  refine (window_inside_iff (.init hinit) (e := .dispatch true 0) ⟨rfl, rfl, rfl, rfl⟩
    trivial).mpr fun ⟨htop, _⟩ => ?_
  exact absurd htop (by decide)

/-- In the last two pages of the address space, the first recovery resumes with a window
that ends before it starts. -/
theorem window_wraps : ∃ d' : Dev,
    (windowLts onePageHeapConfig 0 0 0 ⟨0xFFFFE000, 8192⟩).Reachable (windowRun 0xFFFFE000) ∧
    (windowLts onePageHeapConfig 0 0 0 ⟨0xFFFFE000, 8192⟩).step (windowRun 0xFFFFE000)
      (.recover growHeapEnv 0 none) d' ∧
    (d'.pipe .gp).plbuAllocStart = 0xFFFFF000 ∧ (d'.pipe .gp).plbuAllocEnd = 0 ∧
    ¬ WindowIn ⟨0xFFFFE000, 8192⟩ (d'.pipe .gp) := by
  have hinit : (windowLts onePageHeapConfig 0 0 0 ⟨0xFFFFE000, 8192⟩).init
      (windowDev 0xFFFFE000) :=
    ⟨rfl, rfl, rfl, ⟨by decide, by decide, by decide, by decide, by decide⟩, rfl, by decide⟩
  have hrun : (windowLts onePageHeapConfig 0 0 0 ⟨0xFFFFE000, 8192⟩).step
      (windowDev 0xFFFFE000) (.dispatch true 0) (windowRun 0xFFFFE000) :=
    ⟨rfl, rfl, rfl, rfl⟩
  have hobs : (((windowRun 0xFFFFE000).recoverResume 1 growHeapEnv 0 0).toOption.map fun x =>
      (x.2, x.1.sys.node 0 0, (x.1.pipe .gp).plbuAllocStart, (x.1.pipe .gp).plbuAllocEnd)) =
        some (none, some ⟨0xFFFFE000, 8192⟩, 0xFFFFF000, 0) := by decide +kernel
  obtain ⟨⟨d', r⟩, hd', hobs⟩ := Option.map_eq_some_iff.mp hobs
  obtain ⟨rfl, hnode, hstart, hend⟩ : r = none ∧
      d'.sys.node 0 0 = some ⟨0xFFFFE000, 8192⟩ ∧
      (d'.pipe .gp).plbuAllocStart = 0xFFFFF000 ∧ (d'.pipe .gp).plbuAllocEnd = 0 := by
    simpa using hobs
  refine ⟨d', .step (.init hinit) hrun, ⟨hnode, Outcome.toOption_eq_some.mp hd'⟩, hstart,
    hend, fun h => ?_⟩
  have hlt := h.ordered
  rw [hend] at hlt
  exact Nat.not_lt_zero _ hlt

end Lima
