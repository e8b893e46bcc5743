import Lima.Vm.HeapMapped
import Lima.Sched.Jobs

/-!
# The heap window of a GP task

`lima_gp_task_run` patches the end of the window the tiler allocates from to the
`heap_size` of the heap that the window starts in. Where heaps only grow in the address
space that alone holds them, the window is mapped in the address space of the task, and
the `lima_vm_bo_del` that removes a heap finds a backing table for every page it clears.
-/

namespace Lima

open Overlay

/-! ## The patch -/

/-- The task has no heap, or the loop has patched the end of its window to the end of
the heap that starts where the window does. -/
theorem patchHeap_spec {s : Sys} {v : VmId} {task task' : Task} :
    ∀ {bos : List BoId}, patchHeap s v bos task = .ok task' →
      task' = task ∨ ∃ b ∈ bos, ∃ x, limaVmBoFind v (s.bo b).va = some x ∧
        (s.bo b).heapSize ≠ 0 ∧ u32 x.node.start = task.frame.plbuAllocStart ∧
        task' = { task with
          frame := { task.frame with
            plbuAllocEnd := u32 (task.frame.plbuAllocStart + (s.bo b).heapSize) }
          recoverable := true
          heap := some b }
  | [], h => .inl (Outcome.ok.inj h).symm
  | b :: bos, h => by
      rw [patchHeap] at h
      split at h
      · rename_i hsize
        obtain ⟨va, hva, h⟩ := Outcome.bind_eq_ok h
        split at h
        · rename_i heq
          obtain rfl := Outcome.ok.inj h
          unfold limaVmGetVa at hva
          split at hva
          · cases hva
          · rename_i x hx
            obtain rfl := Outcome.ok.inj hva
            exact .inr ⟨b, List.mem_cons_self, x, hx, hsize, heq, rfl⟩
        · refine (patchHeap_spec h).imp_right fun ⟨c, hc, hrest⟩ => ?_
          exact ⟨c, List.mem_cons_of_mem _ hc, hrest⟩
      · refine (patchHeap_spec h).imp_right fun ⟨c, hc, hrest⟩ => ?_
        exact ⟨c, List.mem_cons_of_mem _ hc, hrest⟩

/-- A dispatched GP task, the registers it has programmed included. -/
theorem limaGpTaskRun_window {d d' : Dev} {resetOk : Bool} {t : TaskId} {v : VmId}
    (h : d.limaGpTaskRun resetOk t v = .ok d') :
    (d'.pipe .gp).plbuAllocStart = (d.task t).frame.plbuAllocStart ∧
    (d'.pipe .gp).plbuAllocEnd = (d'.task t).frame.plbuAllocEnd ∧
    ∃ task, patchHeap d.sys v (d.task t).bos (d.task t) = .ok task ∧ d'.task t = task := by
  obtain ⟨task, hpatch, h⟩ := Outcome.bind_eq_ok h
  obtain rfl := Outcome.ok.inj h
  have hstart : task.frame.plbuAllocStart = (d.task t).frame.plbuAllocStart := by
    obtain rfl | ⟨b, -, x, -, -, -, rfl⟩ := patchHeap_spec hpatch <;> rfl
  refine ⟨?_, ?_, task, hpatch, ?_⟩
  · rw [Dev.modPipe_pipe_self]
    exact hstart
  · simp
  · simp

section State

variable {cfg : VmConfig} {s : Sys} {v : VmId} {b : BoId}

/-! ## What an address space maps of a heap -/

/-- A heap held by an address space is mapped there up to its size, and not beyond. -/
theorem HeapMapped.probe (h : HeapMapped s) (hi : Isolated cfg s) {vm : Vm} {x : BoVa}
    (hvm : s.vm v = some vm) (hx : limaVmBoFind v (s.bo b).va = some x)
    (hheap : (s.bo b).isHeap = true) {va : ℕ} (hva : x.node.Has va) :
    (limaVmProbePte vm va).1 =
      if va < x.node.start + (s.bo b).heapSize then
        (s.bo b).pageDma ((va - x.node.start) / 4096) ||| limaVmFlagsCache
      else 0 := by
  have hn : s.node v b = some x.node := Bo.nodeIn_of_find hx
  obtain ⟨vm₁, -, -, hsize, hin⟩ := hi.space.live v b x.node hn
  have htop := hi.space.node_le hn
  have hdvd := hin.start_dvd
  have hheapDvd := (hi.space.bo b).heap_dvd
  have hend := hva.2
  have hlo := hva.1
  rw [limaVmProbePte_eq vm (by omega)]
  split
  · rename_i hlt
    obtain ⟨hentry, hlow⟩ := h v b vm x.node hvm hn hheap
      (va / 4096 - x.node.start / 4096) (by omega)
    rw [Nat.add_sub_cancel' (by omega), leafPte_eq hlow] at hentry
    rw [hentry, show va / 4096 - x.node.start / 4096 = (va - x.node.start) / 4096 by omega]
  · rename_i hge
    by_contra hne
    have hp := hin.hasPage_of_has hva
    rcases hi.owned v vm (va / 4096) hvm hne with hd | hown
    · exact hi.space.not_dlbu hn hp hd
    · have hmappable := (hi.space.owner hn hp hown).1
      rw [Bo.mappable, if_pos hheap] at hmappable
      omega

/-- The unmap of a heap whose mapped part does not end at 4 GiB runs to its end, and
dereferences tables that have been allocated. -/
theorem HeapMapped.boDel_total (h : HeapMapped s) (hi : Isolated cfg s) {vm : Vm} {x : BoVa}
    (hvm : s.vm v = some vm) (hx : limaVmBoFind v (s.bo b).va = some x)
    (hheap : (s.bo b).isHeap = true)
    (hlast : x.refCount ≤ 1 →
      (s.bo b).heapSize ≠ 0 ∧ x.node.start + (s.bo b).heapSize ≠ 2 ^ 32) :
    ∃ fuel s' touched, limaVmBoDel fuel s v b = .ok (s', touched) ∧
      ∀ k ∈ touched, (vm.bts k).isSome = true := by
  by_cases href : x.refCount ≤ 1
  · have hn : s.node v b = some x.node := Bo.nodeIn_of_find hx
    obtain ⟨vm₁, -, -, hsize, hin⟩ := hi.space.live v b x.node hn
    have hok := hi.space.bo b
    have hle := hi.space.node_le hn
    have hheapLe := hok.heap_le
    have hmap := h v b vm x.node hvm hn hheap
    obtain ⟨hpos, htop⟩ := hlast href
    obtain ⟨p, hp⟩ := hin.start_dvd
    obtain ⟨n, hnn⟩ := hok.heap_dvd
    have hstart : u32 x.node.start = 4096 * p := by
      rw [u32_of_lt (by omega), hp]
    have htable : ∀ k < n, vm.HasTable (p + k) := fun k hk => by
      obtain ⟨hentry, hlow⟩ := hmap k (by omega)
      rw [show x.node.start / 4096 + k = p + k by omega] at hentry
      refine Vm.hasTable_of_entry_ne_zero ?_
      rw [hentry]
      exact leafPte_ne_zero hlow
    have hend := (unmapEnd_eq (Nat.pos_of_ne_zero hpos) (by omega : x.node.start + (s.bo b).heapSize ≤ 2 ^ 32)).trans
      (by omega : _ = 4096 * (p + n))
    obtain ⟨u, hu⟩ : ∃ u, limaVmUnmapRange (n + 1) ⟨vm, []⟩ (4096 * p) _ = .ok u :=
      limaVmUnmapRange_total (by omega) hend htable
    have hrun := limaVmUnmapRange_spec (by omega) hend hu
    refine ⟨n + 1, (s.setVm v (u.vm.removeNode x.node)).setBo b ((s.bo b).removeVa v),
      u.touched, ?_, fun k hk => ?_⟩
    · simp only [limaVmBoDel, hx, hvm, hstart, if_neg (by omega : ¬ 0 < x.refCount - 1),
        if_pos hpos, hu, Outcome.bind_ok]
    · rw [hrun.touched, List.nil_append, List.mem_map] at hk
      obtain ⟨q, hq, rfl⟩ := hk
      obtain ⟨hq1, hq2⟩ := List.mem_range'_1.mp hq
      have := htable (q - p) (by omega)
      rwa [Nat.add_sub_cancel' hq1] at this
  · refine ⟨0, s.setBo b ((s.bo b).dropRef v), [], ?_, fun k hk => by cases hk⟩
    simp only [limaVmBoDel, hx, if_pos (by omega : 0 < x.refCount - 1)]

end State

/-! ## The guarantee -/

/-- **Main result.** In every state that calls meeting the condition reach: an address
space that holds a heap maps the first `heap_size` bytes of it and no more; the window
`lima_gp_task_run` programs ends at the end of the heap and is mapped in the address space
of the task; and the `lima_vm_bo_del` of a heap, if it meets the condition, completes and
only clears entries of tables that have been allocated. -/
theorem heap_mapped_everywhere (cfg : VmConfig) {s : Sys}
    (hs : (vmLts cfg Bo.Fresh HeapPromise).Via (GrowsAlone cfg.initNrPages) s) :
    (∀ v vm b x va, s.vm v = some vm → limaVmBoFind v (s.bo b).va = some x →
      (s.bo b).isHeap = true → x.node.Has va →
      (limaVmProbePte vm va).1 = if va < x.node.start + (s.bo b).heapSize then
        (s.bo b).pageDma ((va - x.node.start) / 4096) ||| limaVmFlagsCache else 0) ∧
    (∀ (d d' : Dev) resetOk t v b, d.sys = s → d.limaGpTaskRun resetOk t v = .ok d' →
      (d.task t).heap = none → (d'.task t).heap = some b →
      (d'.pipe .gp).plbuAllocEnd =
        u32 ((d'.pipe .gp).plbuAllocStart + (s.bo b).heapSize) ∧
      ∃ vm, s.vm v = some vm ∧ ∀ va, (d'.pipe .gp).plbuAllocStart ≤ va →
        va < (d'.pipe .gp).plbuAllocStart + (s.bo b).heapSize →
        (limaVmProbePte vm va).1 =
          (s.bo b).pageDma ((va - (d'.pipe .gp).plbuAllocStart) / 4096) |||
            limaVmFlagsCache) ∧
    (∀ v vm b x, s.vm v = some vm → limaVmBoFind v (s.bo b).va = some x →
      (s.bo b).isHeap = true → GrowsAlone cfg.initNrPages s (.boDel v b) →
      ∃ fuel s' touched, limaVmBoDel fuel s v b = .ok (s', touched) ∧
        ∀ k ∈ touched, (vm.bts k).isSome = true) := by
  obtain ⟨hi, h⟩ := HeapMapped.of_via hs
  refine ⟨?_, ?_, ?_⟩
  · intro v vm b x va hvm hx hheap hva
    exact h.probe hi hvm hx hheap hva
  · intro d d' resetOk t v b hd hrun hnone hsome
    obtain ⟨hstart, hend, task, hpatch, rfl⟩ := limaGpTaskRun_window hrun
    obtain heq | ⟨c, -, x, hx, hsize, hat, heq⟩ := patchHeap_spec hpatch
    · rw [heq, hnone] at hsome
      cases hsome
    rw [heq] at hsome
    obtain rfl := Option.some.inj hsome
    rw [hd] at hx hsize
    have hn : s.node v c = some x.node := Bo.nodeIn_of_find hx
    obtain ⟨vm, hvm, -, hnsize, hin⟩ := hi.space.live v c x.node hn
    have htop := hi.space.node_le hn
    have hle := (hi.space.bo c).heap_le
    have hpos := hin.size_pos
    have hheap : (s.bo c).isHeap = true := by
      by_contra hnative
      exact hsize ((hi.space.bo c).native (by simpa using hnative))
    rw [u32_of_lt (by omega)] at hat
    rw [hend, hstart, heq, hd, ← hat]
    refine ⟨rfl, vm, hvm, fun va hlo hhi => ?_⟩
    have hva : x.node.Has va := ⟨hlo, by omega⟩
    rw [h.probe hi hvm hx hheap hva, if_pos hhi]
  · intro v vm b x hvm hx hheap hok
    exact h.boDel_total hi hvm hx hheap fun href => hok x hx href hheap

/-! ## A heap held by two address spaces -/

theorem sharedHeapSys_alone :
    sharedHeapLts.Via (GrowsAlone onePageHeapConfig.initNrPages) sharedHeapSys :=
  (sharedHeapSys_via (fun _ _ _ _ _ => trivial) (fun _ _ _ _ _ => trivial) trivial).2

/-- Both address spaces map the first page and not the second. -/
theorem heap_mapped_everywhere_opened : ∃ vm, sharedHeapSys.vm 1 = some vm ∧
    (limaVmProbePte vm 0x1FFF000).1 = 0x40000000 ||| limaVmFlagsCache ∧
    (limaVmProbePte vm 0x2000000).1 = 0 := by
  have h := (heap_mapped_everywhere onePageHeapConfig sharedHeapSys_alone).1
  exact ⟨_, rfl, h 1 _ 0 ⟨1, 1, ⟨0x1FFF000, 8192⟩⟩ 0x1FFF000 rfl rfl rfl (by decide),
    h 1 _ 0 ⟨1, 1, ⟨0x1FFF000, 8192⟩⟩ 0x2000000 rfl rfl rfl (by decide)⟩

/-- The heap grown in the first address space. -/
def grownHeapSys : Sys :=
  match limaHeapAlloc 1 growHeapEnv 0 sharedHeapSys 0 (some 0) with
  | .ok (s, _) => s
  | _ => sharedHeapSys

/-- A growth in the first address space leaves the second one without the new page, and
closing the heap there dereferences a backing table that was never allocated. -/
theorem heap_not_mapped : sharedHeapLts.Reachable grownHeapSys ∧
    ∃ vm, grownHeapSys.vm 1 = some vm ∧ (grownHeapSys.bo 0).heapSize = 8192 ∧
      limaVmBoFind 1 (grownHeapSys.bo 0).va = some ⟨1, 1, ⟨0x1FFF000, 8192⟩⟩ ∧
      (limaVmProbePte vm 0x2000000).1 = 0 ∧ vm.bts 1 = none ∧
      limaVmBoDel 3 grownHeapSys 1 0 = .oops := by
  have hpromise : HeapPromise sharedHeapSys (.heapAlloc growHeapEnv 0 (some 0)) :=
    ⟨rfl, trivial⟩
  have hret : (VmCall.heapAlloc growHeapEnv 0 (some 0)).Returns onePageHeapConfig
      sharedHeapSys grownHeapSys := ⟨0, none, rfl⟩
  have hoops : Outcome.isOops (limaVmBoDel 3 grownHeapSys 1 0) = true := by decide +kernel
  exact ⟨sharedHeapSys_alone.reachable.step ⟨hpromise, hret⟩, _, rfl, rfl, rfl, rfl, rfl,
    Outcome.isOops_iff.mp hoops⟩

end Lima
