import Lima.Vm.Sys

/-!
# Unmapping at the top of the address space

The last `lima_vm_bo_del` of a buffer object unmaps the pages of its node with
a loop on `u32` addresses and an inclusive end. A node that ends at 4 GiB has
the end `0xFFFFFFFF`, which no `u32` exceeds; the layout of a Mali-400 lets
`drm_mm` place a node there, the layout of a Mali-450 does not.
-/

namespace Lima

open Overlay

/-! ## Nodes and their pages -/

/-- Page number `p` lies in the node. -/
def DrmMmNode.HasPage (node : DrmMmNode) (p : ℕ) : Prop :=
  node.start ≤ 4096 * p ∧ 4096 * p < node.start + node.size

instance (node : DrmMmNode) (p : ℕ) : Decidable (node.HasPage p) :=
  inferInstanceAs (Decidable (_ ∧ _))

/-- A page-aligned, nonempty node inside a range. -/
structure DrmMmNode.Within (node : DrmMmNode) (lo hi : ℕ) : Prop where
  start_dvd : 4096 ∣ node.start
  size_dvd : 4096 ∣ node.size
  size_pos : 0 < node.size
  lo_le : lo ≤ node.start
  le_hi : node.start + node.size ≤ hi

/-- A node `drm_mm` may return for the layout of a device. -/
def LimaDevice.Placed (dev : LimaDevice) (node : DrmMmNode) : Prop :=
  node.Within dev.vaStart dev.vaEnd

theorem limaDeviceInit_vaEnd_le (id : GpuId) (dlbuDma : ℕ) :
    (limaDeviceInit id dlbuDma).vaEnd ≤ 2 ^ 32 := by
  cases id <;> simp [limaDeviceInit, limaVaReserveStart, limaVaReserveEnd]

/-- The pages of an aligned node are a run of page numbers. -/
theorem DrmMmNode.Within.hasPage_iff {node : DrmMmNode} {lo hi : ℕ}
    (h : node.Within lo hi) (p : ℕ) :
    node.HasPage p ↔
      node.start / 4096 ≤ p ∧ p < node.start / 4096 + node.size / 4096 := by
  have h1 := h.start_dvd
  have h2 := h.size_dvd
  unfold DrmMmNode.HasPage
  omega

theorem DrmMmNode.Within.fill_eq {α : Type} {node : DrmMmNode} {lo hi : ℕ}
    (h : node.Within lo hi) (f g : ℕ → α) (p : ℕ) :
    fill f (node.start / 4096) (node.size / 4096) g p =
      if node.HasPage p then g (p - node.start / 4096) else f p := by
  simp only [h.hasPage_iff, fill]

/-- An entry needs a table. -/
theorem Vm.hasTable_of_entry_ne_zero {vm : Vm} {p : ℕ} (h : vm.entry p ≠ 0) :
    vm.HasTable p := by
  unfold Vm.HasTable
  cases hbt : vm.bts (p / 8192) with
  | none => exact absurd (by simp [Vm.entry, entryOf, hbt]) h
  | some bt => rfl

/-! ## The last `lima_vm_bo_del` -/

/-- Buffer object `b` is a fully mapped non-heap object of `v`, at the node of
`x` and held by one last reference. -/
structure LastRef (dev : LimaDevice) (s : Sys) (v : VmId) (b : BoId) (vm : Vm)
    (x : BoVa) : Prop where
  vm_eq : s.vm v = some vm
  find_eq : limaVmBoFind v (s.bo b).va = some x
  last : x.refCount = 1
  native : (s.bo b).heapSize = 0
  placed : dev.Placed x.node
  mapped : ∀ p, x.node.HasPage p → vm.entry p ≠ 0

/-- The call completes, clears the entries of the node and no others in any
address space, and touches backing tables of the node only. -/
def DelClears (s : Sys) (v : VmId) (b : BoId) (vm : Vm) (x : BoVa) : Prop :=
  ∃ fuel s' touched vm', limaVmBoDel fuel s v b = .ok (s', touched) ∧
    s'.vm v = some vm' ∧
    (∀ p, vm'.entry p = if x.node.HasPage p then 0 else vm.entry p) ∧
    (∀ w ≠ v, s'.vm w = s.vm w) ∧
    ∀ k ∈ touched, ∃ p, x.node.HasPage p ∧ p / 8192 = k

/-- The end handed to the loop is the last byte of the range. -/
theorem unmapEnd_eq {start size : ℕ} (hpos : 0 < size)
    (htop : start + size ≤ 2 ^ 32) :
    u32 (start + u32 size + (2 ^ 32 - 1)) + 1 = start + size := by
  unfold u32
  omega

/-- The call of a last reference, once its unmap is known. -/
theorem LastRef.limaVmBoDel_eq {dev : LimaDevice} {s : Sys} {v : VmId} {b : BoId}
    {vm : Vm} {x : BoVa} (h : LastRef dev s v b vm x) (fuel : ℕ) :
    limaVmBoDel fuel s v b =
      (limaVmUnmapRange fuel ⟨vm, []⟩ (u32 x.node.start)
        (u32 (x.node.start + u32 x.node.size + (2 ^ 32 - 1)))).bind fun u =>
          .ok ((s.setVm v (u.vm.removeNode x.node)).setBo b
            ((s.bo b).removeVa v), u.touched) := by
  simp [limaVmBoDel, h.find_eq, h.last, h.vm_eq, h.native]

/-- Below 4 GiB the call does what it should. -/
theorem LastRef.delClears {dev : LimaDevice} {s : Sys} {v : VmId} {b : BoId}
    {vm : Vm} {x : BoVa} (h : LastRef dev s v b vm x)
    (htop : x.node.start + x.node.size < 2 ^ 32) : DelClears s v b vm x := by
  have hnode := h.placed
  have hend := unmapEnd_eq hnode.size_pos htop.le
  obtain ⟨p, hp⟩ := hnode.start_dvd
  obtain ⟨n, hn⟩ := hnode.size_dvd
  have hpage : ∀ k < n, x.node.HasPage (p + k) := fun k hk => by
    unfold DrmMmNode.HasPage
    omega
  have hstart : u32 x.node.start = 4096 * p := by
    rw [u32_of_lt (by omega), hp]
  -- every page of the node has a table, so the loop runs to its end
  have htable : ∀ k < n, vm.HasTable (p + k) := fun k hk =>
    Vm.hasTable_of_entry_ne_zero (h.mapped _ (hpage k hk))
  have hend' := hend.trans (by omega : _ = 4096 * (p + n))
  obtain ⟨u, hu⟩ : ∃ u, limaVmUnmapRange (n + 1) ⟨vm, []⟩ (4096 * p) _ = .ok u :=
    limaVmUnmapRange_total (by omega) hend' htable
  have hrun := limaVmUnmapRange_spec (by omega) hend' hu
  let s' := (s.setVm v (u.vm.removeNode x.node)).setBo b ((s.bo b).removeVa v)
  refine ⟨n + 1, s', u.touched, u.vm.removeNode x.node, ?_, ?_, ?_, ?_, ?_⟩
  · rw [h.limaVmBoDel_eq, hstart, hu, Outcome.bind_ok]
  · simp [s']
  · intro q
    have hfill := hnode.fill_eq vm.entry (fun _ => 0) q
    rw [hp, hn, Nat.mul_div_cancel_left _ (by norm_num),
      Nat.mul_div_cancel_left _ (by norm_num)] at hfill
    exact (congrFun hrun.entry q).trans hfill
  · intro w hw
    simp [s', Function.update_of_ne hw]
  · intro k hk
    rw [hrun.touched, List.nil_append, List.mem_map] at hk
    obtain ⟨q, hq, rfl⟩ := hk
    obtain ⟨hq1, hq2⟩ := List.mem_range'_1.mp hq
    refine ⟨q, ?_, rfl⟩
    have := hpage (q - p) (by omega)
    rwa [Nat.add_sub_cancel' hq1] at this

/-- At 4 GiB the loop runs on `addr <= 0xFFFFFFFF`, which holds forever. -/
theorem LastRef.not_delClears {dev : LimaDevice} {s : Sys} {v : VmId} {b : BoId}
    {vm : Vm} {x : BoVa} (h : LastRef dev s v b vm x)
    (htop : x.node.start + x.node.size = 2 ^ 32) : ¬ DelClears s v b vm x := by
  rintro ⟨fuel, s', touched, vm', hdel, -⟩
  have hend := unmapEnd_eq h.placed.size_pos htop.le
  rw [h.limaVmBoDel_eq, show u32 (x.node.start + u32 x.node.size + (2 ^ 32 - 1)) =
    2 ^ 32 - 1 by omega] at hdel
  obtain ⟨u, hu, -⟩ := Outcome.bind_eq_ok hdel
  exact limaVmUnmapRange_top (u32_lt _) u hu

/-- **The last `lima_vm_bo_del` unmaps its node, unless the node ends at
4 GiB.** -/
theorem limaVmBoDel_clears_iff (id : GpuId) (dlbuDma : ℕ) (s : Sys) (v : VmId)
    (b : BoId) (vm : Vm) (x : BoVa)
    (h : LastRef (limaDeviceInit id dlbuDma) s v b vm x) :
    DelClears s v b vm x ↔ x.node.start + x.node.size ≠ 2 ^ 32 := by
  have hle : x.node.start + x.node.size ≤ 2 ^ 32 :=
    h.placed.le_hi.trans (limaDeviceInit_vaEnd_le id dlbuDma)
  constructor
  · intro hclears htop
    exact h.not_delClears htop hclears
  · intro hne
    exact h.delClears (lt_of_le_of_ne hle hne)

/-- A 4 KiB native object whose page lies at `0x40000000`. -/
def onePageBo : Bo where
  size := 4096
  isHeap := false
  heapSize := 0
  filp := true
  pageDma := fun i => 0x40000000 + 4096 * i
  sgt := some [0x40000000]
  pages := none
  wires := fun _ => 0
  pagesUseCount := 1
  va := []

/-- A device without address spaces, all of whose objects are like `bo`. -/
def Sys.fresh (bo : Bo) : Sys := ⟨fun _ => none, 0, fun _ => bo⟩

/-- An address space of the device, with one page mapped by `lima_vm_bo_add`
where `drm_mm` found room at `start`. -/
def onePageSys (dev : LimaDevice) (start : ℕ) : Sys :=
  let env : BoAddEnv := ⟨true, some start, fun k => some (0x50000000 + 0x8000 * k)⟩
  let s₁ := (limaVmCreate dev true (some 0x48000000) env.dmaAlloc
    (.fresh onePageBo)).1
  match limaVmBoAdd env 0 s₁ 0 0 true with
  | .ok (s, _) => s
  | _ => s₁

/-- The object mapped at `start`, under its first and only reference. -/
def onePageVa (start : ℕ) : BoVa := ⟨0, 1, ⟨start, 4096⟩⟩

theorem onePageSys_lastRef (start : ℕ) (h : start = 0x10000 ∨ start = 0xFFFFF000) :
    ∃ vm, LastRef (limaDeviceInit .mali400 0)
      (onePageSys (limaDeviceInit .mali400 0) start) 0 0 vm (onePageVa start) := by
  have hpage : ∀ p, (onePageVa start).node.HasPage p → p = start / 4096 := by
    rintro p ⟨h1, h2⟩
    simp only [onePageVa] at h1 h2
    omega
  have hplaced : (limaDeviceInit .mali400 0).Placed (onePageVa start).node := by
    rcases h with rfl | rfl <;>
      exact ⟨by decide, by decide, by decide, by decide, by decide⟩
  rcases h with rfl | rfl <;>
    refine ⟨_, rfl, rfl, rfl, rfl, hplaced, fun p hp => ?_⟩ <;>
    rw [hpage p hp] <;> decide

theorem limaVmBoDel_clears_iff_low :
    ∃ vm, DelClears (onePageSys (limaDeviceInit .mali400 0) 0x10000) 0 0 vm
      (onePageVa 0x10000) := by
  obtain ⟨vm, h⟩ := onePageSys_lastRef 0x10000 (.inl rfl)
  exact ⟨vm, (limaVmBoDel_clears_iff .mali400 0 _ 0 0 vm _ h).mpr (by decide)⟩

/-- At the last page of a Mali-400 address space the call does not end. -/
theorem limaVmBoDel_top_page : ∃ vm,
    LastRef (limaDeviceInit .mali400 0)
      (onePageSys (limaDeviceInit .mali400 0) 0xFFFFF000) 0 0 vm
      (onePageVa 0xFFFFF000) ∧
    ¬ DelClears (onePageSys (limaDeviceInit .mali400 0) 0xFFFFF000) 0 0 vm
      (onePageVa 0xFFFFF000) := by
  obtain ⟨vm, h⟩ := onePageSys_lastRef 0xFFFFF000 (.inr rfl)
  exact ⟨vm, h, h.not_delClears (by decide)⟩

end Lima
