import Lima.Vm.Runs

/-!
# Isolation

What a GPU can reach through an address space: every entry is either the DLBU
page put there at creation, or the page of a buffer object at the object's own
node in that address space. The invariant has three parts, each kept by every
completed call: the nodes of live `lima_bo_va`s are disjoint (`SpaceOk`), every
nonzero entry is owned (`Owned`), and native objects are mapped in full
(`NativeMapped`). They rest on `drm_mm` returning fresh nodes.
-/

namespace Lima

open Overlay Spans

/-! ## The node of an object in an address space -/

def Bo.nodeIn (bo : Bo) (v : VmId) : Option DrmMmNode :=
  (limaVmBoFind v bo.va).map BoVa.node

/-- The node of each object in address space `v`. -/
def Sys.node (s : Sys) (v : VmId) (b : BoId) : Option DrmMmNode :=
  (s.bo b).nodeIn v

theorem Bo.nodeIn_of_find {bo : Bo} {v : VmId} {x : BoVa}
    (h : limaVmBoFind v bo.va = some x) : bo.nodeIn v = some x.node := by
  simp [Bo.nodeIn, h]

theorem Bo.nodeIn_modify {v : VmId} {f : BoVa → BoVa} (hvm : ∀ x, (f x).vm = x.vm)
    (hnode : ∀ x, (f x).node = x.node) (bo : Bo) (w : VmId) :
    { bo with va := modifyBoVa v f bo.va }.nodeIn w = bo.nodeIn w := by
  simp only [Bo.nodeIn, limaVmBoFind_modify f hvm]
  split
  · simp [Option.map_map, Function.comp_def, hnode]
  · rfl

/-! ## The invariant -/

/-- A buffer object as the driver keeps it. -/
structure Bo.Ok (bo : Bo) : Prop where
  size_dvd : 4096 ∣ bo.size
  heap_dvd : 4096 ∣ bo.heapSize
  heap_le : bo.heapSize ≤ bo.size
  native : bo.isHeap = false → bo.heapSize = 0
  sgt : ∀ pas, bo.sgt = some pas → ∃ bytes ≤ bo.size, pas = bo.sgTable bytes ∧
    (bo.isHeap = true → bytes = bo.heapSize)
  nodup : (bo.va.map BoVa.vm).Nodup

/-- The bytes of an object that can be mapped. -/
def Bo.mappable (bo : Bo) : ℕ := if bo.isHeap then bo.heapSize else bo.size

/-- An address space has the layout it was created with. -/
def VmConfig.HasLayout (cfg : VmConfig) (vm : Vm) : Prop :=
  vm.mmStart = 0 ∧ (vm.mmSize = 0 ∨ vm.mmSize = (cfg.dev false).vaEnd)

/-- The nodes of the live `lima_bo_va`s. -/
structure SpaceOk (cfg : VmConfig) (s : Sys) : Prop where
  bo : ∀ b, (s.bo b).Ok
  layout : ∀ v vm, s.vm v = some vm → cfg.HasLayout vm
  unused : ∀ v, s.numVms ≤ v → s.vm v = none
  live : ∀ v b node, s.node v b = some node → ∃ vm, s.vm v = some vm ∧
    node ∈ vm.mm ∧ node.size = (s.bo b).size ∧
    node.Within vm.mmStart (vm.mmStart + vm.mmSize)
  apart : ∀ v, PairwiseApart (s.node v)

/-- Entry `w` at page number `p` of address space `v` is a page of an object
mapped there. -/
def Sys.Owns (s : Sys) (v : VmId) (p w : ℕ) : Prop :=
  ∃ b node, s.node v b = some node ∧ node.start ≤ 4096 * p ∧
    4096 * p < node.start + (s.bo b).mappable ∧
    w = (s.bo b).pageDma (p - node.start / 4096) ||| limaVmFlagsCache

/-- Entry `w` is the DLBU page. -/
def VmConfig.Dlbu (cfg : VmConfig) (p w : ℕ) : Prop :=
  cfg.gpu = .mali450 ∧ p = limaVaReserveDlbu / 4096 ∧
    w = cfg.dlbuDma ||| limaVmFlagsCache

def Owned (cfg : VmConfig) (s : Sys) : Prop :=
  ∀ v vm p, s.vm v = some vm → vm.entry p ≠ 0 →
    cfg.Dlbu p (vm.entry p) ∨ s.Owns v p (vm.entry p)

/-- The pages of a native object present in `v` are mapped. -/
def NativeMapped (s : Sys) : Prop :=
  ∀ v vm b node pas i, s.vm v = some vm → s.node v b = some node →
    (s.bo b).isHeap = false → (s.bo b).sgt = some pas → i < pas.length →
    vm.entry (node.start / 4096 + i) = leafPte ((s.bo b).pageDma i) ∧
      (s.bo b).pageDma i ≤ limaVmMaxPage

structure Isolated (cfg : VmConfig) (s : Sys) : Prop where
  space : SpaceOk cfg s
  owned : Owned cfg s
  native : NativeMapped s

/-! ## Pages of nodes -/

theorem Bo.Ok.mappable_le {bo : Bo} (h : bo.Ok) : bo.mappable ≤ bo.size := by
  unfold Bo.mappable
  split
  · exact h.heap_le
  · exact le_rfl

/-- The pages an sg table lists are mappable. -/
theorem Bo.Ok.sgt_length {bo : Bo} (h : bo.Ok) {pas : List ℕ}
    (hpas : bo.sgt = some pas) : 4096 * pas.length ≤ bo.mappable := by
  obtain ⟨bytes, hle, rfl, hheap⟩ := h.sgt pas hpas
  simp only [Bo.sgTable, List.length_map, List.length_range, limaPageSize]
  unfold Bo.mappable
  split
  · rename_i hb
    rw [← hheap hb]
    omega
  · omega

theorem Bo.Ok.sgt_getD {bo : Bo} (h : bo.Ok) {pas : List ℕ}
    (hpas : bo.sgt = some pas) {i : ℕ} (hi : i < pas.length) :
    pas.getD i 0 = bo.pageDma i := by
  obtain ⟨bytes, -, rfl, -⟩ := h.sgt pas hpas
  simp only [Bo.sgTable, List.length_map, List.length_range] at hi
  simp [Bo.sgTable, List.getD_eq_getElem?_getD, hi]

section Space

variable {cfg : VmConfig} {s : Sys} {v : VmId}

/-- Nodes lie below 4 GiB. -/
theorem SpaceOk.node_le (h : SpaceOk cfg s) {b : BoId} {node : DrmMmNode}
    (hn : s.node v b = some node) : node.start + node.size ≤ 2 ^ 32 := by
  obtain ⟨vm, hvm, -, -, hin⟩ := h.live v b node hn
  obtain ⟨h0, hsize⟩ := h.layout v vm hvm
  have hend := hin.le_hi
  have hlay : (cfg.dev false).vaEnd ≤ 2 ^ 32 :=
    limaDeviceInit_vaEnd_le cfg.gpu cfg.dlbuDma
  rcases hsize with hz | hz <;> omega

/-- A page is owned through the one node it lies in. -/
theorem SpaceOk.owner (h : SpaceOk cfg s) {b : BoId} {node : DrmMmNode} {p w : ℕ}
    (hn : s.node v b = some node) (hp : node.HasPage p) (ho : s.Owns v p w) :
    4096 * p < node.start + (s.bo b).mappable ∧
      w = (s.bo b).pageDma (p - node.start / 4096) ||| limaVmFlagsCache := by
  obtain ⟨b', node', hn', hlo, hhi, hw⟩ := ho
  have hsize : node'.size = (s.bo b').size := by
    obtain ⟨vm, -, -, hsize, -⟩ := h.live v b' node' hn'
    exact hsize
  have hle := (h.bo b').mappable_le
  have hb : b = b' := (h.apart v).owner_unique hn hn' hp ⟨hlo, by omega⟩
  subst hb
  obtain rfl := Option.some.inj (hn.symm.trans hn')
  exact ⟨hhi, hw⟩

/-- The pages an sg table lists lie in the object's node. -/
theorem SpaceOk.hasPage (h : SpaceOk cfg s) {b : BoId} {node : DrmMmNode}
    (hn : s.node v b = some node) {pas : List ℕ} (hsgt : (s.bo b).sgt = some pas)
    {i : ℕ} (hi : i < pas.length) : node.HasPage (node.start / 4096 + i) := by
  obtain ⟨vm, -, -, hsize, hin⟩ := h.live v b node hn
  have hlen := (h.bo b).sgt_length hsgt
  have hle := (h.bo b).mappable_le
  have hdvd := hin.start_dvd
  unfold DrmMmNode.HasPage
  omega

end Space

/-! ## Changes of a buffer object -/

/-- `bo'` is `bo` as far as the address spaces can see, its heap perhaps
larger. -/
structure Bo.SameView (bo bo' : Bo) : Prop where
  size : bo'.size = bo.size
  isHeap : bo'.isHeap = bo.isHeap
  pageDma : bo'.pageDma = bo.pageDma
  heap_le : bo.heapSize ≤ bo'.heapSize
  sgt : bo.isHeap = false → bo'.sgt = bo.sgt
  node : ∀ v, bo'.nodeIn v = bo.nodeIn v

theorem Bo.SameView.mappable_le {bo bo' : Bo} (h : bo.SameView bo') :
    bo.mappable ≤ bo'.mappable := by
  have := h.heap_le
  unfold Bo.mappable
  rw [h.isHeap, h.size]
  split <;> omega

theorem Sys.setBo_node {s : Sys} {b : BoId} {bo' : Bo}
    (h : (s.bo b).SameView bo') (v : VmId) : (s.setBo b bo').node v = s.node v := by
  funext b'
  by_cases hb : b' = b
  · subst hb
    simp [Sys.node, h.node]
  · simp [Sys.node, Function.update_of_ne hb]

theorem Isolated.setBo {cfg : VmConfig} {s : Sys} (h : Isolated cfg s) {b : BoId}
    {bo' : Bo} (hview : (s.bo b).SameView bo') (hok : bo'.Ok) :
    Isolated cfg (s.setBo b bo') := by
  have hnode := Sys.setBo_node hview
  have hbo : ∀ b', (s.bo b').SameView ((s.setBo b bo').bo b') := by
    intro b'
    by_cases hb : b' = b
    · subst hb
      simpa using hview
    · rw [Sys.setBo_bo, Function.update_of_ne hb]
      exact ⟨rfl, rfl, rfl, le_rfl, fun _ => rfl, fun _ => rfl⟩
  refine ⟨⟨fun b' => ?_, h.space.layout, h.space.unused, ?_, ?_⟩, ?_, ?_⟩
  · by_cases hb : b' = b
    · subst hb
      simpa using hok
    · rw [Sys.setBo_bo, Function.update_of_ne hb]
      exact h.space.bo b'
  · intro v b' node hn
    rw [hnode] at hn
    obtain ⟨vm, hvm, hmem, hsize, hin⟩ := h.space.live v b' node hn
    exact ⟨vm, hvm, hmem, hsize.trans (hbo b').size.symm, hin⟩
  · intro v
    rw [hnode]
    exact h.space.apart v
  · intro v vm p hvm hp
    refine (h.owned v vm p hvm hp).imp_right ?_
    rintro ⟨b', node, hn, hlo, hhi, hw⟩
    have hle := (hbo b').mappable_le
    refine ⟨b', node, by rwa [hnode], hlo, by omega, ?_⟩
    rw [(hbo b').pageDma, hw]
  · intro v vm b' node pas i hvm hn hheap hsgt hi
    rw [hnode] at hn
    rw [(hbo b').isHeap] at hheap
    rw [(hbo b').sgt hheap] at hsgt
    rw [(hbo b').pageDma]
    exact h.native v vm b' node pas i hvm hn hheap hsgt hi

/-! ## Changes of an address space -/

section SetVm

variable {cfg : VmConfig} {s : Sys} {v : VmId} {vm vm' : Vm}

theorem SpaceOk.setVm (h : SpaceOk cfg s) (hvm : s.vm v = some vm)
    (hmm : vm'.mm = vm.mm) (hstart : vm'.mmStart = vm.mmStart)
    (hsize : vm'.mmSize = vm.mmSize) : SpaceOk cfg (s.setVm v vm') where
  bo := h.bo
  layout w vm₁ hw := by
    by_cases hwv : w = v
    · subst hwv
      obtain rfl : vm' = vm₁ := by simpa using hw
      unfold VmConfig.HasLayout
      rw [hstart, hsize]
      exact h.layout w vm hvm
    · exact h.layout w vm₁ (by simpa [Function.update_of_ne hwv] using hw)
  unused w hw := by
    have hwv : w ≠ v := by
      rintro rfl
      rw [h.unused w hw] at hvm
      cases hvm
    rw [Sys.setVm_vm, Function.update_of_ne hwv]
    exact h.unused w hw
  live w b node hn := by
    obtain ⟨vm₁, hvm₁, hmem, hsz, hin⟩ := h.live w b node hn
    by_cases hwv : w = v
    · subst hwv
      obtain rfl := Option.some.inj (hvm.symm.trans hvm₁)
      exact ⟨vm', by simp, hmm ▸ hmem, hsz, hstart ▸ hsize ▸ hin⟩
    · exact ⟨vm₁, by simpa [Function.update_of_ne hwv] using hvm₁, hmem, hsz, hin⟩
  apart := h.apart

/-- Entries that stay, vanish, or are owned. -/
theorem Owned.setVm (h : Owned cfg s) (hvm : s.vm v = some vm)
    (hentry : ∀ p, vm'.entry p = vm.entry p ∨ vm'.entry p = 0 ∨
      s.Owns v p (vm'.entry p)) : Owned cfg (s.setVm v vm') := by
  intro w vm₁ p hw hp
  by_cases hwv : w = v
  · subst hwv
    obtain rfl : vm' = vm₁ := by simpa using hw
    rcases hentry p with heq | hzero | hown
    · rw [heq] at hp ⊢
      exact h w vm p hvm hp
    · exact absurd hzero hp
    · exact .inr hown
  · exact h w vm₁ p (by simpa [Function.update_of_ne hwv] using hw) hp

theorem NativeMapped.setVm (h : NativeMapped s) (hs : SpaceOk cfg s)
    (hvm : s.vm v = some vm)
    (hentry : ∀ b node p, s.node v b = some node → (s.bo b).isHeap = false →
      node.HasPage p → vm'.entry p = vm.entry p) : NativeMapped (s.setVm v vm') := by
  intro w vm₁ b node pas i hw hn hheap hsgt hi
  by_cases hwv : w = v
  · subst hwv
    obtain rfl : vm' = vm₁ := by simpa using hw
    rw [hentry b node _ hn hheap (hs.hasPage hn hsgt hi)]
    exact h w vm b node pas i hvm hn hheap hsgt hi
  · exact h w vm₁ b node pas i (by simpa [Function.update_of_ne hwv] using hw)
      hn hheap hsgt hi

end SetVm

/-! ## Mapping and clearing inside a node -/

section Inside

variable {cfg : VmConfig} {s : Sys} {v : VmId} {b : BoId} {vm vm' : Vm}
  {node : DrmMmNode}

theorem leafPte_ne_zero {pa : ℕ} (h : pa ≤ limaVmMaxPage) : leafPte pa ≠ 0 := by
  rw [leafPte_eq h]
  intro hzero
  have := Nat.right_le_or (n := pa) (m := limaVmFlagsCache)
  rw [hzero] at this
  exact absurd this (by decide)

/-- The entries after mapping `n` pages of an object, from page `off` on. -/
theorem SpaceOk.mapped_entry (h : SpaceOk cfg s) (node : DrmMmNode)
    {pas : List ℕ} (hsgt : (s.bo b).sgt = some pas) {dmaAlloc : ℕ → Option ℕ} {off n : ℕ}
    (hlen : off + n ≤ pas.length)
    (hrun : MapRun dmaAlloc (node.start / 4096 + off) (pas.drop off) n vm vm')
    (q : ℕ) :
    if node.start / 4096 + off ≤ q ∧ q < node.start / 4096 + off + n then
      vm'.entry q = leafPte ((s.bo b).pageDma (q - node.start / 4096)) ∧
        (s.bo b).pageDma (q - node.start / 4096) ≤ limaVmMaxPage
    else vm'.entry q = vm.entry q := by
  split
  · rename_i hq
    have hget : (pas.drop off).getD (q - (node.start / 4096 + off)) 0 =
        (s.bo b).pageDma (q - node.start / 4096) := by
      rw [← (h.bo b).sgt_getD hsgt (by omega)]
      simp only [List.getD_eq_getElem?_getD, List.getElem?_drop]
      congr 2
      omega
    have hlow := hrun.low (q - (node.start / 4096 + off)) (by omega)
    rw [hget] at hlow
    rw [hrun.entry, fill_of_mem hq, hget]
    exact ⟨rfl, hlow⟩
  · rename_i hq
    rw [hrun.entry, fill_of_not_mem hq]

/-- Entries mapped at the node of an object are owned by it. -/
theorem Owned.mapped (ho : Owned cfg s) (h : SpaceOk cfg s) (hvm : s.vm v = some vm)
    (hn : s.node v b = some node) {pas : List ℕ} (hsgt : (s.bo b).sgt = some pas)
    {dmaAlloc : ℕ → Option ℕ} {off n : ℕ} (hlen : off + n ≤ pas.length)
    (hrun : MapRun dmaAlloc (node.start / 4096 + off) (pas.drop off) n vm vm') :
    Owned cfg (s.setVm v vm') := by
  have hmappable := (h.bo b).sgt_length hsgt
  obtain ⟨vm₁, -, -, -, hin⟩ := h.live v b node hn
  have hdvd := hin.start_dvd
  refine ho.setVm hvm fun q => ?_
  have hentry := h.mapped_entry node hsgt hlen hrun q
  split at hentry
  · obtain ⟨hentry, hlow⟩ := hentry
    exact .inr (.inr ⟨b, node, hn, by omega, by omega,
      hentry.trans (leafPte_eq hlow)⟩)
  · exact .inl hentry

/-- Mapping pages of an object at its node. -/
theorem Isolated.mapped (h : Isolated cfg s) (hvm : s.vm v = some vm)
    (hn : s.node v b = some node) {pas : List ℕ} (hsgt : (s.bo b).sgt = some pas)
    {dmaAlloc : ℕ → Option ℕ} {off n : ℕ} (hlen : off + n ≤ pas.length)
    (hrun : MapRun dmaAlloc (node.start / 4096 + off) (pas.drop off) n vm vm') :
    Isolated cfg (s.setVm v vm') := by
  refine ⟨h.space.setVm hvm hrun.frame.mm hrun.frame.mmStart hrun.frame.mmSize,
    h.owned.mapped h.space hvm hn hsgt hlen hrun, h.native.setVm h.space hvm ?_⟩
  intro b' node' q hn' hheap hq'
  have hentry := h.space.mapped_entry node hsgt hlen hrun q
  split at hentry
  · -- the page was mapped already, to the same address
    have hqn := h.space.hasPage hn hsgt
      (by omega : q - node.start / 4096 < pas.length)
    rw [Nat.add_sub_cancel' (by omega)] at hqn
    obtain rfl := (h.space.apart v).owner_unique hn hn' hqn hq'
    obtain rfl := Option.some.inj (hn.symm.trans hn')
    have hnat := h.native v vm b node pas (q - node.start / 4096) hvm hn hheap
      hsgt (by omega)
    rw [Nat.add_sub_cancel' (by omega)] at hnat
    rw [hentry.1, hnat.1]
  · exact hentry

/-- The same for all pages from `off` on, of which there may be none. -/
theorem Isolated.mappedFrom (h : Isolated cfg s) (hvm : s.vm v = some vm)
    (hn : s.node v b = some node) {pas : List ℕ} (hsgt : (s.bo b).sgt = some pas)
    {dmaAlloc : ℕ → Option ℕ} {off : ℕ}
    (hrun : MapRun dmaAlloc (node.start / 4096 + off) (pas.drop off)
      (pas.length - off) vm vm') : Isolated cfg (s.setVm v vm') := by
  by_cases hoff : off ≤ pas.length
  · exact h.mapped hvm hn hsgt (by omega) hrun
  · rw [show pas.length - off = 0 by omega] at hrun
    have hentry : vm'.entry = vm.entry := by rw [hrun.entry, fill_zero]
    exact ⟨h.space.setVm hvm hrun.frame.mm hrun.frame.mmStart hrun.frame.mmSize,
      h.owned.setVm hvm fun q => .inl (congrFun hentry q),
      h.native.setVm h.space hvm fun _ _ q _ _ _ => congrFun hentry q⟩

/-- Clearing entries where no native object is mapped. -/
theorem Isolated.cleared (h : Isolated cfg s) (hvm : s.vm v = some vm)
    (hmm : vm'.mm = vm.mm) (hstart : vm'.mmStart = vm.mmStart)
    (hsize : vm'.mmSize = vm.mmSize) {p n : ℕ}
    (hentry : vm'.entry = fill vm.entry p n fun _ => 0)
    (hfree : ∀ b node q, s.node v b = some node → node.HasPage q →
      p ≤ q ∧ q < p + n → (s.bo b).isHeap = true) :
    Isolated cfg (s.setVm v vm') := by
  refine ⟨h.space.setVm hvm hmm hstart hsize, h.owned.setVm hvm fun q => ?_,
    h.native.setVm h.space hvm ?_⟩
  · rw [hentry]
    by_cases hq : p ≤ q ∧ q < p + n
    · exact .inr (.inl (fill_of_mem hq))
    · exact .inl (fill_of_not_mem hq)
  · intro b node q hn hheap hq
    rw [hentry]
    refine fill_of_not_mem fun hin => ?_
    rw [hfree b node q hn hq hin] at hheap
    cases hheap

end Inside

end Lima
