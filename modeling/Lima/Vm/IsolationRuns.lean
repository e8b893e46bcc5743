import Lima.Vm.Isolation

/-!
# Every call keeps the address spaces isolated

Each completed call preserves the invariant of `Lima.Vm.Isolation`, whatever
fails inside it: a step lemma, the run lemma over it, and the guarantee read off
the run lemma. Reserving a node and giving it back are one kind of change, a new
list for one object and new tables for one address space.
-/

namespace Lima

open Overlay Spans

section Calls

variable {cfg : VmConfig} {s s' : Sys} {v : VmId} {b : BoId}

/-- The sg table of an object present in `v` fits below 4 GiB. -/
theorem SpaceOk.fits (h : SpaceOk cfg s) {node : DrmMmNode} {pas : List ℕ}
    (hn : s.node v b = some node) (hsgt : (s.bo b).sgt = some pas) :
    4096 ∣ node.start ∧ node.start + 4096 * pas.length ≤ 2 ^ 32 := by
  obtain ⟨vm, -, -, hsize, hin⟩ := h.live v b node hn
  have hlen := (h.bo b).sgt_length hsgt
  have hle := (h.bo b).mappable_le
  have htop := h.node_le hn
  exact ⟨hin.start_dvd, by omega⟩

theorem Isolated.mapBo (h : Isolated cfg s) {dmaAlloc : ℕ → Option ℕ} {fuel : ℕ}
    {pageoff : ℕ} {r : Option Errno}
    (hcall : limaVmMapBo dmaAlloc fuel s v b pageoff = .ok (s', r)) :
    Isolated cfg s' := by
  obtain ⟨-, rfl, -⟩ | ⟨x, vm, pas, vm', hx, hvm, hsgt, rfl,
    ⟨-, hrun⟩ | ⟨-, hframe, ⟨n, hn, hentry⟩, k, hk, hbad⟩⟩ := limaVmMapBo_effect
      (fun x pas hx hsgt => h.space.fits (Bo.nodeIn_of_find hx) hsgt) hcall
  · exact h
  · exact h.mappedFrom hvm (Bo.nodeIn_of_find hx) hsgt hrun
  · have hnode : s.node v b = some x.node := Bo.nodeIn_of_find hx
    refine h.cleared hvm hframe.mm hframe.mmStart hframe.mmSize hentry
      fun b' node q hn' hq hin => ?_
    -- only a heap can fail to map: a native object is mapped already
    have hqn := h.space.hasPage hnode hsgt
      (by omega : q - x.node.start / 4096 < pas.length)
    rw [Nat.add_sub_cancel' (by omega)] at hqn
    obtain rfl := (h.space.apart v).owner_unique hnode hn' hqn hq
    by_contra hheap
    obtain ⟨hnat, hlow⟩ := h.native v vm b x.node pas (pageoff + k) hvm hnode
      (by simpa using hheap) hsgt (by omega)
    rw [← Nat.add_assoc] at hnat
    refine hbad ⟨?_, .inl (Vm.hasTable_of_entry_ne_zero ?_)⟩
    · rw [List.getD_eq_getElem?_getD, List.getElem?_drop,
        ← List.getD_eq_getElem?_getD,
        (h.space.bo b).sgt_getD hsgt (by omega)]
      exact hlow
    · rw [hnat]
      exact leafPte_ne_zero hlow

/-! ## Listing and unlisting an object -/

/-- The state with a new `vm'` for `v` and a new list for `b`. -/
def Sys.relist (s : Sys) (v : VmId) (b : BoId) (vm' : Vm) (va : List BoVa) : Sys :=
  (s.setVm v vm').setBo b { s.bo b with va := va }

section Relist

variable {vm vm' : Vm} {va : List BoVa}

@[simp] theorem Sys.relist_vm_self (s : Sys) (v : VmId) (b : BoId) (vm' : Vm)
    (va : List BoVa) : (s.relist v b vm' va).vm v = some vm' := by
  simp [Sys.relist]

theorem Sys.relist_vm_of_ne {w : VmId} (hw : w ≠ v) :
    (s.relist v b vm' va).vm w = s.vm w := by
  simp [Sys.relist, Function.update_of_ne hw]

/-- Only a list changes. -/
theorem Sys.relist_bo (s : Sys) (v : VmId) (b : BoId) (vm' : Vm) (va : List BoVa)
    (c : BoId) : ∃ va', (s.relist v b vm' va).bo c = { s.bo c with va := va' } := by
  by_cases hc : c = b
  · subst hc
    exact ⟨va, by simp [Sys.relist]⟩
  · exact ⟨(s.bo c).va, by simp [Sys.relist, Function.update_of_ne hc]⟩

theorem Sys.relist_node_self (s : Sys) (v : VmId) (b : BoId) (vm' : Vm)
    (va : List BoVa) : (s.relist v b vm' va).node v =
      Function.update (s.node v) b ((limaVmBoFind v va).map BoVa.node) := by
  funext c
  by_cases hc : c = b
  · subst hc
    simp [Sys.relist, Sys.node, Bo.nodeIn]
  · simp [Sys.relist, Sys.node, Function.update_of_ne hc]

theorem Sys.relist_node_of_ne {w : VmId}
    (hw : limaVmBoFind w va = limaVmBoFind w (s.bo b).va) :
    (s.relist v b vm' va).node w = s.node w := by
  funext c
  by_cases hc : c = b
  · subst hc
    simp [Sys.relist, Sys.node, Bo.nodeIn, hw]
  · simp [Sys.relist, Sys.node, Function.update_of_ne hc]

theorem SpaceOk.relist (h : SpaceOk cfg s) (hvm : s.vm v = some vm)
    (hstart : vm'.mmStart = vm.mmStart) (hsize : vm'.mmSize = vm.mmSize)
    (hnd : (va.map BoVa.vm).Nodup)
    (hother : ∀ w ≠ v, limaVmBoFind w va = limaVmBoFind w (s.bo b).va)
    (hlive : ∀ c t, (s.relist v b vm' va).node v c = some t →
      t ∈ vm'.mm ∧ t.size = (s.bo c).size ∧
        t.Within vm.mmStart (vm.mmStart + vm.mmSize))
    (hapart : PairwiseApart ((s.relist v b vm' va).node v)) :
    SpaceOk cfg (s.relist v b vm' va) where
  bo c := by
    by_cases hc : c = b
    · subst hc
      have hok := h.bo c
      rw [Sys.relist, Sys.setBo_bo, Function.update_self]
      exact ⟨hok.size_dvd, hok.heap_dvd, hok.heap_le, hok.native, hok.sgt, hnd⟩
    · rw [Sys.relist, Sys.setBo_bo, Function.update_of_ne hc]
      exact h.bo c
  layout w vm₁ hw := by
    by_cases hwv : w = v
    · subst hwv
      obtain rfl := Option.some.inj ((s.relist_vm_self w b vm' va).symm.trans hw)
      unfold VmConfig.HasLayout
      rw [hstart, hsize]
      exact h.layout w vm hvm
    · exact h.layout w vm₁ (by rwa [Sys.relist_vm_of_ne hwv] at hw)
  unused w hw := by
    have hwv : w ≠ v := by
      rintro rfl
      rw [h.unused w hw] at hvm
      cases hvm
    rw [Sys.relist_vm_of_ne hwv]
    exact h.unused w hw
  live w c t ht := by
    obtain ⟨va', hbo⟩ := s.relist_bo v b vm' va c
    rw [hbo]
    by_cases hwv : w = v
    · subst hwv
      obtain ⟨hmem, hsz, hin⟩ := hlive c t ht
      exact ⟨vm', by simp, hmem, hsz, hstart ▸ hsize ▸ hin⟩
    · rw [Sys.relist_node_of_ne (hother w hwv)] at ht
      rw [Sys.relist_vm_of_ne hwv]
      exact h.live w c t ht
  apart w := by
    by_cases hwv : w = v
    · subst hwv
      exact hapart
    · rw [Sys.relist_node_of_ne (hother w hwv)]
      exact h.apart w

/-- What is owned through a node that stays is still owned. -/
theorem Sys.Owns.relist {w : VmId} {p e : ℕ} (h : s.Owns w p e)
    (hnode : ∀ c t, s.node w c = some t → t.HasPage p →
      (s.relist v b vm' va).node w c = some t)
    (hok : ∀ c t, s.node w c = some t → (s.bo c).mappable ≤ t.size) :
    (s.relist v b vm' va).Owns w p e := by
  obtain ⟨c, t, ht, hlo, hhi, he⟩ := h
  obtain ⟨va', hbo⟩ := s.relist_bo v b vm' va c
  have hle := hok c t ht
  refine ⟨c, t, hnode c t ht ⟨hlo, by omega⟩, hlo, ?_, ?_⟩
  · rw [hbo]
    exact hhi
  · rw [hbo]
    exact he

theorem SpaceOk.mappable_le (h : SpaceOk cfg s) (c : BoId) (t : DrmMmNode)
    (ht : s.node v c = some t) : (s.bo c).mappable ≤ t.size := by
  obtain ⟨vm, -, -, hsize, -⟩ := h.live v c t ht
  exact hsize ▸ (h.bo c).mappable_le

theorem Owned.relist (ho : Owned cfg s) (h : SpaceOk cfg s)
    (hother : ∀ w ≠ v, limaVmBoFind w va = limaVmBoFind w (s.bo b).va)
    (hentry : ∀ p, vm'.entry p ≠ 0 → cfg.Dlbu p (vm'.entry p) ∨
      (s.relist v b vm' va).Owns v p (vm'.entry p)) :
    Owned cfg (s.relist v b vm' va) := by
  intro w vm₁ p hw hp
  by_cases hwv : w = v
  · subst hwv
    obtain rfl := Option.some.inj ((s.relist_vm_self w b vm' va).symm.trans hw)
    exact hentry p hp
  · rw [Sys.relist_vm_of_ne hwv] at hw
    refine (ho w vm₁ p hw hp).imp_right fun hown => hown.relist (fun c t ht _ => ?_)
      h.mappable_le
    rwa [Sys.relist_node_of_ne (hother w hwv)]

end Relist

/-- What `drm_mm_insert_node` promises: a node of the size asked for, inside the
range and apart from the allocated nodes. -/
def MmFresh (vm : Vm) (node : DrmMmNode) : Prop :=
  node.Within vm.mmStart (vm.mmStart + vm.mmSize) ∧ ∀ t ∈ vm.mm, t.Apart node

/-- The state once the node is reserved and the object listed. -/
def Sys.insert (s : Sys) (v : VmId) (b : BoId) (vm : Vm) (node : DrmMmNode) : Sys :=
  s.relist v b (vm.insertNode node) ((s.bo b).va ++ [⟨v, 1, node⟩])

section Insert

variable {vm : Vm} {node : DrmMmNode}

theorem limaVmBoFind_append_of_ne {w : VmId} (hw : w ≠ v) (va : List BoVa) (r : ℕ) :
    limaVmBoFind w (va ++ [⟨v, r, node⟩]) = limaVmBoFind w va := by
  simp [limaVmBoFind_append, Ne.symm hw]

theorem Sys.insert_node_self (hfind : limaVmBoFind v (s.bo b).va = none) (vm : Vm)
    (node : DrmMmNode) : (s.insert v b vm node).node v =
      Function.update (s.node v) b (some node) := by
  rw [Sys.insert, Sys.relist_node_self, limaVmBoFind_append, hfind]
  simp

theorem SpaceOk.insert (h : SpaceOk cfg s) (hvm : s.vm v = some vm)
    (hfind : limaVmBoFind v (s.bo b).va = none) (hfresh : MmFresh vm node)
    (hsize : node.size = (s.bo b).size) : SpaceOk cfg (s.insert v b vm node) := by
  have hnew := limaVmBoFind_eq_none.mp hfind
  refine h.relist hvm rfl rfl ?_ (fun w hw => limaVmBoFind_append_of_ne hw _ _)
    (fun c t ht => ?_) ?_
  · rw [List.map_append]
    refine List.nodup_append.mpr ⟨(h.bo b).nodup, by simp, ?_⟩
    simpa using fun x hx hxv => hnew (List.mem_map.mpr ⟨x, hx, hxv⟩)
  · rw [← Sys.insert, Sys.insert_node_self hfind] at ht
    by_cases hc : c = b
    · subst hc
      obtain rfl : node = t := by simpa using ht
      exact ⟨List.mem_cons_self, hsize, hfresh.1⟩
    · rw [Function.update_of_ne hc] at ht
      obtain ⟨vm₁, hvm₁, hmem, hsz, hin⟩ := h.live v c t ht
      obtain rfl := Option.some.inj (hvm.symm.trans hvm₁)
      exact ⟨List.mem_cons_of_mem _ hmem, hsz, hin⟩
  · rw [← Sys.insert, Sys.insert_node_self hfind]
    refine (h.apart v).update fun c t ht _ => ?_
    obtain ⟨vm₁, hvm₁, hmem, -, -⟩ := h.live v c t ht
    obtain rfl := Option.some.inj (hvm.symm.trans hvm₁)
    exact hfresh.2 t hmem

theorem Owned.insert (ho : Owned cfg s) (h : SpaceOk cfg s) (hvm : s.vm v = some vm)
    (hfind : limaVmBoFind v (s.bo b).va = none) :
    Owned cfg (s.insert v b vm node) := by
  refine ho.relist h (fun w hw => limaVmBoFind_append_of_ne hw _ _) fun p hp => ?_
  refine (ho v vm p hvm hp).imp_right fun hown =>
    hown.relist (fun c t ht _ => ?_) h.mappable_le
  rw [← Sys.insert, Sys.insert_node_self hfind, Function.update_of_ne ?_, ht]
  rintro rfl
  simp [Sys.node, Bo.nodeIn, hfind] at ht

end Insert

/-- What `lima_vm_bo_add` has found when it maps a new node for an object. -/
structure Insertion (s : Sys) (v : VmId) (b : BoId) (vm : Vm) (node : DrmMmNode)
    (pas : List ℕ) : Prop where
  find_eq : limaVmBoFind v (s.bo b).va = none
  vm_eq : s.vm v = some vm
  fresh : MmFresh vm node
  size : node.size = (s.bo b).size
  sgt : (s.bo b).sgt = some pas

namespace Insertion

variable {vm : Vm} {node : DrmMmNode} {pas : List ℕ} (hi : Insertion s v b vm node pas)
include hi

theorem node_self : (s.insert v b vm node).node v b = some node := by
  rw [Sys.insert_node_self hi.find_eq, Function.update_self]

theorem node_of_ne {c : BoId} (hc : c ≠ b) :
    (s.insert v b vm node).node v c = s.node v c := by
  rw [Sys.insert_node_self hi.find_eq, Function.update_of_ne hc]

theorem space (h : SpaceOk cfg s) : SpaceOk cfg (s.insert v b vm node) :=
  h.insert hi.vm_eq hi.find_eq hi.fresh hi.size

theorem sgt_insert : ((s.insert v b vm node).bo b).sgt = some pas := by
  simpa [Sys.insert, Sys.relist] using hi.sgt

/-- Pages of the new node are pages of no other. -/
theorem page_free (h : SpaceOk cfg s) {c : BoId} {t : DrmMmNode} {q : ℕ}
    (ht : s.node v c = some t) (hq : t.HasPage q) :
    ¬ (node.start / 4096 ≤ q ∧ q < node.start / 4096 + pas.length) := by
  intro hqr
  obtain ⟨vm₁, hvm₁, hmem, -, -⟩ := h.live v c t ht
  obtain rfl := Option.some.inj (hi.vm_eq.symm.trans hvm₁)
  have hqn := (hi.space h).hasPage hi.node_self hi.sgt_insert
    (by omega : q - node.start / 4096 < pas.length)
  rw [Nat.add_sub_cancel' hqr.1] at hqn
  exact (hi.fresh.2 t hmem).not_has hq hqn

end Insertion

/-- What a `lima_vm_bo_add` has done: counted a reference, nothing, mapped the object
at a new node, or mapped some of it and cleared the entries again. -/
theorem SpaceOk.boAdd_effect (h : SpaceOk cfg s) {env : BoAddEnv} {fuel : ℕ}
    {create : Bool} {r : Option Errno}
    (hmm : ∀ vm start, s.vm v = some vm → env.mmInsert = some start →
      MmFresh vm ⟨start, (s.bo b).size⟩)
    (hcall : limaVmBoAdd env fuel s v b create = .ok (s', r)) :
    s' = s.setBo b ((s.bo b).addRef v) ∨ s' = s ∨
    create = true ∧ ∃ vm node pas vm', Insertion s v b vm node pas ∧
      (s' = (s.insert v b vm node).setVm v vm' ∧
        MapRun env.dmaAlloc (node.start / 4096 + 0) (pas.drop 0) pas.length
          (vm.insertNode node) vm' ∨
      s' = s.setVm v vm' ∧ vm'.mm = vm.mm ∧ vm'.mmStart = vm.mmStart ∧
        vm'.mmSize = vm.mmSize ∧
        ∃ n < pas.length, vm'.entry = fill vm.entry (node.start / 4096) n fun _ => 0) := by
  obtain ⟨x, -, -, rfl⟩ | ⟨hfind, ⟨e, -, rfl⟩ |
    ⟨hcreate, vm, start, pas, hvm, hins, hsgt, hcase⟩⟩ := limaVmBoAdd_cases hcall
  · exact .inl rfl
  · exact .inr (.inl rfl)
  have hi : Insertion s v b vm ⟨start, (s.bo b).size⟩ pas :=
    ⟨hfind, hvm, hmm vm start hvm hins, rfl, hsgt⟩
  obtain ⟨m, rfl⟩ : ∃ m, start = 4096 * m := hi.fresh.1.start_dvd
  have hdiv : 4096 * m / 4096 = m := by omega
  have hlen : m + pas.length ≤ 2 ^ 20 := by
    have hle : 4096 * m + 4096 * pas.length ≤ 2 ^ 32 :=
      ((hi.space h).fits hi.node_self hi.sgt_insert).2
    omega
  refine .inr (.inr ⟨hcreate, vm, ⟨4096 * m, (s.bo b).size⟩, pas, ?_⟩)
  obtain ⟨vm', offset, hmap, -, rfl⟩ | ⟨vm', offset, e, vm'', hmap, hundo, -, rfl⟩ :=
    hcase
  · obtain ⟨n, -, -, herr, hrun⟩ := limaVmMapPages_spec hmap (Nat.add_zero _) hlen
    obtain rfl := herr.mp rfl
    refine ⟨vm', hi, .inl ⟨?_, ?_⟩⟩
    · simp [Sys.insert, Sys.relist, Sys.setVm, Sys.setBo, Bo.addVa]
    · rwa [hdiv, Nat.add_zero, List.drop_zero]
  · obtain ⟨⟨n, hn, hentry⟩, hframe, -⟩ := rollback_spec hlen hmap hundo
    refine ⟨vm''.removeNode ⟨4096 * m, (s.bo b).size⟩, hi, .inr ⟨rfl, ?_,
      hframe.mmStart, hframe.mmSize, n, hn, ?_⟩⟩
    · simp [Vm.removeNode, hframe.mm, Vm.insertNode]
    · rw [hdiv]
      exact hentry

theorem Bo.Ok.modify {bo : Bo} (h : bo.Ok) (f : BoVa → BoVa)
    (hf : ∀ x, (f x).vm = x.vm) :
    { bo with va := modifyBoVa v f bo.va }.Ok :=
  ⟨h.size_dvd, h.heap_dvd, h.heap_le, h.native, h.sgt, by
    rw [modifyBoVa_vm hf]
    exact h.nodup⟩

/-- Counting references is invisible to the address spaces. -/
theorem Isolated.countRef (h : Isolated cfg s) (f : BoVa → BoVa)
    (hvm : ∀ x, (f x).vm = x.vm) (hnode : ∀ x, (f x).node = x.node) :
    Isolated cfg (s.setBo b { s.bo b with va := modifyBoVa v f (s.bo b).va }) :=
  h.setBo ⟨rfl, rfl, rfl, le_rfl, fun _ => rfl, Bo.nodeIn_modify hvm hnode _⟩
    ((h.space.bo b).modify f hvm)

theorem Isolated.boAdd (h : Isolated cfg s) {env : BoAddEnv} {fuel : ℕ}
    {create : Bool} {r : Option Errno}
    (hmm : ∀ vm start, s.vm v = some vm → env.mmInsert = some start →
      MmFresh vm ⟨start, (s.bo b).size⟩)
    (hcall : limaVmBoAdd env fuel s v b create = .ok (s', r)) :
    Isolated cfg s' := by
  obtain rfl | rfl | ⟨-, vm, node, pas, vm', hi, ⟨rfl, hrun⟩ |
    ⟨rfl, hmm', hstart, hsize, n, hn, hentry⟩⟩ := h.space.boAdd_effect hmm hcall
  · exact h.countRef BoVa.addRef (fun _ => rfl) fun _ => rfl
  · exact h
  · have hspace := hi.space h.space
    have hvm' : (s.insert v b vm node).vm v = some _ := Sys.relist_vm_self ..
    refine ⟨hspace.setVm hvm' hrun.frame.mm hrun.frame.mmStart hrun.frame.mmSize,
      (h.owned.insert h.space hi.vm_eq hi.find_eq).mapped hspace hvm' hi.node_self
        hi.sgt_insert (by omega) hrun, ?_⟩
    have hentry := hspace.mapped_entry node hi.sgt_insert
      (by omega : 0 + pas.length ≤ pas.length) hrun
    intro w vm₁ c t pas' i hw ht hheap hpas' hlt
    obtain ⟨va, hbo⟩ := s.relist_bo v b (vm.insertNode node)
      ((s.bo b).va ++ [⟨v, 1, node⟩]) c
    rw [← Sys.insert] at hbo
    simp only [Sys.setVm_bo, hbo] at hheap hpas' ⊢
    by_cases hwv : w = v
    · subst hwv
      obtain rfl : vm' = vm₁ := by simpa using hw
      by_cases hc : c = b
      · subst hc
        obtain rfl := Option.some.inj (hi.node_self.symm.trans ht)
        obtain rfl := Option.some.inj (hi.sgt.symm.trans hpas')
        have hi' := hentry (node.start / 4096 + i)
        rw [if_pos (by omega), Nat.add_sub_cancel_left, hbo] at hi'
        exact hi'
      · have ht' := (hi.node_of_ne hc).symm.trans ht
        have hi' := hentry (t.start / 4096 + i)
        have hout := hi.page_free h.space ht' (h.space.hasPage ht' hpas' hlt)
        rw [if_neg (by rwa [Nat.add_zero])] at hi'
        rw [hi']
        exact h.native w vm c t pas' i hi.vm_eq ht' hheap hpas' hlt
    · have ht' : s.node w c = some t := by
        rw [← ht]
        exact congrFun (Sys.relist_node_of_ne
          (limaVmBoFind_append_of_ne hwv _ _)).symm c
      refine h.native w vm₁ c t pas' i ?_ ht' hheap hpas' hlt
      rw [Sys.setVm_vm, Function.update_of_ne hwv] at hw
      exact (Sys.relist_vm_of_ne hwv).symm.trans hw
  · exact h.cleared hi.vm_eq hmm' hstart hsize hentry
      fun c t q ht hq hqr => absurd ⟨hqr.1, by omega⟩ (hi.page_free h.space ht hq)

/-! ## Removal -/

/-- The DLBU page lies outside the range of the allocator. -/
theorem SpaceOk.not_dlbu (h : SpaceOk cfg s) {node : DrmMmNode} {p w : ℕ}
    (hn : s.node v b = some node) (hp : node.HasPage p) : ¬ cfg.Dlbu p w := by
  rintro ⟨hgpu, rfl, -⟩
  obtain ⟨vm, hvm, -, -, hin⟩ := h.live v b node hn
  obtain ⟨h0, hsize⟩ := h.layout v vm hvm
  have hend := hin.le_hi
  have hend' : (cfg.dev false).vaEnd = 0xFFF00000 := by
    simp [VmConfig.dev, limaDeviceInit, hgpu, limaVaReserveStart]
  have hd : 4096 * (limaVaReserveDlbu / 4096) = 0xFFF00000 := by decide
  have hp' := hp.2
  rcases hsize with hz | hz <;> omega

/-- The unmap of a last `lima_vm_bo_del`. -/
structure Removal (s : Sys) (v : VmId) (b : BoId) (x : BoVa) (vm vm' : Vm) :
    Prop where
  find_eq : limaVmBoFind v (s.bo b).va = some x
  vm_eq : s.vm v = some vm
  mm : vm'.mm = vm.mm.erase x.node
  mmStart : vm'.mmStart = vm.mmStart
  mmSize : vm'.mmSize = vm.mmSize
  /-- Entries vanish inside the node, all those that the object can own. -/
  entry : ∀ p, vm'.entry p = vm.entry p ∨ vm'.entry p = 0 ∧ x.node.HasPage p
  clear : ∀ p, x.node.start ≤ 4096 * p →
    4096 * p < x.node.start + (s.bo b).mappable → vm'.entry p = 0

theorem SpaceOk.removal (h : SpaceOk cfg s) {x : BoVa} {vm : Vm} {u : Unmap}
    {fuel : ℕ} (hfind : limaVmBoFind v (s.bo b).va = some x)
    (hvm : s.vm v = some vm)
    (hu : limaVmUnmapRange fuel ⟨vm, []⟩ (u32 x.node.start)
      (u32 (x.node.start + (s.bo b).unmapSize x.node + (2 ^ 32 - 1))) = .ok u) :
    Removal s v b x vm (u.vm.removeNode x.node) := by
  have hn : s.node v b = some x.node := Bo.nodeIn_of_find hfind
  obtain ⟨vm₁, -, -, hsize, hin⟩ := h.live v b x.node hn
  have hdvd := hin.start_dvd
  have hok := h.bo b
  have htop := h.node_le hn
  -- the bytes unmapped: at least what is mappable, at most the node
  obtain ⟨sz, hsz, hszdvd, hpos, hle, hmap⟩ : ∃ sz,
      (s.bo b).unmapSize x.node = u32 sz ∧ 4096 ∣ sz ∧ 0 < sz ∧
        sz ≤ x.node.size ∧ (s.bo b).mappable ≤ sz := by
    by_cases hheap : (s.bo b).heapSize = 0
    · refine ⟨x.node.size, by simp [Bo.unmapSize, hheap], hin.size_dvd,
        hin.size_pos, le_rfl, h.mappable_le b _ hn⟩
    · refine ⟨(s.bo b).heapSize, by simp [Bo.unmapSize, hheap], hok.heap_dvd,
        Nat.pos_of_ne_zero hheap, hsize ▸ hok.heap_le, ?_⟩
      have hisHeap : (s.bo b).isHeap = true := by
        by_contra hnative
        exact hheap (hok.native (by simpa using hnative))
      simp [Bo.mappable, hisHeap]
  rw [hsz] at hu
  have hrun := unmapNode_spec hdvd hszdvd hpos (by omega) hu
  have hentry : ∀ p, (u.vm.removeNode x.node).entry p = _ := congrFun hrun.entry
  refine ⟨hfind, hvm, by simp [Vm.removeNode, hrun.frame.mm], hrun.frame.mmStart,
    hrun.frame.mmSize, fun p => ?_, fun p hlo hhi => ?_⟩
  · rw [hentry]
    by_cases hp : x.node.start / 4096 ≤ p ∧ p < x.node.start / 4096 + sz / 4096
    · exact .inr ⟨fill_of_mem hp, by unfold DrmMmNode.HasPage; omega⟩
    · exact .inl (fill_of_not_mem hp)
  · rw [hentry]
    exact fill_of_mem (by omega)

/-- **A removed node holds no entry.** -/
theorem Removal.node_clear (h : Isolated cfg s) {x : BoVa} {vm vm' : Vm}
    (hr : Removal s v b x vm vm') {p : ℕ} (hp : x.node.HasPage p) :
    vm'.entry p = 0 := by
  have hn : s.node v b = some x.node := Bo.nodeIn_of_find hr.find_eq
  rcases hr.entry p with heq | ⟨hzero, -⟩
  · by_contra hne
    have hold : vm.entry p ≠ 0 := heq ▸ hne
    rcases h.owned v vm p hr.vm_eq hold with hd | hown
    · exact h.space.not_dlbu hn hp hd
    · exact hne (hr.clear p hp.1 (h.space.owner hn hp hown).1)
  · exact hzero

theorem Isolated.remove (h : Isolated cfg s) {x : BoVa} {vm vm' : Vm}
    (hr : Removal s v b x vm vm') :
    Isolated cfg (s.relist v b vm' (removeBoVa v (s.bo b).va)) := by
  have hn : s.node v b = some x.node := Bo.nodeIn_of_find hr.find_eq
  have hnd := (h.space.bo b).nodup
  have hother : ∀ w ≠ v, limaVmBoFind w (removeBoVa v (s.bo b).va) =
      limaVmBoFind w (s.bo b).va := fun w hw => by
    rw [limaVmBoFind_remove hnd, if_neg hw]
  have hnode : (s.relist v b vm' (removeBoVa v (s.bo b).va)).node v =
      Function.update (s.node v) b none := by
    rw [Sys.relist_node_self, limaVmBoFind_remove hnd, if_pos rfl]
    rfl
  -- a page of another object is not a page of the removed node
  have hapart : ∀ c t p, c ≠ b → s.node v c = some t → t.HasPage p →
      vm'.entry p = vm.entry p := by
    intro c t p hc ht hp
    rcases hr.entry p with heq | ⟨-, hpx⟩
    · exact heq
    · exact absurd ((h.space.apart v).owner_unique ht hn hp hpx) hc
  refine ⟨h.space.relist hr.vm_eq hr.mmStart hr.mmSize
    (hnd.sublist ((removeBoVa_sublist v _).map _)) hother (fun c t ht => ?_) ?_,
    h.owned.relist h.space hother fun p hp => ?_, ?_⟩
  · rw [hnode] at ht
    have hc : c ≠ b := by
      rintro rfl
      simp at ht
    rw [Function.update_of_ne hc] at ht
    obtain ⟨vm₁, hvm₁, hmem, hsz, hin⟩ := h.space.live v c t ht
    obtain rfl := Option.some.inj (hr.vm_eq.symm.trans hvm₁)
    refine ⟨?_, hsz, hin⟩
    have hne : t ≠ x.node := by
      rintro rfl
      have hpos := hin.size_pos
      rcases h.space.apart v ht hn hc with hap | hap <;> omega
    rw [hr.mm]
    exact (List.mem_erase_of_ne hne).mpr hmem
  · rw [hnode]
    refine (h.space.apart v).shrink fun c => ?_
    by_cases hc : c = b
    · subst hc
      simp
    · exact .inl (Function.update_of_ne hc _ _)
  · have heq : vm'.entry p = vm.entry p := by
      rcases hr.entry p with heq | ⟨hzero, -⟩
      · exact heq
      · exact absurd hzero hp
    rw [heq] at hp ⊢
    refine (h.owned v vm p hr.vm_eq hp).imp_right fun hown =>
      hown.relist (fun c t ht htp => ?_) h.space.mappable_le
    rw [hnode, Function.update_of_ne ?_, ht]
    rintro rfl
    obtain rfl := Option.some.inj (hn.symm.trans ht)
    exact hp (heq ▸ hr.node_clear h htp)
  · intro w vm₁ c t pas i hw ht hheap hsgt hi
    obtain ⟨va', hbo⟩ := s.relist_bo v b vm' (removeBoVa v (s.bo b).va) c
    rw [hbo] at hheap hsgt ⊢
    by_cases hwv : w = v
    · subst hwv
      obtain rfl := Option.some.inj ((s.relist_vm_self w b vm' _).symm.trans hw)
      rw [hnode] at ht
      have hc : c ≠ b := by
        rintro rfl
        simp at ht
      rw [Function.update_of_ne hc] at ht
      rw [hapart c t _ hc ht (h.space.hasPage ht hsgt hi)]
      exact h.native w vm c t pas i hr.vm_eq ht hheap hsgt hi
    · rw [Sys.relist_node_of_ne (hother w hwv)] at ht
      rw [Sys.relist_vm_of_ne hwv] at hw
      exact h.native w vm₁ c t pas i hw ht hheap hsgt hi

theorem Isolated.boDel (h : Isolated cfg s) {fuel : ℕ} {touched : List ℕ}
    (hcall : limaVmBoDel fuel s v b = .ok (s', touched)) : Isolated cfg s' := by
  obtain ⟨x, hx, ⟨-, rfl⟩ | ⟨-, vm, u, hvm, hu, rfl⟩⟩ := limaVmBoDel_cases hcall
  · exact h.countRef BoVa.dropRef (fun _ => rfl) fun _ => rfl
  · exact h.remove (h.space.removal hx hvm hu)

/-! ## Growth -/

theorem Bo.SameButPages.nodeIn {bo bo' : Bo} (h : bo.SameButPages bo') (w : VmId) :
    bo'.nodeIn w = bo.nodeIn w := by
  rw [h]
  rfl

theorem Bo.grownSize_le (initNrPages : ℕ) (bo : Bo) :
    bo.grownSize initNrPages ≤ bo.size := min_le_right _ _

theorem Bo.heapSize_le_grownSize {bo : Bo} (h : bo.heapSize ≤ bo.size)
    (initNrPages : ℕ) : bo.heapSize ≤ bo.grownSize initNrPages := by
  refine le_min ?_ h
  unfold Bo.heapNewSize
  split <;> omega

theorem Bo.Ok.grownSize_dvd {bo : Bo} (h : bo.Ok) (initNrPages : ℕ) :
    4096 ∣ bo.grownSize initNrPages := by
  have h1 := h.size_dvd
  have h2 := h.heap_dvd
  have hnew : 4096 ∣ bo.heapNewSize initNrPages := by
    unfold Bo.heapNewSize u32 limaPageSize
    split <;> omega
  rcases min_choice (bo.heapNewSize initNrPages) bo.size with hm | hm <;>
    rw [Bo.grownSize, hm]
  · exact hnew
  · exact h1

/-- A heap whose sg table has been given up. -/
theorem Bo.Ok.dropTable {bo bo' : Bo} (h : bo.Ok) (hsame : bo.SameButPages bo')
    (hheap : bo.isHeap = true) :
    bo.SameView { bo' with sgt := none } ∧ { bo' with sgt := none }.Ok := by
  rw [hsame]
  exact ⟨⟨rfl, rfl, rfl, le_rfl, by simp [hheap], fun _ => rfl⟩,
    ⟨h.size_dvd, h.heap_dvd, h.heap_le, h.native, by simp, h.nodup⟩⟩

/-- A heap with the sg table and the size of a growth. -/
theorem Bo.Ok.grown {bo bo' : Bo} (h : bo.Ok) (hsame : bo.SameButPages bo')
    (hheap : bo.isHeap = true) (initNrPages : ℕ) :
    bo.SameView { bo'.withTable (bo.grownSize initNrPages) with
      heapSize := bo.grownSize initNrPages } ∧
    { bo'.withTable (bo.grownSize initNrPages) with
      heapSize := bo.grownSize initNrPages }.Ok := by
  have hle := bo.grownSize_le initNrPages
  rw [hsame]
  refine ⟨⟨rfl, rfl, rfl, Bo.heapSize_le_grownSize h.heap_le _, by simp [hheap],
    fun _ => rfl⟩, ⟨h.size_dvd, h.grownSize_dvd _, hle, by simp [hheap, Bo.withTable],
    ?_, h.nodup⟩⟩
  intro pas hpas
  exact ⟨_, hle, (Option.some.inj hpas).symm, fun _ => rfl⟩

/-- What the `lima_vm_map_bo` of a growth has done, on the object with its new table
`wt`: found no entry, mapped the pages from `pageoff` on, or cleared some of them. -/
theorem SpaceOk.growIn_effect {grown : Bo} (hg : SpaceOk cfg (s.setBo b grown)) (wt : Bo)
    (hva : wt.va = grown.va) (hwt : wt.sgt = grown.sgt) {s₁ : Sys}
    {dmaAlloc : ℕ → Option ℕ} {fuel pageoff : ℕ} {r : Option Errno}
    (hmap : limaVmMapBo dmaAlloc fuel (s.setBo b wt) v b pageoff = .ok (s₁, r)) :
    (r ≠ none ∧ s₁ = s.setBo b wt ∧ (s.setBo b grown).node v b = none) ∨
    ∃ node vm pas vm', (s.setBo b grown).node v b = some node ∧ s.vm v = some vm ∧
      grown.sgt = some pas ∧
      (∀ bo', s₁.setBo b bo' = (s.setBo b bo').setVm v vm') ∧
      (r = none ∧ MapRun dmaAlloc (node.start / 4096 + pageoff) (pas.drop pageoff)
          (pas.length - pageoff) vm vm' ∨
        r ≠ none ∧ VmFrame dmaAlloc vm vm' ∧
          (∃ n < pas.length - pageoff,
            vm'.entry = fill vm.entry (node.start / 4096 + pageoff) n fun _ => 0) ∧
          ∃ k < pas.length - pageoff, ¬ vm.CanMap dmaAlloc
            (node.start / 4096 + pageoff + k) ((pas.drop pageoff).getD k 0)) := by
  have hfit : ∀ x pas, limaVmBoFind v ((s.setBo b wt).bo b).va = some x →
      ((s.setBo b wt).bo b).sgt = some pas →
        (s.setBo b grown).node v b = some x.node ∧ grown.sgt = some pas := by
    intro x pas hx hpas
    simp only [Sys.setBo_bo, Function.update_self, hva, hwt] at hx hpas
    exact ⟨by simpa [Sys.node] using Bo.nodeIn_of_find hx, hpas⟩
  obtain ⟨rfl, rfl, hnone⟩ | ⟨x, vm, pas, vm', hx, hvm, hpas, rfl, hout⟩ :=
    limaVmMapBo_effect (fun x pas hx hpas =>
      hg.fits (hfit x pas hx hpas).1 (by simpa using (hfit x pas hx hpas).2)) hmap
  · refine .inl ⟨by simp, rfl, ?_⟩
    simp only [Sys.setBo_bo, Function.update_self, hva] at hnone
    simp [Sys.node, Bo.nodeIn, hnone]
  obtain ⟨hn, hsgt⟩ := hfit x pas hx hpas
  refine .inr ⟨x.node, vm, pas, vm', hn, hvm, hsgt, fun bo' => ?_, ?_⟩
  · simp [Sys.setVm, Sys.setBo]
  · exact hout

/-- Mapping the new pages of a heap in `v`, on the object with its new table `wt`:
the object then gets its new size, or loses the table. -/
theorem Isolated.growIn (h : Isolated cfg s) (wt : Bo) {grown dropped : Bo}
    (hgrown : (s.bo b).SameView grown ∧ grown.Ok)
    (hva : wt.va = grown.va) (hwt : wt.sgt = grown.sgt)
    (hdrop : (s.bo b).SameView dropped ∧ dropped.Ok)
    (hheap : (s.bo b).isHeap = true) {s₁ : Sys} {dmaAlloc : ℕ → Option ℕ}
    {fuel pageoff : ℕ} {r : Option Errno}
    (hmap : limaVmMapBo dmaAlloc fuel (s.setBo b wt) v b pageoff = .ok (s₁, r)) :
    (r = none → Isolated cfg (s₁.setBo b grown)) ∧
      (r ≠ none → Isolated cfg (s₁.setBo b dropped)) := by
  have hg := h.setBo hgrown.1 hgrown.2
  have hd := h.setBo hdrop.1 hdrop.2
  obtain ⟨hr, rfl, -⟩ | ⟨node, vm, pas, vm', hn, hvm, hsgt, hset, hout⟩ :=
    hg.space.growIn_effect wt hva hwt hmap
  · refine ⟨fun hr' => absurd hr' hr, fun _ => ?_⟩
    rwa [Sys.setBo, Sys.setBo, Function.update_idem]
  have hsgt' : ((s.setBo b grown).bo b).sgt = some pas := by simpa using hsgt
  rw [hset, hset]
  obtain ⟨rfl, hrun⟩ | ⟨hr, hframe, ⟨n, hlt, hentry⟩, -⟩ := hout
  · exact ⟨fun _ => hg.mappedFrom hvm hn hsgt' hrun, fun hr => absurd rfl hr⟩
  · refine ⟨fun hr' => absurd hr' hr, fun _ => hd.cleared hvm hframe.mm
      hframe.mmStart hframe.mmSize hentry fun c t q ht hq hqr => ?_⟩
    have hqn := hg.space.hasPage hn hsgt'
      (by omega : q - node.start / 4096 < pas.length)
    rw [Nat.add_sub_cancel' (by omega)] at hqn
    rw [Sys.setBo_node hgrown.1] at hn
    rw [Sys.setBo_node hdrop.1] at ht
    obtain rfl := (h.space.apart v).owner_unique hn ht hqn hq
    simpa [hdrop.1.isHeap] using hheap

theorem Isolated.heapAlloc (h : Isolated cfg s) {initNrPages : ℕ} {env : HeapEnv}
    {fuel : ℕ} {vm : Option VmId} {r : Option Errno}
    (hheap : (s.bo b).isHeap = true)
    (hcall : limaHeapAlloc initNrPages env fuel s b vm = .ok (s', r)) :
    Isolated cfg s' := by
  have hok := h.space.bo b
  obtain ⟨e, -, rfl, -⟩ | ⟨-, bo, hread, hcase⟩ := limaHeapAlloc_cases hcall
  · exact h
  have hsame := hread.same
  have hdrop := hok.dropTable hsame hheap
  have hgrown := hok.grown hsame hheap initNrPages
  obtain ⟨e, -, rfl | rfl⟩ | ⟨-, -, rfl⟩ |
    ⟨v, s₁, -, hmap, ⟨hr, rfl⟩ | ⟨hr, rfl⟩⟩ := hcase
  · refine h.setBo ?_ ?_ <;> rw [hsame]
    · exact ⟨rfl, rfl, rfl, le_rfl, fun _ => rfl, fun _ => rfl⟩
    · exact ⟨hok.size_dvd, hok.heap_dvd, hok.heap_le, hok.native, hok.sgt, hok.nodup⟩
  · exact h.setBo hdrop.1 hdrop.2
  · exact h.setBo hgrown.1 hgrown.2
  · exact (h.growIn (bo.withTable _) hgrown rfl rfl hdrop hheap hmap).1 hr
  · exact (h.growIn (bo.withTable _) hgrown rfl rfl hdrop hheap hmap).2 hr

/-! ## Creation -/

/-- A new address space whose entries are all the DLBU page. -/
theorem Isolated.addVm (h : Isolated cfg s) {vm : Vm} (hlayout : cfg.HasLayout vm)
    (hentry : ∀ p, vm.entry p ≠ 0 → cfg.Dlbu p (vm.entry p)) :
    Isolated cfg { s.setVm s.numVms vm with numVms := s.numVms + 1 } := by
  have hunused := h.space.unused s.numVms le_rfl
  have hself : Function.update s.vm s.numVms (some vm) s.numVms = some vm :=
    Function.update_self ..
  have hother : ∀ w ≠ s.numVms,
      Function.update s.vm s.numVms (some vm) w = s.vm w :=
    fun w hw => Function.update_of_ne hw ..
  -- nothing lives in it yet
  have hlive : ∀ w b node, s.node w b = some node → w ≠ s.numVms := by
    rintro w b node hn rfl
    obtain ⟨vm₁, hvm₁, -⟩ := h.space.live _ b node hn
    rw [hunused] at hvm₁
    cases hvm₁
  refine ⟨⟨h.space.bo, fun w vm₁ hw => ?_, fun w hw => ?_, fun w b node hn => ?_,
    h.space.apart⟩, fun w vm₁ p hw hp => ?_, fun w vm₁ b node pas i hw hn => ?_⟩
  · by_cases hwn : w = s.numVms
    · subst hwn
      obtain rfl := Option.some.inj (hself.symm.trans hw)
      exact hlayout
    · exact h.space.layout w vm₁ ((hother w hwn).symm.trans hw)
  · have hw' : s.numVms + 1 ≤ w := hw
    exact (hother w (by omega)).trans (h.space.unused w (by omega))
  · obtain ⟨vm₁, hvm₁, hrest⟩ := h.space.live w b node hn
    exact ⟨vm₁, (hother w (hlive w b node hn)).trans hvm₁, hrest⟩
  · by_cases hwn : w = s.numVms
    · subst hwn
      obtain rfl := Option.some.inj (hself.symm.trans hw)
      exact .inl (hentry p hp)
    · exact h.owned w vm₁ p ((hother w hwn).symm.trans hw) hp
  · exact h.native w vm₁ b node pas i ((hother w (hlive w b node hn)).symm.trans hw) hn

theorem Isolated.create (h : Isolated cfg s) (early kzallocOk : Bool)
    (pdAlloc : Option ℕ) (dmaAlloc : ℕ → Option ℕ) : Isolated cfg
      (limaVmCreate (cfg.dev early) kzallocOk pdAlloc dmaAlloc s).1 := by
  unfold limaVmCreate
  split
  · exact h
  rename_i vm hcreate
  obtain ⟨pd, vm₀, -, hvm₀, rfl⟩ := limaVmCreateVm_cases hcreate
  refine h.addVm ?_ fun p hp => ?_
  · cases early
    · have h0 : (cfg.dev false).vaStart = 0 := by
        cases hgpu : cfg.gpu <;> simp [VmConfig.dev, limaDeviceInit, hgpu]
      exact ⟨h0, .inr (by simp [h0])⟩
    · exact ⟨rfl, .inl rfl⟩
  · change vm₀.entry p ≠ 0 at hp
    change cfg.Dlbu p (vm₀.entry p)
    obtain ⟨-, rfl⟩ | ⟨dlbu, hdlbu, hmap⟩ := hvm₀
    · exact absurd rfl hp
    have hdev : cfg.gpu = .mali450 ∧ cfg.dlbuDma = dlbu := by
      unfold VmConfig.dev limaDeviceInit at hdlbu
      split at hdlbu
      · cases hdlbu
      · split at hdlbu
        · exact ⟨‹_›, Option.some.inj hdlbu⟩
        · cases hdlbu
    rw [(limaVmMapPage_ok hmap).1] at hp ⊢
    by_cases hpd : p = limaVaReserveDlbu / 4096
    · subst hpd
      rw [Function.update_self, leafPte_eq (limaVmMapPage_cases hmap).1, ← hdev.2]
      exact ⟨hdev.1, rfl, rfl⟩
    · rw [Function.update_of_ne hpd] at hp
      exact absurd rfl hp

end Calls

/-! ## Runs -/

/-- A buffer object before its first call. A native object has its sg table, a
heap object has none yet. -/
structure Bo.Fresh (bo : Bo) : Prop where
  size_dvd : 4096 ∣ bo.size
  heapSize : bo.heapSize = 0
  sgt : ∀ pas, bo.sgt = some pas → bo.isHeap = false ∧
    ∃ bytes ≤ bo.size, pas = bo.sgTable bytes
  va : bo.va = []

/-- **What a run may assume**: `drm_mm` returns fresh nodes inside its range, and
`lima_heap_alloc` is only called on heap objects. -/
def MmPromise (s : Sys) : VmCall → Prop
  | .boAdd env v b _ => ∀ vm start, s.vm v = some vm → env.mmInsert = some start →
      MmFresh vm ⟨start, (s.bo b).size⟩
  | .heapAlloc _ b _ => (s.bo b).isHeap = true
  | _ => True

theorem Isolated.init {cfg : VmConfig} {s : Sys} (hvm : ∀ v, s.vm v = none)
    (hbo : ∀ b, (s.bo b).Fresh) : Isolated cfg s := by
  have hnode : ∀ v b, s.node v b = none := fun v b => by
    simp [Sys.node, Bo.nodeIn, (hbo b).va, limaVmBoFind]
  refine ⟨⟨fun b => ?_, ?_, fun v _ => hvm v, ?_, ?_⟩, ?_, ?_⟩
  · obtain ⟨hsize, hheap, hsgt, hva⟩ := hbo b
    refine ⟨hsize, by simp [hheap], by simp [hheap], fun _ => hheap, fun pas h => ?_,
      by simp [hva]⟩
    obtain ⟨hnative, bytes, hle, rfl⟩ := hsgt pas h
    exact ⟨bytes, hle, rfl, by simp [hnative]⟩
  · intro v vm h
    rw [hvm] at h
    cases h
  · intro v b node h
    rw [hnode] at h
    cases h
  · intro v b c t u h
    rw [hnode] at h
    cases h
  · intro v vm p h
    rw [hvm] at h
    cases h
  · intro v vm b node pas i h
    rw [hvm] at h
    cases h

/-- **Step lemma.** Every completed call keeps the address spaces isolated. -/
theorem Isolated.step {cfg : VmConfig} {s s' : Sys} {c : VmCall}
    (h : Isolated cfg s) (hmm : MmPromise s c) (hret : c.Returns cfg s s') :
    Isolated cfg s' := by
  cases c with
  | create early kz pd dma =>
      rw [hret]
      exact h.create early kz pd dma
  | boAdd env v b make =>
      obtain ⟨fuel, r, hret⟩ := hret
      exact h.boAdd hmm hret
  | boDel v b =>
      obtain ⟨fuel, touched, hret⟩ := hret
      exact h.boDel hret
  | mapBo dma v b pageoff =>
      obtain ⟨fuel, r, hret⟩ := hret
      exact h.mapBo hret
  | heapAlloc env b vm =>
      obtain ⟨fuel, r, hret⟩ := hret
      exact h.heapAlloc hmm hret

/-- **Run lemma.** -/
theorem Isolated.of_reachable {cfg : VmConfig} {s : Sys}
    (hs : (vmLts cfg Bo.Fresh MmPromise).Reachable s) : Isolated cfg s :=
  hs.invariant (fun _ h => .init h.1 h.2.2) fun _ _ _ _ hi h => hi.step h.1 h.2

/-! ## The guarantee -/

/-- An address lies in a page-aligned node when its page does. -/
theorem DrmMmNode.Within.hasPage_of_has {node : DrmMmNode} {lo hi va : ℕ}
    (h : node.Within lo hi) (hva : node.Has va) : node.HasPage (va / 4096) := by
  have h1 := h.start_dvd
  have h2 := h.size_dvd
  obtain ⟨h3, h4⟩ := hva
  unfold DrmMmNode.HasPage
  omega

/-- **Isolation.** In every state that completed calls reach: a nonzero entry
is the DLBU page, or the page of the one object whose node in that address space
contains the address; a native object is mapped in full; and the
`lima_vm_bo_del` that removes an object leaves no entry in its node. -/
theorem vm_isolation (cfg : VmConfig) {s : Sys}
    (hs : (vmLts cfg Bo.Fresh MmPromise).Reachable s) :
    (∀ v vm va, s.vm v = some vm → va < 2 ^ 32 → (limaVmProbePte vm va).1 ≠ 0 →
      cfg.Dlbu (va / 4096) (limaVmProbePte vm va).1 ∨
      ∃ b x, (x ∈ (s.bo b).va ∧ x.vm = v ∧ x.node.Has va) ∧
        (limaVmProbePte vm va).1 =
          (s.bo b).pageDma ((va - x.node.start) / 4096) ||| limaVmFlagsCache ∧
        ∀ c y, y ∈ (s.bo c).va → y.vm = v → y.node.Has va → c = b ∧ y = x) ∧
    (∀ b x vm pas i, x ∈ (s.bo b).va → s.vm x.vm = some vm →
      (s.bo b).isHeap = false → (s.bo b).sgt = some pas → i < pas.length →
      (limaVmProbePte vm (x.node.start + 4096 * i)).1 =
        (s.bo b).pageDma i ||| limaVmFlagsCache) ∧
    (∀ v b s' x vm' va, (VmCall.boDel v b).Returns cfg s s' →
      limaVmBoFind v (s.bo b).va = some x → limaVmBoFind v (s'.bo b).va = none →
      s'.vm v = some vm' → x.node.Has va → (limaVmProbePte vm' va).1 = 0) := by
  have h := Isolated.of_reachable hs
  have hfind : ∀ b x, x ∈ (s.bo b).va → s.node x.vm b = some x.node := fun b x hx =>
    Bo.nodeIn_of_find (limaVmBoFind_of_mem (h.space.bo b).nodup hx)
  have haligned : ∀ v b node, s.node v b = some node →
      node.start % 4096 = 0 ∧ ∀ va, node.Has va → node.HasPage (va / 4096) := by
    intro v b node hn
    obtain ⟨vm, -, -, -, hin⟩ := h.space.live v b node hn
    exact ⟨Nat.mod_eq_zero_of_dvd hin.start_dvd, fun va => hin.hasPage_of_has⟩
  refine ⟨fun v vm va hvm hva hne => ?_, fun b x vm pas i hx hvm hheap hsgt hi => ?_,
    fun v b s' x vm' va hret hx hgone hvm' hva => ?_⟩
  · rw [limaVmProbePte_eq vm hva] at hne ⊢
    refine (h.owned v vm (va / 4096) hvm hne).imp_right ?_
    rintro ⟨b, node, hn, hlo, hhi, hw⟩
    obtain ⟨x, hx, rfl⟩ := Option.map_eq_some_iff.mp hn
    obtain ⟨hmem, rfl⟩ := limaVmBoFind_some hx
    have hle := h.space.mappable_le b x.node hn
    obtain ⟨hmod, -⟩ := haligned _ b x.node hn
    have hhas : x.node.Has va := by
      obtain ⟨vm₁, -, -, -, hin⟩ := h.space.live _ b x.node hn
      have hdvd := hin.size_dvd
      unfold Span.Has
      omega
    refine ⟨b, x, ⟨hmem, rfl, hhas⟩, ?_, fun c y hy hyv hyva => ?_⟩
    · rw [hw, show (va - x.node.start) / 4096 = va / 4096 - x.node.start / 4096 by
        omega]
    · have hyn := hfind c y hy
      rw [hyv] at hyn
      obtain rfl := (h.space.apart x.vm).owner_unique hyn hn hyva hhas
      have hyx := limaVmBoFind_of_mem (h.space.bo c).nodup hy
      rw [hyv, hx] at hyx
      exact ⟨rfl, (Option.some.inj hyx).symm⟩
  · have hn := hfind b x hx
    obtain ⟨hmod, -⟩ := haligned _ b x.node hn
    have htop := (h.space.fits hn hsgt).2
    obtain ⟨hentry, hlow⟩ := h.native x.vm vm b x.node pas i hvm hn hheap hsgt hi
    rw [limaVmProbePte_eq vm (by omega),
      show (x.node.start + 4096 * i) / 4096 = x.node.start / 4096 + i by omega,
      hentry, leafPte_eq hlow]
  · obtain ⟨fuel, touched, hdel⟩ := hret
    have hn : s.node v b = some x.node := Bo.nodeIn_of_find hx
    have htop := h.space.node_le hn
    have hva' : va < 2 ^ 32 := by
      have := hva.2
      omega
    obtain ⟨x', hx', ⟨-, rfl⟩ | ⟨-, vm, u, hvm, hu, rfl⟩⟩ := limaVmBoDel_cases hdel
    · -- a dropped reference removes nothing
      rw [Sys.setBo_bo, Function.update_self, limaVmBoFind_dropRef, if_pos rfl,
        hx] at hgone
      cases hgone
    · obtain rfl := Option.some.inj (hx.symm.trans hx')
      obtain rfl : u.vm.removeNode x.node = vm' := by simpa using hvm'
      rw [limaVmProbePte_eq _ hva']
      exact (h.space.removal hx hvm hu).node_clear h ((haligned v b _ hn).2 va hva)

/-- A Mali-400 device. -/
def mali400Config : VmConfig := ⟨.mali400, 0, 8⟩

theorem onePageSys_reachable : (vmLts mali400Config Bo.Fresh MmPromise).Reachable
    (onePageSys (limaDeviceInit .mali400 0) 0x10000) := by
  have hfresh : onePageBo.Fresh :=
    ⟨by decide, rfl, fun pas h => ⟨rfl, 4096, le_rfl, (Option.some.inj h).symm⟩, rfl⟩
  have hinit : (vmLts mali400Config Bo.Fresh MmPromise).Reachable
      (.fresh onePageBo) := Lts.Via.init ⟨fun _ => rfl, rfl, fun _ => hfresh⟩
  let dma : ℕ → Option ℕ := fun k => some (0x50000000 + 0x8000 * k)
  have hcreate : (vmLts mali400Config Bo.Fresh MmPromise).step (.fresh onePageBo)
      (.create false true (some 0x48000000) dma)
      (limaVmCreate (limaDeviceInit .mali400 0) true (some 0x48000000) dma
        (.fresh onePageBo)).1 := ⟨trivial, rfl⟩
  have hadd : (vmLts mali400Config Bo.Fresh MmPromise).step
      (limaVmCreate (limaDeviceInit .mali400 0) true (some 0x48000000) dma
        (.fresh onePageBo)).1
      (.boAdd ⟨true, some 0x10000, dma⟩ 0 0 true)
      (onePageSys (limaDeviceInit .mali400 0) 0x10000) := by
    refine ⟨fun vm start hvm hstart => ?_, 0, none, rfl⟩
    obtain rfl := Option.some.inj hstart
    obtain rfl := Option.some.inj hvm
    exact ⟨⟨by decide, by decide, by decide, by decide, by decide⟩,
      fun t ht => by cases ht⟩
  exact (hinit.step hcreate).step hadd

/-- The page of the one object, through the probe. -/
theorem vm_isolation_onePage : ∃ vm,
    (onePageSys (limaDeviceInit .mali400 0) 0x10000).vm 0 = some vm ∧
    (limaVmProbePte vm 0x10000).1 = 0x40000000 ||| limaVmFlagsCache := by
  have h := (vm_isolation mali400Config onePageSys_reachable).2.1
  exact ⟨_, rfl, h 0 (onePageVa 0x10000) _ [0x40000000] 0 (by decide) rfl rfl rfl
    (by decide)⟩

end Lima
