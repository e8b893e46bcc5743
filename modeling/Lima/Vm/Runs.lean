import Lima.Vm.Calls

/-!
# Runs of completed calls

The transition system whose steps are completed calls of `lima_vm_create`,
`lima_vm_bo_add`, `lima_vm_bo_del`, `lima_vm_map_bo` and `lima_heap_alloc`,
succeeding or failing, over any number of address spaces and buffer objects.
What the environment promises (`drm_mm`, the DMA allocator) is a parameter. All
calls move an address space by the same few moves, so a property of the page
tables is shown once for each move.
-/

namespace Lima

/-! ## Moves of one address space -/

/-- One store into the tables of an address space, or a change of its nodes. -/
inductive VmMove (dmaAlloc : ℕ → Option ℕ) : Vm → Vm → Prop
  | page {vm vm' : Vm} {pa va : ℕ} : va < 2 ^ 32 →
      limaVmMapPage dmaAlloc vm pa va = .ok vm' → VmMove dmaAlloc vm vm'
  | clear {vm : Vm} {pbe : ℕ} {bt : DmaBlock} (bte : ℕ) :
      vm.bts pbe = some bt → VmMove dmaAlloc vm (vm.setBt pbe (bt.set bte 0))
  | nodes (vm : Vm) (mm : List DrmMmNode) : VmMove dmaAlloc vm { vm with mm := mm }

abbrev VmMoves (dmaAlloc : ℕ → Option ℕ) : Vm → Vm → Prop :=
  Relation.ReflTransGen (VmMove dmaAlloc)

section Moves

variable {dmaAlloc : ℕ → Option ℕ}

theorem limaVmMapPages_moves {base offset offset' : ℕ} {pas : List ℕ}
    {vm vm' : Vm} {e : Option Errno}
    (h : limaVmMapPages dmaAlloc base pas vm offset = (vm', offset', e)) :
    VmMoves dmaAlloc vm vm' :=
  limaVmMapPages_preserves
    (fun _ _ _ _ hm hva hok => hm.tail (.page hva hok)) .refl h

theorem limaVmUnmapRange_moves {fuel addr stop : ℕ} {u u' : Unmap}
    (h : limaVmUnmapRange fuel u addr stop = .ok u') :
    VmMoves dmaAlloc u.vm u'.vm :=
  limaVmUnmapRange_preserves (fun _ _ _ bte hm hbt => hm.tail (.clear bte hbt))
    .refl h

theorem undoMap_moves {fuel base offset : ℕ} {vm vm' : Vm}
    (h : undoMap fuel vm base offset = .ok vm') : VmMoves dmaAlloc vm vm' := by
  unfold undoMap at h
  split at h
  · obtain ⟨u, hu, hres⟩ := Outcome.bind_eq_ok h
    obtain rfl := Outcome.ok.inj hres
    exact limaVmUnmapRange_moves hu
  · obtain rfl := Outcome.ok.inj h
    exact .refl

end Moves

/-! ## The transition system -/

/-- A call, with the environment it meets. An address space is created from the
zeroed device or from the layout `lima_device_init` has set up. -/
inductive VmCall where
  | create (early kzallocOk : Bool) (pdAlloc : Option ℕ) (dmaAlloc : ℕ → Option ℕ)
  | boAdd (env : BoAddEnv) (v : VmId) (b : BoId) (create : Bool)
  | boDel (v : VmId) (b : BoId)
  | mapBo (dmaAlloc : ℕ → Option ℕ) (v : VmId) (b : BoId) (pageoff : ℕ)
  | heapAlloc (env : HeapEnv) (b : BoId) (vm : Option VmId)

/-- The backing tables the call can allocate. -/
def VmCall.dmaAlloc : VmCall → ℕ → Option ℕ
  | .create _ _ _ dmaAlloc => dmaAlloc
  | .boAdd env _ _ _ => env.dmaAlloc
  | .boDel _ _ => fun _ => none
  | .mapBo dmaAlloc _ _ _ => dmaAlloc
  | .heapAlloc env _ _ => env.dmaAlloc

/-- The constants of a run: the GPU, its DLBU page, the module parameter
`lima_heap_init_nr_pages`. -/
structure VmConfig where
  gpu : GpuId
  dlbuDma : ℕ
  initNrPages : ℕ

def VmConfig.dev (cfg : VmConfig) (early : Bool) : LimaDevice :=
  if early then .zeroed else limaDeviceInit cfg.gpu cfg.dlbuDma

/-- The call returns, in state `s'`. -/
def VmCall.Returns (cfg : VmConfig) (s : Sys) (s' : Sys) : VmCall → Prop
  | .create early kzallocOk pdAlloc dmaAlloc =>
      s' = (limaVmCreate (cfg.dev early) kzallocOk pdAlloc dmaAlloc s).1
  | .boAdd env v b make =>
      ∃ fuel r, limaVmBoAdd env fuel s v b make = .ok (s', r)
  | .boDel v b => ∃ fuel touched, limaVmBoDel fuel s v b = .ok (s', touched)
  | .mapBo dmaAlloc v b pageoff =>
      ∃ fuel r, limaVmMapBo dmaAlloc fuel s v b pageoff = .ok (s', r)
  | .heapAlloc env b vm =>
      ∃ fuel r, limaHeapAlloc cfg.initNrPages env fuel s b vm = .ok (s', r)

/-- Runs of completed calls from a device without address spaces whose buffer
objects satisfy `boOk`, in an environment that keeps `promise`. -/
def vmLts (cfg : VmConfig) (boOk : Bo → Prop) (promise : Sys → VmCall → Prop) :
    Lts Sys VmCall where
  init s := (∀ v, s.vm v = none) ∧ s.numVms = 0 ∧ ∀ b, boOk (s.bo b)
  step s c s' := promise s c ∧ c.Returns cfg s s'

/-! ## What every call has in common -/

/-- One address space has moved, if any. -/
def MovesOne (dmaAlloc : ℕ → Option ℕ) (s s' : Sys) : Prop :=
  s'.numVms = s.numVms ∧ (s'.vm = s.vm ∨ ∃ v vm vm', s.vm v = some vm ∧
    s'.vm = Function.update s.vm v (some vm') ∧ VmMoves dmaAlloc vm vm')

theorem MovesOne.of_vm_eq {dmaAlloc : ℕ → Option ℕ} {s s' : Sys}
    (hn : s'.numVms = s.numVms) (h : s'.vm = s.vm) : MovesOne dmaAlloc s s' :=
  ⟨hn, .inl h⟩

theorem limaVmMapBo_movesOne {dmaAlloc : ℕ → Option ℕ} {fuel : ℕ} {s s' : Sys}
    {v : VmId} {b : BoId} {pageoff : ℕ} {r : Option Errno}
    (h : limaVmMapBo dmaAlloc fuel s v b pageoff = .ok (s', r)) :
    MovesOne dmaAlloc s s' := by
  obtain ⟨-, -, rfl⟩ | ⟨x, vm, pas, vm', offset, -, hvm, -, hcase⟩ :=
    limaVmMapBo_cases h
  · exact .of_vm_eq rfl rfl
  · obtain ⟨hmap, -, rfl⟩ | ⟨e, vm'', hmap, hundo, -, rfl⟩ := hcase
    · exact ⟨rfl, .inr ⟨v, vm, vm', hvm, rfl, limaVmMapPages_moves hmap⟩⟩
    · exact ⟨rfl, .inr ⟨v, vm, vm'', hvm, rfl,
        (limaVmMapPages_moves hmap).trans (undoMap_moves hundo)⟩⟩

/-- **The common shape of a step.** It creates the next address space, or moves
at most one. -/
theorem VmCall.Returns.shape {cfg : VmConfig} {s s' : Sys} {c : VmCall}
    (h : c.Returns cfg s s') :
    (∃ early kz pd dma vm, c = .create early kz pd dma ∧
      limaVmCreateVm (cfg.dev early) kz pd dma = some vm ∧
      s' = { s.setVm s.numVms vm with numVms := s.numVms + 1 }) ∨
    MovesOne c.dmaAlloc s s' := by
  cases c with
  | create early kz pd dma =>
      simp only [VmCall.Returns, limaVmCreate] at h
      cases hvm : limaVmCreateVm (cfg.dev early) kz pd dma with
      | none =>
          rw [hvm] at h
          exact .inr (.of_vm_eq (h ▸ rfl) (h ▸ rfl))
      | some vm =>
          rw [hvm] at h
          exact .inl ⟨early, kz, pd, dma, vm, rfl, hvm, h⟩
  | boAdd env v b make =>
      obtain ⟨fuel, r, h⟩ := h
      right
      obtain ⟨x, -, -, rfl⟩ | ⟨-, ⟨e, -, rfl⟩ |
        ⟨-, vm, start, pas, hvm, -, -, hcase⟩⟩ := limaVmBoAdd_cases h
      · exact .of_vm_eq rfl rfl
      · exact .of_vm_eq rfl rfl
      · have hins : VmMoves env.dmaAlloc vm (vm.insertNode _) :=
          .single (.nodes vm (⟨start, (s.bo b).size⟩ :: vm.mm))
        obtain ⟨vm', offset, hmap, -, rfl⟩ |
          ⟨vm', offset, e, vm'', hmap, hundo, -, rfl⟩ := hcase
        · exact ⟨rfl, .inr ⟨v, vm, vm', hvm, rfl,
            hins.trans (limaVmMapPages_moves hmap)⟩⟩
        · exact ⟨rfl, .inr ⟨v, vm, _, hvm, rfl,
            ((hins.trans (limaVmMapPages_moves hmap)).trans
              (undoMap_moves hundo)).tail (.nodes _ _)⟩⟩
  | boDel v b =>
      obtain ⟨fuel, touched, h⟩ := h
      right
      obtain ⟨x, -, ⟨-, rfl⟩ | ⟨-, vm, u, hvm, hu, rfl⟩⟩ := limaVmBoDel_cases h
      · exact .of_vm_eq rfl rfl
      · exact ⟨rfl, .inr ⟨v, vm, _, hvm, rfl,
          (limaVmUnmapRange_moves hu).tail (.nodes _ _)⟩⟩
  | mapBo dma v b pageoff =>
      obtain ⟨fuel, r, h⟩ := h
      exact .inr (limaVmMapBo_movesOne h)
  | heapAlloc env b vm =>
      obtain ⟨fuel, r, h⟩ := h
      right
      obtain ⟨e, -, rfl, -⟩ | ⟨-, bo, -, ⟨e, -, rfl | rfl⟩ | ⟨-, -, rfl⟩ |
        ⟨v, s₁, -, hmap, ⟨-, rfl⟩ | ⟨-, rfl⟩⟩⟩ := limaHeapAlloc_cases h
      · exact .of_vm_eq rfl rfl
      · exact .of_vm_eq rfl rfl
      · exact .of_vm_eq rfl rfl
      · exact .of_vm_eq rfl rfl
      · have hmoves := limaVmMapBo_movesOne hmap
        exact hmoves
      · have hmoves := limaVmMapBo_movesOne hmap
        exact hmoves

/-! ## Reference counts of address spaces -/

theorem VmMove.refcount {dmaAlloc : ℕ → Option ℕ} {vm vm' : Vm}
    (h : VmMove dmaAlloc vm vm') : vm'.refcount = vm.refcount := by
  cases h with
  | page hva hmap => exact (limaVmMapPage_ok hmap).2.2.refcount
  | clear bte hbt => rfl
  | nodes mm => rfl

theorem VmMoves.refcount {dmaAlloc : ℕ → Option ℕ} {vm vm' : Vm}
    (h : VmMoves dmaAlloc vm vm') : vm'.refcount = vm.refcount := by
  induction h with
  | refl => rfl
  | tail _ hmove ih => exact hmove.refcount.trans ih

theorem MovesOne.refs {dmaAlloc : ℕ → Option ℕ} {s s' : Sys}
    (h : MovesOne dmaAlloc s s') (v : VmId) :
    (s'.vm v).map Vm.refcount = (s.vm v).map Vm.refcount := by
  obtain ⟨-, hvm | ⟨w, vm, vm', hw, hvm, hmoves⟩⟩ := h
  · rw [hvm]
  · rw [hvm]
    by_cases hv : v = w
    · subst hv
      simp [hw, hmoves.refcount]
    · simp [hv]

/-- Adding, deleting and growing leave the reference counts of address spaces alone. -/
theorem VmCall.Returns.refcount {cfg : VmConfig} {s s' : Sys} {c : VmCall}
    (h : c.Returns cfg s s') (hc : ∀ early kz pd dma, c ≠ .create early kz pd dma) :
    (∀ v, (s'.vm v).map Vm.refcount = (s.vm v).map Vm.refcount) ∧ s'.numVms = s.numVms := by
  obtain ⟨early, kz, pd, dma, -, rfl, -⟩ | hmoves := h.shape
  · exact absurd rfl (hc early kz pd dma)
  · exact ⟨hmoves.refs, hmoves.1⟩

end Lima
