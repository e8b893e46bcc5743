import Lima.Vm.Loops

/-!
# Address spaces and buffer objects

The state the calls of `lima_vm.c` and `lima_heap_alloc` share: the live address
spaces, and the buffer objects with the list of their `lima_bo_va`s. Each
function takes what its environment answers (allocations, `drm_mm`, page reads,
DMA mapping) as an argument, so every failure point of the source is reachable.
Pointers to address spaces and buffer objects are names; a released address
space is absent.
-/

namespace Lima

abbrev VmId := ℕ
abbrev BoId := ℕ

/-- `struct lima_bo_va`. -/
structure BoVa where
  vm : VmId
  refCount : ℕ
  node : DrmMmNode
deriving DecidableEq

/-- `struct lima_bo` with the parts of its shmem base the driver reads. A heap
object is one created with `LIMA_BO_FLAG_HEAP`; `pageDma i` is the bus address
DMA mapping gives page `i` of the object, each time. -/
structure Bo where
  size : ℕ
  isHeap : Bool
  heapSize : ℕ
  /-- `filp` and `filp->f_shmem` are set. -/
  filp : Bool
  pageDma : ℕ → ℕ
  sgt : Option (List ℕ)
  /-- The `pages` array: which entries are set. -/
  pages : Option (ℕ → Bool)
  /-- Wire references taken on each page of the backing object. -/
  wires : ℕ → ℕ
  pagesUseCount : ℕ
  va : List BoVa

/-- The address spaces and buffer objects of a device. Address spaces are named
in the order of their creation. -/
structure Sys where
  vm : VmId → Option Vm
  numVms : ℕ
  bo : BoId → Bo

def Sys.setVm (s : Sys) (v : VmId) (vm : Vm) : Sys :=
  { s with vm := Function.update s.vm v (some vm) }

def Sys.setBo (s : Sys) (b : BoId) (bo : Bo) : Sys :=
  { s with bo := Function.update s.bo b bo }

@[simp] theorem Sys.setVm_vm (s : Sys) (v : VmId) (vm : Vm) :
    (s.setVm v vm).vm = Function.update s.vm v (some vm) := rfl
@[simp] theorem Sys.setVm_bo (s : Sys) (v : VmId) (vm : Vm) :
    (s.setVm v vm).bo = s.bo := rfl
@[simp] theorem Sys.setVm_numVms (s : Sys) (v : VmId) (vm : Vm) :
    (s.setVm v vm).numVms = s.numVms := rfl
@[simp] theorem Sys.setBo_vm (s : Sys) (b : BoId) (bo : Bo) :
    (s.setBo b bo).vm = s.vm := rfl
@[simp] theorem Sys.setBo_bo (s : Sys) (b : BoId) (bo : Bo) :
    (s.setBo b bo).bo = Function.update s.bo b bo := rfl
@[simp] theorem Sys.setBo_numVms (s : Sys) (b : BoId) (bo : Bo) :
    (s.setBo b bo).numVms = s.numVms := rfl

/-! ## Layout and creation -/

inductive GpuId where
  | mali400 | mali450
deriving DecidableEq, Repr

def limaVaReserveStart : ℕ := 0x0FFF00000
def limaVaReserveDlbu : ℕ := limaVaReserveStart
def limaVaReserveEnd : ℕ := 0x100000000

/-- The fields of `struct lima_device` that `lima_vm_create` reads; `dlbu` is
`dlbu_dma` where `dlbu_cpu` is set. -/
structure LimaDevice where
  vaStart : ℕ
  vaEnd : ℕ
  dlbu : Option ℕ

/-- The zeroed device, as it is when `lima_device_init` creates `empty_vm`. -/
def LimaDevice.zeroed : LimaDevice := ⟨0, 0, none⟩

/-- The layout `lima_device_init` sets up, the DLBU page being at `dlbuDma`. -/
def limaDeviceInit (id : GpuId) (dlbuDma : ℕ) : LimaDevice :=
  match id with
  | .mali450 => ⟨0, limaVaReserveStart, some dlbuDma⟩
  | .mali400 => ⟨0, limaVaReserveEnd, none⟩

/-- An address space with the page directory `kzalloc` and
`dma_alloc_coherent` have zeroed. -/
def Vm.blank (pd : ℕ) : Vm where
  refcount := 1
  mmStart := 0
  mmSize := 0
  mm := []
  pd := ⟨pd, fun _ => 0⟩
  bts := fun _ => none

/-- `lima_vm_create`, up to the address space it returns or `NULL`. -/
def limaVmCreateVm (dev : LimaDevice) (kzallocOk : Bool) (pdAlloc : Option ℕ)
    (dmaAlloc : ℕ → Option ℕ) : Option Vm :=
  if !kzallocOk then none
  else
    match pdAlloc with
    | none => none
    | some pd =>
        let mapped : Except Errno Vm :=
          match dev.dlbu with
          | none => .ok (Vm.blank pd)
          | some dlbu =>
              limaVmMapPage dmaAlloc (Vm.blank pd) dlbu limaVaReserveDlbu
        match mapped with
        | .error _ => none
        | .ok vm =>
            some { vm with
              mmStart := dev.vaStart
              mmSize := dev.vaEnd - dev.vaStart }

/-- `lima_vm_create`. -/
def limaVmCreate (dev : LimaDevice) (kzallocOk : Bool) (pdAlloc : Option ℕ)
    (dmaAlloc : ℕ → Option ℕ) (s : Sys) : Sys × Option VmId :=
  match limaVmCreateVm dev kzallocOk pdAlloc dmaAlloc with
  | none => (s, none)
  | some vm => ({ s.setVm s.numVms vm with numVms := s.numVms + 1 }, some s.numVms)

/-- `lima_vm_get`. -/
def limaVmGet (s : Sys) (v : VmId) : Outcome Sys :=
  match s.vm v with
  | none => .oops
  | some vm => .ok (s.setVm v { vm with refcount := vm.refcount + 1 })

/-- `lima_vm_put`: the last reference runs `lima_vm_release`. -/
def limaVmPut (s : Sys) : Option VmId → Outcome Sys
  | none => .ok s
  | some v =>
      match s.vm v with
      | none => .oops
      | some vm =>
          if vm.refcount = 1 then
            .ok { s with vm := Function.update s.vm v none }
          else .ok (s.setVm v { vm with refcount := vm.refcount - 1 })

/-! ## The list of a buffer object's addresses -/

/-- `lima_vm_bo_find`. -/
def limaVmBoFind (v : VmId) (va : List BoVa) : Option BoVa :=
  va.find? fun x => x.vm == v

/-- Change the entry that `lima_vm_bo_find` returns. -/
def modifyBoVa (v : VmId) (f : BoVa → BoVa) : List BoVa → List BoVa
  | [] => []
  | x :: xs => if x.vm = v then f x :: xs else x :: modifyBoVa v f xs

/-- `list_del` of the entry that `lima_vm_bo_find` returns. -/
def removeBoVa (v : VmId) (va : List BoVa) : List BoVa :=
  va.eraseP fun x => x.vm == v

theorem limaVmBoFind_cons (v : VmId) (x : BoVa) (xs : List BoVa) :
    limaVmBoFind v (x :: xs) = if x.vm = v then some x else limaVmBoFind v xs := by
  by_cases h : x.vm = v
  · rw [limaVmBoFind, List.find?_cons_of_pos (by simpa using h), if_pos h]
  · rw [limaVmBoFind, List.find?_cons_of_neg (by simpa using h), if_neg h,
      limaVmBoFind]

theorem limaVmBoFind_some {v : VmId} {va : List BoVa} {x : BoVa}
    (h : limaVmBoFind v va = some x) : x ∈ va ∧ x.vm = v :=
  ⟨List.mem_of_find?_eq_some h, by simpa using List.find?_some h⟩

theorem limaVmBoFind_eq_none {v : VmId} {va : List BoVa} :
    limaVmBoFind v va = none ↔ v ∉ va.map BoVa.vm := by
  simp [limaVmBoFind]

/-- Where an address space occurs once, `lima_vm_bo_find` finds every entry. -/
theorem limaVmBoFind_of_mem {va : List BoVa} (hnd : (va.map BoVa.vm).Nodup)
    {x : BoVa} (hx : x ∈ va) : limaVmBoFind x.vm va = some x := by
  induction va with
  | nil => cases hx
  | cons y ys ih =>
      rw [limaVmBoFind_cons]
      obtain ⟨hy, hnd⟩ := List.nodup_cons.mp hnd
      rcases List.mem_cons.mp hx with rfl | hx
      · rw [if_pos rfl]
      · have hne : y.vm ≠ x.vm := fun h => hy (h ▸ List.mem_map_of_mem hx)
        rw [if_neg hne, ih hnd hx]

/-- Changing the entry of `v` changes what is found for `v`, and nothing else. -/
theorem limaVmBoFind_modify {v : VmId} (f : BoVa → BoVa)
    (hf : ∀ x, (f x).vm = x.vm) (w : VmId) (va : List BoVa) :
    limaVmBoFind w (modifyBoVa v f va) =
      if w = v then (limaVmBoFind w va).map f else limaVmBoFind w va := by
  induction va with
  | nil => simp [modifyBoVa, limaVmBoFind]
  | cons x xs ih =>
      rw [modifyBoVa]
      by_cases hx : x.vm = v
      · subst hx
        rw [if_pos rfl, limaVmBoFind_cons, limaVmBoFind_cons, hf]
        by_cases hw : w = x.vm
        · subst hw
          simp
        · simp [hw, Ne.symm hw]
      · rw [if_neg hx, limaVmBoFind_cons, limaVmBoFind_cons, ih]
        by_cases hw : x.vm = w
        · subst hw
          simp [hx]
        · simp [hw]

theorem modifyBoVa_vm {v : VmId} {f : BoVa → BoVa} (hf : ∀ x, (f x).vm = x.vm)
    (va : List BoVa) : (modifyBoVa v f va).map BoVa.vm = va.map BoVa.vm := by
  induction va with
  | nil => rfl
  | cons x xs ih =>
      rw [modifyBoVa]
      split
      · simp [hf]
      · simp [ih]

theorem limaVmBoFind_append (w : VmId) (va : List BoVa) (x : BoVa) :
    limaVmBoFind w (va ++ [x]) =
      (limaVmBoFind w va).or (if x.vm = w then some x else none) := by
  rw [limaVmBoFind, List.find?_append, ← limaVmBoFind, ← limaVmBoFind,
    limaVmBoFind_cons]
  rfl

/-- After `list_del` the entry is not found, and the others still are. -/
theorem limaVmBoFind_remove {v : VmId} {va : List BoVa}
    (hnd : (va.map BoVa.vm).Nodup) (w : VmId) :
    limaVmBoFind w (removeBoVa v va) =
      if w = v then none else limaVmBoFind w va := by
  induction va with
  | nil => simp [removeBoVa, limaVmBoFind]
  | cons x xs ih =>
      obtain ⟨hx, hnd⟩ := List.nodup_cons.mp hnd
      rw [removeBoVa, List.eraseP_cons]
      by_cases hxv : x.vm = v
      · subst hxv
        simp only [beq_self_eq_true, cond_true]
        by_cases hw : w = x.vm
        · subst hw
          rw [if_pos rfl]
          exact limaVmBoFind_eq_none.mpr hx
        · rw [if_neg hw, limaVmBoFind_cons, if_neg (Ne.symm hw)]
      · have hbeq : (x.vm == v) = false := by simpa using hxv
        rw [hbeq, cond_false, limaVmBoFind_cons, limaVmBoFind_cons]
        have ih' := ih hnd
        rw [removeBoVa] at ih'
        rw [ih']
        by_cases hw : x.vm = w
        · subst hw
          simp [hxv]
        · simp [hw]

theorem removeBoVa_sublist (v : VmId) (va : List BoVa) :
    (removeBoVa v va).Sublist va := List.eraseP_sublist

def BoVa.addRef (x : BoVa) : BoVa := { x with refCount := x.refCount + 1 }
def BoVa.dropRef (x : BoVa) : BoVa := { x with refCount := x.refCount - 1 }

def Bo.addRef (bo : Bo) (v : VmId) : Bo :=
  { bo with va := modifyBoVa v BoVa.addRef bo.va }
def Bo.dropRef (bo : Bo) (v : VmId) : Bo :=
  { bo with va := modifyBoVa v BoVa.dropRef bo.va }

theorem limaVmBoFind_addRef (bo : Bo) (v w : VmId) :
    limaVmBoFind w (bo.addRef v).va =
      if w = v then (limaVmBoFind w bo.va).map BoVa.addRef
      else limaVmBoFind w bo.va :=
  limaVmBoFind_modify BoVa.addRef (fun _ => rfl) w bo.va

theorem limaVmBoFind_dropRef (bo : Bo) (v w : VmId) :
    limaVmBoFind w (bo.dropRef v).va =
      if w = v then (limaVmBoFind w bo.va).map BoVa.dropRef
      else limaVmBoFind w bo.va :=
  limaVmBoFind_modify BoVa.dropRef (fun _ => rfl) w bo.va

def Bo.addVa (bo : Bo) (x : BoVa) : Bo := { bo with va := bo.va ++ [x] }
def Bo.removeVa (bo : Bo) (v : VmId) : Bo :=
  { bo with va := removeBoVa v bo.va }

def Vm.insertNode (vm : Vm) (node : DrmMmNode) : Vm :=
  { vm with mm := node :: vm.mm }
def Vm.removeNode (vm : Vm) (node : DrmMmNode) : Vm :=
  { vm with mm := vm.mm.erase node }

/-! ## Mapping and unmapping buffer objects -/

/-- The rollback of a mapping loop: unmap the first `offset` bytes. -/
def undoMap (fuel : ℕ) (vm : Vm) (base offset : ℕ) : Outcome Vm :=
  if offset ≠ 0 then
    (limaVmUnmapRange fuel ⟨vm, []⟩ (u32 base) (u32 (base + offset - 1))).bind
      fun u => .ok u.vm
  else .ok vm

/-- The environment of a `lima_vm_bo_add`: whether `kzalloc` succeeds, the
address `drm_mm_insert_node` finds, the backing tables it can allocate. -/
structure BoAddEnv where
  kzallocOk : Bool
  mmInsert : Option ℕ
  dmaAlloc : ℕ → Option ℕ

/-- `lima_vm_bo_add`. -/
def limaVmBoAdd (env : BoAddEnv) (fuel : ℕ) (s : Sys) (v : VmId) (b : BoId)
    (create : Bool) : Outcome (Sys × Option Errno) :=
  let bo := s.bo b
  match limaVmBoFind v bo.va with
  | some _ => .ok (s.setBo b (bo.addRef v), none)
  | none =>
      if !create then .ok (s, some .enoent)
      else if !env.kzallocOk then .ok (s, some .enomem)
      else
        match s.vm v with
        | none => .oops
        | some vm =>
            match env.mmInsert with
            | none => .ok (s, some .enospc)
            | some start =>
                let node : DrmMmNode := ⟨start, bo.size⟩
                match bo.sgt with
                | none => .oops
                | some pas =>
                    match limaVmMapPages env.dmaAlloc start pas
                        (vm.insertNode node) 0 with
                    | (vm', _, none) =>
                        .ok ((s.setVm v vm').setBo b (bo.addVa ⟨v, 1, node⟩), none)
                    | (vm', offset, some e) =>
                        (undoMap fuel vm' start offset).bind fun vm'' =>
                          .ok (s.setVm v (vm''.removeNode node), some e)

/-- `lima_vm_bo_del`, with the backing tables its unmap has dereferenced. -/
def limaVmBoDel (fuel : ℕ) (s : Sys) (v : VmId) (b : BoId) :
    Outcome (Sys × List ℕ) :=
  let bo := s.bo b
  match limaVmBoFind v bo.va with
  | none => .oops
  | some x =>
      if 0 < x.refCount - 1 then .ok (s.setBo b (bo.dropRef v), [])
      else
        match s.vm v with
        | none => .oops
        | some vm =>
            let size := u32 (if bo.heapSize ≠ 0 then bo.heapSize else x.node.size)
            -- the inclusive end wraps to 32 bits with the argument
            (limaVmUnmapRange fuel ⟨vm, []⟩ (u32 x.node.start)
              (u32 (x.node.start + size + (2 ^ 32 - 1)))).bind fun u =>
                .ok ((s.setVm v (u.vm.removeNode x.node)).setBo b (bo.removeVa v),
                  u.touched)

/-- `lima_vm_get_va`. -/
def limaVmGetVa (s : Sys) (v : VmId) (b : BoId) : Outcome ℕ :=
  match limaVmBoFind v (s.bo b).va with
  | none => .oops
  | some x => .ok (u32 x.node.start)

/-- `lima_vm_map_bo`. -/
def limaVmMapBo (dmaAlloc : ℕ → Option ℕ) (fuel : ℕ) (s : Sys) (v : VmId)
    (b : BoId) (pageoff : ℕ) : Outcome (Sys × Option Errno) :=
  match limaVmBoFind v (s.bo b).va with
  | none => .ok (s, some .enoent)
  | some x =>
      match s.vm v, (s.bo b).sgt with
      | some vm, some pas =>
          let base := u32 (x.node.start + pageoff * limaPageSize)
          match limaVmMapPages dmaAlloc base (pas.drop pageoff) vm 0 with
          | (vm', _, none) => .ok (s.setVm v vm', none)
          | (vm', offset, some e) =>
              (undoMap fuel vm' base offset).bind fun vm'' =>
                .ok (s.setVm v vm'', some e)
      | _, _ => .oops

/-! ## Growing a heap -/

/-- The environment of a `lima_heap_alloc`: the outcome of each step that can
fail. -/
structure HeapEnv where
  kvmallocOk : Bool
  readPage : ℕ → Option Errno
  sgAlloc : Option Errno
  sgtKmallocOk : Bool
  dmaMap : Option Errno
  dmaAlloc : ℕ → Option ℕ

/-- The loop reading `n` backing pages from index `i` on, each of which comes
back wired. -/
def readHeapPages (readPage : ℕ → Option Errno) :
    ℕ → ℕ → Bo → Bo × Option Errno
  | 0, _, bo => (bo, none)
  | n + 1, i, bo =>
      match readPage i with
      | some e => (bo, some e)
      | none =>
          readHeapPages readPage n (i + 1)
            { bo with
              pages := bo.pages.map fun ps => Function.update ps i true
              wires := Function.update bo.wires i (bo.wires i + 1) }

/-- `bo->base.pages`, allocated on the first growth. -/
def Bo.allocPages (bo : Bo) (kvmallocOk : Bool) : Option Bo :=
  match bo.pages with
  | some _ => some bo
  | none =>
      if kvmallocOk then
        some { bo with
          pages := some fun _ => false
          pagesUseCount := 1 }
      else none

/-- The size a growth aims at, before it is cut to the object's size. -/
def Bo.heapNewSize (initNrPages : ℕ) (bo : Bo) : ℕ :=
  if bo.heapSize ≠ 0 then bo.heapSize * 2 else u32 (initNrPages * limaPageSize)

/-- The sg table of the first `bytes` bytes. -/
def Bo.sgTable (bo : Bo) (bytes : ℕ) : List ℕ :=
  (List.range (bytes / limaPageSize)).map bo.pageDma

/-- `lima_heap_alloc`; the heap grows in `vm` if one is given. -/
def limaHeapAlloc (initNrPages : ℕ) (env : HeapEnv) (fuel : ℕ) (s : Sys)
    (b : BoId) (vm : Option VmId) : Outcome (Sys × Option Errno) :=
  let bo := s.bo b
  let oldSize := bo.heapSize
  if bo.size ≤ bo.heapSize then .ok (s, some .enospc)
  else
    let newSize := min (bo.heapNewSize initNrPages) bo.size
    if !bo.filp then .ok (s, some .einval)
    else
      match bo.allocPages env.kvmallocOk with
      | none => .ok (s, some .enomem)
      | some bo =>
          match readHeapPages env.readPage
              (newSize / limaPageSize - oldSize / limaPageSize)
              (oldSize / limaPageSize) bo with
          | (bo, some e) => .ok (s.setBo b bo, some e)
          | (bo, none) =>
              match env.sgAlloc with
              | some e => .ok (s.setBo b bo, some e)
              | none =>
                  if bo.sgt.isNone && !env.sgtKmallocOk then
                    .ok (s.setBo b bo, some .enomem)
                  else
                    match env.dmaMap with
                    | some e => .ok (s.setBo b { bo with sgt := none }, some e)
                    | none =>
                        let bo := { bo with sgt := some (bo.sgTable newSize) }
                        let grown := { bo with heapSize := newSize }
                        match vm with
                        | none => .ok (s.setBo b grown, none)
                        | some v =>
                            (limaVmMapBo env.dmaAlloc fuel (s.setBo b bo) v b
                              (oldSize / limaPageSize)).bind fun r =>
                                match r with
                                | (s, none) => .ok (s.setBo b grown, none)
                                | (s, some e) =>
                                    -- the sg table goes, also when it replaced one
                                    .ok (s.setBo b { bo with sgt := none }, some e)

end Lima
