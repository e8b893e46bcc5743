import Lima.Basic
import Lima.Lib.Overlay
import Lima.Lib.Spans

/-!
# Page tables of one GPU address space

The two-level table of `lima_vm.c`: a page directory of 1024 entries and 128
lazily allocated backing tables of 8192 entries, each of which serves eight
consecutive directory entries. The functions here are the ones that touch the
tables of a single `struct lima_vm`. The second half gives their meaning on
page numbers: a `Vm` is read as a function from page numbers to page-table
entries, and each loop is an overlay of that function.
-/

namespace Lima

open Overlay

/-! ## Geometry -/

def limaPageSize : ℕ := 4096
def limaVmNumPtPerBtShift : ℕ := 3
def limaVmNumPtPerBt : ℕ := 1 <<< limaVmNumPtPerBtShift
def limaPageEntNum : ℕ := limaPageSize / 4
def limaVmNumBt : ℕ := limaPageEntNum >>> limaVmNumPtPerBtShift

def limaVmPdShift : ℕ := 22
def limaVmPtShift : ℕ := 12
def limaVmPbShift : ℕ := limaVmPdShift + limaVmNumPtPerBtShift
def limaVmBtShift : ℕ := limaVmPtShift

def limaVmPtMask : ℕ := (1 <<< limaVmPdShift) - 1
def limaVmBtMask : ℕ := (1 <<< limaVmPbShift) - 1

def limaPde (va : ℕ) : ℕ := va >>> limaVmPdShift
def limaPte (va : ℕ) : ℕ := (va &&& limaVmPtMask) >>> limaVmPtShift
def limaPbe (va : ℕ) : ℕ := va >>> limaVmPbShift
def limaBte (va : ℕ) : ℕ := (va &&& limaVmBtMask) >>> limaVmBtShift

def limaVmFlagPresent : ℕ := 1
/-- `LIMA_VM_FLAGS_CACHE`: bits 0 to 4 and 6 to 8. -/
def limaVmFlagsCache : ℕ := 0x1DF

/-- `(dma_addr_t)UINT32_MAX - LIMA_PAGE_SIZE + 1`: the highest page address a
32-bit entry can hold. -/
def limaVmMaxPage : ℕ := (2 ^ 32 - 1) - limaPageSize + 1

theorem limaPbe_eq (va : ℕ) : limaPbe va = va / 4096 / 8192 := by
  simp only [limaPbe, limaVmPbShift, limaVmPdShift, limaVmNumPtPerBtShift,
    Nat.shiftRight_eq_div_pow]
  omega

theorem limaBte_eq (va : ℕ) : limaBte va = va / 4096 % 8192 := by
  have hmask : limaVmBtMask = 2 ^ 25 - 1 := by decide
  rw [limaBte, hmask, Nat.and_two_pow_sub_one_eq_mod]
  simp only [limaVmBtShift, limaVmPtShift, Nat.shiftRight_eq_div_pow]
  omega

theorem limaPde_eq (va : ℕ) : limaPde va = va / 4096 / 1024 := by
  simp only [limaPde, limaVmPdShift, Nat.shiftRight_eq_div_pow]
  omega

theorem limaPte_eq (va : ℕ) : limaPte va = va / 4096 % 1024 := by
  have hmask : limaVmPtMask = 2 ^ 22 - 1 := by decide
  rw [limaPte, hmask, Nat.and_two_pow_sub_one_eq_mod]
  simp only [limaVmPtShift, Nat.shiftRight_eq_div_pow]
  omega

/-! ## State -/

/-- `struct lima_vm_page`: a block from `dma_alloc_coherent`, seen by the CPU
as words and by the device at a bus address. -/
structure DmaBlock where
  dma : ℕ
  cpu : ℕ → ℕ

/-- A store of one word. -/
def DmaBlock.set (blk : DmaBlock) (k w : ℕ) : DmaBlock :=
  { blk with cpu := Function.update blk.cpu k w }

/-- A range handed out by `drm_mm`. -/
abbrev DrmMmNode := Spans.Span

/-- `struct lima_vm`. A `none` in `bts` is a `NULL` `cpu` pointer. -/
structure Vm where
  refcount : ℕ
  mmStart : ℕ
  mmSize : ℕ
  mm : List DrmMmNode
  pd : DmaBlock
  bts : ℕ → Option DmaBlock

/-- Point `vm->bts[pbe]` at a block. -/
def Vm.setBt (vm : Vm) (pbe : ℕ) (bt : DmaBlock) : Vm :=
  { vm with bts := Function.update vm.bts pbe (some bt) }

/-! ## Functions -/

/-- `lima_vm_probe_pte`: the raw PTE, and `bt_present`. -/
def limaVmProbePte (vm : Vm) (va : ℕ) : ℕ × Bool :=
  let pbe := limaPbe va
  let bte := limaBte va
  if limaVmNumBt ≤ pbe then (0, false)
  else
    match vm.bts pbe with
    | none => (0, false)
    | some bt => (bt.cpu bte, true)

/-- The loop writing `n` directory entries from `base` on. -/
def writePdes (pd : ℕ → ℕ) (base pts : ℕ) : ℕ → ℕ → ℕ
  | 0 => pd
  | n + 1 =>
      Function.update (writePdes pd base pts n) (base + n)
        (u32 ((pts + n * limaPageSize) ||| limaVmFlagPresent))

/-- A zeroed backing table at `pts`, entered into the page directory. -/
def Vm.addBt (vm : Vm) (pbe pts : ℕ) : Vm :=
  let pd := { vm.pd with
    cpu := writePdes vm.pd.cpu (pbe <<< limaVmNumPtPerBtShift) pts
      limaVmNumPtPerBt }
  { vm with pd := pd }.setBt pbe ⟨pts, fun _ => 0⟩

/-- The check that every page table of the block at `pts` lies below 4 GiB,
in 64-bit `dma_addr_t` arithmetic. -/
def tableFits (pts : ℕ) : Bool :=
  (pts + limaPageSize * limaVmNumPtPerBt - 1) % 2 ^ 64 ≤ 2 ^ 32 - 1

/-- The leaf entry stored for the page at `pa`. -/
def leafPte (pa : ℕ) : ℕ := u32 (pa ||| limaVmFlagsCache)

/-- `lima_vm_map_page`. `dmaAlloc pbe` is the answer of `dma_alloc_coherent`
should the backing table `pbe` have to be allocated. -/
def limaVmMapPage (dmaAlloc : ℕ → Option ℕ) (vm : Vm) (pa va : ℕ) :
    Except Errno Vm :=
  let pbe := limaPbe va
  let bte := limaBte va
  if limaVmMaxPage < pa then .error .erange
  else
    match vm.bts pbe with
    | some bt => .ok (vm.setBt pbe (bt.set bte (leafPte pa)))
    | none =>
        match dmaAlloc pbe with
        | none => .error .enomem
        | some pts =>
            -- a block that does not fit is freed again, `cpu` back to `NULL`
            if !tableFits pts then .error .erange
            else
              .ok ((vm.addBt pbe pts).setBt pbe
                (DmaBlock.set ⟨pts, fun _ => 0⟩ bte (leafPte pa)))

/-- An unmap in progress: the address space, and the backing tables the loop
has dereferenced, in order. -/
structure Unmap where
  vm : Vm
  touched : List ℕ

/-- `lima_vm_unmap_range`, whose loop counter `addr` is a `u32`. -/
def limaVmUnmapRange : ℕ → Unmap → ℕ → ℕ → Outcome Unmap
  | 0, _, _, _ => .hang
  | fuel + 1, u, addr, stop =>
      if addr ≤ stop then
        let pbe := limaPbe addr
        let bte := limaBte addr
        match u.vm.bts pbe with
        | none => .oops
        | some bt =>
            limaVmUnmapRange fuel
              ⟨u.vm.setBt pbe (bt.set bte 0), u.touched ++ [pbe]⟩
              (u32 (addr + limaPageSize)) stop
      else .ok u

/-- The mapping loop shared by `lima_vm_bo_add` and `lima_vm_map_bo`: map the
pages of an sg table from `base + offset` on, and stop at the first error. -/
def limaVmMapPages (dmaAlloc : ℕ → Option ℕ) (base : ℕ) :
    List ℕ → Vm → ℕ → Vm × ℕ × Option Errno
  | [], vm, offset => (vm, offset, none)
  | pa :: pas, vm, offset =>
      match limaVmMapPage dmaAlloc vm pa (u32 (base + offset)) with
      | .error e => (vm, offset, some e)
      | .ok vm' => limaVmMapPages dmaAlloc base pas vm' (offset + limaPageSize)

/-! ## The page-number view -/

/-- The entry held for page number `p` by a set of backing tables. -/
def entryOf (bts : ℕ → Option DmaBlock) (p : ℕ) : ℕ :=
  match bts (p / 8192) with
  | none => 0
  | some bt => bt.cpu (p % 8192)

def Vm.entry (vm : Vm) : ℕ → ℕ := entryOf vm.bts

/-- The backing table of page number `p` exists. -/
def Vm.HasTable (vm : Vm) (p : ℕ) : Prop := (vm.bts (p / 8192)).isSome

/-- The bus address of backing table `k`. -/
def Vm.btDma (vm : Vm) (k : ℕ) : Option ℕ := (vm.bts k).map DmaBlock.dma

/-- The probe reads the page-number view. -/
theorem limaVmProbePte_eq (vm : Vm) {va : ℕ} (hva : va < 2 ^ 32) :
    limaVmProbePte vm va =
      (vm.entry (va / 4096), (vm.bts (va / 4096 / 8192)).isSome) := by
  have hpbe : ¬ limaVmNumBt ≤ va / 4096 / 8192 := by
    have : limaVmNumBt = 128 := by decide
    omega
  simp only [limaVmProbePte, limaPbe_eq, limaBte_eq, if_neg hpbe, Vm.entry,
    entryOf]
  cases vm.bts (va / 4096 / 8192) <;> rfl

/-- Storing one word of a table changes one entry of the view. -/
theorem entryOf_store {bts : ℕ → Option DmaBlock} {p : ℕ} {bt : DmaBlock}
    (hbt : bts (p / 8192) = some bt) (w : ℕ) :
    entryOf (Function.update bts (p / 8192) (some (bt.set (p % 8192) w))) =
      Function.update (entryOf bts) p w := by
  funext q
  by_cases hq : q / 8192 = p / 8192
  · by_cases hqp : q = p
    · subst hqp
      simp [entryOf, DmaBlock.set]
    · have hmod : q % 8192 ≠ p % 8192 := by omega
      simp [entryOf, hq, hbt, DmaBlock.set, Function.update_of_ne hqp,
        Function.update_of_ne hmod]
  · have hqp : q ≠ p := fun h => hq (h ▸ rfl)
    simp [entryOf, Function.update_of_ne hq, Function.update_of_ne hqp]

/-- A fresh zeroed table does not change the view. -/
theorem entryOf_add {bts : ℕ → Option DmaBlock} {k : ℕ} (hk : bts k = none)
    (pts : ℕ) :
    entryOf (Function.update bts k (some ⟨pts, fun _ => 0⟩)) = entryOf bts := by
  funext q
  by_cases hq : q / 8192 = k
  · subst hq
    simp [entryOf, hk]
  · simp [entryOf, Function.update_of_ne hq]

theorem leafPte_eq {pa : ℕ} (h : pa ≤ limaVmMaxPage) :
    leafPte pa = pa ||| limaVmFlagsCache := by
  have hmax : limaVmMaxPage < 2 ^ 32 := by decide
  exact u32_of_lt (Nat.or_lt_two_pow (by omega) (by decide))

/-! ## What an operation on the tables leaves alone -/

/-- The blocks of `vm'` are those of `vm`, and backing tables taken from
`dmaAlloc` and checked to lie below 4 GiB. -/
structure TableFrame (dmaAlloc : ℕ → Option ℕ) (vm vm' : Vm) : Prop where
  pdDma : vm'.pd.dma = vm.pd.dma
  btDma : ∀ k, vm'.btDma k = vm.btDma k ∨
    vm.btDma k = none ∧ vm'.btDma k = dmaAlloc k ∧
      ∀ pts, dmaAlloc k = some pts → tableFits pts

/-- Besides, `vm'` differs from `vm` in page-table entries only. -/
structure VmFrame (dmaAlloc : ℕ → Option ℕ) (vm vm' : Vm) : Prop
    extends TableFrame dmaAlloc vm vm' where
  refcount : vm'.refcount = vm.refcount
  mmStart : vm'.mmStart = vm.mmStart
  mmSize : vm'.mmSize = vm.mmSize
  mm : vm'.mm = vm.mm

section Frame

variable {dmaAlloc : ℕ → Option ℕ} {vm vm' vm'' : Vm}

theorem TableFrame.refl (dmaAlloc : ℕ → Option ℕ) (vm : Vm) :
    TableFrame dmaAlloc vm vm :=
  ⟨rfl, fun _ => .inl rfl⟩

theorem TableFrame.trans (h : TableFrame dmaAlloc vm vm')
    (h' : TableFrame dmaAlloc vm' vm'') : TableFrame dmaAlloc vm vm'' where
  pdDma := h'.pdDma.trans h.pdDma
  btDma k := by
    rcases h.btDma k with h1 | ⟨h1, h2, h3⟩ <;>
      rcases h'.btDma k with h1' | ⟨h1', h2', h3'⟩
    · exact .inl (h1'.trans h1)
    · exact .inr ⟨h1 ▸ h1', h2', h3'⟩
    · exact .inr ⟨h1, h1'.trans h2, h3⟩
    · exact .inr ⟨h1, h2', h3'⟩

theorem TableFrame.hasTable (h : TableFrame dmaAlloc vm vm') {p : ℕ}
    (hp : vm.HasTable p) : vm'.HasTable p := by
  have hbt : ∀ v : Vm, v.HasTable p ↔ (v.btDma (p / 8192)).isSome := fun v => by
    simp [Vm.HasTable, Vm.btDma]
  rw [hbt] at hp ⊢
  rcases h.btDma (p / 8192) with h1 | ⟨h1, -, -⟩
  · rwa [h1]
  · simp [h1] at hp

theorem VmFrame.refl (dmaAlloc : ℕ → Option ℕ) (vm : Vm) :
    VmFrame dmaAlloc vm vm :=
  ⟨.refl _ _, rfl, rfl, rfl, rfl⟩

theorem VmFrame.trans (h : VmFrame dmaAlloc vm vm')
    (h' : VmFrame dmaAlloc vm' vm'') : VmFrame dmaAlloc vm vm'' where
  toTableFrame := h.toTableFrame.trans h'.toTableFrame
  refcount := h'.refcount.trans h.refcount
  mmStart := h'.mmStart.trans h.mmStart
  mmSize := h'.mmSize.trans h.mmSize
  mm := h'.mm.trans h.mm

/-- A frame that allocates nothing is a frame for any allocator. -/
theorem VmFrame.of_none (h : VmFrame (fun _ => none) vm vm') :
    VmFrame dmaAlloc vm vm' where
  toTableFrame := ⟨h.pdDma, fun k => .inl <| by
    rcases h.btDma k with h1 | ⟨h1, h2, -⟩
    · exact h1
    · rw [h1, h2]⟩
  refcount := h.refcount
  mmStart := h.mmStart
  mmSize := h.mmSize
  mm := h.mm

end Frame

@[simp] theorem Vm.setBt_bts (vm : Vm) (pbe : ℕ) (bt : DmaBlock) :
    (vm.setBt pbe bt).bts = Function.update vm.bts pbe (some bt) := rfl

@[simp] theorem Vm.addBt_bts (vm : Vm) (pbe pts : ℕ) :
    (vm.addBt pbe pts).bts =
      Function.update vm.bts pbe (some ⟨pts, fun _ => 0⟩) := rfl

/-- Storing into an existing table. -/
theorem Vm.setBt_frame {vm : Vm} {pbe : ℕ} {bt : DmaBlock}
    (hbt : vm.bts pbe = some bt) (k w : ℕ) (dmaAlloc : ℕ → Option ℕ) :
    VmFrame dmaAlloc vm (vm.setBt pbe (bt.set k w)) where
  refcount := rfl
  mmStart := rfl
  mmSize := rfl
  mm := rfl
  pdDma := rfl
  btDma j := by
    left
    by_cases hj : j = pbe
    · subst hj
      simp [Vm.btDma, hbt, DmaBlock.set]
    · simp [Vm.btDma, Function.update_of_ne hj]

theorem Vm.addBt_frame {vm : Vm} {pbe pts : ℕ} {dmaAlloc : ℕ → Option ℕ}
    (hbt : vm.bts pbe = none) (halloc : dmaAlloc pbe = some pts)
    (hfits : tableFits pts) : VmFrame dmaAlloc vm (vm.addBt pbe pts) where
  refcount := rfl
  mmStart := rfl
  mmSize := rfl
  mm := rfl
  pdDma := rfl
  btDma k := by
    by_cases hk : k = pbe
    · subst hk
      refine .inr ⟨by simp [Vm.btDma, hbt], by simp [Vm.btDma, halloc], ?_⟩
      intro pts' hpts
      obtain rfl : pts = pts' := by simpa [halloc] using hpts
      exact hfits
    · exact .inl (by simp [Vm.btDma, Function.update_of_ne hk])

/-! ## Mapping one page -/

/-- **What a successful `lima_vm_map_page` does**: it stores into a table that
was there, or that it has just added. -/
theorem limaVmMapPage_cases {dmaAlloc : ℕ → Option ℕ} {vm vm' : Vm} {pa va : ℕ}
    (h : limaVmMapPage dmaAlloc vm pa va = .ok vm') :
    pa ≤ limaVmMaxPage ∧ ∃ vm₁ bt, vm₁.bts (limaPbe va) = some bt ∧
      vm' = vm₁.setBt (limaPbe va) (bt.set (limaBte va) (leafPte pa)) ∧
      (vm₁ = vm ∨ ∃ pts, vm.bts (limaPbe va) = none ∧
        dmaAlloc (limaPbe va) = some pts ∧ tableFits pts ∧
        vm₁ = vm.addBt (limaPbe va) pts) := by
  unfold limaVmMapPage at h
  simp only at h
  split at h
  · cases h
  · rename_i hpa
    refine ⟨not_lt.mp hpa, ?_⟩
    split at h
    · rename_i bt hbt
      obtain rfl := Except.ok.inj h
      exact ⟨vm, bt, hbt, rfl, .inl rfl⟩
    · rename_i hnone
      split at h
      · cases h
      · rename_i pts halloc
        split at h
        · cases h
        · rename_i hfits
          obtain rfl := Except.ok.inj h
          refine ⟨vm.addBt (limaPbe va) pts, ⟨pts, fun _ => 0⟩, by simp, rfl,
            .inr ⟨pts, hnone, halloc, by simpa using hfits, rfl⟩⟩

theorem limaVmMapPage_ok {dmaAlloc : ℕ → Option ℕ} {vm vm' : Vm} {pa va : ℕ}
    (h : limaVmMapPage dmaAlloc vm pa va = .ok vm') :
    vm'.entry = Function.update vm.entry (va / 4096) (leafPte pa) ∧
      vm'.HasTable (va / 4096) ∧ VmFrame dmaAlloc vm vm' := by
  obtain ⟨-, vm₁, bt, hbt, rfl, hvm₁⟩ := limaVmMapPage_cases h
  simp only [limaPbe_eq, limaBte_eq] at *
  refine ⟨?_, by simp [Vm.HasTable], ?_⟩
  · rw [Vm.entry, Vm.setBt_bts, entryOf_store hbt]
    rcases hvm₁ with rfl | ⟨pts, hnone, -, -, rfl⟩
    · rfl
    · rw [Vm.addBt_bts, entryOf_add hnone, Vm.entry]
  · have hset := Vm.setBt_frame hbt (va / 4096 % 8192) (leafPte pa) dmaAlloc
    rcases hvm₁ with rfl | ⟨pts, hnone, halloc, hfits, rfl⟩
    · exact hset
    · exact (Vm.addBt_frame hnone halloc hfits).trans hset

/-- Page `pa` can be mapped at page number `p`: it lies below 4 GiB, and there is a table
for it or one that lies there can be allocated. -/
def Vm.CanMap (vm : Vm) (dmaAlloc : ℕ → Option ℕ) (p pa : ℕ) : Prop :=
  pa ≤ limaVmMaxPage ∧
    (vm.HasTable p ∨ ∃ pts, dmaAlloc (p / 8192) = some pts ∧ tableFits pts = true)

theorem limaVmMapPage_total {dmaAlloc : ℕ → Option ℕ} {vm : Vm} {pa va : ℕ}
    (h : vm.CanMap dmaAlloc (va / 4096) pa) :
    ∃ vm', limaVmMapPage dmaAlloc vm pa va = .ok vm' := by
  obtain ⟨hpa, ht | ⟨pts, halloc, hfits⟩⟩ := h
  · obtain ⟨bt, hbt⟩ := Option.isSome_iff_exists.mp ht
    simp [limaVmMapPage, not_lt.mpr hpa, limaPbe_eq, hbt]
  · cases hbt : vm.bts (va / 4096 / 8192) with
    | none => simp [limaVmMapPage, not_lt.mpr hpa, limaPbe_eq, hbt, halloc, hfits]
    | some bt => simp [limaVmMapPage, not_lt.mpr hpa, limaPbe_eq, hbt]

/-- What can be mapped still can be once other pages are. -/
theorem Vm.CanMap.frame {dmaAlloc dmaAlloc' : ℕ → Option ℕ} {vm vm' : Vm} {p pa : ℕ}
    (h : vm.CanMap dmaAlloc p pa) (hf : TableFrame dmaAlloc' vm vm') :
    vm'.CanMap dmaAlloc p pa :=
  ⟨h.1, h.2.imp_left hf.hasTable⟩

end Lima
