import Lima.Vm.Sys

/-!
# GEM objects backed by swap memory

`drm_gem_shmem_helper.c` for a native object, with the counters of
`drm_gem_shmem_logic.h`. A page carries what the object has done to it: the wires it
has taken and the cache attribute it has set. The calls that can fail take the outcome
of each step as an argument; a `NULL` page array that is followed is an `oops`.
-/

namespace Lima

open Overlay

/-! ## Counters -/

/-- `enum drm_gem_shmem_unref`. -/
inductive DrmGemShmemUnref where
  | underflow | release | keep
deriving DecidableEq, Repr

/-- `drm_gem_shmem_npages`. -/
def drmGemShmemNpages (size : ℕ) : ℕ := size / limaPageSize

/-- `drm_gem_shmem_ref_first`. -/
def drmGemShmemRefFirst (useCount : ℕ) : ℕ × Bool :=
  (u32 (useCount + 1), decide (useCount = 0))

/-- `drm_gem_shmem_unref`. -/
def drmGemShmemUnref (useCount : ℕ) : ℕ × DrmGemShmemUnref :=
  if useCount = 0 then (0, .underflow)
  else if 0 < useCount - 1 then (useCount - 1, .keep)
  else (useCount - 1, .release)

/-- `drm_gem_shmem_purgeable`. -/
def drmGemShmemPurgeable (madv : ℤ) (vmapUseCount : ℕ) (haveSgt exported imported : Bool) :
    Bool :=
  0 < madv && vmapUseCount == 0 && haveSgt && !exported && !imported

/-- `drm_gem_shmem_madvise_apply`. -/
def drmGemShmemMadviseApply (madv newMadv : ℤ) : ℤ × Bool :=
  let madv := if 0 ≤ madv then newMadv else madv
  (madv, decide (0 ≤ madv))

/-! ## The object -/

/-- `struct drm_gem_shmem_object`, and its backing pages. -/
@[ext]
structure Shmem where
  size : ℕ
  /-- `filp` and `filp->f_shmem` are set. -/
  filp : Bool
  /-- The `pages` array: which entries are set. -/
  pages : Option (ℕ → Bool)
  pagesUseCount : ℕ
  madv : ℤ
  /-- There is an sg table, DMA-mapped. -/
  sgt : Bool
  vaddr : Bool
  vmapUseCount : ℕ
  mapWc : Bool
  /-- The wires the object has on each backing page. -/
  wires : ℕ → ℕ
  /-- The pages whose attribute is `VM_MEMATTR_WRITE_COMBINING`, not the default. -/
  wc : ℕ → Bool

/-- What `drm_gem_shmem_freebsd_get_pages` meets; `contig` tells whether
`vm_page_alloc_contig` finds a run in an untouched object. -/
structure PagesEnv where
  kvmallocOk : Bool
  contig : Bool
  readPage : ℕ → Option Errno

def contigMaxPages : ℕ := 4096

/-- The loop of `shmem_read_mapping_page` calls for `n` pages from index `i` on; a
failure tells where. -/
def grabPages (readPage : ℕ → Option Errno) :
    ℕ → ℕ → (ℕ → ℕ) → (ℕ → Bool) → (ℕ → ℕ) × Except (Errno × ℕ) (ℕ → Bool)
  | 0, _, wires, pages => (wires, .ok pages)
  | n + 1, i, wires, pages =>
      match readPage i with
      | some e => (wires, .error (e, i))
      | none =>
          grabPages readPage n (i + 1) (Function.update wires i (wires i + 1))
            (Function.update pages i true)

/-- `while (i-- > 0) put_page(pages[i])`. -/
def putGrabbed : ℕ → (ℕ → ℕ) → ℕ → ℕ
  | 0, wires => wires
  | i + 1, wires => putGrabbed i (Function.update wires i (wires i - 1))

namespace Shmem

variable (x : Shmem)

def npages : ℕ := drmGemShmemNpages x.size

/-! ## Pages -/

/-- `drm_gem_shmem_freebsd_get_pages`. -/
def drmGemShmemFreebsdGetPages (env : PagesEnv) : Shmem × Except Errno (ℕ → Bool) :=
  if !x.filp then (x, .error .einval)
  else if x.npages = 0 then (x, .error .einval)
  else if !env.kvmallocOk then (x, .error .enomem)
  else if env.contig && 2 ≤ x.npages && x.npages ≤ contigMaxPages then
    -- every page of the run comes back wired
    ({ x with wires := fill x.wires 0 x.npages fun i => x.wires i + 1 },
      .ok (fill (fun _ => false) 0 x.npages fun _ => true))
  else
    match grabPages env.readPage x.npages 0 x.wires fun _ => false with
    | (wires, .ok pages) => ({ x with wires := wires }, .ok pages)
    | (wires, .error (e, i)) => ({ x with wires := putGrabbed i wires }, .error e)

/-- `drm_gem_shmem_set_pages_memattr`, which skips entries that are not set. -/
def drmGemShmemSetPagesMemattr (pages : ℕ → Bool) (wc : Bool) : Shmem :=
  { x with wc := fun i => if i < x.npages ∧ pages i = true then wc else x.wc i }

/-- `drm_gem_shmem_freebsd_put_pages`, which skips them too. -/
def drmGemShmemFreebsdPutPages (pages : ℕ → Bool) : Shmem :=
  { x with wires := fun i =>
      if i < x.npages ∧ pages i = true then x.wires i - 1 else x.wires i }

/-- `drm_gem_shmem_get_pages`. -/
def drmGemShmemGetPages (env : PagesEnv) : Shmem × Option Errno :=
  let x₁ := { x with pagesUseCount := (drmGemShmemRefFirst x.pagesUseCount).1 }
  if !(drmGemShmemRefFirst x.pagesUseCount).2 then (x₁, none)
  else
    match x₁.drmGemShmemFreebsdGetPages env with
    | (x, .error e) => ({ x with pagesUseCount := 0 }, some e)
    | (x, .ok pages) =>
        let x := if x.mapWc then x.drmGemShmemSetPagesMemattr pages true else x
        ({ x with pages := some pages }, none)

/-- `drm_gem_shmem_put_pages`. -/
def drmGemShmemPutPages : Outcome Shmem :=
  match drmGemShmemUnref x.pagesUseCount with
  | (_, .underflow) => .ok x
  | (n, .keep) => .ok { x with pagesUseCount := n }
  | (n, .release) =>
      match x.pages with
      | none => .oops
      | some pages =>
          let x := { x with pagesUseCount := n }
          let x := if x.mapWc then x.drmGemShmemSetPagesMemattr pages false else x
          .ok { x.drmGemShmemFreebsdPutPages pages with pages := none }

/-- `drm_gem_shmem_pin`; `lockErr` is the outcome of the interruptible lock. -/
def drmGemShmemPin (lockErr : Option Errno) (env : PagesEnv) : Shmem × Option Errno :=
  match lockErr with
  | some e => (x, some e)
  | none => x.drmGemShmemGetPages env

/-- `drm_gem_shmem_unpin`. -/
def drmGemShmemUnpin : Outcome Shmem := x.drmGemShmemPutPages

/-! ## Kernel mappings -/

/-- `drm_gem_shmem_vmap`. -/
def drmGemShmemVmap (env : PagesEnv) (vmapOk : Bool) : Outcome (Shmem × Option Errno) :=
  let x₁ := { x with vmapUseCount := (drmGemShmemRefFirst x.vmapUseCount).1 }
  if !(drmGemShmemRefFirst x.vmapUseCount).2 then .ok (x₁, none)
  else
    match x₁.drmGemShmemGetPages env with
    | (x, some e) => .ok ({ x with vmapUseCount := 0 }, some e)
    | (x, none) =>
        match x.pages with
        | none => .oops
        | some _ =>
            let x := { x with vaddr := vmapOk }
            if vmapOk then .ok (x, none)
            else x.drmGemShmemPutPages.bind fun x =>
              .ok ({ x with vmapUseCount := 0 }, some .enomem)

/-- `drm_gem_shmem_vunmap`. -/
def drmGemShmemVunmap : Outcome Shmem :=
  match drmGemShmemUnref x.vmapUseCount with
  | (_, .underflow) => .ok x
  | (n, .keep) => .ok { x with vmapUseCount := n }
  | (n, .release) =>
      { x with vmapUseCount := n }.drmGemShmemPutPages.bind fun x =>
        .ok { x with vaddr := false }

/-! ## User mappings -/

/-- `drm_gem_shmem_mmap`. -/
def drmGemShmemMmap (env : PagesEnv) : Shmem × Option Errno := x.drmGemShmemGetPages env

/-- `drm_gem_shmem_vm_open`. -/
def drmGemShmemVmOpen : Shmem :=
  if x.pagesUseCount = 0 then x else { x with pagesUseCount := u32 (x.pagesUseCount + 1) }

/-- `drm_gem_shmem_vm_close`. -/
def drmGemShmemVmClose : Outcome Shmem := x.drmGemShmemPutPages

/-! ## The sg table -/

/-- `drm_gem_shmem_get_pages_sgt_locked`; `sgAlloc` is the outcome of
`drm_gem_shmem_get_sg_table`. -/
def drmGemShmemGetPagesSgtLocked (env : PagesEnv) (sgAlloc dmaMap : Option Errno) :
    Outcome (Shmem × Option Errno) :=
  if x.sgt then .ok (x, none)
  else
    match x.drmGemShmemGetPages env with
    | (x, some e) => .ok (x, some e)
    | (x, none) =>
        match x.pages with
        | none => .oops
        | some _ =>
            match sgAlloc.or dmaMap with
            | some e => x.drmGemShmemPutPages.bind fun x => .ok (x, some e)
            | none => .ok ({ x with sgt := true }, none)

/-- `drm_gem_shmem_get_pages_sgt`. -/
def drmGemShmemGetPagesSgt (lockErr : Option Errno) (env : PagesEnv)
    (sgAlloc dmaMap : Option Errno) : Outcome (Shmem × Option Errno) :=
  match lockErr with
  | some e => .ok (x, some e)
  | none => x.drmGemShmemGetPagesSgtLocked env sgAlloc dmaMap

/-! ## Purging and freeing -/

/-- `drm_gem_shmem_madvise`. -/
def drmGemShmemMadvise (madv : ℤ) : Shmem :=
  { x with madv := (drmGemShmemMadviseApply x.madv madv).1 }

/-- `drm_gem_shmem_purge`: `drm_gem_shmem_zap_ptes` follows the page array, the DMA
unmapping the sg table. -/
def drmGemShmemPurge : Outcome Shmem :=
  match x.pages with
  | none => .oops
  | some _ =>
      if !x.sgt then .oops
      else { x with sgt := false }.drmGemShmemPutPages.bind fun x =>
        .ok { x with madv := -1 }

/-- `drm_gem_shmem_free`, up to what the object leaves behind. -/
def drmGemShmemFree : Outcome Shmem :=
  let x := { x with sgt := false }
  if x.pages.isSome then x.drmGemShmemPutPages else .ok x

end Shmem

end Lima
