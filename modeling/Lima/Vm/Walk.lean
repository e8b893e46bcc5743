import Lima.Vm.Runs

/-!
# The hardware's page-table walk

The driver indexes an address space as 128 blocks of 8192 entries; the Mali MMU
walks a directory of 1024 entries and page tables of 1024 entries each, all of
it over the bus. The walk is modelled on the blocks that
`dma_alloc_coherent` has handed out, and shown to read what `lima_vm_probe_pte`
reads, in every state any run of calls reaches.
-/

namespace Lima

open Spans

/-! ## The bus -/

/-- A block of an address space and its length in bytes: the page directory, or
backing table `k`. -/
def Vm.dmaBlock (vm : Vm) : Option ℕ → Option (DmaBlock × ℕ)
  | none => some (vm.pd, limaPageSize)
  | some k => (vm.bts k).map fun bt => (bt, limaPageSize <<< limaVmNumPtPerBtShift)

def Vm.dmaBlocks (vm : Vm) : List (DmaBlock × ℕ) :=
  (none :: (List.range limaVmNumBt).map some).filterMap vm.dmaBlock

/-- All live blocks of the device's address spaces. -/
def Sys.dmaBlocks (s : Sys) : List (DmaBlock × ℕ) :=
  (List.range s.numVms).flatMap fun v =>
    match s.vm v with
    | none => []
    | some vm => vm.dmaBlocks

/-- Word `k` of a block stands at bus address `dma + 4 * k`. -/
def busWord (addr : ℕ) (blk : DmaBlock × ℕ) : Option ℕ :=
  if blk.1.dma ≤ addr ∧ addr < blk.1.dma + blk.2 then
    some (blk.1.cpu ((addr - blk.1.dma) / 4))
  else none

/-- A word read over the bus; `none` where no block answers. -/
def Sys.busRead (s : Sys) (addr : ℕ) : Option ℕ :=
  s.dmaBlocks.findSome? (busWord addr)

/-! ## The walk -/

inductive WalkResult where
  | absent
  | pte (w : ℕ)
  | busError
deriving DecidableEq, Repr

/-- The Mali MMU's walk for `va`, from the page directory at bus address `dte`. -/
def maliWalk (s : Sys) (dte va : ℕ) : WalkResult :=
  match s.busRead (dte + 4 * (va >>> 22)) with
  | none => .busError
  | some pde =>
      if pde &&& limaVmFlagPresent = 0 then .absent
      else
        match s.busRead ((pde &&& 0xFFFFF000) + 4 * ((va >>> 12) &&& 0x3ff)) with
        | none => .busError
        | some w => .pte w

/-- What `lima_vm_probe_pte` says, in the terms of a walk. -/
def probeResult (r : ℕ × Bool) : WalkResult := if r.2 then .pte r.1 else .absent

/-! ## Directory and backing tables agree -/

/-- A place for backing table `k`: aligned, and below 4 GiB. -/
structure BtPlaced (k dma : ℕ) : Prop where
  lt : k < 128
  dvd : 4096 ∣ dma
  fits : dma + 32768 ≤ 2 ^ 32

/-- Each directory entry points at its eighth of its backing table. -/
structure TablesOk (vm : Vm) : Prop where
  pde : ∀ d < 1024, vm.pd.cpu d =
    match vm.bts (d / 8) with
    | none => 0
    | some bt => (bt.dma + d % 8 * 4096) ||| 1
  placed : ∀ k bt, vm.bts k = some bt → BtPlaced k bt.dma

theorem TablesOk.blank (pd : ℕ) : TablesOk (.blank pd) where
  pde _ _ := rfl
  placed _ _ h := by cases h

theorem TablesOk.setBt {vm : Vm} (h : TablesOk vm) {k : ℕ} {bt : DmaBlock}
    (hbt : vm.bts k = some bt) (i w : ℕ) : TablesOk (vm.setBt k (bt.set i w)) where
  pde d hd := by
    have hpd : (vm.setBt k (bt.set i w)).pd = vm.pd := rfl
    rw [hpd, h.pde d hd, Vm.setBt_bts]
    by_cases hk : d / 8 = k
    · subst hk
      rw [hbt, Function.update_self]
      rfl
    · rw [Function.update_of_ne hk]
  placed j bt' hj := by
    by_cases hk : j = k
    · subst hk
      obtain rfl : bt.set i w = bt' := by simpa using hj
      exact h.placed j bt hbt
    · exact h.placed j bt' (by simpa [Function.update_of_ne hk] using hj)

/-- The eight directory entries of a new table. -/
theorem writePdes_apply (pd : ℕ → ℕ) (base pts : ℕ) : ∀ (n d : ℕ),
    writePdes pd base pts n d =
      if base ≤ d ∧ d < base + n then
        u32 ((pts + (d - base) * limaPageSize) ||| limaVmFlagPresent)
      else pd d
  | 0, d => by rw [if_neg (by omega)]; rfl
  | n + 1, d => by
      rw [writePdes]
      by_cases hd : d = base + n
      · subst hd
        rw [Function.update_self, if_pos (by omega), Nat.add_sub_cancel_left]
      · rw [Function.update_of_ne hd, writePdes_apply pd base pts n d]
        by_cases hin : base ≤ d ∧ d < base + n
        · rw [if_pos hin, if_pos (by omega)]
        · rw [if_neg hin, if_neg (by omega)]

/-- The check of `lima_vm_map_page` bounds a block that lies in the 64-bit bus
space. -/
theorem fits_of_tableFits {pts : ℕ} (hbus : pts + 32768 ≤ 2 ^ 64)
    (h : tableFits pts) : pts + 32768 ≤ 2 ^ 32 := by
  have h8 : limaPageSize * limaVmNumPtPerBt = 32768 := by decide
  simp only [tableFits, h8, decide_eq_true_eq] at h
  omega

theorem TablesOk.addBt {vm : Vm} (h : TablesOk vm) {k pts : ℕ}
    (hplaced : BtPlaced k pts) : TablesOk (vm.addBt k pts) where
  pde d hd := by
    have h8 : limaVmNumPtPerBt = 8 := by decide
    have hpd : (vm.addBt k pts).pd.cpu d =
        writePdes vm.pd.cpu (k * 8) pts 8 d := by
      simp [Vm.addBt, Vm.setBt, h8, limaVmNumPtPerBtShift, Nat.shiftLeft_eq]
    have hfits := hplaced.fits
    rw [hpd, writePdes_apply, Vm.addBt_bts]
    by_cases hkd : d / 8 = k
    · rw [if_pos (by omega), hkd, Function.update_self]
      simp only [limaPageSize, limaVmFlagPresent]
      rw [show d - k * 8 = d % 8 by omega]
      exact u32_of_lt (Nat.or_lt_two_pow (by omega) (by norm_num))
    · rw [if_neg (by omega), Function.update_of_ne hkd, h.pde d hd]
  placed j bt hj := by
    by_cases hjk : j = k
    · subst hjk
      obtain rfl : (⟨pts, fun _ => 0⟩ : DmaBlock) = bt := by simpa using hj
      exact hplaced
    · exact h.placed j bt (by simpa [Function.update_of_ne hjk] using hj)

/-- What `dma_alloc_coherent` promises of a backing table. -/
def DmaAligned (dmaAlloc : ℕ → Option ℕ) : Prop :=
  ∀ k pts, dmaAlloc k = some pts → 4096 ∣ pts ∧ pts + 32768 ≤ 2 ^ 64

theorem TablesOk.mapPage {dmaAlloc : ℕ → Option ℕ} (hdma : DmaAligned dmaAlloc)
    {vm vm' : Vm} {pa va : ℕ} (h : TablesOk vm) (hva : va < 2 ^ 32)
    (hmap : limaVmMapPage dmaAlloc vm pa va = .ok vm') : TablesOk vm' := by
  obtain ⟨-, vm₁, bt, hbt, rfl, hvm₁⟩ := limaVmMapPage_cases hmap
  have h₁ : TablesOk vm₁ := by
    rcases hvm₁ with rfl | ⟨pts, hnone, halloc, hfits, rfl⟩
    · exact h
    · obtain ⟨hdvd, hbus⟩ := hdma _ _ halloc
      refine h.addBt ⟨?_, hdvd, fits_of_tableFits hbus hfits⟩
      rw [limaPbe_eq]
      omega
  exact h₁.setBt hbt _ _

/-- **Every move of an address space keeps directory and tables in step.** -/
theorem TablesOk.moves {dmaAlloc : ℕ → Option ℕ} (hdma : DmaAligned dmaAlloc)
    {vm vm' : Vm} (h : TablesOk vm) (hm : VmMoves dmaAlloc vm vm') :
    TablesOk vm' := by
  induction hm with
  | refl => exact h
  | tail _ hmove ih =>
      cases hmove with
      | page hva hmap => exact ih.mapPage hdma hva hmap
      | clear bte hbt => exact ih.setBt hbt bte 0
      | nodes mm => exact ⟨ih.pde, ih.placed⟩

theorem TableFrame.moves {dmaAlloc : ℕ → Option ℕ} {vm vm' : Vm}
    (hm : VmMoves dmaAlloc vm vm') : TableFrame dmaAlloc vm vm' := by
  induction hm with
  | refl => exact .refl _ _
  | tail _ hmove ih =>
      refine ih.trans ?_
      cases hmove with
      | page _ hmap => exact (limaVmMapPage_ok hmap).2.2.toTableFrame
      | clear bte hbt => exact (Vm.setBt_frame hbt bte 0 _).toTableFrame
      | nodes mm => exact ⟨rfl, fun _ => .inl rfl⟩

/-! ## Blocks never overlap -/

def blockSpan (blk : DmaBlock × ℕ) : Span := ⟨blk.1.dma, blk.2⟩

/-- The spans of the live blocks, by address space and block. -/
def Sys.block (s : Sys) (key : VmId × Option ℕ) : Option Span :=
  (s.vm key.1).bind fun vm => (vm.dmaBlock key.2).map blockSpan

/-- The blocks the allocator offers to a call: a page directory, and each
backing table it may need. -/
def VmCall.offer (c : VmCall) : Option ℕ → Option Span
  | none =>
      match c with
      | .create _ _ pdAlloc _ => pdAlloc.map fun pd => ⟨pd, limaPageSize⟩
      | _ => none
  | some k => (c.dmaAlloc k).map fun pts =>
      ⟨pts, limaPageSize <<< limaVmNumPtPerBtShift⟩

/-- **What `dma_alloc_coherent` promises**: page-aligned blocks of the bus
space, disjoint from each other and from the live ones. -/
structure DmaPromise (s : Sys) (c : VmCall) : Prop where
  aligned : DmaAligned c.dmaAlloc
  apart : PairwiseApart c.offer
  fresh : ∀ ⦃key i t u⦄, s.block key = some t → c.offer i = some u → t.Apart u

theorem Vm.dmaBlock_span (vm : Vm) (i : Option ℕ) :
    (vm.dmaBlock i).map blockSpan =
      match i with
      | none => some ⟨vm.pd.dma, limaPageSize⟩
      | some k => (vm.btDma k).map fun pts =>
          ⟨pts, limaPageSize <<< limaVmNumPtPerBtShift⟩ := by
  cases i with
  | none => rfl
  | some k =>
      simp only [Vm.dmaBlock, Vm.btDma, Option.map_map]
      rfl

/-- The blocks of one address space move by taking what is offered. -/
theorem TableFrame.block {c : VmCall} {vm vm' : Vm}
    (h : TableFrame c.dmaAlloc vm vm') (i : Option ℕ) :
    (vm'.dmaBlock i).map blockSpan = (vm.dmaBlock i).map blockSpan ∨
      (vm.dmaBlock i).map blockSpan = none ∧
        (vm'.dmaBlock i).map blockSpan = c.offer i := by
  rw [vm.dmaBlock_span, vm'.dmaBlock_span]
  cases i with
  | none => exact .inl (by simp [h.pdDma])
  | some k =>
      rcases h.btDma k with h1 | ⟨h1, h2, -⟩
      · exact .inl (by simp [h1])
      · exact .inr ⟨by simp [h1], by simp [h2, VmCall.offer]⟩

/-- The invariant of the runs. -/
structure BlocksOk (s : Sys) : Prop where
  apart : PairwiseApart s.block
  tables : ∀ v vm, s.vm v = some vm → TablesOk vm
  unused : ∀ v, s.numVms ≤ v → s.vm v = none

/-- The offer to a call, made to address space `v`. -/
def VmCall.offerTo (c : VmCall) (v : VmId) (key : VmId × Option ℕ) : Option Span :=
  if key.1 = v then c.offer key.2 else none

theorem VmCall.offerTo_eq_some {c : VmCall} {v : VmId} {key : VmId × Option ℕ}
    {t : Span} (h : c.offerTo v key = some t) : key.1 = v ∧ c.offer key.2 = some t := by
  unfold VmCall.offerTo at h
  split at h
  · exact ⟨‹_›, h⟩
  · cases h

/-- Blocks of address space `v` come from the offer, all others stay. -/
theorem DmaPromise.apart_step {s s' : Sys} {c : VmCall} {v : VmId}
    (hdma : DmaPromise s c) (hs : PairwiseApart s.block)
    (hv : ∀ i, s'.block (v, i) = s.block (v, i) ∨
      s.block (v, i) = none ∧ s'.block (v, i) = c.offer i)
    (hother : ∀ w ≠ v, s'.vm w = s.vm w) : PairwiseApart s'.block := by
  refine hs.extend (c.offerTo v) ?_ ?_ ?_
  · rintro ⟨w, i⟩
    by_cases hw : w = v
    · subst hw
      simpa [VmCall.offerTo] using hv i
    · exact .inl (by simp only [Sys.block, hother w hw])
  · rintro ⟨w, i⟩ ⟨w', j⟩ t u ht hu hne
    obtain ⟨hw, ht⟩ := VmCall.offerTo_eq_some ht
    obtain ⟨hw', hu⟩ := VmCall.offerTo_eq_some hu
    refine hdma.apart ht hu fun hij => hne ?_
    exact Prod.ext (hw.trans hw'.symm) hij
  · rintro key ⟨w, i⟩ t u ht hu
    exact hdma.fresh ht (VmCall.offerTo_eq_some hu).2

/-- The blocks of a created address space are all offered. -/
theorem limaVmCreateVm_block {cfg : VmConfig} {early kz : Bool} {pd : Option ℕ}
    {dma : ℕ → Option ℕ} {vm : Vm} (hdma : DmaAligned dma)
    (h : limaVmCreateVm (cfg.dev early) kz pd dma = some vm) :
    TablesOk vm ∧ ∀ i, (vm.dmaBlock i).map blockSpan = none ∨
      (vm.dmaBlock i).map blockSpan = (VmCall.create early kz pd dma).offer i := by
  obtain ⟨pdDma, vm₀, rfl, hvm₀, rfl⟩ := limaVmCreateVm_cases h
  have hm : VmMoves dma (.blank pdDma) vm₀ := by
    obtain ⟨-, rfl⟩ | ⟨dlbu, -, hmap⟩ := hvm₀
    · exact .refl
    · exact .single (.page (by decide) hmap)
  have hok := (TablesOk.blank pdDma).moves hdma hm
  have hframe := TableFrame.moves hm
  refine ⟨⟨hok.pde, hok.placed⟩, fun i => ?_⟩
  rw [Vm.dmaBlock_span]
  cases i with
  | none => exact .inr (by simp [VmCall.offer, hframe.pdDma, Vm.blank])
  | some k =>
      change (vm₀.btDma k).map _ = none ∨ (vm₀.btDma k).map _ = _
      rcases hframe.btDma k with h1 | ⟨-, h2, -⟩
      · left
        rw [h1]
        rfl
      · exact .inr (by simp [h2, VmCall.offer, VmCall.dmaAlloc])

/-- **Step lemma.** -/
theorem BlocksOk.step {cfg : VmConfig} {s s' : Sys} {c : VmCall} (hs : BlocksOk s)
    (hdma : DmaPromise s c) (h : c.Returns cfg s s') : BlocksOk s' := by
  obtain ⟨early, kz, pd, dma, vm, rfl, hvm, rfl⟩ |
    ⟨hnum, heq | ⟨v, vm, vm', hvm, heq, hm⟩⟩ := h.shape
  · obtain ⟨htables, hblock⟩ :=
      limaVmCreateVm_block (hdma.aligned : DmaAligned dma) hvm
    have hunused := hs.unused s.numVms le_rfl
    have hother : ∀ w ≠ s.numVms,
        Function.update s.vm s.numVms (some vm) w = s.vm w :=
      fun w hw => Function.update_of_ne hw _ _
    refine ⟨hdma.apart_step hs.apart (fun i => ?_) hother, fun w vm' hw => ?_,
      fun w hw => ?_⟩
    · have hold : s.block (s.numVms, i) = none := by simp [Sys.block, hunused]
      have hnew : Sys.block { s.setVm s.numVms vm with numVms := s.numVms + 1 }
          (s.numVms, i) = (vm.dmaBlock i).map blockSpan := by
        simp [Sys.block]
      rw [hold, hnew]
      exact (hblock i).imp_right fun h => ⟨rfl, h⟩
    · by_cases hwn : w = s.numVms
      · subst hwn
        obtain rfl : vm = vm' := by simpa using hw
        exact htables
      · exact hs.tables w vm' ((hother w hwn).symm.trans hw)
    · have hw' : s.numVms + 1 ≤ w := hw
      exact (hother w (by omega)).trans (hs.unused w (by omega))
  · have hblock : s'.block = s.block := by
      funext key
      simp only [Sys.block, heq]
    exact ⟨hblock ▸ hs.apart, heq ▸ hs.tables, hnum ▸ heq ▸ hs.unused⟩
  · have hother : ∀ w ≠ v, s'.vm w = s.vm w := fun w hw => by
      rw [heq, Function.update_of_ne hw]
    have hself : s'.vm v = some vm' := by rw [heq, Function.update_self]
    refine ⟨hdma.apart_step hs.apart (fun i => ?_) hother, fun w vm₁ hw => ?_,
      fun w hw => ?_⟩
    · simpa [Sys.block, hvm, hself] using (TableFrame.moves hm).block i
    · by_cases hwv : w = v
      · subst hwv
        obtain rfl : vm' = vm₁ := Option.some.inj (hself.symm.trans hw)
        exact (hs.tables w vm hvm).moves hdma.aligned hm
      · exact hs.tables w vm₁ ((hother w hwv).symm.trans hw)
    · rw [hnum] at hw
      have hwv : w ≠ v := by
        rintro rfl
        simp [hs.unused w hw] at hvm
      exact (hother w hwv).trans (hs.unused w hw)

/-- The initial states have no blocks. -/
theorem BlocksOk.init {s : Sys} (h : ∀ v, s.vm v = none) : BlocksOk s where
  apart := by
    have hnone : s.block = fun _ => none := by
      funext key
      simp [Sys.block, h]
    exact hnone ▸ pairwiseApart_none
  tables v vm hv := by simp [h] at hv
  unused v _ := h v

/-! ## The bus reads the block that owns the address -/

theorem Vm.mem_dmaBlocks {vm : Vm} {blk : DmaBlock × ℕ} :
    blk ∈ vm.dmaBlocks ↔
      ∃ i, (∀ k, i = some k → k < 128) ∧ vm.dmaBlock i = some blk := by
  have h128 : limaVmNumBt = 128 := by decide
  simp only [Vm.dmaBlocks, h128, List.mem_filterMap, List.mem_cons, List.mem_map,
    List.mem_range]
  constructor
  · rintro ⟨i, rfl | ⟨k, hk, rfl⟩, hi⟩
    · exact ⟨none, by simp, hi⟩
    · exact ⟨some k, by simpa using hk, hi⟩
  · rintro ⟨i, hlt, hi⟩
    refine ⟨i, ?_, hi⟩
    cases i with
    | none => exact .inl rfl
    | some k => exact .inr ⟨k, hlt k rfl, rfl⟩

theorem Sys.mem_dmaBlocks {s : Sys} {blk : DmaBlock × ℕ} :
    blk ∈ s.dmaBlocks ↔ ∃ v < s.numVms, ∃ vm, s.vm v = some vm ∧
      blk ∈ vm.dmaBlocks := by
  simp only [Sys.dmaBlocks, List.mem_flatMap, List.mem_range]
  constructor
  · rintro ⟨v, hv, hblk⟩
    cases hvm : s.vm v with
    | none => simp [hvm] at hblk
    | some vm => exact ⟨v, hv, vm, hvm, by simpa [hvm] using hblk⟩
  · rintro ⟨v, hv, vm, hvm, hblk⟩
    exact ⟨v, hv, by simpa [hvm] using hblk⟩

/-- **A bus read returns the word of the block its address lies in.** -/
theorem BlocksOk.busRead {s : Sys} (hs : BlocksOk s) {v : VmId} {vm : Vm}
    {blk : DmaBlock × ℕ} (hvm : s.vm v = some vm) (i : Option ℕ) (addr : ℕ)
    (hi : vm.dmaBlock i = some blk) (hlo : blk.1.dma ≤ addr)
    (hhi : addr < blk.1.dma + blk.2) :
    s.busRead addr = some (blk.1.cpu ((addr - blk.1.dma) / 4)) := by
  have hv : v < s.numVms := by
    by_contra hle
    rw [hs.unused v (not_lt.mp hle)] at hvm
    cases hvm
  have hlt : ∀ k, i = some k → k < 128 := by
    rintro k rfl
    obtain ⟨bt, hbt, -⟩ := Option.map_eq_some_iff.mp hi
    exact ((hs.tables v vm hvm).placed k bt hbt).lt
  have hmem : blk ∈ s.dmaBlocks :=
    Sys.mem_dmaBlocks.mpr ⟨v, hv, vm, hvm, Vm.mem_dmaBlocks.mpr ⟨i, hlt, hi⟩⟩
  refine findSome?_eq_some_of_agree hmem (if_pos ⟨hlo, hhi⟩) ?_
  intro blk' hmem' w hw
  obtain ⟨v', -, vm', hvm', hblk'⟩ := Sys.mem_dmaBlocks.mp hmem'
  obtain ⟨j, -, hj⟩ := Vm.mem_dmaBlocks.mp hblk'
  unfold busWord at hw
  split at hw
  · rename_i hin
    -- both blocks own the address, so they are the same block
    have hown : s.block (v, i) = some (blockSpan blk) := by
      simp [Sys.block, hvm, hi]
    have hown' : s.block (v', j) = some (blockSpan blk') := by
      simp [Sys.block, hvm', hj]
    obtain ⟨rfl, rfl⟩ := Prod.mk.inj
      (hs.apart.owner_unique hown hown' ⟨hlo, hhi⟩ hin)
    obtain rfl := Option.some.inj (hvm.symm.trans hvm')
    obtain rfl := Option.some.inj (hi.symm.trans hj)
    exact (Option.some.inj hw).symm
  · cases hw

/-! ## The walk and the probe agree -/

/-- A directory entry, taken apart the way the hardware does. -/
theorem pde_decode (x : ℕ) (hdvd : 4096 ∣ x) (hlt : x < 2 ^ 32) :
    (x ||| 1) &&& limaVmFlagPresent = 1 ∧ (x ||| 1) &&& 0xFFFFF000 = x := by
  obtain ⟨m, rfl⟩ := hdvd
  have hshift : 4096 * m = m <<< 12 := by
    rw [Nat.shiftLeft_eq]
    ring
  constructor
  · rw [limaVmFlagPresent, Nat.and_or_distrib_right, Nat.and_one_is_mod,
      show 4096 * m % 2 = 0 by omega]
    rfl
  · have hmask : (0xFFFFF000 : ℕ) = (2 ^ 20 - 1) <<< 12 := by decide
    have hone : 1 &&& (2 ^ 20 - 1) <<< 12 = 0 := by decide
    rw [hshift, hmask, Nat.and_or_distrib_right, hone, Nat.or_zero,
      ← Nat.shiftLeft_and_distrib, Nat.and_two_pow_sub_one_eq_mod,
      Nat.mod_eq_of_lt (by omega)]

theorem BlocksOk.maliWalk_eq {s : Sys} (hs : BlocksOk s) {v : VmId} {vm : Vm}
    (hvm : s.vm v = some vm) {va : ℕ} (hva : va < 2 ^ 32) :
    maliWalk s vm.pd.dma va = probeResult (limaVmProbePte vm va) ∧
      (vm.pd.cpu (va >>> 22) &&& limaVmFlagPresent = 0 ↔
        (limaVmProbePte vm va).2 = false) := by
  have hd : va >>> 22 = va / 4194304 := Nat.shiftRight_eq_div_pow va 22
  have hpt : (va >>> 12) &&& 0x3ff = va / 4096 % 1024 := by
    rw [Nat.shiftRight_eq_div_pow]
    exact Nat.and_two_pow_sub_one_eq_mod (va / 4096) 10
  have hpage : limaPageSize = 4096 := rfl
  have hbt : va / 4194304 / 8 = va / 4096 / 8192 := by omega
  -- the directory entry, over the bus
  have hdir : s.busRead (vm.pd.dma + 4 * (va / 4194304)) =
      some (vm.pd.cpu (va / 4194304)) := by
    have hread := hs.busRead hvm none (vm.pd.dma + 4 * (va / 4194304)) rfl
      (Nat.le_add_right _ _) (by simp only [hpage]; omega)
    rwa [Nat.add_sub_cancel_left, Nat.mul_div_cancel_left _ (by norm_num)] at hread
  have hpde := (hs.tables v vm hvm).pde (va / 4194304) (by omega)
  rw [hbt] at hpde
  rw [limaVmProbePte_eq vm hva, maliWalk, hd, hdir]
  cases hcase : vm.bts (va / 4096 / 8192) with
  | none =>
      rw [hcase] at hpde
      simp [hpde, probeResult]
  | some bt =>
      rw [hcase] at hpde
      have hplaced := (hs.tables v vm hvm).placed _ bt hcase
      have hdvd := hplaced.dvd
      have hfits := hplaced.fits
      obtain ⟨hpresent, haddr⟩ :=
        pde_decode (bt.dma + va / 4194304 % 8 * 4096) (by omega) (by omega)
      -- the page table's entry, over the bus
      have hblk : vm.dmaBlock (some (va / 4096 / 8192)) = some (bt, 32768) := by
        rw [Vm.dmaBlock, hcase]
        rfl
      have hread := hs.busRead hvm _
        (bt.dma + va / 4194304 % 8 * 4096 + 4 * (va / 4096 % 1024)) hblk
        (by simp only; omega) (by simp only; omega)
      have hword : (bt.dma + va / 4194304 % 8 * 4096 + 4 * (va / 4096 % 1024) -
          bt.dma) / 4 = va / 4096 % 8192 := by omega
      simp only [hword] at hread
      simp [hpde, hpresent, haddr, hpt, hread, probeResult, Vm.entry, entryOf, hcase]

/-- **The walk of the Mali MMU is the probe.** In every state that calls reach,
failing ones included, the walk over the bus yields the entry that
`lima_vm_probe_pte` reports, and the directory entry is absent exactly where
the probe says so. -/
theorem maliWalk_eq_probe (cfg : VmConfig) (boOk : Bo → Prop) {s : Sys}
    (hs : (vmLts cfg boOk DmaPromise).Reachable s) {v : VmId} {vm : Vm}
    (hvm : s.vm v = some vm) {va : ℕ} (hva : va < 2 ^ 32) :
    maliWalk s vm.pd.dma va = probeResult (limaVmProbePte vm va) ∧
      (vm.pd.cpu (va >>> 22) &&& limaVmFlagPresent = 0 ↔
        (limaVmProbePte vm va).2 = false) := by
  have hblocks : BlocksOk s := hs.invariant (fun _ h => .init h.1)
    fun _ _ _ _ hi hstep => hi.step hstep.1 hstep.2
  exact hblocks.maliWalk_eq hvm hva

/-- A Mali-450 with its DLBU page at `0x4F000000`. -/
def dlbuConfig : VmConfig := ⟨.mali450, 0x4F000000, 8⟩

/-- The creation of an address space there, which needs one backing table. -/
def dlbuCreate : VmCall :=
  .create false true (some 0x48000000) fun k => if k = 127 then some 0x50000000 else none

theorem dlbuCreate_promise {s : Sys} (h : ∀ v, s.vm v = none) :
    DmaPromise s dlbuCreate where
  aligned k pts hk := by
    simp only [dlbuCreate, VmCall.dmaAlloc] at hk
    split at hk
    · obtain rfl := Option.some.inj hk
      decide
    · cases hk
  apart := by
    have hoffer : ∀ k t, dlbuCreate.offer (some k) = some t →
        k = 127 ∧ t = ⟨0x50000000, 32768⟩ := by
      intro k t ht
      obtain ⟨pts, hpts, rfl⟩ := Option.map_eq_some_iff.mp ht
      simp only [dlbuCreate, VmCall.dmaAlloc] at hpts
      split at hpts
      · obtain rfl := Option.some.inj hpts
        exact ⟨‹_›, rfl⟩
      · cases hpts
    have hpd : ∀ t, dlbuCreate.offer none = some t → t = ⟨0x48000000, 4096⟩ := by
      rintro t ⟨⟩
      rfl
    rintro (_ | i) (_ | j) t u ht hu hne
    · exact absurd rfl hne
    · obtain rfl := hpd t ht
      obtain ⟨-, rfl⟩ := hoffer j u hu
      decide
    · obtain ⟨-, rfl⟩ := hoffer i t ht
      obtain rfl := hpd u hu
      decide
    · obtain ⟨rfl, -⟩ := hoffer i t ht
      obtain ⟨rfl, -⟩ := hoffer j u hu
      exact absurd rfl hne
  fresh key i t u ht := by simp [Sys.block, h] at ht

/-- The state that creation reaches. -/
def dlbuSys : Sys :=
  (limaVmCreate (dlbuConfig.dev false) true (some 0x48000000)
    (fun k => if k = 127 then some 0x50000000 else none) (.fresh onePageBo)).1

theorem dlbuSys_reachable :
    (vmLts dlbuConfig (fun _ => True) DmaPromise).Reachable dlbuSys := by
  have hinit : (vmLts dlbuConfig (fun _ => True) DmaPromise).Reachable
      (.fresh onePageBo) := Lts.Via.init ⟨fun _ => rfl, rfl, fun _ => trivial⟩
  have hreturns : dlbuCreate.Returns dlbuConfig (.fresh onePageBo) dlbuSys := rfl
  exact hinit.step ⟨dlbuCreate_promise fun _ => rfl, hreturns⟩

/-- The DLBU page, seen by the walk. -/
theorem maliWalk_eq_probe_dlbu : ∃ vm, dlbuSys.vm 0 = some vm ∧
    maliWalk dlbuSys vm.pd.dma limaVaReserveDlbu =
      probeResult (limaVmProbePte vm limaVaReserveDlbu) := by
  have hvm : (dlbuSys.vm 0).isSome := by rfl
  obtain ⟨vm, hvm⟩ := Option.isSome_iff_exists.mp hvm
  exact ⟨vm, hvm,
    (maliWalk_eq_probe dlbuConfig _ dlbuSys_reachable hvm (by decide)).1⟩

end Lima
