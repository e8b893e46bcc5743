import Lima.Vm.IsolationRuns
import Lima.Vm.Walk

/-!
# Addresses in the 32-bit MMU

The Mali MMU takes a 32-bit address in three places: the page directory in
`LIMA_MMU_DTE_ADDR`, the page tables in the directory's entries, the pages in the
tables' entries. `lima_vm_map_page` refuses an address that does not fit the last
two. `lima_vm_create` accepts a page directory anywhere, and `lima_mmu.c` writes
its address to the register as a `u32`.
-/

namespace Lima

/-- The address the MMU takes from a word: its upper twenty bits. -/
def maliAddr (w : ℕ) : ℕ := w &&& 0xFFFFF000

/-! ## The register -/

/-- An MMU block. `shows` follows whose page directory was the last written to the
register, if that was the last write. -/
structure Mmu where
  bcast : Bool
  dteAddr : ℕ
  shows : Option VmId

/-- `mmu_write` of a test pattern. -/
def Mmu.writeDte (m : Mmu) (data : ℕ) : Mmu :=
  { m with
    dteAddr := u32 data
    shows := none }

/-- `mmu_write(LIMA_MMU_DTE_ADDR, vm->pd.dma)`. -/
def Mmu.writeDir (m : Mmu) (v : VmId) (vm : Vm) : Mmu :=
  { m with
    dteAddr := u32 vm.pd.dma
    shows := some v }

/-- The hard reset, after which the register is read as `left`. -/
def Mmu.hardReset (m : Mmu) (left : ℕ) : Mmu :=
  { m with
    dteAddr := left
    shows := none }

/-- What the hardware answers: the test pattern read back, the interrupt line
requested, the register when the poll for the reset ends, paging enabled in time,
a fault found active. -/
structure MmuEnv where
  readBack : ℕ
  irq : Option Errno
  left : ℕ
  paging : Bool
  faultActive : Bool

/-! ## Functions -/

/-- `lima_mmu_hw_init`, with `v` the empty address space. -/
def limaMmuHwInit (env : MmuEnv) (v : VmId) (vm : Vm) (m : Mmu) : Mmu × Option Errno :=
  let m := m.hardReset env.left
  if env.left ≠ 0 then (m, some .etimedout)
  else (m.writeDir v vm, if env.paging then none else some .etimedout)

/-- `lima_mmu_resume`. -/
def limaMmuResume (env : MmuEnv) (v : VmId) (vm : Vm) (m : Mmu) : Mmu × Option Errno :=
  if m.bcast then (m, none) else limaMmuHwInit env v vm m

/-- `lima_mmu_init`. -/
def limaMmuInit (env : MmuEnv) (v : VmId) (vm : Vm) (m : Mmu) : Mmu × Option Errno :=
  if m.bcast then (m, none)
  else
    let m := m.writeDte 0xCAFEBABE
    if env.readBack ≠ 0xCAFEB000 then (m, some .eio)
    else
      match env.irq with
      | some e => (m, some e)
      | none => limaMmuHwInit env v vm m

/-- `lima_mmu_switch_vm`; a stall that times out is only logged. -/
def limaMmuSwitchVm (v : VmId) (vm : Vm) (m : Mmu) : Mmu := m.writeDir v vm

/-- `lima_mmu_page_fault_resume`; a reset that times out is only logged. -/
def limaMmuPageFaultResume (env : MmuEnv) (v : VmId) (vm : Vm) (m : Mmu) : Mmu :=
  if env.faultActive then ((m.writeDte 0xCAFEBABE).hardReset env.left).writeDir v vm
  else m

/-! ## The transition system -/

/-- The address spaces of a device, its MMUs, and `dev->empty_vm`. -/
structure MmuSys where
  sys : Sys
  emptyVm : Option VmId
  mmu : ℕ → Mmu

def MmuSys.setMmu (m : MmuSys) (i : ℕ) (x : Mmu) : MmuSys :=
  { m with mmu := Function.update m.mmu i x }

inductive MmuCall where
  | vm (c : VmCall)
  /-- `ldev->empty_vm = lima_vm_create(ldev)`, in `lima_device_init`. -/
  | emptyVm (kzallocOk : Bool) (pdAlloc : Option ℕ) (dmaAlloc : ℕ → Option ℕ)
  | init (i : ℕ) (env : MmuEnv)
  | resume (i : ℕ) (env : MmuEnv)
  | switchVm (i : ℕ) (v : VmId)
  | pageFaultResume (i : ℕ) (env : MmuEnv)

/-- The call on the address spaces that `c` makes. -/
def MmuCall.vmCall : MmuCall → Option VmCall
  | .vm c => some c
  | .emptyVm kzallocOk pdAlloc dmaAlloc => some (.create true kzallocOk pdAlloc dmaAlloc)
  | _ => none

/-- The empty address space, which `lima_mmu.c` dereferences. -/
def MmuSys.Empty (m : MmuSys) (v : VmId) (vm : Vm) : Prop :=
  m.emptyVm = some v ∧ m.sys.vm v = some vm

/-- The call returns, in state `m'`. -/
def MmuCall.Returns (cfg : VmConfig) (m m' : MmuSys) : MmuCall → Prop
  | .vm c => ∃ s', c.Returns cfg m.sys s' ∧ m' = { m with sys := s' }
  | .emptyVm kzallocOk pdAlloc dmaAlloc =>
      let r := limaVmCreate (cfg.dev true) kzallocOk pdAlloc dmaAlloc m.sys
      m.emptyVm = none ∧ m' = { m with sys := r.1, emptyVm := r.2 }
  | .init i env => ∃ v vm, m.Empty v vm ∧
      m' = m.setMmu i (limaMmuInit env v vm (m.mmu i)).1
  | .resume i env => ∃ v vm, m.Empty v vm ∧
      m' = m.setMmu i (limaMmuResume env v vm (m.mmu i)).1
  | .switchVm i v => ∃ vm, m.sys.vm v = some vm ∧
      m' = m.setMmu i (limaMmuSwitchVm v vm (m.mmu i))
  | .pageFaultResume i env => ∃ v vm, m.Empty v vm ∧
      m' = m.setMmu i (limaMmuPageFaultResume env v vm (m.mmu i))

/-- What a run may assume of `drm_mm` and of `dma_alloc_coherent`. -/
def MmuPromise (m : MmuSys) (a : MmuCall) : Prop :=
  ∀ c, a.vmCall = some c → MmPromise m.sys c ∧ DmaAligned c.dmaAlloc

/-- Runs from a device without address spaces, its MMUs never written. -/
def mmuLts (cfg : VmConfig) : Lts MmuSys MmuCall where
  init m := (∀ v, m.sys.vm v = none) ∧ (∀ b, (m.sys.bo b).Fresh) ∧ m.emptyVm = none ∧
    ∀ i, (m.mmu i).shows = none
  step m a m' := MmuPromise m a ∧ a.Returns cfg m m'

/-! ## What is promised -/

/-- The page at `pa` is the one that page number `p` of address space `v` stands
for. -/
def Sys.PageAt (cfg : VmConfig) (s : Sys) (v : VmId) (p pa : ℕ) : Prop :=
  (cfg.gpu = .mali450 ∧ p = limaVaReserveDlbu / 4096 ∧ pa = cfg.dlbuDma) ∨
    ∃ b node, s.node v b = some node ∧ node.start ≤ 4096 * p ∧
      4096 * p < node.start + (s.bo b).mappable ∧
      pa = (s.bo b).pageDma (p - node.start / 4096)

/-- **Every address in the MMU is whole**: directories, page tables, pages. -/
structure AddrsExact (cfg : VmConfig) (m : MmuSys) : Prop where
  dte : ∀ i v, (m.mmu i).shows = some v →
    ∃ vm, m.sys.vm v = some vm ∧ (m.mmu i).dteAddr = vm.pd.dma
  pde : ∀ v vm k bt j, m.sys.vm v = some vm → vm.bts k = some bt → j < limaVmNumPtPerBt →
    maliAddr (vm.pd.cpu ((k <<< limaVmNumPtPerBtShift) + j)) = bt.dma + j * limaPageSize
  leaf : ∀ v vm p, m.sys.vm v = some vm → vm.entry p ≠ 0 →
    ∃ pa, m.sys.PageAt cfg v p pa ∧ (4096 ∣ pa → maliAddr (vm.entry p) = pa)
  native : ∀ v vm b node pas i, m.sys.vm v = some vm → m.sys.node v b = some node →
    (m.sys.bo b).isHeap = false → (m.sys.bo b).sgt = some pas → i < pas.length →
    4096 ∣ (m.sys.bo b).pageDma i →
    maliAddr (vm.entry (node.start / 4096 + i)) = (m.sys.bo b).pageDma i

/-- The address space whose directory the call writes to a register. -/
def MmuCall.installs (m : MmuSys) : MmuCall → Option VmId
  | .vm _ | .emptyVm _ _ _ => none
  | .init i env =>
      if (m.mmu i).bcast ∨ env.readBack ≠ 0xCAFEB000 ∨ env.irq.isSome ∨ env.left ≠ 0 then
        none
      else m.emptyVm
  | .resume i env => if (m.mmu i).bcast ∨ env.left ≠ 0 then none else m.emptyVm
  | .switchVm _ v => some v
  | .pageFaultResume _ env => if env.faultActive then m.emptyVm else none

/-- The page directory the call writes to a register lies below 4 GiB. -/
def DirLow (m : MmuSys) (a : MmuCall) : Prop :=
  ∀ v vm, a.installs m = some v → m.sys.vm v = some vm → vm.pd.dma < 2 ^ 32

/-! ## Decoding an entry -/

/-- An aligned address and flags below the page size come apart again. -/
theorem maliAddr_or {x f : ℕ} (hdvd : 4096 ∣ x) (hlt : x < 2 ^ 32) (hf : f < 4096) :
    maliAddr (x ||| f) = x := by
  obtain ⟨m, rfl⟩ := hdvd
  have hx : 4096 * m = m <<< 12 := by
    rw [Nat.shiftLeft_eq, Nat.mul_comm]
  have hmask : (0xFFFFF000 : ℕ) = (2 ^ 20 - 1) <<< 12 := by decide
  have hflags : f &&& (2 ^ 20 - 1) <<< 12 = 0 := by
    apply Nat.eq_of_testBit_eq
    intro i
    rw [Nat.testBit_and, Nat.testBit_shiftLeft, Nat.zero_testBit]
    by_cases hi : 12 ≤ i
    · have hpow : 2 ^ 12 ≤ 2 ^ i := Nat.pow_le_pow_right (by decide) hi
      rw [Nat.testBit_lt_two_pow (by omega), Bool.false_and]
    · simp [hi]
  rw [maliAddr, hx, hmask, Nat.and_or_distrib_right, hflags, Nat.or_zero,
    ← Nat.shiftLeft_and_distrib, Nat.and_two_pow_sub_one_eq_mod, Nat.mod_eq_of_lt (by omega)]

/-- An entry that holds an address and fits a word decodes to the address. -/
theorem maliAddr_leaf {pa : ℕ} (hdvd : 4096 ∣ pa) (hlt : pa ||| limaVmFlagsCache < 2 ^ 32) :
    maliAddr (pa ||| limaVmFlagsCache) = pa :=
  maliAddr_or hdvd (lt_of_le_of_lt Nat.left_le_or hlt) (by decide)

/-! ## One address space -/

/-- Every entry of a backing table is a 32-bit word. -/
def Vm.Words (vm : Vm) : Prop :=
  ∀ k bt, vm.bts k = some bt → ∀ i, bt.cpu i < 2 ^ 32

/-- Besides, directory and tables agree. -/
structure Vm.Exact (vm : Vm) : Prop where
  tables : TablesOk vm
  word : vm.Words

theorem Vm.Exact.blank (pd : ℕ) : Vm.Exact (.blank pd) where
  tables := .blank pd
  word _ _ h := by cases h

theorem Vm.Words.setBt {vm : Vm} (h : vm.Words) {k : ℕ} {bt : DmaBlock}
    (hbt : ∀ i, bt.cpu i < 2 ^ 32) : (vm.setBt k bt).Words := by
  intro j bt' hj
  by_cases hjk : j = k
  · subst hjk
    obtain rfl : bt = bt' := by simpa using hj
    exact hbt
  · rw [Vm.setBt_bts, Function.update_of_ne hjk] at hj
    exact h j bt' hj

/-- Storing a word into a table of words. -/
theorem Vm.Words.store {vm : Vm} (h : vm.Words) {k : ℕ} {bt : DmaBlock}
    (hbt : vm.bts k = some bt) (i : ℕ) {w : ℕ} (hw : w < 2 ^ 32) :
    (vm.setBt k (bt.set i w)).Words := by
  refine h.setBt fun q => ?_
  show Function.update bt.cpu i w q < 2 ^ 32
  by_cases hq : q = i
  · rw [hq, Function.update_self]
    exact hw
  · rw [Function.update_of_ne hq]
    exact h k bt hbt q

/-- A fresh table is zeroed. -/
theorem Vm.Words.addBt {vm : Vm} (h : vm.Words) (k pts : ℕ) : (vm.addBt k pts).Words := by
  have hpd : ∀ pd, Vm.Words { vm with pd := pd } := fun _ => h
  exact (hpd _).setBt fun _ => Nat.two_pow_pos 32

/-- **Every move of an address space keeps its entries exact.** -/
theorem Vm.Exact.moves {dmaAlloc : ℕ → Option ℕ} (hdma : DmaAligned dmaAlloc) {vm vm' : Vm}
    (h : vm.Exact) (hm : VmMoves dmaAlloc vm vm') : vm'.Exact := by
  refine ⟨h.tables.moves hdma hm, ?_⟩
  induction hm with
  | refl => exact h.word
  | tail _ hmove ih =>
      cases hmove with
      | page hva hmap =>
          obtain ⟨-, vm₁, bt, hbt, rfl, hvm₁⟩ := limaVmMapPage_cases hmap
          have h₁ : vm₁.Words := by
            rcases hvm₁ with rfl | ⟨pts, -, -, -, rfl⟩
            · exact ih
            · exact ih.addBt _ pts
          exact h₁.store hbt _ (Nat.mod_lt _ (by decide))
      | clear bte hbt => exact ih.store hbt bte (by decide)
      | nodes mm => exact ih

theorem Vm.Exact.entry_lt {vm : Vm} (h : vm.Exact) (p : ℕ) : vm.entry p < 2 ^ 32 := by
  unfold Vm.entry entryOf
  split
  · decide
  · rename_i bt hbt
    exact h.word _ bt hbt _

/-- A created address space is exact. -/
theorem limaVmCreateVm_exact {dev : LimaDevice} {kz : Bool} {pd : Option ℕ}
    {dma : ℕ → Option ℕ} {vm : Vm} (hdma : DmaAligned dma)
    (h : limaVmCreateVm dev kz pd dma = some vm) : vm.Exact := by
  obtain ⟨pdDma, vm₀, -, hvm₀, rfl⟩ := limaVmCreateVm_cases h
  have hok : vm₀.Exact := by
    obtain ⟨-, rfl⟩ | ⟨dlbu, -, hmap⟩ := hvm₀
    · exact .blank pdDma
    · exact (Vm.Exact.blank pdDma).moves hdma (.single (.page (by decide) hmap))
  exact ⟨⟨hok.tables.pde, hok.tables.placed⟩, hok.word⟩

/-! ## All of them -/

/-- The address spaces are isolated and exact, and a register that shows a directory
holds its whole address. -/
structure MmuSys.Ok (cfg : VmConfig) (m : MmuSys) : Prop where
  isolated : Isolated cfg m.sys
  exact : ∀ v vm, m.sys.vm v = some vm → vm.Exact
  shows : ∀ i v, (m.mmu i).shows = some v →
    ∃ vm, m.sys.vm v = some vm ∧ (m.mmu i).dteAddr = vm.pd.dma

/-- A completed call keeps the address spaces exact and the directories in place. -/
theorem VmCall.Returns.exact {cfg : VmConfig} {s s' : Sys} {c : VmCall}
    (hs : ∀ v vm, s.vm v = some vm → vm.Exact) (hfree : s.vm s.numVms = none)
    (hdma : DmaAligned c.dmaAlloc) (h : c.Returns cfg s s') :
    (∀ v vm, s'.vm v = some vm → vm.Exact) ∧
      ∀ v vm, s.vm v = some vm → ∃ vm', s'.vm v = some vm' ∧ vm'.pd.dma = vm.pd.dma := by
  obtain ⟨early, kz, pd, dma, vm, rfl, hvm, rfl⟩ |
    ⟨-, heq | ⟨v, vm, vm', hvm, heq, hm⟩⟩ := h.shape
  · refine ⟨fun w vm' hw => ?_, fun w vm' hw => ⟨vm', ?_, rfl⟩⟩
    · by_cases hwn : w = s.numVms
      · subst hwn
        obtain rfl : vm = vm' := by simpa using hw
        exact limaVmCreateVm_exact hdma hvm
      · exact hs w vm' (by simpa [Function.update_of_ne hwn] using hw)
    · have hwn : w ≠ s.numVms := by
        rintro rfl
        rw [hfree] at hw
        cases hw
      simpa [Function.update_of_ne hwn] using hw
  · rw [heq]
    exact ⟨hs, fun v vm hv => ⟨vm, hv, rfl⟩⟩
  · rw [heq]
    refine ⟨fun w vm₁ hw => ?_, fun w vm₁ hw => ?_⟩
    · by_cases hwv : w = v
      · subst hwv
        obtain rfl : vm' = vm₁ := by simpa using hw
        exact (hs w vm hvm).moves hdma hm
      · rw [Function.update_of_ne hwv] at hw
        exact hs w vm₁ hw
    · by_cases hwv : w = v
      · subst hwv
        obtain rfl := Option.some.inj (hvm.symm.trans hw)
        exact ⟨vm', Function.update_self .., (TableFrame.moves hm).pdDma⟩
      · exact ⟨vm₁, by rwa [Function.update_of_ne hwv], rfl⟩

theorem MmuSys.Ok.vmCall {cfg : VmConfig} {m : MmuSys} {s' : Sys} {c : VmCall}
    (h : m.Ok cfg) (hmm : MmPromise m.sys c) (hdma : DmaAligned c.dmaAlloc)
    (hret : c.Returns cfg m.sys s') (e : Option VmId) :
    MmuSys.Ok cfg { m with sys := s', emptyVm := e } := by
  obtain ⟨hexact, hkeep⟩ := hret.exact h.exact (h.isolated.space.unused _ le_rfl) hdma
  refine ⟨h.isolated.step hmm hret, hexact, fun i v hi => ?_⟩
  obtain ⟨vm, hvm, hdte⟩ := h.shows i v hi
  obtain ⟨vm', hvm', hpd⟩ := hkeep v vm hvm
  exact ⟨vm', hvm', hdte.trans hpd.symm⟩

/-! ## The registers -/

/-- What a call does to an MMU on which `v` is installed if `w` says so. -/
def Mmu.Writes (m m' : Mmu) (v : VmId) (vm : Vm) (w : Prop) : Prop :=
  m' = m ∨ m'.shows = none ∨ w ∧ m'.shows = some v ∧ m'.dteAddr = u32 vm.pd.dma

section Registers

variable {env : MmuEnv} {v : VmId} {vm : Vm} {m : Mmu}

theorem limaMmuHwInit_writes : m.Writes (limaMmuHwInit env v vm m).1 v vm (env.left = 0) := by
  unfold limaMmuHwInit
  by_cases hleft : env.left = 0
  · simp [hleft, Mmu.Writes, Mmu.writeDir]
  · simp [hleft, Mmu.Writes, Mmu.hardReset]

theorem limaMmuResume_writes : m.Writes (limaMmuResume env v vm m).1 v vm
    (¬ (m.bcast ∨ env.left ≠ 0)) := by
  unfold limaMmuResume
  split
  · exact .inl rfl
  · rename_i hb
    have hinit : m.Writes (limaMmuHwInit env v vm m).1 v vm (env.left = 0) :=
      limaMmuHwInit_writes
    refine hinit.imp_right (Or.imp_right fun h => ⟨?_, h.2⟩)
    simp [hb, h.1]

theorem limaMmuInit_writes : m.Writes (limaMmuInit env v vm m).1 v vm
    (¬ (m.bcast ∨ env.readBack ≠ 0xCAFEB000 ∨ env.irq.isSome ∨ env.left ≠ 0)) := by
  unfold limaMmuInit
  split
  · exact .inl rfl
  · rename_i hb
    split
    · exact .inr (.inl rfl)
    · rename_i hread
      split
      · exact .inr (.inl rfl)
      · rename_i hirq
        right
        have hinit : (m.writeDte 0xCAFEBABE).Writes
            (limaMmuHwInit env v vm (m.writeDte 0xCAFEBABE)).1 v vm (env.left = 0) :=
          limaMmuHwInit_writes
        rcases hinit with h | h | ⟨hleft, h⟩
        · left
          rw [h]
          rfl
        · exact .inl h
        · exact .inr ⟨by simp [hb, hirq, hleft, not_not.mp hread], h⟩

theorem limaMmuPageFaultResume_writes :
    m.Writes (limaMmuPageFaultResume env v vm m) v vm env.faultActive := by
  unfold limaMmuPageFaultResume
  split
  · exact .inr (.inr ⟨‹_›, rfl, rfl⟩)
  · exact .inl rfl

end Registers

/-- A call on one MMU keeps the others, and is exact if the directory is low. -/
theorem MmuSys.Ok.writes {cfg : VmConfig} {m : MmuSys} (h : m.Ok cfg) {i : ℕ} {x : Mmu}
    {v : VmId} {vm : Vm} {w : Prop} (hvm : m.sys.vm v = some vm)
    (hx : (m.mmu i).Writes x v vm w) (hlow : w → vm.pd.dma < 2 ^ 32) :
    (m.setMmu i x).Ok cfg := by
  refine ⟨h.isolated, h.exact, fun j u hj => ?_⟩
  by_cases hji : j = i
  · subst hji
    have hmmu : (m.setMmu j x).mmu j = x := Function.update_self ..
    rw [hmmu] at hj ⊢
    rcases hx with rfl | hnone | ⟨hw, hshows, hdte⟩
    · exact h.shows j u hj
    · rw [hnone] at hj
      cases hj
    · obtain rfl := Option.some.inj (hshows.symm.trans hj)
      exact ⟨vm, hvm, hdte.trans (u32_of_lt (hlow hw))⟩
  · have hmmu : (m.setMmu i x).mmu j = m.mmu j := Function.update_of_ne hji ..
    rw [hmmu] at hj ⊢
    exact h.shows j u hj

/-- **Step lemma.** -/
theorem MmuSys.Ok.step {cfg : VmConfig} {m m' : MmuSys} {a : MmuCall} (h : m.Ok cfg)
    (hlow : DirLow m a) (hp : MmuPromise m a) (hret : a.Returns cfg m m') : m'.Ok cfg := by
  cases a with
  | vm c =>
      obtain ⟨s', hret, rfl⟩ := hret
      obtain ⟨hmm, hdma⟩ := hp c rfl
      exact h.vmCall hmm hdma hret m.emptyVm
  | emptyVm kz pd dma =>
      obtain ⟨-, rfl⟩ := hret
      obtain ⟨hmm, hdma⟩ := hp _ rfl
      exact h.vmCall hmm hdma rfl _
  | init i env =>
      obtain ⟨v, vm, ⟨hv, hvm⟩, rfl⟩ := hret
      exact h.writes hvm limaMmuInit_writes fun hw =>
        hlow v vm ((if_neg hw).trans hv) hvm
  | resume i env =>
      obtain ⟨v, vm, ⟨hv, hvm⟩, rfl⟩ := hret
      exact h.writes hvm limaMmuResume_writes fun hw =>
        hlow v vm ((if_neg hw).trans hv) hvm
  | switchVm i v =>
      obtain ⟨vm, hvm, rfl⟩ := hret
      exact h.writes hvm (.inr (.inr ⟨trivial, rfl, rfl⟩)) fun _ => hlow v vm rfl hvm
  | pageFaultResume i env =>
      obtain ⟨v, vm, ⟨hv, hvm⟩, rfl⟩ := hret
      exact h.writes hvm limaMmuPageFaultResume_writes fun hw =>
        hlow v vm ((if_pos hw).trans hv) hvm

/-- **Run lemma.** -/
theorem MmuSys.Ok.of_via {cfg : VmConfig} {m : MmuSys} (hm : (mmuLts cfg).Via DirLow m) :
    m.Ok cfg :=
  hm.invariant
    (fun m h => ⟨.init h.1 h.2.1, fun v vm hv => by simp [h.1] at hv,
      fun i v hi => by simp [h.2.2.2] at hi⟩)
    fun _ _ _ _ hi hlow h => hi.step hlow h.1 h.2

/-! ## The guarantee -/

/-! ## A directory at 4 GiB -/

/-- A device with no address space yet. -/
def blankMmuSys : MmuSys := ⟨.fresh onePageBo, none, fun _ => ⟨false, 0, none⟩⟩

/-- The empty address space has been created with its directory at `pd`. -/
def emptyVmSys (pd : ℕ) : MmuSys :=
  let r := limaVmCreate (mali400Config.dev true) true (some pd) (fun _ => none) (.fresh onePageBo)
  { blankMmuSys with sys := r.1, emptyVm := r.2 }

/-- Hardware that passes the test and the reset. -/
def goodMmu : MmuEnv := ⟨0xCAFEB000, none, 0, true, false⟩

/-- MMU 0 has been initialised. -/
def mmuInitSys (pd : ℕ) : MmuSys :=
  (emptyVmSys pd).setMmu 0 (limaMmuInit goodMmu 0 (.blank pd) ⟨false, 0, none⟩).1

theorem mmuInitSys_via (ok : MmuSys → MmuCall → Prop) (pd : ℕ)
    (hcreate : ok blankMmuSys (.emptyVm true (some pd) fun _ => none))
    (hinit : ok (emptyVmSys pd) (.init 0 goodMmu)) :
    (mmuLts mali400Config).Via ok (mmuInitSys pd) := by
  have hfresh : onePageBo.Fresh :=
    ⟨by decide, rfl, fun pas h => ⟨rfl, 4096, le_rfl, (Option.some.inj h).symm⟩, rfl⟩
  have h0 : (mmuLts mali400Config).Via ok blankMmuSys :=
    .init ⟨fun _ => rfl, fun _ => hfresh, rfl, fun _ => rfl⟩
  have h1 : (mmuLts mali400Config).Via ok (emptyVmSys pd) := by
    refine h0.step hcreate ⟨fun c hc => ?_, rfl, rfl⟩
    obtain rfl := Option.some.inj hc
    exact ⟨trivial, fun k pts h => by cases h⟩
  refine h1.step hinit ⟨fun c hc => ?_, 0, .blank pd, ⟨rfl, rfl⟩, rfl⟩
  cases hc

end Lima
