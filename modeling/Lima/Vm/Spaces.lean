import Lima.Vm.IsolationRuns
import Lima.Vm.Walk

/-!
# Address spaces that come and go

Calls, references and releases, in the order a step of the driver makes them. A reference
changes nothing that the GPU sees; a release takes away an address space in which nothing is
mapped. So isolation and the agreement of the tables with the walk are kept by all of them.
-/

namespace Lima

open Spans

/-! ## One put and one get -/

section Refs

variable {cfg : VmConfig} {s s' : Sys} {v : VmId}

theorem limaVmGet_cases (h : limaVmGet s v = .ok s') : ∃ vm, s.vm v = some vm ∧
    s' = s.setVm v { vm with refcount := vm.refcount + 1 } := by
  unfold limaVmGet at h
  cases hvm : s.vm v with
  | none =>
      rw [hvm] at h
      cases h
  | some vm =>
      rw [hvm] at h
      exact ⟨vm, rfl, (Outcome.ok.inj h).symm⟩

/-- A put drops a reference, releases the address space, or is one of `NULL`. -/
theorem limaVmPut_cases {a : Option VmId} (h : limaVmPut s a = .ok s') :
    a = none ∧ s' = s ∨ ∃ v vm, a = some v ∧ s.vm v = some vm ∧
      (vm.refcount = 1 ∧ s' = { s with vm := Function.update s.vm v none } ∨
        s' = s.setVm v { vm with refcount := vm.refcount - 1 }) := by
  unfold limaVmPut at h
  cases a with
  | none => exact .inl ⟨rfl, (Outcome.ok.inj h).symm⟩
  | some v =>
      refine .inr ?_
      cases hvm : s.vm v with
      | none =>
          simp only [hvm] at h
          cases h
      | some vm =>
          simp only [hvm] at h
          refine ⟨v, vm, rfl, hvm, ?_⟩
          split at h
          · rename_i hone
            exact .inl ⟨hone, (Outcome.ok.inj h).symm⟩
          · exact .inr (Outcome.ok.inj h).symm

theorem Isolated.setRefcount (h : Isolated cfg s) {vm : Vm} (hvm : s.vm v = some vm) (n : ℕ) :
    Isolated cfg (s.setVm v { vm with refcount := n }) :=
  ⟨h.space.setVm hvm rfl rfl rfl, h.owned.setVm hvm fun _ => .inl rfl,
    h.native.setVm h.space hvm fun _ _ _ _ _ _ => rfl⟩

/-- An address space in which nothing is mapped may go. -/
theorem Isolated.release (h : Isolated cfg s) (hno : ∀ b, s.node v b = none) :
    Isolated cfg { s with vm := Function.update s.vm v none } := by
  have hold : ∀ w vm, Function.update s.vm v none w = some vm → s.vm w = some vm := by
    intro w vm hw
    by_cases hwv : w = v
    · subst hwv
      rw [Function.update_self] at hw
      cases hw
    · rwa [Function.update_of_ne hwv] at hw
  refine ⟨⟨h.space.bo, fun w vm hw => h.space.layout w vm (hold w vm hw), fun w hw => ?_,
    fun w b node hn => ?_, h.space.apart⟩, fun w vm p hw hp => h.owned w vm p (hold w vm hw) hp,
    fun w vm b node pas i hw hn => h.native w vm b node pas i (hold w vm hw) hn⟩
  · by_cases hwv : w = v
    · subst hwv
      exact Function.update_self ..
    · simpa [hwv] using h.space.unused w hw
  · have hwv : w ≠ v := by
      rintro rfl
      have hnone := (hno b).symm.trans hn
      cases hnone
    obtain ⟨vm, hvm, hrest⟩ := h.space.live w b node hn
    exact ⟨vm, by simpa [hwv] using hvm, hrest⟩

theorem BlocksOk.setRefcount (h : BlocksOk s) {vm : Vm} (hvm : s.vm v = some vm) (n : ℕ) :
    BlocksOk (s.setVm v { vm with refcount := n }) := by
  have hcases : ∀ w vm', (s.setVm v { vm with refcount := n }).vm w = some vm' →
      ∃ vm₁ k, s.vm w = some vm₁ ∧ vm' = { vm₁ with refcount := k } := by
    intro w vm' hw
    rw [Sys.setVm_vm] at hw
    by_cases hwv : w = v
    · subst hwv
      rw [Function.update_self] at hw
      exact ⟨vm, n, hvm, (Option.some.inj hw).symm⟩
    · rw [Function.update_of_ne hwv] at hw
      exact ⟨vm', vm'.refcount, hw, rfl⟩
  refine ⟨h.apart.shrink fun key => .inl ?_, fun w vm' hw => ?_, fun w hw => ?_⟩
  · by_cases hkey : key.1 = v
    · simp only [Sys.block, hkey, hvm, Sys.setVm_vm, Function.update_self]
      cases key.2 <;> rfl
    · simp only [Sys.block, Sys.setVm_vm, Function.update_of_ne hkey]
  · obtain ⟨vm₁, k, hold, rfl⟩ := hcases w vm' hw
    exact ⟨(h.tables w vm₁ hold).pde, (h.tables w vm₁ hold).placed⟩
  · have hwv : w ≠ v := by
      rintro rfl
      rw [h.unused w hw] at hvm
      cases hvm
    rw [Sys.setVm_vm, Function.update_of_ne hwv]
    exact h.unused w hw

theorem BlocksOk.release (h : BlocksOk s) (v : VmId) :
    BlocksOk { s with vm := Function.update s.vm v none } := by
  refine ⟨h.apart.shrink fun key => ?_, fun w vm hw => ?_, fun w hw => ?_⟩
  · by_cases hkey : key.1 = v
    · exact .inr (by simp [Sys.block, hkey])
    · exact .inl (by simp [Sys.block, hkey])
  · by_cases hwv : w = v
    · subst hwv
      simp at hw
    · exact h.tables w vm (by simpa [hwv] using hw)
  · by_cases hwv : w = v
    · subst hwv
      exact Function.update_self ..
    · simpa [hwv] using h.unused w hw

end Refs

/-! ## What the GPU may rely on -/

/-- The address spaces are isolated, and the walk of the MMU finds their tables. -/
structure SpacesOk (cfg : VmConfig) (s : Sys) : Prop where
  isolated : Isolated cfg s
  blocks : BlocksOk s

/-- **What a call may assume** of `drm_mm`, its caller and `dma_alloc_coherent`. -/
def VmPromise (s : Sys) (c : VmCall) : Prop := MmPromise s c ∧ DmaPromise s c

namespace SpacesOk

variable {cfg : VmConfig} {s s' : Sys} {v : VmId}

theorem call (h : SpacesOk cfg s) {c : VmCall} (hp : VmPromise s c) (hret : c.Returns cfg s s') :
    SpacesOk cfg s' :=
  ⟨h.isolated.step hp.1 hret, h.blocks.step hp.2 hret⟩

theorem of_reachable (h : (vmLts cfg Bo.Fresh VmPromise).Reachable s) : SpacesOk cfg s :=
  h.invariant (fun _ h0 => ⟨.init h0.1 h0.2.2, .init h0.1⟩) fun _ _ _ _ hi hs => hi.call hs.1 hs.2

theorem get (h : SpacesOk cfg s) (hget : limaVmGet s v = .ok s') : SpacesOk cfg s' := by
  obtain ⟨vm, hvm, rfl⟩ := limaVmGet_cases hget
  exact ⟨h.isolated.setRefcount hvm _, h.blocks.setRefcount hvm _⟩

/-- A put that releases an address space finds nothing mapped in it. -/
theorem put (h : SpacesOk cfg s) {a : Option VmId} (hput : limaVmPut s a = .ok s')
    (hno : ∀ v, s'.vm v = none → ∀ b, s.node v b = none) : SpacesOk cfg s' := by
  obtain ⟨-, rfl⟩ | ⟨v, vm, rfl, hvm, ⟨-, rfl⟩ | rfl⟩ := limaVmPut_cases hput
  · exact h
  · exact ⟨h.isolated.release (hno v (Function.update_self ..)), h.blocks.release v⟩
  · exact ⟨h.isolated.setRefcount hvm _, h.blocks.setRefcount hvm _⟩

/-- **What the MMU translates.** A walk from the directory of `v` ends at an absent entry, at
the DLBU page, or at a page of the one object whose node in `v` contains the address. -/
theorem walk (h : SpacesOk cfg s) {vm : Vm} (hvm : s.vm v = some vm) {va : ℕ} (hva : va < 2 ^ 32) :
    maliWalk s vm.pd.dma va = .absent ∨ ∃ w, maliWalk s vm.pd.dma va = .pte w ∧
      (w = 0 ∨ cfg.Dlbu (va / 4096) w ∨ ∃ b x, (x ∈ (s.bo b).va ∧ x.vm = v ∧ x.node.Has va) ∧
        w = (s.bo b).pageDma ((va - x.node.start) / 4096) ||| limaVmFlagsCache ∧
        ∀ c y, y ∈ (s.bo c).va → y.vm = v → y.node.Has va → c = b) := by
  have hi := h.isolated
  rw [(h.blocks.maliWalk_eq hvm hva).1]
  unfold probeResult
  split
  · refine .inr ⟨_, rfl, ?_⟩
    by_cases hzero : (limaVmProbePte vm va).1 = 0
    · exact .inl hzero
    refine .inr ?_
    rw [limaVmProbePte_eq vm hva] at hzero ⊢
    refine (hi.owned v vm (va / 4096) hvm hzero).imp_right ?_
    rintro ⟨b, node, hn, hlo, hhi, hw⟩
    obtain ⟨x, hx, rfl⟩ := Option.map_eq_some_iff.mp hn
    obtain ⟨hmem, rfl⟩ := limaVmBoFind_some hx
    have hle := hi.space.mappable_le b x.node hn
    obtain ⟨vm₁, -, -, -, hin⟩ := hi.space.live _ b x.node hn
    have hstart := hin.start_dvd
    have hsize := hin.size_dvd
    have hhas : x.node.Has va := by
      unfold Span.Has
      omega
    refine ⟨b, x, ⟨hmem, rfl, hhas⟩, ?_, fun c y hy hyv hyva => ?_⟩
    · rw [hw, show (va - x.node.start) / 4096 = va / 4096 - x.node.start / 4096 by omega]
    · have hyn : s.node y.vm c = some y.node :=
        Bo.nodeIn_of_find (limaVmBoFind_of_mem (hi.space.bo c).nodup hy)
      rw [hyv] at hyn
      exact (hi.space.apart x.vm).owner_unique hyn hn hyva hhas
  · exact .inl rfl

/-- The walk finds every page of a native object where it is mapped. -/
theorem walk_native (h : SpacesOk cfg s) {vm : Vm} {b : BoId} {x : BoVa} {pas : List ℕ} {i : ℕ}
    (hx : limaVmBoFind v (s.bo b).va = some x) (hvm : s.vm v = some vm)
    (hheap : (s.bo b).isHeap = false) (hsgt : (s.bo b).sgt = some pas) (hi : i < pas.length) :
    maliWalk s vm.pd.dma (x.node.start + 4096 * i) =
      .pte ((s.bo b).pageDma i ||| limaVmFlagsCache) := by
  have hn : s.node v b = some x.node := Bo.nodeIn_of_find hx
  obtain ⟨hdvd, htop⟩ := h.isolated.space.fits hn hsgt
  obtain ⟨hentry, hlow⟩ := h.isolated.native v vm b x.node pas i hvm hn hheap hsgt hi
  have hva : x.node.start + 4096 * i < 2 ^ 32 := by omega
  have hpage : (x.node.start + 4096 * i) / 4096 = x.node.start / 4096 + i := by omega
  rw [(h.blocks.maliWalk_eq hvm hva).1, limaVmProbePte_eq vm hva, hpage, hentry, leafPte_eq hlow]
  have hne : vm.entry (x.node.start / 4096 + i) ≠ 0 := by
    rw [hentry]
    exact leafPte_ne_zero hlow
  have htable : (vm.bts ((x.node.start / 4096 + i) / 8192)).isSome = true :=
    Vm.hasTable_of_entry_ne_zero hne
  rw [htable]
  rfl

end SpacesOk

/-! ## Steps of several calls -/

/-- Completed calls, each of which `ok` permits. -/
abbrev SysCalls (cfg : VmConfig) (ok : Sys → VmCall → Prop) : Sys → Sys → Prop :=
  Relation.ReflTransGen fun s s' => ∃ c, ok s c ∧ c.Returns cfg s s'

/-- How a step of the driver moves the address spaces: by calls, then by one put and one get,
where it makes any. -/
inductive SysStep (cfg : VmConfig) (ok : Sys → VmCall → Prop) (s s' : Sys) : Prop
  | mk {s₁ s₂ : Sys} {a : Option VmId} : SysCalls cfg ok s s₁ → limaVmPut s₁ a = .ok s₂ →
      (s' = s₂ ∨ ∃ v, limaVmGet s₂ v = .ok s') → SysStep cfg ok s s'

namespace SysStep

variable {cfg : VmConfig} {ok : Sys → VmCall → Prop} {s s' : Sys}

theorem refl (s : Sys) : SysStep cfg ok s s := .mk (a := none) .refl rfl (.inl rfl)

theorem call {c : VmCall} (hok : ok s c) (hret : c.Returns cfg s s') : SysStep cfg ok s s' :=
  .mk (a := none) (.single ⟨c, hok, hret⟩) rfl (.inl rfl)

theorem put {a : Option VmId} (h : limaVmPut s a = .ok s') : SysStep cfg ok s s' :=
  .mk .refl h (.inl rfl)

theorem get {v : VmId} (h : limaVmGet s v = .ok s') : SysStep cfg ok s s' :=
  .mk (a := none) .refl rfl (.inr ⟨v, h⟩)

end SysStep

/-- **A step keeps the address spaces in order** if its calls find what they may assume, and if
nothing is mapped in what is released. -/
theorem SpacesOk.step {cfg : VmConfig} {ok : Sys → VmCall → Prop} {s s' : Sys}
    (h : SpacesOk cfg s) (hok : ∀ s c, SpacesOk cfg s → ok s c → VmPromise s c)
    (hstep : SysStep cfg ok s s') (hno : ∀ v, s'.vm v = none → ∀ b, s'.node v b = none) :
    SpacesOk cfg s' := by
  obtain @⟨s₁, s₂, a, hcalls, hput, hget⟩ := hstep
  have h₁ : SpacesOk cfg s₁ := by
    clear hput
    induction hcalls with
    | refl => exact h
    | tail _ hcall ih =>
        obtain ⟨c, hc, hret⟩ := hcall
        exact ih.call (hok _ c ih hc) hret
  have hbo : s₂.bo = s₁.bo := by
    obtain ⟨-, rfl⟩ | ⟨-, -, -, -, ⟨-, rfl⟩ | rfl⟩ := limaVmPut_cases hput <;> rfl
  have hput' : (∀ v, s₂.vm v = none → ∀ b, s₁.node v b = none) → SpacesOk cfg s₂ := h₁.put hput
  rcases hget with rfl | ⟨w, hget⟩
  · refine hput' fun v hv b => ?_
    have hnone := hno v hv b
    unfold Sys.node at hnone
    rwa [hbo] at hnone
  · refine (hput' fun v hv b => ?_).get hget
    obtain ⟨vm, hw, rfl⟩ := limaVmGet_cases hget
    have hne : v ≠ w := by
      rintro rfl
      rw [hv] at hw
      cases hw
    have hnone := hno v (by simpa [hne] using hv) b
    unfold Sys.node at hnone
    rwa [Sys.setVm_bo, hbo] at hnone

end Lima
