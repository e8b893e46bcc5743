import Lima.Vm.HeapAtomic
import Lima.Vm.Spaces

/-!
# Calls that complete

A call on an address space can run into a `NULL` pointer or never end: the object has no sg
table, a page to be cleared has no backing table, a range to be cleared ends at 4 GiB.
`MappedWhole` says that nothing of the kind is in store for what is mapped. Calls keep it if
objects are opened once they are made, at nodes that do not end at 4 GiB, and if heaps grow
where alone they are held; and under it the calls of the driver complete.
-/

namespace Lima

open Overlay Spans

/-! ## Loops that end -/

/-- An unmap that has ended ends with more fuel as well. -/
theorem limaVmUnmapRange_mono {stop : ℕ} : ∀ {fuel more : ℕ} {u u' : Unmap} {addr : ℕ},
    fuel ≤ more → limaVmUnmapRange fuel u addr stop = .ok u' →
      limaVmUnmapRange more u addr stop = .ok u'
  | 0, _, _, _, _, _, h => by cases h
  | fuel + 1, 0, _, _, _, hle, _ => absurd hle (Nat.not_succ_le_zero fuel)
  | fuel + 1, more + 1, u, u', addr, hle, h => by
      rw [limaVmUnmapRange] at h ⊢
      by_cases haddr : addr ≤ stop
      · rw [if_pos haddr] at h ⊢
        simp only at h ⊢
        cases hbt : u.vm.bts (limaPbe addr) with
        | none =>
            simp only [hbt] at h
            cases h
        | some bt =>
            simp only [hbt] at h ⊢
            exact limaVmUnmapRange_mono (Nat.le_of_succ_le_succ hle) h
      · rw [if_neg haddr] at h ⊢
        exact h

/-- More rounds than an address space has pages. -/
abbrev EnoughFuel (fuel : ℕ) : Prop := 2 ^ 20 ≤ fuel

section Loops

variable {fuel p n : ℕ} {vm : Vm}

theorem limaVmUnmapRange_ends (hfuel : EnoughFuel fuel) {stop : ℕ} (hlt : p + n < 2 ^ 20)
    (hstop : stop + 1 = 4096 * (p + n)) (htable : ∀ k < n, vm.HasTable (p + k)) :
    ∃ u, limaVmUnmapRange fuel ⟨vm, []⟩ (4096 * p) stop = .ok u := by
  obtain ⟨u, hu⟩ := limaVmUnmapRange_total (u := ⟨vm, []⟩) hlt hstop htable
  exact ⟨u, limaVmUnmapRange_mono (by unfold EnoughFuel at hfuel; omega) hu⟩

theorem undoMap_ends (hfuel : EnoughFuel fuel) (hlt : p + n < 2 ^ 20)
    (htable : ∀ k < n, vm.HasTable (p + k)) :
    ∃ vm', undoMap fuel vm (4096 * p) (4096 * n) = .ok vm' := by
  by_cases hzero : 4096 * n = 0
  · exact ⟨vm, by rw [undoMap, if_neg (not_not.mpr hzero)]⟩
  · obtain ⟨u, hu⟩ := limaVmUnmapRange_ends hfuel hlt
      (by omega : 4096 * p + 4096 * n - 1 + 1 = 4096 * (p + n)) htable
    refine ⟨u.vm, ?_⟩
    rw [undoMap, if_pos hzero, u32_of_lt (by omega), u32_of_lt (by omega), hu, Outcome.bind_ok]

/-- The rollback of a mapping that has failed. -/
theorem rollback_ends (hfuel : EnoughFuel fuel) {dmaAlloc : ℕ → Option ℕ} {pas : List ℕ}
    {vm' : Vm} {offset : ℕ} {e : Errno} (hlen : p + pas.length ≤ 2 ^ 20)
    (hmap : limaVmMapPages dmaAlloc (4096 * p) pas vm 0 = (vm', offset, some e)) :
    ∃ vm'', undoMap fuel vm' (4096 * p) offset = .ok vm'' := by
  obtain ⟨m, hm, hoff, herr, hrun⟩ := limaVmMapPages_spec hmap rfl hlen
  have hlt : m < pas.length := by
    refine lt_of_le_of_ne hm fun heq => ?_
    cases herr.mpr heq
  rw [hoff, Nat.zero_add]
  exact undoMap_ends hfuel (by omega) hrun.table

/-- The unmap of a last `lima_vm_bo_del`, below 4 GiB and with all tables present. -/
theorem unmapNode_ends (hfuel : EnoughFuel fuel) {start size : ℕ} (hstart : 4096 ∣ start)
    (hsize : 4096 ∣ size) (hpos : 0 < size) (htop : start + size < 2 ^ 32)
    (htable : ∀ k < size / 4096, vm.HasTable (start / 4096 + k)) :
    ∃ u, limaVmUnmapRange fuel ⟨vm, []⟩ (u32 start)
      (u32 (start + u32 size + (2 ^ 32 - 1))) = .ok u := by
  have hend := unmapEnd_eq hpos htop.le
  obtain ⟨p, rfl⟩ := hstart
  obtain ⟨n, rfl⟩ := hsize
  rw [Nat.mul_div_cancel_left _ (by norm_num), Nat.mul_div_cancel_left _ (by norm_num)] at htable
  rw [u32_of_lt (by omega : 4096 * p < 2 ^ 32)]
  exact limaVmUnmapRange_ends hfuel (by omega) (by omega) htable

end Loops

/-! ## What is mapped -/

/-- The object is made: a native one has a table of all its pages, a heap its first ones. -/
structure Bo.Made (bo : Bo) : Prop where
  heap : bo.isHeap = true → bo.heapSize ≠ 0
  native : bo.isHeap = false → ∃ pas, bo.sgt = some pas ∧ 4096 * pas.length = bo.size

/-- What is mapped can be unmapped: it is mapped whole, and does not end at 4 GiB. -/
structure MappedWhole (s : Sys) : Prop where
  heaps : HeapMapped s
  placed : ∀ v b node, s.node v b = some node →
    (s.bo b).Made ∧ node.start + node.size ≠ 2 ^ 32

/-- The bytes that a last `lima_vm_bo_del` clears. -/
def Bo.cleared (bo : Bo) (node : DrmMmNode) : ℕ :=
  if bo.heapSize ≠ 0 then bo.heapSize else node.size

theorem Bo.SameView.made {bo bo' : Bo} (h : bo.SameView bo') (hm : bo.Made) : bo'.Made where
  heap hb := by
    have hle := h.heap_le
    have hpos := hm.heap (h.isHeap ▸ hb)
    omega
  native hb := by
    rw [h.isHeap] at hb
    rw [h.sgt hb, h.size]
    exact hm.native hb

section Calls

variable {cfg : VmConfig} {s s' : Sys} {v : VmId} {b : BoId} {fuel : ℕ}

/-- The pages of an object that a last `lima_vm_bo_del` clears have tables. -/
theorem MappedWhole.hasTable (h : MappedWhole s) (hi : Isolated cfg s) {vm : Vm}
    {node : DrmMmNode} (hvm : s.vm v = some vm) (hn : s.node v b = some node) {k : ℕ}
    (hk : k < (s.bo b).cleared node / 4096) : vm.HasTable (node.start / 4096 + k) := by
  have hmapped : ∀ {pa : ℕ}, vm.entry (node.start / 4096 + k) = leafPte pa ∧ pa ≤ limaVmMaxPage →
      vm.HasTable (node.start / 4096 + k) := by
    rintro pa ⟨hentry, hlow⟩
    exact Vm.hasTable_of_entry_ne_zero (hentry ▸ leafPte_ne_zero hlow)
  obtain ⟨hmade, -⟩ := h.placed v b node hn
  rw [Bo.cleared] at hk
  cases hheap : (s.bo b).isHeap with
  | true =>
      rw [if_pos (hmade.heap hheap)] at hk
      exact hmapped (h.heaps v b vm node hvm hn hheap k hk)
  | false =>
      obtain ⟨pas, hsgt, hlen⟩ := hmade.native hheap
      obtain ⟨-, -, -, hsize, -⟩ := hi.space.live v b node hn
      rw [if_neg (not_not.mpr ((hi.space.bo b).native hheap)), hsize, ← hlen] at hk
      exact hmapped (hi.native v vm b node pas k hvm hn hheap hsgt (by omega))

/-! ## Calls that return -/

/-- **`lima_vm_bo_del`** returns where there is a mapping. -/
theorem MappedWhole.boDel_returns (h : MappedWhole s) (hi : Isolated cfg s)
    (hfuel : EnoughFuel fuel) (hfind : limaVmBoFind v (s.bo b).va ≠ none) :
    ∃ s' touched, limaVmBoDel fuel s v b = .ok (s', touched) := by
  obtain ⟨x, hx⟩ := Option.ne_none_iff_exists'.mp hfind
  by_cases href : 0 < x.refCount - 1
  · exact ⟨s.setBo b ((s.bo b).dropRef v), [], by simp only [limaVmBoDel, hx, if_pos href]⟩
  have hn : s.node v b = some x.node := Bo.nodeIn_of_find hx
  obtain ⟨vm, hvm, -, hsize, hin⟩ := hi.space.live v b x.node hn
  have htop := (h.placed v b x.node hn).2
  have hle := hi.space.node_le hn
  have hok := hi.space.bo b
  -- the range is the node or, for a heap, its beginning
  have hrange : 4096 ∣ (s.bo b).cleared x.node ∧ 0 < (s.bo b).cleared x.node ∧
      (s.bo b).cleared x.node ≤ x.node.size := by
    unfold Bo.cleared
    split
    · exact ⟨hok.heap_dvd, by omega, hsize ▸ hok.heap_le⟩
    · exact ⟨hin.size_dvd, hin.size_pos, le_rfl⟩
  obtain ⟨hdvd, hpos, hwithin⟩ := hrange
  obtain ⟨u, hu⟩ := unmapNode_ends hfuel hin.start_dvd hdvd hpos (by omega)
    fun k hk => h.hasTable hi hvm hn hk
  rw [Bo.cleared] at hu
  exact ⟨(s.setVm v (u.vm.removeNode x.node)).setBo b ((s.bo b).removeVa v), u.touched,
    by simp only [limaVmBoDel, hx, if_neg href, hvm, hu, Outcome.bind_ok]⟩

/-- **`lima_vm_bo_add`** returns in a live address space, for an object with a table. -/
theorem Isolated.boAdd_returns (hi : Isolated cfg s) (hfuel : EnoughFuel fuel) {env : BoAddEnv}
    {make : Bool} (hmm : MmPromise s (.boAdd env v b make)) (hvm : s.vm v ≠ none)
    (hsgt : (s.bo b).sgt ≠ none) : ∃ s' r, limaVmBoAdd env fuel s v b make = .ok (s', r) := by
  obtain ⟨vm, hvm⟩ := Option.ne_none_iff_exists'.mp hvm
  obtain ⟨pas, hsgt⟩ := Option.ne_none_iff_exists'.mp hsgt
  unfold limaVmBoAdd
  simp only [hvm, hsgt]
  cases hfind : limaVmBoFind v (s.bo b).va with
  | some x => exact ⟨_, _, rfl⟩
  | none =>
      simp only
      split
      · exact ⟨_, _, rfl⟩
      split
      · exact ⟨_, _, rfl⟩
      cases hins : env.mmInsert with
      | none => exact ⟨_, _, rfl⟩
      | some start =>
          simp only
          have hin : Insertion s v b vm ⟨start, (s.bo b).size⟩ pas :=
            ⟨hfind, hvm, hmm vm start hvm hins, rfl, hsgt⟩
          obtain ⟨p, rfl, hlen⟩ : ∃ p, start = 4096 * p ∧ p + pas.length ≤ 2 ^ 20 := by
            obtain ⟨hdvd, hle⟩ := (hin.space hi.space).fits hin.node_self hin.sgt_insert
            obtain ⟨p, hp⟩ := hdvd
            exact ⟨p, hp, by dsimp only at hp hle; omega⟩
          split
          · exact ⟨_, _, rfl⟩
          · rename_i vm' offset e hmap
            obtain ⟨vm'', hundo⟩ := rollback_ends hfuel hlen hmap
            exact ⟨_, _, by rw [hundo, Outcome.bind_ok]⟩

/-! ## Calls that keep it -/

/-- **What a run asks of its callers**: an object is opened once it is made, at a node that does
not end at 4 GiB, and a heap grows for a task in the address space that alone holds it. -/
def CallerPromise (initNrPages : ℕ) (s : Sys) : VmCall → Prop
  | .boAdd env _ b _ => ∀ start, env.mmInsert = some start →
      (s.bo b).Made ∧ start + (s.bo b).size ≠ 2 ^ 32
  | .heapAlloc env b (some v) => s.CanGrow initNrPages env v b → ∀ w ≠ v, s.node w b = none
  | .heapAlloc _ b none => (s.bo b).va = []
  | .mapBo .. => False
  | _ => True

/-- No object is mapped anew, and what is made stays so. -/
structure Sys.NoneAdded (s s' : Sys) : Prop where
  node : ∀ v b node, s'.node v b = some node → s.node v b = some node
  made : ∀ b, (s.bo b).Made → (s'.bo b).Made

theorem Sys.NoneAdded.of_bo (h : s'.bo = s.bo) : s.NoneAdded s' where
  node w c node hn := by
    unfold Sys.node at hn ⊢
    rwa [h] at hn
  made c hc := by rwa [h]

/-- One object has been replaced by one that looks the same to the address spaces. -/
theorem Sys.NoneAdded.of_view {bo : Bo} (hview : (s.bo b).SameView bo)
    (h : s'.bo = Function.update s.bo b bo) : s.NoneAdded s' where
  node w c node hn := by
    rw [Sys.node, h, ← Sys.setBo_bo, ← Sys.node, Sys.setBo_node hview] at hn
    exact hn
  made c hc := by
    rw [h]
    by_cases hcb : c = b
    · subst hcb
      rw [Function.update_self]
      exact hview.made hc
    · rwa [Function.update_of_ne hcb]

/-- A list has changed that still has, or no longer has, an entry for each address space. -/
theorem Sys.NoneAdded.relist {vm : Vm} {va : List BoVa}
    (hva : ∀ w x, limaVmBoFind w va = some x →
      ∃ y, limaVmBoFind w (s.bo b).va = some y ∧ y.node = x.node) :
    s.NoneAdded (s.relist v b vm va) where
  node w c node hn := by
    by_cases hc : c = b
    · subst hc
      have hself : (s.relist v c vm va).bo c = { s.bo c with va := va } := by simp [Sys.relist]
      rw [Sys.node, Bo.nodeIn, hself] at hn
      obtain ⟨x, hx, rfl⟩ := Option.map_eq_some_iff.mp hn
      obtain ⟨y, hy, hyx⟩ := hva w x hx
      rw [← hyx]
      exact Bo.nodeIn_of_find hy
    · have hother : (s.relist v b vm va).bo c = s.bo c := by
        simp [Sys.relist, Function.update_of_ne hc]
      rwa [Sys.node, hother] at hn
  made c hc := by
    obtain ⟨va', hbo⟩ := s.relist_bo v b vm va c
    rw [hbo]
    exact ⟨hc.heap, hc.native⟩

/-- What a growth leaves of the object looks the same to the address spaces. -/
theorem limaHeapAlloc_view (hok : (s.bo b).Ok) (hheap : (s.bo b).isHeap = true)
    {initNrPages : ℕ} {env : HeapEnv} {vm : Option VmId} {r : Option Errno}
    (hcall : limaHeapAlloc initNrPages env fuel s b vm = .ok (s', r)) :
    ∃ bo, (s.bo b).SameView bo ∧ s'.bo = Function.update s.bo b bo := by
  obtain ⟨e, -, rfl, -⟩ | ⟨-, bo, hread, hcase⟩ := limaHeapAlloc_cases hcall
  · exact ⟨s'.bo b, ⟨rfl, rfl, rfl, le_rfl, fun _ => rfl, fun _ => rfl⟩,
      (Function.update_eq_self b s'.bo).symm⟩
  have hsame := hread.same
  have hdrop := (hok.dropTable hsame hheap).1
  have hgrown := (hok.grown hsame hheap initNrPages).1
  obtain ⟨e, -, rfl | rfl⟩ | ⟨-, -, rfl⟩ | ⟨v, s₁, -, hmap, ⟨-, rfl⟩ | ⟨-, rfl⟩⟩ := hcase
  · refine ⟨bo, ?_, rfl⟩
    rw [hsame]
    exact ⟨rfl, rfl, rfl, le_rfl, fun _ => rfl, fun _ => rfl⟩
  · exact ⟨_, hdrop, rfl⟩
  · exact ⟨_, hgrown, rfl⟩
  · exact ⟨_, hgrown, by
      rw [Sys.setBo_bo, limaVmMapBo_bo hmap, Sys.setBo_bo, Function.update_idem]⟩
  · exact ⟨_, hdrop, by
      rw [Sys.setBo_bo, limaVmMapBo_bo hmap, Sys.setBo_bo, Function.update_idem]⟩

namespace MappedWhole

theorem placed_of (h : MappedWhole s) (hs : s.NoneAdded s') (v : VmId) (b : BoId)
    (node : DrmMmNode) (hn : s'.node v b = some node) :
    (s'.bo b).Made ∧ node.start + node.size ≠ 2 ^ 32 := by
  obtain ⟨hmade, htop⟩ := h.placed v b node (hs.node v b node hn)
  exact ⟨hs.made b hmade, htop⟩

theorem boAdd_placed (h : MappedWhole s) (hi : Isolated cfg s) {env : BoAddEnv} {make : Bool}
    {r : Option Errno} (hmm : MmPromise s (.boAdd env v b make))
    (hcare : CallerPromise cfg.initNrPages s (.boAdd env v b make))
    (hcall : limaVmBoAdd env fuel s v b make = .ok (s', r)) :
    ∀ w c node, s'.node w c = some node →
      (s'.bo c).Made ∧ node.start + node.size ≠ 2 ^ 32 := by
  obtain ⟨x, -, -, rfl⟩ | ⟨hfind, ⟨e, -, rfl⟩ | ⟨-, vm, start, pas, hvm, hins, hsgt,
    ⟨vm', offset, -, -, rfl⟩ | ⟨vm', offset, e, vm'', -, -, -, rfl⟩⟩⟩ := limaVmBoAdd_cases hcall
  · have hview : (s.bo b).SameView ((s.bo b).addRef v) :=
      ⟨rfl, rfl, rfl, le_rfl, fun _ => rfl,
        Bo.nodeIn_modify (f := BoVa.addRef) (fun _ => rfl) (fun _ => rfl) _⟩
    exact h.placed_of (.of_view hview rfl)
  · exact h.placed_of (.of_bo rfl)
  · obtain ⟨hmade, htop⟩ := hcare start hins
    intro w c node hn
    change (s.relist v b vm' ((s.bo b).va ++ [⟨v, 1, ⟨start, (s.bo b).size⟩⟩])).node w c =
      some node at hn
    obtain ⟨va, hbo⟩ := s.relist_bo v b vm' ((s.bo b).va ++ [⟨v, 1, ⟨start, (s.bo b).size⟩⟩]) c
    have hkept : (s.bo c).Made → ((s.relist v b vm'
        ((s.bo b).va ++ [⟨v, 1, ⟨start, (s.bo b).size⟩⟩])).bo c).Made := by
      intro hc
      rw [hbo]
      exact ⟨hc.heap, hc.native⟩
    by_cases hw : w = v
    · subst hw
      rw [Sys.relist_node_self, limaVmBoFind_append, hfind] at hn
      by_cases hc : c = b
      · subst hc
        obtain rfl : ⟨start, (s.bo c).size⟩ = node := by simpa using hn
        exact ⟨hkept hmade, htop⟩
      · rw [Function.update_of_ne hc] at hn
        obtain ⟨hold, hend⟩ := h.placed w c node hn
        exact ⟨hkept hold, hend⟩
    · rw [Sys.relist_node_of_ne (limaVmBoFind_append_of_ne hw _ _)] at hn
      obtain ⟨hold, hend⟩ := h.placed w c node hn
      exact ⟨hkept hold, hend⟩
  · exact h.placed_of (.of_bo rfl)

theorem boDel_noneAdded (hi : Isolated cfg s) {touched : List ℕ}
    (hcall : limaVmBoDel fuel s v b = .ok (s', touched)) : s.NoneAdded s' := by
  obtain ⟨x, hx, ⟨-, rfl⟩ | ⟨-, vm, u, -, -, rfl⟩⟩ := limaVmBoDel_cases hcall
  · have hview : (s.bo b).SameView ((s.bo b).dropRef v) :=
      ⟨rfl, rfl, rfl, le_rfl, fun _ => rfl,
        Bo.nodeIn_modify (f := BoVa.dropRef) (fun _ => rfl) (fun _ => rfl) _⟩
    exact .of_view hview rfl
  · change s.NoneAdded (s.relist v b (u.vm.removeNode x.node) (removeBoVa v (s.bo b).va))
    refine .relist fun w y hy => ?_
    rw [limaVmBoFind_remove (hi.space.bo b).nodup] at hy
    split at hy
    · cases hy
    · exact ⟨y, hy, rfl⟩

/-- **Every call keeps what is mapped whole**, if its caller does what is asked. -/
theorem call (h : MappedWhole s) (hi : Isolated cfg s) {c : VmCall} (hmm : MmPromise s c)
    (hcare : CallerPromise cfg.initNrPages s c) (hret : c.Returns cfg s s') :
    MappedWhole s' := by
  cases c with
  | create early kz pd dma =>
      refine ⟨h.heaps.step hi ⟨hmm, trivial⟩ trivial hret, h.placed_of (.of_bo ?_)⟩
      rw [VmCall.Returns] at hret
      rw [hret, limaVmCreate]
      split <;> rfl
  | boAdd env v b make =>
      have hheaps := h.heaps.step hi ⟨hmm, trivial⟩ trivial hret
      obtain ⟨fuel, r, hcall⟩ := hret
      exact ⟨hheaps, h.boAdd_placed hi hmm hcare hcall⟩
  | boDel v b =>
      obtain ⟨fuel, touched, hcall⟩ := hret
      exact ⟨h.heaps.boDel hi.space hcall, h.placed_of (boDel_noneAdded hi hcall)⟩
  | mapBo dma v b pageoff => exact hcare.elim
  | heapAlloc env b vm =>
      have hheaps : HeapMapped s' := by
        cases vm with
        | none => exact h.heaps.step hi ⟨hmm, hcare⟩ trivial hret
        | some v => exact h.heaps.step hi ⟨hmm, trivial⟩ hcare hret
      obtain ⟨fuel, r, hcall⟩ := hret
      obtain ⟨bo, hview, hbo⟩ := limaHeapAlloc_view (hi.space.bo b) hmm hcall
      exact ⟨hheaps, h.placed_of (.of_view hview hbo)⟩

theorem setRefcount (h : MappedWhole s) {vm : Vm} (hvm : s.vm v = some vm) (n : ℕ) :
    MappedWhole (s.setVm v { vm with refcount := n }) := by
  refine ⟨fun w c vm' node hw hn => ?_, h.placed_of (.of_bo rfl)⟩
  by_cases hwv : w = v
  · subst hwv
    obtain rfl : { vm with refcount := n } = vm' := by simpa using hw
    exact h.heaps w c vm node hvm hn
  · exact h.heaps w c vm' node (by simpa [hwv] using hw) hn

theorem get (h : MappedWhole s) (hget : limaVmGet s v = .ok s') : MappedWhole s' := by
  obtain ⟨vm, hvm, rfl⟩ := limaVmGet_cases hget
  exact h.setRefcount hvm _

theorem put (h : MappedWhole s) {a : Option VmId} (hput : limaVmPut s a = .ok s') :
    MappedWhole s' := by
  obtain ⟨-, rfl⟩ | ⟨v, vm, rfl, hvm, ⟨-, rfl⟩ | rfl⟩ := limaVmPut_cases hput
  · exact h
  · refine ⟨fun w c vm' node hw hn => ?_, h.placed_of (.of_bo rfl)⟩
    by_cases hwv : w = v
    · subst hwv
      simp at hw
    · exact h.heaps w c vm' node (by simpa [hwv] using hw) hn
  · exact h.setRefcount hvm _

/-- **A step keeps what is mapped whole** if its calls find what they may assume. -/
theorem step {ok : Sys → VmCall → Prop} (h : MappedWhole s) (hs : SpacesOk cfg s)
    (hok : ∀ s c, SpacesOk cfg s → MappedWhole s → ok s c →
      VmPromise s c ∧ CallerPromise cfg.initNrPages s c)
    (hstep : SysStep cfg ok s s') : MappedWhole s' := by
  obtain @⟨s₁, s₂, a, hcalls, hput, hget⟩ := hstep
  have hboth : SpacesOk cfg s₁ ∧ MappedWhole s₁ := by
    clear hput
    induction hcalls with
    | refl => exact ⟨hs, h⟩
    | tail _ hcall ih =>
        obtain ⟨c, hc, hret⟩ := hcall
        obtain ⟨hpromise, hcare⟩ := hok _ c ih.1 ih.2 hc
        exact ⟨ih.1.call hpromise hret, ih.2.call ih.1.isolated hpromise.1 hcare hret⟩
  rcases hget with rfl | ⟨w, hget⟩
  · exact hboth.2.put hput
  · exact (hboth.2.put hput).get hget

/-- Nothing is mapped in the beginning. -/
theorem init (hvm : ∀ v b, s.node v b = none) : MappedWhole s where
  heaps v b vm node _ hn := by
    rw [hvm] at hn
    cases hn
  placed v b node hn := by
    rw [hvm] at hn
    cases hn

end MappedWhole

end Calls

end Lima
