import Lima.Vm.Unmap
import Lima.Lib.Lts

/-!
# What a completed call can have done

One inversion lemma for each call on address spaces and buffer objects, and the
transition system of their completed calls. The last section reads off what all
calls have in common: a call moves at most one address space, by mapping pages,
clearing entries and changing the set of nodes.
-/

namespace Lima

/-! ## Inversion lemmas -/

/-- A created address space is blank, or has the DLBU page mapped. -/
theorem limaVmCreateVm_cases {dev : LimaDevice} {kzallocOk : Bool}
    {pdAlloc : Option ℕ} {dmaAlloc : ℕ → Option ℕ} {vm : Vm}
    (h : limaVmCreateVm dev kzallocOk pdAlloc dmaAlloc = some vm) :
    ∃ pd vm₀, pdAlloc = some pd ∧
      (dev.dlbu = none ∧ vm₀ = .blank pd ∨
        ∃ dlbu, dev.dlbu = some dlbu ∧
          limaVmMapPage dmaAlloc (.blank pd) dlbu limaVaReserveDlbu = .ok vm₀) ∧
      vm = { vm₀ with
        mmStart := dev.vaStart
        mmSize := dev.vaEnd - dev.vaStart } := by
  unfold limaVmCreateVm at h
  split at h
  · cases h
  split at h
  · cases h
  rename_i pd
  simp only at h
  split at h
  · cases h
  rename_i vm₀ hmap
  obtain rfl := Option.some.inj h
  refine ⟨pd, vm₀, rfl, ?_, rfl⟩
  split at hmap
  · rename_i hdlbu
    obtain rfl := Except.ok.inj hmap
    exact .inl ⟨hdlbu, rfl⟩
  · rename_i dlbu hdlbu
    exact .inr ⟨dlbu, hdlbu, hmap⟩

/-- A completed `lima_vm_bo_add` has found an entry, or refused, or mapped the
object at a new node, or rolled the mapping back. -/
theorem limaVmBoAdd_cases {env : BoAddEnv} {fuel : ℕ} {s s' : Sys} {v : VmId}
    {b : BoId} {create : Bool} {r : Option Errno}
    (h : limaVmBoAdd env fuel s v b create = .ok (s', r)) :
    (∃ x, limaVmBoFind v (s.bo b).va = some x ∧ r = none ∧
      s' = s.setBo b ((s.bo b).addRef v)) ∨
    limaVmBoFind v (s.bo b).va = none ∧
      ((∃ e, r = some e ∧ s' = s) ∨
      create = true ∧ ∃ vm start pas, s.vm v = some vm ∧
        env.mmInsert = some start ∧ (s.bo b).sgt = some pas ∧
        ((∃ vm' offset, limaVmMapPages env.dmaAlloc start pas
            (vm.insertNode ⟨start, (s.bo b).size⟩) 0 = (vm', offset, none) ∧
          r = none ∧ s' = (s.setVm v vm').setBo b
            ((s.bo b).addVa ⟨v, 1, ⟨start, (s.bo b).size⟩⟩)) ∨
        (∃ vm' offset e vm'', limaVmMapPages env.dmaAlloc start pas
            (vm.insertNode ⟨start, (s.bo b).size⟩) 0 = (vm', offset, some e) ∧
          undoMap fuel vm' start offset = .ok vm'' ∧ r = some e ∧
          s' = s.setVm v (vm''.removeNode ⟨start, (s.bo b).size⟩)))) := by
  unfold limaVmBoAdd at h
  simp only at h
  split at h
  · rename_i x hx
    obtain ⟨rfl, rfl⟩ := Prod.mk.inj (Outcome.ok.inj h)
    exact .inl ⟨x, hx, rfl, rfl⟩
  rename_i hnone
  refine .inr ⟨hnone, ?_⟩
  split at h
  · obtain ⟨rfl, rfl⟩ := Prod.mk.inj (Outcome.ok.inj h)
    exact .inl ⟨_, rfl, rfl⟩
  rename_i hcreate
  split at h
  · obtain ⟨rfl, rfl⟩ := Prod.mk.inj (Outcome.ok.inj h)
    exact .inl ⟨_, rfl, rfl⟩
  split at h
  · cases h
  rename_i vm hvm
  split at h
  · obtain ⟨rfl, rfl⟩ := Prod.mk.inj (Outcome.ok.inj h)
    exact .inl ⟨_, rfl, rfl⟩
  rename_i start hstart
  split at h
  · cases h
  rename_i pas hpas
  refine .inr ⟨by simpa using hcreate, vm, start, pas, hvm, hstart, hpas, ?_⟩
  split at h
  · rename_i vm' offset hmap
    obtain ⟨rfl, rfl⟩ := Prod.mk.inj (Outcome.ok.inj h)
    exact .inl ⟨vm', offset, hmap, rfl, rfl⟩
  · rename_i vm' offset e hmap
    obtain ⟨vm'', hundo, hres⟩ := Outcome.bind_eq_ok h
    obtain ⟨rfl, rfl⟩ := Prod.mk.inj (Outcome.ok.inj hres)
    exact .inr ⟨vm', offset, e, vm'', hmap, hundo, rfl, rfl⟩

/-- The bytes a last `lima_vm_bo_del` unmaps. -/
def Bo.unmapSize (bo : Bo) (node : DrmMmNode) : ℕ :=
  u32 (if bo.heapSize ≠ 0 then bo.heapSize else node.size)

/-- A completed `lima_vm_bo_del` has dropped a reference, or removed the
entry after unmapping it. -/
theorem limaVmBoDel_cases {fuel : ℕ} {s s' : Sys} {v : VmId} {b : BoId}
    {touched : List ℕ} (h : limaVmBoDel fuel s v b = .ok (s', touched)) :
    ∃ x, limaVmBoFind v (s.bo b).va = some x ∧
      (1 < x.refCount ∧ s' = s.setBo b ((s.bo b).dropRef v) ∨
      x.refCount ≤ 1 ∧ ∃ vm u, s.vm v = some vm ∧
        limaVmUnmapRange fuel ⟨vm, []⟩ (u32 x.node.start)
          (u32 (x.node.start + (s.bo b).unmapSize x.node + (2 ^ 32 - 1))) =
            .ok u ∧
        s' = (s.setVm v (u.vm.removeNode x.node)).setBo b
          ((s.bo b).removeVa v)) := by
  unfold limaVmBoDel at h
  simp only at h
  split at h
  · cases h
  rename_i x hx
  refine ⟨x, hx, ?_⟩
  split at h
  · rename_i href
    obtain ⟨rfl, -⟩ := Prod.mk.inj (Outcome.ok.inj h)
    exact .inl ⟨by omega, rfl⟩
  rename_i href
  split at h
  · cases h
  rename_i vm hvm
  obtain ⟨u, hu, hres⟩ := Outcome.bind_eq_ok h
  obtain ⟨rfl, -⟩ := Prod.mk.inj (Outcome.ok.inj hres)
  exact .inr ⟨by omega, vm, u, hvm, hu, rfl⟩

/-- A completed `lima_vm_map_bo` has found no entry, or mapped the pages from
`pageoff` on, or rolled the mapping back. -/
theorem limaVmMapBo_cases {dmaAlloc : ℕ → Option ℕ} {fuel : ℕ} {s s' : Sys}
    {v : VmId} {b : BoId} {pageoff : ℕ} {r : Option Errno}
    (h : limaVmMapBo dmaAlloc fuel s v b pageoff = .ok (s', r)) :
    (limaVmBoFind v (s.bo b).va = none ∧ r = some .enoent ∧ s' = s) ∨
    ∃ x vm pas vm' offset, limaVmBoFind v (s.bo b).va = some x ∧
      s.vm v = some vm ∧ (s.bo b).sgt = some pas ∧
      ((limaVmMapPages dmaAlloc (u32 (x.node.start + pageoff * limaPageSize))
          (pas.drop pageoff) vm 0 = (vm', offset, none) ∧ r = none ∧
        s' = s.setVm v vm') ∨
      (∃ e vm'', limaVmMapPages dmaAlloc
          (u32 (x.node.start + pageoff * limaPageSize)) (pas.drop pageoff) vm 0 =
            (vm', offset, some e) ∧
        undoMap fuel vm' (u32 (x.node.start + pageoff * limaPageSize)) offset =
          .ok vm'' ∧ r = some e ∧ s' = s.setVm v vm'')) := by
  unfold limaVmMapBo at h
  split at h
  · rename_i hnone
    obtain ⟨rfl, rfl⟩ := Prod.mk.inj (Outcome.ok.inj h)
    exact .inl ⟨hnone, rfl, rfl⟩
  rename_i x hx
  refine .inr ?_
  split at h
  · rename_i vm pas hvm hpas
    simp only at h
    split at h
    · rename_i vm' offset hmap
      obtain ⟨rfl, rfl⟩ := Prod.mk.inj (Outcome.ok.inj h)
      exact ⟨x, vm, pas, vm', offset, hx, hvm, hpas, .inl ⟨hmap, rfl, rfl⟩⟩
    · rename_i vm' offset e hmap
      obtain ⟨vm'', hundo, hres⟩ := Outcome.bind_eq_ok h
      obtain ⟨rfl, rfl⟩ := Prod.mk.inj (Outcome.ok.inj hres)
      exact ⟨x, vm, pas, vm', offset, hx, hvm, hpas,
        .inr ⟨e, vm'', hmap, hundo, rfl, rfl⟩⟩
  · cases h

/-! ### Heap growth -/

/-- `bo'` differs from `bo` in the record of its backing pages only. -/
def Bo.SameButPages (bo bo' : Bo) : Prop :=
  bo' = { bo with
    pages := bo'.pages
    wires := bo'.wires
    pagesUseCount := bo'.pagesUseCount }

theorem readHeapPages_same {readPage : ℕ → Option Errno} :
    ∀ {n i : ℕ} {bo bo' : Bo} {r : Option Errno},
      readHeapPages readPage n i bo = (bo', r) → bo.SameButPages bo'
  | 0, i, bo, bo', r, h => by
      obtain rfl : bo = bo' := congrArg Prod.fst h
      rfl
  | n + 1, i, bo, bo', r, h => by
      rw [readHeapPages] at h
      split at h
      · obtain rfl : bo = bo' := congrArg Prod.fst h
        rfl
      · have hrest := readHeapPages_same h
        exact hrest

theorem Bo.allocPages_same {bo bo' : Bo} {ok : Bool}
    (h : bo.allocPages ok = some bo') : bo.SameButPages bo' := by
  unfold Bo.allocPages at h
  split at h
  · obtain rfl := Option.some.inj h
    rfl
  · split at h
    · obtain rfl := Option.some.inj h
      rfl
    · cases h

theorem Bo.SameButPages.trans {bo bo' bo'' : Bo} (h : bo.SameButPages bo')
    (h' : bo'.SameButPages bo'') : bo.SameButPages bo'' := by
  unfold Bo.SameButPages at *
  rw [h', h]

/-- The size a growth of the object aims at. -/
def Bo.grownSize (initNrPages : ℕ) (bo : Bo) : ℕ :=
  min (bo.heapNewSize initNrPages) bo.size

/-- The object with an sg table of the grown size, before `heap_size` is. -/
def Bo.withTable (bo : Bo) (bytes : ℕ) : Bo :=
  { bo with sgt := some (bo.sgTable bytes) }

/-- The growth has read backing pages into the object, all it wants if it ends well. -/
def Bo.ReadInto (initNrPages : ℕ) (env : HeapEnv) (bo bo' : Bo) (r : Option Errno) : Prop :=
  bo.filp = true ∧ ∃ bo₁ r₁, bo.allocPages env.kvmallocOk = some bo₁ ∧
    readHeapPages env.readPage
      (bo.grownSize initNrPages / limaPageSize - bo.heapSize / limaPageSize)
      (bo.heapSize / limaPageSize) bo₁ = (bo', r₁) ∧ (r = none → r₁ = none)

theorem Bo.ReadInto.same {initNrPages : ℕ} {env : HeapEnv} {bo bo' : Bo}
    {r : Option Errno} (h : bo.ReadInto initNrPages env bo' r) : bo.SameButPages bo' := by
  obtain ⟨-, bo₁, r₁, halloc, hread, -⟩ := h
  exact (Bo.allocPages_same halloc).trans (readHeapPages_same hread)

/-- A completed `lima_heap_alloc` has failed before it built an sg table, or has
built one and then grown, in one address space or in none, or given it up. -/
theorem limaHeapAlloc_cases {initNrPages : ℕ} {env : HeapEnv} {fuel : ℕ}
    {s s' : Sys} {b : BoId} {vm : Option VmId} {r : Option Errno}
    (h : limaHeapAlloc initNrPages env fuel s b vm = .ok (s', r)) :
    (∃ e, r = some e ∧ s' = s ∧ ((s.bo b).size ≤ (s.bo b).heapSize ∨
      (s.bo b).filp = false ∨ (s.bo b).allocPages env.kvmallocOk = none)) ∨
    (s.bo b).heapSize < (s.bo b).size ∧ ∃ bo, (s.bo b).ReadInto initNrPages env bo r ∧
      ((∃ e, r = some e ∧
        (s' = s.setBo b bo ∨ s' = s.setBo b { bo with sgt := none })) ∨
      (vm = none ∧ r = none ∧ s' = s.setBo b
        { bo.withTable ((s.bo b).grownSize initNrPages) with
          heapSize := (s.bo b).grownSize initNrPages }) ∨
      ∃ v s₁, vm = some v ∧ limaVmMapBo env.dmaAlloc fuel
          (s.setBo b (bo.withTable ((s.bo b).grownSize initNrPages))) v b
          ((s.bo b).heapSize / limaPageSize) = .ok (s₁, r) ∧
        (r = none ∧ s' = s₁.setBo b
          { bo.withTable ((s.bo b).grownSize initNrPages) with
            heapSize := (s.bo b).grownSize initNrPages } ∨
        r ≠ none ∧ s' = s₁.setBo b { bo with sgt := none })) := by
  unfold limaHeapAlloc at h
  simp only at h
  split at h
  · obtain ⟨rfl, rfl⟩ := Prod.mk.inj (Outcome.ok.inj h)
    exact .inl ⟨_, rfl, rfl, .inl ‹_›⟩
  rename_i hsize
  split at h
  · rename_i hfilp
    obtain ⟨rfl, rfl⟩ := Prod.mk.inj (Outcome.ok.inj h)
    exact .inl ⟨_, rfl, rfl, .inr (.inl (by simpa using hfilp))⟩
  rename_i hfilp
  have hfilp : (s.bo b).filp = true := by simpa using hfilp
  split at h
  · obtain ⟨rfl, rfl⟩ := Prod.mk.inj (Outcome.ok.inj h)
    exact .inl ⟨_, rfl, rfl, .inr (.inr ‹_›)⟩
  rename_i bo₁ halloc
  refine .inr ⟨by omega, ?_⟩
  split at h
  · rename_i bo e hread
    obtain ⟨rfl, rfl⟩ := Prod.mk.inj (Outcome.ok.inj h)
    exact ⟨bo, ⟨hfilp, bo₁, some e, halloc, hread, nofun⟩, .inl ⟨_, rfl, .inl rfl⟩⟩
  rename_i bo hread
  refine ⟨bo, ⟨hfilp, bo₁, none, halloc, hread, fun _ => rfl⟩, ?_⟩
  split at h
  · obtain ⟨rfl, rfl⟩ := Prod.mk.inj (Outcome.ok.inj h)
    exact .inl ⟨_, rfl, .inl rfl⟩
  split at h
  · obtain ⟨rfl, rfl⟩ := Prod.mk.inj (Outcome.ok.inj h)
    exact .inl ⟨_, rfl, .inl rfl⟩
  split at h
  · obtain ⟨rfl, rfl⟩ := Prod.mk.inj (Outcome.ok.inj h)
    exact .inl ⟨_, rfl, .inr rfl⟩
  refine .inr ?_
  split at h
  · obtain ⟨rfl, rfl⟩ := Prod.mk.inj (Outcome.ok.inj h)
    exact .inl ⟨rfl, rfl, rfl⟩
  rename_i v
  obtain ⟨⟨s₁, r₁⟩, hmap, hres⟩ := Outcome.bind_eq_ok h
  refine .inr ⟨v, s₁, rfl, ?_⟩
  cases r₁ with
  | none =>
      obtain ⟨rfl, rfl⟩ := Prod.mk.inj (Outcome.ok.inj hres)
      exact ⟨hmap, .inl ⟨rfl, rfl⟩⟩
  | some e =>
      obtain ⟨rfl, rfl⟩ := Prod.mk.inj (Outcome.ok.inj hres)
      exact ⟨hmap, .inr ⟨by simp, rfl⟩⟩

/-! ## Effects on the page-number view -/

open Overlay

theorem undoMap_spec {fuel p n : ℕ} {vm vm' : Vm} (hlt : p + n < 2 ^ 20)
    (h : undoMap fuel vm (4096 * p) (4096 * n) = .ok vm') :
    vm'.entry = fill vm.entry p n (fun _ => 0) ∧ VmFrame (fun _ => none) vm vm' := by
  unfold undoMap at h
  split at h
  · obtain ⟨u, hu, hres⟩ := Outcome.bind_eq_ok h
    obtain rfl := Outcome.ok.inj hres
    rw [u32_of_lt (by omega), u32_of_lt (by omega)] at hu
    have hrun := limaVmUnmapRange_spec hlt (by omega) hu
    exact ⟨hrun.entry, hrun.frame⟩
  · obtain rfl := Outcome.ok.inj h
    obtain rfl : n = 0 := by omega
    exact ⟨by simp, .refl _ _⟩

/-- Pages mapped and rolled back: the entries of the pages that had been mapped
are cleared. A page of the list could not be mapped. -/
theorem rollback_spec {dmaAlloc : ℕ → Option ℕ} {fuel p offset : ℕ}
    {pas : List ℕ} {vm vm' vm'' : Vm} {e : Errno} (hlen : p + pas.length ≤ 2 ^ 20)
    (hmap : limaVmMapPages dmaAlloc (4096 * p) pas vm 0 = (vm', offset, some e))
    (hundo : undoMap fuel vm' (4096 * p) offset = .ok vm'') :
    (∃ n < pas.length, vm''.entry = fill vm.entry p n fun _ => 0) ∧
      VmFrame dmaAlloc vm vm'' ∧
      ∃ k < pas.length, ¬ vm.CanMap dmaAlloc (p + k) (pas.getD k 0) := by
  obtain ⟨n, hn, hoff, herr, hrun⟩ := limaVmMapPages_spec hmap rfl hlen
  have hlt : n < pas.length := by
    refine lt_of_le_of_ne hn fun heq => ?_
    cases herr.mpr heq
  rw [hoff, Nat.zero_add] at hundo
  obtain ⟨hentry, hframe⟩ := undoMap_spec (by omega) hundo
  refine ⟨⟨n, hlt, ?_⟩, hrun.frame.trans hframe.of_none, ?_⟩
  · rw [hentry, hrun.entry, fill_fill]
  · by_contra hall
    push Not at hall
    have htotal : (limaVmMapPages dmaAlloc (4096 * p) pas vm 0).2.2 = none :=
      limaVmMapPages_total rfl hlen hall
    rw [hmap] at htotal
    cases htotal

/-- What a `lima_vm_map_bo` has done to an object whose sg table fits its node:
mapped the pages from `pageoff` on, or cleared entries among them. -/
theorem limaVmMapBo_effect {dmaAlloc : ℕ → Option ℕ} {fuel : ℕ} {s s' : Sys}
    {v : VmId} {b : BoId} {pageoff : ℕ} {r : Option Errno}
    (hfit : ∀ x pas, limaVmBoFind v (s.bo b).va = some x →
      (s.bo b).sgt = some pas → 4096 ∣ x.node.start ∧
        x.node.start + 4096 * pas.length ≤ 2 ^ 32)
    (h : limaVmMapBo dmaAlloc fuel s v b pageoff = .ok (s', r)) :
    (r = some .enoent ∧ s' = s ∧ limaVmBoFind v (s.bo b).va = none) ∨
    ∃ x vm pas vm', limaVmBoFind v (s.bo b).va = some x ∧ s.vm v = some vm ∧
      (s.bo b).sgt = some pas ∧ s' = s.setVm v vm' ∧
      (r = none ∧ MapRun dmaAlloc (x.node.start / 4096 + pageoff)
          (pas.drop pageoff) (pas.length - pageoff) vm vm' ∨
        r ≠ none ∧ VmFrame dmaAlloc vm vm' ∧
        (∃ n < pas.length - pageoff, vm'.entry =
          fill vm.entry (x.node.start / 4096 + pageoff) n fun _ => 0) ∧
        ∃ k < pas.length - pageoff, ¬ vm.CanMap dmaAlloc
          (x.node.start / 4096 + pageoff + k) ((pas.drop pageoff).getD k 0)) := by
  obtain ⟨hnone, rfl, rfl⟩ | ⟨x, vm, pas, vm', offset, hx, hvm, hpas, hcase⟩ :=
    limaVmMapBo_cases h
  · exact .inl ⟨rfl, rfl, hnone⟩
  obtain ⟨hdvd, hle⟩ := hfit x pas hx hpas
  refine .inr ⟨x, vm, pas, ?_⟩
  by_cases hoff : pageoff < pas.length
  · -- the pages lie below 4 GiB, so their addresses do not wrap
    have hbase : u32 (x.node.start + pageoff * limaPageSize) =
        4096 * (x.node.start / 4096 + pageoff) := by
      rw [u32_of_lt (by simp only [limaPageSize]; omega), limaPageSize]
      omega
    have hlen : x.node.start / 4096 + pageoff + (pas.drop pageoff).length ≤
        2 ^ 20 := by
      rw [List.length_drop]
      omega
    rw [hbase] at hcase
    rw [← List.length_drop]
    obtain ⟨hmap, rfl, rfl⟩ | ⟨e, vm'', hmap, hundo, rfl, rfl⟩ := hcase
    · obtain ⟨n, -, -, herr, hrun⟩ := limaVmMapPages_spec hmap rfl hlen
      obtain rfl := herr.mp rfl
      exact ⟨vm', hx, hvm, hpas, rfl, .inl ⟨rfl, hrun⟩⟩
    · obtain ⟨hentry, hframe, hbad⟩ := rollback_spec hlen hmap hundo
      exact ⟨vm'', hx, hvm, hpas, rfl, .inr ⟨by simp, hframe, hentry, hbad⟩⟩
  · -- nothing to map
    have hdrop : pas.drop pageoff = [] := List.drop_eq_nil_of_le (not_lt.mp hoff)
    have hzero : pas.length - pageoff = 0 := by omega
    rw [hdrop] at hcase ⊢
    rw [hzero]
    obtain ⟨hmap, rfl, rfl⟩ | ⟨e, vm'', hmap, -⟩ := hcase
    · obtain rfl : vm = vm' := congrArg Prod.fst hmap
      exact ⟨vm, hx, hvm, hpas, rfl, .inl ⟨rfl, .zero _ _ _ _⟩⟩
    · cases hmap

/-- A completed unmap with the arguments `lima_vm_bo_del` computes: the range
did not reach 4 GiB, and its entries are cleared. -/
theorem unmapNode_spec {fuel start size : ℕ} {vm : Vm} {u : Unmap}
    (hstart : 4096 ∣ start) (hsize : 4096 ∣ size) (hpos : 0 < size)
    (htop : start + size ≤ 2 ^ 32)
    (h : limaVmUnmapRange fuel ⟨vm, []⟩ (u32 start)
      (u32 (start + u32 size + (2 ^ 32 - 1))) = .ok u) :
    UnmapRun (start / 4096) (size / 4096) ⟨vm, []⟩ u := by
  have hend := unmapEnd_eq hpos htop
  have hlt : start + size ≠ 2 ^ 32 := fun heq => by
    rw [show u32 (start + u32 size + (2 ^ 32 - 1)) = 2 ^ 32 - 1 by omega] at h
    exact limaVmUnmapRange_top (u32_lt _) u h
  obtain ⟨p, rfl⟩ := hstart
  obtain ⟨n, rfl⟩ := hsize
  rw [u32_of_lt (by omega : 4096 * p < 2 ^ 32)] at h
  rw [Nat.mul_div_cancel_left _ (by norm_num), Nat.mul_div_cancel_left _ (by norm_num)]
  exact limaVmUnmapRange_spec (by omega) (by omega) h

end Lima
