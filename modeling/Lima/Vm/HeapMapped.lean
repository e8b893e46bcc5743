import Lima.Vm.IsolationRuns

/-!
# Heaps held by several address spaces

`heap_size` and the sg table belong to the buffer object, the mapped extent to each
address space that holds it, and `lima_heap_alloc` maps the new pages in the one address
space it is given. The invariant `HeapMapped` says that the two agree everywhere. Opens,
closes and failed growths keep it, whatever they share; a growth that ends well keeps it
if no other address space holds the heap.
-/

namespace Lima

open Overlay Spans

/-! ## The callers -/

/-- **What a run on heaps may assume** besides `MmPromise`: a growth in no address space is
the first one, by `lima_gem_create_handle` before there is a handle, and `lima_vm_map_bo`
is called by `lima_heap_alloc` only. -/
def HeapPromise (s : Sys) (c : VmCall) : Prop :=
  MmPromise s c ∧ match c with
    | .heapAlloc _ b none => (s.bo b).va = []
    | .mapBo .. => False
    | _ => True

/-- Nothing a growth of the object asks for is refused until it has an sg table. -/
structure Bo.Tabled (initNrPages : ℕ) (env : HeapEnv) (bo : Bo) : Prop where
  room : bo.heapSize < bo.size
  filp : bo.filp = true
  pages : bo.pages.isSome = true ∨ env.kvmallocOk = true
  read : ∀ i, bo.heapSize / limaPageSize ≤ i →
    i < bo.grownSize initNrPages / limaPageSize → env.readPage i = none
  sgAlloc : env.sgAlloc = none
  sgt : bo.sgt.isSome = true ∨ env.sgtKmallocOk = true

/-- Nor is the DMA mapping of the table. -/
structure Bo.Served (initNrPages : ℕ) (env : HeapEnv) (bo : Bo) : Prop
    extends Bo.Tabled initNrPages env bo where
  dmaMap : env.dmaMap = none

/-- The growth of `b` in `v` can go through. -/
structure Sys.CanGrow (initNrPages : ℕ) (env : HeapEnv) (s : Sys) (v : VmId) (b : BoId) :
    Prop where
  served : (s.bo b).Served initNrPages env
  held : s.node v b ≠ none
  map : ∀ vm node, s.vm v = some vm → s.node v b = some node →
    ∀ i, (s.bo b).heapSize / 4096 ≤ i → i < (s.bo b).grownSize initNrPages / 4096 →
      vm.CanMap env.dmaAlloc (node.start / 4096 + i) ((s.bo b).pageDma i)

/-- **The condition.** A heap only grows in the address space that alone holds it, and the
pages of a heap that a last `lima_vm_bo_del` unmaps are not none and do not end at 4 GiB. -/
def GrowsAlone (initNrPages : ℕ) (s : Sys) : VmCall → Prop
  | .heapAlloc env b (some v) => s.CanGrow initNrPages env v b →
      ∀ w ≠ v, s.node w b = none
  | .boDel v b => ∀ x, limaVmBoFind v (s.bo b).va = some x → x.refCount ≤ 1 →
      (s.bo b).isHeap = true →
        (s.bo b).heapSize ≠ 0 ∧ x.node.start + (s.bo b).heapSize ≠ 2 ^ 32
  | _ => True

/-! ## The invariant -/

/-- Address space `v` maps the first `heap_size` bytes of heap `b`, if it holds it. -/
def HeapMappedAt (s : Sys) (v : VmId) (b : BoId) : Prop :=
  ∀ vm node, s.vm v = some vm → s.node v b = some node → (s.bo b).isHeap = true →
    ∀ i < (s.bo b).heapSize / 4096,
      vm.entry (node.start / 4096 + i) = leafPte ((s.bo b).pageDma i) ∧
        (s.bo b).pageDma i ≤ limaVmMaxPage

def HeapMapped (s : Sys) : Prop := ∀ v b, HeapMappedAt s v b

section Keep

variable {cfg : VmConfig} {s s' : Sys} {v : VmId} {b : BoId}

/-- The pages of a heap lie in its node. -/
theorem SpaceOk.heapPage (h : SpaceOk cfg s) {node : DrmMmNode}
    (hn : s.node v b = some node) {i : ℕ} (hi : i < (s.bo b).heapSize / 4096) :
    node.HasPage (node.start / 4096 + i) := by
  obtain ⟨vm, -, -, hsize, hin⟩ := h.live v b node hn
  have hle := (h.bo b).heap_le
  have hdvd := hin.start_dvd
  unfold DrmMmNode.HasPage
  omega

/-- `bo'` is as much of a heap as `bo`. -/
structure Bo.SameHeap (bo bo' : Bo) : Prop where
  isHeap : bo'.isHeap = bo.isHeap
  heapSize : bo'.heapSize = bo.heapSize
  pageDma : bo'.pageDma = bo.pageDma

theorem Bo.SameHeap.refl (bo : Bo) : bo.SameHeap bo := ⟨rfl, rfl, rfl⟩

/-- What a step does not touch stays mapped. -/
theorem HeapMappedAt.keep (h : HeapMappedAt s v b) (hs : SpaceOk cfg s)
    (hbo : (s.bo b).SameHeap (s'.bo b))
    (hnode : ∀ node, s'.node v b = some node → s.node v b = some node)
    (hentry : ∀ vm', s'.vm v = some vm' → s.node v b ≠ none → ∃ vm, s.vm v = some vm ∧
      ∀ node i, s.node v b = some node → i < (s.bo b).heapSize / 4096 →
        node.HasPage (node.start / 4096 + i) →
          vm'.entry (node.start / 4096 + i) = vm.entry (node.start / 4096 + i)) :
    HeapMappedAt s' v b := by
  intro vm' node hvm' hn' hheap
  have hn := hnode node hn'
  obtain ⟨vm, hvm, hsame⟩ := hentry vm' hvm' (by simp [hn])
  rw [hbo.isHeap] at hheap
  rw [hbo.heapSize, hbo.pageDma]
  intro i hi
  rw [hsame node i hn hi (hs.heapPage hn hi)]
  exact h vm node hvm hn hheap i hi

/-- A change of objects that leaves nodes and heaps alone. -/
theorem HeapMapped.setBo (h : HeapMapped s) (hs : SpaceOk cfg s) {bo' : Bo}
    (hbo : (s.bo b).SameHeap bo') (hnode : ∀ v, bo'.nodeIn v = (s.bo b).nodeIn v) :
    HeapMapped (s.setBo b bo') := by
  intro w c
  refine (h w c).keep hs ?_ (fun node hn => ?_) fun vm hvm _ =>
    ⟨vm, hvm, fun _ _ _ _ _ => rfl⟩
  · by_cases hc : c = b
    · subst hc
      simpa using hbo
    · simpa [Function.update_of_ne hc] using Bo.SameHeap.refl (s.bo c)
  · by_cases hc : c = b
    · subst hc
      simpa [Sys.node, hnode] using hn
    · simpa [Sys.node, Function.update_of_ne hc] using hn

/-- A change of the entries of `v` outside the mapped part of its heaps. -/
theorem HeapMapped.setVm (h : HeapMapped s) (hs : SpaceOk cfg s) {vm vm' : Vm}
    (hvm : s.vm v = some vm)
    (hentry : ∀ c t i, s.node v c = some t → i < (s.bo c).heapSize / 4096 →
      t.HasPage (t.start / 4096 + i) →
        vm'.entry (t.start / 4096 + i) = vm.entry (t.start / 4096 + i)) :
    HeapMapped (s.setVm v vm') := by
  intro w c
  refine (h w c).keep hs (.refl _) (fun _ hn => hn) fun vm₁ hvm₁ _ => ?_
  by_cases hwv : w = v
  · subst hwv
    obtain rfl : vm' = vm₁ := by simpa using hvm₁
    exact ⟨vm, hvm, fun t i ht hi hp => hentry c t i ht hi hp⟩
  · exact ⟨vm₁, by simpa [Function.update_of_ne hwv] using hvm₁,
      fun _ _ _ _ _ => rfl⟩

/-! ## Creation, opening and closing -/

theorem HeapMapped.create (h : HeapMapped s) (hs : SpaceOk cfg s)
    (early kzallocOk : Bool) (pdAlloc : Option ℕ) (dmaAlloc : ℕ → Option ℕ) :
    HeapMapped (limaVmCreate (cfg.dev early) kzallocOk pdAlloc dmaAlloc s).1 := by
  unfold limaVmCreate
  split
  · exact h
  intro w c
  refine (h w c).keep hs (.refl _) (fun _ hn => hn) fun vm₁ hvm₁ hn => ?_
  -- no object is listed in the new address space yet
  have hw : w ≠ s.numVms := by
    rintro rfl
    obtain ⟨node, hn⟩ := Option.ne_none_iff_exists'.mp hn
    obtain ⟨vm, hvm, -⟩ := hs.live _ c node hn
    rw [hs.unused _ le_rfl] at hvm
    cases hvm
  have hold : Function.update s.vm s.numVms _ w = some vm₁ := hvm₁
  rw [Function.update_of_ne hw] at hold
  exact ⟨vm₁, hold, fun _ _ _ _ _ => rfl⟩

/-- Reserving a node in `v` and mapping the whole heap there. -/
theorem HeapMapped.insert (h : HeapMapped s) (hs : SpaceOk cfg s) {vm vm' : Vm}
    {node : DrmMmNode} {pas : List ℕ} (hi : Insertion s v b vm node pas)
    {dmaAlloc : ℕ → Option ℕ}
    (hrun : MapRun dmaAlloc (node.start / 4096 + 0) (pas.drop 0) pas.length
      (vm.insertNode node) vm') :
    HeapMapped ((s.insert v b vm node).setVm v vm') := by
  have hbo : ∀ c, (s.bo c).SameHeap ((s.insert v b vm node).bo c) := by
    intro c
    obtain ⟨va, hva⟩ := s.relist_bo v b (vm.insertNode node)
      ((s.bo b).va ++ [⟨v, 1, node⟩]) c
    rw [Sys.insert, hva]
    exact ⟨rfl, rfl, rfl⟩
  have hentry := (hi.space hs).mapped_entry node hi.sgt_insert
    (by omega : 0 + pas.length ≤ pas.length) hrun
  intro w c
  by_cases hwv : w = v
  · subst hwv
    by_cases hc : c = b
    · -- the heap itself: its sg table has all of its pages
      subst hc
      intro vm₁ t hvm₁ ht hheap
      obtain rfl : vm' = vm₁ := by simpa using hvm₁
      obtain rfl := Option.some.inj (hi.node_self.symm.trans ht)
      simp only [Sys.setVm_bo] at hheap ⊢
      rw [(hbo c).heapSize]
      rw [(hbo c).isHeap] at hheap
      intro i hlt
      obtain ⟨bytes, -, rfl, hbytes⟩ := (hs.bo c).sgt pas hi.sgt
      have hmapped := hentry (node.start / 4096 + i)
      rw [if_pos, Nat.add_sub_cancel_left] at hmapped
      · exact hmapped
      · simp only [Bo.sgTable, List.length_map, List.length_range, limaPageSize, hbytes hheap]
        omega
    · refine (h w c).keep hs (hbo c) (fun t ht => (hi.node_of_ne hc).symm.trans ht)
        fun vm₁ hvm₁ _ => ⟨vm, hi.vm_eq, fun t i ht _ hp => ?_⟩
      obtain rfl : vm' = vm₁ := by simpa using hvm₁
      have hout := hentry (t.start / 4096 + i)
      rw [if_neg (by simpa using hi.page_free hs ht hp)] at hout
      exact hout
  · have hnode : (s.insert v b vm node).node w = s.node w :=
      Sys.relist_node_of_ne (limaVmBoFind_append_of_ne hwv _ _)
    refine (h w c).keep hs (hbo c) (fun t ht => (congrFun hnode c).symm.trans ht)
      fun vm₁ hvm₁ _ => ⟨vm₁, ?_, fun _ _ _ _ _ => rfl⟩
    rw [Sys.setVm_vm, Function.update_of_ne hwv] at hvm₁
    exact (Sys.relist_vm_of_ne hwv).symm.trans hvm₁

theorem HeapMapped.boAdd (h : HeapMapped s) (hs : SpaceOk cfg s) {env : BoAddEnv}
    {fuel : ℕ} {make : Bool} {r : Option Errno}
    (hp : HeapPromise s (.boAdd env v b make))
    (hcall : limaVmBoAdd env fuel s v b make = .ok (s', r)) : HeapMapped s' := by
  obtain rfl | rfl | ⟨-, vm, node, pas, vm', hi, ⟨rfl, hrun⟩ |
    ⟨rfl, -, -, -, n, hn, hentry⟩⟩ := hs.boAdd_effect hp.1 hcall
  · exact h.setBo hs ⟨rfl, rfl, rfl⟩
      (Bo.nodeIn_modify (f := BoVa.addRef) (fun _ => rfl) (fun _ => rfl) _)
  · exact h
  · exact h.insert hs hi hrun
  · refine h.setVm hs hi.vm_eq fun c t i ht _ hq => ?_
    rw [hentry]
    refine fill_of_not_mem fun hin => ?_
    exact hi.page_free hs ht hq ⟨hin.1, by omega⟩

theorem HeapMapped.boDel (h : HeapMapped s) (hs : SpaceOk cfg s) {fuel : ℕ}
    {touched : List ℕ} (hcall : limaVmBoDel fuel s v b = .ok (s', touched)) :
    HeapMapped s' := by
  obtain ⟨x, hx, ⟨-, rfl⟩ | ⟨-, vm, u, hvm, hu, rfl⟩⟩ := limaVmBoDel_cases hcall
  · exact h.setBo hs ⟨rfl, rfl, rfl⟩
      (Bo.nodeIn_modify (f := BoVa.dropRef) (fun _ => rfl) (fun _ => rfl) _)
  have hr := hs.removal hx hvm hu
  have hn : s.node v b = some x.node := Bo.nodeIn_of_find hx
  have hnd := (hs.bo b).nodup
  change HeapMapped (s.relist v b (u.vm.removeNode x.node) (removeBoVa v (s.bo b).va))
  intro w c
  obtain ⟨va, hva⟩ := s.relist_bo v b (u.vm.removeNode x.node)
    (removeBoVa v (s.bo b).va) c
  have hbo : (s.bo c).SameHeap
      ((s.relist v b (u.vm.removeNode x.node) (removeBoVa v (s.bo b).va)).bo c) := by
    rw [hva]
    exact ⟨rfl, rfl, rfl⟩
  by_cases hwv : w = v
  · subst hwv
    have hnode : (s.relist w b (u.vm.removeNode x.node) (removeBoVa w (s.bo b).va)).node w =
        Function.update (s.node w) b none := by
      rw [Sys.relist_node_self, limaVmBoFind_remove hnd, if_pos rfl]
      rfl
    by_cases hc : c = b
    · subst hc
      intro vm₁ t _ ht
      simp [hnode] at ht
    refine (h w c).keep hs hbo (fun t ht => ?_) fun vm₁ hvm₁ _ =>
      ⟨vm, hvm, fun t i ht _ hp => ?_⟩
    · rw [hnode] at ht
      rwa [Function.update_of_ne hc] at ht
    · obtain rfl := Option.some.inj ((s.relist_vm_self w b _ _).symm.trans hvm₁)
      rcases hr.entry (t.start / 4096 + i) with heq | ⟨-, hpx⟩
      · exact heq
      · exact absurd ((hs.apart w).owner_unique ht hn hp hpx) hc
  · have hother : limaVmBoFind w (removeBoVa v (s.bo b).va) =
        limaVmBoFind w (s.bo b).va := by
      rw [limaVmBoFind_remove hnd, if_neg hwv]
    refine (h w c).keep hs hbo
      (fun t ht => (congrFun (Sys.relist_node_of_ne hother) c).symm.trans ht)
      fun vm₁ hvm₁ _ => ⟨vm₁, ?_, fun _ _ _ _ _ => rfl⟩
    rwa [Sys.relist_vm_of_ne hwv] at hvm₁

/-! ## Growth -/

theorem readHeapPages_read {readPage : ℕ → Option Errno} :
    ∀ {n i : ℕ} {bo bo' : Bo}, readHeapPages readPage n i bo = (bo', none) →
      ∀ k, i ≤ k → k < i + n → readPage k = none
  | 0, i, bo, bo', h => by
      intro k hk hlt
      omega
  | n + 1, i, bo, bo', h => by
      intro k hk hlt
      rw [readHeapPages] at h
      split at h
      · cases congrArg Prod.snd h
      · rename_i hread
        rcases eq_or_lt_of_le hk with rfl | hlt'
        · exact hread
        · exact readHeapPages_read h k hlt' (by omega)

theorem Bo.heapSize_div_le_grownSize_div (bo : Bo) (h : bo.heapSize ≤ bo.size)
    (initNrPages : ℕ) :
    bo.heapSize / limaPageSize ≤ bo.grownSize initNrPages / limaPageSize :=
  Nat.div_le_div_right (Bo.heapSize_le_grownSize h initNrPages)

theorem readHeapPages_failed {readPage : ℕ → Option Errno} {e : Errno} :
    ∀ {n i : ℕ} {bo bo' : Bo}, readHeapPages readPage n i bo = (bo', some e) →
      ∃ k, i ≤ k ∧ k < i + n ∧ readPage k ≠ none
  | 0, i, bo, bo', h => by cases congrArg Prod.snd h
  | n + 1, i, bo, bo', h => by
      rw [readHeapPages] at h
      split at h
      · rename_i hread
        exact ⟨i, le_rfl, by omega, by simp [hread]⟩
      · obtain ⟨k, hlo, hhi, hk⟩ := readHeapPages_failed h
        exact ⟨k, by omega, by omega, hk⟩

theorem readHeapPages_pages {readPage : ℕ → Option Errno} :
    ∀ {n i : ℕ} {bo bo' : Bo} {r : Option Errno},
      readHeapPages readPage n i bo = (bo', r) → bo'.pages.isSome = bo.pages.isSome
  | 0, i, bo, bo', r, h => by
      obtain rfl : bo = bo' := congrArg Prod.fst h
      rfl
  | n + 1, i, bo, bo', r, h => by
      rw [readHeapPages] at h
      split at h
      · obtain rfl : bo = bo' := congrArg Prod.fst h
        rfl
      · rw [readHeapPages_pages h]
        simp

theorem Bo.allocPages_pages {bo bo' : Bo} {ok : Bool} (h : bo.allocPages ok = some bo') :
    (bo.pages.isSome = true ∨ ok = true) ∧ bo'.pages.isSome = true := by
  unfold Bo.allocPages at h
  split at h
  · rename_i hp
    obtain rfl := Option.some.inj h
    simp [hp]
  · split at h
    · rename_i hok
      obtain rfl := Option.some.inj h
      exact ⟨.inr hok, rfl⟩
    · cases h

/-- A completed `lima_heap_alloc` that has no sg table yet has changed the record of the
pages at most; what it does with the table depends on the DMA mapping of it and on
`lima_vm_map_bo`. -/
theorem limaHeapAlloc_tabled {initNrPages : ℕ} {env : HeapEnv} {fuel : ℕ}
    {vm : Option VmId} {r : Option Errno}
    (h : limaHeapAlloc initNrPages env fuel s b vm = .ok (s', r)) :
    ∃ bo, (s.bo b).SameButPages bo ∧
      ((s.bo b).pages.isSome = true → bo.pages.isSome = true) ∧
      (¬ (s.bo b).Tabled initNrPages env ∧ r ≠ none ∧ s' = s.setBo b bo ∨
      (s.bo b).Tabled initNrPages env ∧ bo.pages.isSome = true ∧
        (env.dmaMap ≠ none ∧ r ≠ none ∧ s' = s.setBo b { bo with sgt := none } ∨
        env.dmaMap = none ∧ (vm = none ∧ r = none ∧ s' = s.setBo b
            { bo.withTable ((s.bo b).grownSize initNrPages) with
              heapSize := (s.bo b).grownSize initNrPages } ∨
          ∃ v s₁, vm = some v ∧ limaVmMapBo env.dmaAlloc fuel
              (s.setBo b (bo.withTable ((s.bo b).grownSize initNrPages))) v b
              ((s.bo b).heapSize / limaPageSize) = .ok (s₁, r) ∧
            (r = none ∧ s' = s₁.setBo b
              { bo.withTable ((s.bo b).grownSize initNrPages) with
                heapSize := (s.bo b).grownSize initNrPages } ∨
            r ≠ none ∧ s' = s₁.setBo b { bo with sgt := none })))) := by
  have hsame : s = s.setBo b (s.bo b) := by simp [Sys.setBo]
  unfold limaHeapAlloc at h
  simp only at h
  split at h
  · rename_i hfull
    obtain ⟨rfl, rfl⟩ := Prod.mk.inj (Outcome.ok.inj h)
    exact ⟨s.bo b, rfl, id, .inl ⟨fun ht => absurd ht.room (by omega), by simp, hsame⟩⟩
  rename_i hroom
  split at h
  · rename_i hfilp
    obtain ⟨rfl, rfl⟩ := Prod.mk.inj (Outcome.ok.inj h)
    exact ⟨s.bo b, rfl, id, .inl ⟨fun ht => by simp [ht.filp] at hfilp, by simp, hsame⟩⟩
  rename_i hfilp
  split at h
  · rename_i hpages
    obtain ⟨rfl, rfl⟩ := Prod.mk.inj (Outcome.ok.inj h)
    refine ⟨s.bo b, rfl, id, .inl ⟨fun ht => ?_, by simp, hsame⟩⟩
    unfold Bo.allocPages at hpages
    have hkv := ht.pages
    split at hpages
    · cases hpages
    · rename_i hnone
      rcases hkv with hk | hk
      · simp [hnone] at hk
      · simp [hk] at hpages
  rename_i bo₁ halloc
  obtain ⟨hkv, hpages₁⟩ := Bo.allocPages_pages halloc
  have hsize : min ((s.bo b).heapNewSize initNrPages) (s.bo b).size =
      (s.bo b).grownSize initNrPages := rfl
  rw [hsize] at h
  have hle := (s.bo b).heapSize_div_le_grownSize_div (not_le.mp hroom).le initNrPages
  split at h
  · rename_i bo e hread
    obtain ⟨rfl, rfl⟩ := Prod.mk.inj (Outcome.ok.inj h)
    refine ⟨bo, (Bo.allocPages_same halloc).trans (readHeapPages_same hread),
      fun _ => (readHeapPages_pages hread).trans hpages₁, .inl ⟨fun ht => ?_, by simp, rfl⟩⟩
    obtain ⟨k, hlo, hhi, hk⟩ := readHeapPages_failed hread
    exact hk (ht.read k hlo (by omega))
  rename_i bo hread
  have hbo := (Bo.allocPages_same halloc).trans (readHeapPages_same hread)
  have hpages : bo.pages.isSome = true := (readHeapPages_pages hread).trans hpages₁
  have hsgt : bo.sgt = (s.bo b).sgt := by rw [hbo]
  refine ⟨bo, hbo, fun _ => hpages, ?_⟩
  split at h
  · rename_i e hsg
    obtain ⟨rfl, rfl⟩ := Prod.mk.inj (Outcome.ok.inj h)
    exact .inl ⟨fun ht => by simp [ht.sgAlloc] at hsg, by simp, rfl⟩
  rename_i hsg
  rw [hsgt] at h
  split at h
  · rename_i hk
    obtain ⟨rfl, rfl⟩ := Prod.mk.inj (Outcome.ok.inj h)
    refine .inl ⟨fun ht => ?_, by simp, rfl⟩
    obtain ⟨hnone, hkm⟩ : (s.bo b).sgt = none ∧ env.sgtKmallocOk = false := by simpa using hk
    simpa [hnone, hkm] using ht.sgt
  rename_i hk
  have htabled : (s.bo b).Tabled initNrPages env := by
    refine ⟨not_le.mp hroom, by simpa using hfilp, hkv,
      fun i hlo hhi => readHeapPages_read hread i hlo (by omega), hsg, ?_⟩
    cases hs : (s.bo b).sgt with
    | some pas => exact .inl rfl
    | none =>
        right
        by_contra hkm
        exact hk (by simp [hs, hkm])
  refine .inr ⟨htabled, hpages, ?_⟩
  split at h
  · rename_i e hdma
    obtain ⟨rfl, rfl⟩ := Prod.mk.inj (Outcome.ok.inj h)
    exact .inl ⟨by simp [hdma], by simp, rfl⟩
  rename_i hdma
  refine .inr ⟨hdma, ?_⟩
  split at h
  · obtain ⟨rfl, rfl⟩ := Prod.mk.inj (Outcome.ok.inj h)
    exact .inl ⟨rfl, rfl, rfl⟩
  rename_i v
  obtain ⟨⟨s₁, r₁⟩, hmap, hres⟩ := Outcome.bind_eq_ok h
  refine .inr ⟨v, s₁, rfl, ?_⟩
  cases r₁ with
  | none =>
      obtain ⟨rfl, rfl⟩ := Prod.mk.inj (Outcome.ok.inj hres)
      exact ⟨hmap, .inl ⟨rfl, rfl⟩⟩
  | some e =>
      obtain ⟨rfl, rfl⟩ := Prod.mk.inj (Outcome.ok.inj hres)
      exact ⟨hmap, .inr ⟨by simp, rfl⟩⟩

/-- A page that has been mapped could be mapped. -/
theorem MapRun.canMap {dmaAlloc : ℕ → Option ℕ} {p n : ℕ} {pas : List ℕ} {vm vm' : Vm}
    (h : MapRun dmaAlloc p pas n vm vm') {k : ℕ} (hk : k < n) :
    vm.CanMap dmaAlloc (p + k) (pas.getD k 0) := by
  refine ⟨h.low k hk, ?_⟩
  obtain ⟨bt, hbt⟩ := Option.isSome_iff_exists.mp (h.table k hk)
  have hdma : vm'.btDma ((p + k) / 8192) = some bt.dma := by simp [Vm.btDma, hbt]
  rcases h.frame.btDma ((p + k) / 8192) with hsame | ⟨-, hnew, hfits⟩
  · left
    rw [hdma] at hsame
    cases hold : vm.bts ((p + k) / 8192) with
    | none => simp [Vm.btDma, hold] at hsame
    | some bt' => simp [Vm.HasTable, hold]
  · rw [hdma] at hnew
    exact .inr ⟨bt.dma, hnew.symm, hfits _ hnew.symm⟩

/-- **A growth for a task goes through if and only if nothing it asks for is refused.** -/
theorem Isolated.grows_iff (hi : Isolated cfg s) (hheap : (s.bo b).isHeap = true)
    {initNrPages : ℕ} {env : HeapEnv} {fuel : ℕ} {r : Option Errno}
    (hcall : limaHeapAlloc initNrPages env fuel s b (some v) = .ok (s', r)) :
    r = none ↔ s.CanGrow initNrPages env v b := by
  obtain ⟨bo, hsame, -, ⟨hnot, hr, -⟩ | ⟨htabled, -, ⟨hdma, hr, -⟩ |
    ⟨hdma, ⟨hv, -⟩ | ⟨w, s₁, hv, hmap, -⟩⟩⟩⟩ := limaHeapAlloc_tabled hcall
  · exact ⟨fun h => absurd h hr, fun h => absurd h.served.toTabled hnot⟩
  · exact ⟨fun h => absurd h hr, fun h => absurd h.served.dmaMap hdma⟩
  · cases hv
  obtain rfl := Option.some.inj hv
  have hgrown := (hi.space.bo b).grown hsame hheap initNrPages
  have hg := (hi.setBo hgrown.1 hgrown.2).space
  have hnode := Sys.setBo_node hgrown.1 v
  -- the pages to map are those of the new part
  have hlen : (bo.sgTable ((s.bo b).grownSize initNrPages)).length =
      (s.bo b).grownSize initNrPages / limaPageSize := by simp [Bo.sgTable]
  have hdmas : bo.pageDma = (s.bo b).pageDma := by rw [hsame]
  have hget : ∀ k, (s.bo b).heapSize / limaPageSize + k <
      (s.bo b).grownSize initNrPages / limaPageSize →
      ((bo.sgTable ((s.bo b).grownSize initNrPages)).drop
        ((s.bo b).heapSize / limaPageSize)).getD k 0 =
          (s.bo b).pageDma ((s.bo b).heapSize / limaPageSize + k) := by
    intro k hk
    rw [List.getD_eq_getElem?_getD, List.getElem?_drop]
    simp [Bo.sgTable, hk, hdmas]
  obtain ⟨hr, -, hnone⟩ | ⟨node, vm, pas, vm', hn, hvm, hsgt, -, hout⟩ :=
    hg.growIn_effect (bo.withTable _) rfl rfl hmap
  · rw [hnode] at hnone
    exact ⟨fun h => absurd h hr, fun h => absurd hnone h.held⟩
  rw [hnode] at hn
  obtain rfl := Option.some.inj hsgt
  obtain ⟨rfl, hrun⟩ | ⟨hr, -, -, k, hk, hbad⟩ := hout
  · refine ⟨fun _ => ⟨⟨htabled, hdma⟩, by simp [hn], ?_⟩, fun _ => rfl⟩
    intro vm₁ t hvm₁ ht i hlo hhi
    obtain rfl := Option.some.inj (hvm.symm.trans hvm₁)
    obtain rfl := Option.some.inj (hn.symm.trans ht)
    obtain ⟨k, rfl⟩ := Nat.exists_eq_add_of_le hlo
    have hcan := hrun.canMap (k := k) (by rw [hlen, limaPageSize]; omega)
    rwa [hget k (by rw [limaPageSize]; exact hhi), Nat.add_assoc] at hcan
  · refine ⟨fun h => absurd h hr, fun h => absurd ?_ hbad⟩
    rw [hlen] at hk
    rw [hget k (by omega), Nat.add_assoc]
    exact h.map vm node hvm hn _ (by rw [limaPageSize]; omega)
      (by rw [limaPageSize] at hk ⊢; omega)

/-- A growth that ends well in `v`, where alone the heap is held, maps the new pages. -/
theorem HeapMapped.grown (h : HeapMapped s) (hs : SpaceOk cfg s) {grown : Bo}
    (hview : (s.bo b).SameView grown) (hg : SpaceOk cfg (s.setBo b grown))
    (hheap : (s.bo b).isHeap = true) (hroom : (s.bo b).heapSize ≤ grown.heapSize)
    {dmaAlloc : ℕ → Option ℕ} {node : DrmMmNode} {pas : List ℕ} {vm vm' : Vm}
    (hn : (s.setBo b grown).node v b = some node) (hvm : s.vm v = some vm)
    (hsgt : grown.sgt = some pas)
    (hrun : MapRun dmaAlloc (node.start / 4096 + (s.bo b).heapSize / limaPageSize)
      (pas.drop ((s.bo b).heapSize / limaPageSize))
      (pas.length - (s.bo b).heapSize / limaPageSize) vm vm')
    (halone : ∀ w ≠ v, s.node w b = none) :
    HeapMapped ((s.setBo b grown).setVm v vm') := by
  have hnode := Sys.setBo_node hview
  have hsgt' : ((s.setBo b grown).bo b).sgt = some pas := by simpa using hsgt
  have hn' : s.node v b = some node := by rwa [← hnode]
  have hisHeap : grown.isHeap = true := hview.isHeap.trans hheap
  -- the sg table has the pages of the new size
  have hlen : pas.length = grown.heapSize / 4096 := by
    have hok : grown.Ok := by simpa using hg.bo b
    obtain ⟨bytes, -, rfl, hbytes⟩ := hok.sgt pas hsgt
    simp [Bo.sgTable, limaPageSize, hbytes hisHeap]
  have hoff : (s.bo b).heapSize / limaPageSize ≤ pas.length := by
    rw [hlen, limaPageSize]
    omega
  have hentry := hg.mapped_entry node hsgt' (by omega) hrun
  intro w c
  by_cases hc : c = b
  · subst hc
    by_cases hwv : w = v
    · subst hwv
      intro vm₁ t hvm₁ ht _
      obtain rfl : vm' = vm₁ := by simpa using hvm₁
      obtain rfl := Option.some.inj (hn.symm.trans ht)
      simp only [Sys.setVm_bo, Sys.setBo_bo, Function.update_self] at hentry ⊢
      intro i hi
      have hnew := hentry (node.start / 4096 + i)
      rw [Nat.add_sub_cancel_left] at hnew
      split at hnew
      · exact hnew
      · rename_i hold
        rw [hnew, hview.pageDma]
        refine h w c vm node hvm hn' hheap i ?_
        rw [limaPageSize] at hold hoff
        omega
    · intro vm₁ t _ ht
      have hnone := halone w hwv
      rw [← hnode w] at hnone
      cases hnone.symm.trans ht
  · have hbo : (s.setBo b grown).bo c = s.bo c := by simp [Function.update_of_ne hc]
    refine (h w c).keep hs (by simpa [hbo] using Bo.SameHeap.refl (s.bo c))
      (fun t ht => (congrFun (hnode w) c).symm.trans ht) fun vm₁ hvm₁ _ => ?_
    by_cases hwv : w = v
    · subst hwv
      obtain rfl : vm' = vm₁ := by simpa using hvm₁
      refine ⟨vm, hvm, fun t i ht _ hp => ?_⟩
      have hout := hentry (t.start / 4096 + i)
      rw [if_neg] at hout
      · exact hout
      · -- a page of another object is not a page of the heap
        intro hin
        rw [limaPageSize] at hin hoff
        have hqn := hg.hasPage hn hsgt'
          (by omega : t.start / 4096 + i - node.start / 4096 < pas.length)
        rw [Nat.add_sub_cancel' (by omega)] at hqn
        exact hc ((hs.apart w).owner_unique ht hn' hp hqn)
    · exact ⟨vm₁, by simpa [Function.update_of_ne hwv] using hvm₁,
        fun _ _ _ _ _ => rfl⟩

/-- A growth that fails in `v` clears entries beyond the heap only. -/
theorem HeapMapped.cleared (h : HeapMapped s) (hs : SpaceOk cfg s) {node : DrmMmNode}
    (hn : s.node v b = some node) {vm vm' : Vm} (hvm : s.vm v = some vm) {n : ℕ}
    (hsize : (s.bo b).heapSize / 4096 + n ≤ (s.bo b).size / 4096)
    (hentry : vm'.entry =
      fill vm.entry (node.start / 4096 + (s.bo b).heapSize / limaPageSize) n fun _ => 0) :
    HeapMapped (s.setVm v vm') := by
  obtain ⟨vm₁, -, -, hnsize, hin⟩ := hs.live v b node hn
  have hdvd := hin.start_dvd
  refine h.setVm hs hvm fun c t i ht hi hp => ?_
  rw [hentry]
  refine fill_of_not_mem fun hr => ?_
  rw [limaPageSize] at hr
  have hqn : node.HasPage (t.start / 4096 + i) := by
    unfold DrmMmNode.HasPage
    omega
  obtain rfl := (hs.apart v).owner_unique ht hn hp hqn
  obtain rfl := Option.some.inj (ht.symm.trans hn)
  omega

/-- A change of an object that no address space holds. -/
theorem HeapMapped.setBo_unheld (h : HeapMapped s) {bo' : Bo}
    (hnode : ∀ v, bo'.nodeIn v = none) : HeapMapped (s.setBo b bo') := by
  intro w c vm t hvm ht hheap
  by_cases hc : c = b
  · subst hc
    simp [Sys.node, hnode] at ht
  · have hbo : (s.setBo b bo').bo c = s.bo c := by simp [Function.update_of_ne hc]
    rw [hbo] at hheap ⊢
    exact h w c vm t hvm (by simpa [Sys.node, hbo] using ht) hheap

theorem HeapMapped.heapAlloc (h : HeapMapped s) (hi : Isolated cfg s) {initNrPages : ℕ}
    {env : HeapEnv} {fuel : ℕ} {vm : Option VmId} {r : Option Errno}
    (hp : HeapPromise s (.heapAlloc env b vm))
    (hok : GrowsAlone initNrPages s (.heapAlloc env b vm))
    (hcall : limaHeapAlloc initNrPages env fuel s b vm = .ok (s', r)) : HeapMapped s' := by
  have hheap : (s.bo b).isHeap = true := hp.1
  have hbo := hi.space.bo b
  obtain ⟨e, -, rfl, -⟩ | ⟨hroom, bo, hread, hcase⟩ := limaHeapAlloc_cases hcall
  · exact h
  have hsame := hread.same
  have hdrop := hbo.dropTable hsame hheap
  have hgrown := hbo.grown hsame hheap initNrPages
  have hkept : (s.bo b).SameHeap { bo with sgt := none } := by
    rw [hsame]
    exact ⟨rfl, rfl, rfl⟩
  have hg := (hi.setBo hgrown.1 hgrown.2).space
  obtain ⟨e, -, rfl | rfl⟩ | ⟨rfl, -, rfl⟩ | ⟨v, s₁, rfl, hmap, hend⟩ := hcase
  · exact h.setBo hi.space ⟨hkept.isHeap, hkept.heapSize, hkept.pageDma⟩ hsame.nodeIn
  · exact h.setBo hi.space hkept hdrop.1.node
  · -- creation: no address space holds the object
    have hva : (s.bo b).va = [] := hp.2
    refine h.setBo_unheld fun v => (hgrown.1.node v).trans ?_
    simp [Bo.nodeIn, hva, limaVmBoFind]
  have heff := hg.growIn_effect (bo.withTable _) rfl rfl hmap
  obtain ⟨rfl, rfl⟩ | ⟨hr, rfl⟩ := hend
  · obtain ⟨hr, -⟩ | ⟨node, vm, pas, vm', hn, hvm, hsgt, hset, ⟨-, hrun⟩ | ⟨hr, -⟩⟩ := heff
    · exact absurd rfl hr
    · have hlt := Bo.heapSize_le_grownSize hroom.le initNrPages
      rw [hset]
      exact h.grown hi.space hgrown.1 hg hheap hlt hn hvm hsgt hrun
        (hok ((hi.grows_iff hheap hcall).mp rfl))
    · exact absurd rfl hr
  · have hd := hi.setBo hdrop.1 hdrop.2
    have hmd : HeapMapped (s.setBo b { bo with sgt := none }) :=
      h.setBo hi.space hkept hdrop.1.node
    obtain ⟨-, rfl, -⟩ | ⟨node, vm, pas, vm', hn, hvm, hsgt, hset, ⟨hr', -⟩ |
      ⟨-, -, ⟨n, hlt, hentry⟩, -⟩⟩ := heff
    · rwa [Sys.setBo, Sys.setBo, Function.update_idem]
    · exact absurd hr' hr
    · rw [hset]
      have hn' : (s.setBo b { bo with sgt := none }).node v b = some node := by
        rw [Sys.setBo_node hdrop.1, ← Sys.setBo_node hgrown.1]
        exact hn
      obtain rfl := Option.some.inj hsgt
      have hle := (s.bo b).grownSize_le initNrPages
      have hsize : ({ bo with sgt := none } : Bo).size = (s.bo b).size := hdrop.1.size
      have hheapSize : ({ bo with sgt := none } : Bo).heapSize = (s.bo b).heapSize :=
        hkept.heapSize
      refine hmd.cleared hd.space hn' hvm (n := n) ?_ ?_
      · simp only [Sys.setBo_bo, Function.update_self, hsize, hheapSize]
        simp only [Bo.sgTable, List.length_map, List.length_range, limaPageSize] at hlt
        omega
      · simp only [Sys.setBo_bo, Function.update_self, hheapSize]
        exact hentry

end Keep

/-! ## Runs -/

theorem HeapMapped.init {s : Sys} (h : ∀ v, s.vm v = none) : HeapMapped s := by
  intro v b vm node hvm
  rw [h v] at hvm
  cases hvm

/-- **Step lemma.** A call that meets the condition keeps every heap mapped. -/
theorem HeapMapped.step {cfg : VmConfig} {s s' : Sys} {c : VmCall} (h : HeapMapped s)
    (hi : Isolated cfg s) (hp : HeapPromise s c) (hok : GrowsAlone cfg.initNrPages s c)
    (hret : c.Returns cfg s s') : HeapMapped s' := by
  cases c with
  | create early kz pd dma =>
      rw [hret]
      exact h.create hi.space early kz pd dma
  | boAdd env v b make =>
      obtain ⟨fuel, r, hret⟩ := hret
      exact h.boAdd hi.space hp hret
  | boDel v b =>
      obtain ⟨fuel, touched, hret⟩ := hret
      exact h.boDel hi.space hret
  | mapBo dma v b pageoff => exact absurd hp.2 id
  | heapAlloc env b vm =>
      obtain ⟨fuel, r, hret⟩ := hret
      exact h.heapAlloc hi hp hok hret

/-- **Run lemma.** -/
theorem HeapMapped.of_via {cfg : VmConfig} {s : Sys}
    (hs : (vmLts cfg Bo.Fresh HeapPromise).Via (GrowsAlone cfg.initNrPages) s) :
    Isolated cfg s ∧ HeapMapped s := by
  induction hs with
  | init h => exact ⟨.init h.1 h.2.2, .init h.1⟩
  | step _ hok h ih => exact ⟨ih.1.step h.1.1 h.2, ih.2.step ih.1 h.1 hok h.2⟩

/-! ## A heap across two table blocks, held by two address spaces -/

/-- A Mali-400 whose heaps start with one page. -/
def onePageHeapConfig : VmConfig := ⟨.mali400, 0, 1⟩

def sharedHeap : Bo where
  size := 8192
  isHeap := true
  heapSize := 0
  filp := true
  pageDma := fun i => 0x40000000 + 4096 * i
  sgt := none
  pages := none
  wires := fun _ => 0
  pagesUseCount := 0
  va := []

/-- Backing tables for the first address space, and for the second. -/
def tablesOf (v k : ℕ) : Option ℕ := some (0x50000000 + 0x1000000 * v + 0x8000 * k)

def growHeapEnv : HeapEnv := ⟨true, fun _ => none, none, true, none, tablesOf 0⟩

def twoVmSys : Sys :=
  let s := (limaVmCreate (onePageHeapConfig.dev false) true (some 0x48000000) (tablesOf 0)
    (.fresh sharedHeap)).1
  (limaVmCreate (onePageHeapConfig.dev false) true (some 0x48001000) (tablesOf 1) s).1

/-- The heap created, with its first page. -/
def createdHeapSys : Sys :=
  match limaHeapAlloc 1 growHeapEnv 0 twoVmSys 0 none with
  | .ok (s, _) => s
  | _ => twoVmSys

/-- The heap opened in `v`, its first page the last one of a 32 MiB block. -/
def openHeap (s : Sys) (v : VmId) : Sys :=
  match limaVmBoAdd ⟨true, some 0x1FFF000, tablesOf v⟩ 0 s v 0 true with
  | .ok (s, _) => s
  | _ => s

def sharedHeapSys : Sys := openHeap (openHeap createdHeapSys 0) 1

abbrev sharedHeapLts : Lts Sys VmCall := vmLts onePageHeapConfig Bo.Fresh HeapPromise

/-- Both address spaces open the heap, in a run whose calls a condition `ok` permits. -/
theorem sharedHeapSys_via {ok : Sys → VmCall → Prop}
    (hcreate : ∀ s early kz pd dma, ok s (.create early kz pd dma))
    (hadd : ∀ s env v b make, ok s (.boAdd env v b make))
    (halloc : ok twoVmSys (.heapAlloc growHeapEnv 0 none)) :
    sharedHeapLts.Via ok (openHeap createdHeapSys 0) ∧ sharedHeapLts.Via ok sharedHeapSys := by
  have hfresh : sharedHeap.Fresh :=
    ⟨by decide, rfl, fun pas h => (by cases h), rfl⟩
  have hstep : ∀ {s : Sys}, sharedHeapLts.Via ok s → ∀ (s' : Sys) (c : VmCall), ok s c →
      HeapPromise s c → c.Returns onePageHeapConfig s s' → sharedHeapLts.Via ok s' :=
    fun hs _ _ hok hp hret => .step hs hok ⟨hp, hret⟩
  have hplaced : DrmMmNode.Within ⟨0x1FFF000, 8192⟩ 0 (0 + 2 ^ 32) :=
    ⟨by decide, by decide, by decide, by decide, by decide⟩
  have hinit : sharedHeapLts.Via ok (.fresh sharedHeap) :=
    .init ⟨fun _ => rfl, rfl, fun _ => hfresh⟩
  have hzero := hstep hinit _ (.create false true (some 0x48000000) (tablesOf 0))
    (hcreate ..) ⟨trivial, trivial⟩ rfl
  have hone := hstep hzero twoVmSys (.create false true (some 0x48001000) (tablesOf 1))
    (hcreate ..) ⟨trivial, trivial⟩ rfl
  have hheap := hstep hone createdHeapSys (.heapAlloc growHeapEnv 0 none) halloc ⟨rfl, rfl⟩
    ⟨0, none, rfl⟩
  have hopen := hstep hheap (openHeap createdHeapSys 0)
    (.boAdd ⟨true, some 0x1FFF000, tablesOf 0⟩ 0 0 true) (hadd ..)
    ⟨fun vm start hvm hstart => ?_, trivial⟩ ⟨0, none, rfl⟩
  · refine ⟨hopen, hstep hopen sharedHeapSys
      (.boAdd ⟨true, some 0x1FFF000, tablesOf 1⟩ 1 0 true) (hadd ..)
      ⟨fun vm start hvm hstart => ?_, trivial⟩ ⟨0, none, rfl⟩⟩
    obtain rfl := Option.some.inj hstart
    obtain rfl := Option.some.inj hvm
    exact ⟨hplaced, fun t ht => by cases ht⟩
  · obtain rfl := Option.some.inj hstart
    obtain rfl := Option.some.inj hvm
    exact ⟨hplaced, fun t ht => by cases ht⟩

end Lima
