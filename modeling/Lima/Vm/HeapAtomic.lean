import Lima.Vm.HeapMapped

/-!
# What a failed growth leaves behind

`lima_heap_alloc` frees the old sg table before the new one is DMA-mapped and mapped in the
address space of the task. `HeapAtomic` says what a caller may expect of a call: every heap
in use has the sg table of its size, and after a failure it is as if nothing had happened.
A call keeps it unless it fails after the old table is gone (`LosesTable`).
-/

namespace Lima

/-! ## Calls that see no difference -/

/-- The states differ in the record of the backing pages only. -/
structure Sys.SameButPages (s s' : Sys) : Prop where
  vm : s'.vm = s.vm
  numVms : s'.numVms = s.numVms
  bo : ∀ b, (s.bo b).SameButPages (s'.bo b)

/-- The calls end alike, in states that differ in the record of the backing pages only. -/
inductive SameCall {α : Type} : Outcome (Sys × α) → Outcome (Sys × α) → Prop
  | ok {s s' : Sys} {r : α} : s.SameButPages s' → SameCall (.ok (s, r)) (.ok (s', r))
  | oops : SameCall .oops .oops
  | hang : SameCall .hang .hang

theorem Bo.SameButPages.refl (bo : Bo) : bo.SameButPages bo := rfl

section SameButPages

variable {s t : Sys}

theorem Sys.SameButPages.refl (s : Sys) : s.SameButPages s := ⟨rfl, rfl, fun _ => rfl⟩

theorem Sys.SameButPages.setBo (h : s.SameButPages t) (b : BoId) {bo bo' : Bo}
    (hbo : bo.SameButPages bo') : (s.setBo b bo).SameButPages (t.setBo b bo') where
  vm := h.vm
  numVms := h.numVms
  bo c := by
    by_cases hc : c = b
    · subst hc
      simpa using hbo
    · simpa [Function.update_of_ne hc] using h.bo c

theorem Sys.SameButPages.setVm (h : s.SameButPages t) (v : VmId) (vm : Vm) :
    (s.setVm v vm).SameButPages (t.setVm v vm) where
  vm := by simp [h.vm]
  numVms := h.numVms
  bo := h.bo

theorem Sys.SameButPages.of_setBo {b : BoId} {bo : Bo} (h : (s.bo b).SameButPages bo) :
    s.SameButPages (s.setBo b bo) := by
  have hsame := (Sys.SameButPages.refl s).setBo b h
  rwa [show s.setBo b (s.bo b) = s by simp [Sys.setBo]] at hsame

/-- Calls that go on alike after the same first part. -/
theorem SameCall.bind {α β : Type} {x : Outcome α} {f g : α → Outcome (Sys × β)}
    (h : ∀ a, SameCall (f a) (g a)) : SameCall (x.bind f) (x.bind g) := by
  cases x with
  | ok a => exact h a
  | oops => exact .oops
  | hang => exact .hang

theorem SameCall.bind_both {α β : Type} {x y : Outcome (Sys × α)} (hxy : SameCall x y)
    {f g : Sys × α → Outcome (Sys × β)}
    (h : ∀ s s' r, s.SameButPages s' → SameCall (f (s, r)) (g (s', r))) :
    SameCall (x.bind f) (y.bind g) := by
  cases hxy with
  | ok hs => exact h _ _ _ hs
  | oops => exact .oops
  | hang => exact .hang

theorem limaVmBoAdd_sameCall (h : s.SameButPages t) (env : BoAddEnv) (fuel : ℕ) (v : VmId)
    (b : BoId) (make : Bool) :
    SameCall (limaVmBoAdd env fuel s v b make) (limaVmBoAdd env fuel t v b make) := by
  have hbo := h.bo b
  have hva : (t.bo b).va = (s.bo b).va := by rw [hbo]
  have hsize : (t.bo b).size = (s.bo b).size := by rw [hbo]
  have hsgt : (t.bo b).sgt = (s.bo b).sgt := by rw [hbo]
  unfold limaVmBoAdd
  simp only [hva, hsize, hsgt, h.vm]
  split
  · refine .ok (h.setBo b ?_)
    rw [hbo]
    rfl
  split
  · exact .ok h
  split
  · exact .ok h
  split
  · exact .oops
  split
  · exact .ok h
  split
  · exact .oops
  split
  · refine .ok ((h.setVm v _).setBo b ?_)
    rw [hbo]
    rfl
  · exact SameCall.bind fun vm => .ok (h.setVm v _)

theorem limaVmMapBo_sameCall (h : s.SameButPages t) (dmaAlloc : ℕ → Option ℕ) (fuel : ℕ)
    (v : VmId) (b : BoId) (pageoff : ℕ) :
    SameCall (limaVmMapBo dmaAlloc fuel s v b pageoff)
      (limaVmMapBo dmaAlloc fuel t v b pageoff) := by
  have hbo := h.bo b
  have hva : (t.bo b).va = (s.bo b).va := by rw [hbo]
  have hsgt : (t.bo b).sgt = (s.bo b).sgt := by rw [hbo]
  unfold limaVmMapBo
  rw [hva, hsgt, h.vm]
  split
  · exact .ok h
  split
  · simp only
    split
    · exact .ok (h.setVm v _)
    · exact SameCall.bind fun vm => .ok (h.setVm v _)
  · exact .oops

theorem readHeapPages_same_result (readPage : ℕ → Option Errno) :
    ∀ (n i : ℕ) {bo bo' : Bo}, bo.SameButPages bo' →
      (readHeapPages readPage n i bo).1.SameButPages (readHeapPages readPage n i bo').1 ∧
        (readHeapPages readPage n i bo').2 = (readHeapPages readPage n i bo).2
  | 0, _, _, _, h => ⟨h, rfl⟩
  | n + 1, i, bo, bo', h => by
      rw [readHeapPages, readHeapPages]
      split
      · exact ⟨h, rfl⟩
      · refine readHeapPages_same_result readPage n (i + 1) ?_
        rw [h]
        rfl

/-- A growth of an object that has a page array. -/
theorem limaHeapAlloc_sameCall (h : s.SameButPages t) {b : BoId}
    (hs : (s.bo b).pages.isSome = true) (ht : (t.bo b).pages.isSome = true)
    (initNrPages : ℕ) (env : HeapEnv) (fuel : ℕ) (vm : Option VmId) :
    SameCall (limaHeapAlloc initNrPages env fuel s b vm)
      (limaHeapAlloc initNrPages env fuel t b vm) := by
  have hbo := h.bo b
  have hsize : (t.bo b).size = (s.bo b).size := by rw [hbo]
  have hheap : (t.bo b).heapSize = (s.bo b).heapSize := by rw [hbo]
  have hfilp : (t.bo b).filp = (s.bo b).filp := by rw [hbo]
  have hnew : (t.bo b).heapNewSize initNrPages = (s.bo b).heapNewSize initNrPages := by
    simp only [Bo.heapNewSize, hheap]
  have halloc : ∀ bo : Bo, bo.pages.isSome = true → bo.allocPages env.kvmallocOk = some bo := by
    intro bo hp
    obtain ⟨ps, hp⟩ := Option.isSome_iff_exists.mp hp
    simp [Bo.allocPages, hp]
  unfold limaHeapAlloc
  simp only [hsize, hheap, hfilp, hnew, halloc _ hs, halloc _ ht]
  split
  · exact .ok h
  split
  · exact .ok h
  -- the same pages are read
  generalize hn : min ((s.bo b).heapNewSize initNrPages) (s.bo b).size = size
  obtain ⟨hread, hres⟩ := readHeapPages_same_result env.readPage
    (size / limaPageSize - (s.bo b).heapSize / limaPageSize)
    ((s.bo b).heapSize / limaPageSize) hbo
  cases hx : readHeapPages env.readPage
    (size / limaPageSize - (s.bo b).heapSize / limaPageSize)
    ((s.bo b).heapSize / limaPageSize) (s.bo b) with
  | mk bo r =>
  cases hy : readHeapPages env.readPage
    (size / limaPageSize - (s.bo b).heapSize / limaPageSize)
    ((s.bo b).heapSize / limaPageSize) (t.bo b) with
  | mk bo' r' =>
  rw [hx, hy] at hread hres
  simp only at hread hres
  subst hres
  have hsgt : bo'.sgt = bo.sgt := by rw [hread]
  have hdrop : Bo.SameButPages { bo with sgt := none } { bo' with sgt := none } := by
    rw [hread]
    rfl
  have htable : Bo.SameButPages { bo with sgt := some (bo.sgTable size) }
      { bo' with sgt := some (bo'.sgTable size) } := by
    rw [hread]
    rfl
  have hgrown : Bo.SameButPages { bo with sgt := some (bo.sgTable size), heapSize := size }
      { bo' with sgt := some (bo'.sgTable size), heapSize := size } := by
    rw [hread]
    rfl
  cases r' with
  | some e => exact .ok (h.setBo b hread)
  | none =>
      simp only [hsgt]
      split
      · exact .ok (h.setBo b hread)
      split
      · exact .ok (h.setBo b hread)
      split
      · exact .ok (h.setBo b hdrop)
      split
      · exact .ok (h.setBo b hgrown)
      refine (limaVmMapBo_sameCall (h.setBo b htable) env.dmaAlloc fuel _ b _).bind_both
        fun s₁ s₁' r hs₁ => ?_
      cases r with
      | none => exact .ok (hs₁.setBo b hgrown)
      | some e => exact .ok (hs₁.setBo b hdrop)

end SameButPages

/-! ## The property and the condition -/

/-- What a `lima_heap_alloc` of `b` that has led from `s` to `s'` with result `r` should
have done. A first growth that fails is not followed by another: the object is given up. -/
structure HeapAtomic (s s' : Sys) (b : BoId) (r : Option Errno) : Prop where
  table : ∀ c, (s'.bo c).isHeap = true → (s'.bo c).heapSize ≠ 0 →
    (s'.bo c).sgt = some ((s'.bo c).sgTable (s'.bo c).heapSize)
  size : r ≠ none → (s'.bo b).heapSize = (s.bo b).heapSize
  sgt : r ≠ none → (s'.bo b).sgt = (s.bo b).sgt
  translation : r ≠ none → ∀ v vm, s.vm v = some vm → ∃ vm', s'.vm v = some vm' ∧
    ∀ va, limaVmProbePte vm' va = limaVmProbePte vm va
  open_later : r ≠ none → ∀ env fuel v make,
    SameCall (limaVmBoAdd env fuel s v b make) (limaVmBoAdd env fuel s' v b make)
  grow_later : r ≠ none → (s.bo b).sgt ≠ none → ∀ initNrPages env fuel vm,
    SameCall (limaHeapAlloc initNrPages env fuel s b vm)
      (limaHeapAlloc initNrPages env fuel s' b vm)

/-- The call fails after the old sg table is gone: at the DMA mapping of the new one, or at
`lima_vm_map_bo`. -/
def Sys.LosesTable (initNrPages : ℕ) (env : HeapEnv) (s : Sys) (b : BoId)
    (vm : Option VmId) : Prop :=
  (s.bo b).sgt ≠ none ∧ (s.bo b).Tabled initNrPages env ∧
    (env.dmaMap ≠ none ∨ ∃ v, vm = some v ∧ ¬ s.CanGrow initNrPages env v b)

/-- **The condition.** -/
def KeepsTable (initNrPages : ℕ) (s : Sys) : VmCall → Prop
  | .heapAlloc env b vm => ¬ s.LosesTable initNrPages env b vm
  | _ => True

/-! ## The invariant -/

/-- A heap in use has an sg table, and with the table a page array. -/
structure Bo.TableKept (bo : Bo) : Prop where
  sized : bo.heapSize ≠ 0 → bo.sgt ≠ none
  held : bo.va ≠ [] → bo.sgt ≠ none
  pages : bo.sgt ≠ none → bo.pages.isSome = true

def TablesKept (s : Sys) : Prop := ∀ b, (s.bo b).isHeap = true → (s.bo b).TableKept

section Keep

variable {cfg : VmConfig} {s s' : Sys} {v : VmId} {b : BoId}

theorem TablesKept.setBo (h : TablesKept s) {bo : Bo}
    (hbo : bo.isHeap = true → bo.TableKept) : TablesKept (s.setBo b bo) := by
  intro c hc
  by_cases hcb : c = b
  · subst hcb
    rw [Sys.setBo_bo, Function.update_self] at hc ⊢
    exact hbo hc
  · rw [Sys.setBo_bo, Function.update_of_ne hcb] at hc ⊢
    exact h c hc

/-- A change of the list of an object that has a table, or whose list stays empty. -/
theorem TablesKept.setVa (h : TablesKept s) {va : List BoVa}
    (hva : va ≠ [] → (s.bo b).va ≠ [] ∨ (s.bo b).sgt ≠ none) :
    TablesKept (s.setBo b { s.bo b with va := va }) := by
  refine h.setBo fun hb => ?_
  have hk := h b hb
  exact ⟨hk.sized, fun hne => (hva hne).elim hk.held id, hk.pages⟩

theorem TablesKept.boAdd (h : TablesKept s) {env : BoAddEnv} {fuel : ℕ} {make : Bool}
    {r : Option Errno} (hcall : limaVmBoAdd env fuel s v b make = .ok (s', r)) :
    TablesKept s' := by
  obtain ⟨x, hx, -, rfl⟩ | ⟨-, ⟨e, -, rfl⟩ | ⟨-, vm, start, pas, -, -, hsgt,
    ⟨vm', offset, -, -, rfl⟩ | ⟨vm', offset, e, vm'', -, -, -, rfl⟩⟩⟩ :=
    limaVmBoAdd_cases hcall
  · refine h.setVa fun _ => .inl fun hnil => ?_
    rw [hnil] at hx
    cases hx
  · exact h
  · have hadd : TablesKept (s.setBo b ((s.bo b).addVa ⟨v, 1, ⟨start, (s.bo b).size⟩⟩)) :=
      h.setVa fun _ => .inr (by simp [hsgt])
    exact hadd
  · exact h

theorem TablesKept.boDel (h : TablesKept s) {fuel : ℕ} {touched : List ℕ}
    (hcall : limaVmBoDel fuel s v b = .ok (s', touched)) : TablesKept s' := by
  obtain ⟨x, hx, hcase⟩ := limaVmBoDel_cases hcall
  have hne : (s.bo b).va ≠ [] := by
    intro hnil
    rw [hnil] at hx
    cases hx
  obtain ⟨-, rfl⟩ | ⟨-, vm, u, -, -, rfl⟩ := hcase
  · exact h.setVa fun _ => .inl hne
  · have hremove : TablesKept (s.setBo b ((s.bo b).removeVa v)) :=
      h.setVa fun _ => .inl hne
    exact hremove

theorem limaVmMapBo_bo {dmaAlloc : ℕ → Option ℕ} {fuel pageoff : ℕ} {r : Option Errno}
    (h : limaVmMapBo dmaAlloc fuel s v b pageoff = .ok (s', r)) : s'.bo = s.bo := by
  obtain ⟨-, -, rfl⟩ | ⟨x, vm, pas, vm', offset, -, -, -, ⟨-, -, rfl⟩ |
    ⟨e, vm'', -, -, -, rfl⟩⟩ := limaVmMapBo_cases h <;> rfl

/-- A growth that fails without losing the table has changed the record of the pages at
most. -/
theorem Isolated.heapAlloc_failed (hi : Isolated cfg s) (hk : TablesKept s)
    {initNrPages : ℕ} {env : HeapEnv} {fuel : ℕ} {vm : Option VmId} {e : Errno}
    (hheap : (s.bo b).isHeap = true) (hok : ¬ s.LosesTable initNrPages env b vm)
    (hcall : limaHeapAlloc initNrPages env fuel s b vm = .ok (s', some e)) :
    ∃ bo, (s.bo b).SameButPages bo ∧
      ((s.bo b).pages.isSome = true → bo.pages.isSome = true) ∧ s' = s.setBo b bo := by
  obtain ⟨bo, hsame, hpages, ⟨-, -, rfl⟩ | ⟨htabled, -, hcase⟩⟩ := limaHeapAlloc_tabled hcall
  · exact ⟨bo, hsame, hpages, rfl⟩
  -- there was no table to lose, so the object is held nowhere
  have hnone : (s.bo b).sgt = none := by
    by_contra hsgt
    refine hok ⟨hsgt, htabled, ?_⟩
    obtain ⟨hdma, -⟩ | ⟨-, ⟨-, hr, -⟩ | ⟨v, s₁, rfl, -⟩⟩ := hcase
    · exact .inl hdma
    · cases hr
    · refine .inr ⟨v, rfl, fun hcan => ?_⟩
      cases (hi.grows_iff hheap hcall).mpr hcan
  have hdrop : ({ bo with sgt := none } : Bo) = bo := by
    have hbo : bo.sgt = none := by rw [hsame]; exact hnone
    rw [← hbo]
  have hva : (s.bo b).va = [] := by
    by_contra hne
    exact (hk b hheap).held hne hnone
  obtain ⟨-, -, rfl⟩ | ⟨-, ⟨-, hr, -⟩ | ⟨v, s₁, rfl, hmap, ⟨hr, -⟩ | ⟨-, rfl⟩⟩⟩ := hcase
  · exact ⟨bo, hsame, hpages, by rw [hdrop]⟩
  · cases hr
  · cases hr
  · refine ⟨bo, hsame, hpages, ?_⟩
    obtain ⟨-, -, rfl⟩ | ⟨x, vm, pas, vm', offset, hx, -⟩ := limaVmMapBo_cases hmap
    · rw [hdrop, Sys.setBo, Sys.setBo, Function.update_idem]
      rfl
    · have hwt : (bo.withTable ((s.bo b).grownSize initNrPages)).va = [] := by
        rw [hsame]
        exact hva
      simp [hwt, limaVmBoFind] at hx

theorem TablesKept.heapAlloc (h : TablesKept s) (hi : Isolated cfg s) {initNrPages : ℕ}
    {env : HeapEnv} {fuel : ℕ} {vm : Option VmId} {r : Option Errno}
    (hheap : (s.bo b).isHeap = true) (hok : ¬ s.LosesTable initNrPages env b vm)
    (hcall : limaHeapAlloc initNrPages env fuel s b vm = .ok (s', r)) : TablesKept s' := by
  have hk := h b hheap
  cases r with
  | some e =>
      obtain ⟨bo, hsame, hpages, rfl⟩ := hi.heapAlloc_failed h hheap hok hcall
      refine h.setBo fun _ => ?_
      have hsgt : bo.sgt = (s.bo b).sgt := by rw [hsame]
      refine ⟨?_, ?_, fun hne => hpages (hk.pages (hsgt ▸ hne))⟩
      · rw [hsame]
        exact hk.sized
      · rw [hsame]
        exact hk.held
  | none =>
      obtain ⟨bo, hsame, -, ⟨-, hr, -⟩ | ⟨-, hpages, ⟨-, hr, -⟩ | ⟨-, ⟨-, -, rfl⟩ |
        ⟨v, s₁, -, hmap, ⟨-, rfl⟩ | ⟨hr, -⟩⟩⟩⟩⟩ := limaHeapAlloc_tabled hcall
      · exact absurd rfl hr
      · exact absurd rfl hr
      · exact h.setBo fun _ => ⟨fun _ => by simp [Bo.withTable], fun _ => by simp [Bo.withTable],
          fun _ => hpages⟩
      · have hs₁ : TablesKept (s₁.setBo b
            { bo.withTable ((s.bo b).grownSize initNrPages) with
              heapSize := (s.bo b).grownSize initNrPages }) := by
          intro c hc
          by_cases hcb : c = b
          · subst hcb
            rw [Sys.setBo_bo, Function.update_self]
            exact ⟨fun _ => by simp [Bo.withTable], fun _ => by simp [Bo.withTable],
              fun _ => hpages⟩
          · rw [Sys.setBo_bo, Function.update_of_ne hcb, limaVmMapBo_bo hmap,
              Sys.setBo_bo, Function.update_of_ne hcb] at hc ⊢
            exact h c hc
        exact hs₁
      · exact absurd rfl hr

/-- **Step lemma.** -/
theorem TablesKept.step {c : VmCall} (h : TablesKept s) (hi : Isolated cfg s)
    (hp : HeapPromise s c) (hok : KeepsTable cfg.initNrPages s c)
    (hret : c.Returns cfg s s') : TablesKept s' := by
  cases c with
  | create early kz pd dma =>
      rw [hret]
      unfold limaVmCreate
      split <;> exact h
  | boAdd env v b make =>
      obtain ⟨fuel, r, hret⟩ := hret
      exact h.boAdd hret
  | boDel v b =>
      obtain ⟨fuel, touched, hret⟩ := hret
      exact h.boDel hret
  | mapBo dma v b pageoff => exact absurd hp.2 id
  | heapAlloc env b vm =>
      obtain ⟨fuel, r, hret⟩ := hret
      exact h.heapAlloc hi hp.1 hok hret

end Keep

/-! ## Runs -/

/-- **Run lemma.** -/
theorem TablesKept.of_via {cfg : VmConfig} {s : Sys}
    (hs : (vmLts cfg Bo.Fresh HeapPromise).Via (KeepsTable cfg.initNrPages) s) :
    Isolated cfg s ∧ TablesKept s := by
  induction hs with
  | init h =>
      refine ⟨.init h.1 h.2.2, fun b hb => ?_⟩
      have hfresh := h.2.2 b
      have hsgt : (_ : Bo).sgt = none := Option.eq_none_iff_forall_ne_some.mpr fun pas hpas => by
        have hnative := (hfresh.sgt pas hpas).1
        rw [hb] at hnative
        cases hnative
      exact ⟨fun hne => absurd hfresh.heapSize hne, fun hne => absurd hfresh.va hne,
        fun hne => absurd hsgt hne⟩
  | step _ hok h ih => exact ⟨ih.1.step h.1.1 h.2, ih.2.step ih.1 h.1 hok h.2⟩

/-- **Main result.** In every state that calls meeting the condition reach, a
`lima_heap_alloc` keeps its promise if and only if it does not fail after the old sg table
is gone. -/
theorem heapAlloc_atomic_iff (cfg : VmConfig) {s : Sys}
    (hs : (vmLts cfg Bo.Fresh HeapPromise).Via (KeepsTable cfg.initNrPages) s)
    {env : HeapEnv} {fuel : ℕ} {b : BoId} {vm : Option VmId} {s' : Sys} {r : Option Errno}
    (hp : HeapPromise s (.heapAlloc env b vm))
    (hcall : limaHeapAlloc cfg.initNrPages env fuel s b vm = .ok (s', r)) :
    HeapAtomic s s' b r ↔ ¬ s.LosesTable cfg.initNrPages env b vm := by
  obtain ⟨hi, hk⟩ := TablesKept.of_via hs
  have hheap : (s.bo b).isHeap = true := hp.1
  constructor
  · rintro hatomic ⟨hsgt, htabled, hfail⟩
    obtain ⟨bo, hsame, -, ⟨hnot, -⟩ | ⟨-, -, ⟨-, hr, rfl⟩ | ⟨hdma, ⟨rfl, -⟩ |
      ⟨v, s₁, rfl, -, ⟨rfl, -⟩ | ⟨hr, rfl⟩⟩⟩⟩⟩ := limaHeapAlloc_tabled hcall
    · exact hnot htabled
    · have hlost := hatomic.sgt hr
      rw [Sys.setBo_bo, Function.update_self] at hlost
      exact hsgt hlost.symm
    · obtain hdma' | ⟨v, hv, -⟩ := hfail
      · exact hdma' hdma
      · cases hv
    · obtain hdma' | ⟨w, hw, hnot⟩ := hfail
      · exact hdma' hdma
      · obtain rfl := Option.some.inj hw
        exact hnot ((hi.grows_iff hheap hcall).mp rfl)
    · have hlost := hatomic.sgt hr
      rw [Sys.setBo_bo, Function.update_self] at hlost
      exact hsgt hlost.symm
  · intro hok
    have hi' := hi.step (c := .heapAlloc env b vm) hp.1 ⟨fuel, r, hcall⟩
    have hk' := hk.heapAlloc hi hheap hok hcall
    have htable : ∀ c, (s'.bo c).isHeap = true → (s'.bo c).heapSize ≠ 0 →
        (s'.bo c).sgt = some ((s'.bo c).sgTable (s'.bo c).heapSize) := by
      intro c hc hsize
      obtain ⟨pas, hpas⟩ := Option.ne_none_iff_exists'.mp ((hk' c hc).sized hsize)
      obtain ⟨bytes, -, rfl, hbytes⟩ := (hi'.space.bo c).sgt pas hpas
      rw [hpas, hbytes hc]
    cases r with
    | none =>
        exact ⟨htable, fun hr => absurd rfl hr, fun hr => absurd rfl hr,
          fun hr => absurd rfl hr, fun hr => absurd rfl hr, fun hr => absurd rfl hr⟩
    | some e =>
        obtain ⟨bo, hsame, hpages, rfl⟩ := hi.heapAlloc_failed hk hheap hok hcall
        have hst := Sys.SameButPages.of_setBo hsame
        have hbo : (s.setBo b bo).bo b = bo := by simp
        refine ⟨htable, fun _ => ?_, fun _ => ?_, fun _ v vm₁ hvm => ⟨vm₁, hvm, fun _ => rfl⟩,
          fun _ env fuel v make => limaVmBoAdd_sameCall hst env fuel v b make,
          fun _ hsgt initNrPages env fuel vm => ?_⟩
        · rw [hbo, hsame]
        · rw [hbo, hsame]
        · have hold := (hk b hheap).pages hsgt
          exact limaHeapAlloc_sameCall hst hold (by rw [hbo]; exact hpages hold) _ _ _ _

/-- A growth that cannot read its page, and one whose sg table cannot be DMA-mapped. -/
def unreadEnv : HeapEnv := ⟨true, fun _ => some .enomem, none, true, none, tablesOf 0⟩
def unmappedEnv : HeapEnv := ⟨true, fun _ => none, none, true, some .enomem, tablesOf 0⟩

theorem openHeap_keepsTable : sharedHeapLts.Via (KeepsTable onePageHeapConfig.initNrPages)
    (openHeap createdHeapSys 0) := by
  refine (sharedHeapSys_via (fun _ _ _ _ _ => trivial) (fun _ _ _ _ _ => trivial) ?_).1
  rintro ⟨hsgt, -⟩
  exact hsgt rfl

theorem heapAlloc_atomic_iff_unread : ∃ s', HeapAtomic (openHeap createdHeapSys 0) s' 0
    (some .enomem) := by
  have hcall : limaHeapAlloc 1 unreadEnv 0 (openHeap createdHeapSys 0) 0 (some 0) =
      .ok (_, some .enomem) := rfl
  have hp : HeapPromise (openHeap createdHeapSys 0) (.heapAlloc unreadEnv 0 (some 0)) :=
    ⟨rfl, trivial⟩
  refine ⟨_, (heapAlloc_atomic_iff onePageHeapConfig openHeap_keepsTable hp hcall).mpr ?_⟩
  rintro ⟨-, htabled, -⟩
  have hread := htabled.read 1 (by decide) (by decide)
  cases hread

/-- A growth whose new table cannot be DMA-mapped leaves a heap in use without a table, and
another file that opens the heap dereferences the missing table. -/
theorem heapAlloc_loses_table :
    sharedHeapLts.Reachable (openHeap createdHeapSys 0) ∧
    ∃ s', limaHeapAlloc 1 unmappedEnv 0 (openHeap createdHeapSys 0) 0 (some 0) =
        .ok (s', some .enomem) ∧
      (s'.bo 0).heapSize = 4096 ∧ (s'.bo 0).sgt = none ∧
      limaVmBoAdd ⟨true, some 0x1FFF000, tablesOf 1⟩ 0 s' 1 0 true = .oops ∧
      ¬ HeapAtomic (openHeap createdHeapSys 0) s' 0 (some .enomem) := by
  refine ⟨openHeap_keepsTable.reachable, _, rfl, rfl, rfl, rfl, fun h => ?_⟩
  cases h.sgt (by simp)

end Lima
