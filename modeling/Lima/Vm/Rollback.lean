import Lima.Vm.Walk
import Lima.Vm.IsolationRuns

/-!
# A mapping that fails is undone

`lima_vm_bo_add` and `lima_vm_map_bo` map the pages of an sg table one by one and, when
one of them cannot be mapped, unmap the bytes they have counted so far. A backing table
that has been allocated on the way stays, with no entry in it. The counter is an `int`
whose sums are cut to 32 bits, and a failure comes before the range reaches 4 GiB.
-/

namespace Lima

open Overlay

/-! ## Address translation -/

/-- The entry the GPU finds for `va` in the directory and tables of an address space, if
both levels have one. -/
def Vm.translate (vm : Vm) (va : ℕ) : Option ℕ :=
  if vm.pd.cpu (limaPde va) &&& limaVmFlagPresent = 0 then none
  else
    let pte := (limaVmProbePte vm va).1
    if pte &&& limaVmFlagPresent = 0 then none else some pte

theorem Vm.translate_of_entry_eq_zero {vm : Vm} {va : ℕ} (hva : va < 2 ^ 32)
    (h : vm.entry (va / 4096) = 0) : vm.translate va = none := by
  simp [Vm.translate, limaVmProbePte_eq vm hva, h]

/-- Directory entries change only where a backing table is added. -/
structure DirFrame (vm vm' : Vm) : Prop where
  pd : ∀ d, vm'.pd.cpu d = vm.pd.cpu d ∨ vm.bts (d / 8) = none
  bts : ∀ k, vm'.bts k = none → vm.bts k = none

theorem DirFrame.refl (vm : Vm) : DirFrame vm vm := ⟨fun _ => .inl rfl, fun _ h => h⟩

theorem DirFrame.trans {vm vm' vm'' : Vm} (h : DirFrame vm vm') (h' : DirFrame vm' vm'') :
    DirFrame vm vm'' where
  pd d := by
    rcases h'.pd d with heq | hnone
    · rw [heq]
      exact h.pd d
    · exact .inr (h.bts _ hnone)
  bts k hk := h.bts k (h'.bts k hk)

/-- A store into a table that exists. -/
theorem DirFrame.setBt (vm : Vm) (k : ℕ) (bt : DmaBlock) (hk : (vm.bts k).isSome = true) :
    DirFrame vm (vm.setBt k bt) where
  pd _ := .inl rfl
  bts j hj := by
    by_cases hjk : j = k
    · subst hjk
      simp at hj
    · simpa [Function.update_of_ne hjk] using hj

theorem DirFrame.addBt {vm : Vm} {k : ℕ} (hk : vm.bts k = none) (pts : ℕ) :
    DirFrame vm (vm.addBt k pts) where
  pd d := by
    have hpd : (vm.addBt k pts).pd.cpu d = writePdes vm.pd.cpu (k * 8) pts 8 d := by
      simp [Vm.addBt, Vm.setBt, limaVmNumPtPerBt, limaVmNumPtPerBtShift, Nat.shiftLeft_eq]
    rw [hpd, writePdes_apply]
    split
    · rename_i hd
      have hdk : d / 8 = k := by omega
      exact .inr (hdk ▸ hk)
    · exact .inl rfl
  bts j hj := by
    by_cases hjk : j = k
    · exact hjk ▸ hk
    · simpa [Function.update_of_ne hjk] using hj

theorem DirFrame.mapPage {dmaAlloc : ℕ → Option ℕ} {vm vm' : Vm} {pa va : ℕ}
    (h : limaVmMapPage dmaAlloc vm pa va = .ok vm') : DirFrame vm vm' := by
  obtain ⟨-, vm₁, bt, hbt, rfl, hvm₁⟩ := limaVmMapPage_cases h
  have hset := DirFrame.setBt vm₁ (limaPbe va) (bt.set (limaBte va) (leafPte pa))
    (by rw [hbt]; rfl)
  rcases hvm₁ with rfl | ⟨pts, hnone, -, -, rfl⟩
  · exact hset
  · exact (DirFrame.addBt hnone pts).trans hset

theorem DirFrame.mapPages {dmaAlloc : ℕ → Option ℕ} {base offset offset' : ℕ} {pas : List ℕ}
    {vm vm' : Vm} {e : Option Errno}
    (h : limaVmMapPages dmaAlloc base pas vm offset = (vm', offset', e)) : DirFrame vm vm' :=
  limaVmMapPages_preserves (P := DirFrame vm) (fun _ _ _ _ hP _ hpage => hP.trans (.mapPage hpage))
    (.refl vm) h

/-- A page translates as before where its entry is as before. -/
theorem DirFrame.translate_eq {vm vm' : Vm} (h : DirFrame vm vm') {va : ℕ} (hva : va < 2 ^ 32)
    (hentry : vm'.entry (va / 4096) = vm.entry (va / 4096)) :
    vm'.translate va = vm.translate va := by
  by_cases hzero : vm.entry (va / 4096) = 0
  · rw [Vm.translate_of_entry_eq_zero hva hzero,
      Vm.translate_of_entry_eq_zero hva (hentry.trans hzero)]
  · have htable : (vm.bts (va / 4096 / 8192)).isSome = true :=
      Vm.hasTable_of_entry_ne_zero hzero
    have hdiv : limaPde va / 8 = va / 4096 / 8192 := by
      rw [limaPde_eq]
      omega
    have hpd : vm'.pd.cpu (limaPde va) = vm.pd.cpu (limaPde va) := by
      refine (h.pd (limaPde va)).resolve_right fun hnone => ?_
      rw [← hdiv, hnone] at htable
      cases htable
    simp only [Vm.translate, limaVmProbePte_eq _ hva, hpd, hentry]

/-! ## The rollback -/

/-- What the rollback of a mapping that stopped in `vm`, `offset` bytes from `base` on,
looks at: pages of the node whose backing tables exist. It comes to an end. -/
structure RollbackIn (vm : Vm) (node : DrmMmNode) (base offset : ℕ) : Prop where
  range : offset ≠ 0 → ∀ addr, u32 base ≤ addr → addr ≤ u32 (base + offset - 1) →
    node.Has addr ∧ vm.HasTable (addr / 4096)
  complete : ∃ fuel vm', undoMap fuel vm base offset = .ok vm'

section Rollback

variable {dmaAlloc : ℕ → Option ℕ} {fuel p offset : ℕ} {pas : List ℕ} {vm vm₁ vm₂ : Vm}
  {e : Errno}

theorem rollbackIn {node : DrmMmNode} (hlen : p + pas.length ≤ 2 ^ 20)
    (hlo : node.start ≤ 4096 * p)
    (hhi : 4096 * p + 4096 * pas.length ≤ node.start + node.size)
    (hmap : limaVmMapPages dmaAlloc (4096 * p) pas vm 0 = (vm₁, offset, some e)) :
    RollbackIn vm₁ node (4096 * p) offset := by
  obtain ⟨n, hn, hoff, herr, hrun⟩ := limaVmMapPages_spec hmap rfl hlen
  have hlt : n < pas.length := by
    refine lt_of_le_of_ne hn fun heq => ?_
    cases herr.mpr heq
  rw [Nat.zero_add] at hoff
  subst hoff
  have hbase : u32 (4096 * p) = 4096 * p := u32_of_lt (by omega)
  have hstop : u32 (4096 * p + 4096 * n - 1) = 4096 * p + 4096 * n - 1 := u32_of_lt (by omega)
  constructor
  · intro hne addr hlo' hhi'
    rw [hbase] at hlo'
    rw [hstop] at hhi'
    refine ⟨⟨by omega, by omega⟩, ?_⟩
    have htable := hrun.table (addr / 4096 - p) (by omega)
    rwa [Nat.add_sub_cancel' (by omega)] at htable
  · by_cases hzero : 4096 * n = 0
    · exact ⟨0, vm₁, by rw [undoMap, if_neg (not_not.mpr hzero)]⟩
    · obtain ⟨u, hu⟩ := limaVmUnmapRange_total (u := ⟨vm₁, []⟩)
        (by omega : p + n < 2 ^ 20) (by omega : 4096 * p + 4096 * n - 1 + 1 = 4096 * (p + n))
        hrun.table
      refine ⟨n + 1, u.vm, ?_⟩
      rw [undoMap, if_pos hzero, hbase, hstop, hu, Outcome.bind_ok]

/-- **After the rollback** some pages of the range translate to nothing, all others as
before the call. -/
theorem rollback_translate (hlen : p + pas.length ≤ 2 ^ 20)
    (hmap : limaVmMapPages dmaAlloc (4096 * p) pas vm 0 = (vm₁, offset, some e))
    (hundo : undoMap fuel vm₁ (4096 * p) offset = .ok vm₂) :
    VmFrame dmaAlloc vm vm₂ ∧ ∃ n < pas.length, ∀ va < 2 ^ 32, vm₂.translate va =
      if p ≤ va / 4096 ∧ va / 4096 < p + n then none else vm.translate va := by
  obtain ⟨⟨n, hn, hentry⟩, hframe, -⟩ := rollback_spec hlen hmap hundo
  have hdir : DirFrame vm vm₂ := by
    refine (DirFrame.mapPages hmap).trans ?_
    unfold undoMap at hundo
    split at hundo
    · obtain ⟨u, hu, hres⟩ := Outcome.bind_eq_ok hundo
      obtain rfl := Outcome.ok.inj hres
      refine limaVmUnmapRange_preserves (P := DirFrame vm₁) (fun _ _ _ _ hP hbt => ?_)
        (.refl vm₁) hu
      exact hP.trans (.setBt _ _ _ (by rw [hbt]; rfl))
    · obtain rfl := Outcome.ok.inj hundo
      exact .refl _
  refine ⟨hframe, n, hn, fun va hva => ?_⟩
  have hat := congrFun hentry (va / 4096)
  split
  · rename_i hin
    rw [fill_of_mem hin] at hat
    exact Vm.translate_of_entry_eq_zero hva hat
  · rename_i hout
    rw [fill_of_not_mem hout] at hat
    exact hdir.translate_eq hva hat

end Rollback

/-! ## The calls -/

/-- Two states of an address space that users cannot tell apart. -/
structure Vm.SameSpace (vm vm' : Vm) : Prop where
  refcount : vm'.refcount = vm.refcount
  mmStart : vm'.mmStart = vm.mmStart
  mmSize : vm'.mmSize = vm.mmSize
  mm : vm'.mm = vm.mm
  translate : ∀ va < 2 ^ 32, vm'.translate va = vm.translate va

theorem Vm.SameSpace.refl (vm : Vm) : vm.SameSpace vm := ⟨rfl, rfl, rfl, rfl, fun _ _ => rfl⟩

/-- Nothing has happened, as far as buffer objects, nodes, counts and translations go. -/
structure Sys.Restored (s s' : Sys) : Prop where
  bo : s'.bo = s.bo
  numVms : s'.numVms = s.numVms
  vm : ∀ w, Option.Rel Vm.SameSpace (s.vm w) (s'.vm w)

theorem Sys.Restored.refl (s : Sys) : s.Restored s := by
  refine ⟨rfl, rfl, fun w => ?_⟩
  cases s.vm w with
  | none => exact .none
  | some vm => exact .some (.refl vm)

theorem Sys.Restored.setVm {s : Sys} {v : VmId} {vm vm' : Vm} (hvm : s.vm v = some vm)
    (h : vm.SameSpace vm') : s.Restored (s.setVm v vm') := by
  refine ⟨rfl, rfl, fun w => ?_⟩
  by_cases hw : w = v
  · subst hw
    rw [Sys.setVm_vm, Function.update_self, hvm]
    exact .some h
  · rw [Sys.setVm_vm, Function.update_of_ne hw]
    exact (Sys.Restored.refl s).vm w

/-- `bo'` stands for the same object, its sg table perhaps another one that fits, as in the
middle of a `lima_heap_alloc`. -/
structure Bo.Retabled (bo bo' : Bo) : Prop where
  size : bo'.size = bo.size
  va : bo'.va = bo.va
  sgt : ∀ pas, bo'.sgt = some pas → 4096 * pas.length ≤ bo.size

/-- No address that `lima_vm_map_bo` would map translates. -/
def Sys.Unmapped (s : Sys) (v : VmId) (b : BoId) (pageoff : ℕ) : Prop :=
  ∀ vm node pas va, s.vm v = some vm → s.node v b = some node → (s.bo b).sgt = some pas →
    node.start + 4096 * pageoff ≤ va → va < node.start + 4096 * pas.length →
    vm.translate va = none

section Calls

variable {cfg : VmConfig} {s s' : Sys} {v : VmId} {b : BoId}

theorem Bo.Ok.retabled {bo : Bo} (h : bo.Ok) : bo.Retabled bo :=
  ⟨rfl, rfl, fun _ hsgt => (h.sgt_length hsgt).trans h.mappable_le⟩

/-- The table `lima_heap_alloc` builds for the grown heap. -/
theorem Bo.Ok.retabled_grown {bo bo' : Bo} (h : bo.Ok) (hsame : bo.SameButPages bo')
    (initNrPages : ℕ) : bo.Retabled (bo'.withTable (bo.grownSize initNrPages)) := by
  rw [hsame]
  refine ⟨rfl, rfl, fun pas hpas => ?_⟩
  obtain rfl := Option.some.inj hpas
  have hle := bo.grownSize_le initNrPages
  have hdvd := h.grownSize_dvd initNrPages
  simp only [Bo.sgTable, List.length_map, List.length_range, limaPageSize]
  omega

/-- The pages of a fresh node are not mapped. -/
theorem Insertion.unmapped {vm : Vm} {node : DrmMmNode} {pas : List ℕ}
    (hi : Insertion s v b vm node pas) (h : Isolated cfg s) {q : ℕ} (hq : node.HasPage q) :
    vm.entry q = 0 := by
  by_contra hne
  rcases h.owned v vm q hi.vm_eq hne with hd | ⟨c, t, ht, hlo, hhi, -⟩
  · exact (hi.space h.space).not_dlbu hi.node_self hq hd
  · obtain ⟨vm₁, hvm₁, hmem, hsize, -⟩ := h.space.live v c t ht
    obtain rfl := Option.some.inj (hi.vm_eq.symm.trans hvm₁)
    have hle := (h.space.bo c).mappable_le
    exact (hi.fresh.2 t hmem).not_has ⟨hlo, by omega⟩ hq

/-- Where the node of an object and the pages of an sg table that fits it lie. -/
theorem SpaceOk.tablePages (h : SpaceOk cfg s) {node : DrmMmNode} {bo' : Bo} {pas : List ℕ}
    (hn : s.node v b = some node) (hbo : (s.bo b).Retabled bo') (hsgt : bo'.sgt = some pas) :
    ∃ p, node.start = 4096 * p ∧ 4096 * pas.length ≤ node.size ∧ p + pas.length ≤ 2 ^ 20 := by
  obtain ⟨vm, -, -, hsize, hin⟩ := h.live v b node hn
  obtain ⟨p, hp⟩ := hin.start_dvd
  have hfit := hbo.sgt pas hsgt
  have htop := h.node_le hn
  exact ⟨p, hp, by omega, by omega⟩

theorem Insertion.pages {vm : Vm} {node : DrmMmNode} {pas : List ℕ}
    (hi : Insertion s v b vm node pas) (h : Isolated cfg s) :
    ∃ p, node.start = 4096 * p ∧ 4096 * pas.length ≤ node.size ∧ p + pas.length ≤ 2 ^ 20 :=
  (hi.space h.space).tablePages hi.node_self ((hi.space h.space).bo b).retabled hi.sgt_insert

/-- The pages a `lima_vm_map_bo` that fails has set out to map. -/
theorem SpaceOk.mapBo_pages (h : SpaceOk cfg s) {node : DrmMmNode} {bo' : Bo} {pas : List ℕ}
    (hn : s.node v b = some node) (hbo : (s.bo b).Retabled bo') (hsgt : bo'.sgt = some pas)
    {dmaAlloc : ℕ → Option ℕ} {pageoff offset : ℕ} {vm vm' : Vm} {e : Errno}
    (hmap : limaVmMapPages dmaAlloc (u32 (node.start + pageoff * limaPageSize))
      (pas.drop pageoff) vm 0 = (vm', offset, some e)) :
    ∃ p, node.start = 4096 * p ∧ 4096 * pas.length ≤ node.size ∧
      u32 (node.start + pageoff * limaPageSize) = 4096 * (p + pageoff) ∧
      (pas.drop pageoff).length = pas.length - pageoff ∧ pageoff < pas.length ∧
      p + pageoff + (pas.drop pageoff).length ≤ 2 ^ 20 := by
  have hoff : pageoff < pas.length := by
    by_contra hge
    rw [List.drop_eq_nil_of_le (not_lt.mp hge)] at hmap
    cases hmap
  obtain ⟨p, hp, hfit, hlen⟩ := h.tablePages hn hbo hsgt
  refine ⟨p, hp, hfit, ?_, List.length_drop, hoff, ?_⟩
  · rw [u32_of_lt (by simp only [limaPageSize]; omega), limaPageSize]
    omega
  · rw [List.length_drop]
    omega

/-- **A failing `lima_vm_bo_add`** leaves everything as it was. -/
theorem Isolated.boAdd_restored (h : Isolated cfg s) {env : BoAddEnv} {create : Bool}
    (hmm : MmPromise s (.boAdd env v b create)) {fuel : ℕ} {e : Errno}
    (hcall : limaVmBoAdd env fuel s v b create = .ok (s', some e)) : s.Restored s' := by
  obtain ⟨x, -, hr, -⟩ | ⟨hfind, ⟨e', -, rfl⟩ | ⟨-, vm, start, pas, hvm, hins, hsgt,
    ⟨vm', offset, -, hr, -⟩ | ⟨vm', offset, e', vm'', hmap, hundo, -, rfl⟩⟩⟩ :=
    limaVmBoAdd_cases hcall
  · cases hr
  · exact .refl _
  · cases hr
  have hi : Insertion s v b vm ⟨start, (s.bo b).size⟩ pas :=
    ⟨hfind, hvm, hmm vm start hvm hins, rfl, hsgt⟩
  obtain ⟨p, hp, hfit, hlen⟩ := hi.pages h
  change start = 4096 * p at hp
  change 4096 * pas.length ≤ (s.bo b).size at hfit
  subst hp
  obtain ⟨hframe, n, hn, htrans⟩ := rollback_translate hlen hmap hundo
  refine .setVm hvm ⟨hframe.refcount, hframe.mmStart, hframe.mmSize, ?_, fun va hva => ?_⟩
  · simp [Vm.removeNode, hframe.mm, Vm.insertNode]
  · refine (htrans va hva).trans ?_
    split
    · -- nothing was mapped at the new node
      rename_i hin
      have hpage : DrmMmNode.HasPage ⟨4096 * p, (s.bo b).size⟩ (va / 4096) := by
        constructor <;> dsimp only <;> omega
      exact (Vm.translate_of_entry_eq_zero hva (hi.unmapped h hpage)).symm
    · rfl

/-- **A failing `lima_vm_map_bo`** leaves everything as it was if the range was unmapped. -/
theorem Isolated.mapBo_restored (h : Isolated cfg s) {bo' : Bo} (hbo : (s.bo b).Retabled bo')
    {dmaAlloc : ℕ → Option ℕ} {pageoff fuel : ℕ} {e : Errno}
    (hblank : (s.setBo b bo').Unmapped v b pageoff)
    (hcall : limaVmMapBo dmaAlloc fuel (s.setBo b bo') v b pageoff = .ok (s', some e)) :
    (s.setBo b bo').Restored s' := by
  obtain ⟨-, -, rfl⟩ | ⟨x, vm, pas, vm', offset, hx, hvm, hsgt, ⟨-, hr, -⟩ |
    ⟨e', vm'', hmap, hundo, -, rfl⟩⟩ := limaVmMapBo_cases hcall
  · exact .refl _
  · cases hr
  have hself : (s.setBo b bo').bo b = bo' := Function.update_self ..
  have hn : (s.setBo b bo').node v b = some x.node := Bo.nodeIn_of_find hx
  have hn' : s.node v b = some x.node := by
    rw [Sys.node, Bo.nodeIn, ← hbo.va, ← hself]
    exact hn
  obtain ⟨p, hp, -, hbase, hdrop, hoff, hlen⟩ :=
    h.space.mapBo_pages hn' hbo (by rwa [hself] at hsgt) hmap
  rw [hbase] at hmap hundo
  obtain ⟨hframe, n, hlt, htrans⟩ := rollback_translate hlen hmap hundo
  refine .setVm hvm ⟨hframe.refcount, hframe.mmStart, hframe.mmSize, hframe.mm,
    fun va hva => ?_⟩
  refine (htrans va hva).trans ?_
  split
  · rename_i hin
    exact (hblank vm x.node pas va hvm hn hsgt (by omega) (by omega)).symm
  · rfl

/-- **Main result.** In every reachable state: a `lima_vm_bo_add` that fails leaves
translations, nodes, lists and counts as they were; so does a `lima_vm_map_bo` that fails
if its range was unmapped; and both roll back inside the node of the object, through tables
that exist. -/
theorem map_failure_undone (cfg : VmConfig) {s : Sys}
    (hs : (vmLts cfg Bo.Fresh MmPromise).Reachable s) (v : VmId) (b : BoId) :
    (∀ env create, MmPromise s (.boAdd env v b create) →
      (∀ fuel s' e, limaVmBoAdd env fuel s v b create = .ok (s', some e) → s.Restored s') ∧
      ∀ vm start pas vm' offset e, limaVmBoFind v (s.bo b).va = none → s.vm v = some vm →
        env.mmInsert = some start → (s.bo b).sgt = some pas →
        limaVmMapPages env.dmaAlloc start pas (vm.insertNode ⟨start, (s.bo b).size⟩) 0 =
          (vm', offset, some e) →
        RollbackIn vm' ⟨start, (s.bo b).size⟩ start offset) ∧
    ∀ dmaAlloc bo' pageoff, (s.bo b).Retabled bo' →
      (∀ fuel s' e, (s.setBo b bo').Unmapped v b pageoff →
        limaVmMapBo dmaAlloc fuel (s.setBo b bo') v b pageoff = .ok (s', some e) →
        (s.setBo b bo').Restored s') ∧
      ∀ vm node pas vm' offset e, s.node v b = some node → bo'.sgt = some pas →
        limaVmMapPages dmaAlloc (u32 (node.start + pageoff * limaPageSize))
          (pas.drop pageoff) vm 0 = (vm', offset, some e) →
        RollbackIn vm' node (u32 (node.start + pageoff * limaPageSize)) offset := by
  have h := Isolated.of_reachable hs
  refine ⟨fun env create hmm => ⟨fun fuel s' e hcall => h.boAdd_restored hmm hcall, ?_⟩,
    fun dmaAlloc bo' pageoff hbo => ⟨fun fuel s' e hblank hcall =>
      h.mapBo_restored hbo hblank hcall, ?_⟩⟩
  · intro vm start pas vm' offset e hfind hvm hins hsgt hmap
    have hi : Insertion s v b vm ⟨start, (s.bo b).size⟩ pas :=
      ⟨hfind, hvm, hmm vm start hvm hins, rfl, hsgt⟩
    obtain ⟨p, hp, hfit, hlen⟩ := hi.pages h
    change start = 4096 * p at hp
    change 4096 * pas.length ≤ (s.bo b).size at hfit
    subst hp
    refine rollbackIn hlen le_rfl ?_ hmap
    dsimp only
    omega
  · intro vm node pas vm' offset e hn hsgt hmap
    obtain ⟨p, hp, hfit, hbase, hdrop, hoff, hlen⟩ := h.space.mapBo_pages hn hbo hsgt hmap
    rw [hbase] at hmap ⊢
    exact rollbackIn hlen (by omega) (by omega) hmap

end Calls

/-- A native object of two pages, the second one above 4 GiB. -/
def splitBo : Bo :=
  { onePageBo with
    size := 8192
    pageDma := fun i => 0x40000000 + 0xC0000000 * i
    sgt := some [0x40000000, 0x100000000] }

def splitEnv : BoAddEnv := ⟨true, some 0x10000, fun k => some (0x50000000 + 0x8000 * k)⟩

/-- A device with such objects and one address space. -/
def splitSys : Sys :=
  (limaVmCreate (mali400Config.dev false) true (some 0x48000000) splitEnv.dmaAlloc
    (.fresh splitBo)).1

theorem splitSys_reachable : (vmLts mali400Config Bo.Fresh MmPromise).Reachable splitSys := by
  have hfresh : splitBo.Fresh :=
    ⟨by decide, rfl, fun pas h => ⟨rfl, 8192, le_rfl, (Option.some.inj h).symm⟩, rfl⟩
  have hinit : (vmLts mali400Config Bo.Fresh MmPromise).Reachable (.fresh splitBo) :=
    .init ⟨fun _ => rfl, rfl, fun _ => hfresh⟩
  exact hinit.step (a := .create false true (some 0x48000000) splitEnv.dmaAlloc)
    ⟨trivial, rfl⟩

/-- The second page is refused, and the first one unmapped again. -/
theorem map_failure_undone_split : ∃ s', limaVmBoAdd splitEnv 2 splitSys 0 0 true =
    .ok (s', some .erange) ∧ splitSys.Restored s' := by
  have hmm : MmPromise splitSys (.boAdd splitEnv 0 0 true) := by
    intro vm start hvm hstart
    obtain rfl := Option.some.inj hstart
    obtain rfl := Option.some.inj hvm
    exact ⟨⟨by decide, by decide, by decide, by decide, by decide⟩, fun t ht => by cases ht⟩
  have hcall : ∃ s', limaVmBoAdd splitEnv 2 splitSys 0 0 true = .ok (s', some .erange) :=
    ⟨_, rfl⟩
  obtain ⟨s', hcall⟩ := hcall
  exact ⟨s', hcall, ((map_failure_undone mali400Config splitSys_reachable 0 0).1 splitEnv true
    hmm).1 2 s' .erange hcall⟩

end Lima
