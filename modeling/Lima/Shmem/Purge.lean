import Lima.Shmem.Counts

/-!
# User mappings and purging

A fault maps the page the object records for the address, and moves it from the
object's swap object to the device object behind the mappings. `drm_gem_shmem_purge`
removes every translation of the pages recorded at that moment, and marks the object;
from then on a fault is refused. Here a backing page has a name and an owner, the
translations of the object's mappings are listed, and a population of the pages takes
what is left in the swap object or pages nobody uses. Translations are entered through
the fault handler only.
-/

namespace Lima

/-! ## Pages and translations -/

/-- The VM object that owns a backing page. -/
inductive PageOwner where
  | none | swap | device
deriving DecidableEq, Repr

inductive VmFault where
  | nopage | sigbus | oom
deriving DecidableEq, Repr

/-- A page-table entry of one of the object's mappings. -/
structure Pte where
  vma : ℕ
  address : ℕ
  page : ℕ
deriving DecidableEq, Repr

/-- An object and its user mappings: the page and its owner behind each entry of
`pages[]`, the pins outstanding, the live mappings and their translations. `purged` is
not stored: `drm_gem_shmem_purge` has returned. -/
structure ShmemMaps where
  obj : Shmem
  frames : ℕ → ℕ
  owner : ℕ → PageOwner
  pins : ℕ
  vmas : List ℕ
  ptes : List Pte
  purged : Bool

/-- `drm_gem_shmem_fault_index`. -/
def drmGemShmemFaultIndex (address vmStart npages : ℕ) : Option ℕ :=
  if address < vmStart then none
  else
    let idx := (address - vmStart) >>> 12
    if idx ≥ npages then none else some idx

namespace ShmemMaps

variable (s : ShmemMaps)

/-- `drm_gem_shmem_fault`; `ret` is what `lkpi_vmf_insert_pfn_prot_locked` returns and
`entered` whether the page has been mapped. -/
def drmGemShmemFault (vma vmStart address : ℕ) (ret : VmFault) (entered : Bool) :
    Outcome (ShmemMaps × VmFault) :=
  match drmGemShmemFaultIndex address vmStart s.obj.npages, s.obj.pages with
  | some idx, some pages =>
      if s.obj.madv < 0 then .ok (s, .sigbus)
      else if !pages idx then .oops
      else if entered then
        .ok ({ s with
          owner := Function.update s.owner idx .device
          ptes := ⟨vma, address, s.frames idx⟩ :: s.ptes }, ret)
      else .ok (s, ret)
  | _, _ => .ok (s, .sigbus)

/-- The entry's page is one that `drm_gem_shmem_zap_ptes` unmaps: recorded, and owned by
a VM object. -/
def zaps (pages : ℕ → Bool) (pte : Pte) : Bool :=
  (List.range s.obj.npages).any fun i =>
    pages i && s.owner i != .none && s.frames i == pte.page

/-- `drm_gem_shmem_zap_ptes`. -/
def drmGemShmemZapPtes : Outcome ShmemMaps :=
  match s.obj.pages with
  | none => .oops
  | some pages => .ok { s with ptes := s.ptes.filter fun pte => !s.zaps pages pte }

/-- `drm_gem_shmem_purge`. -/
def drmGemShmemPurge : Outcome ShmemMaps :=
  s.drmGemShmemZapPtes.bind fun s => s.obj.drmGemShmemPurge.bind fun x =>
    .ok { s with
      obj := x
      purged := true }

/-! ## The transition system -/

/-- No translation and no entry is to the page. -/
def Unused (page : ℕ) : Prop :=
  (∀ pte ∈ s.ptes, pte.page ≠ page) ∧ ∀ i < s.obj.npages, s.owner i ≠ .none → s.frames i ≠ page

/-- What a population of the pages can come up with: what the swap object still has, and
different unused pages. -/
def Populates (frames : ℕ → ℕ) : Prop :=
  (∀ i < s.obj.npages, s.owner i = .swap ∧ frames i = s.frames i ∨ s.Unused (frames i)) ∧
  ∀ i < s.obj.npages, ∀ j < s.obj.npages, frames i = frames j → i = j

instance (page : ℕ) : Decidable (s.Unused page) := inferInstanceAs (Decidable (_ ∧ _))

instance (frames : ℕ → ℕ) : Decidable (s.Populates frames) := inferInstanceAs (Decidable (_ ∧ _))

/-- The object after a call that has populated it with `frames`, if it has populated
it. -/
def withObj (x : Shmem) (frames : ℕ → ℕ) : ShmemMaps :=
  if s.obj.pagesUseCount = 0 ∧ x.pagesUseCount ≠ 0 then
    { s with
      obj := x
      frames := frames
      owner := fun _ => .swap }
  else { s with obj := x }

/-- Mappings gone, with their translations; with the last one goes the device object. -/
def closeVma (vma : ℕ) : ShmemMaps :=
  let vmas := s.vmas.erase vma
  { s with
    vmas := vmas
    ptes := if vmas = [] then [] else s.ptes.filter fun pte => pte.vma ∈ vmas
    owner := if vmas = [] then
      fun i => if s.owner i = .device then .none else s.owner i else s.owner }

/-- What a call has done to the pins and mappings. -/
def after (op : ShmemOp) (vma : ℕ) (r : Option Errno) : ShmemMaps :=
  match r, op with
  | some _, _ => s
  | none, .pin .. => { s with pins := s.pins + 1 }
  | none, .unpin => { s with pins := s.pins - 1 }
  | none, .mmap .. | none, .vmOpen => { s with vmas := vma :: s.vmas }
  | none, .vmClose => s.closeVma vma
  | none, _ => s

/-- A call; an object is purged if it is purgeable, and freed after its last mapping. -/
def call (op : ShmemOp) (vma : ℕ) (frames : ℕ → ℕ) : Option ShmemMaps :=
  match op with
  | .free => none
  | .purge exported =>
      if drmGemShmemPurgeable s.obj.madv s.obj.vmapUseCount s.obj.sgt exported false then
        s.drmGemShmemPurge.toOption
      else none
  | op => (op.call s.obj).toOption.map fun r => (s.withObj r.1 frames).after op vma r.2

/-- Releases before a purge match successes; what is called afterwards is arbitrary. -/
def Allowed (op : ShmemOp) (vma : ℕ) : Prop :=
  s.purged = true ∨
    match op with
    | .unpin => 0 < s.pins
    | .vmOpen => s.vmas ≠ []
    | .vmClose => vma ∈ s.vmas
    | _ => True

instance (op : ShmemOp) (vma : ℕ) : Decidable (s.Allowed op vma) :=
  match op with
  | .unpin => inferInstanceAs (Decidable (_ ∨ 0 < s.pins))
  | .vmOpen => inferInstanceAs (Decidable (_ ∨ ¬ s.vmas = []))
  | .vmClose => inferInstanceAs (Decidable (_ ∨ vma ∈ s.vmas))
  | .pin .. | .vmap .. | .vunmap | .mmap .. | .getPagesSgt .. | .madvise _ | .purge _ | .free =>
      inferInstanceAs (Decidable (_ ∨ True))

end ShmemMaps

inductive MapsAct where
  | call (op : ShmemOp) (vma : ℕ) (frames : ℕ → ℕ)
  | fault (vma vmStart address : ℕ) (ret : VmFault) (entered : Bool)
  | unmap (keep : Pte → Bool)

/-- Translations can go at any time. -/
def mapsStep (s : ShmemMaps) : MapsAct → Option ShmemMaps
  | .call op vma frames =>
      (s.call op vma frames).filter fun s' => s.Allowed op vma ∧
        (s.obj.pagesUseCount = 0 → s'.obj.pagesUseCount ≠ 0 → s.Populates frames)
  | .fault vma vmStart address ret entered =>
      if vma ∈ s.vmas then
        (s.drmGemShmemFault vma vmStart address ret entered).toOption.map Prod.fst
      else none
  | .unmap keep => some { s with ptes := s.ptes.filter keep }

def mapsLts : Lts ShmemMaps MapsAct where
  init s := ∃ size filp mapWc frames,
    s = ⟨.fresh size filp mapWc, frames, fun _ => .none, 0, [], [], false⟩
  step s a s' := mapsStep s a = some s'

/-- The call takes a reference on the pages. -/
def Shmem.takesRef (x : Shmem) : ShmemOp → Bool
  | .pin none _ | .mmap _ => true
  | .vmap .. => x.vmapUseCount == 0
  | .vmOpen => x.pagesUseCount != 0
  | .getPagesSgt none .. => !x.sgt
  | _ => false

/-- Until the object is purged, no call takes the reference that wraps the count. -/
def ShmemMaps.NoWrap (s : ShmemMaps) : MapsAct → Prop
  | .call op _ _ =>
      s.purged = false → s.obj.takesRef op = true → s.obj.pagesUseCount + 1 < 2 ^ 32
  | _ => True

instance (s : ShmemMaps) (a : MapsAct) : Decidable (s.NoWrap a) := by
  cases a with
  | call op vma frames => exact inferInstanceAs (Decidable (_ → _ → _ < _))
  | _ => exact instDecidableTrue

/-! ## References before a purge -/

namespace Shmem

variable {x : Shmem}

/-- The object holds its pages for as many references as it counts. -/
def Backed (x : Shmem) : Prop := x.backing x.pagesUseCount = x

/-- References of a kernel mapping and of the sg table. -/
def inner (x : Shmem) : ℕ := (if 0 < x.vmapUseCount then 1 else 0) + x.sgt.toNat

theorem Backed.pages (hx : x.Backed) :
    x.pages = if x.pagesUseCount = 0 then none else some fun i => decide (i < x.npages) :=
  (congrArg Shmem.pages hx).symm

theorem backed_backing (x : Shmem) (n : ℕ) : (x.backing n).Backed := rfl

/-- The fields `backing` does not look at can change. -/
theorem Backed.set (hx : x.Backed) (madv : ℤ) (sgt vaddr : Bool) (vmapUseCount : ℕ) :
    ({ x with
      madv := madv
      sgt := sgt
      vaddr := vaddr
      vmapUseCount := vmapUseCount } : Shmem).Backed := by
  show { x.backing x.pagesUseCount with
    madv := madv
    sgt := sgt
    vaddr := vaddr
    vmapUseCount := vmapUseCount } = _
  rw [hx]

theorem Backed.getPages (hx : x.Backed) (hlt : x.pagesUseCount + 1 < 2 ^ 32) (env : PagesEnv) :
    (∃ e, x.drmGemShmemGetPages env = (x, some e)) ∨
      x.drmGemShmemGetPages env = (x.backing (x.pagesUseCount + 1), none) := by
  have hget := x.getPages_backing env (n := x.pagesUseCount) hlt
  rw [hx] at hget
  rcases hget with ⟨-, hfail⟩ | hok
  · exact .inl hfail
  · exact .inr hok

theorem Backed.putPages (hx : x.Backed) :
    x.drmGemShmemPutPages = .ok (x.backing (x.pagesUseCount - 1)) := by
  cases hcount : x.pagesUseCount with
  | zero =>
      have hzero : x.backing 0 = x := by
        rw [← hcount]
        exact hx
      have hunref : drmGemShmemUnref x.pagesUseCount = (0, .underflow) := by
        rw [hcount]
        rfl
      rw [Nat.zero_sub, hzero, drmGemShmemPutPages, hunref]
  | succ n =>
      have hput := x.putPages_backing n
      rw [← hcount, hx] at hput
      rw [hput]
      rfl

/-- What a call of the kernel's does to an object whose pages are held: the references
that are not inner ones do not change in number. -/
structure Keeps (x y : Shmem) : Prop where
  backed : y.Backed
  size : y.size = x.size
  inner : x.pagesUseCount + y.inner ≤ y.pagesUseCount + x.inner

theorem Keeps.refl (hx : x.Backed) : x.Keeps x := ⟨hx, rfl, le_rfl⟩

theorem Backed.vmap (hx : x.Backed) {env : PagesEnv} {vmapOk : Bool} {y : Shmem}
    {r : Option Errno} (hlt : x.vmapUseCount = 0 → x.pagesUseCount + 1 < 2 ^ 32)
    (h : x.drmGemShmemVmap env vmapOk = .ok (y, r)) : x.Keeps y := by
  by_cases hzero : x.vmapUseCount = 0
  · obtain ⟨z, hz⟩ : ∃ z : Shmem, z = { x with vmapUseCount := 1 } := ⟨_, rfl⟩
    have hback : z.Backed := by
      rw [hz]
      exact hx.set x.madv x.sgt x.vaddr 1
    have hcount : z.pagesUseCount = x.pagesUseCount := by rw [hz]
    have hsame : { z with vmapUseCount := 0 } = x := by
      rw [hz]
      show { x with vmapUseCount := 0 } = x
      rw [← hzero]
    obtain ⟨hfail, hok⟩ := x.vmap_first env vmapOk hzero hz
    rcases hback.getPages (by rw [hcount]; exact hlt hzero) env with ⟨e, hget⟩ | hget
    · rw [hfail _ _ hget, hsame] at h
      cases h
      exact .refl hx
    · have hcall := hok _ _ hget (backing_succ_pages z _)
      rw [hcall] at h
      cases vmapOk with
      | true =>
          cases h
          refine ⟨rfl, by rw [hz]; rfl, ?_⟩
          rw [hz]
          simp [inner, hzero, Shmem.backing]
          omega
      | false =>
          have hput := ({ z with vaddr := false }.backing (z.pagesUseCount + 1)).putPages_backing
            z.pagesUseCount
          rw [backing_backing, backing_backing] at hput
          rw [if_neg (by simp)] at h
          rw [show ({ z.backing (z.pagesUseCount + 1) with vaddr := false } : Shmem) =
            { z with vaddr := false }.backing (z.pagesUseCount + 1) from rfl, hput] at h
          cases h
          refine ⟨rfl, by rw [hz]; rfl, ?_⟩
          rw [hz]
          simp [inner, hzero, Shmem.backing]
  · have hcall : x.drmGemShmemVmap env vmapOk =
        .ok ({ x with vmapUseCount := u32 (x.vmapUseCount + 1) }, none) := by
      simp [drmGemShmemVmap, drmGemShmemRefFirst, hzero]
    rw [hcall] at h
    cases h
    refine ⟨hx.set x.madv x.sgt x.vaddr _, rfl, ?_⟩
    simp only [inner, if_pos (Nat.pos_of_ne_zero hzero)]
    split <;> omega

theorem Backed.vunmap (hx : x.Backed) {y : Shmem} (h : x.drmGemShmemVunmap = .ok y) :
    x.Keeps y := by
  unfold drmGemShmemVunmap at h
  rcases Nat.lt_trichotomy x.vmapUseCount 1 with hlt | hone | hgt
  · have hunref : drmGemShmemUnref x.vmapUseCount = (0, .underflow) := by
      rw [Nat.lt_one_iff.mp hlt]
      rfl
    rw [hunref] at h
    cases h
    exact .refl hx
  · have hunref : drmGemShmemUnref x.vmapUseCount = (0, .release) := by
      rw [hone]
      rfl
    have hback := hx.set x.madv x.sgt x.vaddr 0
    rw [hunref] at h
    simp only [hback.putPages, Outcome.bind_ok] at h
    cases h
    refine ⟨rfl, rfl, ?_⟩
    simp [inner, hone, Shmem.backing]
    omega
  · have hunref : drmGemShmemUnref x.vmapUseCount = (x.vmapUseCount - 1, .keep) := by
      rw [drmGemShmemUnref, if_neg (by omega), if_pos (by omega)]
    rw [hunref] at h
    cases h
    refine ⟨hx.set x.madv x.sgt x.vaddr _, rfl, ?_⟩
    simp only [inner, if_pos (show 0 < x.vmapUseCount by omega),
      if_pos (show 0 < x.vmapUseCount - 1 by omega)]
    omega

theorem Backed.getPagesSgt (hx : x.Backed) {env : PagesEnv} {sgAlloc dmaMap : Option Errno}
    {y : Shmem} {r : Option Errno} (hlt : x.sgt = false → x.pagesUseCount + 1 < 2 ^ 32)
    (h : x.drmGemShmemGetPagesSgtLocked env sgAlloc dmaMap = .ok (y, r)) : x.Keeps y := by
  unfold drmGemShmemGetPagesSgtLocked at h
  cases hsgt : x.sgt with
  | true =>
      rw [if_pos hsgt] at h
      cases h
      exact .refl hx
  | false =>
      rw [if_neg (by simp [hsgt])] at h
      rcases hx.getPages (hlt hsgt) env with ⟨e, hget⟩ | hget
      · rw [hget] at h
        cases h
        exact .refl hx
      · rw [hget] at h
        simp only [backing_succ_pages] at h
        cases hfail : sgAlloc.or dmaMap with
        | some e =>
            rw [hfail] at h
            simp only [putPages_backing, Outcome.bind_ok] at h
            cases h
            rw [hx]
            exact .refl hx
        | none =>
            rw [hfail] at h
            cases h
            refine ⟨rfl, rfl, ?_⟩
            simp [inner, hsgt, Shmem.backing]
            omega

theorem Backed.madvise (hx : x.Backed) (madv : ℤ) : x.Keeps (x.drmGemShmemMadvise madv) :=
  ⟨hx.set _ x.sgt x.vaddr x.vmapUseCount, rfl, le_rfl⟩

end Shmem

/-! ## The mark of a purge -/

namespace Shmem

variable {x y : Shmem}

theorem freebsdGetPages_madv (x : Shmem) (env : PagesEnv) :
    (x.drmGemShmemFreebsdGetPages env).1.madv = x.madv := by
  unfold drmGemShmemFreebsdGetPages
  split_ifs <;> try rfl
  split <;> rfl

theorem getPages_madv (x : Shmem) (env : PagesEnv) :
    (x.drmGemShmemGetPages env).1.madv = x.madv := by
  unfold drmGemShmemGetPages
  dsimp only
  split
  · rfl
  · have hmadv := freebsdGetPages_madv
      { x with pagesUseCount := (drmGemShmemRefFirst x.pagesUseCount).1 } env
    split
    · next z e heq =>
        rw [heq] at hmadv
        exact hmadv
    · next z pages heq =>
        rw [heq] at hmadv
        dsimp only
        split <;> exact hmadv

theorem putPages_madv (h : x.drmGemShmemPutPages = .ok y) : y.madv = x.madv := by
  unfold drmGemShmemPutPages at h
  split at h
  · cases h
    rfl
  · cases h
    rfl
  · split at h
    · cases h
    · dsimp only at h
      split at h <;> cases h <;> rfl

theorem vmap_madv {env : PagesEnv} {vmapOk : Bool} {r : Option Errno}
    (h : x.drmGemShmemVmap env vmapOk = .ok (y, r)) : y.madv = x.madv := by
  unfold drmGemShmemVmap at h
  dsimp only at h
  split at h
  · cases h
    rfl
  · have hget := getPages_madv
      { x with vmapUseCount := (drmGemShmemRefFirst x.vmapUseCount).1 } env
    split at h
    · next z e heq =>
        rw [heq] at hget
        cases h
        exact hget
    · next z heq =>
        rw [heq] at hget
        split at h
        · cases h
        · split at h
          · cases h
            exact hget
          · obtain ⟨w, hput, hw⟩ := Outcome.bind_eq_ok h
            cases hw
            exact (putPages_madv hput).trans hget

theorem vunmap_madv (h : x.drmGemShmemVunmap = .ok y) : y.madv = x.madv := by
  unfold drmGemShmemVunmap at h
  split at h
  · cases h
    rfl
  · cases h
    rfl
  · obtain ⟨w, hput, hw⟩ := Outcome.bind_eq_ok h
    have hmadv := putPages_madv hput
    cases hw
    exact hmadv

theorem getPagesSgt_madv {env : PagesEnv} {sgAlloc dmaMap : Option Errno} {r : Option Errno}
    (h : x.drmGemShmemGetPagesSgtLocked env sgAlloc dmaMap = .ok (y, r)) :
    y.madv = x.madv := by
  unfold drmGemShmemGetPagesSgtLocked at h
  split at h
  · cases h
    rfl
  · have hget := getPages_madv x env
    split at h
    · next z e heq =>
        rw [heq] at hget
        cases h
        exact hget
    · next z heq =>
        rw [heq] at hget
        split at h
        · cases h
        · split at h
          · obtain ⟨w, hput, hw⟩ := Outcome.bind_eq_ok h
            cases hw
            exact (putPages_madv hput).trans hget
          · cases h
            exact hget

/-- No call takes the mark of a purged object away. -/
theorem call_madv {op : ShmemOp} {r : Option Errno} (hx : x.madv < 0)
    (h : op.call x = .ok (y, r)) : y.madv < 0 := by
  have hsame : y.madv = x.madv → y.madv < 0 := fun heq => heq ▸ hx
  have hput : ∀ {r : Option Errno},
      (x.drmGemShmemPutPages.bind fun x => .ok (x, none)) = .ok (y, r) → y.madv = x.madv := by
    intro r h
    obtain ⟨w, hw, heq⟩ := Outcome.bind_eq_ok h
    cases heq
    exact putPages_madv hw
  cases op with
  | pin lockErr env =>
      cases lockErr with
      | some e =>
          cases h
          exact hx
      | none =>
          have hget := getPages_madv x env
          rw [show x.drmGemShmemGetPages env = (y, r) from Outcome.ok.inj h] at hget
          exact hsame hget
  | unpin => exact hsame (hput h)
  | vmap env vmapOk => exact hsame (vmap_madv h)
  | vunmap =>
      obtain ⟨w, hw, heq⟩ := Outcome.bind_eq_ok h
      cases heq
      exact hsame (vunmap_madv hw)
  | mmap env =>
      have hget := getPages_madv x env
      rw [show x.drmGemShmemGetPages env = (y, r) from Outcome.ok.inj h] at hget
      exact hsame hget
  | vmOpen =>
      cases h
      rw [drmGemShmemVmOpen]
      split <;> exact hx
  | vmClose => exact hsame (hput h)
  | getPagesSgt lockErr env sgAlloc dmaMap =>
      cases lockErr with
      | some e =>
          cases h
          exact hx
      | none => exact hsame (getPagesSgt_madv h)
  | madvise madv =>
      cases h
      show (drmGemShmemMadviseApply x.madv madv).1 < 0
      rw [drmGemShmemMadviseApply, if_neg (not_le.mpr hx)]
      exact hx
  | purge exported =>
      obtain ⟨w, hw, heq⟩ := Outcome.bind_eq_ok h
      cases heq
      unfold drmGemShmemPurge at hw
      split at hw
      · cases hw
      · split at hw
        · cases hw
        · obtain ⟨v, -, hv⟩ := Outcome.bind_eq_ok hw
          cases hv
          exact show (-1 : ℤ) < 0 by decide
  | free =>
      obtain ⟨w, hw, heq⟩ := Outcome.bind_eq_ok h
      cases heq
      unfold drmGemShmemFree at hw
      dsimp only at hw
      split at hw
      · have hmadv := putPages_madv hw
        exact hsame hmadv
      · cases hw
        exact hx

end Shmem

/-! ## Before and after a purge -/

namespace ShmemMaps

variable {s s' : ShmemMaps}

/-- Before a purge: the pins and mappings hold references besides the inner ones, and a
translation of a live mapping is to a recorded page that the device object owns. -/
structure Ok (s : ShmemMaps) : Prop where
  backed : s.obj.Backed
  refs : s.pins + s.vmas.length + s.obj.inner ≤ s.obj.pagesUseCount
  ptes : ∀ pte ∈ s.ptes, pte.vma ∈ s.vmas ∧
    ∃ i < s.obj.npages, s.frames i = pte.page ∧ s.owner i = .device

/-- After it: no translation, and the mark. -/
structure Silent (s : ShmemMaps) : Prop where
  ptes : s.ptes = []
  madv : s.obj.madv < 0

theorem withObj_of_le {x : Shmem} (h : x.pagesUseCount ≤ s.obj.pagesUseCount)
    (frames : ℕ → ℕ) : s.withObj x frames = { s with obj := x } := by
  rw [withObj, if_neg (by omega)]

theorem withObj_frame (s : ShmemMaps) (x : Shmem) (frames : ℕ → ℕ) :
    (s.withObj x frames).obj = x ∧ (s.withObj x frames).pins = s.pins ∧
      (s.withObj x frames).vmas = s.vmas ∧ (s.withObj x frames).ptes = s.ptes ∧
      (s.withObj x frames).purged = s.purged := by
  unfold withObj
  split <;> exact ⟨rfl, rfl, rfl, rfl, rfl⟩

/-- A population happens only when there is no mapping. -/
theorem Ok.withObj (h : s.Ok) {x : Shmem} (hb : x.Backed) (hsize : x.size = s.obj.size)
    (hrefs : s.pins + s.vmas.length + x.inner ≤ x.pagesUseCount) (frames : ℕ → ℕ) :
    (s.withObj x frames).Ok := by
  obtain ⟨hobj, hpins, hvmas, hptes, -⟩ := withObj_frame s x frames
  refine ⟨?_, ?_, ?_⟩
  · rw [hobj]
    exact hb
  · rw [hobj, hpins, hvmas]
    exact hrefs
  · rw [hptes, hvmas, hobj]
    intro pte hpte
    obtain ⟨hvma, i, hi, hframe, howner⟩ := h.ptes pte hpte
    have hpos := List.length_pos_of_mem hvma
    have hheld : ¬ (s.obj.pagesUseCount = 0 ∧ x.pagesUseCount ≠ 0) := by
      have := h.refs
      omega
    refine ⟨hvma, i, ?_, ?_⟩
    · rwa [Shmem.npages, hsize]
    · rw [ShmemMaps.withObj, if_neg hheld]
      exact ⟨hframe, howner⟩

theorem Ok.keeps (h : s.Ok) {x : Shmem} (hx : s.obj.Keeps x) (frames : ℕ → ℕ) :
    (s.withObj x frames).Ok := by
  refine h.withObj hx.backed hx.size ?_ frames
  have h1 := h.refs
  have h2 := hx.inner
  omega

/-- One more reference, for a pin or a mapping. -/
theorem Ok.take (h : s.Ok) (frames : ℕ → ℕ) :
    (s.withObj (s.obj.backing (s.obj.pagesUseCount + 1)) frames).Ok ∧
      s.pins + s.vmas.length + s.obj.inner + 1 ≤ s.obj.pagesUseCount + 1 := by
  have href := h.refs
  refine ⟨h.withObj (s.obj.backed_backing _) rfl ?_ frames, by omega⟩
  show _ + s.obj.inner ≤ s.obj.pagesUseCount + 1
  omega

theorem Ok.addPin (h : s.Ok)
    (hroom : s.pins + 1 + s.vmas.length + s.obj.inner ≤ s.obj.pagesUseCount) :
    Ok { s with pins := s.pins + 1 } :=
  ⟨h.backed, hroom, h.ptes⟩

theorem Ok.addVma (h : s.Ok)
    (hroom : s.pins + (s.vmas.length + 1) + s.obj.inner ≤ s.obj.pagesUseCount) (vma : ℕ) :
    Ok { s with vmas := vma :: s.vmas } := by
  refine ⟨h.backed, hroom, ?_⟩
  intro pte hpte
  obtain ⟨hvma, hframe⟩ := h.ptes pte hpte
  exact ⟨List.mem_cons_of_mem _ hvma, hframe⟩

/-- The reference of a pin is dropped. -/
theorem Ok.dropPin (h : s.Ok) (hpos : 0 < s.pins) :
    Ok { s with
      obj := s.obj.backing (s.obj.pagesUseCount - 1)
      pins := s.pins - 1 } := by
  have href := h.refs
  refine ⟨rfl, ?_, h.ptes⟩
  show s.pins - 1 + s.vmas.length + s.obj.inner ≤ s.obj.pagesUseCount - 1
  omega

/-- The reference of a mapping is dropped, and its translations are gone. -/
theorem Ok.dropVma (h : s.Ok) {vma : ℕ} (hvma : vma ∈ s.vmas) :
    Ok (closeVma { s with obj := s.obj.backing (s.obj.pagesUseCount - 1) } vma) := by
  have href := h.refs
  have hpos := List.length_pos_of_mem hvma
  refine ⟨rfl, ?_, ?_⟩
  · show s.pins + (s.vmas.erase vma).length + s.obj.inner ≤ s.obj.pagesUseCount - 1
    rw [List.length_erase_of_mem hvma]
    omega
  · intro pte hpte
    by_cases hlast : s.vmas.erase vma = []
    · simp [closeVma, hlast] at hpte
    · have hpte' : pte ∈ s.ptes ∧ pte.vma ∈ s.vmas.erase vma := by
        simpa [closeVma, hlast] using hpte
      obtain ⟨-, i, hi, hframe, howner⟩ := h.ptes pte hpte'.1
      refine ⟨hpte'.2, i, hi, hframe, ?_⟩
      simp only [closeVma, if_neg hlast]
      exact howner

/-- A purge of a purgeable object removes every translation and marks the object. -/
theorem Ok.purge (h : s.Ok) (hsgt : s.obj.sgt = true) :
    ∃ s', s.drmGemShmemPurge = .ok s' ∧ s'.Silent ∧ s'.purged = true := by
  obtain ⟨n, hn⟩ : ∃ n, s.obj.pagesUseCount = n + 1 := by
    have href := h.refs
    refine Nat.exists_eq_succ_of_ne_zero ?_
    simp only [Shmem.inner, hsgt, Bool.toNat_true] at href
    omega
  have hpages : s.obj.pages = some fun i => decide (i < s.obj.npages) := by
    rw [h.backed.pages, if_neg (by omega)]
  have hzap : s.drmGemShmemZapPtes = .ok { s with ptes := [] } := by
    simp only [drmGemShmemZapPtes, hpages]
    congr 2
    rw [List.filter_eq_nil_iff]
    intro pte hpte
    obtain ⟨-, i, hi, hframe, howner⟩ := h.ptes pte hpte
    have hzaps : s.zaps (fun i => decide (i < s.obj.npages)) pte = true := by
      rw [zaps, List.any_eq_true]
      exact ⟨i, List.mem_range.mpr hi, by simp [hi, howner, hframe]⟩
    simp [hzaps]
  have hpurge := s.obj.purge_backing n hsgt
  rw [← hn, h.backed] at hpurge
  have hcall : s.drmGemShmemPurge = .ok { s with
      obj := { s.obj.backing n with
        sgt := false
        madv := -1 }
      ptes := []
      purged := true } := by
    rw [drmGemShmemPurge, hzap, Outcome.bind_ok]
    show s.obj.drmGemShmemPurge.bind _ = _
    rw [hpurge]
    rfl
  exact ⟨_, hcall, ⟨rfl, show (-1 : ℤ) < 0 by decide⟩, rfl⟩

/-! ## Steps -/

theorem after_purged (s : ShmemMaps) (op : ShmemOp) (vma : ℕ) (r : Option Errno) :
    (s.after op vma r).purged = s.purged := by
  unfold after
  split <;> rfl

/-- A call that is no purge changes the object and then the books. -/
theorem call_eq {op : ShmemOp} {vma : ℕ} {frames : ℕ → ℕ}
    (h : s.call op vma frames = some s') :
    ((op ≠ .free ∧ ∀ exported, op ≠ .purge exported) ∧
        ∃ x r, op.call s.obj = .ok (x, r) ∧ s' = (s.withObj x frames).after op vma r) ∨
      ∃ exported, op = .purge exported ∧
        drmGemShmemPurgeable s.obj.madv s.obj.vmapUseCount s.obj.sgt exported false = true ∧
        s.drmGemShmemPurge = .ok s' := by
  unfold call at h
  split at h
  · cases h
  · next exported =>
      split at h
      · next hable => exact .inr ⟨exported, rfl, hable, Outcome.toOption_eq_some.mp h⟩
      · cases h
  · next hfree hpurge =>
      obtain ⟨⟨x, r⟩, hx, rfl⟩ := Option.map_eq_some_iff.mp h
      exact .inl ⟨⟨hfree, hpurge⟩, x, r, Outcome.toOption_eq_some.mp hx, rfl⟩

/-- A call that took a reference or failed, and what it is then booked as. -/
theorem Ok.getPages (h : s.Ok) (hlt : s.obj.pagesUseCount + 1 < 2 ^ 32) {env : PagesEnv}
    {x : Shmem} {r : Option Errno} (hget : s.obj.drmGemShmemGetPages env = (x, r))
    (frames : ℕ → ℕ) :
    (∃ e, r = some e ∧ (s.withObj x frames).Ok) ∨ r = none ∧ (s.withObj x frames).Ok ∧
      (s.withObj x frames).pins + (s.withObj x frames).vmas.length +
        (s.withObj x frames).obj.inner + 1 ≤ (s.withObj x frames).obj.pagesUseCount := by
  rcases h.backed.getPages hlt env with ⟨e, hfail⟩ | hok
  · rw [hfail] at hget
    cases hget
    exact .inl ⟨e, rfl, h.keeps (.refl h.backed) frames⟩
  · rw [hok] at hget
    cases hget
    obtain ⟨hOk, hroom⟩ := h.take frames
    obtain ⟨hobj, hpins, hvmas, -⟩ :=
      withObj_frame s (s.obj.backing (s.obj.pagesUseCount + 1)) frames
    refine .inr ⟨rfl, hOk, ?_⟩
    rw [hobj, hpins, hvmas]
    exact hroom

theorem Ok.putPages (h : s.Ok) {x : Shmem} {r : Option Errno}
    (hcall : (s.obj.drmGemShmemPutPages.bind fun x => .ok (x, none)) = .ok (x, r))
    (frames : ℕ → ℕ) :
    r = none ∧ x = s.obj.backing (s.obj.pagesUseCount - 1) ∧
      s.withObj x frames = { s with obj := x } := by
  rw [h.backed.putPages] at hcall
  cases hcall
  exact ⟨rfl, rfl, withObj_of_le (Nat.sub_le _ _) frames⟩

theorem Ok.call (h : s.Ok) (hp : s.purged = false) {op : ShmemOp} {vma : ℕ}
    {frames : ℕ → ℕ} (ha : s.Allowed op vma)
    (hw : s.obj.takesRef op = true → s.obj.pagesUseCount + 1 < 2 ^ 32)
    (hstep : s.call op vma frames = some s') :
    s'.purged = false ∧ s'.Ok ∨ s'.purged = true ∧ s'.Silent := by
  rcases call_eq hstep with ⟨⟨hfree, hpurge⟩, x, r, hcall, rfl⟩ | ⟨exported, rfl, hable, hpurge⟩
  · left
    refine ⟨?_, ?_⟩
    · rw [after_purged, (withObj_frame s x frames).2.2.2.2, hp]
    have ha' := ha.resolve_left (by rw [hp]; decide)
    have hinner : s.obj.Keeps x → ((s.withObj x frames).after op vma r) = s.withObj x frames →
        ((s.withObj x frames).after op vma r).Ok := by
      intro hk heq
      rw [heq]
      exact h.keeps hk frames
    cases op with
    | pin lockErr env =>
        cases lockErr with
        | some e =>
            cases hcall
            exact h.keeps (.refl h.backed) frames
        | none =>
            rcases h.getPages (hw rfl) (Outcome.ok.inj hcall) frames with
              ⟨e, rfl, hok⟩ | ⟨rfl, hok, hroom⟩
            · exact hok
            · exact hok.addPin (by omega)
    | unpin =>
        obtain ⟨rfl, rfl, heq⟩ := h.putPages hcall frames
        rw [heq]
        exact h.dropPin ha'
    | vmap env vmapOk =>
        refine hinner (h.backed.vmap (fun hzero => hw ?_) hcall) ?_
        · simp [Shmem.takesRef, hzero]
        · cases r <;> rfl
    | vunmap =>
        obtain ⟨y, hy, heq⟩ := Outcome.bind_eq_ok hcall
        cases heq
        exact hinner (h.backed.vunmap hy) rfl
    | mmap env =>
        rcases h.getPages (hw rfl) (Outcome.ok.inj hcall) frames with
          ⟨e, rfl, hok⟩ | ⟨rfl, hok, hroom⟩
        · exact hok
        · exact hok.addVma (by omega) vma
    | vmOpen =>
        have hpos := List.length_pos_of_ne_nil ha'
        have hne : s.obj.pagesUseCount ≠ 0 := by
          have := h.refs
          omega
        have hlt := hw (by simp [Shmem.takesRef, hne])
        have hobj : ({ s.obj with pagesUseCount := s.obj.pagesUseCount + 1 } : Shmem) =
            s.obj.backing (s.obj.pagesUseCount + 1) := by
          conv_lhs => rw [← h.backed]
          simp [Shmem.backing, hne]
        simp only [ShmemOp.call, Shmem.drmGemShmemVmOpen, if_neg hne, u32_of_lt hlt,
          hobj] at hcall
        cases hcall
        obtain ⟨hOk, hroom⟩ := h.take frames
        obtain ⟨hobj', hpins, hvmas, -⟩ :=
          withObj_frame s (s.obj.backing (s.obj.pagesUseCount + 1)) frames
        refine hOk.addVma ?_ vma
        rw [hobj', hpins, hvmas]
        show s.pins + (s.vmas.length + 1) + s.obj.inner ≤ s.obj.pagesUseCount + 1
        omega
    | vmClose =>
        obtain ⟨rfl, rfl, heq⟩ := h.putPages hcall frames
        rw [heq]
        exact h.dropVma ha'
    | getPagesSgt lockErr env sgAlloc dmaMap =>
        cases lockErr with
        | some e =>
            cases hcall
            exact h.keeps (.refl h.backed) frames
        | none =>
            refine hinner (h.backed.getPagesSgt (fun hsgt => hw ?_) hcall) ?_
            · simp [Shmem.takesRef, hsgt]
            · cases r <;> rfl
    | madvise madv =>
        cases hcall
        exact hinner (h.backed.madvise madv) rfl
    | purge exported => exact absurd rfl (hpurge exported)
    | free => exact absurd rfl hfree
  · right
    have hsgt : s.obj.sgt = true := by
      simp only [drmGemShmemPurgeable, Bool.and_eq_true] at hable
      exact hable.1.1.2
    obtain ⟨t, ht, hsilent, hpurged⟩ := h.purge hsgt
    rw [hpurge] at ht
    cases ht
    exact ⟨hpurged, hsilent⟩

theorem Silent.call (h : s.Silent) {op : ShmemOp} {vma : ℕ} {frames : ℕ → ℕ}
    (hstep : s.call op vma frames = some s') : s'.purged = s.purged ∧ s'.Silent := by
  rcases call_eq hstep with ⟨-, x, r, hcall, rfl⟩ | ⟨exported, -, hable, -⟩
  · have hmadv := Shmem.call_madv h.madv hcall
    obtain ⟨hobj, -, -, hptes, hpurged⟩ := withObj_frame s x frames
    refine ⟨(after_purged _ _ _ _).trans hpurged, ?_⟩
    generalize s.withObj x frames = t at hobj hptes
    have hsilent : t.Silent := ⟨hptes.trans h.ptes, by rw [hobj]; exact hmadv⟩
    unfold after
    split
    · exact hsilent
    · exact ⟨hsilent.ptes, hsilent.madv⟩
    · exact ⟨hsilent.ptes, hsilent.madv⟩
    · exact ⟨hsilent.ptes, hsilent.madv⟩
    · exact ⟨hsilent.ptes, hsilent.madv⟩
    · refine ⟨?_, hsilent.madv⟩
      simp [closeVma, hsilent.ptes]
    · exact hsilent
  · have hpos : 0 < s.obj.madv := by
      simp only [drmGemShmemPurgeable, Bool.and_eq_true, decide_eq_true_eq] at hable
      exact hable.1.1.1.1
    have hneg := h.madv
    omega

/-- A marked object refuses every fault. -/
theorem fault_sigbus (h : s.obj.madv < 0) (vma vmStart address : ℕ) (ret : VmFault)
    (entered : Bool) :
    s.drmGemShmemFault vma vmStart address ret entered = .ok (s, .sigbus) := by
  unfold drmGemShmemFault
  split
  · rw [if_pos h]
  · rfl

theorem faultIndex_lt {address vmStart npages idx : ℕ}
    (h : drmGemShmemFaultIndex address vmStart npages = some idx) : idx < npages := by
  unfold drmGemShmemFaultIndex at h
  split at h
  · cases h
  · dsimp only at h
    split at h
    · cases h
    · next hlt =>
        cases h
        exact not_le.mp hlt

/-- A fault enters a recorded page for a live mapping. -/
theorem Ok.fault (h : s.Ok) {vma vmStart address : ℕ} {ret r : VmFault} {entered : Bool}
    (hvma : vma ∈ s.vmas)
    (hf : s.drmGemShmemFault vma vmStart address ret entered = .ok (s', r)) :
    s'.purged = s.purged ∧ s'.Ok := by
  unfold drmGemShmemFault at hf
  split at hf
  · next idx pages hidx hpages =>
      split at hf
      · cases hf
        exact ⟨rfl, h⟩
      · split at hf
        · cases hf
        · split at hf
          · cases hf
            refine ⟨rfl, h.backed, h.refs, ?_⟩
            intro pte hpte
            rcases List.mem_cons.mp hpte with rfl | hpte
            · exact ⟨hvma, idx, faultIndex_lt hidx, rfl, Function.update_self ..⟩
            · obtain ⟨hv, i, hi, hframe, howner⟩ := h.ptes pte hpte
              refine ⟨hv, i, hi, hframe, ?_⟩
              show Function.update s.owner idx .device i = .device
              by_cases heq : i = idx
              · rw [heq, Function.update_self]
              · rw [Function.update_of_ne heq, howner]
          · cases hf
            exact ⟨rfl, h⟩
  · cases hf
    exact ⟨rfl, h⟩

/-- An object is before its purge, or after it. -/
def Sound (s : ShmemMaps) : Prop :=
  s.purged = false ∧ s.Ok ∨ s.purged = true ∧ s.Silent

theorem Sound.step {a : MapsAct} (h : s.Sound) (hw : s.NoWrap a)
    (hstep : mapsStep s a = some s') : s'.Sound := by
  cases a with
  | call op vma frames =>
      obtain ⟨hcall, hok⟩ := Option.filter_eq_some_iff.mp hstep
      have ha : s.Allowed op vma := (of_decide_eq_true hok).1
      rcases h with ⟨hp, hok⟩ | ⟨hp, hsilent⟩
      · exact hok.call hp ha (hw hp) hcall
      · obtain ⟨hp', hsilent'⟩ := hsilent.call hcall
        exact .inr ⟨hp'.trans hp, hsilent'⟩
  | fault vma vmStart address ret entered =>
      obtain ⟨hvma, hret⟩ := Option.ite_none_right_eq_some.mp hstep
      obtain ⟨⟨t, r⟩, hf, rfl⟩ := Option.map_eq_some_iff.mp hret
      rw [Outcome.toOption_eq_some] at hf
      rcases h with ⟨hp, hok⟩ | ⟨hp, hsilent⟩
      · obtain ⟨hp', hok'⟩ := hok.fault hvma hf
        exact .inl ⟨hp'.trans hp, hok'⟩
      · rw [fault_sigbus hsilent.madv] at hf
        cases hf
        exact .inr ⟨hp, hsilent⟩
  | unmap keep =>
      obtain rfl : { s with ptes := s.ptes.filter keep } = s' := Option.some.inj hstep
      rcases h with ⟨hp, hok⟩ | ⟨hp, hsilent⟩
      · refine .inl ⟨hp, hok.backed, hok.refs, ?_⟩
        intro pte hpte
        exact hok.ptes pte (List.mem_filter.mp hpte).1
      · refine .inr ⟨hp, ?_, hsilent.madv⟩
        show s.ptes.filter keep = []
        rw [hsilent.ptes]
        rfl

end ShmemMaps

/-! ## Main results -/

/-- **Main result.** If the count of the pages' references does not wrap before a purge,
then from the purge on the object's mappings have no translation, every fault is refused,
and the object stays marked and is not purgeable. -/
theorem purged_silent {s : ShmemMaps} (h : mapsLts.Via ShmemMaps.NoWrap s)
    (hp : s.purged = true) :
    s.ptes = [] ∧
    (∀ vma vmStart address ret entered,
      s.drmGemShmemFault vma vmStart address ret entered = .ok (s, .sigbus)) ∧
    s.obj.madv < 0 ∧
    ∀ exported imported, drmGemShmemPurgeable s.obj.madv s.obj.vmapUseCount s.obj.sgt exported
      imported = false := by
  have hsound : s.Sound := by
    refine Lts.Via.invariant (I := ShmemMaps.Sound) ?_ ?_ h
    · rintro s ⟨size, filp, mapWc, frames, rfl⟩
      refine .inl ⟨rfl, ?_, le_rfl, by simp⟩
      simp [Shmem.Backed, Shmem.fresh, Shmem.backing]
    · intro s a s' _ hs ha hstep
      exact hs.step ha hstep
  obtain ⟨-, hsilent⟩ : s.purged = true ∧ s.Silent := by
    rcases hsound with ⟨hno, -⟩ | hsilent
    · rw [hp] at hno
      cases hno
    · exact hsilent
  refine ⟨hsilent.ptes, ShmemMaps.fault_sigbus hsilent.madv, hsilent.madv, ?_⟩
  intro exported imported
  have hneg := hsilent.madv
  have hpos : ¬ 0 < s.obj.madv := by omega
  simp [drmGemShmemPurgeable, hpos]

/-- An object of the given size after `drm_gem_shmem_create`. -/
def ShmemMaps.fresh (size : ℕ) : ShmemMaps :=
  ⟨.fresh size true false, fun _ => 0, fun _ => .none, 0, [], [], false⟩

/-- An object of two pages is mapped twice and faulted in; it is purged with both
mappings live, pinned, and faulted on again. -/
def purgeRun : List MapsAct :=
  [.call (.mmap pagesOk) 0 fun i => 10 + i, .fault 0 4096 8192 .nopage true,
    .call (.mmap pagesOk) 1 id, .fault 1 0 0 .nopage true, .call (.madvise 1) 0 id,
    .call (.getPagesSgt none pagesOk none none) 0 id, .call (.purge false) 0 id,
    .call (.pin none pagesOk) 0 id, .fault 0 4096 4096 .nopage true]

theorem purged_silent_twoPages : ∃ s : ShmemMaps, s.vmas = [1, 0] ∧ s.pins = 1 ∧
    s.ptes = [] ∧ s.obj.madv < 0 := by
  have hrun : ((Lts.exec (fun s a => if s.NoWrap a then mapsStep s a else none)
      (ShmemMaps.fresh 8192) purgeRun).map fun s => (s.purged, s.vmas, s.pins)) =
        some (true, [1, 0], 1) := by decide +kernel
  obtain ⟨s, hs, hobs⟩ := Option.map_eq_some_iff.mp hrun
  have hvia : mapsLts.Via ShmemMaps.NoWrap s := by
    refine Lts.Via.exec ?_ (.init ⟨8192, true, false, _, rfl⟩) hs
    intro s a s' hstep
    exact Option.ite_none_right_eq_some.mp hstep
  obtain ⟨hpurged, hvmas, hpins⟩ : s.purged = true ∧ s.vmas = [1, 0] ∧ s.pins = 1 := by
    simpa using hobs
  obtain ⟨hptes, -, hmadv, -⟩ := purged_silent hvia hpurged
  exact ⟨s, hvmas, hpins, hptes, hmadv⟩

/-- An object of one page with `count` references, whose page is mapped. -/
def mappedPage (count : ℕ) (vmas : List ℕ) : ShmemMaps where
  obj := { Shmem.fresh 4096 true false with
    pages := some (Function.update (fun _ => false) 0 true)
    pagesUseCount := count
    wires := Function.update (fun _ => 0) 0 1 }
  frames := fun _ => 10
  owner := Function.update (fun _ => .swap) 0 .device
  pins := 0
  vmas := vmas
  ptes := [⟨0, 0, 10⟩]
  purged := false

theorem mappedPage_mmap {count : ℕ} (hne : count ≠ 0) (vmas : List ℕ) :
    mapsStep (mappedPage count vmas) (.call (.mmap pagesOk) 0 id) =
      some (mappedPage (u32 (count + 1)) (0 :: vmas)) := by
  simp [mapsStep, ShmemMaps.call, ShmemOp.call, Shmem.drmGemShmemMmap,
    Shmem.drmGemShmemGetPages, drmGemShmemRefFirst, mappedPage, ShmemMaps.withObj,
    ShmemMaps.after, ShmemMaps.Allowed, Outcome.toOption, hne]

theorem mappedPage_reachable : ∀ {k : ℕ}, k + 1 < 2 ^ 32 →
    mapsLts.Reachable (mappedPage (k + 1) (List.replicate (k + 1) 0)) := by
  intro k
  induction k with
  | zero =>
      intro _
      have hstart : Lts.exec mapsStep (ShmemMaps.fresh 4096)
          [.call (.mmap pagesOk) 0 fun _ => 10, .fault 0 0 0 .nopage true] =
            some (mappedPage 1 [0]) := rfl
      exact Lts.Reachable.exec (fun _ _ _ h => h) (.init ⟨4096, true, false, _, rfl⟩) hstart
  | succ k ih =>
      intro hk
      have hstep := mappedPage_mmap (Nat.succ_ne_zero k) (List.replicate (k + 1) 0)
      rw [u32_of_lt hk, ← List.replicate_succ] at hstep
      exact (ih (by omega)).step hstep

/-- The object whose count has wrapped. -/
def wrappedPage : ShmemMaps := mappedPage 0 (List.replicate (2 ^ 32) 0)

theorem wrappedPage_reachable : mapsLts.Reachable wrappedPage := by
  have hstep := mappedPage_mmap (Nat.succ_ne_zero (2 ^ 32 - 2))
    (List.replicate (2 ^ 32 - 2 + 1) 0)
  rw [show u32 (2 ^ 32 - 2 + 1 + 1) = 0 from rfl, ← List.replicate_succ] at hstep
  exact (mappedPage_reachable (by norm_num)).step hstep

/-- 2^32 mappings wrap the count to zero; the next one populates the object with another
page, and the purge leaves the first page mapped. -/
theorem purge_misses_page : ∃ s, mapsLts.Reachable s ∧ s.purged = true ∧
    s.ptes = [⟨0, 0, 10⟩] := by
  have hrun : ((Lts.exec mapsStep wrappedPage [.call (.mmap pagesOk) 0 fun _ => 11,
      .call (.madvise 1) 0 id, .call (.getPagesSgt none pagesOk none none) 0 id,
      .call (.purge false) 0 id]).map fun s => (s.purged, s.ptes)) =
        some (true, [⟨0, 0, 10⟩]) := by decide +kernel
  obtain ⟨s, hs, hobs⟩ := Option.map_eq_some_iff.mp hrun
  refine ⟨s, Lts.Reachable.exec (fun _ _ _ h => h) wrappedPage_reachable hs, ?_⟩
  simpa using hobs

end Lima
