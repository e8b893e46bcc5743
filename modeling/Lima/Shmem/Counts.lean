import Lima.Shmem.Object
import Lima.Lib.Lts

/-!
# The reference counts of a shmem object

An object holds its backing pages, wired once and with the cache attribute asked for,
as long as `pages_use_count` is positive: `backing n` is the object in that condition
for a count of `n`. A reference taken or dropped moves from one `n` to the next, a call
that fails stays where it is, and the counts are those of the object's users.
-/

namespace Lima

open Overlay

/-! ## Page loops -/

/-- Wiring page `i` and then the `m` pages after it. -/
theorem wires_succ (wires : ℕ → ℕ) (i m : ℕ) :
    fill (Function.update wires i (wires i + 1)) (i + 1) m
        (fun k => Function.update wires i (wires i + 1) (i + 1 + k) + 1) =
      fill wires i (m + 1) fun k => wires (i + k) + 1 := by
  rw [fill_succ]
  refine fill_congr fun k hk => ?_
  rw [Function.update_of_ne (by omega)]
  congr 2
  omega

theorem grabPages_spec {r : ℕ → Option Errno} :
    ∀ {n i : ℕ} {w : ℕ → ℕ} {p : ℕ → Bool},
      grabPages r n i w p =
          (fill w i n fun k => w (i + k) + 1, .ok (fill p i n fun _ => true)) ∨
      ∃ e k, k < n ∧ grabPages r n i w p =
          (fill w i k fun j => w (i + j) + 1, .error (e, i + k)) := by
  intro n
  induction n with
  | zero =>
      intro i w p
      left
      rw [grabPages, fill_zero, fill_zero]
  | succ n ih =>
      intro i w p
      rw [grabPages]
      cases r i with
      | some e =>
          refine .inr ⟨e, 0, Nat.succ_pos n, ?_⟩
          rw [fill_zero]
          rfl
      | none =>
          rcases @ih (i + 1) (Function.update w i (w i + 1))
            (Function.update p i true) with h | ⟨e, k, hk, h⟩
          · left
            change grabPages r n (i + 1) _ _ = _
            rw [h, wires_succ, fill_succ p]
          · refine .inr ⟨e, k + 1, Nat.succ_lt_succ hk, ?_⟩
            change grabPages r n (i + 1) _ _ = _
            rw [h, wires_succ, Nat.add_right_comm, Nat.add_assoc]

theorem putGrabbed_eq : ∀ (n : ℕ) (wires : ℕ → ℕ),
    putGrabbed n wires = fill wires 0 n fun i => wires i - 1 := by
  intro n
  induction n with
  | zero =>
      intro wires
      rw [putGrabbed, fill_zero]
  | succ n ih =>
      intro wires
      rw [putGrabbed, ih]
      funext i
      unfold fill
      by_cases hi : i = n
      · subst hi
        simp
      · by_cases hlt : i < n
        · simp [hi, hlt, Nat.lt_succ_of_lt hlt]
        · have hlt' : ¬ i < n + 1 := by omega
          simp [hi, hlt, hlt']

/-- Pages grabbed and put again carry the wires they had. -/
theorem putGrabbed_grabbed (wires : ℕ → ℕ) (n : ℕ) :
    putGrabbed n (fill wires 0 n fun i => wires (0 + i) + 1) = wires := by
  rw [putGrabbed_eq, fill_fill]
  refine fill_eq_self fun k hk => ?_
  rw [fill_of_mem (by omega)]
  simp

/-! ## Holding the pages -/

namespace Shmem

variable (x : Shmem)

/-- The object with `n` references on its pages. -/
def backing (n : ℕ) : Shmem :=
  { x with
    pages := if n = 0 then none else some fun i => decide (i < x.npages)
    pagesUseCount := n
    wires := fun i => if n ≠ 0 ∧ i < x.npages then 1 else 0
    wc := fun i => decide (n ≠ 0 ∧ i < x.npages) && x.mapWc }

@[simp] theorem backing_backing (n m : ℕ) : (x.backing n).backing m = x.backing m := rfl
@[simp] theorem backing_pagesUseCount (n : ℕ) : (x.backing n).pagesUseCount = n := rfl
@[simp] theorem backing_sgt (n : ℕ) : (x.backing n).sgt = x.sgt := rfl
@[simp] theorem backing_succ_pages (n : ℕ) :
    (x.backing (n + 1)).pages = some fun i => decide (i < x.npages) := rfl

/-- Populating an object that holds no page wires every page once, or nothing. -/
theorem freebsdGetPages_spec (env : PagesEnv) (y : Shmem)
    (hy : ∀ i, y.wires i = 0) :
    (∃ e, y.drmGemShmemFreebsdGetPages env = (y, .error e)) ∨
    y.drmGemShmemFreebsdGetPages env =
      ({ y with wires := fun i => if i < y.npages then 1 else 0 },
        .ok fun i => decide (i < y.npages)) := by
  have hwires : (fill y.wires 0 y.npages fun i => y.wires (0 + i) + 1) =
      fun i => if i < y.npages then 1 else 0 := by
    funext i
    simp [fill, hy]
  have hpages : (fill (fun _ => false) 0 y.npages fun _ => true) =
      fun i => decide (i < y.npages) := by
    funext i
    simp [fill]
  unfold drmGemShmemFreebsdGetPages
  split
  · exact .inl ⟨_, rfl⟩
  split
  · exact .inl ⟨_, rfl⟩
  split
  · exact .inl ⟨_, rfl⟩
  split
  · right
    rw [hpages, ← hwires]
    simp
  · rcases grabPages_spec (r := env.readPage) (n := y.npages) (i := 0)
      (w := y.wires) (p := fun _ => false) with h | ⟨e, k, -, h⟩
    · right
      rw [h, hwires, hpages]
    · left
      refine ⟨e, ?_⟩
      rw [h, Nat.zero_add]
      have hput := putGrabbed_grabbed y.wires k
      simp only [hput]

/-- `drm_gem_shmem_get_pages` takes one more reference, or fails on the first. -/
theorem getPages_backing (env : PagesEnv) {n : ℕ} (hn : n + 1 < 2 ^ 32) :
    (n = 0 ∧ ∃ e, (x.backing n).drmGemShmemGetPages env = (x.backing n, some e)) ∨
    (x.backing n).drmGemShmemGetPages env = (x.backing (n + 1), none) := by
  unfold drmGemShmemGetPages
  simp only [drmGemShmemRefFirst, backing_pagesUseCount, u32_of_lt hn]
  by_cases hzero : n = 0
  · subst hzero
    rcases freebsdGetPages_spec env { x.backing 0 with pagesUseCount := 0 + 1 }
      (fun i => by simp [backing]) with ⟨e, h⟩ | h
    · left
      refine ⟨rfl, e, ?_⟩
      simp only [h]
      rfl
    · right
      simp only [h]
      refine Prod.ext ?_ rfl
      cases hwc : x.mapWc with
      | true =>
          refine Shmem.ext ?_ ?_ rfl ?_ ?_ ?_ ?_ ?_ ?_ ?_ (funext fun i => ?_) <;>
            simp [backing, hwc, drmGemShmemSetPagesMemattr, npages]
      | false =>
          refine Shmem.ext ?_ ?_ rfl ?_ ?_ ?_ ?_ ?_ ?_ ?_ (funext fun i => ?_) <;>
            simp [backing, hwc, npages]
  · right
    simp [hzero, backing]

/-- `drm_gem_shmem_put_pages` drops one. -/
theorem putPages_backing (n : ℕ) :
    (x.backing (n + 1)).drmGemShmemPutPages = .ok (x.backing n) := by
  unfold drmGemShmemPutPages
  by_cases hzero : n = 0
  · subst hzero
    have hunref : drmGemShmemUnref (x.backing (0 + 1)).pagesUseCount = (0, .release) := rfl
    simp only [hunref, backing_succ_pages]
    congr 1
    cases hwc : x.mapWc with
    | true =>
        ext i <;> simp [backing, hwc, drmGemShmemSetPagesMemattr, drmGemShmemFreebsdPutPages,
          npages]
        · split <;> simp_all
        · by_cases hi : i < drmGemShmemNpages x.size
          · simp [hi]
          · simp [Nat.not_lt.mp hi]
    | false =>
        ext i <;> simp [backing, hwc, drmGemShmemFreebsdPutPages, npages]
        split <;> simp_all
  · have hunref : drmGemShmemUnref (x.backing (n + 1)).pagesUseCount = (n, .keep) := by
      simp [drmGemShmemUnref, Nat.pos_of_ne_zero hzero]
    simp only [hunref]
    simp [backing, hzero]

/-- The first mapping by the kernel, after the count has gone up. -/
theorem vmap_first {y : Shmem} (env : PagesEnv) (vmapOk : Bool) (hx : x.vmapUseCount = 0)
    (hy : y = { x with vmapUseCount := 1 }) :
    (∀ z e, y.drmGemShmemGetPages env = (z, some e) →
      x.drmGemShmemVmap env vmapOk = .ok ({ z with vmapUseCount := 0 }, some e)) ∧
    ∀ z p, y.drmGemShmemGetPages env = (z, none) → z.pages = some p →
      x.drmGemShmemVmap env vmapOk =
        if vmapOk then .ok ({ z with vaddr := vmapOk }, none)
        else { z with vaddr := vmapOk }.drmGemShmemPutPages.bind fun w =>
          .ok ({ w with vmapUseCount := 0 }, some .enomem) := by
  subst hy
  have href : drmGemShmemRefFirst x.vmapUseCount = (1, true) := by
    rw [hx]
    rfl
  constructor
  · intro z e hget
    simp only [drmGemShmemVmap, href, Bool.not_true, Bool.false_eq_true, if_false, hget]
  · intro z p hget hpages
    simp only [drmGemShmemVmap, href, Bool.not_true, Bool.false_eq_true, if_false, hget,
      hpages]

/-- A purge gives back the reference of the sg table, and no other. -/
theorem purge_backing (n : ℕ) (hsgt : x.sgt = true) :
    (x.backing (n + 1)).drmGemShmemPurge = .ok { x.backing n with
      sgt := false
      madv := -1 } := by
  have hput := { x with sgt := false }.putPages_backing n
  simp only [drmGemShmemPurge, backing_succ_pages, backing_sgt, hsgt, Bool.not_true,
    Bool.false_eq_true, if_false]
  change (({ x with sgt := false }.backing (n + 1)).drmGemShmemPutPages).bind _ = _
  rw [hput]
  rfl

/-- At the end at most the sg table holds a reference. -/
theorem free_backing {n : ℕ} (hn : n ≤ 1) :
    (x.backing n).drmGemShmemFree = .ok ({ x with sgt := false }.backing 0) := by
  have hput := { x with sgt := false }.putPages_backing 0
  obtain rfl | rfl : n = 0 ∨ n = 1 := by omega
  · rfl
  · exact hput

end Shmem

/-! ## An object and its users -/

inductive ShmemOp where
  | pin (lockErr : Option Errno) (env : PagesEnv)
  | unpin
  | vmap (env : PagesEnv) (vmapOk : Bool)
  | vunmap
  | mmap (env : PagesEnv)
  | vmOpen
  | vmClose
  | getPagesSgt (lockErr : Option Errno) (env : PagesEnv) (sgAlloc dmaMap : Option Errno)
  | madvise (madv : ℤ)
  | purge (exported : Bool)
  | free

/-- The call of an operation, and what it returns. -/
def ShmemOp.call (x : Shmem) : ShmemOp → Outcome (Shmem × Option Errno)
  | .pin lockErr env => .ok (x.drmGemShmemPin lockErr env)
  | .unpin => x.drmGemShmemUnpin.bind fun x => .ok (x, none)
  | .vmap env vmapOk => x.drmGemShmemVmap env vmapOk
  | .vunmap => x.drmGemShmemVunmap.bind fun x => .ok (x, none)
  | .mmap env => .ok (x.drmGemShmemMmap env)
  | .vmOpen => .ok (x.drmGemShmemVmOpen, none)
  | .vmClose => x.drmGemShmemVmClose.bind fun x => .ok (x, none)
  | .getPagesSgt lockErr env sgAlloc dmaMap =>
      x.drmGemShmemGetPagesSgt lockErr env sgAlloc dmaMap
  | .madvise madv => .ok (x.drmGemShmemMadvise madv, none)
  | .purge _ => x.drmGemShmemPurge.bind fun x => .ok (x, none)
  | .free => x.drmGemShmemFree.bind fun x => .ok (x, none)

/-- An object with its outstanding pins, live mappings and outstanding vmaps. -/
structure ShmemUse where
  obj : Shmem
  pins : ℕ
  maps : ℕ
  vmaps : ℕ
  freed : Bool

namespace ShmemUse

/-- The references on the pages that the users account for. -/
def refs (u : ShmemUse) : ℕ :=
  u.pins + u.maps + (if 0 < u.vmaps then 1 else 0) + u.obj.sgt.toNat

def outstanding (u : ShmemUse) : ℕ :=
  u.pins + u.maps + u.vmaps + u.obj.sgt.toNat

/-- Releases match successes, an object is freed by its last user, and the references
stay below 2^32. -/
def Allowed (u : ShmemUse) : ShmemOp → Prop
  | .pin .. | .vmap .. | .mmap .. => u.outstanding + 1 < 2 ^ 32
  | .unpin => 0 < u.pins
  | .vunmap => 0 < u.vmaps
  | .vmOpen => 0 < u.maps ∧ u.outstanding + 1 < 2 ^ 32
  | .vmClose => 0 < u.maps
  | .getPagesSgt .. => u.obj.sgt = true ∨ u.outstanding + 1 < 2 ^ 32
  | .madvise _ => True
  | .purge exported => drmGemShmemPurgeable u.obj.madv u.obj.vmapUseCount u.obj.sgt exported
      false = true
  | .free => u.pins = 0 ∧ u.maps = 0 ∧ u.vmaps = 0

instance (u : ShmemUse) (op : ShmemOp) : Decidable (u.Allowed op) := by
  cases op with
  | getPagesSgt => exact inferInstanceAs (Decidable (_ ∨ _))
  | vmOpen => exact inferInstanceAs (Decidable (_ ∧ _))
  | free => exact inferInstanceAs (Decidable (_ ∧ _ ∧ _))
  | madvise madv => exact instDecidableTrue
  | purge exported => exact inferInstanceAs (Decidable (_ = true))
  | pin | vmap | mmap | unpin | vunmap | vmClose => exact inferInstanceAs (Decidable (_ < _))

/-- The users after a call. -/
def after (u : ShmemUse) (op : ShmemOp) (x : Shmem) (r : Option Errno) : ShmemUse :=
  match r, op with
  | some _, _ => { u with obj := x }
  | none, .pin .. => { u with obj := x, pins := u.pins + 1 }
  | none, .unpin => { u with obj := x, pins := u.pins - 1 }
  | none, .vmap .. => { u with obj := x, vmaps := u.vmaps + 1 }
  | none, .vunmap => { u with obj := x, vmaps := u.vmaps - 1 }
  | none, .mmap .. => { u with obj := x, maps := u.maps + 1 }
  | none, .vmOpen => { u with obj := x, maps := u.maps + 1 }
  | none, .vmClose => { u with obj := x, maps := u.maps - 1 }
  | none, .free => { u with obj := x, freed := true }
  | none, _ => { u with obj := x }

end ShmemUse

/-- An object after `drm_gem_shmem_create`. -/
def Shmem.fresh (size : ℕ) (filp mapWc : Bool) : Shmem where
  size := size
  filp := filp
  pages := none
  pagesUseCount := 0
  madv := 0
  sgt := false
  vaddr := false
  vmapUseCount := 0
  mapWc := mapWc
  wires := fun _ => 0
  wc := fun _ => false

/-- An allowed call that returns. -/
def shmemStep (u : ShmemUse) (op : ShmemOp) : Option ShmemUse :=
  if u.freed = false ∧ u.Allowed op then
    (op.call u.obj).toOption.map fun r => u.after op r.1 r.2
  else none

def shmemLts : Lts ShmemUse ShmemOp where
  init u := ∃ size filp mapWc, u = ⟨.fresh size filp mapWc, 0, 0, 0, false⟩
  step u op u' := shmemStep u op = some u'

/-- The object's counts are those of its users, and it holds what they say. -/
structure ShmemWf (u : ShmemUse) : Prop where
  backed : u.obj.backing u.refs = u.obj
  vmapUseCount : u.obj.vmapUseCount = u.vmaps
  vaddr : u.obj.vaddr = decide (0 < u.vmaps)
  freed : u.freed = true → u.refs = 0 ∧ u.vmaps = 0

/-- A call that returns, its object as its users then account for; if it fails, it has
changed nothing. -/
def Balances (u : ShmemUse) (op : ShmemOp) : Prop :=
  ∃ x r, op.call u.obj = .ok (x, r) ∧ ShmemWf (u.after op x r) ∧ (r ≠ none → x = u.obj)

namespace ShmemWf

variable {u : ShmemUse}

theorem refs_le (u : ShmemUse) : u.refs ≤ u.outstanding := by
  unfold ShmemUse.refs ShmemUse.outstanding
  split <;> omega

/-- A call that has failed with nothing changed. -/
theorem failed (h : ShmemWf u) {op : ShmemOp} {e : Errno}
    (hcall : op.call u.obj = .ok (u.obj, some e)) : Balances u op := by
  refine ⟨u.obj, some e, hcall, ?_, fun _ => rfl⟩
  exact h

/-- A call that has succeeded. -/
theorem succeeded {op : ShmemOp} {x : Shmem} (hcall : op.call u.obj = .ok (x, none))
    (hx : ShmemWf (u.after op x none)) : Balances u op :=
  ⟨x, none, hcall, hx, fun hne => absurd rfl hne⟩

/-- References on the pages have been taken or dropped, and no mapping by the kernel. -/
theorem moved (h : ShmemWf u) {u' : ShmemUse} (hlive : u'.freed = false) (n : ℕ)
    (hobj : u'.obj = { u.obj.backing n with
      sgt := u'.obj.sgt
      madv := u'.obj.madv })
    (hvmaps : u'.vmaps = u.vmaps) (hrefs : u'.refs = n) : ShmemWf u' := by
  constructor
  · rw [hrefs, hobj]
    rfl
  · rw [hobj, hvmaps]
    exact h.vmapUseCount
  · rw [hobj, hvmaps]
    exact h.vaddr
  · intro hfreed
    rw [hlive] at hfreed
    cases hfreed

theorem getPages (h : ShmemWf u) (hlt : u.outstanding + 1 < 2 ^ 32) (env : PagesEnv) :
    (u.refs = 0 ∧ ∃ e, u.obj.drmGemShmemGetPages env = (u.obj, some e)) ∨
      u.obj.drmGemShmemGetPages env = (u.obj.backing (u.refs + 1), none) := by
  have hle := refs_le u
  have hget := u.obj.getPages_backing env (n := u.refs) (by omega)
  rwa [h.backed] at hget

theorem putPages (h : ShmemWf u) {n : ℕ} (hn : u.refs = n + 1) :
    u.obj.drmGemShmemPutPages = .ok (u.obj.backing n) := by
  rw [← u.obj.putPages_backing n, ← hn, h.backed]

/-- Taking one more reference for a user. -/
theorem take (h : ShmemWf u) (hlive : u.freed = false) {op : ShmemOp} {env : PagesEnv}
    (hlt : u.outstanding + 1 < 2 ^ 32)
    (hcall : op.call u.obj = .ok (u.obj.drmGemShmemGetPages env))
    (hafter : ∀ x, (u.after op x none).obj = x ∧ (u.after op x none).vmaps = u.vmaps ∧
      (u.after op x none).freed = u.freed ∧
      (u.after op x none).pins + (u.after op x none).maps = u.pins + u.maps + 1) :
    Balances u op := by
  rcases h.getPages hlt env with ⟨-, e, hget⟩ | hget
  · rw [hget] at hcall
    exact h.failed hcall
  · rw [hget] at hcall
    obtain ⟨hobj, hvmaps, hfreed, hsum⟩ := hafter (u.obj.backing (u.refs + 1))
    refine succeeded hcall (h.moved (hfreed.trans hlive) (u.refs + 1) ?_ hvmaps ?_)
    · rw [hobj]
    · unfold ShmemUse.refs at *
      rw [hobj, hvmaps, hsum, Shmem.backing_sgt]
      omega

/-- Dropping the reference of a user. -/
theorem drop (h : ShmemWf u) (hlive : u.freed = false) {op : ShmemOp}
    (hcall : op.call u.obj = u.obj.drmGemShmemPutPages.bind fun x => .ok (x, none))
    (hpos : 0 < u.pins + u.maps)
    (hafter : ∀ x, (u.after op x none).obj = x ∧ (u.after op x none).vmaps = u.vmaps ∧
      (u.after op x none).freed = u.freed ∧
      (u.after op x none).pins + (u.after op x none).maps + 1 = u.pins + u.maps) :
    Balances u op := by
  obtain ⟨n, hn⟩ : ∃ n, u.refs = n + 1 := by
    refine Nat.exists_eq_succ_of_ne_zero ?_
    unfold ShmemUse.refs
    omega
  rw [h.putPages hn] at hcall
  obtain ⟨hobj, hvmaps, hfreed, hsum⟩ := hafter (u.obj.backing n)
  refine succeeded hcall (h.moved (hfreed.trans hlive) n ?_ hvmaps ?_)
  · rw [hobj]
  · unfold ShmemUse.refs at *
    rw [hobj, hvmaps, Shmem.backing_sgt]
    omega

/-- The kernel maps the object: the first mapping takes a reference on the pages, which
it gives back if it fails. -/
theorem vmap (h : ShmemWf u) (hlive : u.freed = false) {env : PagesEnv} {vmapOk : Bool}
    (hlt : u.outstanding + 1 < 2 ^ 32) : Balances u (.vmap env vmapOk) := by
  have hle := refs_le u
  have hcount : u32 (u.vmaps + 1) = u.vmaps + 1 := by
    refine u32_of_lt ?_
    unfold ShmemUse.outstanding at hlt
    omega
  have hwf : ∀ n, n = u.pins + u.maps + 1 + u.obj.sgt.toNat →
      ShmemWf (u.after (.vmap env vmapOk) { u.obj.backing n with
        vmapUseCount := u.vmaps + 1
        vaddr := true } none) := by
    intro n hn
    have hrefs : (u.after (.vmap env vmapOk) { u.obj.backing n with
        vmapUseCount := u.vmaps + 1
        vaddr := true } none).refs = n := by
      simp only [ShmemUse.refs, ShmemUse.after, Shmem.backing, Nat.succ_pos, if_true]
      omega
    constructor
    · rw [hrefs]
      rfl
    · rfl
    · simp [ShmemUse.after]
    · intro hfreed
      have hfreed' : u.freed = true := hfreed
      rw [hlive] at hfreed'
      cases hfreed'
  by_cases hfirst : u.vmaps = 0
  · have hzero : u.obj.vmapUseCount = 0 := h.vmapUseCount.trans hfirst
    have hvaddr : u.obj.vaddr = false := by simp [h.vaddr, hfirst]
    have hself : { u.obj with
        vaddr := false
        vmapUseCount := 0 } = u.obj := by rw [← hvaddr, ← hzero]
    have hcleared : { u.obj with vmapUseCount := 0 } = u.obj := by rw [← hzero]
    have hrefs : u.refs = u.pins + u.maps + u.obj.sgt.toNat := by
      simp [ShmemUse.refs, hfirst]
    -- the object counting its first mapping, and holding its pages as before
    obtain ⟨y, hy⟩ : ∃ y : Shmem, y = { u.obj with vmapUseCount := 1 } := ⟨_, rfl⟩
    have hback : y.backing u.refs = y := by
      rw [hy]
      change { u.obj.backing u.refs with vmapUseCount := 1 } = _
      rw [h.backed]
    have hget := y.getPages_backing env (n := u.refs) (by omega)
    rw [hback] at hget
    have hfirst' := u.obj.vmap_first env vmapOk hzero hy
    rcases hget with ⟨-, e, hget⟩ | hget
    · refine h.failed (e := e) ?_
      rw [ShmemOp.call, hfirst'.1 _ _ hget, hy]
      exact congrArg (fun x => Outcome.ok (x, some e)) hcleared
    · have hcall := hfirst'.2 _ _ hget (Shmem.backing_succ_pages y u.refs)
      change ShmemOp.call u.obj (.vmap env vmapOk) = _ at hcall
      cases vmapOk with
      | true =>
          have hw := hwf (u.refs + 1) (by omega)
          rw [hfirst] at hw
          refine succeeded hcall ?_
          rw [hy]
          exact hw
      | false =>
          refine h.failed (e := .enomem) ?_
          rw [hcall]
          have hput := { y with vaddr := false }.putPages_backing u.refs
          change ((({ y with vaddr := false }.backing (u.refs + 1)).drmGemShmemPutPages).bind
            _) = _
          rw [hput]
          have hend : { { y with vaddr := false }.backing u.refs with vmapUseCount := 0 } =
              u.obj := by
            change { { y.backing u.refs with vaddr := false } with vmapUseCount := 0 } = _
            rw [hback, hy]
            exact hself
          exact congrArg (fun x => Outcome.ok (x, some Errno.enomem)) hend
  · have hpos : 0 < u.vmaps := Nat.pos_of_ne_zero hfirst
    have hvaddr : u.obj.vaddr = true := by simp [h.vaddr, hpos]
    have hrefs : u.refs = u.pins + u.maps + 1 + u.obj.sgt.toNat := by
      simp [ShmemUse.refs, hpos]
    have hobj : { u.obj.backing u.refs with
        vmapUseCount := u.vmaps + 1
        vaddr := true } = { u.obj with vmapUseCount := u.vmaps + 1 } := by
      rw [h.backed, ← hvaddr]
    refine succeeded (x := { u.obj with vmapUseCount := u.vmaps + 1 }) ?_ ?_
    · simp [ShmemOp.call, Shmem.drmGemShmemVmap, drmGemShmemRefFirst, h.vmapUseCount, hcount,
        hfirst]
    · rw [← hobj]
      exact hwf u.refs hrefs

/-- The last mapping gives its reference back. -/
theorem vunmap (h : ShmemWf u) (hlive : u.freed = false) (hpos : 0 < u.vmaps) :
    Balances u .vunmap := by
  by_cases hlast : u.vmaps = 1
  · have hunref : drmGemShmemUnref u.obj.vmapUseCount = (0, .release) := by
      rw [h.vmapUseCount, hlast]
      rfl
    obtain ⟨n, hn⟩ : ∃ n, u.refs = n + 1 := by
      refine Nat.exists_eq_succ_of_ne_zero ?_
      unfold ShmemUse.refs
      rw [if_pos hpos]
      omega
    have hback : { u.obj with vmapUseCount := 0 } =
        { u.obj with vmapUseCount := 0 }.backing (n + 1) := by
      change _ = { u.obj.backing (n + 1) with vmapUseCount := 0 }
      rw [← hn, h.backed]
    have hput := { u.obj with vmapUseCount := 0 }.putPages_backing n
    rw [← hback] at hput
    have hcall : ShmemOp.call u.obj .vunmap = .ok ({ u.obj.backing n with
        vmapUseCount := 0
        vaddr := false }, none) := by
      simp only [ShmemOp.call, Shmem.drmGemShmemVunmap, hunref]
      rw [hput]
      rfl
    have hrefs : (u.after .vunmap { u.obj.backing n with
        vmapUseCount := 0
        vaddr := false } none).refs = n := by
      unfold ShmemUse.refs at *
      simp only [ShmemUse.after, Shmem.backing_sgt, hlast] at *
      simp at hn ⊢
      omega
    refine succeeded hcall ⟨?_, ?_, ?_, ?_⟩
    · rw [hrefs]
      rfl
    · simp [ShmemUse.after, hlast]
    · simp [ShmemUse.after, hlast]
    · intro hfreed
      cases hlive.symm.trans hfreed
  · have hmore : 0 < u.vmaps - 1 := by omega
    have hunref : drmGemShmemUnref u.obj.vmapUseCount = (u.vmaps - 1, .keep) := by
      rw [h.vmapUseCount, drmGemShmemUnref, if_neg (by omega), if_pos hmore]
    have hcall : ShmemOp.call u.obj .vunmap =
        .ok ({ u.obj with vmapUseCount := u.vmaps - 1 }, none) := by
      simp only [ShmemOp.call, Shmem.drmGemShmemVunmap, hunref]
      rfl
    have hrefs : (u.after .vunmap { u.obj with vmapUseCount := u.vmaps - 1 } none).refs =
        u.refs := by
      simp [ShmemUse.refs, ShmemUse.after, hmore, hpos]
    refine succeeded hcall ⟨?_, rfl, ?_, ?_⟩
    · rw [hrefs]
      change { u.obj.backing u.refs with vmapUseCount := u.vmaps - 1 } = _
      rw [h.backed]
      rfl
    · simp [ShmemUse.after, hmore, h.vaddr, hpos]
    · intro hfreed
      cases hlive.symm.trans hfreed

/-- A mapping that is duplicated finds the pages held. -/
theorem vmOpen (h : ShmemWf u) (hlive : u.freed = false) (hmap : 0 < u.maps)
    (hlt : u.outstanding + 1 < 2 ^ 32) : Balances u .vmOpen := by
  have hle := refs_le u
  have hcount : u.obj.pagesUseCount = u.refs := by
    rw [← h.backed]
    rfl
  have hpos : u.refs ≠ 0 := by
    unfold ShmemUse.refs
    omega
  have hcall : ShmemOp.call u.obj .vmOpen = .ok (u.obj.backing (u.refs + 1), none) := by
    have hobj : { u.obj with pagesUseCount := u.refs + 1 } = u.obj.backing (u.refs + 1) := by
      conv_lhs => rw [← h.backed]
      simp [Shmem.backing, hpos]
    simp only [ShmemOp.call, Shmem.drmGemShmemVmOpen, hcount, if_neg hpos,
      u32_of_lt (show u.refs + 1 < 2 ^ 32 by omega), hobj]
  refine succeeded hcall (h.moved hlive (u.refs + 1) rfl rfl ?_)
  change u.pins + (u.maps + 1) + (if 0 < u.vmaps then 1 else 0) + u.obj.sgt.toNat = u.refs + 1
  unfold ShmemUse.refs
  omega

/-- The sg table keeps one reference, given back if it cannot be built or mapped. -/
theorem getPagesSgt (h : ShmemWf u) (hlive : u.freed = false) {lockErr : Option Errno}
    {env : PagesEnv} {sgAlloc dmaMap : Option Errno}
    (hlt : u.obj.sgt = true ∨ u.outstanding + 1 < 2 ^ 32) :
    Balances u (.getPagesSgt lockErr env sgAlloc dmaMap) := by
  cases lockErr with
  | some e => exact h.failed rfl
  | none =>
      have hcall : ShmemOp.call u.obj (.getPagesSgt none env sgAlloc dmaMap) =
          u.obj.drmGemShmemGetPagesSgtLocked env sgAlloc dmaMap := rfl
      by_cases hsgt : u.obj.sgt = true
      · refine succeeded (x := u.obj) ?_ h
        rw [hcall, Shmem.drmGemShmemGetPagesSgtLocked, if_pos hsgt]
      · have hlt' : u.outstanding + 1 < 2 ^ 32 := hlt.resolve_left hsgt
        rw [Shmem.drmGemShmemGetPagesSgtLocked, if_neg hsgt] at hcall
        rcases h.getPages hlt' env with ⟨-, e, hget⟩ | hget
        · rw [hget] at hcall
          exact h.failed hcall
        · rw [hget] at hcall
          simp only [Shmem.backing_succ_pages] at hcall
          cases hfail : sgAlloc.or dmaMap with
          | some e =>
              rw [hfail] at hcall
              simp only [Shmem.putPages_backing, h.backed, Outcome.bind_ok] at hcall
              exact h.failed hcall
          | none =>
              rw [hfail] at hcall
              refine succeeded hcall (h.moved hlive (u.refs + 1) rfl rfl ?_)
              rw [Bool.not_eq_true] at hsgt
              simp [ShmemUse.refs, ShmemUse.after, hsgt]

theorem purge (h : ShmemWf u) (hlive : u.freed = false) {exported : Bool}
    (ha : u.Allowed (.purge exported)) : Balances u (.purge exported) := by
  have hsgt : u.obj.sgt = true := by
    simp only [ShmemUse.Allowed, drmGemShmemPurgeable, Bool.and_eq_true] at ha
    exact ha.1.1.2
  obtain ⟨n, hn⟩ : ∃ n, u.refs = n + 1 :=
    Nat.exists_eq_succ_of_ne_zero (by simp [ShmemUse.refs, hsgt])
  have hcall : ShmemOp.call u.obj (.purge exported) = .ok ({ u.obj.backing n with
      sgt := false
      madv := -1 }, none) := by
    have hpurge := u.obj.purge_backing n hsgt
    rw [← hn, h.backed] at hpurge
    rw [ShmemOp.call, hpurge]
    rfl
  refine succeeded hcall (h.moved hlive n rfl rfl ?_)
  change u.pins + u.maps + (if 0 < u.vmaps then 1 else 0) + 0 = n
  unfold ShmemUse.refs at hn
  rw [hsgt, Bool.toNat_true] at hn
  omega

/-- The last user gone, only the sg table can hold a reference, and it gives it back. -/
theorem free (h : ShmemWf u) (ha : u.Allowed .free) : Balances u .free := by
  obtain ⟨hpins, hmaps, hvmaps⟩ : u.pins = 0 ∧ u.maps = 0 ∧ u.vmaps = 0 := ha
  have hrefs : u.refs = u.obj.sgt.toNat := by simp [ShmemUse.refs, hpins, hmaps, hvmaps]
  have hcall : ShmemOp.call u.obj .free =
      .ok ({ u.obj with sgt := false }.backing 0, none) := by
    have hfree := u.obj.free_backing (n := u.refs) (hrefs ▸ Bool.toNat_le _)
    rw [h.backed] at hfree
    rw [ShmemOp.call, hfree]
    rfl
  have hzero : (u.after .free ({ u.obj with sgt := false }.backing 0) none).refs = 0 := by
    simp [ShmemUse.refs, ShmemUse.after, hpins, hmaps, hvmaps]
  refine succeeded hcall ⟨?_, h.vmapUseCount, h.vaddr, fun _ => ⟨hzero, hvmaps⟩⟩
  rw [hzero]
  rfl

/-- **Every call balances.** -/
theorem balances (h : ShmemWf u) (hlive : u.freed = false) {op : ShmemOp}
    (ha : u.Allowed op) : Balances u op := by
  cases op with
  | pin lockErr env =>
      cases lockErr with
      | some e => exact h.failed rfl
      | none =>
          refine h.take hlive ha rfl fun x => ⟨rfl, rfl, rfl, ?_⟩
          change u.pins + 1 + u.maps = _
          omega
  | unpin =>
      have hpos : 0 < u.pins := ha
      refine h.drop hlive rfl (by omega) fun x => ⟨rfl, rfl, rfl, ?_⟩
      change u.pins - 1 + u.maps + 1 = _
      omega
  | vmap env vmapOk => exact h.vmap hlive ha
  | vunmap => exact h.vunmap hlive ha
  | mmap env => exact h.take hlive ha rfl fun x => ⟨rfl, rfl, rfl, rfl⟩
  | vmOpen => exact h.vmOpen hlive ha.1 ha.2
  | vmClose =>
      have hpos : 0 < u.maps := ha
      refine h.drop hlive rfl (by omega) fun x => ⟨rfl, rfl, rfl, ?_⟩
      change u.pins + (u.maps - 1) + 1 = _
      omega
  | getPagesSgt lockErr env sgAlloc dmaMap => exact h.getPagesSgt hlive ha
  | madvise madv =>
      refine succeeded rfl (h.moved hlive u.refs ?_ rfl rfl)
      change u.obj.drmGemShmemMadvise madv = { u.obj.backing u.refs with
        sgt := u.obj.sgt
        madv := (u.obj.drmGemShmemMadvise madv).madv }
      rw [h.backed]
      rfl
  | purge exported => exact h.purge hlive ha
  | free => exact h.free ha

theorem of_reachable (h : shmemLts.Reachable u) : ShmemWf u := by
  refine h.invariant (fun u hu => ?_) fun u op u' _ hi hstep => ?_
  · obtain ⟨size, filp, mapWc, rfl⟩ := hu
    refine ⟨?_, rfl, rfl, nofun⟩
    simp [ShmemUse.refs, Shmem.fresh, Shmem.backing]
  · simp only [shmemLts, shmemStep] at hstep
    split at hstep
    · rename_i hok
      obtain ⟨x, r, hcall, hwf, -⟩ := hi.balances hok.1 hok.2
      rw [hcall] at hstep
      obtain rfl := Option.some.inj hstep
      exact hwf
    · cases hstep

end ShmemWf

/-! ## Main result -/

/-- What the object holds, and on whose behalf. -/
structure ShmemUse.Balanced (u : ShmemUse) : Prop where
  pagesUseCount : u.obj.pagesUseCount =
    u.pins + u.maps + (if 0 < u.obj.vmapUseCount then 1 else 0) + u.obj.sgt.toNat
  vmapUseCount : u.obj.vmapUseCount = u.vmaps
  pages : u.obj.pages.isSome = true ↔ 0 < u.obj.pagesUseCount
  vaddr : u.obj.vaddr = true ↔ 0 < u.obj.vmapUseCount
  /-- Every backing page is recorded. -/
  recorded : ∀ p, u.obj.pages = some p → ∀ i, p i = true ↔ i < u.obj.npages
  wires : ∀ i, u.obj.wires i = if u.obj.pages.isSome ∧ i < u.obj.npages then 1 else 0
  wc : ∀ i, u.obj.wc i = true ↔
    u.obj.pages.isSome = true ∧ i < u.obj.npages ∧ u.obj.mapWc = true

theorem ShmemWf.balanced {u : ShmemUse} (h : ShmemWf u) : u.Balanced := by
  have hcount : u.obj.pagesUseCount = u.refs := (congrArg Shmem.pagesUseCount h.backed).symm
  have hpages : u.obj.pages = if u.refs = 0 then none else some fun i =>
      decide (i < u.obj.npages) := (congrArg Shmem.pages h.backed).symm
  have hwires : ∀ i, u.obj.wires i = if u.refs ≠ 0 ∧ i < u.obj.npages then 1 else 0 :=
    fun i => (congrFun (congrArg Shmem.wires h.backed) i).symm
  have hwc : ∀ i, u.obj.wc i = (decide (u.refs ≠ 0 ∧ i < u.obj.npages) && u.obj.mapWc) :=
    fun i => (congrFun (congrArg Shmem.wc h.backed) i).symm
  have hsome : u.obj.pages.isSome = true ↔ u.refs ≠ 0 := by
    rw [hpages]
    split <;> simp [*]
  constructor
  · rw [hcount, h.vmapUseCount]
    rfl
  · exact h.vmapUseCount
  · rw [hsome, hcount]
    exact Nat.pos_iff_ne_zero.symm
  · rw [h.vaddr, h.vmapUseCount, decide_eq_true_iff]
  · intro p hp i
    rw [hpages] at hp
    split at hp
    · cases hp
    · obtain rfl := Option.some.inj hp
      exact decide_eq_true_iff
  · intro i
    simp only [hwires i, hsome]
  · intro i
    simp [hwc i, hsome, and_assoc]

/-- **The counts balance.** In every state of every run the counts of the object are
those of its users, its pages are wired once and have their attribute exactly while
somebody holds them; a call returns, and one that fails has changed nothing; and after
the final free nothing is held. -/
theorem shmem_balanced {u : ShmemUse} (h : shmemLts.Reachable u) :
    u.Balanced ∧
    (u.freed = false → ∀ op, u.Allowed op → ∃ x r, op.call u.obj = .ok (x, r) ∧
      (r ≠ none → x = u.obj)) ∧
    (u.freed = true → u.obj.pages = none ∧ u.obj.sgt = false ∧ u.obj.vaddr = false ∧
      ∀ i, u.obj.wires i = 0 ∧ u.obj.wc i = false) := by
  have hwf := ShmemWf.of_reachable h
  refine ⟨hwf.balanced, fun hlive op ha => ?_, fun hfreed => ?_⟩
  · obtain ⟨x, r, hcall, -, hfail⟩ := hwf.balances hlive ha
    exact ⟨x, r, hcall, hfail⟩
  · obtain ⟨hrefs, hvmaps⟩ := hwf.freed hfreed
    have hbacked := hwf.backed
    rw [hrefs] at hbacked
    refine ⟨?_, ?_, ?_, fun i => ⟨?_, ?_⟩⟩
    · rw [← hbacked]
      rfl
    · have hsgt : u.obj.sgt.toNat = 0 := by
        unfold ShmemUse.refs at hrefs
        omega
      simpa using hsgt
    · simp [hwf.vaddr, hvmaps]
    · rw [← hbacked]
      simp [Shmem.backing]
    · rw [← hbacked]
      simp [Shmem.backing]

/-- All steps of a population succeed, page by page. -/
def pagesOk : PagesEnv := ⟨true, false, fun _ => none⟩

/-- An object of two pages is pinned, mapped by the kernel, and its sg table built. -/
theorem shmem_balanced_threeRefs : ∃ u : ShmemUse, u.obj.pagesUseCount = 3 ∧ u.Balanced := by
  have hrun : ((Lts.exec shmemStep ⟨.fresh 8192 true true, 0, 0, 0, false⟩
      [.pin none pagesOk, .vmap pagesOk true, .getPagesSgt none pagesOk none none]).map
        fun u => u.obj.pagesUseCount) = some 3 := rfl
  obtain ⟨u, hu, hcount⟩ := Option.map_eq_some_iff.mp hrun
  have hreach : shmemLts.Reachable u :=
    Lts.Reachable.exec (fun _ _ _ h => h) (.init ⟨8192, true, true, rfl⟩) hu
  exact ⟨u, hcount, (shmem_balanced hreach).1⟩

end Lima
