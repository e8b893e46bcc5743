import Lima.Vm.Runs

/-!
# The references to mappings

How often an object is held in an address space is the `ref_count` of its `lima_bo_va`
there. A completed `lima_vm_bo_add` or `lima_vm_bo_del` changes one of these counts by
one, whether it finds the entry, creates it, removes it or fails, and touches no
reference count of an address space.
-/

namespace Lima

/-- The object is listed once for each address space, and each entry is referenced. -/
structure Bo.Listed (bo : Bo) : Prop where
  nodup : (bo.va.map BoVa.vm).Nodup
  pos : ∀ x ∈ bo.va, 0 < x.refCount

/-- The references to the object's mapping in `v`. -/
def Bo.refs (bo : Bo) (v : VmId) : ℕ := (limaVmBoFind v bo.va).elim 0 BoVa.refCount

namespace Bo

variable {bo : Bo} {v w : VmId}

theorem Listed.refs_pos (h : bo.Listed) : 0 < bo.refs v ↔ limaVmBoFind v bo.va ≠ none := by
  unfold refs
  cases hx : limaVmBoFind v bo.va with
  | none => simp
  | some x =>
      have hpos : 0 < x.refCount := h.pos x (limaVmBoFind_some hx).1
      simpa using hpos

theorem refs_of_find {x : BoVa} (h : limaVmBoFind v bo.va = some x) :
    bo.refs v = x.refCount := by
  rw [refs, h]
  rfl

/-! ## Changing one entry -/

theorem mem_modifyBoVa {f : BoVa → BoVa} {x : BoVa} : ∀ {va : List BoVa},
    x ∈ modifyBoVa v f va → x ∈ va ∨ ∃ y ∈ va, x = f y := by
  intro va
  induction va with
  | nil =>
      intro hx
      cases hx
  | cons y ys ih =>
      intro hx
      rw [modifyBoVa] at hx
      split at hx
      · rcases List.mem_cons.mp hx with rfl | hx
        · exact .inr ⟨y, List.mem_cons_self, rfl⟩
        · exact .inl (List.mem_cons_of_mem _ hx)
      · rcases List.mem_cons.mp hx with rfl | hx
        · exact .inl List.mem_cons_self
        · rcases ih hx with hx | ⟨z, hz, rfl⟩
          · exact .inl (List.mem_cons_of_mem _ hx)
          · exact .inr ⟨z, List.mem_cons_of_mem _ hz, rfl⟩

theorem Listed.addRef (h : bo.Listed) (v : VmId) : (bo.addRef v).Listed := by
  constructor
  · show ((modifyBoVa v BoVa.addRef bo.va).map BoVa.vm).Nodup
    rw [modifyBoVa_vm (f := BoVa.addRef) fun _ => rfl]
    exact h.nodup
  · intro x hx
    rcases mem_modifyBoVa hx with hx | ⟨y, -, rfl⟩
    · exact h.pos x hx
    · exact Nat.succ_pos _

theorem refs_addRef {x : BoVa} (hx : limaVmBoFind v bo.va = some x) :
    (bo.addRef v).refs w = if w = v then bo.refs v + 1 else bo.refs w := by
  unfold refs
  rw [limaVmBoFind_addRef]
  by_cases hw : w = v
  · subst hw
    simp [hx, BoVa.addRef]
  · simp [hw]

/-- Only a reference that is not the last is dropped from an entry. -/
theorem Listed.dropRef (h : bo.Listed) {x : BoVa} (hx : limaVmBoFind v bo.va = some x)
    (hlt : 1 < x.refCount) : (bo.dropRef v).Listed := by
  have hnd : ((bo.dropRef v).va.map BoVa.vm).Nodup := by
    show ((modifyBoVa v BoVa.dropRef bo.va).map BoVa.vm).Nodup
    rw [modifyBoVa_vm (f := BoVa.dropRef) fun _ => rfl]
    exact h.nodup
  refine ⟨hnd, fun y hy => ?_⟩
  have hfind := limaVmBoFind_of_mem hnd hy
  rw [limaVmBoFind_dropRef] at hfind
  split at hfind
  · rename_i hv
    rw [hv, hx] at hfind
    obtain rfl := Option.some.inj hfind
    show 0 < x.refCount - 1
    omega
  · exact h.pos y (limaVmBoFind_some hfind).1

theorem refs_dropRef {x : BoVa} (hx : limaVmBoFind v bo.va = some x) :
    (bo.dropRef v).refs w = if w = v then bo.refs v - 1 else bo.refs w := by
  unfold refs
  rw [limaVmBoFind_dropRef]
  by_cases hw : w = v
  · subst hw
    simp [hx, BoVa.dropRef]
  · simp [hw]

theorem Listed.addVa (h : bo.Listed) (hnone : limaVmBoFind v bo.va = none)
    (node : DrmMmNode) : (bo.addVa ⟨v, 1, node⟩).Listed := by
  constructor
  · show ((bo.va ++ [(⟨v, 1, node⟩ : BoVa)]).map BoVa.vm).Nodup
    rw [List.map_append, List.nodup_append]
    refine ⟨h.nodup, by simp, fun w hw u hu => ?_⟩
    rintro rfl
    rw [List.mem_singleton.mp hu] at hw
    exact limaVmBoFind_eq_none.mp hnone hw
  · intro x hx
    rcases List.mem_append.mp hx with hx | hx
    · exact h.pos x hx
    · rw [List.mem_singleton.mp hx]
      exact Nat.one_pos

theorem refs_addVa (hnone : limaVmBoFind v bo.va = none) (node : DrmMmNode) :
    (bo.addVa ⟨v, 1, node⟩).refs w = if w = v then bo.refs v + 1 else bo.refs w := by
  unfold refs
  rw [addVa, limaVmBoFind_append]
  by_cases hw : w = v
  · subst hw
    simp [hnone]
  · simp [hw, Ne.symm hw]

theorem Listed.removeVa (h : bo.Listed) (v : VmId) : (bo.removeVa v).Listed :=
  ⟨h.nodup.sublist ((removeBoVa_sublist v bo.va).map BoVa.vm),
    fun x hx => h.pos x ((removeBoVa_sublist v bo.va).subset hx)⟩

theorem Listed.refs_removeVa (h : bo.Listed) :
    (bo.removeVa v).refs w = if w = v then 0 else bo.refs w := by
  unfold refs
  rw [Bo.removeVa, limaVmBoFind_remove h.nodup]
  split <;> rfl

end Bo

/-! ## The calls -/

namespace Sys

def Listed (s : Sys) : Prop := ∀ b, (s.bo b).Listed

/-- The references to the mapping of `b` in `v`. -/
def mapRefs (s : Sys) (v : VmId) (b : BoId) : ℕ := (s.bo b).refs v

/-- The mapping of `b` in `v` has `n` references now, and no other count has changed. -/
structure Recounts (s s' : Sys) (v : VmId) (b : BoId) (n : ℕ) : Prop where
  listed : s'.Listed
  mapRefs : ∀ w c, s'.mapRefs w c = if w = v ∧ c = b then n else s.mapRefs w c
  refcount : ∀ w, (s'.vm w).map Vm.refcount = (s.vm w).map Vm.refcount
  numVms : s'.numVms = s.numVms

variable {s s' : Sys} {v : VmId} {b : BoId}

theorem Recounts.self {n : ℕ} (h : s.Recounts s' v b n) (c : BoId) :
    s'.mapRefs v c = if c = b then n else s.mapRefs v c := by
  simpa using h.mapRefs v c

/-- One object is replaced by one with the count `n` for `v`. -/
theorem Recounts.of_bo (h : s.Listed) {bo : Bo} {n : ℕ} (hl : bo.Listed)
    (hn : ∀ w, bo.refs w = if w = v then n else (s.bo b).refs w)
    (hbo : s'.bo = Function.update s.bo b bo)
    (hvm : ∀ w, (s'.vm w).map Vm.refcount = (s.vm w).map Vm.refcount)
    (hnum : s'.numVms = s.numVms) : s.Recounts s' v b n := by
  refine ⟨fun c => ?_, fun w c => ?_, hvm, hnum⟩
  · rw [hbo]
    by_cases hc : c = b
    · subst hc
      simpa using hl
    · simpa [hc] using h c
  · unfold Sys.mapRefs
    rw [hbo]
    by_cases hc : c = b
    · subst hc
      simpa using hn w
    · simp [hc]

/-- Nothing about mappings has changed. -/
theorem Recounts.of_same (h : s.Listed) (hbo : s'.bo = s.bo)
    (hvm : ∀ w, (s'.vm w).map Vm.refcount = (s.vm w).map Vm.refcount)
    (hnum : s'.numVms = s.numVms) : s.Recounts s' v b (s.mapRefs v b) := by
  refine ⟨fun c => ?_, fun w c => ?_, hvm, hnum⟩
  · rw [hbo]
    exact h c
  · unfold Sys.mapRefs
    rw [hbo]
    split
    · rename_i hwc
      rw [hwc.1, hwc.2]
    · rfl

end Sys

section Calls

variable {s s' : Sys} {v : VmId} {b : BoId}

/-- **`lima_vm_bo_add`** adds a reference, unless it fails. -/
theorem limaVmBoAdd_recounts (hs : s.Listed) {env : BoAddEnv} {fuel : ℕ} {create : Bool}
    {r : Option Errno} (h : limaVmBoAdd env fuel s v b create = .ok (s', r)) :
    s.Recounts s' v b (if r = none then s.mapRefs v b + 1 else s.mapRefs v b) := by
  have hret : VmCall.Returns ⟨.mali400, 0, 0⟩ s s' (.boAdd env v b create) := ⟨fuel, r, h⟩
  obtain ⟨hvm, hnum⟩ := hret.refcount nofun
  obtain ⟨x, hx, rfl, rfl⟩ | ⟨hnone, ⟨e, rfl, rfl⟩ |
    ⟨-, vm, start, pas, -, -, -, ⟨vm', offset, -, rfl, rfl⟩ |
      ⟨vm', offset, e, vm'', -, -, rfl, rfl⟩⟩⟩ := limaVmBoAdd_cases h
  · rw [if_pos rfl]
    exact .of_bo hs ((hs b).addRef v) (fun _ => Bo.refs_addRef hx) rfl hvm hnum
  · exact .of_same hs rfl hvm hnum
  · rw [if_pos rfl]
    exact .of_bo hs ((hs b).addVa hnone _) (fun _ => Bo.refs_addVa hnone _) rfl hvm hnum
  · exact .of_same hs rfl hvm hnum

/-- **`lima_vm_bo_del`** that has returned has found an entry, and dropped one of its
references. -/
theorem limaVmBoDel_recounts (hs : s.Listed) {fuel : ℕ} {touched : List ℕ}
    (h : limaVmBoDel fuel s v b = .ok (s', touched)) :
    0 < s.mapRefs v b ∧ s.Recounts s' v b (s.mapRefs v b - 1) := by
  have hret : VmCall.Returns ⟨.mali400, 0, 0⟩ s s' (.boDel v b) := ⟨fuel, touched, h⟩
  obtain ⟨hvm, hnum⟩ := hret.refcount nofun
  obtain ⟨x, hx, hcase⟩ := limaVmBoDel_cases h
  have hrefs : s.mapRefs v b = x.refCount := Bo.refs_of_find hx
  have hpos : 0 < x.refCount := (hs b).pos x (limaVmBoFind_some hx).1
  refine ⟨by rwa [hrefs], ?_⟩
  obtain ⟨hlt, rfl⟩ | ⟨hle, vm, u, -, -, rfl⟩ := hcase
  · exact .of_bo hs ((hs b).dropRef hx hlt) (fun _ => Bo.refs_dropRef hx) rfl hvm hnum
  · refine .of_bo hs ((hs b).removeVa v) (fun w => ?_) rfl hvm hnum
    have hlast : s.mapRefs v b - 1 = 0 := by omega
    rw [(hs b).refs_removeVa, hlast]

/-- An entry is found exactly while it is referenced. -/
theorem Sys.Listed.mapRefs_pos (hs : s.Listed) :
    0 < s.mapRefs v b ↔ limaVmBoFind v (s.bo b).va ≠ none := (hs b).refs_pos

end Calls

end Lima
