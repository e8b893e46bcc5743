import Lima.Sched.Submit

/-!
# The references of a submit

A submit that has found the objects `bs` holds, for each of them, a GEM reference
and a reference to its mapping. `Dev.hold` adds these to a device, whatever the
order they were taken in, so that each loop of the ioctl is one equation about it:
the lookup loop extends the list, the loop at `err_out0` and the one in
`lima_sched_free_job` take it apart again.
-/

namespace Lima

/-! ## References to mappings -/

theorem modifyBoVa_id {v : VmId} (f : BoVa → BoVa) (hf : ∀ x, f x = x)
    (va : List BoVa) : modifyBoVa v f va = va := by
  induction va with
  | nil => rfl
  | cons x xs ih => rw [modifyBoVa, hf, ih, ite_self]

theorem modifyBoVa_modifyBoVa {v : VmId} (f g : BoVa → BoVa)
    (hg : ∀ x, (g x).vm = x.vm) (va : List BoVa) :
    modifyBoVa v f (modifyBoVa v g va) = modifyBoVa v (f ∘ g) va := by
  induction va with
  | nil => rfl
  | cons x xs ih =>
      simp only [modifyBoVa]
      by_cases hx : x.vm = v
      · simp [hx, modifyBoVa, hg]
      · simp [hx, modifyBoVa, ih]

def BoVa.hold (n : ℕ) (x : BoVa) : BoVa := { x with refCount := x.refCount + n }

/-- The object with `n` more references to its mapping in `v`. -/
def Bo.hold (n : ℕ) (v : VmId) (bo : Bo) : Bo :=
  { bo with va := modifyBoVa v (BoVa.hold n) bo.va }

theorem Bo.hold_zero (v : VmId) (bo : Bo) : bo.hold 0 v = bo := by
  rw [Bo.hold, modifyBoVa_id (BoVa.hold 0) fun _ => rfl]

theorem Bo.addRef_hold (n : ℕ) (v : VmId) (bo : Bo) :
    (bo.hold n v).addRef v = bo.hold (n + 1) v := by
  simp only [Bo.addRef, Bo.hold]
  rw [modifyBoVa_modifyBoVa BoVa.addRef (BoVa.hold n) fun _ => rfl]
  rfl

theorem Bo.dropRef_hold (n : ℕ) (v : VmId) (bo : Bo) :
    (bo.hold (n + 1) v).dropRef v = bo.hold n v := by
  simp only [Bo.dropRef, Bo.hold]
  rw [modifyBoVa_modifyBoVa BoVa.dropRef (BoVa.hold (n + 1)) fun _ => rfl]
  rfl

theorem limaVmBoFind_hold (n : ℕ) (v : VmId) (bo : Bo) :
    limaVmBoFind v (bo.hold n v).va = (limaVmBoFind v bo.va).map (BoVa.hold n) := by
  rw [Bo.hold, limaVmBoFind_modify (BoVa.hold n) fun _ => rfl, if_pos rfl]

/-- The mapping of each object of `bs` in `v` with one more reference for each
occurrence. -/
def Sys.hold (s : Sys) (v : VmId) (bs : List BoId) : Sys :=
  { s with bo := fun b => (s.bo b).hold (bs.count b) v }

theorem Sys.hold_nil (s : Sys) (v : VmId) : s.hold v [] = s := by
  simp [Sys.hold, Bo.hold_zero]

theorem Sys.hold_snoc (s : Sys) (v : VmId) (bs : List BoId) (b : BoId) :
    (s.hold v bs).setBo b (((s.hold v bs).bo b).addRef v) = s.hold v (bs ++ [b]) := by
  simp only [Sys.hold, Sys.setBo, Bo.addRef_hold]
  congr 1
  funext b'
  by_cases h : b' = b
  · subst h
    simp [List.count_append]
  · simp [h, List.count_append, Ne.symm h]

theorem Sys.hold_cons (s : Sys) (v : VmId) (bs : List BoId) (b : BoId) :
    (s.hold v (b :: bs)).setBo b (((s.hold v (b :: bs)).bo b).dropRef v) =
      s.hold v bs := by
  simp only [Sys.hold, Sys.setBo, List.count_cons_self, Bo.dropRef_hold]
  congr 1
  funext b'
  by_cases h : b' = b
  · subst h
    simp
  · simp [h, Ne.symm h]

/-- The object is mapped in `v`, its entry being referenced. -/
def Sys.Mapped (s : Sys) (v : VmId) (b : BoId) : Prop :=
  ∃ x, limaVmBoFind v (s.bo b).va = some x ∧ 0 < x.refCount

theorem limaVmBoAdd_hold {env : BoAddEnv} {fuel : ℕ} {create : Bool} {s : Sys}
    {v : VmId} {b : BoId} (bs : List BoId) (h : s.Mapped v b) :
    limaVmBoAdd env fuel (s.hold v bs) v b create = .ok (s.hold v (bs ++ [b]), none) := by
  obtain ⟨x, hx, -⟩ := h
  have hfind : limaVmBoFind v ((s.hold v bs).bo b).va =
      some (x.hold (bs.count b)) := by
    rw [Sys.hold, limaVmBoFind_hold, hx]
    rfl
  simp only [limaVmBoAdd, hfind, Sys.hold_snoc]

theorem limaVmBoDel_hold {fuel : ℕ} {s : Sys} {v : VmId} {b : BoId} (bs : List BoId)
    (h : s.Mapped v b) :
    limaVmBoDel fuel (s.hold v (b :: bs)) v b = .ok (s.hold v bs, []) := by
  obtain ⟨x, hx, hpos⟩ := h
  have hfind : limaVmBoFind v ((s.hold v (b :: bs)).bo b).va =
      some (x.hold (bs.count b + 1)) := by
    rw [Sys.hold, limaVmBoFind_hold, hx, List.count_cons_self]
    rfl
  have hlt : 0 < (x.hold (bs.count b + 1)).refCount - 1 := by
    simp only [BoVa.hold]
    omega
  simp only [limaVmBoDel, hfind, if_pos hlt, Sys.hold_cons]

/-- Without an entry to count on, a `lima_vm_bo_add` that may not create one
refuses. -/
theorem limaVmBoAdd_refuses {env : BoAddEnv} {fuel : ℕ} {s : Sys} {v : VmId}
    {b : BoId} (bs : List BoId) (h : limaVmBoFind v (s.bo b).va = none) :
    limaVmBoAdd env fuel (s.hold v bs) v b false =
      .ok (s.hold v bs, some .enoent) := by
  have hfind : limaVmBoFind v ((s.hold v bs).bo b).va = none := by
    rw [Sys.hold, limaVmBoFind_hold, h]
    rfl
  simp only [limaVmBoAdd, hfind, Bool.not_false, if_true]

/-! ## The loops -/

namespace Dev

theorem gemGets_eq : ∀ (bs : List BoId) (d : Dev),
    gemGets bs d = { d with gemRef := fun b => d.gemRef b + bs.count b }
  | [], d => by simp [gemGets]
  | b :: bs, d => by
      rw [gemGets, gemGets_eq bs]
      simp only [gemGet]
      congr 1
      funext b'
      by_cases h : b' = b
      · subst h
        simp
        omega
      · simp [h, Ne.symm h]

theorem gemPuts_eq : ∀ (bs : List BoId) (d : Dev),
    gemPuts bs d = { d with gemRef := fun b => d.gemRef b - bs.count b }
  | [], d => by simp [gemPuts]
  | b :: bs, d => by
      rw [gemPuts, gemPuts_eq bs]
      simp only [gemPut]
      congr 1
      funext b'
      by_cases h : b' = b
      · subst h
        simp
        omega
      · simp [h, Ne.symm h]

/-- The device with the references of a submit that has found `bs`. -/
def hold (d : Dev) (v : VmId) (bs : List BoId) : Dev :=
  { d with
    sys := d.sys.hold v bs
    gemRef := fun b => d.gemRef b + bs.count b }

theorem hold_nil (d : Dev) (v : VmId) : d.hold v [] = d := by
  simp [hold, Sys.hold_nil]

theorem hold_snoc (d : Dev) (v : VmId) (bs : List BoId) (b : BoId) :
    ((d.hold v bs).gemGet b).setSys (d.sys.hold v (bs ++ [b])) =
      d.hold v (bs ++ [b]) := by
  simp only [hold, gemGet, setSys]
  congr 1
  funext b'
  by_cases h : b' = b
  · subst h
    simp [List.count_append]
    omega
  · simp [h, List.count_append, Ne.symm h]

theorem hold_gemGet_gemPut (d : Dev) (v : VmId) (bs : List BoId) (b : BoId) :
    (((d.hold v bs).gemGet b).setSys (d.sys.hold v bs)).gemPut b = d.hold v bs := by
  simp [hold, gemGet, setSys, gemPut]

theorem hold_cons (d : Dev) (v : VmId) (bs : List BoId) (b : BoId) :
    ((d.hold v (b :: bs)).setSys (d.sys.hold v bs)).gemPut b = d.hold v bs := by
  simp only [hold, gemPut, setSys]
  congr 1
  funext b'
  by_cases h : b' = b
  · subst h
    simp
  · simp [h, Ne.symm h]

/-- What the lookup loop makes of a handle: an object, if the file has the handle
and its address space maps the object. -/
def resolve (d : Dev) (file : DrmFile) (h : ℕ) : Option BoId :=
  (lookupId h file.handles).filter fun b =>
    (limaVmBoFind file.vm (d.sys.bo b).va).isSome

/-- What a submit of the file relies on: the file's address space is live, and a
recorded mapping in it is referenced. -/
structure SubmitReady (d : Dev) (f : FileId) (file : DrmFile) : Prop where
  entry : d.file f = some file
  live : ∃ vm, d.sys.vm file.vm = some vm ∧ 0 < vm.refcount
  referenced : ∀ b x, limaVmBoFind file.vm (d.sys.bo b).va = some x → 0 < x.refCount

section Loops

variable {d : Dev} {f : FileId} {file : DrmFile}

theorem submitAdd_hold (hr : d.SubmitReady f file) (bs : List BoId) (h : ℕ) :
    (∃ b, d.resolve file h = some b ∧ d.sys.Mapped file.vm b ∧
      (d.hold file.vm bs).submitAdd f file.vm h =
        .ok (d.hold file.vm (bs ++ [b]), .ok b)) ∨
    d.resolve file h = none ∧ (d.hold file.vm bs).submitAdd f file.vm h =
      .ok (d.hold file.vm bs, .error .enoent) := by
  have hfile : (d.hold file.vm bs).file f = some file := hr.entry
  cases hlook : lookupId h file.handles with
  | none =>
      right
      simp [resolve, submitAdd, gemLookup, hfile, hlook]
  | some b =>
      have hgem : (d.hold file.vm bs).gemLookup f h =
          some ((d.hold file.vm bs).gemGet b, b) := by
        simp [gemLookup, hfile, hlook]
      have hsys : ((d.hold file.vm bs).gemGet b).sys = d.sys.hold file.vm bs := rfl
      cases hfind : limaVmBoFind file.vm (d.sys.bo b).va with
      | none =>
          refine .inr ⟨by simp [resolve, hlook, hfind], ?_⟩
          simp only [submitAdd, hgem, hsys]
          rw [limaVmBoAdd_refuses bs hfind]
          simp only [Outcome.bind_ok, hold_gemGet_gemPut]
      | some x =>
          have hmapped : d.sys.Mapped file.vm b := ⟨x, hfind, hr.referenced b x hfind⟩
          refine .inl ⟨b, by simp [resolve, hlook, hfind], hmapped, ?_⟩
          simp only [submitAdd, hgem, hsys]
          rw [limaVmBoAdd_hold bs hmapped]
          simp only [Outcome.bind_ok, hold_snoc]

/-- The lookup loop ends with the objects of a list held; it has failed if a
handle did not resolve. -/
theorem submitAdds_hold (hr : d.SubmitReady f file) :
    ∀ (hs : List ℕ) (bs : List BoId), (∀ b ∈ bs, d.sys.Mapped file.vm b) →
      ∃ lbos r, submitAdds f file.vm hs bs (d.hold file.vm bs) =
          .ok (d.hold file.vm lbos, lbos, r) ∧
        (∀ b ∈ lbos, d.sys.Mapped file.vm b) ∧
        (r = none ↔ ∀ h ∈ hs, (d.resolve file h).isSome) ∧
        (r = none → lbos.length = bs.length + hs.length)
  | [], bs, hbs => ⟨bs, none, rfl, hbs, by simp, by simp⟩
  | h :: hs, bs, hbs => by
      rw [submitAdds]
      obtain ⟨b, hres, hmapped, hadd⟩ | ⟨hres, hadd⟩ := submitAdd_hold hr bs h
      · have hbs' : ∀ b' ∈ bs ++ [b], d.sys.Mapped file.vm b' := by
          intro b' hb'
          rcases List.mem_append.mp hb' with hb' | hb'
          · exact hbs b' hb'
          · rw [List.mem_singleton.mp hb']
            exact hmapped
        obtain ⟨lbos, r, hrest, hall, hiff, hlen⟩ :=
          submitAdds_hold hr hs (bs ++ [b]) hbs'
        refine ⟨lbos, r, ?_, hall, ?_, fun hnone => ?_⟩
        · rw [hadd, Outcome.bind_ok]
          exact hrest
        · rw [hiff, List.forall_mem_cons, hres]
          simp
        · rw [hlen hnone, List.length_append]
          simp
          omega
      · refine ⟨bs, some .enoent, ?_, hbs, ?_, fun hnone => by cases hnone⟩
        · rw [hadd, Outcome.bind_ok]
        · rw [List.forall_mem_cons, hres]
          simp

/-- The loop at `err_out0` gives back what the lookup loop took. -/
theorem submitUndos_hold {v : VmId} (fuel : ℕ) : ∀ bs : List BoId,
    (∀ b ∈ bs, d.sys.Mapped v b) → submitUndos fuel v bs (d.hold v bs) = .ok d
  | [], _ => by rw [submitUndos, hold_nil]
  | b :: bs, hbs => by
      obtain ⟨hb, hbs⟩ := List.forall_mem_cons.mp hbs
      have hsys : (d.hold v (b :: bs)).sys = d.sys.hold v (b :: bs) := rfl
      rw [submitUndos, submitUndo, hsys, limaVmBoDel_hold bs hb, Outcome.bind_ok,
        Outcome.bind_ok, hold_cons]
      exact submitUndos_hold fuel bs hbs

end Loops

/-- The loop of `lima_sched_free_job` gives back the references to mappings. -/
theorem delBos_hold {s : Sys} {v : VmId} (fuel : ℕ) : ∀ (bs : List BoId) (d : Dev),
    (∀ b ∈ bs, s.Mapped v b) → d.sys = s.hold v bs →
      delBos fuel (some v) bs d = .ok (d.setSys s)
  | [], d, _, hd => by
      rw [Sys.hold_nil] at hd
      rw [delBos, ← hd]
      rfl
  | b :: bs, d, hbs, hd => by
      obtain ⟨hb, hbs⟩ := List.forall_mem_cons.mp hbs
      rw [delBos, hd, limaVmBoDel_hold bs hb, Outcome.bind_ok,
        delBos_hold fuel bs _ hbs rfl]
      rfl

/-! ## The task's own references -/

end Dev

def Vm.getRef (vm : Vm) : Vm := { vm with refcount := vm.refcount + 1 }

/-- What `lima_sched_task_init` stores in a task. -/
def Task.init (task : Task) (c : CtxId) (v : VmId) (bs : List BoId) : Task :=
  { task with
    state := .inited
    ctx := some c
    vm := some v
    bos := bs }

namespace Dev

section Task

variable {d : Dev} {v : VmId} {vm : Vm}

theorem vmGet_live (h : d.sys.vm v = some vm) :
    d.vmGet (some v) = .ok (d.setSys (d.sys.setVm v vm.getRef)) := by
  simp [vmGet, limaVmGet, h, Vm.getRef]

theorem vmPut_get {s : Sys} (h : s.vm v = some vm) (hpos : 0 < vm.refcount)
    (hd : d.sys = s.setVm v vm.getRef) : d.vmPut (some v) = .ok (d.setSys s) := by
  have hput : limaVmPut d.sys (some v) = .ok s := by
    have hback : (s.setVm v vm.getRef).setVm v vm = s := by
      simp [Sys.setVm, ← h]
    have hne : ¬ vm.refcount = 0 := by omega
    simpa [limaVmPut, hd, Vm.getRef, hne] using hback
  simp [vmPut, hput, h, addRelease, setSys]

/-- The device after a `lima_sched_task_init` that has succeeded. -/
def inited (d : Dev) (t : TaskId) (c : CtxId) (v : VmId) (bs : List BoId) (vm : Vm) :
    Dev :=
  { d.modTask t fun task => task.init c v bs with
    sys := d.sys.setVm v vm.getRef
    gemRef := fun b => d.gemRef b + bs.count b }

theorem limaSchedTaskInit_hold (h : d.sys.vm v = some vm) (t : TaskId) (c : CtxId)
    (bs : List BoId) :
    (d.hold v bs).limaSchedTaskInit true none t c bs v =
      .ok ((d.inited t c v bs vm).hold v bs, none) := by
  have hget : ({ d.hold v bs with
      gemRef := fun b => (d.hold v bs).gemRef b + bs.count b }).vmGet (some v) = _ :=
    vmGet_live h
  simp only [limaSchedTaskInit, Bool.not_true, Bool.false_eq_true, if_false,
    gemGets_eq, hget, Outcome.bind_ok]
  rfl

/-- A `drm_sched_job_init` that fails keeps the references just taken. -/
theorem limaSchedTaskInit_leak (t : TaskId) (c : CtxId) (bs : List BoId) (e : Errno) :
    (d.hold v bs).limaSchedTaskInit true (some e) t c bs v =
      .ok ({ d with gemRef := fun b => d.gemRef b + bs.count b }.hold v bs, some e) := by
  simp only [limaSchedTaskInit, Bool.not_true, Bool.false_eq_true, if_false, gemGets_eq]
  rfl

theorem limaSchedTaskFini_inited (h : d.sys.vm v = some vm) (hpos : 0 < vm.refcount)
    (t : TaskId) (c : CtxId) (bs : List BoId) :
    ((d.inited t c v bs vm).hold v bs).limaSchedTaskFini t =
      .ok ((d.modTask t fun task =>
        { task.init c v bs with state := .allocated }).hold v bs) := by
  have hbos : (((d.inited t c v bs vm).hold v bs).task t).bos = bs := by
    simp [inited, hold, Task.init]
  have hvm : (((d.inited t c v bs vm).hold v bs).task t).vm = some v := by
    simp [inited, hold, Task.init]
  have hlive : (d.sys.hold v bs).vm v = some vm := h
  rw [limaSchedTaskFini, hbos, hvm, gemPuts_eq, vmPut_get hlive hpos rfl]
  simp [inited, hold, setSys, modTask, Task.init]

theorem fencePut_fence (d : Dev) (f : Option FenceId) :
    ∃ fence, d.fencePut f = { d with fence := fence } := by
  cases f with
  | none => exact ⟨d.fence, rfl⟩
  | some f => exact ⟨_, rfl⟩

/-- `lima_sched_free_job` gives back all a job holds. -/
theorem limaSchedFreeJob_held {s : Sys} {bs : List BoId} {t : TaskId} (fuel : ℕ)
    (h : s.vm v = some vm) (hpos : 0 < vm.refcount) (hbs : ∀ b ∈ bs, s.Mapped v b)
    (hsys : d.sys = (s.setVm v vm.getRef).hold v bs) (hvm : (d.task t).vm = some v)
    (hbos : (d.task t).bos = bs) (hstate : (d.task t).state ≠ .freed) :
    ∃ d', limaSchedFreeJob fuel d t = .ok d' ∧ d'.sys = s ∧
      (∀ b, d'.gemRef b = d.gemRef b - bs.count b) ∧ d'.ctxRef = d.ctxRef ∧
      d'.syncRef = d.syncRef ∧ (d'.task t).state = .freed := by
  have hread : d.readTask t = .ok (d.task t) := if_neg hstate
  obtain ⟨fence, hput⟩ := d.fencePut_fence (d.task t).fence
  have hbs' : ∀ b ∈ bs, (s.setVm v vm.getRef).Mapped v b := hbs
  have hdel := delBos_hold fuel bs { d with fence := fence } hbs' hsys
  have hfini : ({ d with fence := fence }.setSys (s.setVm v vm.getRef)).limaSchedTaskFini
      t = .ok ({ d with
        fence := fence
        sys := s
        gemRef := fun b => d.gemRef b - bs.count b }.modTask t fun task =>
          { task with state := .allocated }) := by
    simp only [limaSchedTaskFini, setSys, hbos, hvm, gemPuts_eq]
    rw [vmPut_get h hpos rfl]
    rfl
  refine ⟨{ d with
    fence := fence
    sys := s
    gemRef := fun b => d.gemRef b - bs.count b }.modTask t fun task =>
      { task with state := .freed }, ?_, rfl, fun b => rfl, rfl, rfl, ?_⟩
  · rw [limaSchedFreeJob, hread, Outcome.bind_ok, hbos, hvm, hput, hdel,
      Outcome.bind_ok, hfini, Outcome.bind_ok]
    simp [kmemCacheFree, readTask, modTask]
  · simp

end Task

end Dev

end Lima
