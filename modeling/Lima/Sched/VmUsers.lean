import Lima.Lib.RefCount
import Lima.Sched.Dispatch
import Lima.Vm.MapCounts

/-!
# Who uses an address space and its mappings

An address space of a file is used by the open file, by each task between
`lima_sched_task_init` and `lima_sched_task_fini`, and by each pipe whose `current_vm`
it is. A mapping in it is used by the file's handles to the object, by the objects a
submit has looked up, and by the objects of its task once that is pushed. The stored
counts balance with these users; this module says what a step has to show for them to
stay so.
-/

namespace Lima

open RefCount

/-! ## Users -/

/-- Pushed to `drm_sched`, and not freed. -/
def TaskState.pushed : TaskState → Bool
  | .queued | .pending | .killed => true
  | .unallocated | .allocated | .inited | .freed => false

/-- Between `lima_sched_task_init` and `lima_sched_task_fini`. -/
def TaskState.holding (st : TaskState) : Bool := st.pushed || st == .inited

/-- The reference counts of the live address spaces. -/
def Sys.vmRefs (s : Sys) (v : VmId) : Option ℕ := (s.vm v).map Vm.refcount

namespace Dev

variable (d : Dev)

def fileVm (f : FileId) : Option VmId := (d.file f).map DrmFile.vm

/-- The address space of some file. -/
def Named (v : VmId) : Prop := ∃ f, d.fileVm f = some v

/-- The address space the task holds a reference to. -/
def heldVm (t : TaskId) : Option VmId :=
  if (d.task t).state.holding then (d.task t).vm else none

def currentVms (p : PipeId) : Option VmId := (d.pipe p).currentVm

/-- The references to the mapping of `b` in `v` that the submit of `t` holds, or the
task itself once it is pushed. -/
def entries (v : VmId) (b : BoId) (t : TaskId) : ℕ :=
  match d.submit t with
  | some sm => if d.fileVm sm.file = some v then sm.lbos.count b else 0
  | none =>
      if (d.task t).state.pushed ∧ (d.task t).vm = some v then (d.task t).bos.count b else 0

/-- The users of the mapping of `b` in the address space of `file`: handles, and
entries of submits under way and of unfreed tasks. -/
def mapUsers (file : DrmFile) (b : BoId) : ℕ :=
  (file.handles.map Prod.snd).count b +
    ∑ t ∈ Finset.range d.numTasks, d.entries file.vm b t

/-- The users of the address space of `file`: the open file, unfreed tasks, pipes. -/
def vmUsers (file : DrmFile) : ℕ :=
  file.isOpen.toNat + holders (Finset.range d.numTasks) d.heldVm file.vm +
    holders {PipeId.gp, PipeId.pp} d.currentVms file.vm

/-- A put of `a` and a get of `b`, where there are such. -/
def MovesVm (d d' : Dev) (a b : Option VmId) : Prop :=
  ∃ count, Drops d.sys.vmRefs count d.vmReleased d'.vmReleased a ∧
    Takes count d'.sys.vmRefs b

end Dev

/-! ## Calls that count references -/

section Calls

variable {s s' : Sys} {v : VmId}

theorem limaVmPut_frame {a : Option VmId} (h : limaVmPut s a = .ok s') :
    s'.bo = s.bo ∧ s'.numVms = s.numVms := by
  unfold limaVmPut at h
  split at h
  · obtain rfl := Outcome.ok.inj h
    exact ⟨rfl, rfl⟩
  · split at h
    · cases h
    · split at h <;> obtain rfl := Outcome.ok.inj h <;> exact ⟨rfl, rfl⟩

theorem limaVmPut_drops {a : Option VmId} (released : List VmId) (h : limaVmPut s a = .ok s') :
    Drops s.vmRefs s'.vmRefs released (Dev.addRelease s' a released) a := by
  unfold limaVmPut at h
  split at h
  · obtain rfl := Outcome.ok.inj h
    exact ⟨rfl, rfl⟩
  · rename_i v
    split at h
    · cases h
    rename_i vm hvm
    refine ⟨vm.refcount, by simp [Sys.vmRefs, hvm], ?_⟩
    split at h
    · rename_i hone
      obtain rfl := Outcome.ok.inj h
      refine ⟨funext fun w => ?_, by simp [Dev.addRelease, hone]⟩
      by_cases hw : w = v <;> simp [Sys.vmRefs, hw, hone]
    · rename_i hmore
      obtain rfl := Outcome.ok.inj h
      refine ⟨funext fun w => ?_, by simp [Dev.addRelease, hmore]⟩
      by_cases hw : w = v <;> simp [Sys.vmRefs, hw, hmore]

theorem limaVmGet_frame (h : limaVmGet s v = .ok s') : s'.bo = s.bo ∧ s'.numVms = s.numVms := by
  unfold limaVmGet at h
  split at h
  · cases h
  · obtain rfl := Outcome.ok.inj h
    exact ⟨rfl, rfl⟩

theorem limaVmGet_takes (h : limaVmGet s v = .ok s') : Takes s.vmRefs s'.vmRefs (some v) := by
  unfold limaVmGet at h
  split at h
  · cases h
  · rename_i vm hvm
    obtain rfl := Outcome.ok.inj h
    refine ⟨vm.refcount, by simp [Sys.vmRefs, hvm], funext fun w => ?_⟩
    by_cases hw : w = v <;> simp [Sys.vmRefs, hw]

/-- No reference to a mapping is taken or dropped. -/
structure Sys.SameMaps (s s' : Sys) : Prop where
  listed : s.Listed → s'.Listed
  mapRefs : ∀ v b, s'.mapRefs v b = s.mapRefs v b
  numVms : s'.numVms = s.numVms

theorem Sys.SameMaps.of_va (hva : ∀ b, (s'.bo b).va = (s.bo b).va)
    (hnum : s'.numVms = s.numVms) : s.SameMaps s' := by
  refine ⟨fun hs b => ?_, fun v b => ?_, hnum⟩
  · have hb := hs b
    constructor
    · rw [hva]
      exact hb.nodup
    · rw [hva]
      exact hb.pos
  · rw [Sys.mapRefs, Bo.refs, hva]
    rfl

theorem Sys.SameMaps.of_bo (h : s'.bo = s.bo ∧ s'.numVms = s.numVms) : s.SameMaps s' :=
  .of_va (fun b => by rw [h.1]) h.2

theorem Sys.SameCounts.sameMaps (h : s.SameCounts s') : s.SameMaps s' := .of_va h.va h.numVms

theorem Sys.SameMaps.trans {s'' : Sys} (h : s.SameMaps s') (h' : s'.SameMaps s'') :
    s.SameMaps s'' :=
  ⟨fun hs => h'.listed (h.listed hs), fun v b => (h'.mapRefs v b).trans (h.mapRefs v b),
    h'.numVms.trans h.numVms⟩

/-- The mappings of `bs` in `v` have a reference more, for each time they occur. -/
structure Sys.Gains (s s' : Sys) (v : VmId) (bs : List BoId) : Prop where
  mapRefs : ∀ w c, s'.mapRefs w c = s.mapRefs w c + if w = v then bs.count c else 0
  refs : s'.vmRefs = s.vmRefs
  numVms : s'.numVms = s.numVms

theorem Sys.Recounts.sameMaps {b : BoId} (h : s.Recounts s' v b (s.mapRefs v b)) :
    s.SameMaps s' ∧ s'.vmRefs = s.vmRefs := by
  refine ⟨⟨fun _ => h.listed, fun w c => ?_, h.numVms⟩, funext h.refcount⟩
  rw [h.mapRefs]
  split
  · rename_i hwc
    rw [hwc.1, hwc.2]
  · rfl

theorem Sys.Recounts.gains {b : BoId} (h : s.Recounts s' v b (s.mapRefs v b + 1)) :
    s.Gains s' v [b] := by
  refine ⟨fun w c => ?_, funext h.refcount, h.numVms⟩
  rw [h.mapRefs, List.count_singleton]
  by_cases hc : c = b
  · subst hc
    by_cases hw : w = v <;> simp [hw]
  · simp [hc, Ne.symm hc]

theorem Sys.Recounts.loses {b : BoId} (h : s.Recounts s' v b (s.mapRefs v b - 1))
    (hpos : 0 < s.mapRefs v b) : s'.Gains s v [b] := by
  refine ⟨fun w c => ?_, (funext h.refcount).symm, h.numVms.symm⟩
  rw [h.mapRefs, List.count_singleton]
  by_cases hwc : w = v ∧ c = b
  · obtain ⟨rfl, rfl⟩ := hwc
    simp
    omega
  · rw [if_neg hwc]
    by_cases hw : w = v
    · have hc : b ≠ c := fun hc => hwc ⟨hw, hc.symm⟩
      simp [hw, hc]
    · simp [hw]

theorem Sys.Gains.trans {s'' : Sys} {bs cs : List BoId} (h : s.Gains s' v bs)
    (h' : s'.Gains s'' v cs) : s.Gains s'' v (bs ++ cs) := by
  refine ⟨fun w c => ?_, h'.refs.trans h.refs, h'.numVms.trans h.numVms⟩
  rw [h'.mapRefs, h.mapRefs, List.count_append]
  split <;> omega

/-- **The loop of `lima_vm_bo_del` calls** drops a reference for each object. -/
theorem delBos_loses {fuel : ℕ} {v : VmId} : ∀ {bs : List BoId} {d d' : Dev},
    d.sys.Listed → Dev.delBos fuel (some v) bs d = .ok d' →
      d'.sys.Listed ∧ d'.sys.Gains d.sys v bs
  | [], d, d', hl, h => by
      obtain rfl := Outcome.ok.inj h
      exact ⟨hl, fun w c => by simp, rfl, rfl⟩
  | b :: bs, d, d', hl, h => by
      obtain ⟨⟨s, touched⟩, hdel, h⟩ := Outcome.bind_eq_ok h
      obtain ⟨hpos, hone⟩ := limaVmBoDel_recounts hl hdel
      obtain ⟨hl', hrest⟩ := delBos_loses (d := d.setSys s) hone.listed h
      refine ⟨hl', ?_⟩
      have hall := hrest.trans (hone.loses hpos)
      refine ⟨fun w c => ?_, hall.refs, hall.numVms⟩
      rw [hall.mapRefs, (List.perm_append_singleton b bs).count_eq c]

end Calls

/-! ## The balance -/

/-- Each file has an address space of its own, tasks and pipes hold such ones, a submit
belongs to an open file, and an initialised task has taken over what its submit has
found. -/
structure VmBooks (d : Dev) : Prop where
  fileLt : ∀ f file, d.file f = some file → file.vm < d.sys.numVms
  fileInj : ∀ f g x y, d.file f = some x → d.file g = some y → x.vm = y.vm → f = g
  closed : ∀ f file, d.file f = some file → file.isOpen = false → file.handles = []
  submit : ∀ t sm, d.submit t = some sm → ∃ file, d.file sm.file = some file ∧
    file.isOpen = true ∧ ((d.task t).state = .inited → sm.failed = false ∧ sm.handles = [] ∧
      (d.task t).vm = some file.vm ∧ (d.task t).bos = sm.lbos)
  held : ∀ t v, d.heldVm t = some v → d.Named v
  current : ∀ p v, d.currentVms p = some v → d.Named v
  releasedLt : ∀ v ∈ d.vmReleased, v < d.sys.numVms

/-- The stored counts are the numbers of users. -/
structure VmBalance (d : Dev) : Prop extends VmBooks d where
  listed : d.sys.Listed
  maps : ∀ f file, d.file f = some file → ∀ b, d.sys.mapRefs file.vm b = d.mapUsers file b
  unmapped : ∀ v, d.sys.numVms ≤ v → ∀ b, d.sys.mapRefs v b = 0
  refs : ∀ f file, d.file f = some file →
    Balanced d.sys.vmRefs d.vmReleased file.vm (d.vmUsers file)

namespace VmBooks

variable {d d' : Dev}

theorem named_lt (h : VmBooks d) {v : VmId} (hv : d.Named v) : v < d.sys.numVms := by
  obtain ⟨f, hf⟩ := hv
  obtain ⟨file, hfile, rfl⟩ := Option.map_eq_some_iff.mp hf
  exact h.fileLt f file hfile

theorem heldLt (h : VmBooks d) {t : TaskId} {v : VmId} (hv : d.heldVm t = some v) :
    v < d.sys.numVms := h.named_lt (h.held t v hv)

theorem currentLt (h : VmBooks d) {p : PipeId} {v : VmId} (hv : d.currentVms p = some v) :
    v < d.sys.numVms := h.named_lt (h.current p v hv)

/-- Nobody uses an address space that is not made yet. -/
theorem entries_fresh (h : VmBooks d) {v : VmId} (hv : d.sys.numVms ≤ v) (b : BoId)
    (t : TaskId) : d.entries v b t = 0 := by
  unfold Dev.entries
  cases hsm : d.submit t with
  | some sm =>
      obtain ⟨file, hfile, -⟩ := h.submit t sm hsm
      have hne : file.vm ≠ v := (Nat.lt_of_lt_of_le (h.fileLt _ file hfile) hv).ne
      simp [Dev.fileVm, hfile, hne]
  | none =>
      refine if_neg ?_
      rintro ⟨hp, hvm⟩
      have hheld : d.heldVm t = some v := by simp [Dev.heldVm, TaskState.holding, hp, hvm]
      exact absurd (h.heldLt hheld) (not_lt.mpr hv)

theorem heldVm_fresh (h : VmBooks d) {v : VmId} (hv : d.sys.numVms ≤ v) (t : TaskId) :
    d.heldVm t ≠ some v := fun hh => absurd (h.heldLt hh) (not_lt.mpr hv)

theorem currentVm_fresh (h : VmBooks d) {v : VmId} (hv : d.sys.numVms ≤ v) (p : PipeId) :
    d.currentVms p ≠ some v := fun hh => absurd (h.currentLt hh) (not_lt.mpr hv)

theorem released_of_drops (h : VmBooks d) {a b : Option VmId} (hm : d.MovesVm d' a b)
    (ha : ∀ v, a = some v → v < d.sys.numVms) : ∀ v ∈ d'.vmReleased, v < d.sys.numVms := by
  obtain ⟨count, hd, -⟩ := hm
  intro v hv
  rcases hd.mem_released hv with hold | hnew
  · exact h.releasedLt v hold
  · exact ha v hnew

end VmBooks

namespace VmBalance

open Dev

variable {d d' : Dev}

/-- What any step has to show that makes no address space: at each file, the stored
counts move as the users do. -/
theorem move (h : VmBalance d) (hb : VmBooks d') (hnum : d'.sys.numVms = d.sys.numVms)
    (hl : d'.sys.Listed) {a b : Option VmId} (hvm : d.MovesVm d' a b)
    (hfile : ∀ f file', d'.file f = some file' → ∃ file, d.file f = some file ∧
      file'.vm = file.vm ∧
      (∀ b, d'.sys.mapRefs file.vm b + d.mapUsers file b =
        d.sys.mapRefs file.vm b + d'.mapUsers file' b) ∧
      d'.vmUsers file' + one a file.vm = d.vmUsers file + one b file.vm)
    (hun : ∀ v, d.sys.numVms ≤ v → ∀ b, d'.sys.mapRefs v b = d.sys.mapRefs v b) :
    VmBalance d' where
  toVmBooks := hb
  listed := hl
  maps f file' hf b := by
    obtain ⟨file, hold, hv, hmaps, -⟩ := hfile f file' hf
    have hmap := hmaps b
    have hcount := h.maps f file hold b
    rw [hv]
    omega
  unmapped v hv b := by
    rw [hnum] at hv
    rw [hun v hv]
    exact h.unmapped v hv b
  refs f file' hf := by
    obtain ⟨file, hold, hv, -, husers⟩ := hfile f file' hf
    obtain ⟨count, hd, ht⟩ := hvm
    rw [hv]
    exact (h.refs f file hold).move hd ht husers

end VmBalance

/-! ## Steps of the scheduler -/

/-- The task holds what it held, whether it has moved on or not. -/
def Task.KeepsRefs (x x' : Task) : Prop :=
  (x'.state = x.state ∨ x.state.pushed = true ∧ x'.state.pushed = true) ∧
    x'.vm = x.vm ∧ x'.bos = x.bos

theorem Task.SameButHeap.keepsRefs {x x' : Task} (h : x.SameButHeap x') : x.KeepsRefs x' :=
  ⟨.inl h.state, h.vm, h.bos⟩

theorem Task.KeepsRefs.trans {x y z : Task} (h : x.KeepsRefs y) (h' : y.KeepsRefs z) :
    x.KeepsRefs z := by
  obtain ⟨hst, hvm, hbos⟩ := h
  obtain ⟨hst', hvm', hbos'⟩ := h'
  refine ⟨?_, hvm'.trans hvm, hbos'.trans hbos⟩
  rcases hst' with hst' | ⟨hp, hp'⟩
  · rw [hst']
    exact hst
  · rcases hst with hst | ⟨hp₀, -⟩
    · exact .inr ⟨hst ▸ hp, hp'⟩
    · exact .inr ⟨hp₀, hp'⟩

/-- Files, submits and tasks hold what they held. -/
structure Dev.KeepsRefs (d d' : Dev) : Prop where
  file : d'.file = d.file
  submit : d'.submit = d.submit
  numTasks : d'.numTasks = d.numTasks
  task : ∀ t, (d.task t).KeepsRefs (d'.task t)

namespace Dev.KeepsRefs

variable {d d' d'' : Dev}

theorem trans (k : d.KeepsRefs d') (k' : d'.KeepsRefs d'') : d.KeepsRefs d'' :=
  ⟨k'.file.trans k.file, k'.submit.trans k.submit, k'.numTasks.trans k.numTasks,
    fun t => (k.task t).trans (k'.task t)⟩

theorem heldVm (k : d.KeepsRefs d') : d'.heldVm = d.heldVm := by
  funext t
  obtain ⟨hst, hvm, -⟩ := k.task t
  unfold Dev.heldVm
  rw [hvm]
  rcases hst with hst | ⟨hp, hp'⟩
  · rw [hst]
  · simp [TaskState.holding, hp, hp']

theorem entries (k : d.KeepsRefs d') : d'.entries = d.entries := by
  funext v b t
  obtain ⟨hst, hvm, hbos⟩ := k.task t
  unfold Dev.entries Dev.fileVm
  rw [k.submit, k.file, hvm, hbos]
  rcases hst with hst | ⟨hp, hp'⟩
  · rw [hst]
  · rw [hp, hp']

theorem named (k : d.KeepsRefs d') {v : VmId} : d'.Named v ↔ d.Named v := by
  unfold Dev.Named Dev.fileVm
  rw [k.file]

theorem mapUsers (k : d.KeepsRefs d') (file : DrmFile) (b : BoId) :
    d'.mapUsers file b = d.mapUsers file b := by
  unfold Dev.mapUsers
  rw [k.entries, k.numTasks]

theorem books (k : d.KeepsRefs d') (h : VmBooks d) (hnum : d'.sys.numVms = d.sys.numVms)
    (hcur : ∀ p v, d'.currentVms p = some v → d.Named v)
    (hrel : ∀ v ∈ d'.vmReleased, v < d.sys.numVms) : VmBooks d' where
  fileLt f file hf := by
    rw [k.file] at hf
    rw [hnum]
    exact h.fileLt f file hf
  fileInj f g x y hx hy := by
    rw [k.file] at hx hy
    exact h.fileInj f g x y hx hy
  closed f file hf := by
    rw [k.file] at hf
    exact h.closed f file hf
  submit t sm hsm := by
    rw [k.submit] at hsm
    obtain ⟨file, hfile, hopen, hinit⟩ := h.submit t sm hsm
    refine ⟨file, by rwa [k.file], hopen, fun hst' => ?_⟩
    obtain ⟨hst, hvm, hbos⟩ := k.task t
    rw [hvm, hbos]
    refine hinit ?_
    rcases hst with hst | ⟨-, hp'⟩
    · rwa [hst] at hst'
    · rw [hst'] at hp'
      cases hp'
  held t v hv := by
    rw [k.heldVm] at hv
    exact k.named.mpr (h.held t v hv)
  current p v hv := k.named.mpr (hcur p v hv)
  releasedLt v hv := by
    rw [hnum]
    exact hrel v hv

end Dev.KeepsRefs

namespace VmBalance

open Dev

variable {d d' : Dev}

/-- A step that changes what one pipe holds. -/
theorem pipe (h : VmBalance d) (k : d.KeepsRefs d') (hs : d.sys.SameMaps d'.sys) {p : PipeId}
    (hp : ∀ q, q ≠ p → d'.currentVms q = d.currentVms q)
    (hnamed : ∀ v, d'.currentVms p = some v → d.Named v)
    (hvm : d.MovesVm d' (d.currentVms p) (d'.currentVms p)) : VmBalance d' := by
  have hcur : ∀ q v, d'.currentVms q = some v → d.Named v := by
    intro q v hv
    by_cases hq : q = p
    · subst hq
      exact hnamed v hv
    · rw [hp q hq] at hv
      exact h.current q v hv
  have hrel := h.toVmBooks.released_of_drops hvm fun v hv => h.currentLt hv
  refine h.move (k.books h.toVmBooks hs.numVms hcur hrel) hs.numVms (hs.listed h.listed) hvm
    (fun f file hf => ⟨file, k.file ▸ hf, rfl, fun b => ?_, ?_⟩) fun v _ b => hs.mapRefs v b
  · rw [hs.mapRefs, k.mapUsers]
  · have hmem : p ∈ ({PipeId.gp, PipeId.pp} : Finset PipeId) := by cases p <;> simp
    have hchange := holders_change (r := file.vm) hmem hp
    unfold vmUsers
    rw [k.heldVm, k.numTasks]
    omega

/-- A step that changes no user. -/
theorem keeps (h : VmBalance d) (k : d.KeepsRefs d') (hs : d.sys.SameMaps d'.sys)
    (hp : d'.currentVms = d.currentVms) (hrefs : d'.sys.vmRefs = d.sys.vmRefs)
    (hrel : d'.vmReleased = d.vmReleased) : VmBalance d' := by
  have hvm : d.MovesVm d' none none := ⟨d.sys.vmRefs, ⟨rfl, hrel⟩, hrefs⟩
  have hbooks : VmBooks d' := by
    refine k.books h.toVmBooks hs.numVms (fun p v hv => ?_) fun v hv => ?_
    · rw [hp] at hv
      exact h.current p v hv
    · rw [hrel] at hv
      exact h.releasedLt v hv
  refine h.move hbooks hs.numVms (hs.listed h.listed) hvm
    (fun f file hf => ⟨file, k.file ▸ hf, rfl, fun b => ?_, ?_⟩) fun v _ b => hs.mapRefs v b
  · rw [hs.mapRefs, k.mapUsers]
  · unfold vmUsers
    rw [k.heldVm, k.numTasks, hp]

end VmBalance

/-! ## Steps of one task -/

/-- Only what task `t` and its submit hold can have changed. -/
structure Dev.MovesTask (t : TaskId) (d d' : Dev) : Prop where
  file : d'.file = d.file
  numTasks : d'.numTasks = d.numTasks
  task : ∀ u, u ≠ t → d'.task u = d.task u
  submit : ∀ u, u ≠ t → d'.submit u = d.submit u
  current : d'.currentVms = d.currentVms
  numVms : d'.sys.numVms = d.sys.numVms

namespace Dev.MovesTask

variable {d d' : Dev} {t : TaskId}

theorem heldVm (m : MovesTask t d d') {u : TaskId} (hu : u ≠ t) : d'.heldVm u = d.heldVm u := by
  unfold Dev.heldVm
  rw [m.task u hu]

theorem named (m : MovesTask t d d') {v : VmId} : d'.Named v ↔ d.Named v := by
  unfold Dev.Named Dev.fileVm
  rw [m.file]

theorem entries (m : MovesTask t d d') {u : TaskId} (hu : u ≠ t) (v : VmId) (b : BoId) :
    d'.entries v b u = d.entries v b u := by
  unfold Dev.entries Dev.fileVm
  rw [m.task u hu, m.submit u hu, m.file]

theorem books (m : MovesTask t d d') (h : VmBooks d)
    (hsm : ∀ sm, d'.submit t = some sm → ∃ file, d.file sm.file = some file ∧
      file.isOpen = true ∧ ((d'.task t).state = .inited → sm.failed = false ∧
        sm.handles = [] ∧ (d'.task t).vm = some file.vm ∧ (d'.task t).bos = sm.lbos))
    (hnamed : ∀ v, d'.heldVm t = some v → d.Named v)
    (hrel : ∀ v ∈ d'.vmReleased, v < d.sys.numVms) : VmBooks d' where
  fileLt f file hf := by
    rw [m.file] at hf
    rw [m.numVms]
    exact h.fileLt f file hf
  fileInj f g x y hx hy := by
    rw [m.file] at hx hy
    exact h.fileInj f g x y hx hy
  closed f file hf := by
    rw [m.file] at hf
    exact h.closed f file hf
  submit u sm hu := by
    rw [m.file]
    by_cases hut : u = t
    · subst hut
      exact hsm sm hu
    · rw [m.submit u hut] at hu
      rw [m.task u hut]
      exact h.submit u sm hu
  held u v hv := by
    rw [m.named]
    by_cases hut : u = t
    · subst hut
      exact hnamed v hv
    · rw [m.heldVm hut] at hv
      exact h.held u v hv
  current p v hv := by
    rw [m.current] at hv
    exact m.named.mpr (h.current p v hv)
  releasedLt v hv := by
    rw [m.numVms]
    exact hrel v hv

end Dev.MovesTask

namespace VmBalance

open Dev

variable {d d' : Dev} {t : TaskId}

/-- A step of one task, which drops its reference to `a` or takes one to `b`, and
changes the counts of mappings by what it and its submit hold. -/
theorem task (h : VmBalance d) (m : MovesTask t d d') (ht : t < d.numTasks) (hb : VmBooks d')
    (hl : d'.sys.Listed)
    (hmap : ∀ v b, d'.sys.mapRefs v b + d.entries v b t = d.sys.mapRefs v b + d'.entries v b t)
    {a b : Option VmId} (hvm : d.MovesVm d' a b)
    (hheld : ∀ v, one (d'.heldVm t) v + one a v = one (d.heldVm t) v + one b v) :
    VmBalance d' := by
  have hmem : t ∈ Finset.range d.numTasks := Finset.mem_range.mpr ht
  refine h.move hb m.numVms hl hvm (fun f file hf => ⟨file, m.file ▸ hf, rfl, fun c => ?_, ?_⟩)
    fun v hv c => ?_
  · have hsum : ∑ u ∈ Finset.range d.numTasks, d'.entries file.vm c u + d.entries file.vm c t =
        ∑ u ∈ Finset.range d.numTasks, d.entries file.vm c u + d'.entries file.vm c t :=
      sum_change hmem fun u hu => m.entries hu file.vm c
    have hstored := hmap file.vm c
    unfold mapUsers
    rw [m.numTasks]
    omega
  · have hchange : holders _ d'.heldVm file.vm + _ = holders _ d.heldVm file.vm + _ :=
      holders_change hmem fun u hu => m.heldVm hu
    have htask := hheld file.vm
    unfold vmUsers
    rw [m.numTasks, m.current]
    omega
  · have hold := h.toVmBooks.entries_fresh hv c t
    have hnew := hb.entries_fresh (m.numVms ▸ hv) c t
    have hstored := hmap v c
    omega

end VmBalance

/-! ## Steps of one file -/

/-- Only what file `f` holds can have changed. -/
structure Dev.MovesFile (f : FileId) (x x' : DrmFile) (d d' : Dev) : Prop where
  before : d.file f = some x
  after : d'.file f = some x'
  vm : x'.vm = x.vm
  file : ∀ g, g ≠ f → d'.file g = d.file g
  task : d'.task = d.task
  numTasks : d'.numTasks = d.numTasks
  submit : d'.submit = d.submit
  current : d'.currentVms = d.currentVms
  numVms : d'.sys.numVms = d.sys.numVms

namespace Dev.MovesFile

variable {d d' : Dev} {f : FileId} {x x' : DrmFile}

theorem fileVm (m : MovesFile f x x' d d') : d'.fileVm = d.fileVm := by
  funext g
  unfold Dev.fileVm
  by_cases hg : g = f
  · subst hg
    rw [m.before, m.after]
    exact congrArg some m.vm
  · rw [m.file g hg]

theorem entries (m : MovesFile f x x' d d') : d'.entries = d.entries := by
  funext v b t
  unfold Dev.entries
  rw [m.fileVm, m.submit, m.task]

theorem heldVm (m : MovesFile f x x' d d') : d'.heldVm = d.heldVm := by
  funext t
  unfold Dev.heldVm
  rw [m.task]

theorem named (m : MovesFile f x x' d d') {v : VmId} : d'.Named v ↔ d.Named v := by
  unfold Dev.Named
  rw [m.fileVm]

/-- A file that is there afterwards is `f`, or was there and is the same. -/
theorem cases (m : MovesFile f x x' d d') {g : FileId} {y : DrmFile} (hg : d'.file g = some y) :
    g = f ∧ y = x' ∨ g ≠ f ∧ d.file g = some y := by
  by_cases h : g = f
  · subst h
    exact .inl ⟨rfl, (Option.some.inj (m.after.symm.trans hg)).symm⟩
  · exact .inr ⟨h, m.file g h ▸ hg⟩

theorem books (m : MovesFile f x x' d d') (h : VmBooks d)
    (hclosed : x'.isOpen = false → x'.handles = [])
    (hopen : ∀ t sm, d.submit t = some sm → sm.file = f → x'.isOpen = true)
    (hrel : ∀ v ∈ d'.vmReleased, v < d.sys.numVms) : VmBooks d' := by
  -- the address space of a file is the one it had
  have hold : ∀ g y, d'.file g = some y → ∃ z, d.file g = some z ∧ y.vm = z.vm := by
    intro g y hy
    rcases m.cases hy with ⟨rfl, rfl⟩ | ⟨-, hg⟩
    · exact ⟨x, m.before, m.vm⟩
    · exact ⟨y, hg, rfl⟩
  refine ⟨fun g y hy => ?_, fun g k y z hy hz hv => ?_, fun g y hy hc => ?_,
    fun t sm hsm => ?_, fun t v hv => ?_, fun p v hv => ?_, fun v hv => ?_⟩
  · obtain ⟨z, hz, hv⟩ := hold g y hy
    rw [hv, m.numVms]
    exact h.fileLt g z hz
  · obtain ⟨y₀, hy₀, hvy⟩ := hold g y hy
    obtain ⟨z₀, hz₀, hvz⟩ := hold k z hz
    exact h.fileInj g k y₀ z₀ hy₀ hz₀ (hvy.symm.trans (hv.trans hvz))
  · rcases m.cases hy with ⟨-, rfl⟩ | ⟨-, hg⟩
    · exact hclosed hc
    · exact h.closed g y hg hc
  · rw [m.submit] at hsm
    obtain ⟨y, hy, hyopen, hinit⟩ := h.submit t sm hsm
    rw [m.task]
    by_cases hf : sm.file = f
    · obtain rfl : x = y := Option.some.inj (m.before.symm.trans (hf ▸ hy))
      refine ⟨x', hf ▸ m.after, hopen t sm hsm hf, ?_⟩
      rw [m.vm]
      exact hinit
    · exact ⟨y, (m.file _ hf).trans hy, hyopen, hinit⟩
  · rw [m.heldVm] at hv
    exact m.named.mpr (h.held t v hv)
  · rw [m.current] at hv
    exact m.named.mpr (h.current p v hv)
  · rw [m.numVms]
    exact hrel v hv

end Dev.MovesFile

namespace VmBalance

open Dev

variable {d d' : Dev} {f : FileId} {x x' : DrmFile}

/-- A step of one file, which changes the counts of the mappings in its address space
as its handles change, and drops the file's own reference if it closes the file. -/
theorem file (h : VmBalance d) (m : MovesFile f x x' d d') (hb : VmBooks d')
    (hl : d'.sys.Listed)
    (hmap : ∀ b, d'.sys.mapRefs x.vm b + (x.handles.map Prod.snd).count b =
      d.sys.mapRefs x.vm b + (x'.handles.map Prod.snd).count b)
    (hother : ∀ v, v ≠ x.vm → ∀ b, d'.sys.mapRefs v b = d.sys.mapRefs v b)
    {a : Option VmId} (hvm : d.MovesVm d' a none)
    (ha : ∀ v, x'.isOpen.toNat * one (some x.vm) v + one a v = x.isOpen.toNat * one (some x.vm) v) :
    VmBalance d' := by
  refine h.move hb m.numVms hl hvm (fun g y hy => ?_) fun v hv b => hother v ?_ b
  · rcases m.cases hy with ⟨rfl, rfl⟩ | ⟨hg, hy⟩
    · refine ⟨x, m.before, m.vm, fun b => ?_, ?_⟩
      · have hstored := hmap b
        unfold mapUsers
        rw [m.entries, m.numTasks, m.vm]
        omega
      · have hown := ha x.vm
        rw [one_self, mul_one, mul_one] at hown
        unfold vmUsers
        rw [m.heldVm, m.current, m.numTasks, m.vm, one_none]
        omega
    · have hne : y.vm ≠ x.vm := fun hv => hg (h.fileInj g f y x hy m.before hv)
      refine ⟨y, hy, rfl, fun b => ?_, ?_⟩
      · rw [hother y.vm hne]
        unfold mapUsers
        rw [m.entries, m.numTasks]
      · have hown := ha y.vm
        have hself : one (some x.vm) y.vm = 0 := one_of_ne fun he => hne (Option.some.inj he).symm
        rw [hself, mul_zero, mul_zero, zero_add] at hown
        unfold vmUsers
        rw [m.heldVm, m.current, m.numTasks, hown, one_none]
  · rintro rfl
    exact absurd (h.fileLt f x m.before) (not_lt.mpr hv)

end VmBalance

end Lima
