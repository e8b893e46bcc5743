import Lima.Sched.VmUsers
import Lima.Sched.TaskPointer

/-!
# The references to address spaces and mappings balance

Every step of the device moves the stored counts as it moves the users: the steps of
files, handles and submits one by one, the steps of the scheduler by what they do to
tasks and pipes. So a mapping lives as long as it has a user, and an address space is
released when its last user is gone, once, with no mapping left in it.
-/

namespace Lima

open RefCount

namespace Dev

variable {d d' : Dev}

theorem MovesVm.unmoved (hrefs : d'.sys.vmRefs = d.sys.vmRefs)
    (hrel : d'.vmReleased = d.vmReleased) : d.MovesVm d' none none :=
  ⟨d.sys.vmRefs, ⟨rfl, hrel⟩, hrefs⟩

theorem MovesVm.put {a : Option VmId} {s : Sys} (h : limaVmPut d.sys a = .ok s)
    (hrefs : d'.sys.vmRefs = s.vmRefs) (hrel : d'.vmReleased = addRelease s a d.vmReleased) :
    d.MovesVm d' a none :=
  ⟨s.vmRefs, hrel ▸ limaVmPut_drops _ h, hrefs⟩

theorem MovesVm.get {v : VmId} (h : limaVmGet d.sys v = .ok d'.sys)
    (hrel : d'.vmReleased = d.vmReleased) : d.MovesVm d' none (some v) :=
  ⟨d.sys.vmRefs, ⟨rfl, hrel⟩, limaVmGet_takes h⟩

end Dev

namespace VmBalance

open Dev

variable {d d' : Dev}

/-! ## Files -/

theorem boot {s : Sys} (hva : ∀ b, (s.bo b).va = []) : VmBalance (.boot s) where
  fileLt := nofun
  fileInj := nofun
  closed := nofun
  submit := nofun
  held t v h := by simp [heldVm, Dev.boot, Task.zeroed, TaskState.holding, TaskState.pushed] at h
  current := nofun
  releasedLt := nofun
  listed b := ⟨by simp [Dev.boot, hva], by simp [Dev.boot, hva]⟩
  maps := nofun
  unmapped v _ b := by simp [Sys.mapRefs, Bo.refs, Dev.boot, hva, limaVmBoFind]
  refs := nofun

theorem limaVmCreate_cases {dev : LimaDevice} {kz : Bool} {pd : Option ℕ}
    {dma : ℕ → Option ℕ} {s s' : Sys} {r : Option VmId}
    (h : limaVmCreate dev kz pd dma s = (s', r)) :
    r = none ∧ s' = s ∨ ∃ vm, vm.refcount = 1 ∧ r = some s.numVms ∧
      s' = { s.setVm s.numVms vm with numVms := s.numVms + 1 } := by
  unfold limaVmCreate at h
  split at h
  · obtain ⟨rfl, rfl⟩ := Prod.mk.inj h
    exact .inl ⟨rfl, rfl⟩
  · rename_i vm hvm
    obtain ⟨rfl, rfl⟩ := Prod.mk.inj h
    obtain ⟨pd, vm₀, -, hvm₀, rfl⟩ := limaVmCreateVm_cases hvm
    refine .inr ⟨_, ?_, rfl, rfl⟩
    rcases hvm₀ with ⟨-, rfl⟩ | ⟨dlbu, -, hmap⟩
    · rfl
    · exact (limaVmMapPage_ok hmap).2.2.refcount

/-- A file that is opened has an address space of its own, which nobody else uses. -/
theorem newFile (h : VmBalance d) {f : FileId} {x : DrmFile} {vm : Vm} (hf : d.file f = none)
    (hx : x.vm = d.sys.numVms ∧ x.isOpen = true ∧ x.handles = []) (hone : vm.refcount = 1)
    (hsys : d'.sys = { d.sys.setVm d.sys.numVms vm with numVms := d.sys.numVms + 1 })
    (hd' : d' = { d with
      sys := d'.sys
      file := Function.update d.file f (some x) }) : VmBalance d' := by
  obtain ⟨hv, hopen, hempty⟩ := hx
  have hnum : d'.sys.numVms = d.sys.numVms + 1 := by rw [hsys]
  have hbo : d'.sys.bo = d.sys.bo := by rw [hsys]; rfl
  have hself : d'.file f = some x := by rw [hd']; simp
  have hother : ∀ g, g ≠ f → d'.file g = d.file g := fun g hg => by rw [hd']; simp [hg]
  have hcases : ∀ g y, d'.file g = some y → g = f ∧ y = x ∨ d.file g = some y := by
    intro g y hg
    by_cases hgf : g = f
    · subst hgf
      exact .inl ⟨rfl, (Option.some.inj (hself.symm.trans hg)).symm⟩
    · exact .inr (hother g hgf ▸ hg)
  have hkept : ∀ g y, d.file g = some y → d'.file g = some y := by
    intro g y hg
    rw [hother, hg]
    rintro rfl
    rw [hf] at hg
    cases hg
  have htask : d'.task = d.task := by rw [hd']
  have hsub : d'.submit = d.submit := by rw [hd']
  have hnt : d'.numTasks = d.numTasks := by rw [hd']
  have hrel : d'.vmReleased = d.vmReleased := by rw [hd']
  have hheld : d'.heldVm = d.heldVm := by unfold heldVm; rw [htask]
  have hcur : d'.currentVms = d.currentVms := by unfold currentVms; rw [hd']
  have hent : d'.entries = d.entries := by
    funext w c t
    unfold entries
    rw [hsub, htask]
    cases hsm : d.submit t with
    | none => rfl
    | some sm =>
        obtain ⟨y, hy, -⟩ := h.submit t sm hsm
        simp only [fileVm, hy, hkept _ _ hy]
  have hnamed : ∀ v, d.Named v → d'.Named v := by
    rintro v ⟨g, hg⟩
    obtain ⟨y, hy, rfl⟩ := Option.map_eq_some_iff.mp hg
    exact ⟨g, congrArg (Option.map DrmFile.vm) (hkept g y hy)⟩
  have hmaps : ∀ w c, d'.sys.mapRefs w c = d.sys.mapRefs w c := by
    intro w c
    rw [Sys.mapRefs, hbo]
    rfl
  have hrefs : d'.sys.vmRefs = Function.update d.sys.vmRefs d.sys.numVms (some 1) := by
    funext w
    rw [Sys.vmRefs, hsys]
    by_cases hw : w = d.sys.numVms <;> simp [hw, hone, Sys.vmRefs]
  refine
    { fileLt := fun g y hg => ?_
      fileInj := fun g k y z hg hk hyz => ?_
      closed := fun g y hg hc => ?_
      submit := fun t sm hsm => ?_
      held := fun t v ht => ?_
      current := fun p v hp => ?_
      releasedLt := fun v hr => ?_
      listed := fun b => ?_
      maps := fun g y hg b => ?_
      unmapped := fun v hlt b => ?_
      refs := fun g y hg => ?_ }
  · rw [hnum]
    rcases hcases g y hg with ⟨-, rfl⟩ | hg
    · rw [hv]
      exact Nat.lt_succ_self _
    · exact Nat.lt_succ_of_lt (h.fileLt g y hg)
  · rcases hcases g y hg with ⟨rfl, rfl⟩ | hg <;> rcases hcases k z hk with ⟨rfl, rfl⟩ | hk
    · rfl
    · exact absurd (hyz.symm.trans hv) (h.fileLt k z hk).ne
    · exact absurd (hyz.trans hv) (h.fileLt g y hg).ne
    · exact h.fileInj g k y z hg hk hyz
  · rcases hcases g y hg with ⟨-, rfl⟩ | hg
    · exact hempty
    · exact h.closed g y hg hc
  · rw [hsub] at hsm
    rw [htask]
    obtain ⟨y, hy, hrest⟩ := h.submit t sm hsm
    exact ⟨y, hkept _ _ hy, hrest⟩
  · rw [hheld] at ht
    exact hnamed v (h.held t v ht)
  · rw [hcur] at hp
    exact hnamed v (h.current p v hp)
  · rw [hrel] at hr
    rw [hnum]
    exact Nat.lt_succ_of_lt (h.releasedLt v hr)
  · rw [hbo]
    exact h.listed b
  · rw [hmaps, mapUsers, hent, hnt]
    rcases hcases g y hg with ⟨-, rfl⟩ | hg
    · rw [hv, hempty, h.unmapped _ le_rfl,
        Finset.sum_eq_zero fun t _ => h.toVmBooks.entries_fresh le_rfl b t]
      rfl
    · exact h.maps g y hg b
  · rw [hnum] at hlt
    rw [hmaps]
    exact h.unmapped v (by omega) b
  · rw [hrefs, hrel, vmUsers, hheld, hcur, hnt]
    rcases hcases g y hg with ⟨-, rfl⟩ | hg
    · have hnotask : holders (Finset.range d.numTasks) d.heldVm y.vm = 0 := by
        refine Nat.eq_zero_of_not_pos fun hp => ?_
        obtain ⟨t, -, ht⟩ := holders_pos.mp hp
        exact h.toVmBooks.heldVm_fresh hv.ge t ht
      have hnopipe : holders {PipeId.gp, PipeId.pp} d.currentVms y.vm = 0 := by
        refine Nat.eq_zero_of_not_pos fun hp => ?_
        obtain ⟨p, -, hp⟩ := holders_pos.mp hp
        exact h.toVmBooks.currentVm_fresh hv.ge p hp
      rw [hnotask, hnopipe, hopen, hv]
      refine .fresh (Function.update_self ..) fun hr => ?_
      exact absurd (h.releasedLt _ hr) (lt_irrefl _)
    · have hne : y.vm ≠ d.sys.numVms := (h.fileLt g y hg).ne
      have hold := h.refs g y hg
      refine ⟨?_, hold.released⟩
      rw [Function.update_of_ne hne]
      exact hold.count

theorem fileOpen (h : VmBalance d) {cfg : VmConfig} {f : FileId} {kz : Bool} {pd : Option ℕ}
    {dma : ℕ → Option ℕ} (hf : d.file f = none) :
    VmBalance (d.limaDrmDriverOpen cfg f kz pd dma) := by
  unfold limaDrmDriverOpen
  split
  · rename_i s hcreate
    obtain ⟨-, rfl⟩ | ⟨-, -, hr, -⟩ := limaVmCreate_cases hcreate
    · exact h
    · cases hr
  · rename_i s v hcreate
    obtain ⟨hr, -⟩ | ⟨vm, hone, hr, rfl⟩ := limaVmCreate_cases hcreate
    · cases hr
    · obtain rfl := Option.some.inj hr
      exact h.newFile (x := ⟨d.sys.numVms, true, [], [], []⟩) hf ⟨rfl, rfl, rfl⟩ hone rfl rfl

theorem lt_of_submit (hw : d.TasksWf) {t : TaskId} {sm : Submit} (hsm : d.submit t = some sm) :
    t < d.numTasks := by
  by_contra hlt
  rw [(hw.fresh t (not_lt.mp hlt)).2] at hsm
  cases hsm

theorem fileClose (h : VmBalance d) (hw : d.TasksWf) {f : FileId} {file : DrmFile}
    (hf : d.file f = some file) (hopen : file.isOpen = true) (hempty : file.handles = [])
    (hno : d.NoSubmit f) (hd : d.limaDrmDriverPostclose f file = .ok d') : VmBalance d' := by
  obtain ⟨d₁, hput, hd⟩ := Outcome.bind_eq_ok hd
  obtain ⟨s, hs, rfl⟩ := vmPut_cases hput
  obtain rfl := Outcome.ok.inj hd
  have hsame := Sys.SameMaps.of_bo (limaVmPut_frame hs)
  have m : MovesFile f file { file with isOpen := false } d { d with
      sys := s
      vmReleased := addRelease s (some file.vm) d.vmReleased
      file := Function.update d.file f (some { file with isOpen := false }) } :=
    ⟨hf, Function.update_self .., rfl, fun g hg => Function.update_of_ne hg .., rfl, rfl, rfl, rfl,
      hsame.numVms⟩
  have hvm : d.MovesVm { d with
      sys := s
      vmReleased := addRelease s (some file.vm) d.vmReleased
      file := Function.update d.file f (some { file with isOpen := false }) } (some file.vm) none :=
    .put hs rfl rfl
  have hlt : ∀ v, some file.vm = some v → v < d.sys.numVms := by
    rintro v ⟨⟩
    exact h.fileLt f file hf
  have hb := m.books h.toVmBooks (fun _ => hempty) (fun t sm hsm hfile => ?_)
    (h.toVmBooks.released_of_drops hvm hlt)
  · refine h.file m hb (hsame.listed h.listed) (fun b => ?_) (fun v _ b => hsame.mapRefs v b) hvm
      fun v => ?_
    · exact congrArg (· + _) (hsame.mapRefs file.vm b)
    · simp [hopen]
  · refine absurd ?_ (hno t (lt_of_submit hw hsm))
    rw [hsm]
    exact congrArg some hfile

/-! ## Handles -/

/-- A handle that is created or closed changes the count of its mapping. -/
theorem handle (h : VmBalance d) {f : FileId} {x x' : DrmFile} (m : MovesFile f x x' d d')
    (hopen : x.isOpen = true ∧ x'.isOpen = true) (hl : d'.sys.Listed) (bs cs : List BoId)
    (hbs : (x.handles.map Prod.snd ++ bs).Perm (x'.handles.map Prod.snd ++ cs))
    (hmap : ∀ v b, d'.sys.mapRefs v b + (if v = x.vm then cs.count b else 0) =
      d.sys.mapRefs v b + if v = x.vm then bs.count b else 0)
    (hrefs : d'.sys.vmRefs = d.sys.vmRefs) (hrel : d'.vmReleased = d.vmReleased) :
    VmBalance d' := by
  have hb := m.books h.toVmBooks (fun hc => ?_) (fun _ _ _ _ => hopen.2) fun v hv => ?_
  · refine h.file m hb hl (fun b => ?_) (fun v hv b => ?_) (.unmoved hrefs hrel) fun v => ?_
    · have hcount := hbs.count_eq b
      have hself := hmap x.vm b
      rw [List.count_append, List.count_append] at hcount
      rw [if_pos rfl, if_pos rfl] at hself
      omega
    · simpa [hv] using hmap v b
    · simp [hopen.1, hopen.2]
  · rw [hopen.2] at hc
    cases hc
  · rw [hrel] at hv
    exact h.releasedLt v hv

/-- `lima_vm_bo_add` has failed and left the references alone, or has added one. -/
theorem boAdd_cases {s s' : Sys} {env : BoAddEnv} {fuel : ℕ} {v : VmId} {b : BoId}
    {create : Bool} {r : Option Errno} (hl : s.Listed)
    (h : limaVmBoAdd env fuel s v b create = .ok (s', r)) :
    s'.Listed ∧ (r.isSome = true ∧ s.SameMaps s' ∧ s'.vmRefs = s.vmRefs ∨
      r = none ∧ s.Gains s' v [b]) := by
  have hre := limaVmBoAdd_recounts hl h
  cases r with
  | some e => exact ⟨hre.listed, .inl ⟨rfl, Sys.Recounts.sameMaps hre⟩⟩
  | none => exact ⟨hre.listed, .inr ⟨rfl, Sys.Recounts.gains hre⟩⟩

/-- A failed call that has left the references alone. -/
theorem setSys (h : VmBalance d) {s : Sys} (hs : d.sys.SameMaps s)
    (hrefs : s.vmRefs = d.sys.vmRefs) : VmBalance (d.setSys s) :=
  h.keeps ⟨rfl, rfl, rfl, fun _ => ⟨.inl rfl, rfl, rfl⟩⟩ hs rfl hrefs rfl

theorem handleOpen (h : VmBalance d) {f : FileId} {file : DrmFile} {n : ℕ} {b : BoId}
    {env : BoAddEnv} {fuel : ℕ} (hf : d.file f = some file) (hopen : file.isOpen = true)
    (hd : d.limaGemObjectOpen f file n b env fuel = .ok d') : VmBalance d' := by
  obtain ⟨⟨s, r⟩, hadd, hd⟩ := Outcome.bind_eq_ok hd
  obtain ⟨hl, ⟨hr, hs, hrefs⟩ | ⟨rfl, hg⟩⟩ := boAdd_cases h.listed hadd
  · obtain ⟨e, rfl⟩ := Option.isSome_iff_exists.mp hr
    obtain rfl := Outcome.ok.inj hd
    exact h.setSys hs hrefs
  · obtain rfl := Outcome.ok.inj hd
    have m : MovesFile f file { file with handles := (n, b) :: file.handles } d
        { (d.setSys s).gemGet b with
          file := Function.update d.file f
            (some { file with handles := (n, b) :: file.handles }) } :=
      ⟨hf, Function.update_self .., rfl, fun g hg => Function.update_of_ne hg .., rfl, rfl, rfl,
        rfl, hg.numVms⟩
    refine h.handle m ⟨hopen, hopen⟩ hl [b] [] ?_ (fun v c => ?_) hg.refs rfl
    · simp
    · rw [List.count_nil, ite_self, add_zero]
      exact hg.mapRefs v c

theorem handleClose (h : VmBalance d) {f : FileId} {file : DrmFile} {n : ℕ} {b : BoId}
    {fuel : ℕ} (hf : d.file f = some file) (hmem : (n, b) ∈ file.handles)
    (hd : d.limaGemObjectClose f file n b fuel = .ok d') : VmBalance d' := by
  obtain ⟨⟨s, touched⟩, hdel, hd⟩ := Outcome.bind_eq_ok hd
  obtain rfl := Outcome.ok.inj hd
  obtain ⟨hpos, hre⟩ := limaVmBoDel_recounts h.listed hdel
  have hg : s.Gains d.sys file.vm [b] := hre.loses hpos
  have hopen : file.isOpen = true := by
    by_contra hc
    rw [h.closed f file hf (by simpa using hc)] at hmem
    cases hmem
  have m : MovesFile f file { file with handles := file.handles.erase (n, b) } d
      { (d.setSys s).gemPut b with
        file := Function.update d.file f
          (some { file with handles := file.handles.erase (n, b) }) } :=
    ⟨hf, Function.update_self .., rfl, fun g hg => Function.update_of_ne hg .., rfl, rfl, rfl,
      rfl, hre.numVms⟩
  refine h.handle m ⟨hopen, hopen⟩ hre.listed [] [b] ?_ (fun v c => ?_)
    hg.refs.symm rfl
  · have hperm := (List.perm_cons_erase hmem).map Prod.snd
    simpa using hperm.trans (List.perm_append_singleton b _).symm
  · rw [List.count_nil, ite_self, add_zero]
    exact (hg.mapRefs v c).symm

/-! ## Submits -/

theorem submitBegin (h : VmBalance d) {f : FileId} {file : DrmFile}
    (hf : d.file f = some file) (hopen : file.isOpen = true) (p : PipeId) (frame : Frame)
    (handles : List ℕ) : VmBalance (d.submitBegin f p frame handles) := by
  obtain ⟨d', hd'⟩ : ∃ d', d' = d.submitBegin f p frame handles := ⟨_, rfl⟩
  rw [← hd']
  have hnt : d'.numTasks = d.numTasks + 1 := by rw [hd']; rfl
  have hfile : d'.file = d.file := by rw [hd']; rfl
  have hsys : d'.sys = d.sys := by rw [hd']; rfl
  have hcur : d'.currentVms = d.currentVms := by rw [hd']; rfl
  have hrel : d'.vmReleased = d.vmReleased := by rw [hd']; rfl
  have htask : ∀ t, t ≠ d.numTasks → d'.task t = d.task t := by
    intro t ht
    simp [hd', Dev.submitBegin, setSubmit, setFrame, zallocTask, modTask, ht]
  have hsub : ∀ t, t ≠ d.numTasks → d'.submit t = d.submit t := by
    intro t ht
    simp [hd', Dev.submitBegin, setFrame, zallocTask, modTask, ht]
  have hnew : d'.submit d.numTasks = some ⟨f, handles, [], false⟩ ∧
      (d'.task d.numTasks).state = .allocated := by
    simp [hd', Dev.submitBegin, setSubmit, setFrame, zallocTask, modTask, Task.zeroed]
  have hheld : ∀ t, t ≠ d.numTasks → d'.heldVm t = d.heldVm t := by
    intro t ht
    unfold heldVm
    rw [htask t ht]
  have hnone : d'.heldVm d.numTasks = none := by
    unfold heldVm
    rw [hnew.2]
    rfl
  have hent : ∀ v b t, t ≠ d.numTasks → d'.entries v b t = d.entries v b t := by
    intro v b t ht
    unfold entries fileVm
    rw [htask t ht, hsub t ht, hfile]
  have hzero : ∀ v b, d'.entries v b d.numTasks = 0 := by
    intro v b
    unfold entries
    rw [hnew.1]
    simp
  have hnamed : ∀ {v}, d'.Named v ↔ d.Named v := by
    intro v
    unfold Named fileVm
    rw [hfile]
  have hne : ∀ t ∈ Finset.range d.numTasks, t ≠ d.numTasks :=
    fun t ht => (Finset.mem_range.mp ht).ne
  have hb : VmBooks d' := by
    refine ⟨fun g y hg => ?_, fun g k y z hg hk => ?_, fun g y hg => ?_, fun t sm hsm => ?_,
      fun t v hv => ?_, fun q v hv => ?_, fun v hv => ?_⟩
    · rw [hfile] at hg
      rw [hsys]
      exact h.fileLt g y hg
    · rw [hfile] at hg hk
      exact h.fileInj g k y z hg hk
    · rw [hfile] at hg
      exact h.closed g y hg
    · rw [hfile]
      by_cases ht : t = d.numTasks
      · subst ht
        obtain rfl := Option.some.inj (hnew.1.symm.trans hsm)
        refine ⟨file, hf, hopen, fun hst => ?_⟩
        rw [hnew.2] at hst
        cases hst
      · rw [hsub t ht] at hsm
        rw [htask t ht]
        exact h.submit t sm hsm
    · by_cases ht : t = d.numTasks
      · subst ht
        rw [hnone] at hv
        cases hv
      · rw [hheld t ht] at hv
        exact hnamed.mpr (h.held t v hv)
    · rw [hcur] at hv
      exact hnamed.mpr (h.current q v hv)
    · rw [hrel] at hv
      rw [hsys]
      exact h.releasedLt v hv
  refine h.move hb (by rw [hsys]) (by rw [hsys]; exact h.listed)
    (.unmoved (by rw [hsys]) hrel) (fun g y hg => ⟨y, hfile ▸ hg, rfl, fun b => ?_, ?_⟩)
    fun v _ b => by rw [hsys]
  · unfold mapUsers
    rw [hsys, hnt, Finset.sum_range_succ, hzero, add_zero,
      Finset.sum_congr rfl fun t ht => hent y.vm b t (hne t ht)]
  · have hsame : holders (Finset.range (d.numTasks + 1)) d'.heldVm y.vm =
        holders (Finset.range d.numTasks) d.heldVm y.vm := by
      rw [holders_eq_sum, holders_eq_sum, Finset.sum_range_succ, hnone, one_none, add_zero]
      exact Finset.sum_congr rfl fun t ht => by rw [hheld t (hne t ht)]
    unfold vmUsers
    rw [hnt, hcur, hsame]

theorem entries_of_submit {t : TaskId} {sm : Submit} {file : DrmFile}
    (hsm : d.submit t = some sm) (hf : d.file sm.file = some file) (v : VmId) (b : BoId) :
    d.entries v b t = if v = file.vm then sm.lbos.count b else 0 := by
  unfold entries fileVm
  rw [hsm]
  simp only [hf, Option.map_some, Option.some.injEq, eq_comm]

theorem heldVm_of_not_inited (hw : d.TasksWf) {t : TaskId} {sm : Submit}
    (hsm : d.submit t = some sm) (hst : (d.task t).state ≠ .inited) : d.heldVm t = none := by
  unfold heldVm
  rcases hw.submit t sm hsm with ha | hi
  · rw [ha]
    rfl
  · exact absurd hi hst

/-- A step of a submit whose task is not initialised. -/
theorem moveSubmit (h : VmBalance d) (hw : d.TasksWf) {t : TaskId} {sm sm' : Submit}
    {file : DrmFile} (hsm : d.submit t = some sm) (hf : d.file sm.file = some file)
    (hst : (d.task t).state ≠ .inited) {s : Sys} {gemRef : BoId → ℕ} (hl : s.Listed)
    (hd' : d' = setSubmit { d with
      sys := s
      gemRef := gemRef } t (some sm'))
    (hfile : sm'.file = sm.file)
    (hmap : ∀ v b, s.mapRefs v b + (if v = file.vm then sm.lbos.count b else 0) =
      d.sys.mapRefs v b + if v = file.vm then sm'.lbos.count b else 0)
    (hrefs : s.vmRefs = d.sys.vmRefs) (hnum : s.numVms = d.sys.numVms) : VmBalance d' := by
  have htask : d'.task = d.task := by rw [hd']; rfl
  have hfiles : d'.file = d.file := by rw [hd']; rfl
  have hsm' : d'.submit t = some sm' := by simp [hd']
  have hrel : d'.vmReleased = d.vmReleased := by rw [hd']; rfl
  have hsys : d'.sys = s := by rw [hd']; rfl
  have m : MovesTask t d d' := by
    refine ⟨hfiles, by rw [hd']; rfl, fun _ _ => by rw [htask], fun u hu => by simp [hd', hu],
      by rw [hd']; rfl, by rw [hsys]; exact hnum⟩
  have hheld : d'.heldVm t = d.heldVm t := by
    unfold heldVm
    rw [htask]
  obtain ⟨file', hf', hopen, -⟩ := h.submit t sm hsm
  have hb : VmBooks d' := by
    refine m.books h.toVmBooks (fun x hx => ?_) (fun v hv => ?_) fun v hv => ?_
    · obtain rfl := Option.some.inj (hsm'.symm.trans hx)
      rw [hfile, htask]
      exact ⟨file', hf', hopen, fun hi => absurd hi hst⟩
    · rw [hheld] at hv
      exact h.held t v hv
    · rw [hrel] at hv
      exact h.releasedLt v hv
  refine h.task m (lt_of_submit hw hsm) hb (hsys ▸ hl) (fun v b => ?_)
    (.unmoved (by rw [hsys, hrefs]) hrel) fun v => by rw [hheld]
  have hafter : d'.file sm'.file = some file := by rw [hfiles, hfile, hf]
  rw [entries_of_submit hsm hf, entries_of_submit hsm' hafter, hsys]
  exact hmap v b

/-- The next handle of a submit: a reference to a mapping more, or the failure. -/
theorem submitAdd_refs (hl : d.sys.Listed) {f : FileId} {v : VmId} {n : ℕ}
    {r : Except Errno BoId} (hadd : d.submitAdd f v n = .ok (d', r)) :
    ∃ s gemRef, s.Listed ∧ d' = { d with
      sys := s
      gemRef := gemRef } ∧
      ((∃ e, r = .error e) ∧ d.sys.SameMaps s ∧ s.vmRefs = d.sys.vmRefs ∨
        ∃ b, r = .ok b ∧ d.sys.Gains s v [b]) := by
  unfold Dev.submitAdd at hadd
  cases hlook : d.gemLookup f n with
  | none =>
      rw [hlook] at hadd
      obtain ⟨rfl, rfl⟩ := Prod.mk.inj (Outcome.ok.inj hadd)
      exact ⟨d.sys, d.gemRef, hl, rfl, .inl ⟨⟨_, rfl⟩, .of_bo ⟨rfl, rfl⟩, rfl⟩⟩
  | some x =>
      obtain ⟨d₁, b⟩ := x
      rw [hlook] at hadd
      obtain ⟨⟨s, e⟩, hcall, hres⟩ := Outcome.bind_eq_ok hadd
      obtain rfl : d₁ = d.gemGet b := by
        unfold gemLookup at hlook
        obtain ⟨b', -, hb'⟩ := Option.map_eq_some_iff.mp hlook
        obtain ⟨rfl, rfl⟩ := Prod.mk.inj hb'
        rfl
      obtain ⟨hl', ⟨he, hs, hrefs⟩ | ⟨rfl, hg⟩⟩ := boAdd_cases hl hcall
      · obtain ⟨e, rfl⟩ := Option.isSome_iff_exists.mp he
        obtain ⟨rfl, rfl⟩ := Prod.mk.inj (Outcome.ok.inj hres)
        exact ⟨s, _, hl', rfl, .inl ⟨⟨e, rfl⟩, hs, hrefs⟩⟩
      · obtain ⟨rfl, rfl⟩ := Prod.mk.inj (Outcome.ok.inj hres)
        exact ⟨s, _, hl', rfl, .inr ⟨b, rfl, hg⟩⟩

theorem submitNext (h : VmBalance d) (hw : d.TasksWf) {t : TaskId} {sm : Submit} {file : DrmFile}
    {n : ℕ} {ns : List ℕ} (hsm : d.submit t = some sm) (hf : d.file sm.file = some file)
    (hns : sm.handles = n :: ns) (hd : d.submitNext t sm file.vm n ns = .ok d') :
    VmBalance d' := by
  have hst : (d.task t).state ≠ .inited := by
    intro hi
    obtain ⟨_, -, -, hinit⟩ := h.submit t sm hsm
    rw [(hinit hi).2.1] at hns
    cases hns
  obtain ⟨⟨d₁, r⟩, hadd, hd⟩ := Outcome.bind_eq_ok hd
  obtain ⟨s, gemRef, hl, rfl, ⟨⟨e, rfl⟩, hs, hrefs⟩ | ⟨b, rfl, hg⟩⟩ := submitAdd_refs h.listed hadd
  · obtain rfl := Outcome.ok.inj hd
    exact h.moveSubmit hw hsm hf hst hl rfl rfl (fun v c => by rw [hs.mapRefs]) hrefs hs.numVms
  · obtain rfl := Outcome.ok.inj hd
    refine h.moveSubmit hw hsm hf hst hl rfl rfl (fun v c => ?_) hg.refs hg.numVms
    rw [hg.mapRefs, List.count_append]
    split <;> omega

/-- A submit that fails before its task is initialised. -/
theorem failSubmit (h : VmBalance d) (hw : d.TasksWf) {t : TaskId} {sm : Submit}
    (hsm : d.submit t = some sm) (hst : (d.task t).state = .allocated) {gemRef : BoId → ℕ}
    (hd' : d' = setSubmit { d with gemRef := gemRef } t (some { sm with failed := true })) :
    VmBalance d' := by
  obtain ⟨file, hf, -⟩ := h.submit t sm hsm
  refine h.moveSubmit hw hsm hf ?_ h.listed hd' rfl (fun _ _ => rfl) rfl rfl
  rw [hst]
  decide

theorem submitUndoNext (h : VmBalance d) (hw : d.TasksWf) {t : TaskId} {sm : Submit}
    {file : DrmFile} {b : BoId} {bs : List BoId} {fuel : ℕ} (hsm : d.submit t = some sm)
    (hf : d.file sm.file = some file) (hfail : sm.failed = true) (hbs : sm.lbos = b :: bs)
    (hd : d.submitUndoNext t sm file.vm b bs fuel = .ok d') : VmBalance d' := by
  have hst : (d.task t).state ≠ .inited := by
    intro hi
    obtain ⟨_, -, -, hinit⟩ := h.submit t sm hsm
    rw [(hinit hi).1] at hfail
    cases hfail
  obtain ⟨d₁, hundo, hd⟩ := Outcome.bind_eq_ok hd
  obtain ⟨⟨s, touched⟩, hdel, hundo⟩ := Outcome.bind_eq_ok hundo
  obtain rfl := Outcome.ok.inj hundo
  obtain rfl := Outcome.ok.inj hd
  obtain ⟨hpos, hre⟩ := limaVmBoDel_recounts h.listed hdel
  have hg : s.Gains d.sys file.vm [b] := hre.loses hpos
  refine h.moveSubmit hw hsm hf hst hre.listed rfl rfl (fun v c => ?_) hg.refs.symm hre.numVms
  have hcount : sm.lbos.count c = [b].count c + bs.count c := by
    rw [hbs, ← List.singleton_append, List.count_append]
  rw [hg.mapRefs, hcount]
  split
  · exact (add_assoc ..).symm
  · rfl

theorem submitInit (h : VmBalance d) (hw : d.TasksWf) {t : TaskId} {sm : Submit} {file : DrmFile}
    {c : CtxId} {kmemdupOk : Bool} {jobInit : Option Errno} (hsm : d.submit t = some sm)
    (hf : d.file sm.file = some file) (hfail : sm.failed = false) (hns : sm.handles = [])
    (hst : (d.task t).state = .allocated)
    (hd : d.submitInit t sm file.vm c kmemdupOk jobInit = .ok d') : VmBalance d' := by
  obtain ⟨⟨d₁, r⟩, hinit, hd⟩ := Outcome.bind_eq_ok hd
  obtain ⟨hr, gemRef, rfl⟩ | ⟨rfl, gemRef, s, hget, rfl⟩ := limaSchedTaskInit_cases hinit
  · obtain ⟨e, rfl⟩ := Option.isSome_iff_exists.mp hr
    obtain rfl := Outcome.ok.inj hd
    exact h.failSubmit hw hsm hst rfl
  obtain rfl := Outcome.ok.inj hd
  have hsame := Sys.SameMaps.of_bo (limaVmGet_frame hget)
  obtain ⟨d', hd'⟩ : ∃ d', d' = { d with
      gemRef := gemRef
      sys := s
      task := Function.update d.task t ((d.task t).init c file.vm sm.lbos) } := ⟨_, rfl⟩
  rw [← hd']
  have htask : d'.task t = (d.task t).init c file.vm sm.lbos := by simp [hd']
  have hsub : d'.submit = d.submit := by rw [hd']
  have hfiles : d'.file = d.file := by rw [hd']
  have hsys : d'.sys = s := by rw [hd']
  have hheld : d'.heldVm t = some file.vm := by
    unfold heldVm
    rw [htask]
    rfl
  have hnone : d.heldVm t = none := heldVm_of_not_inited hw hsm (by rw [hst]; decide)
  have m : MovesTask t d d' := by
    refine ⟨hfiles, by rw [hd'], fun u hu => by simp [hd', hu], fun u _ => by rw [hsub],
      by rw [hd']; rfl, by rw [hsys]; exact hsame.numVms⟩
  have hb : VmBooks d' := by
    refine m.books h.toVmBooks (fun x hx => ?_) (fun v hv => ?_) fun v hv => ?_
    · obtain ⟨file', hf', hopen, -⟩ := h.submit t sm hsm
      obtain rfl := Option.some.inj (hf.symm.trans hf')
      rw [hsub] at hx
      obtain rfl := Option.some.inj (hsm.symm.trans hx)
      refine ⟨file, hf, hopen, fun _ => ⟨hfail, hns, ?_, ?_⟩⟩ <;> rw [htask] <;> rfl
    · rw [hheld] at hv
      obtain rfl := Option.some.inj hv
      exact ⟨_, congrArg (Option.map DrmFile.vm) hf⟩
    · have hrel : d'.vmReleased = d.vmReleased := by rw [hd']
      rw [hrel] at hv
      exact h.releasedLt v hv
  refine h.task m (lt_of_submit hw hsm) hb (hsys ▸ hsame.listed h.listed) (fun v b => ?_)
    (.get (hsys ▸ hget) (by rw [hd'])) fun v => by rw [hheld, hnone, one_none]; omega
  rw [entries_of_submit hsm hf, entries_of_submit (by rw [hsub, hsm]) (by rw [hfiles, hf]), hsys,
    hsame.mapRefs]

/-- A step that moves the task of a submit to a new state, and drops what it holds on an
address space if the state no longer does. -/
theorem setTask (h : VmBalance d) {t : TaskId} {x : Task} (sm : Option Submit)
    (ht : t < d.numTasks) (htask : d'.task = Function.update d.task t x)
    (hsub : d'.submit t = sm ∧ ∀ u, u ≠ t → d'.submit u = d.submit u)
    (hrest : d'.file = d.file ∧ d'.numTasks = d.numTasks ∧ d'.pipe = d.pipe)
    (hvm : x.vm = (d.task t).vm)
    (hsm : ∀ y, sm = some y → x.state ≠ .inited ∧ ∃ y₀, d.submit t = some y₀ ∧ y.file = y₀.file)
    (hs : d'.sys.Listed ∧ d'.sys.numVms = d.sys.numVms)
    (hmap : ∀ v b, d'.sys.mapRefs v b + d.entries v b t = d.sys.mapRefs v b + d'.entries v b t)
    (hput : (d.task t).state.holding = true ∧ x.state.holding = false ∧
        d.MovesVm d' (d.task t).vm none ∨
      x.state.holding = (d.task t).state.holding ∧ d'.sys.vmRefs = d.sys.vmRefs ∧
        d'.vmReleased = d.vmReleased) : VmBalance d' := by
  obtain ⟨hfile, hnt, hpipe⟩ := hrest
  have hself : d'.task t = x := by simp [htask]
  have m : MovesTask t d d' := by
    refine ⟨hfile, hnt, fun u hu => by simp [htask, hu], hsub.2, ?_, hs.2⟩
    unfold currentVms
    rw [hpipe]
  have hheld : d'.heldVm t = if x.state.holding then (d.task t).vm else none := by
    unfold heldVm
    rw [hself, hvm]
  obtain ⟨a, hmoves, ha, hbal⟩ : ∃ a, d.MovesVm d' a none ∧
      (∀ v, a = some v → v < d.sys.numVms) ∧
      ∀ v, one (d'.heldVm t) v + one a v = one (d.heldVm t) v := by
    rcases hput with ⟨hbefore, hafter, hmoves⟩ | ⟨hsame, hrefs, hrel⟩
    · have hold : d.heldVm t = (d.task t).vm := if_pos hbefore
      refine ⟨_, hmoves, fun v hv => h.heldLt (hold.trans hv), fun v => ?_⟩
      rw [hheld, hafter, hold, if_neg Bool.false_ne_true, one_none, zero_add]
    · refine ⟨none, .unmoved hrefs hrel, nofun, fun v => ?_⟩
      rw [hheld, hsame, one_none, add_zero]
      rfl
  have hb : VmBooks d' := by
    refine m.books h.toVmBooks (fun y hy => ?_) (fun v hv => ?_)
      (h.toVmBooks.released_of_drops hmoves ha)
    · obtain ⟨hst, y₀, hy₀, hyf⟩ := hsm y (hsub.1.symm.trans hy)
      obtain ⟨file, hf, hopen, -⟩ := h.submit t y₀ hy₀
      rw [hyf, hself]
      exact ⟨file, hf, hopen, fun hi => absurd hi hst⟩
    · have hone := hbal v
      rw [hv, one_self] at hone
      refine h.held t v ?_
      by_contra hne
      rw [one_of_ne hne] at hone
      omega
  exact h.task m ht hb hs.1 hmap hmoves hbal

theorem submitDepsFail (h : VmBalance d) (hw : d.TasksWf) {t : TaskId} {sm : Submit}
    (hsm : d.submit t = some sm) (hst : (d.task t).state = .inited)
    (hd : d.submitDepsFail t sm = .ok d') : VmBalance d' := by
  obtain ⟨file, hf, -⟩ := h.submit t sm hsm
  obtain ⟨d₁, hfini, hd⟩ := Outcome.bind_eq_ok hd
  obtain ⟨s, gemRef, hput, rfl⟩ := limaSchedTaskFini_cases hfini
  have hd' := (Outcome.ok.inj hd).symm
  have hsame := Sys.SameMaps.of_bo (limaVmPut_frame hput)
  have hsub : d'.submit t = some { sm with failed := true } := by simp [hd']
  have hsys : d'.sys = s := by rw [hd']; rfl
  have htask : d'.task = Function.update d.task t { d.task t with state := .allocated } := by
    rw [hd']
    rfl
  refine h.setTask _ (lt_of_submit hw hsm) htask
    ⟨hsub, fun u hu => by simp [hd', hu]⟩ (by rw [hd']; exact ⟨rfl, rfl, rfl⟩) rfl (fun y hy => ?_)
    (by rw [hsys]; exact ⟨hsame.listed h.listed, hsame.numVms⟩) (fun v b => ?_)
    (.inl ⟨by rw [hst]; rfl, rfl, .put hput (by rw [hsys]) (by rw [hd']; rfl)⟩)
  · obtain rfl := Option.some.inj hy
    exact ⟨nofun, sm, hsm, rfl⟩
  · have hfile : d'.file sm.file = some file := by rw [hd']; exact hf
    rw [entries_of_submit hsm hf, entries_of_submit hsub hfile, hsys, hsame.mapRefs]

theorem submitQueue (h : VmBalance d) (hw : d.TasksWf) {t : TaskId} {sm : Submit}
    (hsm : d.submit t = some sm) (hst : (d.task t).state = .inited) :
    VmBalance (d.submitQueue t sm) := by
  obtain ⟨file, hf, -, hinit⟩ := h.submit t sm hsm
  obtain ⟨-, -, hvm, hbos⟩ := hinit hst
  rw [Dev.submitQueue, gemPuts_eq]
  refine h.setTask none (lt_of_submit hw hsm) rfl
    ⟨by simp, fun u hu => by simp [hu, limaSchedContextQueueTask, modTask]⟩ ⟨rfl, rfl, rfl⟩ rfl
    (by simp) ⟨h.listed, rfl⟩ (fun v b => ?_) (.inr ⟨by rw [hst]; rfl, rfl, rfl⟩)
  -- what the submit has found is what its task holds
  rw [entries_of_submit hsm hf]
  simp [entries, limaSchedContextQueueTask, setSubmit, modTask, TaskState.pushed, hvm, hbos, eq_comm]

theorem submitEnd (h : VmBalance d) (hw : d.TasksWf) {t : TaskId} {sm : Submit}
    (hsm : d.submit t = some sm) (hfail : sm.failed = true) (hlbos : sm.lbos = [])
    (hd : d.submitEnd t = .ok d') : VmBalance d' := by
  obtain ⟨file, hf, -, hinit⟩ := h.submit t sm hsm
  have hst : (d.task t).state = .allocated := by
    refine (hw.submit t sm hsm).resolve_right fun hi => ?_
    rw [(hinit hi).1] at hfail
    cases hfail
  obtain ⟨d₁, hfree, hd⟩ := Outcome.bind_eq_ok hd
  obtain ⟨-, rfl⟩ := kmemCacheFree_cases hfree
  obtain rfl := Outcome.ok.inj hd
  refine h.setTask none (lt_of_submit hw hsm) rfl
    ⟨by simp, fun u hu => by simp [hu, modTask]⟩ ⟨rfl, rfl, rfl⟩ rfl nofun ⟨h.listed, rfl⟩
    (fun v b => ?_) (.inr ⟨by rw [hst]; rfl, rfl, rfl⟩)
  rw [entries_of_submit hsm hf, hlbos]
  simp [entries, setSubmit, modTask, TaskState.pushed]

/-! ## Jobs -/

/-- The loop of `lima_sched_free_job` drops the references of the job's task. -/
theorem delBos_frees {fuel : ℕ} {a : Option VmId} {bs : List BoId} (hl : d.sys.Listed)
    (h : delBos fuel a bs d = .ok d') :
    d'.sys.Listed ∧ d'.sys.numVms = d.sys.numVms ∧ d'.sys.vmRefs = d.sys.vmRefs ∧
      ∀ v b, d'.sys.mapRefs v b + (if a = some v then bs.count b else 0) = d.sys.mapRefs v b := by
  cases a with
  | some w =>
      obtain ⟨hl', hg⟩ := delBos_loses hl h
      refine ⟨hl', hg.numVms.symm, hg.refs.symm, fun v b => ?_⟩
      rw [hg.mapRefs v b]
      simp [eq_comm]
  | none =>
      cases bs with
      | nil =>
          obtain rfl := Outcome.ok.inj h
          exact ⟨hl, rfl, rfl, fun v b => by simp⟩
      | cons b bs => cases h

theorem freeJob (h : VmBalance d) (hw : d.TasksWf) {t : TaskId} {fuel : ℕ} (hf : d.CanFree t)
    (hd : limaSchedFreeJob fuel d t = .ok d') : VmBalance d' := by
  have hpushed : (d.task t).state.pushed = true := by
    rcases hf.1 with hst | hst <;> rw [hst] <;> rfl
  have hnosub : d.submit t = none := by
    refine Option.eq_none_iff_forall_ne_some.mpr fun sm hsm => ?_
    rcases hw.submit t sm hsm with hst | hst <;> rw [hst] at hpushed <;> cases hpushed
  have hlt : t < d.numTasks := by
    by_contra hlt
    rw [(hw.fresh t (not_lt.mp hlt)).1] at hpushed
    cases hpushed
  obtain ⟨-, s₁, s, gemRef, hdel, hput, rfl⟩ := limaSchedFreeJob_cases hd
  obtain ⟨fence, hfence⟩ := d.fencePut_fence (d.task t).fence
  rw [hfence] at hdel ⊢
  have hsame := Sys.SameMaps.of_bo (limaVmPut_frame hput)
  obtain ⟨hl₁, hnum₁, hrefs₁, hgone⟩ := delBos_frees (d := { d with fence := fence }) h.listed hdel
  have hmap₁ : ∀ v b, s₁.mapRefs v b + d.entries v b t = d.sys.mapRefs v b := by
    intro v b
    have hent : d.entries v b t = if (d.task t).vm = some v then (d.task t).bos.count b else 0 := by
      simp [entries, hnosub, hpushed]
    rw [hent]
    exact hgone v b
  change s₁.numVms = d.sys.numVms at hnum₁
  change s₁.vmRefs = d.sys.vmRefs at hrefs₁
  have hdrops := limaVmPut_drops d.vmReleased hput
  rw [hrefs₁] at hdrops
  refine h.setTask none hlt rfl ⟨hnosub, fun _ _ => rfl⟩ ⟨rfl, rfl, rfl⟩ rfl nofun
    ⟨hsame.listed hl₁, hsame.numVms.trans hnum₁⟩ (fun v b => ?_)
    (.inl ⟨by simp [TaskState.holding, hpushed], rfl, s.vmRefs, hdrops, rfl⟩)
  have hnow := hsame.mapRefs v b
  have hbefore := hmap₁ v b
  simp only [entries, hnosub, Function.update_self, TaskState.pushed] at hbefore ⊢
  simp only [Bool.false_eq_true, false_and, if_false, add_zero]
  rw [hnow]
  exact hbefore

theorem quiet (h : VmBalance d) (q : d.Quiet d') : VmBalance d' :=
  h.keeps ⟨q.file, q.submit, q.numTasks, fun t => (q.task t).keepsRefs⟩ q.sys.sameMaps
    (funext fun p => (q.pipe p).currentVm) (funext q.sys.refs) q.vmReleased

theorem keeps_fenceSignal (d : Dev) (fo : Option FenceId) : d.KeepsRefs (d.fenceSignal fo) := by
  obtain heq | ⟨f, task, -, -, heq, -⟩ := d.fenceSignal_cases fo
  · rw [heq]
    exact ⟨rfl, rfl, rfl, fun _ => ⟨.inl rfl, rfl, rfl⟩⟩
  · refine ⟨by rw [heq], by rw [heq], by rw [heq], fun t => ?_⟩
    rw [fenceSignal_task]
    exact ⟨.inl rfl, rfl, rfl⟩

theorem keeps_fenceSetError (d : Dev) (e : Errno) (fo : Option FenceId) :
    d.KeepsRefs (d.fenceSetError e fo) := by
  obtain ⟨fence, heq, -⟩ := d.fenceSetError_frame e fo
  rw [heq]
  exact ⟨rfl, rfl, rfl, fun _ => ⟨.inl rfl, rfl, rfl⟩⟩

/-- Changing one task that keeps what it holds. -/
theorem keeps_task {t : TaskId} {x : Task} (htask : d'.task = Function.update d.task t x)
    (hx : (d.task t).KeepsRefs x) (hfile : d'.file = d.file)
    (hsub : d'.submit = d.submit) (hnt : d'.numTasks = d.numTasks) : d.KeepsRefs d' := by
  refine ⟨hfile, hsub, hnt, fun u => ?_⟩
  rw [htask]
  by_cases hu : u = t
  · subst hu
    rwa [Function.update_self]
  · rw [Function.update_of_ne hu]
    exact ⟨.inl rfl, rfl, rfl⟩

theorem complete (h : VmBalance d) (t : TaskId) : VmBalance (d.complete t) := by
  have k₁ : d.KeepsRefs (d.modTask t fun task => { task with hwDone := true }) :=
    keeps_task rfl ⟨.inl rfl, rfl, rfl⟩ rfl rfl rfl
  have k₂ := k₁.trans (keeps_fenceSignal _ (d.task t).fence)
  refine h.keeps ⟨k₂.file, k₂.submit, k₂.numTasks, k₂.task⟩ (.of_bo ?_) ?_ ?_ ?_
  · simp [Dev.complete, addPm]
  · simp [currentVms, Dev.complete, addPm, funext_iff]
  · simp [Dev.complete, addPm]
  · simp [Dev.complete, addPm, modTask]

theorem killJob (h : VmBalance d) {t : TaskId} (ht : (d.task t).state = .queued) :
    VmBalance (d.killJob t) := by
  refine h.keeps ⟨rfl, rfl, rfl, fun u => ?_⟩ (.of_bo ⟨rfl, rfl⟩) rfl rfl rfl
  by_cases hu : u = t
  · subst hu
    have hkill : (d.killJob u).task u = { d.task u with
        state := .killed
        finished := true
        finishedError := some .esrch } := by simp [Dev.killJob, jobDone, modTask]
    rw [hkill]
    exact ⟨.inr ⟨by rw [ht]; rfl, rfl⟩, rfl, rfl⟩
  · have hsame : (d.killJob t).task u = d.task u := by
      simp [Dev.killJob, jobDone, modTask, hu]
    rw [hsame]
    exact ⟨.inl rfl, rfl, rfl⟩

/-- **Dispatch.** A started job takes a reference for its pipe, whose former address
space loses one. -/
theorem dispatched (h : VmBalance d) {t : TaskId} {env : RunEnv}
    (hst : (d.task t).state.pushed = true) (hd : GaveUp env t d d' ∨ Started env t d d') :
    VmBalance d' := by
  rcases hd with hg | hs
  · have k : d.KeepsRefs d' :=
      keeps_task hg.task ⟨.inr ⟨hst, rfl⟩, rfl, rfl⟩ (by rw [hg.rest]) (by rw [hg.rest]) (by rw [hg.rest])
    exact h.keeps k (.of_bo (by rw [hg.rest]; exact ⟨rfl, rfl⟩))
      (by rw [hg.rest]; rfl) (by rw [hg.rest]) (by rw [hg.rest])
  · obtain ⟨v, s, hv, hput, hget, hrel, hcontrol⟩ := hs.refs
    obtain ⟨x, hx, htask⟩ := hs.task
    have hholding : (d.task t).state.holding = true := by rw [TaskState.holding, hst]; rfl
    have hk : (d.task t).KeepsRefs x := ⟨.inr ⟨hst, by rw [hx.state]; rfl⟩, hx.vm, hx.bos⟩
    have k : d.KeepsRefs d' :=
      keeps_task htask hk (by rw [hs.rest]) (by rw [hs.rest]) (by rw [hs.rest])
    have hcur : d'.currentVms (d.task t).pipe = some v := hcontrol.currentVm
    have hsame := (Sys.SameMaps.of_bo (limaVmPut_frame hput)).trans
      (Sys.SameMaps.of_bo (limaVmGet_frame hget))
    refine h.pipe (p := (d.task t).pipe) k hsame (fun q hq => ?_) (fun w hw => ?_) ?_
    · unfold currentVms
      rw [hs.pipe q hq]
    · have hheld : d.heldVm t = some v := (if_pos hholding).trans hv
      obtain rfl : v = w := Option.some.inj (hcur.symm.trans hw)
      exact h.held t v hheld
    · rw [hcur]
      refine ⟨s.vmRefs, ?_, limaVmGet_takes hget⟩
      rw [hrel]
      exact limaVmPut_drops _ hput

theorem leaveTimeout (h : VmBalance d) (p : PipeId) (next : Option (TaskId × TimedoutPc)) :
    VmBalance (d.leaveTimeout p next) := by
  refine h.keeps ⟨rfl, rfl, rfl, fun _ => ⟨.inl rfl, rfl, rfl⟩⟩ (.of_bo ⟨rfl, rfl⟩) ?_ rfl rfl
  funext q
  unfold currentVms Dev.leaveTimeout
  rw [modPipe_pipe]
  split <;> rfl

/-- The job that a timeout runs again is still pushed. -/
theorem cancelled (h : VmBalance d) (cancel : Bool) {p : PipeId} {u : TaskId}
    (hu : d.Unfinished p u) :
    VmBalance (cancelled u cancel d) ∧ ((cancelled u cancel d).task u).state.pushed = true := by
  have k : d.KeepsRefs (Dev.cancelled u cancel d) := keeps_task rfl ⟨.inl rfl, rfl, rfl⟩ rfl rfl rfl
  have hpending := hu.1
  refine ⟨h.keeps k (.of_bo ⟨rfl, rfl⟩) rfl rfl rfl, ?_⟩
  simp [Dev.cancelled, hpending, TaskState.pushed]

theorem timedoutResubmit (h : VmBalance d) {p : PipeId} {t u : TaskId} {cancel : Bool}
    {env : RunEnv} (hu : d.Unfinished p u)
    (hd : d.timedoutResubmit p t u cancel env = .ok d') : VmBalance d' := by
  obtain ⟨d₁, hcases, rfl⟩ := timedoutResubmit_cases hd
  obtain ⟨h₁, hst⟩ := h.cancelled cancel hu
  exact (h₁.dispatched hst hcases).leaveTimeout p _

/-- A pipe that lets go of its address space. -/
theorem letGo (h : VmBalance d) {p : PipeId} {s : Sys}
    (hput : limaVmPut d.sys (d.pipe p).currentVm = .ok s) (k : d.KeepsRefs d')
    (hsys : d'.sys = s) (hrel : d'.vmReleased = addRelease s (d.pipe p).currentVm d.vmReleased)
    (hnone : (d'.pipe p).currentVm = none) (hpipe : ∀ q, q ≠ p → d'.pipe q = d.pipe q) :
    VmBalance d' := by
  have hp : d'.currentVms p = none := hnone
  refine h.pipe (p := p) k (hsys ▸ .of_bo (limaVmPut_frame hput)) (fun q hq => ?_) (fun v hv => ?_) ?_
  · unfold currentVms
    rw [hpipe q hq]
  · rw [hp] at hv
    cases hv
  · rw [hp]
    exact .put hput (by rw [hsys]) hrel

theorem timedoutClear (h : VmBalance d) {p : PipeId} {t : TaskId}
    (hd : d.timedoutClear p t = .ok d') : VmBalance d' := by
  obtain ⟨s, hput, rfl⟩ := timedoutClear_cases hd
  exact h.letGo hput ⟨rfl, rfl, rfl, fun _ => ⟨.inl rfl, rfl, rfl⟩⟩ rfl rfl (by simp)
    fun q hq => modPipe_pipe_ne _ hq _

theorem finiRelease (h : VmBalance d) {p : PipeId} {resetOk : Bool} {task : Option TaskId}
    (hd : d.finiRelease p resetOk task = .ok d') : VmBalance d' := by
  obtain ⟨-, -, rfl⟩ | ⟨s, x, hput, hx, -, d₁, hd₁, hd⟩ := finiRelease_cases hd
  · refine h.keeps ⟨rfl, rfl, rfl, fun _ => ⟨.inl rfl, rfl, rfl⟩⟩ (.of_bo ⟨rfl, rfl⟩) ?_ rfl rfl
    funext q
    unfold currentVms
    rw [modPipe_pipe]
    split <;> rfl
  have k₁ : d.KeepsRefs d₁ := by
    rw [hd₁]
    exact ⟨rfl, rfl, rfl, fun _ => ⟨.inl rfl, rfl, rfl⟩⟩
  have hnone : (d₁.pipe p).currentVm = none := by simp [hd₁, hx.currentVm]
  have hpipe : ∀ q, q ≠ p → d₁.pipe q = d.pipe q := fun q hq => by simp [hd₁, hq]
  have h₁ : VmBalance d₁ := h.letGo hput k₁ (by rw [hd₁]) (by rw [hd₁]) hnone hpipe
  obtain ⟨-, rfl⟩ | ⟨t, -, -, rfl⟩ := hd
  · exact h₁
  · have k := (keeps_fenceSetError d₁ .enodev (d.task t).fence).trans
      (keeps_fenceSignal _ (d.task t).fence)
    obtain ⟨fence, heq, -⟩ := d₁.fenceSetError_frame .enodev (d.task t).fence
    refine h₁.keeps k (.of_bo ?_) ?_ ?_ ?_ <;> simp [heq, currentVms, funext_iff]

/-! ## Runs -/

theorem user (h : VmBalance d) (hw : d.TasksWf) {cfg : DevConfig} {e : DevEvent}
    (hd : userStep cfg d e = some d') : VmBalance d' := by
  cases userStep_call hd with
  | fileOpen hf => exact h.fileOpen hf
  | fileClose hf hopen hempty hno hd => exact h.fileClose hw hf hopen hempty hno hd
  | handleOpen hf hopen _ hd => exact h.handleOpen hf hopen hd
  | handleClose hf hmem hd => exact h.handleClose hf hmem hd
  | @submitBegin _ _ p frame handles hf hopen => exact h.submitBegin hf hopen p frame handles
  | submitAdd hsm hf hns _ hd => exact h.submitNext hw hsm hf hns hd
  | submitLockFail hsm _ _ hst => exact h.failSubmit hw hsm hst rfl
  | submitInit hsm hf hfail hns hst hd => exact h.submitInit hw hsm hf hfail hns hst hd
  | submitDepsFail hsm _ hst hd => exact h.submitDepsFail hw hsm hst hd
  | submitQueue hsm _ hst => exact h.submitQueue hw hsm hst
  | submitUndo hsm hf hbs hfail hd => exact h.submitUndoNext hw hsm hf hfail hbs hd
  | submitEnd hsm hfail hlbos hd => exact h.submitEnd hw hsm hfail hlbos hd

theorem sched (h : VmBalance d) (hw : d.TasksWf) {e : DevEvent} (m : SchedMove e d d') :
    VmBalance d' := by
  cases m with
  | quiet q => exact h.quiet q
  | completes _ c =>
      rw [c.eq]
      exact (h.quiet c.quiet).complete _
  | runJob hr hd =>
      refine h.dispatched ?_ (dispatch_cases hd)
      rw [hr.1]
      rfl
  | killJob ht => exact h.killJob ht
  | freeJob hf hd => exact h.freeJob hw hf hd
  | clear _ hd => exact h.timedoutClear hd
  | resubmit _ hu hd => exact h.timedoutResubmit hu hd
  | release _ hd => exact h.finiRelease hd

/-- **Every step keeps the balance.** -/
theorem step (h : VmBalance d) (hw : d.TasksWf) {cfg : DevConfig} {e : DevEvent}
    (hd : devStep cfg d e = some d') : VmBalance d' := by
  rcases devStep_cases hd with hu | hs
  · exact h.user hw hu
  · exact h.sched hw (schedStep_move hs)

theorem of_reachable {cfg : DevConfig} (h : (devLts cfg).Reachable d) : VmBalance d := by
  refine h.invariant (fun d hd => ?_) fun d e d' hr hi hstep =>
    hi.step (SchedWf.of_reachable hr).tasks hstep
  obtain ⟨s, rfl, hva, -⟩ := hd
  exact boot hva

/-- Without a user an address space has no mapping: the handles are closed, and every
entry belongs to an open file or to a task that holds the address space. -/
theorem mapUsers_eq_zero (h : VmBalance d) {f : FileId} {file : DrmFile}
    (hf : d.file f = some file) (hno : d.vmUsers file = 0) (b : BoId) :
    d.mapUsers file b = 0 := by
  unfold vmUsers at hno
  have hclosed : file.isOpen = false := by
    cases hopen : file.isOpen with
    | false => rfl
    | true =>
        rw [hopen] at hno
        simp at hno
  have hnotask : ∀ t ∈ Finset.range d.numTasks, d.heldVm t ≠ some file.vm := by
    intro t ht hheld
    have hpos := holders_pos.mpr ⟨t, ht, hheld⟩
    omega
  unfold mapUsers
  rw [h.closed f file hf hclosed, Finset.sum_eq_zero fun t ht => ?_]
  · rfl
  unfold entries
  cases hsm : d.submit t with
  | some sm =>
      obtain ⟨y, hy, hopen, -⟩ := h.submit t sm hsm
      refine if_neg fun hv => ?_
      rw [fileVm, hy] at hv
      obtain rfl := h.fileInj _ f y file hy hf (Option.some.inj hv)
      obtain rfl := Option.some.inj (hy.symm.trans hf)
      rw [hopen] at hclosed
      cases hclosed
  | none =>
      refine if_neg ?_
      rintro ⟨hp, hv⟩
      refine hnotask t ht ?_
      rw [heldVm, TaskState.holding, hp]
      exact hv

end VmBalance

/-! ## Main result -/

end Lima
