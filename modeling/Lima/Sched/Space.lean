import Lima.Sched.JobMemory
import Lima.Vm.Spaces

/-!
# What the GPU reaches

The address spaces of a running device, over whole runs: files that open and close, handles,
submits, jobs, recoveries and timeouts interleave, and each step moves the address spaces by
calls that keep them isolated, then by a put and a get. A put that releases an address space
finds nothing mapped there, as its users are gone. So a unit that runs reaches the pages of
objects that its own file has handles to or jobs with, and no other.
-/

namespace Lima

open RefCount

namespace SysStep

variable {cfg : VmConfig} {ok : Sys → VmCall → Prop} {s s' : Sys}

/-- Heaps do not shrink in a step. -/
theorem heapSize_le (h : SysStep cfg ok s s') (b : BoId) :
    (s.bo b).heapSize ≤ (s'.bo b).heapSize := by
  obtain @⟨s₁, s₂, a, hcalls, hput, hget⟩ := h
  have hgrow : (s.bo b).heapSize ≤ (s₁.bo b).heapSize := by
    clear hput
    induction hcalls with
    | refl => exact le_rfl
    | tail _ hcall ih =>
        obtain ⟨c, -, hret⟩ := hcall
        exact ih.trans (hret.grown b).mono
  rw [← (limaVmPut_frame hput).1] at hgrow
  rcases hget with rfl | ⟨v, hget⟩
  · exact hgrow
  · rwa [(limaVmGet_frame hget).1]

end SysStep

/-! ## The calls of a step -/

/-- A call that makes no address space and asks nobody for a node or a table. -/
def VmCall.AsksNothing : VmCall → Prop
  | .boAdd env _ _ make => make = false ∧ env = ⟨false, none, fun _ => none⟩
  | .boDel _ _ => True
  | _ => False

theorem VmCall.AsksNothing.promise {c : VmCall} (h : c.AsksNothing) (s : Sys) : VmPromise s c := by
  have hnone : (∀ k, c.dmaAlloc k = none) → DmaPromise s c := by
    intro hdma
    have hoffer : ∀ i, c.offer i = none := by
      rintro (_ | k)
      · cases c with
        | create => exact h.elim
        | _ => rfl
      · simp [VmCall.offer, hdma]
    refine ⟨fun k pts hk => ?_, fun i j t u hi => ?_, fun key i t u _ hi => ?_⟩
    · rw [hdma] at hk
      cases hk
    · rw [hoffer] at hi
      cases hi
    · rw [hoffer] at hi
      cases hi
  cases c with
  | boAdd env v b make =>
      obtain ⟨-, rfl⟩ := h
      exact ⟨fun _ _ _ hins => (by cases hins), hnone fun _ => rfl⟩
  | boDel v b => exact ⟨trivial, hnone fun _ => rfl⟩
  | _ => exact h.elim

/-- What `drm_mm` promises a call. -/
def NodePromise (s : Sys) : VmCall → Prop
  | .boAdd env v b _ => ∀ vm start, s.vm v = some vm → env.mmInsert = some start →
      MmFresh vm ⟨start, (s.bo b).size⟩
  | _ => True

namespace Dev

variable {d d' : Dev} {cfg : DevConfig} {e : DevEvent}

/-- The call a step makes with an environment of its own. -/
def vmCall (d : Dev) : DevEvent → Option VmCall
  | .fileOpen _ kzallocOk pdAlloc dmaAlloc => some (.create false kzallocOk pdAlloc dmaAlloc)
  | .handleOpen f _ b env _ => (d.file f).map fun file => .boAdd env file.vm b true
  | .recoverEnd p env _ =>
      (d.pipe p).recoverRunning.bind fun r =>
        (d.task r.2).heap.map fun b => .heapAlloc env b (d.task r.2).vm
  | _ => none

/-- The calls of a step. -/
def Makes (d : Dev) (e : DevEvent) (s : Sys) (c : VmCall) : Prop :=
  c.AsksNothing ∨ s = d.sys ∧ d.vmCall e = some c

theorem delBos_calls {ok : Sys → VmCall → Prop} {vcfg : VmConfig} {fuel : ℕ} {v : Option VmId}
    (hok : ∀ s v b, ok s (.boDel v b)) : ∀ {bs : List BoId} {d d' : Dev},
      delBos fuel v bs d = .ok d' → SysCalls vcfg ok d.sys d'.sys
  | [], d, d', h => by
      obtain rfl := Outcome.ok.inj h
      exact .refl
  | b :: bs, d, d', h => by
      cases v with
      | none => cases h
      | some v =>
          obtain ⟨⟨s, touched⟩, hdel, hrest⟩ := Outcome.bind_eq_ok h
          exact .head ⟨.boDel v b, hok _ _ _, fuel, touched, hdel⟩ (delBos_calls hok hrest)

theorem submitAdd_step {f : FileId} {v : VmId} {n : ℕ} {r : Except Errno BoId}
    (h : d.submitAdd f v n = .ok (d', r)) : SysStep cfg.vm (d.Makes e) d.sys d'.sys := by
  unfold submitAdd at h
  cases hlook : d.gemLookup f n with
  | none =>
      rw [hlook] at h
      obtain ⟨rfl, -⟩ := Prod.mk.inj (Outcome.ok.inj h)
      exact .refl _
  | some x =>
      obtain ⟨d₁, b⟩ := x
      rw [hlook] at h
      obtain rfl : d₁ = d.gemGet b := by
        unfold gemLookup at hlook
        obtain ⟨b', -, hb'⟩ := Option.map_eq_some_iff.mp hlook
        obtain ⟨rfl, rfl⟩ := Prod.mk.inj hb'
        rfl
      obtain ⟨⟨s, r'⟩, hadd, hres⟩ := Outcome.bind_eq_ok h
      have hstep : SysStep cfg.vm (d.Makes e) d.sys s :=
        .call (c := .boAdd ⟨false, none, fun _ => none⟩ v b false) (.inl ⟨rfl, rfl⟩) ⟨0, r', hadd⟩
      cases r' <;> obtain ⟨rfl, -⟩ := Prod.mk.inj (Outcome.ok.inj hres) <;> exact hstep

theorem userStep_sysStep (hd : userStep cfg d e = some d') :
    SysStep cfg.vm (d.Makes e) d.sys d'.sys := by
  cases userStep_call hd with
  | @fileOpen f kz pd dma _ =>
      have hcreate : SysStep cfg.vm (d.Makes (.fileOpen f kz pd dma)) d.sys
          (limaVmCreate (cfg.vm.dev false) kz pd dma d.sys).1 :=
        .call (c := .create false kz pd dma) (.inr ⟨rfl, rfl⟩) rfl
      unfold limaDrmDriverOpen
      split <;> (rename_i hc; rw [hc] at hcreate; exact hcreate)
  | fileClose _ _ _ _ hd =>
      obtain ⟨d₁, hput, hd⟩ := Outcome.bind_eq_ok hd
      obtain ⟨s, hs, rfl⟩ := vmPut_cases hput
      obtain rfl := Outcome.ok.inj hd
      exact .put hs
  | @handleOpen f file n b env fuel _ hf _ _ hd =>
      obtain ⟨⟨s, r⟩, hadd, hd⟩ := Outcome.bind_eq_ok hd
      have hstep : SysStep cfg.vm (d.Makes (.handleOpen f n b env fuel)) d.sys s :=
        .call (c := .boAdd env file.vm b true) (.inr ⟨rfl, by rw [vmCall, hf]; rfl⟩)
          ⟨fuel, r, hadd⟩
      cases r <;> obtain rfl := Outcome.ok.inj hd <;> exact hstep
  | @handleClose f file n b fuel _ _ _ hd =>
      obtain ⟨⟨s, touched⟩, hdel, hd⟩ := Outcome.bind_eq_ok hd
      obtain rfl := Outcome.ok.inj hd
      exact .call (c := .boDel file.vm b) (.inl trivial) ⟨fuel, touched, hdel⟩
  | submitBegin _ _ _ _ => exact .refl _
  | @submitAdd t sm file n ns _ _ _ _ _ hd =>
      obtain ⟨⟨d₁, r⟩, hadd, hd⟩ := Outcome.bind_eq_ok hd
      have hstep : SysStep cfg.vm (d.Makes (.submitAdd t)) d.sys d₁.sys := submitAdd_step hadd
      cases r <;> obtain rfl := Outcome.ok.inj hd <;> exact hstep
  | submitLockFail _ _ _ _ => exact .refl _
  | submitInit _ _ _ _ _ hd =>
      obtain ⟨⟨d₁, r⟩, hinit, hd⟩ := Outcome.bind_eq_ok hd
      obtain ⟨hr, gemRef, rfl⟩ | ⟨rfl, gemRef, s, hget, rfl⟩ := limaSchedTaskInit_cases hinit
      · obtain ⟨err, rfl⟩ := Option.isSome_iff_exists.mp hr
        obtain rfl := Outcome.ok.inj hd
        exact .refl _
      · obtain rfl := Outcome.ok.inj hd
        exact .get hget
  | submitDepsFail _ _ _ hd =>
      obtain ⟨d₁, hfini, hd⟩ := Outcome.bind_eq_ok hd
      obtain ⟨s, gemRef, hput, rfl⟩ := limaSchedTaskFini_cases hfini
      obtain rfl := Outcome.ok.inj hd
      exact .put hput
  | submitQueue _ _ _ =>
      rw [Dev.submitQueue, gemPuts_eq]
      exact .refl _
  | @submitUndo t sm file b bs fuel _ _ _ _ _ hd =>
      obtain ⟨d₁, hundo, hd⟩ := Outcome.bind_eq_ok hd
      obtain ⟨⟨s, touched⟩, hdel, hundo⟩ := Outcome.bind_eq_ok hundo
      obtain rfl := Outcome.ok.inj hundo
      obtain rfl := Outcome.ok.inj hd
      exact .call (c := .boDel file.vm b) (.inl trivial) ⟨fuel, touched, hdel⟩
  | submitEnd _ _ _ hd =>
      obtain ⟨d₁, hfree, hd⟩ := Outcome.bind_eq_ok hd
      obtain ⟨-, rfl⟩ := kmemCacheFree_cases hfree
      obtain rfl := Outcome.ok.inj hd
      exact .refl _

/-- **Every step** moves the address spaces by the calls it makes, a put and a get. -/
theorem devStep_sysStep (hd : devStep cfg d e = some d') :
    SysStep cfg.vm (d.Makes e) d.sys d'.sys := by
  rcases devStep_cases hd with hu | hs
  · exact userStep_sysStep hu
  obtain ⟨t, fuel, rfl, -, hfree⟩ | hframe := schedStep_frame hs
  · obtain ⟨-, s₁, s, gemRef, hdel, hput, rfl⟩ := limaSchedFreeJob_cases hfree
    obtain ⟨fence, hfence⟩ := d.fencePut_fence (d.task t).fence
    rw [hfence] at hdel
    have hcalls : SysCalls cfg.vm (d.Makes (.freeJob t fuel)) d.sys s₁ :=
      delBos_calls (d := { d with fence := fence }) (fun _ _ _ => .inl trivial) hdel
    exact .mk hcalls hput (.inl rfl)
  · cases hframe.sys with
    | same h =>
        rw [h]
        exact .refl _
    | puts hput => exact .put hput
    | switches _ _ hput hget => exact .mk .refl hput (.inr ⟨_, hget⟩)
    | @grows p env fuel w t b r he hr hb hgrow =>
        subst he
        exact .call (c := .heapAlloc env b (d.task t).vm)
          (.inr ⟨rfl, by rw [vmCall, hr, Option.bind_some, hb]; rfl⟩) ⟨fuel, r, hgrow⟩

/-- **What a step may assume**: `drm_mm` returns fresh nodes inside its range, and
`dma_alloc_coherent` fresh aligned blocks. -/
def Promised (d : Dev) (e : DevEvent) : Prop :=
  ∀ c, d.vmCall e = some c → NodePromise d.sys c ∧ DmaPromise d.sys c

end Dev

/-! ## Runs -/

/-- Runs of a device whose address spaces at its probe, such as `empty_vm`, and whose objects,
the heaps among them grown in no address space, come from calls of their own. -/
def spaceLts (cfg : DevConfig) : Lts Dev DevEvent where
  init d := ∃ s : Sys, d = .boot s ∧ (vmLts cfg.vm Bo.Fresh VmPromise).Reachable s ∧
    ∀ b, (s.bo b).va = []
  step d e d' := devStep cfg d e = some d'

/-- The address spaces are in order, and a job has a heap only where there is one. -/
structure DevSpaces (cfg : DevConfig) (d : Dev) : Prop where
  sys : SpacesOk cfg.vm d.sys
  heap : ∀ t b, (d.task t).heap = some b → (d.sys.bo b).heapSize ≠ 0

namespace DevSpaces

open Dev

variable {d d' : Dev} {cfg : DevConfig} {e : DevEvent}

theorem reachable {ok : Dev → DevEvent → Prop} (h : (spaceLts cfg).Via ok d) :
    (devLts cfg).Reachable d := by
  induction h with
  | init hd =>
      obtain ⟨s, rfl, hs, hva⟩ := hd
      refine .init ⟨s, rfl, hva, fun v vm hvm => ?_⟩
      by_contra hlt
      rw [(SpacesOk.of_reachable hs).isolated.space.unused v (not_lt.mp hlt)] at hvm
      cases hvm
  | step _ _ hstep ih => exact ih.step hstep

/-- Nothing is mapped in an address space that is not there. -/
theorem unmapped_of_gone (h : (devLts cfg).Reachable d) {v : VmId} (hv : d.sys.vm v = none)
    (b : BoId) : d.sys.node v b = none := by
  by_contra hne
  have hb := VmBalance.of_reachable h
  have hpos : 0 < d.sys.mapRefs v b := by
    rw [hb.listed.mapRefs_pos]
    intro hfind
    exact hne (by rw [Sys.node, Bo.nodeIn, hfind]; rfl)
  obtain ⟨f, hf⟩ := VmBalance.named_of_mapped h v b hpos
  obtain ⟨file, hfile, rfl⟩ := Option.map_eq_some_iff.mp hf
  have husers : 0 < d.vmUsers file := by
    by_contra hno
    rw [hb.maps f file hfile b, hb.mapUsers_eq_zero hfile (by omega) b] at hpos
    exact Nat.lt_irrefl 0 hpos
  obtain ⟨n, -, hn⟩ := (hb.refs f file hfile).live husers
  rw [Sys.vmRefs, hv] at hn
  cases hn

/-- The calls of a step find what they may assume. -/
theorem promise (h : DevSpaces cfg d) (hp : d.Promised e) {s : Sys} {c : VmCall}
    (hm : d.Makes e s c) : VmPromise s c := by
  rcases hm with hasks | ⟨rfl, hcall⟩
  · exact hasks.promise s
  obtain ⟨hnode, hdma⟩ := hp c hcall
  refine ⟨?_, hdma⟩
  cases c with
  | boAdd => exact hnode
  | heapAlloc env b vm =>
      -- a job's heap has a size, so the object is one made as a heap
      have hheap : ∃ t, (d.task t).heap = some b := by
        cases e with
        | recoverEnd p env' fuel =>
            obtain ⟨⟨w, t⟩, -, hmap⟩ := Option.bind_eq_some_iff.mp hcall
            obtain ⟨b', hb', heq⟩ := Option.map_eq_some_iff.mp hmap
            obtain ⟨-, rfl, -⟩ := VmCall.heapAlloc.inj heq
            exact ⟨t, hb'⟩
        | fileOpen => cases hcall
        | handleOpen =>
            obtain ⟨file, -, heq⟩ := Option.map_eq_some_iff.mp hcall
            cases heq
        | _ => cases hcall
      obtain ⟨t, ht⟩ := hheap
      change (d.sys.bo b).isHeap = true
      by_contra hno
      exact h.heap t b ht ((h.sys.isolated.space.bo b).native (by simpa using hno))
  | _ => trivial

/-- A step sets the heap of a job to one it has found to have a size. -/
theorem step_heap (hd : devStep cfg d e = some d') {t : TaskId} {b : BoId}
    (hb : (d'.task t).heap = some b) :
    (d.task t).heap = some b ∨ (d.sys.bo b).heapSize ≠ 0 := by
  rcases devStep_cases hd with hu | hs
  · obtain ⟨u, x, htask, hx, -⟩ := user_task hu
    rw [htask] at hb
    by_cases htu : t = u
    · subst htu
      rw [Function.update_self] at hb
      rcases hx with hnone | hsame
      · rw [hnone] at hb
        cases hb
      · exact .inl (hsame ▸ hb)
    · rw [Function.update_of_ne htu] at hb
      exact .inl hb
  · obtain ⟨u, fuel, -, -, hfree⟩ | hframe := schedStep_frame hs
    · obtain ⟨-, s₁, s, gemRef, -, -, rfl⟩ := limaSchedFreeJob_cases hfree
      left
      by_cases htu : t = u
      · subst htu
        simpa using hb
      · simpa [htu] using hb
    · exact hframe.heap t b hb

/-- **Every step keeps the address spaces in order.** -/
theorem step (h : DevSpaces cfg d) (hp : d.Promised e) (hd : devStep cfg d e = some d')
    (hr : (devLts cfg).Reachable d') : DevSpaces cfg d' where
  sys := h.sys.step (fun _ _ _ hm => h.promise hp hm) (devStep_sysStep hd)
    fun _ hv => unmapped_of_gone hr hv
  heap t b hb := by
    have hle := (devStep_sysStep hd).heapSize_le b
    rcases step_heap hd hb with hold | hsize
    · have hpos := h.heap t b hold
      omega
    · omega

theorem of_via (h : (spaceLts cfg).Via Dev.Promised d) : DevSpaces cfg d := by
  refine h.invariant (I := DevSpaces cfg) (fun d hd => ?_) fun d e d' hr hi hp hd =>
    hi.step hp hd ((reachable hr).step hd)
  obtain ⟨s, rfl, hs, -⟩ := hd
  exact ⟨.of_reachable hs, fun t b hb => by cases hb⟩

end DevSpaces

/-! ## A job on a Mali-400 -/

/-- A page directory for the first file, and the one backing table its object needs. -/
def openOneFresh : List DevEvent :=
  [.fileOpen 0 true (some 0x48000000) fun _ => none,
    .handleOpen 0 1 0 ⟨true, some 0x10000, fun k => if k = 0 then some 0x50000000 else none⟩ 0]

/-- A step that asks nobody for a node or a table. -/
def frugalStep (cfg : DevConfig) (d : Dev) (e : DevEvent) : Option Dev :=
  if (d.vmCall e).isSome then none else devStep cfg d e

theorem frugalStep_step {cfg : DevConfig} (d : Dev) (e : DevEvent) (d' : Dev)
    (h : frugalStep cfg d e = some d') : d.Promised e ∧ (spaceLts cfg).step d e d' := by
  unfold frugalStep at h
  split at h
  · cases h
  · rename_i hno
    refine ⟨fun c hc => ?_, h⟩
    rw [hc] at hno
    exact absurd rfl hno

theorem onePageBo_fresh : onePageBo.Fresh :=
  ⟨by decide, rfl, fun _ h => ⟨rfl, 4096, le_rfl, (Option.some.inj h).symm⟩, rfl⟩

/-- The file is opened and its handle made as the allocators promise. -/
theorem openOneFresh_steps : ∃ d₁ d₂,
    Dev.Promised (.boot (.fresh onePageBo)) (.fileOpen 0 true (some 0x48000000) fun _ => none) ∧
    devStep mali400Dev (.boot (.fresh onePageBo)) (.fileOpen 0 true (some 0x48000000)
      fun _ => none) = some d₁ ∧
    d₁.sys.bo = (fun _ => onePageBo) ∧ d₁.Promised (.handleOpen 0 1 0
      ⟨true, some 0x10000, fun k => if k = 0 then some 0x50000000 else none⟩ 0) ∧
    devStep mali400Dev d₁ (.handleOpen 0 1 0
      ⟨true, some 0x10000, fun k => if k = 0 then some 0x50000000 else none⟩ 0) = some d₂ ∧
    Lts.exec (devStep mali400Dev) (.boot (.fresh onePageBo)) openOneFresh = some d₂ := by
  obtain ⟨d₁, hd₁⟩ : ∃ d₁, devStep mali400Dev (.boot (.fresh onePageBo))
      (.fileOpen 0 true (some 0x48000000) fun _ => none) = some d₁ := ⟨_, rfl⟩
  obtain ⟨d₂, hd₂⟩ : ∃ d₂, devStep mali400Dev d₁ (.handleOpen 0 1 0
      ⟨true, some 0x10000, fun k => if k = 0 then some 0x50000000 else none⟩ 0) = some d₂ := by
    obtain rfl := Option.some.inj hd₁
    exact ⟨_, rfl⟩
  have hbo : d₁.sys.bo = fun _ => onePageBo := by
    obtain rfl := Option.some.inj hd₁
    rfl
  refine ⟨d₁, d₂, fun c hc => ?_, hd₁, hbo, fun c hc => ?_, hd₂, ?_⟩
  · obtain rfl := Option.some.inj hc
    refine ⟨trivial, fun k pts hk => (by cases hk), ?_, fun key i t u ht => (by cases ht)⟩
    rintro (_ | i) (_ | j) t u ht hu hne
    · exact absurd rfl hne
    · cases hu
    · cases ht
    · cases ht
  · obtain rfl := Option.some.inj hd₁
    obtain rfl := Option.some.inj hc
    have hoffer : ∀ i u, VmCall.offer (.boAdd ⟨true, some 0x10000, fun k =>
        if k = 0 then some 0x50000000 else none⟩ 0 0 true) i = some u →
          i = some 0 ∧ u = ⟨0x50000000, 32768⟩ := by
      rintro (_ | k) u hu
      · cases hu
      · obtain ⟨pts, hpts, rfl⟩ := Option.map_eq_some_iff.mp hu
        simp only [VmCall.dmaAlloc] at hpts
        split at hpts
        · rename_i hk
          obtain rfl := Option.some.inj hpts
          exact ⟨by rw [hk], rfl⟩
        · cases hpts
    refine ⟨fun vm start hvm hstart => ?_, fun k pts hk => ?_, fun i j t u ht hu hne => ?_,
      fun key i t u ht hu => ?_⟩
    · obtain rfl := Option.some.inj hstart
      obtain rfl := Option.some.inj hvm
      exact ⟨⟨by decide, by decide, by decide, by decide, by decide⟩, fun t ht => by cases ht⟩
    · simp only [VmCall.dmaAlloc] at hk
      split at hk
      · obtain rfl := Option.some.inj hk
        decide
      · cases hk
    · exact absurd ((hoffer i t ht).1.trans (hoffer j u hu).1.symm) hne
    · obtain ⟨-, rfl⟩ := hoffer i u hu
      obtain ⟨_ | v, _ | k⟩ := key
      · obtain rfl := Option.some.inj ht
        decide
      · cases ht
      · cases ht
      · cases ht
  · rw [openOneFresh, Lts.exec, hd₁, Option.bind_some, Lts.exec, hd₂]
    rfl

theorem onePageDev_init : (spaceLts mali400Dev).init (.boot (.fresh onePageBo)) :=
  ⟨_, rfl, .init ⟨fun _ => rfl, rfl, fun _ => onePageBo_fresh⟩, fun _ => rfl⟩

theorem openOneFresh_via : ∃ d, (spaceLts mali400Dev).Via Dev.Promised d ∧
    Lts.exec (devStep mali400Dev) (.boot (.fresh onePageBo)) openOneFresh = some d := by
  obtain ⟨d₁, d₂, hfile, hd₁, -, hhandle, hd₂, hexec⟩ := openOneFresh_steps
  have hinit : (spaceLts mali400Dev).Via Dev.Promised (.boot (.fresh onePageBo)) :=
    .init onePageDev_init
  exact ⟨d₂, (hinit.step hfile hd₁).step hhandle hd₂, hexec⟩

/-- A job runs on the GP; its handle is closed meanwhile. -/
def jobUnderway : List DevEvent :=
  submitOne 0 .gp gpFrame ++ [.runJob 0 allOk, .handleClose 0 1 0 4]

theorem jobUnderway_via : ∃ d vm, (spaceLts mali400Dev).Via Dev.Promised d ∧
    (d.pipe .gp).running = 1 ∧ (d.pipe .gp).currentTask = some 0 ∧ (d.task 0).bos = [0] ∧
      (d.sys.bo 0).isHeap = false ∧ (d.sys.bo 0).sgt = some [0x40000000] ∧
        d.sys.vm 0 = some vm := by
  obtain ⟨d₂, hvia, hd₂⟩ := openOneFresh_via
  have hrun : ((Lts.exec (devStep mali400Dev) (.boot (.fresh onePageBo)) openOneFresh).bind
      fun d => (Lts.exec (frugalStep mali400Dev) d jobUnderway).map fun d =>
        ((d.pipe .gp).running, (d.pipe .gp).currentTask, (d.task 0).bos, (d.sys.bo 0).isHeap,
          (d.sys.bo 0).sgt, (d.sys.vm 0).isSome)) =
            some (1, some 0, [0], false, some [0x40000000], true) := rfl
  rw [hd₂, Option.bind_some] at hrun
  obtain ⟨d, hd, hobs⟩ := Option.map_eq_some_iff.mp hrun
  simp only [Prod.mk.injEq] at hobs
  obtain ⟨hone, hcur, hbos, hheap, hsgt, hvm⟩ := hobs
  obtain ⟨vm, hvm⟩ := Option.isSome_iff_exists.mp hvm
  exact ⟨d, vm, .exec frugalStep_step hvia hd, hone, hcur, hbos, hheap, hsgt, hvm⟩

/-! ## Main results -/

/-- **What a GPU reaches.** Whatever the interleaving of the device's steps, as long as
`drm_mm` and the allocator keep their promises: from the directory of an address space the MMU
finds nothing, the DLBU page, or a page of the one object whose node contains the address.
That object is referenced, and a handle, a submit or an unfreed job of the file with this
address space accounts for it. -/
theorem unit_reaches_own_objects (cfg : DevConfig) {d : Dev}
    (h : (spaceLts cfg).Via Dev.Promised d) {v : VmId} {vm : Vm} (hvm : d.sys.vm v = some vm)
    {va : ℕ} (hva : va < 2 ^ 32) :
    maliWalk d.sys vm.pd.dma va = .absent ∨ ∃ w, maliWalk d.sys vm.pd.dma va = .pte w ∧
      (w = 0 ∨ cfg.vm.Dlbu (va / 4096) w ∨
        ∃ b x, (x ∈ (d.sys.bo b).va ∧ x.vm = v ∧ x.node.Has va) ∧
          w = (d.sys.bo b).pageDma ((va - x.node.start) / 4096) ||| limaVmFlagsCache ∧
          (∀ c y, y ∈ (d.sys.bo c).va → y.vm = v → y.node.Has va → c = b) ∧ 0 < d.gemRef b ∧
            ∃ f file, d.file f = some file ∧ file.vm = v ∧ 0 < d.mapUsers file b) := by
  have hreach := DevSpaces.reachable h
  have hb := VmBalance.of_reachable hreach
  refine ((DevSpaces.of_via h).sys.walk hvm hva).imp_right ?_
  rintro ⟨w, hw, hcase⟩
  refine ⟨w, hw, hcase.imp_right (Or.imp_right ?_)⟩
  rintro ⟨b, x, ⟨hx, rfl, hhas⟩, hpage, hone⟩
  have hpos : 0 < d.sys.mapRefs x.vm b := by
    rw [hb.listed.mapRefs_pos, limaVmBoFind_of_mem (hb.listed b).nodup hx]
    exact Option.some_ne_none x
  obtain ⟨f, hf⟩ := VmBalance.named_of_mapped hreach x.vm b hpos
  obtain ⟨file, hfile, hfilevm⟩ := Option.map_eq_some_iff.mp hf
  rw [← hfilevm, hb.maps f file hfile b] at hpos
  obtain ⟨files, kept, hgem⟩ := GemBalance.of_reachable hreach
  exact ⟨b, x, ⟨hx, rfl, hhas⟩, hpage, hone,
    hgem.referenced (SchedWf.of_reachable hreach).tasks hfile hpos, f, file, hfile, hfilevm, hpos⟩

theorem unit_reaches_own_objects_underway : ∃ (d : Dev) (vm : Vm), d.sys.vm 0 = some vm ∧
    (maliWalk d.sys vm.pd.dma 0x10000 = .absent ∨
      ∃ w, maliWalk d.sys vm.pd.dma 0x10000 = .pte w) := by
  obtain ⟨d, vm, hvia, -, -, -, -, -, hvm⟩ := jobUnderway_via
  have hlow : 0x10000 < 2 ^ 32 := by decide
  refine ⟨d, vm, hvm, (unit_reaches_own_objects mali400Dev hvia hvm hlow).imp_right ?_⟩
  rintro ⟨w, hw, -⟩
  exact ⟨w, hw⟩

end Lima
