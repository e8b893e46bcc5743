import Lima.Device.DomainRuns

/-!
# Who answers for the blocks

The PMU is the first block that `lima_device_init` and `lima_device_resume` look at and the
last that is taken down, so that every other read finds the domains on if the PMU has
switched them on. It is no must-have: a probe goes on without it.
-/

namespace Lima

namespace PmuDev

variable {x y : PmuDev} {i : LimaIpId} {r : Option Errno}

/-! ## The PMU -/

theorem pmuPoll_eq_none {done : ℕ → Bool} :
    ∀ {n k : ℕ}, pmuPoll done n k = none ↔ ∃ j < n, done (k + j) = true
  | 0, k => by simp [pmuPoll]
  | n + 1, k => by
      rw [pmuPoll]
      by_cases hk : done k = true
      · simp only [hk, if_true, true_iff]
        exact ⟨0, n.succ_pos, hk⟩
      · rw [if_neg hk, pmuPoll_eq_none]
        constructor
        · rintro ⟨j, hj, hdone⟩
          refine ⟨j + 1, by omega, ?_⟩
          rwa [← Nat.add_assoc, Nat.add_right_comm]
        · rintro ⟨j, hj, hdone⟩
          cases j with
          | zero => exact absurd hdone hk
          | succ j =>
              refine ⟨j, by omega, ?_⟩
              rwa [← Nat.add_assoc, Nat.add_right_comm] at hdone

theorem limaPmuWaitCmd_eq_none {env : PmuEnv} :
    limaPmuWaitCmd env = none ↔ ∃ k < 100, env.done k = true := by
  simp only [limaPmuWaitCmd, pmuPoll_eq_none, Nat.zero_add]

/-- A PMU that works switches every domain on. -/
theorem limaPmuInit_works {env : PmuEnv} {usable : Prop}
    (h : PmuWorks x.pmu.status usable env) :
    x.limaPmuInit env = ({ x with pmu.status := 0#32 }, none) := by
  unfold limaPmuInit
  by_cases h0 : x.pmu.status = 0#32
  · rw [if_pos h0, ← h0]
  · have hdone := limaPmuWaitCmd_eq_none.mpr (h.resolve_left h0).2
    simp only [if_neg h0, limaPmuPowerUp, hdone, BitVec.and_not_self]
    rfl

/-! ## Reads with every domain on -/

theorem powered_zero (id : GpuId) (i : LimaIpId) : powered id 0#32 i = true := by
  unfold powered
  cases powerDomains id i <;> simp

theorem read_on (h : x.pmu.status = 0#32) (i : LimaIpId) : x.read i = some () := by
  rw [read, h, powered_zero, if_pos rfl]

/-- With every domain on, each block's `init` returns and leaves the domains as they are. -/
theorem init_on (h : x.pmu.status = 0#32) (env : IpEnv) (i : LimaIpId) :
    ∃ r, x.init env i = some (x, r) := by
  have hread := read_on h
  unfold init
  cases i.func with
  | pmu => exact ⟨none, congrArg some (if_pos h)⟩
  | l2Cache =>
      simp only [limaL2CacheInit, limaL2CacheFlush, hread]
      split <;> exact ⟨_, rfl⟩
  | gp | pp =>
      simp only [limaProcessorInit, limaHwInit, hread]
      cases env.resetOk <;> cases env.requestIrq <;> exact ⟨_, rfl⟩
  | mmu =>
      simp only [limaMmuInit, limaMmuHwInit, hread]
      split_ifs <;> cases env.mmu.irq <;> exact ⟨_, rfl⟩
  | dlbu | bcast => exact ⟨none, rfl⟩
  | ppBcast => exact ⟨_, rfl⟩

/-- So does each block's `resume`. -/
theorem resume_on (h : x.pmu.status = 0#32) (env : IpEnv) (i : LimaIpId) :
    ∃ r, x.resume env i = some (x, r) := by
  have hread := read_on h
  unfold resume
  cases i.func with
  | pmu => exact ⟨none, congrArg some (if_pos h)⟩
  | l2Cache =>
      simp only [limaL2CacheInit, limaL2CacheFlush, hread]
      split <;> exact ⟨_, rfl⟩
  | gp | pp =>
      simp only [limaHwInit, hread]
      cases env.resetOk <;> exact ⟨_, rfl⟩
  | mmu =>
      simp only [limaMmuResume, limaMmuHwInit, hread]
      split_ifs <;> exact ⟨_, rfl⟩
  | dlbu | bcast | ppBcast => exact ⟨none, rfl⟩

theorem limaInitIp_on (h : x.pmu.status = 0#32) (env : PmuInitEnv) (i : LimaIpId) :
    ∃ y r, x.limaInitIp env i = some (y, r) ∧ y.pmu = x.pmu := by
  unfold limaInitIp
  split
  · exact ⟨x, none, rfl, rfl⟩
  · cases (limaIpDesc i).irqName.bind env.init.irq with
    | some e => exact ⟨x, _, rfl, rfl⟩
    | none =>
        obtain ⟨r, hr⟩ := init_on h (env.ip i) i
        simp only [hr]
        cases r with
        | none => exact ⟨_, _, rfl, rfl⟩
        | some e => exact ⟨_, _, rfl, rfl⟩

theorem limaResumeIp_on (h : x.pmu.status = 0#32) (env : PmuResumeEnv) (i : LimaIpId) :
    ∃ y r, x.limaResumeIp env i = some (y, r) ∧ y.pmu = x.pmu := by
  unfold limaResumeIp
  split
  · obtain ⟨r, hr⟩ := resume_on h (env.ip i) i
    simp only [hr]
    cases r with
    | none => exact ⟨_, _, rfl, rfl⟩
    | some e => exact ⟨_, _, rfl, rfl⟩
  · exact ⟨x, none, rfl, rfl⟩

/-- A loop over blocks that return and leave a PMU as it is returns, and leaves it. -/
theorem forIps_on {f : PmuDev → LimaIpId → Option (PmuDev × Option Errno)}
    (hf : ∀ x i, x.pmu.status = 0#32 → ∃ y r, f x i = some (y, r) ∧ y.pmu = x.pmu) :
    ∀ (is done : List LimaIpId) (x : PmuDev), x.pmu.status = 0#32 →
      ∃ y done' r, forIps f is done x = some (y, done', r) ∧ y.pmu = x.pmu ∧ done ⊆ done' := by
  intro is
  induction is with
  | nil => exact fun done x _ => ⟨x, done, none, rfl, rfl, List.Subset.refl done⟩
  | cons i is ih =>
      intro done x h
      obtain ⟨y, r, hy, hpmu⟩ := hf x i h
      rw [forIps, hy]
      cases r with
      | some e => exact ⟨y, done, some e, rfl, hpmu, List.Subset.refl done⟩
      | none =>
          obtain ⟨z, done', r, hz, hpmu', hdone⟩ := ih (i :: done) y (hpmu ▸ h)
          exact ⟨z, done', r, hz, hpmu'.trans hpmu, fun j hj =>
            hdone (List.mem_cons_of_mem i hj)⟩

/-- The PMU is asked if it has an interrupt, and is no must-have: `lima_init_ip` never fails
for it. -/
theorem limaInitIp_pmu_cases (env : PmuInitEnv) :
    (∃ e, env.init.irq "pmu" = some e ∧ x.limaInitIp env .pmu = some (x, none)) ∨
    env.init.irq "pmu" = none ∧ ∃ y, x.limaInitIp env .pmu = some (y, none) ∧
      y.dev.id = x.dev.id ∧ y.pmu = (x.limaPmuInit (env.ip .pmu).pmu).1.pmu := by
  obtain ⟨off, hoff⟩ : ∃ off, (limaIpDesc .pmu).offset x.dev.id = some off := by
    cases x.dev.id <;> exact ⟨_, rfl⟩
  have hmust : (limaIpDesc .pmu).mustHave x.dev.id = false := by
    cases x.dev.id <;> rfl
  have hname : (limaIpDesc .pmu).irqName.bind env.init.irq = env.init.irq "pmu" := rfl
  have hinit : x.init (env.ip .pmu) .pmu = some (x.limaPmuInit (env.ip .pmu).pmu) := rfl
  unfold limaInitIp
  simp only [hoff, hname, hinit]
  cases hirq : env.init.irq "pmu" with
  | some e => exact .inl ⟨e, rfl, by simp [hmust]⟩
  | none =>
      -- an error of `init` is dropped, with the PMU left as absent
      have hdev := (limaPmuInit_switched (x := x) (env.ip .pmu).pmu).1
      refine .inr ⟨rfl, ?_⟩
      rcases hpmu : x.limaPmuInit (env.ip .pmu).pmu with ⟨y, _ | e⟩ <;> rw [hpmu] at hdev <;>
        have hid : y.dev.id = x.dev.id := congrArg PowerDev.id hdev
      · exact ⟨y.setIp .pmu ⟨true, true⟩, rfl, hid, rfl⟩
      · exact ⟨y, by simp [hmust], hid, rfl⟩

/-- The PMU is asked first, and after it every domain is on. -/
theorem limaInitIp_pmu {env : PmuInitEnv}
    (h : PmuWorks x.pmu.status (env.init.irq "pmu" = none) (env.ip .pmu).pmu) :
    ∃ y, x.limaInitIp env .pmu = some (y, none) ∧ y.pmu = { x.pmu with status := 0#32 } := by
  rcases limaInitIp_pmu_cases env with ⟨e, hirq, hcall⟩ | ⟨-, y, hcall, -, hpmu⟩
  · have h0 : x.pmu.status = 0#32 :=
      h.resolve_right fun hw => absurd (hirq.symm.trans hw.1) (Option.some_ne_none e)
    refine ⟨x, hcall, ?_⟩
    rw [← h0]
  · rw [limaPmuInit_works h] at hpmu
    exact ⟨y, hcall, hpmu⟩

theorem limaResumeIp_pmu {env : PmuResumeEnv}
    (h : PmuWorks x.pmu.status ((x.dev.ip .pmu).present = true) (env.ip .pmu).pmu) :
    ∃ y, x.limaResumeIp env .pmu = some (y, none) ∧ y.pmu = { x.pmu with status := 0#32 } := by
  have hresume : x.resume (env.ip .pmu) .pmu = some ({ x with pmu.status := 0#32 }, none) :=
    congrArg some (limaPmuInit_works h)
  unfold limaResumeIp
  split
  · simp only [hresume]
    exact ⟨_, rfl, rfl⟩
  · rename_i habsent
    have h0 : x.pmu.status = 0#32 := h.resolve_right fun hw => habsent hw.1
    refine ⟨x, rfl, ?_⟩
    rw [← h0]

/-- A loop over all blocks returns if every domain is on once the PMU has been asked. -/
theorem forIps_all_on {f : PmuDev → LimaIpId → Option (PmuDev × Option Errno)} {m : Pmu}
    (hf : ∀ x i, x.pmu.status = 0#32 → ∃ y r, f x i = some (y, r) ∧ y.pmu = x.pmu)
    (hm : m.status = 0#32) (hpmu : ∃ y, f x .pmu = some (y, none) ∧ y.pmu = m) :
    ∃ y done r, forIps f LimaIpId.all [] x = some (y, done, r) ∧ y.pmu = m ∧
      LimaIpId.pmu ∈ done := by
  obtain ⟨y, hy, rfl⟩ := hpmu
  rw [LimaIpId.all, forIps, hy]
  obtain ⟨z, done, r, hz, hpmu, hdone⟩ := forIps_on hf _ [.pmu] y hm
  exact ⟨z, done, r, hz, hpmu, hdone List.mem_cons_self⟩

end PmuDev

/-! ## Blocks that stay -/

namespace PowerDev

variable {d d' d'' : PowerDev}

/-- The same blocks, of the same GPU. -/
def SameIps (d d' : PowerDev) : Prop := d'.ip = d.ip ∧ d'.id = d.id

theorem SameIps.trans (h : d.SameIps d') (h' : d'.SameIps d'') : d.SameIps d'' :=
  ⟨h'.1.trans h.1, h'.2.trans h.2⟩

theorem SameIps.of_fst {y : PowerDev × Option Errno} {r : Option Errno} (h : d.SameIps y.1)
    (hy : y = (d', r)) : d.SameIps d' := by
  rwa [hy] at h

theorem limaClkEnable_sameIps (env : ClkEnv) : d.SameIps (d.limaClkEnable env).1 := by
  simp only [limaClkEnable]
  split_ifs
  · exact ⟨rfl, rfl⟩
  all_goals
    cases env.bus
    · cases env.forcePllGpu.or env.core <;> cases env.deassert <;> exact ⟨rfl, rfl⟩
    · exact ⟨rfl, rfl⟩

theorem limaClkInit_sameIps (env : InitEnv) : d.SameIps (d.limaClkInit env).1 := by
  unfold limaClkInit
  cases env.getBus.or env.getCore with
  | some e => exact ⟨rfl, rfl⟩
  | none =>
      cases env.getReset with
      | error e => exact ⟨rfl, rfl⟩
      | ok reset => exact limaClkEnable_sameIps (d := { d with reset := reset }) env.clk

theorem limaRegulatorEnable_sameIps (o : Option Errno) :
    d.SameIps (d.limaRegulatorEnable o).1 := by
  unfold limaRegulatorEnable
  split
  · exact ⟨rfl, rfl⟩
  · cases o <;> exact ⟨rfl, rfl⟩

theorem limaRegulatorInit_sameIps (env : InitEnv) : d.SameIps (d.limaRegulatorInit env).1 := by
  unfold limaRegulatorInit
  split
  · exact ⟨rfl, rfl⟩
  · exact ⟨rfl, rfl⟩
  · exact limaRegulatorEnable_sameIps (d := { d with regulator := true }) _

theorem limaRegulatorDisable_sameIps : d.SameIps d.limaRegulatorDisable.limaClkDisable := by
  unfold limaRegulatorDisable
  split <;> exact ⟨rfl, rfl⟩

theorem initErrOut4_sameIps : d.SameIps (d.initErrOut4 []) := by
  have hdlbu : d.SameIps (if d.dlbuCpu then { d with dlbuCpu := false } else d) := by
    split <;> exact ⟨rfl, rfl⟩
  refine hdlbu.trans (SameIps.trans ?_ limaRegulatorDisable_sameIps)
  exact ⟨rfl, rfl⟩

theorem limaInitGpPipe_sameIps (env : InitEnv) : d.SameIps (d.limaInitGpPipe env).1 := by
  unfold limaInitGpPipe
  cases env.gpSched.or env.gpPipe <;> exact ⟨rfl, rfl⟩

theorem limaInitPpPipe_sameIps (env : InitEnv) : d.SameIps (d.limaInitPpPipe env).1 := by
  unfold limaInitPpPipe
  cases env.ppSched.or env.ppPipe <;> exact ⟨rfl, rfl⟩

/-- Only blocks the GPU has are present. -/
def OnChip (d : PowerDev) : Prop :=
  ∀ i, (d.ip i).present = true → ((limaIpDesc i).offset d.id).isSome = true

theorem SameIps.onChip (h : d.SameIps d') (hd : d.OnChip) : d'.OnChip := by
  intro i hi
  rw [h.1] at hi
  rw [h.2]
  exact hd i hi

theorem limaInitIp_onChip {env : InitEnv} {i : LimaIpId} {r : Option Errno} (hd : d.OnChip)
    (h : d.limaInitIp env i = (d', r)) : d'.OnChip ∧ d'.id = d.id := by
  unfold limaInitIp at h
  split at h
  · obtain ⟨rfl, rfl⟩ := Prod.mk.inj h
    exact ⟨hd, rfl⟩
  · rename_i off hoff
    split at h
    · obtain ⟨rfl, rfl⟩ := Prod.mk.inj h
      refine ⟨fun j hj => ?_, rfl⟩
      by_cases hji : j = i
      · subst hji
        exact Option.isSome_iff_exists.mpr ⟨off, hoff⟩
      · exact hd j (by simpa [setIp, hji] using hj)
    · obtain ⟨rfl, rfl⟩ := Prod.mk.inj h
      exact ⟨hd, rfl⟩

/-- The flags that tell which blocks are present stay. -/
def SamePresent (d d' : PowerDev) : Prop :=
  d'.id = d.id ∧ ∀ i, (d'.ip i).present = (d.ip i).present

theorem SamePresent.trans (h : d.SamePresent d') (h' : d'.SamePresent d'') :
    d.SamePresent d'' :=
  ⟨h'.1.trans h.1, fun i => (h'.2 i).trans (h.2 i)⟩

theorem SameIps.samePresent (h : d.SameIps d') : d.SamePresent d' :=
  ⟨h.2, fun i => by rw [h.1]⟩

theorem SamePresent.onChip (h : d.SamePresent d') (hd : d.OnChip) : d'.OnChip := by
  intro i hi
  rw [h.1]
  exact hd i ((h.2 i).symm.trans hi)

/-- Taking a block up or down does not change what is present. -/
theorem setIp_samePresent {i : LimaIpId} {up : Bool} :
    d.SamePresent (d.setIp i { d.ip i with up := up }) := by
  refine ⟨rfl, fun j => ?_⟩
  by_cases hji : j = i
  · subst hji
    simp [setIp]
  · simp [setIp, hji]

theorem limaFiniIp_samePresent {i : LimaIpId} : d.SamePresent (d.limaFiniIp i) := by
  unfold limaFiniIp
  split
  · exact setIp_samePresent
  · exact ⟨rfl, fun _ => rfl⟩

theorem limaResumeIp_samePresent {env : ResumeEnv} {i : LimaIpId} {r : Option Errno}
    (h : d.limaResumeIp env i = (d', r)) : d.SamePresent d' := by
  unfold limaResumeIp at h
  split at h
  · split at h
    · obtain ⟨rfl, rfl⟩ := Prod.mk.inj h
      exact ⟨rfl, fun _ => rfl⟩
    · obtain ⟨rfl, rfl⟩ := Prod.mk.inj h
      exact setIp_samePresent
  · obtain ⟨rfl, rfl⟩ := Prod.mk.inj h
    exact ⟨rfl, fun _ => rfl⟩

end PowerDev

/-! ## Powering down -/

namespace PmuDev

variable {x y : PmuDev} {i : LimaIpId} {r : Option Errno}

theorem limaPmuGetIpMask_eq (h : x.dev.SamePresent y.dev) :
    y.limaPmuGetIpMask = x.limaPmuGetIpMask := by
  simp only [limaPmuGetIpMask, h.1, h.2]

/-- The mask is the one to be computed, if it has been. -/
def MaskOk (x : PmuDev) : Prop := x.pmu.mask = 0#32 ∨ x.pmu.mask = x.limaPmuGetIpMask

/-- The domains of the mask are off. -/
def Off (x : PmuDev) : Prop :=
  ∀ b, x.limaPmuGetIpMask.getLsbD b = true → x.pmu.status.getLsbD b = true

/-- `y` is `x` with blocks taken up or down, and no more domains on. -/
structure Downed (x y : PmuDev) : Prop where
  present : x.dev.SamePresent y.dev
  mask : x.MaskOk → y.MaskOk
  off : x.Off → y.Off

theorem Downed.trans {z : PmuDev} (h : x.Downed y) (h' : y.Downed z) : x.Downed z :=
  ⟨h.present.trans h'.present, h'.mask ∘ h.mask, h'.off ∘ h.off⟩

theorem Downed.of_dev (hpmu : y.pmu = x.pmu) (h : x.dev.SamePresent y.dev) : x.Downed y := by
  have heq := limaPmuGetIpMask_eq h
  refine ⟨h, fun hm => ?_, fun hoff => ?_⟩
  · unfold MaskOk
    rwa [hpmu, heq]
  · unfold Off
    rwa [hpmu, heq]

/-- `lima_pmu_fini` uses the right mask and switches off every domain of it. -/
theorem limaPmuFini_off (h : x.MaskOk) :
    x.limaPmuFini.Off ∧ x.limaPmuFini.pmu.mask = x.limaPmuGetIpMask := by
  have hmask : (if x.pmu.mask = 0#32 then x.limaPmuGetIpMask else x.pmu.mask) =
      x.limaPmuGetIpMask := by
    split
    · rfl
    · exact h.resolve_left ‹_›
  refine ⟨fun b hb => ?_, hmask⟩
  have hb' : x.limaPmuGetIpMask.getLsbD b = true := hb
  have hlt : b < 32 := BitVec.lt_of_getLsbD hb'
  simp only [limaPmuFini, hmask, BitVec.getLsbD_or, BitVec.getLsbD_and, BitVec.getLsbD_not,
    hb', hlt]
  cases x.pmu.status.getLsbD b <;> rfl

theorem limaFiniIp_pmu (h : (x.dev.ip .pmu).present = true) :
    (x.limaFiniIp .pmu).pmu = x.limaPmuFini.pmu := by
  unfold limaFiniIp
  rw [if_pos h]
  rfl

theorem limaFiniIp_other (h : i ≠ .pmu ∨ (x.dev.ip i).present = false) :
    (x.limaFiniIp i).pmu = x.pmu := by
  unfold limaFiniIp
  split
  · have hi : i ≠ .pmu := h.resolve_right (by simp [*])
    cases i <;> first | exact absurd rfl hi | rfl
  · rfl

theorem limaFiniIp_downed (hm : x.MaskOk) :
    x.Downed (x.limaFiniIp i) ∧
      (i = .pmu → (x.dev.ip .pmu).present = true → (x.limaFiniIp i).Off) := by
  have hpresent : x.dev.SamePresent (x.limaFiniIp i).dev :=
    limaFiniIp_dev ▸ PowerDev.limaFiniIp_samePresent
  have heq := limaPmuGetIpMask_eq hpresent
  -- no other block's `fini` touches the PMU
  by_cases hi : i = .pmu ∧ (x.dev.ip .pmu).present = true
  · obtain ⟨rfl, hp⟩ := hi
    obtain ⟨hoff, hmask⟩ := limaPmuFini_off hm
    have hpmu := limaFiniIp_pmu hp
    have hoff' : (x.limaFiniIp .pmu).Off := by
      intro b hb
      rw [hpmu]
      rw [heq] at hb
      exact hoff b hb
    refine ⟨⟨hpresent, fun _ => .inr ?_, fun _ => hoff'⟩, fun _ _ => hoff'⟩
    rw [hpmu, heq, hmask]
  · refine ⟨Downed.of_dev (limaFiniIp_other ?_) hpresent, fun h hp => absurd ⟨h, hp⟩ hi⟩
    by_cases hne : i = .pmu
    · subst hne
      exact .inr (by simpa using hi)
    · exact .inl hne

/-- Once the PMU has had its turn, the domains of the mask are off. -/
theorem foldl_limaFiniIp_downed : ∀ (is : List LimaIpId) (x : PmuDev), x.MaskOk →
    x.Downed (is.foldl limaFiniIp x) ∧
      (LimaIpId.pmu ∈ is → (x.dev.ip .pmu).present = true → (is.foldl limaFiniIp x).Off)
  | [], x, _ => ⟨Downed.of_dev rfl ⟨rfl, fun _ => rfl⟩, fun h => absurd h List.not_mem_nil⟩
  | i :: is, x, hm => by
      obtain ⟨hdown, hoff⟩ := limaFiniIp_downed (i := i) hm
      obtain ⟨hrest, hoffRest⟩ := foldl_limaFiniIp_downed is (x.limaFiniIp i) (hdown.mask hm)
      refine ⟨hdown.trans hrest, fun hmem hp => ?_⟩
      rcases List.mem_cons.mp hmem with rfl | hmem
      · exact hrest.off (hoff rfl hp)
      · exact hoffRest hmem ((hdown.present.2 .pmu).trans hp)

/-! ## What each call leaves -/

/-- What the PMU of a device holds in each phase: the blocks of an active device are all
powered; else what the mask names is off, where there is a PMU. -/
structure PmuFits (x : PmuDev) (phase : PowerPhase) : Prop where
  mask : x.MaskOk
  chip : x.dev.OnChip
  on : phase = .active → x.pmu.status = 0#32
  off : phase ≠ .active → (x.dev.ip .pmu).present = true → x.Off

theorem Downed.fits {phase : PowerPhase} (h : x.Downed y) (hm : x.MaskOk) (hc : x.dev.OnChip)
    (hphase : phase ≠ .active) (hoff : (x.dev.ip .pmu).present = true → y.Off) :
    y.PmuFits phase :=
  ⟨h.mask hm, h.present.onChip hc, fun ha => absurd ha hphase,
    fun _ hp => hoff ((h.present.2 .pmu).symm.trans hp)⟩

/-- A device without blocks, from which nothing has been brought up. -/
theorem bare_fits {d : PowerDev} {phase : PowerPhase} (hmask : x.pmu.mask = 0#32)
    (hbare : ∀ i, (x.dev.ip i).present = false) (hphase : phase ≠ .active)
    (hd : x.dev.SameIps d) : ({ x with dev := d } : PmuDev).PmuFits phase := by
  have hnone : ∀ i, (d.ip i).present = false := fun i => by rw [hd.1]; exact hbare i
  refine ⟨.inl hmask, fun i hi => ?_, fun ha => absurd ha hphase, fun _ hp => ?_⟩
  · rw [hnone i] at hi
    cases hi
  · rw [hnone .pmu] at hp
    cases hp

theorem initErrOut4_downed (hm : x.MaskOk) (done : List LimaIpId) :
    x.Downed (x.initErrOut4 done) ∧
      (LimaIpId.pmu ∈ done → (x.dev.ip .pmu).present = true → (x.initErrOut4 done).Off) := by
  obtain ⟨hdown, hoff⟩ := foldl_limaFiniIp_downed done x hm
  have hrest : (done.foldl limaFiniIp x).Downed (x.initErrOut4 done) :=
    Downed.of_dev rfl PowerDev.initErrOut4_sameIps.samePresent
  exact ⟨hdown.trans hrest, fun hmem hp => hrest.off (hoff hmem hp)⟩

theorem initErrOut4_fits {done : List LimaIpId} (hm : x.MaskOk) (hc : x.dev.OnChip)
    (hdone : LimaIpId.pmu ∈ done) : (x.initErrOut4 done).PmuFits .absent := by
  obtain ⟨hdown, hoff⟩ := initErrOut4_downed hm done
  exact hdown.fits hm hc (by decide) (hoff hdone)

theorem disabled_downed (x : PmuDev) :
    x.Downed { x with dev := x.dev.limaRegulatorDisable.limaClkDisable } :=
  Downed.of_dev rfl PowerDev.limaRegulatorDisable_sameIps.samePresent

/-- With a PMU that works the blocks of a probe all answer. -/
theorem limaDeviceInitIps_fits {env : PmuInitEnv} (hmask : x.pmu.mask = 0#32)
    (hbare : ∀ i, (x.dev.ip i).present = false)
    (h : PmuWorks env.status (env.init.irq "pmu" = none) (env.ip .pmu).pmu) :
    ∃ y r, x.limaDeviceInitIps env = some (y, r) ∧
      y.PmuFits (PowerPhase.after .absent .active r) := by
  unfold limaDeviceInitIps
  cases env.init.ioremap with
  | some e =>
      have hphase : PowerPhase.absent ≠ .active := by decide
      exact ⟨_, some e, rfl, bare_fits hmask hbare hphase PowerDev.initErrOut4_sameIps⟩
  | none =>
      have hpmu : ∃ y, PmuDev.limaInitIp { x with pmu.status := env.status } env .pmu =
          some (y, none) ∧ y.pmu = { x.pmu with status := 0#32 } := limaInitIp_pmu h
      obtain ⟨z, done, r₁, hloop, hz, hdone⟩ :=
        forIps_all_on (fun x i h0 => limaInitIp_on h0 env i) rfl hpmu
      obtain ⟨o, ho⟩ := forIps_power (g := fun o d i => d.limaInitIp (env.init.withInit o) i)
        (fun x i y r hcall => (limaInitIp_power hcall).2) _ _ _ _ _ _ (by decide) hloop
      have hstart : x.dev.OnChip := by
        intro i hi
        rw [hbare i] at hi
        cases hi
      obtain ⟨hchip, -⟩ := PowerDev.forIps_rule (I := fun _ d => d.OnChip)
        (fun i done d d' r hd hcall => (PowerDev.limaInitIp_onChip hd hcall).1) _ _ _ _ _ _
        hstart (ho o fun _ _ => rfl)
      have hm : ∀ {d : PowerDev}, ({ z with dev := d } : PmuDev).MaskOk := by
        intro d
        refine .inl ?_
        rw [hz]
        exact hmask
      simp only [hloop, bind, Option.bind, pure]
      cases r₁ with
      | some e => exact ⟨_, some e, rfl, initErrOut4_fits hm hchip hdone⟩
      | none =>
          -- the pipes come last: a failure takes down every block, the PMU among them
          simp only
          have hgpIps := PowerDev.limaInitGpPipe_sameIps (d := z.dev) env.init
          rcases hgp : z.dev.limaInitGpPipe env.init with ⟨d, _ | e⟩
          · rw [hgp] at hgpIps
            have hppIps := PowerDev.limaInitPpPipe_sameIps (d := d) env.init
            simp only
            rcases hpp : d.limaInitPpPipe env.init with ⟨d', _ | e⟩
            · rw [hpp] at hppIps
              exact ⟨_, none, rfl, hm, (hgpIps.trans hppIps).onChip hchip,
                fun _ => congrArg Pmu.status hz, fun hne => absurd rfl hne⟩
            · rw [hpp] at hppIps
              have hfini : z.dev.SameIps d'.limaFiniGpPipe :=
                (hgpIps.trans hppIps).trans ⟨rfl, rfl⟩
              exact ⟨_, some e, rfl, initErrOut4_fits hm (hfini.onChip hchip) hdone⟩
          · rw [hgp] at hgpIps
            exact ⟨_, some e, rfl, initErrOut4_fits hm (hgpIps.onChip hchip) hdone⟩

theorem limaDeviceInit_fits {env : PmuInitEnv} (hmask : x.pmu.mask = 0#32)
    (hbare : ∀ i, (x.dev.ip i).present = false)
    (h : PmuWorks env.status (env.init.irq "pmu" = none) (env.ip .pmu).pmu) :
    ∃ y r, x.limaDeviceInit env = some (y, r) ∧
      y.PmuFits (PowerPhase.after .absent .active r) := by
  have hphase : PowerPhase.absent ≠ .active := by decide
  have hback : ∀ {d : PowerDev} {e : Errno}, x.dev.SameIps d →
      ∃ y r, some (({ x with dev := d } : PmuDev), some e) = some (y, r) ∧
        y.PmuFits (PowerPhase.after .absent .active r) := fun {d e} hd =>
    ⟨_, some e, rfl, bare_fits hmask hbare hphase hd⟩
  simp only [limaDeviceInit]
  rcases hclk : x.dev.limaClkInit env.init with ⟨d, r⟩
  have hd := (PowerDev.limaClkInit_sameIps env.init).of_fst hclk
  cases r with
  | some e => exact hback hd
  | none =>
      simp only
      rcases hreg : d.limaRegulatorInit env.init with ⟨d', r⟩
      have hd' := hd.trans ((PowerDev.limaRegulatorInit_sameIps env.init).of_fst hreg)
      have hbare' : ∀ i, (d'.ip i).present = false := fun i => by rw [hd'.1]; exact hbare i
      cases r with
      | some e => exact hback (hd'.trans ⟨rfl, rfl⟩)
      | none =>
          simp only
          -- the empty VM, then the DLBU page, which only a Mali-450 has
          split
          · exact hback (hd'.trans PowerDev.limaRegulatorDisable_sameIps)
          split
          · split
            · have hvm : x.dev.SameIps { d' with emptyVm := false } := hd'.trans ⟨rfl, rfl⟩
              exact hback (hvm.trans PowerDev.limaRegulatorDisable_sameIps)
            · exact limaDeviceInitIps_fits hmask hbare' h
          · exact limaDeviceInitIps_fits hmask hbare' h

theorem limaDeviceResume_fits {env : PmuResumeEnv} (hx : x.PmuFits .suspended)
    (h : PmuWorks env.status ((x.dev.ip .pmu).present = true) (env.ip .pmu).pmu) :
    ∃ y r, x.limaDeviceResume env = some (y, r) ∧
      y.PmuFits (PowerPhase.after .suspended .active r) := by
  have hphase : PowerPhase.suspended ≠ .active := by decide
  have hback : ∀ {d : PowerDev} {e : Errno}, x.dev.SameIps d →
      ∃ y r, some (({ x with dev := d } : PmuDev), some e) = some (y, r) ∧
        y.PmuFits (PowerPhase.after .suspended .active r) := fun {d e} hd => by
    have hdown : x.Downed { x with dev := d } := Downed.of_dev rfl hd.samePresent
    exact ⟨_, some e, rfl, hdown.fits hx.mask hx.chip hphase fun hp =>
      hdown.off (hx.off hphase hp)⟩
  simp only [limaDeviceResume]
  rcases hclk : x.dev.limaClkEnable env.resume.clk with ⟨d, r⟩
  have hd := (PowerDev.limaClkEnable_sameIps env.resume.clk).of_fst hclk
  cases r with
  | some e => exact hback hd
  | none =>
      simp only
      rcases hreg : d.limaRegulatorEnable env.resume.regulatorEnable with ⟨d', r⟩
      have hd' := hd.trans ((PowerDev.limaRegulatorEnable_sameIps _).of_fst hreg)
      cases r with
      | some e => exact hback (hd'.trans ⟨rfl, rfl⟩)
      | none =>
          simp only
          rw [← hd'.1] at h
          have hpmu : ∃ y, PmuDev.limaResumeIp ⟨d', { x.pmu with status := env.status }⟩ env
              .pmu = some (y, none) ∧ y.pmu = { x.pmu with status := 0#32 } :=
            limaResumeIp_pmu h
          obtain ⟨z, done, r₁, hloop, hz, hdone⟩ :=
            forIps_all_on (fun x i h0 => limaResumeIp_on h0 env i) rfl hpmu
          obtain ⟨o, ho⟩ := forIps_power
            (g := fun o d i => d.limaResumeIp (env.resume.withResume o) i)
            (fun x i y r hcall => (limaResumeIp_power hcall).2) _ _ _ _ _ _ (by decide) hloop
          obtain ⟨hpresent, -⟩ := PowerDev.forIps_rule (I := fun _ d => x.dev.SamePresent d)
            (fun i done d d' r hd hcall => hd.trans (PowerDev.limaResumeIp_samePresent hcall))
            _ _ _ _ _ _ hd'.samePresent (ho o fun _ _ => rfl)
          have hchip : z.dev.OnChip := hpresent.onChip hx.chip
          have hm : z.MaskOk := by
            have heq := limaPmuGetIpMask_eq hpresent
            unfold MaskOk
            rw [hz, heq]
            exact hx.mask
          simp only [hloop, bind, Option.bind, pure]
          -- a block that fails and a failing `lima_devfreq_resume` share the way back
          cases r₁.or env.resume.devfreq with
          | some e =>
              obtain ⟨hdown, hoff⟩ := foldl_limaFiniIp_downed done z hm
              have hrest := (done.foldl limaFiniIp z).disabled_downed
              exact ⟨_, some e, rfl, (hdown.trans hrest).fits hm hchip hphase fun hp =>
                hrest.off (hoff hdone hp)⟩
          | none =>
              exact ⟨z, none, rfl, hm, hchip, fun _ => congrArg Pmu.status hz,
                fun hne => absurd rfl hne⟩

theorem limaDeviceSuspend_fits {busy : Bool} {devfreq : Option Errno} (hx : x.PmuFits .active) :
    (x.limaDeviceSuspend busy devfreq).1.PmuFits
      (PowerPhase.after .active .suspended (x.limaDeviceSuspend busy devfreq).2) := by
  have hphase : PowerPhase.suspended ≠ .active := by decide
  unfold limaDeviceSuspend
  split
  · exact hx
  split
  · exact hx
  · obtain ⟨hdown, hoff⟩ := foldl_limaFiniIp_downed LimaIpId.all.reverse x hx.mask
    have hrest := (LimaIpId.all.reverse.foldl limaFiniIp x).disabled_downed
    exact (hdown.trans hrest).fits hx.mask hx.chip hphase fun hp =>
      hrest.off (hoff (by decide) hp)

theorem limaDeviceFini_fits (hx : x.PmuFits .active) : x.limaDeviceFini.PmuFits .absent :=
  initErrOut4_fits hx.mask hx.chip (by decide)

/-! ## Blocks whose domains are off -/

/-- The bit of the domain of a processor, or of the L2 cache of a Mali-400. -/
def maskBit : GpuId → LimaIpId → Option ℕ
  | _, .gp => some 0
  | .mali400, .l2Cache0 => some 1
  | .mali400, .pp0 => some 2
  | .mali400, .pp1 => some 3
  | .mali400, .pp2 => some 4
  | .mali400, .pp3 => some 5
  | .mali450, .pp0 => some 1
  | .mali450, .pp1 | .mali450, .pp2 | .mali450, .pp3 => some 2
  | .mali450, .pp4 | .mali450, .pp5 | .mali450, .pp6 | .mali450, .pp7 => some 3
  | _, _ => none

theorem powerDomains_maskBit {id : GpuId} {b : ℕ} (h : maskBit id i = some b) :
    powerDomains id i = [b] := by
  cases id <;> cases i <;> simp_all [maskBit, powerDomains]

theorem limaPmuGetIpMask_bit {b : ℕ} (h : maskBit x.dev.id i = some b)
    (hp : (x.dev.ip i).present = true) : x.limaPmuGetIpMask.getLsbD b = true := by
  unfold limaPmuGetIpMask
  cases hid : x.dev.id <;> rw [hid] at h <;> cases i <;>
    simp only [maskBit, Option.some.injEq, reduceCtorEq] at h <;> subst h <;> simp [hp]

theorem Off.powered {b : ℕ} (h : x.Off) (hb : maskBit x.dev.id i = some b)
    (hp : (x.dev.ip i).present = true) : powered x.dev.id x.pmu.status i = false := by
  have hoff := h b (limaPmuGetIpMask_bit hb hp)
  simp [Lima.powered, powerDomains_maskBit hb, hoff]

theorem exists_maskBit {id : GpuId} (hchip : ((limaIpDesc i).offset id).isSome = true)
    (h : i.func = .gp ∨ i.func = .pp ∨ id = .mali400 ∧ i = .l2Cache0) :
    ∃ b, maskBit id i = some b := by
  cases id <;> cases i <;>
    simp_all [LimaIpId.func, limaIpDesc, LimaIpDesc.entry, maskBit]

/-! ## A PMU that does not work -/

/-- `lima_device_init` gets to the blocks. -/
def Reaches (x : PmuDev) (env : PmuInitEnv) : Prop :=
  ∃ d d', x.dev.limaClkInit env.init = (d, none) ∧ d.limaRegulatorInit env.init = (d', none) ∧
    env.init.vmCreateOk = true ∧ (d'.id = .mali450 → env.init.dlbuAllocOk = true) ∧
    env.init.ioremap = none

/-- A probe goes on without a PMU that works. -/
theorem limaInitIp_broken {env : PmuInitEnv} (hstatus : x.pmu.status = env.status)
    (h : ¬ PmuWorks env.status (env.init.irq "pmu" = none) (env.ip .pmu).pmu) :
    ∃ y, x.limaInitIp env .pmu = some (y, none) ∧ y.dev.id = x.dev.id ∧
      y.pmu.status = env.left := by
  unfold PmuInitEnv.left
  rcases limaInitIp_pmu_cases env with ⟨e, hirq, hcall⟩ | ⟨hirq, y, hcall, hid, hpmu⟩
  · rw [if_neg (by simp [hirq])]
    exact ⟨x, hcall, rfl, hstatus⟩
  · -- the interrupt is there, so that what failed is the wait for the command
    have h0 : x.pmu.status ≠ 0#32 := fun h0 => h (.inl (hstatus ▸ h0))
    have hwait : limaPmuWaitCmd (env.ip .pmu).pmu ≠ none := fun hw =>
      h (.inr ⟨hirq, limaPmuWaitCmd_eq_none.mp hw⟩)
    obtain ⟨e, he⟩ := Option.ne_none_iff_exists'.mp hwait
    rw [if_pos hirq]
    refine ⟨y, hcall, hid, ?_⟩
    rw [hpmu]
    simp [limaPmuInit, h0, limaPmuPowerUp, he]

/-- The first read after that is of the first L2 cache, which every GPU has. -/
theorem limaInitIp_l2_stalls {env : PmuInitEnv}
    (hl2 : powered x.dev.id x.pmu.status .l2Cache0 = false) :
    x.limaInitIp env .l2Cache0 = none := by
  have hoff : ∃ off, (limaIpDesc .l2Cache0).offset x.dev.id = some off := by
    cases x.dev.id <;> exact ⟨_, rfl⟩
  obtain ⟨off, hoff⟩ := hoff
  have hread : x.read .l2Cache0 = none := by simp [read, hl2]
  have hinit : x.init (env.ip .l2Cache0) .l2Cache0 = none := by
    simp [init, LimaIpId.func, limaL2CacheInit, hread]
  have hname : (limaIpDesc .l2Cache0).irqName.bind env.init.irq = none := rfl
  unfold limaInitIp
  simp only [hoff, hname, hinit]
  rfl

theorem limaDeviceInitIps_stalls {env : PmuInitEnv} (hmap : env.init.ioremap = none)
    (h : ¬ PmuWorks env.status (env.init.irq "pmu" = none) (env.ip .pmu).pmu)
    (hl2 : powered x.dev.id env.left .l2Cache0 = false) : x.limaDeviceInitIps env = none := by
  obtain ⟨y, hy, hid, hstatus⟩ :=
    limaInitIp_broken (x := { x with pmu.status := env.status }) rfl h
  have hstall : y.limaInitIp env .l2Cache0 = none := by
    refine limaInitIp_l2_stalls ?_
    rw [hid, hstatus]
    exact hl2
  unfold limaDeviceInitIps
  simp only [hmap, LimaIpId.all, forIps, hy, hstall]
  rfl

theorem limaDeviceInit_stalls {env : PmuInitEnv} (hreach : x.Reaches env)
    (h : ¬ PmuWorks env.status (env.init.irq "pmu" = none) (env.ip .pmu).pmu)
    (hl2 : powered x.dev.id env.left .l2Cache0 = false) : x.limaDeviceInit env = none := by
  obtain ⟨d, d', hclk, hreg, hvm, hdlbu, hmap⟩ := hreach
  have hd := (PowerDev.limaClkInit_sameIps env.init).of_fst hclk
  have hd' := hd.trans ((PowerDev.limaRegulatorInit_sameIps env.init).of_fst hreg)
  rw [← hd'.2] at hl2
  simp only [limaDeviceInit, hclk, hreg, hvm]
  cases hid : d'.id with
  | mali400 =>
      rw [hid] at hl2
      exact limaDeviceInitIps_stalls hmap h hl2
  | mali450 =>
      rw [hid] at hl2
      simp only [hdlbu hid]
      exact limaDeviceInitIps_stalls hmap h hl2

end PmuDev

/-! ## Main results -/

variable {s : PmuSys}

theorem PmuSys.fits_of_via (h : pmuLts.Via PmuSafe s) : s.dev.PmuFits s.phase := by
  refine Lts.Via.invariant (I := fun s => s.dev.PmuFits s.phase) (fun s hs => ?_)
    (fun s e s' _ hi hok hstep => ?_) h
  · obtain ⟨id, status, rfl⟩ := hs
    have hphase : PowerPhase.absent ≠ .active := by decide
    exact PmuDev.bare_fits (x := ⟨.zeroed id .off, ⟨status, 0#32⟩⟩) rfl (fun _ => rfl) hphase
      ⟨rfl, rfl⟩
  · obtain ⟨hen, hstep⟩ := hstep
    cases e with
    | init id env =>
        have habsent : s.phase = .absent := hen
        obtain ⟨y, r, hy, hfits⟩ := PmuDev.limaDeviceInit_fits (x := s.dev.zeroed id) rfl
          (fun _ => rfl) hok.2
        simp only [pmuStep, hy, Option.map_some, Option.some.injEq, habsent] at hstep
        subst hstep
        exact hfits
    | suspend busy devfreq =>
        have hactive : s.phase = .active := hok
        rw [hactive] at hi
        obtain rfl := Option.some.inj hstep
        rw [hactive]
        exact PmuDev.limaDeviceSuspend_fits hi
    | resume env =>
        obtain ⟨hsuspended, -, hworks⟩ := hok
        rw [hsuspended] at hi
        obtain ⟨y, r, hy, hfits⟩ := PmuDev.limaDeviceResume_fits hi hworks
        simp only [pmuStep, hy, Option.map_some, Option.some.injEq, hsuspended] at hstep
        subst hstep
        exact hfits
    | fini =>
        have hactive : s.phase = .active := hok
        rw [hactive] at hi
        obtain rfl := Option.some.inj hstep
        exact PmuDev.limaDeviceFini_fits hi

/-- Every block answers, the PMU after `polls` polls. -/
def answeringIp (polls : ℕ) : IpEnv where
  pmu := ⟨fun k => decide (k = polls), 0x3F#32⟩
  resetOk := true
  mmu := ⟨0xCAFEB000, none, 0, true, false⟩
  requestIrq := none

/-- A probe of a Mali-400 that finds all its domains off. -/
def pmuProbeEnv (polls : ℕ) : PmuInitEnv := ⟨initEnv none none, 0x3F#32, fun _ => answeringIp polls⟩

def unprobedSys : PmuSys := ⟨⟨.zeroed .mali400 .off, ⟨0x3F#32, 0#32⟩⟩, .absent⟩

theorem unprobedSys_via : pmuLts.Via PmuSafe unprobedSys := .init ⟨.mali400, 0x3F#32, rfl⟩

theorem pmuProbe_safe : PmuSafe unprobedSys (.init .mali400 (pmuProbeEnv 3)) := by
  refine ⟨?_, .inr ⟨rfl, 3, by decide, rfl⟩⟩
  rintro ⟨-, -, reset, -, hskip⟩
  cases reset <;> exact absurd hskip (by decide)

end Lima
