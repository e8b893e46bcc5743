import Lima.Device.Domains

/-!
# Runs with power domains

Every run of the device with its PMU is a run of the power model, with the outcomes of the
blocks' callbacks as its environment: the callbacks change the status of the domains, and
nothing else the rest of a call looks at.
-/

namespace Lima

/-! ## Runs -/

structure PmuSys where
  dev : PmuDev
  phase : PowerPhase

inductive PmuEvent where
  | init (id : GpuId) (env : PmuInitEnv)
  | suspend (busy : Bool) (devfreq : Option Errno)
  | resume (env : PmuResumeEnv)
  | fini

/-- The calls can come in any order once a device is there. -/
def PmuEvent.Enabled (s : PmuSys) : PmuEvent → Prop
  | .init .. => s.phase = .absent
  | _ => s.phase ≠ .absent

/-- The zeroed device of a probe. -/
def PmuDev.zeroed (id : GpuId) (x : PmuDev) : PmuDev :=
  ⟨.zeroed id x.dev.power, ⟨x.pmu.status, 0#32⟩⟩

/-- The call, which ends in no state if a read is never answered. -/
def pmuStep (s : PmuSys) : PmuEvent → Option PmuSys
  | .init id env =>
      ((s.dev.zeroed id).limaDeviceInit env).map fun y => ⟨y.1, s.phase.after .active y.2⟩
  | .suspend busy devfreq =>
      let y := s.dev.limaDeviceSuspend busy devfreq
      some ⟨y.1, s.phase.after .suspended y.2⟩
  | .resume env => (s.dev.limaDeviceResume env).map fun y => ⟨y.1, s.phase.after .active y.2⟩
  | .fini => some ⟨s.dev.limaDeviceFini, .absent⟩

def pmuLts : Lts PmuSys PmuEvent where
  init s := ∃ id status, s = ⟨⟨.zeroed id .off, ⟨status, 0#32⟩⟩, .absent⟩
  step s e s' := e.Enabled s ∧ pmuStep s e = some s'

/-- The PMU finds all domains on, or can be used and is seen to have switched them on. -/
def PmuWorks (status : BitVec 32) (usable : Prop) (env : PmuEnv) : Prop :=
  status = 0#32 ∨ usable ∧ ∃ k < 100, env.done k = true

/-- The condition of the power balance, and a PMU that works whenever it is asked. -/
def PmuSafe (s : PmuSys) : PmuEvent → Prop
  | .init _ env =>
      ¬ env.init.Skips ∧ PmuWorks env.status (env.init.irq "pmu" = none) (env.ip .pmu).pmu
  | .suspend .. => s.phase = .active
  | .resume env =>
      s.phase = .suspended ∧ ¬ env.resume.clk.Skips s.dev.dev.reset ∧
        PmuWorks env.status ((s.dev.dev.ip .pmu).present = true) (env.ip .pmu).pmu
  | .fini => s.phase = .active

/-! ## Outcomes of the callbacks -/

/-- The environment, with these outcomes of `desc->init`. -/
def InitEnv.withInit (env : InitEnv) (o : LimaIpId → Option Errno) : InitEnv :=
  { env with ipInit := o }

/-- The environment, with these outcomes of `desc->resume`. -/
def ResumeEnv.withResume (env : ResumeEnv) (o : LimaIpId → Option Errno) : ResumeEnv :=
  { env with ipResume := o }

section Outcomes

variable (env : InitEnv) (renv : ResumeEnv) (o : LimaIpId → Option Errno)

@[simp] theorem ResumeEnv.withResume_ipResume : (renv.withResume o).ipResume = o := rfl
@[simp] theorem ResumeEnv.withResume_clk : (renv.withResume o).clk = renv.clk := rfl
@[simp] theorem ResumeEnv.withResume_regulatorEnable :
    (renv.withResume o).regulatorEnable = renv.regulatorEnable := rfl
@[simp] theorem ResumeEnv.withResume_devfreq : (renv.withResume o).devfreq = renv.devfreq := rfl

@[simp] theorem InitEnv.withInit_ipInit : (env.withInit o).ipInit = o := rfl
@[simp] theorem InitEnv.withInit_irq : (env.withInit o).irq = env.irq := rfl
@[simp] theorem InitEnv.withInit_ioremap : (env.withInit o).ioremap = env.ioremap := rfl
@[simp] theorem InitEnv.withInit_vmCreateOk : (env.withInit o).vmCreateOk = env.vmCreateOk := rfl
@[simp] theorem InitEnv.withInit_dlbuAllocOk :
    (env.withInit o).dlbuAllocOk = env.dlbuAllocOk := rfl
@[simp] theorem InitEnv.withInit_limaInitGpPipe (d : PowerDev) :
    d.limaInitGpPipe (env.withInit o) = d.limaInitGpPipe env := rfl
@[simp] theorem InitEnv.withInit_limaInitPpPipe (d : PowerDev) :
    d.limaInitPpPipe (env.withInit o) = d.limaInitPpPipe env := rfl
@[simp] theorem InitEnv.withInit_limaClkInit (d : PowerDev) :
    d.limaClkInit (env.withInit o) = d.limaClkInit env := rfl
@[simp] theorem InitEnv.withInit_limaRegulatorInit (d : PowerDev) :
    d.limaRegulatorInit (env.withInit o) = d.limaRegulatorInit env := rfl

end Outcomes

namespace PmuDev

variable {x y : PmuDev} {i : LimaIpId} {r : Option Errno}

/-! ## The power model's view -/

/-- Nothing has changed but the status of the domains. -/
def Switched (x y : PmuDev) : Prop := y.dev = x.dev ∧ y.pmu.mask = x.pmu.mask

theorem limaPmuInit_switched (env : PmuEnv) : x.Switched (x.limaPmuInit env).1 := by
  simp only [limaPmuInit, limaPmuPowerUp]
  split
  · exact ⟨rfl, rfl⟩
  · cases limaPmuWaitCmd env <;> exact ⟨rfl, rfl⟩

theorem switched_of_map {o : Option (Option Errno)} (h : o.map (x, ·) = some (y, r)) :
    x.Switched y := by
  obtain ⟨_, -, hr⟩ := Option.map_eq_some_iff.mp h
  obtain ⟨rfl, rfl⟩ := Prod.mk.inj hr
  exact ⟨rfl, rfl⟩

theorem init_switched {env : IpEnv} (h : x.init env i = some (y, r)) : x.Switched y := by
  unfold init at h
  split at h
  · have hpmu := limaPmuInit_switched (x := x) env.pmu
    rwa [Option.some.inj h] at hpmu
  · exact switched_of_map h
  · exact switched_of_map h
  · exact switched_of_map h
  · exact switched_of_map h
  · exact switched_of_map (o := some none) h
  · exact switched_of_map (o := some none) h
  · exact switched_of_map (o := some env.requestIrq) h

theorem resume_switched {env : IpEnv} (h : x.resume env i = some (y, r)) : x.Switched y := by
  unfold resume at h
  split at h
  · have hpmu := limaPmuInit_switched (x := x) env.pmu
    rwa [Option.some.inj h] at hpmu
  · exact switched_of_map h
  · exact switched_of_map h
  · exact switched_of_map h
  · exact switched_of_map h
  · exact switched_of_map (o := some none) h
  · exact switched_of_map (o := some none) h
  · exact switched_of_map (o := some none) h

/-- A call that returns is one of the power model, for some outcome of the callback. -/
theorem limaInitIp_power {env : PmuInitEnv} (h : x.limaInitIp env i = some (y, r)) :
    y.pmu.mask = x.pmu.mask ∧ ∃ e, ∀ o : LimaIpId → Option Errno, o i = e →
      x.dev.limaInitIp (env.init.withInit o) i = (y.dev, r) := by
  unfold limaInitIp at h
  cases hoff : (limaIpDesc i).offset x.dev.id with
  | none =>
      rw [hoff] at h
      obtain ⟨rfl, rfl⟩ := Prod.mk.inj (Option.some.inj h)
      refine ⟨rfl, none, fun o _ => ?_⟩
      rw [PowerDev.limaInitIp, hoff]
  | some off =>
      rw [hoff] at h
      cases hirq : (limaIpDesc i).irqName.bind env.init.irq with
      | some e =>
          simp only [hirq] at h
          obtain ⟨rfl, rfl⟩ := Prod.mk.inj (Option.some.inj h)
          refine ⟨rfl, none, fun o _ => ?_⟩
          rw [PowerDev.limaInitIp, hoff, InitEnv.withInit_irq, hirq, Option.some_or]
      | none =>
          simp only [hirq] at h
          cases hinit : x.init (env.ip i) i with
          | none =>
              rw [hinit] at h
              cases h
          | some z =>
              obtain ⟨z, e⟩ := z
              obtain ⟨hdev, hmask⟩ := init_switched hinit
              rw [hinit] at h
              have hcall : ∀ o : LimaIpId → Option Errno,
                  ((limaIpDesc i).irqName.bind (env.init.withInit o).irq).or
                    ((env.init.withInit o).ipInit i) = o i := by
                intro o
                rw [InitEnv.withInit_irq, InitEnv.withInit_ipInit, hirq, Option.none_or]
              cases e with
              | none =>
                  obtain ⟨rfl, rfl⟩ := Prod.mk.inj (Option.some.inj h)
                  refine ⟨hmask, none, fun o ho => ?_⟩
                  rw [PowerDev.limaInitIp, hoff, hcall, ho, ← hdev]
                  rfl
              | some e =>
                  obtain ⟨rfl, rfl⟩ := Prod.mk.inj (Option.some.inj h)
                  refine ⟨hmask, some e, fun o ho => ?_⟩
                  rw [PowerDev.limaInitIp, hoff, hcall, ho, hdev]

theorem limaResumeIp_power {env : PmuResumeEnv} (h : x.limaResumeIp env i = some (y, r)) :
    y.pmu.mask = x.pmu.mask ∧ ∃ e, ∀ o : LimaIpId → Option Errno, o i = e →
      x.dev.limaResumeIp (env.resume.withResume o) i = (y.dev, r) := by
  unfold limaResumeIp at h
  by_cases hpresent : (x.dev.ip i).present = true
  · rw [if_pos hpresent] at h
    cases hresume : x.resume (env.ip i) i with
    | none =>
        rw [hresume] at h
        cases h
    | some z =>
        obtain ⟨z, e⟩ := z
        obtain ⟨hdev, hmask⟩ := resume_switched hresume
        rw [hresume] at h
        cases e with
        | none =>
            obtain ⟨rfl, rfl⟩ := Prod.mk.inj (Option.some.inj h)
            refine ⟨hmask, none, fun o ho => ?_⟩
            rw [PowerDev.limaResumeIp, if_pos hpresent, ResumeEnv.withResume_ipResume, ho, ← hdev]
            rfl
        | some e =>
            obtain ⟨rfl, rfl⟩ := Prod.mk.inj (Option.some.inj h)
            refine ⟨hmask, some e, fun o ho => ?_⟩
            rw [PowerDev.limaResumeIp, if_pos hpresent, ResumeEnv.withResume_ipResume, ho, hdev]
  · rw [if_neg hpresent] at h
    obtain ⟨rfl, rfl⟩ := Prod.mk.inj (Option.some.inj h)
    refine ⟨rfl, none, fun o _ => ?_⟩
    rw [PowerDev.limaResumeIp, if_neg hpresent]

/-- A loop that returns is one of the power model, for some outcomes of the callbacks. -/
theorem forIps_power {f : PmuDev → LimaIpId → Option (PmuDev × Option Errno)}
    {g : (LimaIpId → Option Errno) → PowerDev → LimaIpId → PowerDev × Option Errno}
    (hf : ∀ x i y r, f x i = some (y, r) → ∃ e, ∀ o, o i = e →
      g o x.dev i = (y.dev, r)) :
    ∀ (is done : List LimaIpId) (x y : PmuDev) (done' : List LimaIpId) (r : Option Errno),
      is.Nodup → forIps f is done x = some (y, done', r) →
      ∃ o : LimaIpId → Option Errno, ∀ o', (∀ i ∈ is, o' i = o i) →
        PowerDev.forIps (g o') is done x.dev = (y.dev, done', r) := by
  intro is
  induction is with
  | nil =>
      intro done x y done' r _ h
      obtain ⟨rfl, hrest⟩ := Prod.mk.inj (Option.some.inj h)
      obtain ⟨rfl, rfl⟩ := Prod.mk.inj hrest
      exact ⟨fun _ => none, fun _ _ => rfl⟩
  | cons i is ih =>
      intro done x y done' r hnodup h
      obtain ⟨hi, hnodup⟩ := List.nodup_cons.mp hnodup
      rw [forIps] at h
      cases hcall : f x i with
      | none =>
          rw [hcall] at h
          cases h
      | some z =>
          obtain ⟨z, r₁⟩ := z
          obtain ⟨e, he⟩ := hf x i z r₁ hcall
          rw [hcall] at h
          cases r₁ with
          | some e₁ =>
              obtain ⟨rfl, hrest⟩ := Prod.mk.inj (Option.some.inj h)
              obtain ⟨rfl, rfl⟩ := Prod.mk.inj hrest
              refine ⟨fun _ => e, fun o' ho' => ?_⟩
              rw [PowerDev.forIps, he o' (ho' i List.mem_cons_self)]
          | none =>
              obtain ⟨o, ho⟩ := ih _ z y done' r hnodup h
              -- the outcome of `i` is that of this round, the others are those of the rest
              refine ⟨Function.update o i e, fun o' ho' => ?_⟩
              have hout : o' i = e := by
                rw [ho' i List.mem_cons_self, Function.update_self]
              have hrest : ∀ j ∈ is, o' j = o j := by
                intro j hj
                have hji : j ≠ i := fun h => hi (h ▸ hj)
                rw [ho' j (List.mem_cons_of_mem i hj), Function.update_of_ne hji]
              rw [PowerDev.forIps, he o' hout]
              exact ho o' hrest

theorem limaFiniIp_dev : (x.limaFiniIp i).dev = x.dev.limaFiniIp i := by
  unfold limaFiniIp PowerDev.limaFiniIp
  split
  · unfold fini
    split <;> rfl
  · rfl

theorem foldl_limaFiniIp_dev : ∀ (is : List LimaIpId) (x : PmuDev),
    (is.foldl limaFiniIp x).dev = is.foldl PowerDev.limaFiniIp x.dev
  | [], _ => rfl
  | i :: is, x => by
      rw [List.foldl_cons, foldl_limaFiniIp_dev is, limaFiniIp_dev, List.foldl_cons]

theorem initErrOut4_dev (done : List LimaIpId) :
    (x.initErrOut4 done).dev = x.dev.initErrOut4 done := by
  simp only [initErrOut4, foldl_limaFiniIp_dev]
  rfl

theorem limaDeviceInitIps_power {env : PmuInitEnv}
    (h : x.limaDeviceInitIps env = some (y, r)) :
    ∃ o, x.dev.limaDeviceInitIps (env.init.withInit o) = (y.dev, r) := by
  unfold limaDeviceInitIps at h
  cases hmap : env.init.ioremap with
  | some e =>
      simp only [hmap] at h
      obtain ⟨rfl, rfl⟩ := Prod.mk.inj (Option.some.inj h)
      refine ⟨fun _ => none, ?_⟩
      simp only [PowerDev.limaDeviceInitIps, InitEnv.withInit_ioremap, hmap, initErrOut4_dev]
  | none =>
      simp only [hmap] at h
      cases hloop : forIps (fun x i => x.limaInitIp env i) LimaIpId.all []
          { x with pmu.status := env.status } with
      | none =>
          rw [hloop] at h
          cases h
      | some z =>
          obtain ⟨z, done, r₁⟩ := z
          obtain ⟨o, ho⟩ := forIps_power (g := fun o d i => d.limaInitIp (env.init.withInit o) i)
            (fun x i y r hcall => (limaInitIp_power hcall).2) _ _ _ _ _ _ (by decide) hloop
          have hpower := ho o fun _ _ => rfl
          refine ⟨o, ?_⟩
          rw [hloop] at h
          simp only [PowerDev.limaDeviceInitIps, InitEnv.withInit_ioremap, hmap, hpower]
          cases r₁ with
          | some e =>
              obtain ⟨rfl, rfl⟩ := Prod.mk.inj (Option.some.inj h)
              simp only [initErrOut4_dev]
          | none =>
              simp only [InitEnv.withInit_limaInitGpPipe, InitEnv.withInit_limaInitPpPipe, bind,
                Option.bind, pure] at h ⊢
              cases hgp : z.dev.limaInitGpPipe env.init with
              | mk d r₂ =>
                simp only [hgp] at h ⊢
                cases r₂ with
                | some e =>
                    obtain ⟨rfl, rfl⟩ := Prod.mk.inj (Option.some.inj h)
                    simp only [initErrOut4_dev]
                | none =>
                    cases hpp : d.limaInitPpPipe env.init with
                    | mk d' r₃ =>
                      simp only [hpp] at h ⊢
                      cases r₃ with
                      | some e =>
                          obtain ⟨rfl, rfl⟩ := Prod.mk.inj (Option.some.inj h)
                          simp only [initErrOut4_dev]
                      | none =>
                          obtain ⟨rfl, rfl⟩ := Prod.mk.inj (Option.some.inj h)
                          rfl

/-- What of `lima_device_init` lies before the mapping of the registers does not depend on
the blocks. -/
theorem limaDeviceInit_power {env : PmuInitEnv} (h : x.limaDeviceInit env = some (y, r)) :
    ∃ o, x.dev.limaDeviceInit (env.init.withInit o) = (y.dev, r) := by
  simp only [limaDeviceInit] at h
  have hback : ∀ {d : PowerDev} {e : Errno},
      some (({ x with dev := d } : PmuDev), some e) = some (y, r) → (d, some e) = (y.dev, r) := by
    intro d e heq
    obtain ⟨rfl, rfl⟩ := Prod.mk.inj (Option.some.inj heq)
    rfl
  rcases hclk : x.dev.limaClkInit env.init with ⟨d, _ | e⟩
  · simp only [hclk] at h
    rcases hreg : d.limaRegulatorInit env.init with ⟨d', _ | e⟩
    · simp only [hreg] at h
      cases hvm : env.init.vmCreateOk with
      | false =>
          refine ⟨fun _ => none, ?_⟩
          simp only [hvm] at h
          simpa [PowerDev.limaDeviceInit, hclk, hreg, hvm] using hback h
      | true =>
          simp only [hvm] at h
          cases hid : d'.id with
          | mali400 =>
              simp only [hid] at h
              obtain ⟨o, ho⟩ := limaDeviceInitIps_power h
              refine ⟨o, ?_⟩
              simpa [PowerDev.limaDeviceInit, hclk, hreg, hvm, hid] using ho
          | mali450 =>
              simp only [hid] at h
              cases hdlbu : env.init.dlbuAllocOk with
              | false =>
                  refine ⟨fun _ => none, ?_⟩
                  simp only [hdlbu] at h
                  simpa [PowerDev.limaDeviceInit, hclk, hreg, hvm, hid, hdlbu] using hback h
              | true =>
                  simp only [hdlbu] at h
                  obtain ⟨o, ho⟩ := limaDeviceInitIps_power h
                  refine ⟨o, ?_⟩
                  simpa [PowerDev.limaDeviceInit, hclk, hreg, hvm, hid, hdlbu] using ho
    · refine ⟨fun _ => none, ?_⟩
      simp only [hreg] at h
      simpa [PowerDev.limaDeviceInit, hclk, hreg] using hback h
  · refine ⟨fun _ => none, ?_⟩
    simp only [hclk] at h
    simpa [PowerDev.limaDeviceInit, hclk] using hback h

theorem limaDeviceResume_power {env : PmuResumeEnv} (h : x.limaDeviceResume env = some (y, r)) :
    ∃ o, x.dev.limaDeviceResume (env.resume.withResume o) = (y.dev, r) := by
  simp only [limaDeviceResume] at h
  rcases hclk : x.dev.limaClkEnable env.resume.clk with ⟨d, _ | e⟩
  · simp only [hclk] at h
    rcases hreg : d.limaRegulatorEnable env.resume.regulatorEnable with ⟨d', _ | e⟩
    · simp only [hreg] at h
      cases hloop : forIps (fun x i => x.limaResumeIp env i) LimaIpId.all []
          ⟨d', { x.pmu with status := env.status }⟩ with
      | none =>
          rw [hloop] at h
          cases h
      | some z =>
          obtain ⟨z, done, r₁⟩ := z
          obtain ⟨o, ho⟩ := forIps_power
            (g := fun o d i => d.limaResumeIp (env.resume.withResume o) i)
            (fun x i y r hcall => (limaResumeIp_power hcall).2) _ _ _ _ _ _ (by decide) hloop
          have hpower := ho o fun _ _ => rfl
          refine ⟨o, ?_⟩
          rw [hloop] at h
          simp only [bind, Option.bind, pure] at h
          cases hr : r₁.or env.resume.devfreq with
          | some e =>
              simp only [hr] at h
              obtain ⟨rfl, rfl⟩ := Prod.mk.inj (Option.some.inj h)
              simp [PowerDev.limaDeviceResume, hclk, hreg, hpower, hr, foldl_limaFiniIp_dev,
                PowerDev.limaSuspendIp_eq]
          | none =>
              simp only [hr] at h
              obtain ⟨rfl, rfl⟩ := Prod.mk.inj (Option.some.inj h)
              simp [PowerDev.limaDeviceResume, hclk, hreg, hpower, hr]
    · simp only [hreg] at h
      obtain ⟨rfl, rfl⟩ := Prod.mk.inj (Option.some.inj h)
      exact ⟨fun _ => none, by simp [PowerDev.limaDeviceResume, hclk, hreg]⟩
  · simp only [hclk] at h
    obtain ⟨rfl, rfl⟩ := Prod.mk.inj (Option.some.inj h)
    exact ⟨fun _ => none, by simp [PowerDev.limaDeviceResume, hclk]⟩

theorem limaDeviceSuspend_power (busy : Bool) (devfreq : Option Errno) :
    x.dev.limaDeviceSuspend busy devfreq =
      ((x.limaDeviceSuspend busy devfreq).1.dev, (x.limaDeviceSuspend busy devfreq).2) := by
  cases busy with
  | true => rfl
  | false =>
      cases devfreq with
      | some e => rfl
      | none =>
          simp only [PowerDev.limaDeviceSuspend, limaDeviceSuspend, foldl_limaFiniIp_dev,
            PowerDev.limaSuspendIp_eq]
          rfl

theorem limaDeviceFini_power : x.limaDeviceFini.dev = x.dev.limaDeviceFini :=
  initErrOut4_dev _

end PmuDev

/-! ## Runs of the power model -/

/-- What the power model sees. -/
def PmuSys.power (s : PmuSys) : PowerSys := ⟨s.dev.dev, s.phase⟩

/-- **Every run is a run of the power model.** -/
theorem PmuSys.power_via {s : PmuSys} (h : pmuLts.Via PmuSafe s) :
    powerLts.Via PowerSafe s.power := by
  induction h with
  | init h0 =>
      obtain ⟨id, status, rfl⟩ := h0
      exact .init ⟨id, rfl⟩
  | @step s s' e _ hok hstep ih =>
      obtain ⟨hen, hstep⟩ := hstep
      cases e with
      | init id env =>
          obtain ⟨⟨y, r⟩, hy, rfl⟩ := Option.map_eq_some_iff.mp hstep
          obtain ⟨o, ho⟩ := PmuDev.limaDeviceInit_power hy
          have hinit : (PowerDev.zeroed id s.dev.dev.power).limaDeviceInit
              (env.init.withInit o) = (y.dev, r) := ho
          refine ih.step (a := .init id (env.init.withInit o)) hok.1 ?_
          have habsent : s.phase = .absent := hen
          simp only [powerLts, powerStep, PmuSys.power]
          rw [if_pos habsent, hinit]
      | suspend busy devfreq =>
          obtain rfl := Option.some.inj hstep
          refine ih.step (a := .suspend busy devfreq) hok ?_
          have hthere : s.phase ≠ .absent := hen
          simp only [powerLts, powerStep, PmuSys.power]
          rw [if_neg hthere, PmuDev.limaDeviceSuspend_power]
      | resume env =>
          obtain ⟨⟨y, r⟩, hy, rfl⟩ := Option.map_eq_some_iff.mp hstep
          obtain ⟨o, ho⟩ := PmuDev.limaDeviceResume_power hy
          refine ih.step (a := .resume (env.resume.withResume o)) ⟨hok.1, hok.2.1⟩ ?_
          have hthere : s.phase ≠ .absent := hen
          simp only [powerLts, powerStep, PmuSys.power]
          rw [if_neg hthere, ho]
      | fini =>
          obtain rfl := Option.some.inj hstep
          refine ih.step (a := .fini) hok ?_
          have hthere : s.phase ≠ .absent := hen
          simp only [powerLts, powerStep, PmuSys.power]
          rw [if_neg hthere, PmuDev.limaDeviceFini_power]

end Lima
