import Lima.Device.Power
import Lima.Lib.Lts

/-!
# The power balance

`lima_clk_enable` may stop early when the tunable asks for it, while every undo path
disables everything. The balance is kept by the runs in which nothing that is undone has
been left out.
-/

namespace Lima

/-! ## Runs -/

inductive PowerPhase where
  | absent | active | suspended
deriving DecidableEq, Repr

/-- A device that is probed and removed again and again, and what it has come to. -/
structure PowerSys where
  dev : PowerDev
  phase : PowerPhase

inductive PowerEvent where
  | init (id : GpuId) (env : InitEnv)
  | suspend (busy : Bool) (devfreq : Option Errno)
  | resume (env : ResumeEnv)
  | fini

/-- The phase after a call: a call that fails stays where it was. -/
def PowerPhase.after (phase next : PowerPhase) (r : Option Errno) : PowerPhase :=
  if r = none then next else phase

/-- The calls can come in any order once a device is there. -/
def powerStep (s : PowerSys) : PowerEvent → Option PowerSys
  | .init id env =>
      if s.phase = .absent then
        let x := (PowerDev.zeroed id s.dev.power).limaDeviceInit env
        some ⟨x.1, s.phase.after .active x.2⟩
      else none
  | .suspend busy devfreq =>
      if s.phase = .absent then none
      else
        let x := s.dev.limaDeviceSuspend busy devfreq
        some ⟨x.1, s.phase.after .suspended x.2⟩
  | .resume env =>
      if s.phase = .absent then none
      else
        let x := s.dev.limaDeviceResume env
        some ⟨x.1, s.phase.after .active x.2⟩
  | .fini =>
      if s.phase = .absent then none else some ⟨s.dev.limaDeviceFini, .absent⟩

def powerLts : Lts PowerSys PowerEvent where
  init s := ∃ id, s = ⟨.zeroed id .off, .absent⟩
  step s e s' := powerStep s e = some s'

/-- `lima_clk_enable` returns `0` before it has done all that `lima_clk_disable` undoes. -/
def ClkEnv.Skips (env : ClkEnv) (reset : Bool) : Prop :=
  limaClkStage env.kenv < limaClkStageBus ∨
  env.bus = none ∧ (limaClkStage env.kenv < limaClkStageCore ∨
    env.forcePllGpu = none ∧ env.core = none ∧ reset = true ∧
      limaClkStage env.kenv < limaClkStageFull)

instance (env : ClkEnv) (reset : Bool) : Decidable (env.Skips reset) :=
  inferInstanceAs (Decidable (_ ∨ _ ∧ (_ ∨ _)))

/-- `lima_device_init` gets as far as that. -/
def InitEnv.Skips (env : InitEnv) : Prop :=
  env.getBus = none ∧ env.getCore = none ∧
    ∃ reset, env.getReset = .ok reset ∧ env.clk.Skips reset

/-- Nothing is left out, and an active device is suspended or removed, a suspended one
resumed. -/
def PowerSafe (s : PowerSys) : PowerEvent → Prop
  | .init _ env => ¬ env.Skips
  | .suspend .. => s.phase = .active
  | .resume env => s.phase = .suspended ∧ ¬ env.clk.Skips s.dev.reset
  | .fini => s.phase = .active

/-! ## Contributions -/

namespace Power

/-- All that an active device contributes. -/
def on (reset regulator : Bool) : Power := ⟨1, 1, reset.toInt, regulator.toInt, false⟩

/-- The clocks and the reset line alone. -/
def clocked (reset : Bool) : Power := ⟨1, 1, reset.toInt, 0, false⟩

end Power

namespace PowerDev

variable {d : PowerDev}

/-- Enabling the clocks fails with nothing changed, or takes what disabling them gives
back, or less than that. -/
theorem limaClkEnable_spec (env : ClkEnv) (h : d.power = .off) :
    (∃ e, d.limaClkEnable env = (d, some e)) ∨
    ∃ p, d.limaClkEnable env = ({ d with power := p }, none) ∧
      (p = .clocked d.reset ↔ ¬ env.Skips d.reset) := by
  unfold limaClkEnable ClkEnv.Skips
  simp only [h]
  by_cases hbus : limaClkStage env.kenv < limaClkStageBus
  · refine .inr ⟨.off, ?_, ?_⟩
    · rw [if_pos hbus, ← h]
    · simp [hbus, Power.off, Power.clocked]
  rw [if_neg hbus]
  cases env.bus with
  | some e => exact .inl ⟨e, rfl⟩
  | none =>
      by_cases hcore : limaClkStage env.kenv < limaClkStageCore
      · refine .inr ⟨Power.off.enableBus, if_pos hcore, ?_⟩
        simp [hcore, Power.off, Power.enableBus, Power.clocked]
      simp only [if_neg hcore]
      cases hpll : env.forcePllGpu.or env.core with
      | some e =>
          refine .inl ⟨e, ?_⟩
          change ({ d with power := Power.off }, some e) = _
          rw [← h]
      | none =>
          obtain ⟨hp, hc⟩ := Option.or_eq_none_iff.mp hpll
          by_cases hfull : limaClkStage env.kenv < limaClkStageFull
          · refine .inr ⟨Power.off.enableBus.enableCore, if_pos hfull, ?_⟩
            cases d.reset <;>
              simp [hbus, hcore, hp, hc, hfull, Power.off, Power.enableBus, Power.enableCore,
                Power.clocked]
          simp only [if_neg hfull]
          by_cases hreset : d.reset = true
          · simp only [if_pos hreset]
            cases env.deassert with
            | some e =>
                refine .inl ⟨e, ?_⟩
                change ({ d with power := Power.off }, some e) = _
                rw [← h]
            | none =>
                refine .inr ⟨Power.off.enableBus.enableCore.deassert, rfl, ?_⟩
                simp [hbus, hcore, hfull, hreset, Power.off, Power.enableBus,
                  Power.enableCore, Power.deassert, Power.clocked]
          · refine .inr ⟨Power.off.enableBus.enableCore, if_neg hreset, ?_⟩
            simp [hbus, hcore, hreset, Power.off, Power.enableBus, Power.enableCore,
              Power.clocked]

theorem limaClkDisable_clocked (h : d.power = .clocked d.reset) :
    d.limaClkDisable = { d with power := .off } := by
  unfold limaClkDisable
  rw [h]
  cases d.reset <;> rfl

/-- With the clocks on, the supply is enabled if there is one. -/
theorem limaRegulatorEnable_spec (r : Option Errno) (h : d.power = .clocked d.reset) :
    (∃ e, d.limaRegulatorEnable r = (d, some e)) ∨
    d.limaRegulatorEnable r = ({ d with power := .on d.reset d.regulator }, none) := by
  rcases d with ⟨id, reset, regulator, emptyVm, dlbuCpu, ip, gpPipe, ppPipe, power⟩
  obtain rfl : power = .clocked reset := h
  cases regulator with
  | false => exact .inr rfl
  | true =>
      cases r with
      | some e => exact .inl ⟨e, rfl⟩
      | none => exact .inr rfl

theorem limaRegulatorInit_spec (env : InitEnv) (h : d.power = .clocked d.reset) :
    (∃ e reg, d.limaRegulatorInit env = ({ d with regulator := reg }, some e)) ∨
    ∃ reg, d.limaRegulatorInit env = ({ d with
      regulator := reg
      power := .on d.reset reg }, none) := by
  unfold limaRegulatorInit
  split
  · refine .inr ⟨false, ?_⟩
    change _ = ({ d with
      regulator := false
      power := Power.clocked d.reset }, none)
    rw [← h]
  · exact .inl ⟨_, false, rfl⟩
  · rcases limaRegulatorEnable_spec (d := { d with regulator := true }) env.regulatorEnable h
      with ⟨e, he⟩ | hon
    · exact .inl ⟨e, true, he⟩
    · exact .inr ⟨true, hon⟩

/-- The supply and the clocks together. -/
theorem powerDown (h : d.power = .on d.reset d.regulator) :
    d.limaRegulatorDisable.limaClkDisable = { d with power := .off } := by
  rcases d with ⟨id, reset, regulator, emptyVm, dlbuCpu, ip, gpPipe, ppPipe, power⟩
  obtain rfl : power = .on reset regulator := h
  cases regulator with
  | false => exact limaClkDisable_clocked rfl
  | true => cases reset <;> rfl

/-! ## Loops over the blocks -/

theorem foldl_limaFiniIp : ∀ (is : List LimaIpId) (d : PowerDev),
    is.foldl limaFiniIp d = { d with ip := fun i =>
      if i ∈ is ∧ (d.ip i).present = true then { d.ip i with up := false } else d.ip i } := by
  intro is
  induction is with
  | nil =>
      intro d
      simp
  | cons j js ih =>
      intro d
      rw [List.foldl_cons, ih]
      unfold limaFiniIp setIp
      by_cases hj : (d.ip j).present = true
      · rw [if_pos hj]
        congr 1
        funext i
        by_cases hij : i = j
        · subst hij
          simp [hj]
        · simp [hij]
      · rw [if_neg hj]
        congr 1
        funext i
        by_cases hij : i = j
        · subst hij
          simp [hj]
        · simp [hij]

/-- Suspending a block is, for what is modelled of it, taking it down. -/
theorem limaSuspendIp_eq : limaSuspendIp = limaFiniIp := rfl

/-- The rule of the loop: what each block keeps, with the blocks done so far, holds where
the loop ends. -/
theorem forIps_rule {I : List LimaIpId → PowerDev → Prop}
    {f : PowerDev → LimaIpId → PowerDev × Option Errno}
    (hstep : ∀ i done d d' r, I done d → f d i = (d', r) →
      I (if r = none then i :: done else done) d') :
    ∀ (is done : List LimaIpId) (d d' : PowerDev) (done' : List LimaIpId) (r : Option Errno),
      I done d → forIps f is done d = (d', done', r) →
      I done' d' ∧ (r = none → done' = is.reverse ++ done) := by
  intro is
  induction is with
  | nil =>
      intro done d d' done' r hi h
      simp only [forIps, Prod.mk.injEq] at h
      obtain ⟨rfl, rfl, rfl⟩ := h
      exact ⟨hi, fun _ => rfl⟩
  | cons i is ih =>
      intro done d d' done' r hi h
      rw [forIps] at h
      cases hf : f d i with
      | mk d₁ r₁ =>
          rw [hf] at h
          have hi₁ := hstep i done d d₁ r₁ hi hf
          cases r₁ with
          | some e =>
              simp only [Prod.mk.injEq] at h
              obtain ⟨rfl, rfl, rfl⟩ := h
              exact ⟨hi₁, nofun⟩
          | none =>
              obtain ⟨hd, hdone⟩ := ih _ _ _ _ _ hi₁ h
              refine ⟨hd, fun hr => ?_⟩
              rw [hdone hr]
              simp

/-- The blocks that are up are among those done; the rest of the device is `d₀`. -/
def UpWithin (d₀ : PowerDev) (done : List LimaIpId) (d : PowerDev) : Prop :=
  (∃ ip, d = { d₀ with ip := ip }) ∧
  ∀ i, (d.ip i).up = true ↔ i ∈ done ∧ (d.ip i).present = true

theorem UpWithin.down {d₀ : PowerDev} {done : List LimaIpId} (h : UpWithin d₀ done d) :
    ∃ ip, done.foldl limaFiniIp d = { d₀ with ip := ip } ∧ ∀ i, (ip i).up = false := by
  obtain ⟨⟨ip, rfl⟩, hup⟩ := h
  rw [foldl_limaFiniIp]
  refine ⟨_, rfl, fun i => ?_⟩
  split
  · rfl
  · rename_i hnot
    have hiff := hup i
    by_contra hne
    exact hnot (hiff.mp (by simpa using hne))

/-! ## What each call leaves -/

/-- What a device holds in each phase. -/
def Fits (d : PowerDev) : PowerPhase → Prop
  | .absent => d.power = .off ∧ (∀ i, (d.ip i).up = false) ∧ d.emptyVm = false ∧
      d.dlbuCpu = false ∧ d.gpPipe = false ∧ d.ppPipe = false
  | .active => d.power = .on d.reset d.regulator ∧ ∀ i, (d.ip i).up = (d.ip i).present
  | .suspended => d.power = .off ∧ ∀ i, (d.ip i).up = false

theorem initErrOut2_fits (hon : d.power = .on d.reset d.regulator)
    (hup : ∀ i, (d.ip i).up = false) (hdlbu : d.dlbuCpu = false) (hgp : d.gpPipe = false)
    (hpp : d.ppPipe = false) : d.initErrOut2.Fits .absent := by
  have hdown := powerDown (d := { d with emptyVm := false }) hon
  unfold initErrOut2
  rw [hdown]
  exact ⟨rfl, hup, rfl, hdlbu, hgp, hpp⟩

theorem UpWithin.initErrOut4 {x : PowerDev} {done : List LimaIpId} (h : UpWithin x done d)
    (hon : x.power = .on x.reset x.regulator) (hgp : x.gpPipe = false)
    (hpp : x.ppPipe = false) : (d.initErrOut4 done).Fits .absent := by
  obtain ⟨ip, hdown, hup⟩ := h.down
  unfold PowerDev.initErrOut4
  rw [hdown]
  by_cases hdlbu : x.dlbuCpu = true
  · simp only [hdlbu, if_true]
    exact initErrOut2_fits hon hup rfl hgp hpp
  · simp only [if_neg hdlbu]
    exact initErrOut2_fits hon hup (by simpa using hdlbu) hgp hpp

/-- What the loop of `lima_init_ip` keeps. -/
theorem limaInitIp_within {d₀ d' : PowerDev} {env : InitEnv} {i : LimaIpId}
    {done : List LimaIpId} {r : Option Errno}
    (h : UpWithin d₀ done d ∧ ∀ i, (d.ip i).present = true → i ∈ done)
    (hinit : d.limaInitIp env i = (d', r)) :
    UpWithin d₀ (if r = none then i :: done else done) d' ∧
      ∀ j, (d'.ip j).present = true → j ∈ if r = none then i :: done else done := by
  obtain ⟨⟨⟨ip, rfl⟩, hup⟩, hpresent⟩ := h
  have hsub : ∀ j ∈ done, j ∈ if r = none then i :: done else done := by
    intro j hj
    split
    · exact List.mem_cons_of_mem i hj
    · exact hj
  -- a block that stays as it is was not present, or is among those done
  have hkeep : ∀ done', (∀ j ∈ done, j ∈ done') →
      UpWithin d₀ done' { d₀ with ip := ip } ∧ ∀ j, (ip j).present = true → j ∈ done' := by
    intro done' hsub
    refine ⟨⟨⟨ip, rfl⟩, fun j => ⟨fun hj => ?_, fun hj => ?_⟩⟩, fun j hj => hsub j (hpresent j hj)⟩
    · exact ⟨hsub j ((hup j).mp hj).1, ((hup j).mp hj).2⟩
    · exact (hup j).mpr ⟨hpresent j hj.2, hj.2⟩
  unfold limaInitIp at hinit
  split at hinit
  · obtain ⟨rfl, rfl⟩ := Prod.mk.inj hinit
    exact hkeep _ hsub
  · split at hinit
    · obtain ⟨rfl, rfl⟩ := Prod.mk.inj hinit
      refine ⟨⟨⟨_, rfl⟩, fun j => ?_⟩, fun j hj => ?_⟩
      · by_cases hij : j = i
        · subst hij
          simp [setIp]
        · have := hup j
          simp [setIp, hij, this]
      · by_cases hij : j = i
        · exact hij ▸ List.mem_cons_self
        · have hold : (ip j).present = true := by simpa [setIp, hij] using hj
          exact List.mem_cons_of_mem i (hpresent j hold)
    · obtain ⟨rfl, rfl⟩ := Prod.mk.inj hinit
      exact hkeep _ hsub

theorem limaDeviceInitIps_fits {d' : PowerDev} {env : InitEnv} {r : Option Errno}
    (hon : d.power = .on d.reset d.regulator) (hip : ∀ i, d.ip i = ⟨false, false⟩)
    (hgp : d.gpPipe = false) (hpp : d.ppPipe = false)
    (h : d.limaDeviceInitIps env = (d', r)) :
    d'.Fits (PowerPhase.after .absent .active r) := by
  have hstart : UpWithin d [] d ∧ ∀ i, (d.ip i).present = true → i ∈ [] := by
    refine ⟨⟨⟨d.ip, rfl⟩, fun i => ?_⟩, fun i hi => ?_⟩
    · simp [hip i]
    · rw [hip i] at hi
      cases hi
  unfold limaDeviceInitIps at h
  split at h
  · obtain ⟨rfl, rfl⟩ := Prod.mk.inj h
    exact hstart.1.initErrOut4 hon hgp hpp
  cases hloop : forIps (fun d i => d.limaInitIp env i) LimaIpId.all [] d with
  | mk d₁ x =>
    obtain ⟨done, r₁⟩ := x
    obtain ⟨⟨hwithin, hpresent⟩, hdone⟩ := forIps_rule
      (I := fun done x => UpWithin d done x ∧ ∀ i, (x.ip i).present = true → i ∈ done)
      (fun i done d₁ d₂ r hi hf => limaInitIp_within hi hf) _ _ _ _ _ _ hstart hloop
    rw [hloop] at h
    cases r₁ with
    | some e =>
        obtain ⟨rfl, rfl⟩ := Prod.mk.inj h
        exact hwithin.initErrOut4 hon hgp hpp
    | none =>
        have hactive : ∀ i, (d₁.ip i).up = (d₁.ip i).present := by
          intro i
          have hup := hwithin.2 i
          have hpres := hpresent i
          cases hp : (d₁.ip i).present with
          | true => exact hup.mpr ⟨hpres hp, hp⟩
          | false =>
              by_contra hne
              have := (hup.mp (by simpa using hne)).2
              rw [hp] at this
              cases this
        obtain ⟨⟨ip, rfl⟩, hup⟩ := hwithin
        simp only [limaInitGpPipe, limaInitPpPipe] at h
        cases hgpErr : env.gpSched.or env.gpPipe with
        | some e =>
            rw [hgpErr] at h
            obtain ⟨rfl, rfl⟩ := Prod.mk.inj h
            exact UpWithin.initErrOut4 ⟨⟨ip, rfl⟩, hup⟩ hon hgp hpp
        | none =>
            rw [hgpErr] at h
            cases hppErr : env.ppSched.or env.ppPipe with
            | some e =>
                rw [hppErr] at h
                obtain ⟨rfl, rfl⟩ := Prod.mk.inj h
                exact UpWithin.initErrOut4 (x := { d with gpPipe := false }) ⟨⟨ip, rfl⟩, hup⟩
                  hon rfl hpp
            | none =>
                rw [hppErr] at h
                obtain ⟨rfl, rfl⟩ := Prod.mk.inj h
                exact ⟨hon, hactive⟩

/-- A probe that leaves no part of the enable sequence out gives back all it took if it
fails. -/
theorem limaDeviceInit_fits {id : GpuId} {d' : PowerDev} {env : InitEnv} {r : Option Errno}
    (hskip : ¬ env.Skips) (h : (zeroed id .off).limaDeviceInit env = (d', r)) :
    d'.Fits (PowerPhase.after .absent .active r) := by
  have hzero : (zeroed id .off).Fits .absent :=
    ⟨rfl, fun _ => rfl, rfl, rfl, rfl, rfl⟩
  simp only [limaDeviceInit, limaClkInit] at h
  cases hget : env.getBus.or env.getCore with
  | some e =>
      rw [hget] at h
      obtain ⟨rfl, rfl⟩ := Prod.mk.inj h
      exact hzero
  | none =>
      obtain ⟨hbus, hcore⟩ := Option.or_eq_none_iff.mp hget
      rw [hget] at h
      cases hreset : env.getReset with
      | error e =>
          rw [hreset] at h
          obtain ⟨rfl, rfl⟩ := Prod.mk.inj h
          exact hzero
      | ok reset =>
          rw [hreset] at h
          have hskip' : ¬ env.clk.Skips reset := fun hs =>
            hskip ⟨hbus, hcore, reset, hreset, hs⟩
          rcases limaClkEnable_spec (d := { zeroed id .off with reset := reset }) env.clk rfl
            with ⟨e, he⟩ | ⟨p, hp, hclocked⟩
          · simp only [he] at h
            obtain ⟨rfl, rfl⟩ := Prod.mk.inj h
            exact hzero
          obtain rfl := hclocked.mpr hskip'
          simp only [hp] at h
          rcases limaRegulatorInit_spec (d := { zeroed id .off with
              reset := reset
              power := .clocked reset }) env rfl with ⟨e, reg, he⟩ | ⟨reg, hreg⟩
          · simp only [he] at h
            obtain ⟨rfl, rfl⟩ := Prod.mk.inj h
            rw [limaClkDisable_clocked rfl]
            exact hzero
          simp only [hreg] at h
          split at h
          · obtain ⟨rfl, rfl⟩ := Prod.mk.inj h
            rw [powerDown rfl]
            exact hzero
          split at h
          · split at h
            · obtain ⟨rfl, rfl⟩ := Prod.mk.inj h
              exact initErrOut2_fits rfl (fun _ => rfl) rfl rfl rfl
            · exact limaDeviceInitIps_fits rfl (fun _ => rfl) rfl rfl h
          · exact limaDeviceInitIps_fits rfl (fun _ => rfl) rfl rfl h

/-! ## Suspend, resume and removal -/

/-- A device all of whose present blocks are up. -/
theorem UpWithin.all (hup : ∀ i, (d.ip i).up = (d.ip i).present) :
    UpWithin d LimaIpId.all.reverse d := by
  refine ⟨⟨d.ip, rfl⟩, fun i => ?_⟩
  rw [hup i]
  simp [LimaIpId.mem_all]

theorem limaDeviceFini_fits (h : d.Fits .active) : d.limaDeviceFini.Fits .absent := by
  obtain ⟨hon, hup⟩ := h
  exact UpWithin.initErrOut4 (UpWithin.all (d := d.limaFiniPpPipe.limaFiniGpPipe) hup) hon
    rfl rfl

theorem limaDeviceSuspend_fits {busy : Bool} {devfreq r : Option Errno} {d' : PowerDev}
    (hd : d.Fits .active) (h : d.limaDeviceSuspend busy devfreq = (d', r)) :
    d'.Fits (PowerPhase.after .active .suspended r) := by
  obtain ⟨hon, hup⟩ := hd
  unfold limaDeviceSuspend at h
  split at h
  · obtain ⟨rfl, rfl⟩ := Prod.mk.inj h
    exact ⟨hon, hup⟩
  split at h
  · obtain ⟨rfl, rfl⟩ := Prod.mk.inj h
    exact ⟨hon, hup⟩
  · obtain ⟨rfl, rfl⟩ := Prod.mk.inj h
    obtain ⟨ip, hdown, hdowns⟩ := (UpWithin.all hup).down
    have hoff := powerDown (d := { d with ip := ip }) hon
    rw [limaSuspendIp_eq, hdown, hoff]
    exact ⟨rfl, hdowns⟩

/-- What the loop of `lima_resume_ip` keeps. -/
theorem limaResumeIp_within {d₀ d' : PowerDev} {env : ResumeEnv} {i : LimaIpId}
    {done : List LimaIpId} {r : Option Errno} (h : UpWithin d₀ done d)
    (hresume : d.limaResumeIp env i = (d', r)) :
    UpWithin d₀ (if r = none then i :: done else done) d' := by
  obtain ⟨⟨ip, rfl⟩, hup⟩ := h
  unfold limaResumeIp at hresume
  split at hresume
  · rename_i hpresent
    split at hresume
    · obtain ⟨rfl, rfl⟩ := Prod.mk.inj hresume
      exact ⟨⟨ip, rfl⟩, hup⟩
    · obtain ⟨rfl, rfl⟩ := Prod.mk.inj hresume
      refine ⟨⟨_, rfl⟩, fun j => ?_⟩
      by_cases hij : j = i
      · subst hij
        simpa [setIp] using hpresent
      · have := hup j
        simp [setIp, hij, this]
  · rename_i habsent
    obtain ⟨rfl, rfl⟩ := Prod.mk.inj hresume
    refine ⟨⟨ip, rfl⟩, fun j => ?_⟩
    by_cases hij : j = i
    · subst hij
      have := hup j
      simp_all
    · have := hup j
      simp [hij, this]

theorem limaDeviceResume_fits {env : ResumeEnv} {r : Option Errno} {d' : PowerDev}
    (hd : d.Fits .suspended) (hskip : ¬ env.clk.Skips d.reset)
    (h : d.limaDeviceResume env = (d', r)) :
    d'.Fits (PowerPhase.after .suspended .active r) := by
  obtain ⟨hoff, hup⟩ := hd
  unfold limaDeviceResume at h
  rcases limaClkEnable_spec env.clk hoff with ⟨e, he⟩ | ⟨p, hp, hclocked⟩
  · rw [he] at h
    obtain ⟨rfl, rfl⟩ := Prod.mk.inj h
    exact ⟨hoff, hup⟩
  obtain rfl := hclocked.mpr hskip
  rw [hp] at h
  rcases limaRegulatorEnable_spec (d := { d with power := .clocked d.reset })
    env.regulatorEnable rfl with ⟨e, he⟩ | hon
  · simp only [he] at h
    obtain ⟨rfl, rfl⟩ := Prod.mk.inj h
    rw [limaClkDisable_clocked rfl]
    exact ⟨rfl, hup⟩
  simp only [hon] at h
  cases hloop : forIps (fun d i => d.limaResumeIp env i) LimaIpId.all []
      { d with power := .on d.reset d.regulator } with
  | mk d₁ x =>
    obtain ⟨done, r₁⟩ := x
    obtain ⟨hwithin, hdone⟩ := forIps_rule
      (fun i done d₁ d₂ r hi hf => limaResumeIp_within hi hf) _ _ _ _ _ _
      (show UpWithin { d with power := .on d.reset d.regulator } []
          { d with power := .on d.reset d.regulator } from
        ⟨⟨d.ip, rfl⟩, fun i => by simp [hup i]⟩) hloop
    simp only [hloop] at h
    cases hr : r₁.or env.devfreq with
    | some e =>
        rw [hr] at h
        obtain ⟨rfl, rfl⟩ := Prod.mk.inj h
        obtain ⟨ip, hdown, hdowns⟩ := hwithin.down
        rw [limaSuspendIp_eq, hdown, powerDown rfl]
        exact ⟨rfl, hdowns⟩
    | none =>
        rw [hr] at h
        obtain ⟨rfl, rfl⟩ := Prod.mk.inj h
        have hall := hdone (Option.or_eq_none_iff.mp hr).1
        obtain ⟨⟨ip, rfl⟩, hiff⟩ := hwithin
        refine ⟨rfl, fun i => ?_⟩
        have hi := hiff i
        rw [hall] at hi
        simp only [List.append_nil, List.mem_reverse, LimaIpId.mem_all, true_and] at hi
        exact Bool.eq_iff_iff.mpr hi

/-- Disabling gives back what enabling took exactly if enabling left nothing out. -/
theorem limaClkDisable_enable {env : ClkEnv} (h : d.power = .off)
    (hok : (d.limaClkEnable env).2 = none) :
    (d.limaClkEnable env).1.limaClkDisable.power = .off ↔ ¬ env.Skips d.reset := by
  rcases limaClkEnable_spec env h with ⟨e, he⟩ | ⟨p, hp, hclocked⟩
  · rw [he] at hok
    cases hok
  rw [hp, ← hclocked]
  constructor
  · intro hoff
    rcases d with ⟨id, reset, regulator, emptyVm, dlbuCpu, ip, gpPipe, ppPipe, power⟩
    rcases p with ⟨bus, core, line, supply, negative⟩
    cases reset <;>
      simp only [limaClkDisable, Power.off, Power.clocked, Power.assert, Power.disableCore,
        Power.disableBus, Power.mk.injEq, if_true, Bool.false_eq_true, if_false] at hoff ⊢
    · simp_all
      omega
    · simp_all
      omega
  · rintro rfl
    rw [limaClkDisable_clocked rfl]

end PowerDev

/-! ## Main result -/

variable {s : PowerSys}

theorem PowerSys.fits_of_via (h : powerLts.Via PowerSafe s) : s.dev.Fits s.phase := by
  refine Lts.Via.invariant (I := fun s => s.dev.Fits s.phase) (fun s hs => ?_)
    (fun s e s' _ hi hok hstep => ?_) h
  · obtain ⟨id, rfl⟩ := hs
    exact ⟨rfl, fun _ => rfl, rfl, rfl, rfl, rfl⟩
  · cases e with
    | init id env =>
        simp only [powerLts, powerStep] at hstep
        split at hstep
        · rename_i habsent
          obtain rfl := Option.some.inj hstep
          rw [habsent] at hi ⊢
          rw [hi.1]
          exact PowerDev.limaDeviceInit_fits hok rfl
        · cases hstep
    | suspend busy devfreq =>
        have hactive : s.phase = .active := hok
        simp only [powerLts, powerStep] at hstep
        split at hstep
        · cases hstep
        · obtain rfl := Option.some.inj hstep
          rw [hactive] at hi ⊢
          exact PowerDev.limaDeviceSuspend_fits hi rfl
    | resume env =>
        obtain ⟨hsuspended, hskip⟩ := hok
        simp only [powerLts, powerStep] at hstep
        split at hstep
        · cases hstep
        · obtain rfl := Option.some.inj hstep
          rw [hsuspended] at hi ⊢
          exact PowerDev.limaDeviceResume_fits hi hskip rfl
    | fini =>
        have hactive : s.phase = .active := hok
        simp only [powerLts, powerStep] at hstep
        split at hstep
        · cases hstep
        · obtain rfl := Option.some.inj hstep
          rw [hactive] at hi
          exact PowerDev.limaDeviceFini_fits hi

/-- Every step succeeds, with the tunable at `stage`, but for the `init` of block `bad`. -/
def initEnv (stage : Option ℤ) (bad : Option LimaIpId) : InitEnv where
  getBus := none
  getCore := none
  getReset := .ok true
  clk := ⟨stage, none, none, none, none⟩
  getRegulator := some .enodev
  regulatorEnable := none
  vmCreateOk := true
  dlbuAllocOk := true
  ioremap := none
  irq := fun _ => none
  ipInit := fun i => if some i = bad then some .eother else none
  gpSched := none
  gpPipe := none
  ppSched := none
  ppPipe := none

def probedSys : PowerSys := ⟨.zeroed .mali400 .off, .absent⟩

end Lima
