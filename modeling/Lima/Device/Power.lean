import Lima.Vm.Sys

/-!
# Clocks, reset and the parts of the device

`lima_device.c`: the staged `lima_clk_enable`, the regulator, the table of IP blocks,
and the bring-up and tear-down of the device built from them. Every step that can fail
takes its outcome from an environment. A block's callbacks are seen through whether they
have left it `up`.
-/

namespace Lima

/-! ## What the driver contributes -/

/-- Enables less disables of each clock and of the supply, and deasserts less asserts of
the reset line; `negative` tells whether one of them has ever been negative. -/
structure Power where
  bus : ℤ
  core : ℤ
  reset : ℤ
  supply : ℤ
  negative : Bool
deriving DecidableEq

namespace Power

def off : Power := ⟨0, 0, 0, 0, false⟩

variable (p : Power)

def enableBus : Power := { p with bus := p.bus + 1 }
def enableCore : Power := { p with core := p.core + 1 }
def deassert : Power := { p with reset := p.reset + 1 }
def enableSupply : Power := { p with supply := p.supply + 1 }

def disableBus : Power :=
  { p with
    bus := p.bus - 1
    negative := p.negative || decide (p.bus < 1) }

def disableCore : Power :=
  { p with
    core := p.core - 1
    negative := p.negative || decide (p.core < 1) }

def assert : Power :=
  { p with
    reset := p.reset - 1
    negative := p.negative || decide (p.reset < 1) }

def disableSupply : Power :=
  { p with
    supply := p.supply - 1
    negative := p.negative || decide (p.supply < 1) }

end Power

/-! ## The IP blocks -/

/-- `enum lima_ip_id`. -/
inductive LimaIpId where
  | pmu | l2Cache0 | l2Cache1 | l2Cache2 | gp
  | pp0 | pp1 | pp2 | pp3 | pp4 | pp5 | pp6 | pp7
  | gpmmu | ppmmu0 | ppmmu1 | ppmmu2 | ppmmu3 | ppmmu4 | ppmmu5 | ppmmu6 | ppmmu7
  | dlbu | bcast | ppBcast | ppmmuBcast
deriving DecidableEq, Repr

/-- The blocks in the order of their numbers. -/
def LimaIpId.all : List LimaIpId :=
  [.pmu, .l2Cache0, .l2Cache1, .l2Cache2, .gp,
    .pp0, .pp1, .pp2, .pp3, .pp4, .pp5, .pp6, .pp7,
    .gpmmu, .ppmmu0, .ppmmu1, .ppmmu2, .ppmmu3, .ppmmu4, .ppmmu5, .ppmmu6, .ppmmu7,
    .dlbu, .bcast, .ppBcast, .ppmmuBcast]

theorem LimaIpId.mem_all (i : LimaIpId) : i ∈ all := by
  cases i <;> decide

/-- `struct lima_ip_desc`, up to its callbacks; an offset of `-1` is `none`. -/
structure LimaIpDesc where
  mustHave : GpuId → Bool
  offset : GpuId → Option ℕ
  irqName : Option String

/-- `LIMA_IP_DESC`. -/
def LimaIpDesc.entry (mst0 mst1 : Bool) (off0 off1 : Option ℕ) (irq : Option String) :
    LimaIpDesc where
  mustHave id := match id with
    | .mali400 => mst0
    | .mali450 => mst1
  offset id := match id with
    | .mali400 => off0
    | .mali450 => off1
  irqName := irq

/-- The table `lima_ip_desc`. -/
def limaIpDesc : LimaIpId → LimaIpDesc
  | .pmu => .entry false false (some 0x02000) (some 0x02000) (some "pmu")
  | .l2Cache0 => .entry true true (some 0x01000) (some 0x10000) none
  | .l2Cache1 => .entry false true none (some 0x01000) none
  | .l2Cache2 => .entry false false none (some 0x11000) none
  | .gp => .entry true true (some 0x00000) (some 0x00000) (some "gp")
  | .pp0 => .entry true true (some 0x08000) (some 0x08000) (some "pp0")
  | .pp1 => .entry false false (some 0x0A000) (some 0x0A000) (some "pp1")
  | .pp2 => .entry false false (some 0x0C000) (some 0x0C000) (some "pp2")
  | .pp3 => .entry false false (some 0x0E000) (some 0x0E000) (some "pp3")
  | .pp4 => .entry false false none (some 0x28000) (some "pp4")
  | .pp5 => .entry false false none (some 0x2A000) (some "pp5")
  | .pp6 => .entry false false none (some 0x2C000) (some "pp6")
  | .pp7 => .entry false false none (some 0x2E000) (some "pp7")
  | .gpmmu => .entry true true (some 0x03000) (some 0x03000) (some "gpmmu")
  | .ppmmu0 => .entry true true (some 0x04000) (some 0x04000) (some "ppmmu0")
  | .ppmmu1 => .entry false false (some 0x05000) (some 0x05000) (some "ppmmu1")
  | .ppmmu2 => .entry false false (some 0x06000) (some 0x06000) (some "ppmmu2")
  | .ppmmu3 => .entry false false (some 0x07000) (some 0x07000) (some "ppmmu3")
  | .ppmmu4 => .entry false false none (some 0x1C000) (some "ppmmu4")
  | .ppmmu5 => .entry false false none (some 0x1D000) (some "ppmmu5")
  | .ppmmu6 => .entry false false none (some 0x1E000) (some "ppmmu6")
  | .ppmmu7 => .entry false false none (some 0x1F000) (some "ppmmu7")
  | .dlbu => .entry false true none (some 0x14000) none
  | .bcast => .entry false true none (some 0x13000) none
  | .ppBcast => .entry false true none (some 0x16000) (some "pp")
  | .ppmmuBcast => .entry false true none (some 0x15000) none

/-- `struct lima_ip`: the block is `up` after its `init` or `resume`, until its `fini` or
`suspend`. -/
structure LimaIp where
  present : Bool
  up : Bool
deriving DecidableEq

/-! ## The device -/

/-- `struct lima_device`, up to what it takes to power it: which of its pointers are
set, and which of its pipes are. -/
structure PowerDev where
  id : GpuId
  reset : Bool
  regulator : Bool
  emptyVm : Bool
  dlbuCpu : Bool
  ip : LimaIpId → LimaIp
  gpPipe : Bool
  ppPipe : Bool
  power : Power

/-- The zeroed device of a probe. -/
def PowerDev.zeroed (id : GpuId) (p : Power) : PowerDev where
  id := id
  reset := false
  regulator := false
  emptyVm := false
  dlbuCpu := false
  ip := fun _ => ⟨false, false⟩
  gpPipe := false
  ppPipe := false
  power := p

/-- The tunable `hw.lima.clk_stage`, if it is set, and the outcome of each step of
`lima_clk_enable`. -/
structure ClkEnv where
  kenv : Option ℤ
  bus : Option Errno
  forcePllGpu : Option Errno
  core : Option Errno
  deassert : Option Errno

/-- The outcome of each step of `lima_device_init`. A reset line and a supply that the
device tree does not name are no error. -/
structure InitEnv where
  getBus : Option Errno
  getCore : Option Errno
  getReset : Except Errno Bool
  clk : ClkEnv
  getRegulator : Option Errno
  regulatorEnable : Option Errno
  vmCreateOk : Bool
  dlbuAllocOk : Bool
  ioremap : Option Errno
  irq : String → Option Errno
  ipInit : LimaIpId → Option Errno
  gpSched : Option Errno
  gpPipe : Option Errno
  ppSched : Option Errno
  ppPipe : Option Errno

structure ResumeEnv where
  clk : ClkEnv
  regulatorEnable : Option Errno
  ipResume : LimaIpId → Option Errno
  devfreq : Option Errno

def limaClkStageNone : ℤ := 0
def limaClkStageBus : ℤ := 1
def limaClkStageCore : ℤ := 2
def limaClkStageFull : ℤ := 3

/-- `lima_clk_stage`. -/
def limaClkStage (kenv : Option ℤ) : ℤ :=
  let stage := kenv.getD limaClkStageFull
  if stage < limaClkStageNone ∨ limaClkStageFull < stage then limaClkStageFull else stage

namespace PowerDev

variable (d : PowerDev)

/-! ## Clocks and reset -/

/-- `lima_clk_enable`. -/
def limaClkEnable (env : ClkEnv) : PowerDev × Option Errno :=
  let stage := limaClkStage env.kenv
  let p := d.power
  if stage < limaClkStageBus then (d, none)
  else
    match env.bus with
    | some e => (d, some e)
    | none =>
        let p := p.enableBus
        if stage < limaClkStageCore then ({ d with power := p }, none)
        else
          match env.forcePllGpu.or env.core with
          | some e => ({ d with power := p.disableBus }, some e)
          | none =>
              let p := p.enableCore
              if stage < limaClkStageFull then ({ d with power := p }, none)
              else if d.reset then
                match env.deassert with
                | some e => ({ d with power := p.disableCore.disableBus }, some e)
                | none => ({ d with power := p.deassert }, none)
              else ({ d with power := p }, none)

/-- `lima_clk_disable`. -/
def limaClkDisable : PowerDev :=
  let p := if d.reset then d.power.assert else d.power
  { d with power := p.disableCore.disableBus }

/-- `lima_clk_init`. -/
def limaClkInit (env : InitEnv) : PowerDev × Option Errno :=
  match env.getBus.or env.getCore with
  | some e => (d, some e)
  | none =>
      match env.getReset with
      | .error e => (d, some e)
      | .ok reset => { d with reset := reset }.limaClkEnable env.clk

/-! ## The regulator -/

/-- `lima_regulator_enable`. -/
def limaRegulatorEnable (r : Option Errno) : PowerDev × Option Errno :=
  if !d.regulator then (d, none)
  else
    match r with
    | some e => (d, some e)
    | none => ({ d with power := d.power.enableSupply }, none)

/-- `lima_regulator_disable`, which `lima_regulator_fini` calls. -/
def limaRegulatorDisable : PowerDev :=
  if d.regulator then { d with power := d.power.disableSupply } else d

/-- `lima_regulator_init`. -/
def limaRegulatorInit (env : InitEnv) : PowerDev × Option Errno :=
  match env.getRegulator with
  | some .enodev => ({ d with regulator := false }, none)
  | some e => ({ d with regulator := false }, some e)
  | none => { d with regulator := true }.limaRegulatorEnable env.regulatorEnable

/-! ## IP blocks -/

def setIp (i : LimaIpId) (x : LimaIp) : PowerDev :=
  { d with ip := Function.update d.ip i x }

/-- `lima_init_ip`. -/
def limaInitIp (env : InitEnv) (i : LimaIpId) : PowerDev × Option Errno :=
  match (limaIpDesc i).offset d.id with
  | none => (d, none)
  | some _ =>
      match ((limaIpDesc i).irqName.bind env.irq).or (env.ipInit i) with
      | none => (d.setIp i ⟨true, true⟩, none)
      | some e => (d, if (limaIpDesc i).mustHave d.id then some e else none)

/-- `lima_fini_ip`. -/
def limaFiniIp (i : LimaIpId) : PowerDev :=
  if (d.ip i).present then d.setIp i { d.ip i with up := false } else d

/-- `lima_resume_ip`. -/
def limaResumeIp (env : ResumeEnv) (i : LimaIpId) : PowerDev × Option Errno :=
  if (d.ip i).present then
    match env.ipResume i with
    | some e => (d, some e)
    | none => (d.setIp i { d.ip i with up := true }, none)
  else (d, none)

/-- `lima_suspend_ip`. -/
def limaSuspendIp (i : LimaIpId) : PowerDev :=
  if (d.ip i).present then d.setIp i { d.ip i with up := false } else d

/-- A loop over blocks that stops at the first error, with the blocks it has done, the
last one first. -/
def forIps (f : PowerDev → LimaIpId → PowerDev × Option Errno) :
    List LimaIpId → List LimaIpId → PowerDev → PowerDev × List LimaIpId × Option Errno
  | [], done, d => (d, done, none)
  | i :: is, done, d =>
      match f d i with
      | (d, some e) => (d, done, some e)
      | (d, none) => forIps f is (i :: done) d

/-! ## Pipes -/

/-- `lima_init_gp_pipe`; after a failure of `lima_gp_pipe_init` its scheduler goes again. -/
def limaInitGpPipe (env : InitEnv) : PowerDev × Option Errno :=
  match env.gpSched.or env.gpPipe with
  | some e => (d, some e)
  | none => ({ d with gpPipe := true }, none)

/-- `lima_init_pp_pipe`. -/
def limaInitPpPipe (env : InitEnv) : PowerDev × Option Errno :=
  match env.ppSched.or env.ppPipe with
  | some e => (d, some e)
  | none => ({ d with ppPipe := true }, none)

def limaFiniGpPipe : PowerDev := { d with gpPipe := false }
def limaFiniPpPipe : PowerDev := { d with ppPipe := false }

/-! ## Bring-up and tear-down -/

/-- The labels `err_out2` to `err_out0` of `lima_device_init`, after which the error is
returned. -/
def initErrOut2 : PowerDev :=
  { d with emptyVm := false }.limaRegulatorDisable.limaClkDisable

/-- The labels `err_out4` and `err_out3`. -/
def initErrOut4 (done : List LimaIpId) : PowerDev :=
  let d := done.foldl limaFiniIp d
  let d := if d.dlbuCpu then { d with dlbuCpu := false } else d
  d.initErrOut2

/-- `lima_device_init` from the mapping of its registers on. -/
def limaDeviceInitIps (env : InitEnv) : PowerDev × Option Errno :=
  match env.ioremap with
  | some e => (d.initErrOut4 [], some e)
  | none =>
      match forIps (fun d i => d.limaInitIp env i) LimaIpId.all [] d with
      | (d, done, some e) => (d.initErrOut4 done, some e)
      | (d, done, none) =>
          match d.limaInitGpPipe env with
          | (d, some e) => (d.initErrOut4 done, some e)
          | (d, none) =>
              match d.limaInitPpPipe env with
              | (d, some e) => (d.limaFiniGpPipe.initErrOut4 done, some e)
              | (d, none) => (d, none)

/-- `lima_device_init`. -/
def limaDeviceInit (env : InitEnv) : PowerDev × Option Errno :=
  match d.limaClkInit env with
  | (d, some e) => (d, some e)
  | (d, none) =>
      match d.limaRegulatorInit env with
      | (d, some e) => (d.limaClkDisable, some e)
      | (d, none) =>
          if !env.vmCreateOk then (d.limaRegulatorDisable.limaClkDisable, some .enomem)
          else
            let d := { d with emptyVm := true }
            match d.id with
            | .mali450 =>
                if !env.dlbuAllocOk then (d.initErrOut2, some .enomem)
                else { d with dlbuCpu := true }.limaDeviceInitIps env
            | .mali400 => d.limaDeviceInitIps env

/-- `lima_device_fini`. -/
def limaDeviceFini : PowerDev :=
  let d := d.limaFiniPpPipe.limaFiniGpPipe
  let d := LimaIpId.all.reverse.foldl limaFiniIp d
  let d := if d.dlbuCpu then { d with dlbuCpu := false } else d
  { d with emptyVm := false }.limaRegulatorDisable.limaClkDisable

/-! ## Suspend and resume -/

/-- `lima_device_resume`. -/
def limaDeviceResume (env : ResumeEnv) : PowerDev × Option Errno :=
  match d.limaClkEnable env.clk with
  | (d, some e) => (d, some e)
  | (d, none) =>
      match d.limaRegulatorEnable env.regulatorEnable with
      | (d, some e) => (d.limaClkDisable, some e)
      | (d, none) =>
          match forIps (fun d i => d.limaResumeIp env i) LimaIpId.all [] d with
          | (d, done, r) =>
              match r.or env.devfreq with
              | some e =>
                  ((done.foldl limaSuspendIp d).limaRegulatorDisable.limaClkDisable, some e)
              | none => (d, none)

/-- `lima_device_suspend`; `busy` tells whether a pipe has a job at the hardware. -/
def limaDeviceSuspend (busy : Bool) (devfreq : Option Errno) : PowerDev × Option Errno :=
  if busy then (d, some .eother)
  else
    match devfreq with
    | some e => (d, some e)
    | none =>
        ((LimaIpId.all.reverse.foldl limaSuspendIp d).limaRegulatorDisable.limaClkDisable,
          none)

end PowerDev

end Lima
