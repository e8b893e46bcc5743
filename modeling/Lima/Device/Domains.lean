import Lima.Device.PowerRuns
import Lima.Device.Mmu

/-!
# Power domains

Inside the GPU the blocks have power domains of their own, which the PMU switches. A read
of a register of a block whose domain is off is never answered, and the CPU that makes it
stalls; a write is posted. Here the callbacks of the blocks make their reads, `none` is a
read without an answer, and the device of the power model gets its PMU. The rest of
`lima_device_init` and of the other calls stays as it is there.
-/

namespace Lima

/-! ## Blocks and domains -/

/-- The `func` of a block in `LIMA_IP_DESC`: whose callbacks it has. -/
inductive IpFunc where
  | pmu | l2Cache | gp | pp | mmu | dlbu | bcast | ppBcast
deriving DecidableEq, Repr

def LimaIpId.func : LimaIpId → IpFunc
  | .pmu => .pmu
  | .l2Cache0 | .l2Cache1 | .l2Cache2 => .l2Cache
  | .gp => .gp
  | .pp0 | .pp1 | .pp2 | .pp3 | .pp4 | .pp5 | .pp6 | .pp7 => .pp
  | .gpmmu | .ppmmu0 | .ppmmu1 | .ppmmu2 | .ppmmu3 | .ppmmu4 | .ppmmu5 | .ppmmu6 | .ppmmu7
  | .ppmmuBcast => .mmu
  | .dlbu => .dlbu
  | .bcast => .bcast
  | .ppBcast => .ppBcast

/-- The bits of the domains that power a block, any one of which is enough. On a Mali-450
a domain starts the L2 cache of its blocks with them. -/
def powerDomains : GpuId → LimaIpId → List ℕ
  | _, .gp | _, .gpmmu => [0]
  | .mali400, .l2Cache0 => [1]
  | .mali400, .pp0 | .mali400, .ppmmu0 => [2]
  | .mali400, .pp1 | .mali400, .ppmmu1 => [3]
  | .mali400, .pp2 | .mali400, .ppmmu2 => [4]
  | .mali400, .pp3 | .mali400, .ppmmu3 => [5]
  | .mali450, .l2Cache0 => [0]
  | .mali450, .l2Cache1 => [1, 2]
  | .mali450, .l2Cache2 => [3]
  | .mali450, .pp0 | .mali450, .ppmmu0 => [1]
  | .mali450, .pp1 | .mali450, .ppmmu1 | .mali450, .pp2 | .mali450, .ppmmu2
  | .mali450, .pp3 | .mali450, .ppmmu3 => [2]
  | .mali450, .pp4 | .mali450, .ppmmu4 | .mali450, .pp5 | .mali450, .ppmmu5
  | .mali450, .pp6 | .mali450, .ppmmu6 | .mali450, .pp7 | .mali450, .ppmmu7 => [3]
  | _, _ => []

/-- The block's registers are answered for, with `LIMA_PMU_STATUS` as given: there the bit
of a domain that is off is set. -/
def powered (id : GpuId) (status : BitVec 32) (i : LimaIpId) : Bool :=
  (powerDomains id i).isEmpty || (powerDomains id i).any fun b => !status.getLsbD b

/-! ## The device -/

/-- The status register of the PMU, and the `data.mask` of its `lima_ip`. -/
structure Pmu where
  status : BitVec 32
  mask : BitVec 32
deriving DecidableEq

structure PmuDev where
  dev : PowerDev
  pmu : Pmu

/-- What each read of `LIMA_PMU_INT_RAWSTAT` shows of a command, and what it leaves of the
status register if it is not seen to end. -/
structure PmuEnv where
  done : ℕ → Bool
  left : BitVec 32

/-- What a block answers: the PMU its command, a processor its soft reset in time, an MMU
what it is asked; and whether its interrupt line can be requested. -/
structure IpEnv where
  pmu : PmuEnv
  resetOk : Bool
  mmu : MmuEnv
  requestIrq : Option Errno

/-- `lima_device_init`, with the status register as it is once the GPU is clocked and out
of reset; the `ipInit` of `init` is not looked at. -/
structure PmuInitEnv where
  init : InitEnv
  status : BitVec 32
  ip : LimaIpId → IpEnv

/-- The status of the domains once a PMU that cannot be used, or does not end its command,
has been tried. -/
def PmuInitEnv.left (env : PmuInitEnv) : BitVec 32 :=
  if env.init.irq "pmu" = none then (env.ip .pmu).pmu.left else env.status

/-- `lima_device_resume`; the `ipResume` of `resume` is not looked at. -/
structure PmuResumeEnv where
  resume : ResumeEnv
  status : BitVec 32
  ip : LimaIpId → IpEnv

namespace PmuDev

variable (x : PmuDev)

/-- A read of a register of block `i`. -/
def read (i : LimaIpId) : Option Unit :=
  if powered x.dev.id x.pmu.status i then some () else none

/-! ## The PMU -/

/-- The loop of `lima_pmu_wait_cmd`, with `n` polls left of which this is the `k`-th. -/
def pmuPoll (done : ℕ → Bool) : ℕ → ℕ → Option Errno
  | 0, _ => some .etimedout
  | n + 1, k => if done k then none else pmuPoll done n (k + 1)

/-- `lima_pmu_wait_cmd`. -/
def limaPmuWaitCmd (env : PmuEnv) : Option Errno := pmuPoll env.done 100 0

/-- `lima_pmu_send_cmd` of `LIMA_PMU_POWER_UP`. -/
def limaPmuPowerUp (env : PmuEnv) (mask : BitVec 32) : PmuDev × Option Errno :=
  match limaPmuWaitCmd env with
  | none => ({ x with pmu.status := x.pmu.status &&& ~~~mask }, none)
  | some e => ({ x with pmu.status := env.left }, some e)

/-- `lima_pmu_init`, which `lima_pmu_resume` calls. -/
def limaPmuInit (env : PmuEnv) : PmuDev × Option Errno :=
  let stat := x.pmu.status
  if stat = 0#32 then (x, none) else x.limaPmuPowerUp env stat

/-- `lima_pmu_get_ip_mask`. -/
def limaPmuGetIpMask : BitVec 32 :=
  let present := fun i => (x.dev.ip i).present
  let bit := fun (b : ℕ) (p : Bool) => if p then 1#32 <<< b else 0#32
  match x.dev.id with
  | .mali400 =>
      1#32 <<< 0 ||| 1#32 <<< 1 ||| bit 2 (present .pp0) ||| bit 3 (present .pp1) |||
        bit 4 (present .pp2) ||| bit 5 (present .pp3)
  | .mali450 =>
      1#32 <<< 0 ||| bit 1 (present .pp0) |||
        bit 2 ([LimaIpId.pp1, .pp2, .pp3].any present) |||
        bit 3 ([LimaIpId.pp4, .pp5, .pp6, .pp7].any present)

/-- `lima_pmu_fini`, which `lima_pmu_suspend` calls. The domains count as off from the
command on; that its end may not be seen on a Mali-450 is only logged. -/
def limaPmuFini : PmuDev :=
  let mask := if x.pmu.mask = 0#32 then x.limaPmuGetIpMask else x.pmu.mask
  let stat := ~~~x.pmu.status &&& mask
  { x with pmu := ⟨x.pmu.status ||| stat, mask⟩ }

/-! ## The other blocks -/

/-- `lima_l2_cache_flush`: a command, then polls. All its callers ignore how it ends. -/
def limaL2CacheFlush (i : LimaIpId) : Option Unit := x.read i

/-- `lima_l2_cache_init`, which `lima_l2_cache_resume` calls. -/
def limaL2CacheInit (i : LimaIpId) : Option (Option Errno) :=
  if i = .l2Cache2 ∧
      ¬ [LimaIpId.pp4, .pp5, .pp6, .pp7].any (fun i => (x.dev.ip i).present) then
    some (some .enodev)
  else do
    x.read i
    x.limaL2CacheFlush i
    return none

/-- `lima_gp_hw_init` and `lima_pp_hw_init`: a soft reset, then polls for its end. -/
def limaHwInit (env : IpEnv) (i : LimaIpId) : Option (Option Errno) := do
  x.read i
  return if env.resetOk then none else some .etimedout

/-- `lima_gp_init` and `lima_pp_init`. -/
def limaProcessorInit (env : IpEnv) (i : LimaIpId) : Option (Option Errno) := do
  -- `print_version`
  x.read i
  match ← x.limaHwInit env i with
  | some e => return some e
  | none =>
      match env.requestIrq with
      | some e => return some e
      | none =>
          x.read i
          return none

/-- `lima_mmu_hw_init`. -/
def limaMmuHwInit (env : MmuEnv) (i : LimaIpId) : Option (Option Errno) := do
  x.read i
  if env.left ≠ 0 then return some .etimedout
  x.read i
  return if env.paging then none else some .etimedout

/-- `lima_mmu_init`. -/
def limaMmuInit (env : MmuEnv) (i : LimaIpId) : Option (Option Errno) := do
  if i = .ppmmuBcast then return none
  x.read i
  if env.readBack ≠ 0xCAFEB000 then return some .eio
  match env.irq with
  | some e => return some e
  | none => x.limaMmuHwInit env i

/-- `lima_mmu_resume`. -/
def limaMmuResume (env : MmuEnv) (i : LimaIpId) : Option (Option Errno) :=
  if i = .ppmmuBcast then some none else x.limaMmuHwInit env i

/-! ## The callbacks -/

/-- `desc->init`. Those of the DLBU and of the broadcast unit do nothing, and that of the
PP broadcast requests an interrupt line. -/
def init (env : IpEnv) (i : LimaIpId) : Option (PmuDev × Option Errno) :=
  match i.func with
  | .pmu => some (x.limaPmuInit env.pmu)
  | .l2Cache => (x.limaL2CacheInit i).map (x, ·)
  | .gp | .pp => (x.limaProcessorInit env i).map (x, ·)
  | .mmu => (x.limaMmuInit env.mmu i).map (x, ·)
  | .dlbu | .bcast => some (x, none)
  | .ppBcast => some (x, env.requestIrq)

/-- `desc->resume`. -/
def resume (env : IpEnv) (i : LimaIpId) : Option (PmuDev × Option Errno) :=
  match i.func with
  | .pmu => some (x.limaPmuInit env.pmu)
  | .l2Cache => (x.limaL2CacheInit i).map (x, ·)
  | .gp | .pp => (x.limaHwInit env i).map (x, ·)
  | .mmu => (x.limaMmuResume env.mmu i).map (x, ·)
  | .dlbu | .bcast | .ppBcast => some (x, none)

/-- `desc->fini` and `desc->suspend`, of which only those of the PMU do anything. -/
def fini (i : LimaIpId) : PmuDev :=
  match i.func with
  | .pmu => x.limaPmuFini
  | _ => x

/-! ## The calls on a block -/

def setIp (i : LimaIpId) (ip : LimaIp) : PmuDev := { x with dev := x.dev.setIp i ip }

/-- `lima_init_ip`. -/
def limaInitIp (env : PmuInitEnv) (i : LimaIpId) : Option (PmuDev × Option Errno) :=
  match (limaIpDesc i).offset x.dev.id with
  | none => some (x, none)
  | some _ =>
      let optional := fun e : Errno => if (limaIpDesc i).mustHave x.dev.id then some e else none
      match (limaIpDesc i).irqName.bind env.init.irq with
      | some e => some (x, optional e)
      | none => do
          match ← x.init (env.ip i) i with
          | (y, none) => return (y.setIp i ⟨true, true⟩, none)
          | (y, some e) => return (y, optional e)

/-- `lima_fini_ip` and `lima_suspend_ip`. -/
def limaFiniIp (i : LimaIpId) : PmuDev :=
  if (x.dev.ip i).present then (x.fini i).setIp i { x.dev.ip i with up := false } else x

/-- `lima_resume_ip`. -/
def limaResumeIp (env : PmuResumeEnv) (i : LimaIpId) : Option (PmuDev × Option Errno) :=
  if (x.dev.ip i).present then do
    match ← x.resume (env.ip i) i with
    | (y, none) => return (y.setIp i { x.dev.ip i with up := true }, none)
    | (y, some e) => return (y, some e)
  else some (x, none)

/-- The loop of `PowerDev.forIps`, with blocks that may not answer. -/
def forIps (f : PmuDev → LimaIpId → Option (PmuDev × Option Errno)) :
    List LimaIpId → List LimaIpId → PmuDev → Option (PmuDev × List LimaIpId × Option Errno)
  | [], done, x => some (x, done, none)
  | i :: is, done, x =>
      match f x i with
      | none => none
      | some (x, some e) => some (x, done, some e)
      | some (x, none) => forIps f is (i :: done) x

/-! ## Bring-up and tear-down -/

/-- The labels `err_out4` to `err_out0` of `lima_device_init`. -/
def initErrOut4 (done : List LimaIpId) : PmuDev :=
  let x := done.foldl limaFiniIp x
  { x with dev := x.dev.initErrOut4 [] }

/-- `lima_device_init` from the mapping of its registers on. -/
def limaDeviceInitIps (env : PmuInitEnv) : Option (PmuDev × Option Errno) :=
  match env.init.ioremap with
  | some e => some (x.initErrOut4 [], some e)
  | none => do
      let x := { x with pmu.status := env.status }
      match ← forIps (fun x i => x.limaInitIp env i) LimaIpId.all [] x with
      | (x, done, some e) => return (x.initErrOut4 done, some e)
      | (x, done, none) =>
          match x.dev.limaInitGpPipe env.init with
          | (d, some e) => return ({ x with dev := d }.initErrOut4 done, some e)
          | (d, none) =>
              match d.limaInitPpPipe env.init with
              | (d, some e) => return ({ x with dev := d.limaFiniGpPipe }.initErrOut4 done, some e)
              | (d, none) => return ({ x with dev := d }, none)

/-- `lima_device_init`. -/
def limaDeviceInit (env : PmuInitEnv) : Option (PmuDev × Option Errno) :=
  let back := fun (d : PowerDev) (e : Errno) => some ({ x with dev := d }, some e)
  match x.dev.limaClkInit env.init with
  | (d, some e) => back d e
  | (d, none) =>
      match d.limaRegulatorInit env.init with
      | (d, some e) => back d.limaClkDisable e
      | (d, none) =>
          if !env.init.vmCreateOk then back d.limaRegulatorDisable.limaClkDisable .enomem
          else
            let d := { d with emptyVm := true }
            match d.id with
            | .mali450 =>
                if !env.init.dlbuAllocOk then back d.initErrOut2 .enomem
                else { x with dev := { d with dlbuCpu := true } }.limaDeviceInitIps env
            | .mali400 => { x with dev := d }.limaDeviceInitIps env

/-- `lima_device_fini`. -/
def limaDeviceFini : PmuDev :=
  { x with dev := x.dev.limaFiniPpPipe.limaFiniGpPipe }.initErrOut4 LimaIpId.all.reverse

/-- `lima_device_resume`. -/
def limaDeviceResume (env : PmuResumeEnv) : Option (PmuDev × Option Errno) :=
  match x.dev.limaClkEnable env.resume.clk with
  | (d, some e) => some ({ x with dev := d }, some e)
  | (d, none) =>
      match d.limaRegulatorEnable env.resume.regulatorEnable with
      | (d, some e) => some ({ x with dev := d.limaClkDisable }, some e)
      | (d, none) => do
          let x : PmuDev := ⟨d, { x.pmu with status := env.status }⟩
          match ← forIps (fun x i => x.limaResumeIp env i) LimaIpId.all [] x with
          | (x, done, r) =>
              match r.or env.resume.devfreq with
              | some e =>
                  let x := done.foldl limaFiniIp x
                  return ({ x with dev := x.dev.limaRegulatorDisable.limaClkDisable }, some e)
              | none => return (x, none)

/-- `lima_device_suspend`. -/
def limaDeviceSuspend (busy : Bool) (devfreq : Option Errno) : PmuDev × Option Errno :=
  if busy then (x, some .eother)
  else
    match devfreq with
    | some e => (x, some e)
    | none =>
        let x := LimaIpId.all.reverse.foldl limaFiniIp x
        ({ x with dev := x.dev.limaRegulatorDisable.limaClkDisable }, none)

end PmuDev

end Lima
