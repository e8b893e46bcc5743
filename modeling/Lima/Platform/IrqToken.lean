import Lima.Lib.Lts
import Lima.Basic

/-!
# Interrupt tokens of platform devices

The bridge hands a driver a token for an interrupt: a tag, twelve bits of the
newbus unit and eight of the index. A bare `request_irq` carries the token and no
device, and finds the device by the first match on one list of all the devices the
bridge has attached, whatever driver they belong to. newbus keeps unit numbers
apart within one driver only.
-/

namespace Lima

/-! ## The token -/

def lkpiPlatformIrqTag : ℕ := 0x71D00000
def lkpiPlatformIrqTagMask : ℕ := 0xFFF00000

def lkpiPlatformIrqToken (unit idx : ℕ) : ℕ :=
  lkpiPlatformIrqTag ||| ((unit &&& 0xFFF) <<< 8) ||| (idx &&& 0xFF)

def lkpiPlatformIrqIsToken (irq : ℕ) : Bool :=
  irq &&& lkpiPlatformIrqTagMask == lkpiPlatformIrqTag

def lkpiPlatformIrqIndex (irq : ℕ) : ℕ := irq &&& 0xFF

def lkpiPlatformIrqUnit (irq : ℕ) : ℕ := (irq >>> 8) &&& 0xFFF

theorem and_low (n k : ℕ) : n &&& (2 ^ k - 1) = n % 2 ^ k := Nat.and_two_pow_sub_one_eq_mod n k

theorem irqIndex_eq (irq : ℕ) : lkpiPlatformIrqIndex irq = irq % 256 := and_low irq 8

theorem irqUnit_eq (irq : ℕ) : lkpiPlatformIrqUnit irq = irq / 256 % 4096 := by
  rw [lkpiPlatformIrqUnit, Nat.shiftRight_eq_div_pow]
  exact and_low _ 12

/-- A field below bit `k` has nothing in common with a mask from bit `k` up. -/
theorem and_shiftLeft_of_lt {n k : ℕ} (m : ℕ) (hn : n < 2 ^ k) : n &&& (m <<< k) = 0 := by
  apply Nat.eq_of_testBit_eq
  intro i
  rw [Nat.testBit_and, Nat.testBit_shiftLeft, Nat.zero_testBit]
  by_cases hi : i < k
  · simp [not_le.mpr hi]
  · have hlt : n < 2 ^ i := hn.trans_le (Nat.pow_le_pow_right (by norm_num) (not_lt.mp hi))
    rw [Nat.testBit_lt_two_pow hlt, Bool.false_and]

/-- The three fields do not overlap. -/
theorem irqToken_eq (unit idx : ℕ) :
    lkpiPlatformIrqToken unit idx = 0x71D00000 + (unit % 4096) * 256 + idx % 256 := by
  have hunit : unit &&& 0xFFF = unit % 4096 := and_low unit 12
  have hidx : idx &&& 0xFF = idx % 256 := and_low idx 8
  have hlow : idx % 256 < 2 ^ 8 := Nat.mod_lt _ (by norm_num)
  have hmid : (unit % 4096) <<< 8 < 2 ^ 20 := by
    rw [Nat.shiftLeft_eq]
    omega
  have htag : lkpiPlatformIrqTag = 0x71D <<< 20 := rfl
  rw [lkpiPlatformIrqToken, hunit, hidx, htag, ← Nat.shiftLeft_add_eq_or_of_lt hmid]
  have hsplit : 0x71D <<< 20 + (unit % 4096) <<< 8 = (0x71D * 4096 + unit % 4096) <<< 8 := by
    simp only [Nat.shiftLeft_eq]
    omega
  rw [hsplit, ← Nat.shiftLeft_add_eq_or_of_lt hlow, Nat.shiftLeft_eq]
  omega

theorem irqIndex_token (unit idx : ℕ) :
    lkpiPlatformIrqIndex (lkpiPlatformIrqToken unit idx) = idx % 256 := by
  rw [irqIndex_eq, irqToken_eq]
  omega

theorem irqUnit_token (unit idx : ℕ) :
    lkpiPlatformIrqUnit (lkpiPlatformIrqToken unit idx) = unit % 4096 := by
  rw [irqUnit_eq, irqToken_eq]
  omega

/-- The tag survives the mask, the other fields do not. -/
theorem isToken_token (unit idx : ℕ) :
    lkpiPlatformIrqIsToken (lkpiPlatformIrqToken unit idx) = true := by
  have hrest : unit % 4096 * 256 + idx % 256 < 2 ^ 20 := by omega
  have htok : lkpiPlatformIrqToken unit idx =
      0x71D <<< 20 ||| (unit % 4096 * 256 + idx % 256) := by
    rw [irqToken_eq, ← Nat.shiftLeft_add_eq_or_of_lt hrest, Nat.shiftLeft_eq]
    omega
  rw [lkpiPlatformIrqIsToken, htok, show lkpiPlatformIrqTagMask = 0xFFF <<< 20 from rfl,
    Nat.and_or_distrib_right, and_shiftLeft_of_lt _ hrest]
  rfl

theorem irqToken_inj {u v i : ℕ} :
    lkpiPlatformIrqToken u i = lkpiPlatformIrqToken v i ↔ u % 4096 = v % 4096 := by
  rw [irqToken_eq, irqToken_eq]
  omega

/-! ## Devices and the list of them -/

def lkpiPlatformMaxIrq : ℕ := 32

/-- A platform device: the newbus device behind it, the driver that claimed it, its
unit and its interrupt resources. -/
structure PlatformDevice where
  bsddev : ℕ
  driver : ℕ
  id : ℕ
  nirq : ℕ
  irq : ℕ → Bool

/-- The allocation loop of `lkpi_platform_bus_attach`, which stops at the first gap. -/
def lkpiPlatformAllocIrqs (avail : ℕ → Bool) : ℕ → ℕ → PlatformDevice → PlatformDevice
  | 0, _, pdev => pdev
  | n + 1, i, pdev =>
      if avail i then
        lkpiPlatformAllocIrqs avail n (i + 1)
          { pdev with
            irq := Function.update pdev.irq i true
            nirq := i + 1 }
      else pdev

/-- `lkpi_platform_bus_attach` up to `lkpi_platform_publish`. -/
def lkpiPlatformBusAttach (bsddev driver unit : ℕ) (avail : ℕ → Bool) : PlatformDevice :=
  lkpiPlatformAllocIrqs avail lkpiPlatformMaxIrq 0
    { bsddev, driver
      id := unit
      nirq := 0
      irq := fun _ => false }

def lkpiPlatformPublish (pdev : PlatformDevice) (devices : List PlatformDevice) :
    List PlatformDevice :=
  pdev :: devices

def lkpiPlatformUnpublish (bsddev : ℕ) (devices : List PlatformDevice) :
    List PlatformDevice :=
  devices.filter fun pdev => pdev.bsddev != bsddev

/-- The device and the index a token stands for: the first device whose token it is. -/
def lkpiPlatformIrqLookup (devices : List PlatformDevice) (irq : ℕ) :
    Option (PlatformDevice × ℕ) :=
  if !lkpiPlatformIrqIsToken irq then none
  else
    let idx := lkpiPlatformIrqIndex irq
    (devices.find? fun pdev => lkpiPlatformIrqToken pdev.id idx == irq).map
      fun pdev => (pdev, idx)

def lkpiPlatformResIndexOk (navail num : ℕ) : Bool :=
  if navail ≤ 0 then false else num < navail

def lkpiPlatformGetIrq (pdev : PlatformDevice) (num : ℕ) : Except Errno ℕ :=
  if !lkpiPlatformResIndexOk pdev.nirq num || !pdev.irq num then .error .enxio
  else .ok (lkpiPlatformIrqToken pdev.id num)

/-- The interrupt `lkpi_platform_request_irq` sets up when it is given no device. -/
def lkpiPlatformRequestIrqSlot (devices : List PlatformDevice) (irq : ℕ) :
    Except Errno (PlatformDevice × ℕ) :=
  if !lkpiPlatformIrqIsToken irq then .error .enxio
  else
    match lkpiPlatformIrqLookup devices irq with
    | none => .error .enxio
    | some (pdev, _) =>
        let idx := lkpiPlatformIrqIndex irq
        if idx ≥ pdev.nirq || !pdev.irq idx then .error .enxio else .ok (pdev, idx)

/-- The interrupt `lkpi_platform_free_irq` looks at when it is given no device. -/
def lkpiPlatformFreeIrqSlot (devices : List PlatformDevice) (irq : ℕ) :
    Option (PlatformDevice × ℕ) :=
  if !lkpiPlatformIrqIsToken irq then none
  else
    match lkpiPlatformIrqLookup devices irq with
    | none => none
    | some (pdev, _) =>
        let idx := lkpiPlatformIrqIndex irq
        if idx ≥ pdev.nirq then none else some (pdev, idx)

/-! ## The transition system -/

/-- A token as `lkpi_platform_get_irq` returned it. -/
structure Minted where
  bsddev : ℕ
  idx : ℕ
  token : ℕ

/-- The bridge. `minted` is not stored: the tokens returned so far. -/
structure Bridge where
  devices : List PlatformDevice
  minted : List Minted

inductive BridgeAct where
  | attach (bsddev driver unit : ℕ) (avail : ℕ → Bool)
  | getIrq (bsddev num : ℕ)
  | detach (bsddev : ℕ)

/-- newbus attaches a device that is not attached, under a unit that is free in the
driver's devclass. A failed probe withdraws the device the way a detach does. -/
def bridgeStep (s : Bridge) : BridgeAct → Option Bridge
  | .attach bsddev driver unit avail =>
      if s.devices.all fun p => p.bsddev != bsddev && !(p.driver == driver && p.id == unit) then
        some { s with
          devices :=
            lkpiPlatformPublish (lkpiPlatformBusAttach bsddev driver unit avail) s.devices }
      else none
  | .getIrq bsddev num =>
      match s.devices.find? fun p => p.bsddev == bsddev with
      | none => none
      | some pdev =>
          match lkpiPlatformGetIrq pdev num with
          | .error _ => some s
          | .ok token => some { s with minted := ⟨bsddev, num, token⟩ :: s.minted }
  | .detach bsddev =>
      if s.devices.any fun p => p.bsddev == bsddev then
        some { s with devices := lkpiPlatformUnpublish bsddev s.devices }
      else none

def bridgeLts : Lts Bridge BridgeAct where
  init s := s = ⟨[], []⟩
  step s a s' := bridgeStep s a = some s'

/-- A token stands for its device and index while the device is attached and for none
afterwards, and what a request or a release without a device acts on is its interrupt. -/
def Bridge.Resolves (s : Bridge) (m : Minted) : Prop :=
  (∀ p ∈ s.devices, p.bsddev = m.bsddev →
    lkpiPlatformIrqLookup s.devices m.token = some (p, m.idx)) ∧
  ((∀ p ∈ s.devices, p.bsddev ≠ m.bsddev) →
    lkpiPlatformIrqLookup s.devices m.token = none) ∧
  ∀ p idx, lkpiPlatformRequestIrqSlot s.devices m.token = .ok (p, idx) ∨
      lkpiPlatformFreeIrqSlot s.devices m.token = some (p, idx) →
    p.bsddev = m.bsddev ∧ idx = m.idx

/-- An attach is safe if, in the twelve bits a token keeps, the unit is that of the
tokens the device has been given and of no other, and that of no other attached device
where one of the two has an interrupt. -/
def Bridge.UnitsApart (s : Bridge) : BridgeAct → Prop
  | .attach bsddev _ unit avail =>
      (∀ m ∈ s.minted, lkpiPlatformIrqUnit m.token = unit % 2 ^ 12 ↔ m.bsddev = bsddev) ∧
      ∀ p ∈ s.devices, p.id % 2 ^ 12 = unit % 2 ^ 12 → p.nirq = 0 ∧ avail 0 = false
  | _ => True

/-! ## Attached devices -/

/-- The acquired interrupts are the first `nirq`. -/
structure PlatformDevice.Ok (pdev : PlatformDevice) : Prop where
  nirq : pdev.nirq ≤ lkpiPlatformMaxIrq
  irq : ∀ i, pdev.irq i = true ↔ i < pdev.nirq

/-- The loop from `i` on, with the first `i` interrupts acquired. -/
theorem allocIrqs_spec (avail : ℕ → Bool) : ∀ (n i : ℕ) (pdev : PlatformDevice),
    pdev.nirq = i → (∀ j, pdev.irq j = true ↔ j < i) →
    ∃ nirq irq, lkpiPlatformAllocIrqs avail n i pdev = { pdev with nirq, irq } ∧
      i ≤ nirq ∧ nirq ≤ i + n ∧ ∀ j, irq j = true ↔ j < nirq := by
  intro n
  induction n with
  | zero =>
      intro i pdev hn hirq
      refine ⟨pdev.nirq, pdev.irq, rfl, by omega, by omega, ?_⟩
      rw [hn]
      exact hirq
  | succ n ih =>
      intro i pdev hn hirq
      rw [lkpiPlatformAllocIrqs]
      by_cases ha : avail i = true
      · rw [if_pos ha]
        have hirq' : ∀ j, Function.update pdev.irq i true j = true ↔ j < i + 1 := by
          intro j
          by_cases hj : j = i
          · subst hj
            simp
          · rw [Function.update_of_ne hj, hirq]
            omega
        obtain ⟨nirq, irq, heq, hge, hle, hall⟩ := ih (i + 1)
          { pdev with
            irq := Function.update pdev.irq i true
            nirq := i + 1 } rfl hirq'
        exact ⟨nirq, irq, heq, by omega, by omega, hall⟩
      · rw [if_neg ha]
        refine ⟨pdev.nirq, pdev.irq, rfl, by omega, by omega, ?_⟩
        rw [hn]
        exact hirq

theorem busAttach_spec (bsddev driver unit : ℕ) (avail : ℕ → Bool) :
    ∃ nirq irq, lkpiPlatformBusAttach bsddev driver unit avail =
        ⟨bsddev, driver, unit, nirq, irq⟩ ∧ nirq ≤ 32 ∧ ∀ j, irq j = true ↔ j < nirq := by
  obtain ⟨nirq, irq, heq, -, hle, hall⟩ := allocIrqs_spec avail lkpiPlatformMaxIrq 0
    ⟨bsddev, driver, unit, 0, fun _ => false⟩ rfl (by simp)
  exact ⟨nirq, irq, heq, hle.trans_eq (Nat.zero_add _), hall⟩

@[simp] theorem busAttach_bsddev (bsddev driver unit : ℕ) (avail : ℕ → Bool) :
    (lkpiPlatformBusAttach bsddev driver unit avail).bsddev = bsddev := by
  obtain ⟨nirq, irq, heq, -⟩ := busAttach_spec bsddev driver unit avail
  rw [heq]

@[simp] theorem busAttach_id (bsddev driver unit : ℕ) (avail : ℕ → Bool) :
    (lkpiPlatformBusAttach bsddev driver unit avail).id = unit := by
  obtain ⟨nirq, irq, heq, -⟩ := busAttach_spec bsddev driver unit avail
  rw [heq]

theorem busAttach_ok (bsddev driver unit : ℕ) (avail : ℕ → Bool) :
    (lkpiPlatformBusAttach bsddev driver unit avail).Ok := by
  obtain ⟨nirq, irq, heq, hle, hall⟩ := busAttach_spec bsddev driver unit avail
  rw [heq]
  exact ⟨hle, hall⟩

/-- A device has an interrupt exactly if its first could be allocated. -/
theorem busAttach_nirq (bsddev driver unit : ℕ) (avail : ℕ → Bool) :
    (lkpiPlatformBusAttach bsddev driver unit avail).nirq = 0 ↔ avail 0 = false := by
  cases ha : avail 0 with
  | false =>
      have h : lkpiPlatformBusAttach bsddev driver unit avail =
          ⟨bsddev, driver, unit, 0, fun _ => false⟩ := by
        rw [lkpiPlatformBusAttach, lkpiPlatformMaxIrq, lkpiPlatformAllocIrqs, if_neg (by simp [ha])]
      simp [h]
  | true =>
      obtain ⟨nirq, irq, heq, hge, -⟩ := allocIrqs_spec avail 31 1
        ⟨bsddev, driver, unit, 1, Function.update (fun _ => false) 0 true⟩ rfl
        (fun j => by cases j <;> simp)
      have h : lkpiPlatformBusAttach bsddev driver unit avail =
          ⟨bsddev, driver, unit, nirq, irq⟩ := by
        rw [lkpiPlatformBusAttach, lkpiPlatformMaxIrq, lkpiPlatformAllocIrqs, if_pos ha]
        exact heq
      rw [h]
      constructor
      · intro hz
        exact absurd (show nirq = 0 from hz) (by omega)
      · intro hf
        cases hf

/-- An index `lkpi_platform_get_irq` accepts is one of the device's interrupts. -/
theorem getIrq_ok_iff {pdev : PlatformDevice} (hp : pdev.Ok) {num token : ℕ} :
    lkpiPlatformGetIrq pdev num = .ok token ↔
      num < pdev.nirq ∧ token = lkpiPlatformIrqToken pdev.id num := by
  by_cases hnum : num < pdev.nirq
  · have hirq := (hp.irq num).mpr hnum
    have hidx : lkpiPlatformResIndexOk pdev.nirq num = true := by
      rw [lkpiPlatformResIndexOk, if_neg (by omega)]
      exact decide_eq_true hnum
    simp [lkpiPlatformGetIrq, hirq, hidx, hnum, eq_comm]
  · have hirq : pdev.irq num = false := by
      rw [← Bool.not_eq_true, hp.irq num]
      exact hnum
    simp [lkpiPlatformGetIrq, hirq, hnum]

/-! ## Looking a token up -/

/-- A device answers to the tokens of its unit's twelve bits. -/
def PlatformDevice.Answers (pdev : PlatformDevice) (irq : ℕ) : Prop :=
  pdev.id % 2 ^ 12 = lkpiPlatformIrqUnit irq

/-- The token came from some unit and an index below 256. -/
structure Minted.Ok (m : Minted) : Prop where
  idx : m.idx < lkpiPlatformMaxIrq
  token : m.token = lkpiPlatformIrqToken (lkpiPlatformIrqUnit m.token) m.idx

theorem Minted.ok_token (bsddev unit : ℕ) {idx : ℕ} (hidx : idx < lkpiPlatformMaxIrq) :
    Minted.Ok ⟨bsddev, idx, lkpiPlatformIrqToken unit idx⟩ := by
  refine ⟨hidx, ?_⟩
  show _ = lkpiPlatformIrqToken _ idx
  rw [irqUnit_token, irqToken_inj, Nat.mod_mod]

theorem Minted.Ok.isToken {m : Minted} (hm : m.Ok) : lkpiPlatformIrqIsToken m.token = true := by
  rw [hm.token]
  exact isToken_token _ _

theorem Minted.Ok.index {m : Minted} (hm : m.Ok) : lkpiPlatformIrqIndex m.token = m.idx := by
  have h := hm.idx
  rw [lkpiPlatformMaxIrq] at h
  rw [hm.token, irqIndex_token]
  omega

theorem Minted.Ok.answers_iff {m : Minted} (hm : m.Ok) (pdev : PlatformDevice) :
    lkpiPlatformIrqToken pdev.id m.idx = m.token ↔ pdev.Answers m.token := by
  have hlt : lkpiPlatformIrqUnit m.token < 4096 := by
    rw [irqUnit_eq]
    omega
  have h := @irqToken_inj pdev.id (lkpiPlatformIrqUnit m.token) m.idx
  rw [← hm.token, Nat.mod_eq_of_lt hlt] at h
  exact h

/-- A token's lookup is a search for a device that answers to it. -/
theorem Minted.Ok.lookup {m : Minted} (hm : m.Ok) (devices : List PlatformDevice) :
    lkpiPlatformIrqLookup devices m.token =
      (devices.find? fun pdev => lkpiPlatformIrqToken pdev.id m.idx == m.token).map
        fun pdev => (pdev, m.idx) := by
  simp [lkpiPlatformIrqLookup, hm.isToken, hm.index]

/-- The device found is a device of the list that answers. -/
theorem Minted.Ok.of_lookup {m : Minted} (hm : m.Ok) {devices : List PlatformDevice}
    {p : PlatformDevice} {idx : ℕ} (h : lkpiPlatformIrqLookup devices m.token = some (p, idx)) :
    p ∈ devices ∧ p.Answers m.token ∧ idx = m.idx := by
  rw [hm.lookup, Option.map_eq_some_iff] at h
  obtain ⟨q, hq, heq⟩ := h
  obtain ⟨rfl, rfl⟩ := Prod.mk.inj heq
  refine ⟨List.mem_of_find?_eq_some hq, ?_, rfl⟩
  have hbeq := List.find?_some hq
  rw [← hm.answers_iff]
  exact beq_iff_eq.mp hbeq

/-- A device that answers is found, itself or one before it. -/
theorem Minted.Ok.lookup_ne_none {m : Minted} (hm : m.Ok) {devices : List PlatformDevice}
    {p : PlatformDevice} (hp : p ∈ devices) (ha : p.Answers m.token) :
    lkpiPlatformIrqLookup devices m.token ≠ none := by
  rw [hm.lookup]
  intro h
  rw [Option.map_eq_none_iff, List.find?_eq_none] at h
  exact h p hp (beq_iff_eq.mpr ((hm.answers_iff p).mpr ha))

/-- The device at the head of the list is tried first. -/
theorem Minted.Ok.lookup_head {m : Minted} (hm : m.Ok) (devices : List PlatformDevice)
    {p : PlatformDevice} (ha : p.Answers m.token) :
    lkpiPlatformIrqLookup (p :: devices) m.token = some (p, m.idx) := by
  have hbeq : (lkpiPlatformIrqToken p.id m.idx == m.token) = true :=
    beq_iff_eq.mpr ((hm.answers_iff p).mpr ha)
  rw [hm.lookup, List.find?_cons, hbeq]
  rfl

/-- The index a lookup returns is the token's. -/
theorem irqLookup_idx {devices : List PlatformDevice} {irq : ℕ} {p : PlatformDevice} {idx : ℕ}
    (h : lkpiPlatformIrqLookup devices irq = some (p, idx)) : idx = lkpiPlatformIrqIndex irq := by
  unfold lkpiPlatformIrqLookup at h
  split at h
  · cases h
  · obtain ⟨q, -, heq⟩ := Option.map_eq_some_iff.mp h
    exact (Prod.mk.inj heq).2.symm

/-- Without a device a request acts on what the lookup finds. -/
theorem of_requestIrqSlot {devices : List PlatformDevice} {irq : ℕ} {p : PlatformDevice}
    {idx : ℕ} (h : lkpiPlatformRequestIrqSlot devices irq = .ok (p, idx)) :
    lkpiPlatformIrqLookup devices irq = some (p, idx) := by
  unfold lkpiPlatformRequestIrqSlot at h
  split at h
  · cases h
  · split at h
    · cases h
    · next q j hq =>
        have hj := irqLookup_idx hq
        grind

/-- So does a release. -/
theorem of_freeIrqSlot {devices : List PlatformDevice} {irq : ℕ} {p : PlatformDevice}
    {idx : ℕ} (h : lkpiPlatformFreeIrqSlot devices irq = some (p, idx)) :
    lkpiPlatformIrqLookup devices irq = some (p, idx) := by
  unfold lkpiPlatformFreeIrqSlot at h
  split at h
  · cases h
  · split at h
    · cases h
    · next q j hq =>
        have hj := irqLookup_idx hq
        grind

/-! ## Steps -/

/-- What holds of the bridge in every run. -/
structure Bridge.Ok (s : Bridge) : Prop where
  distinct : (s.devices.map PlatformDevice.bsddev).Nodup
  device : ∀ p ∈ s.devices, p.Ok
  minted : ∀ m ∈ s.minted, m.Ok

/-- What the guard adds: a token's device is the one that answers to it, and devices of
one unit have no interrupts. -/
structure Bridge.Apart (s : Bridge) : Prop where
  home : ∀ m ∈ s.minted, ∀ p ∈ s.devices, p.Answers m.token ↔ p.bsddev = m.bsddev
  units : ∀ p ∈ s.devices, ∀ q ∈ s.devices, p.id % 2 ^ 12 = q.id % 2 ^ 12 →
    p.bsddev ≠ q.bsddev → p.nirq = 0

theorem Bridge.Ok.eq_of_bsddev {s : Bridge} (hs : s.Ok) {p q : PlatformDevice}
    (hp : p ∈ s.devices) (hq : q ∈ s.devices) (h : p.bsddev = q.bsddev) : p = q :=
  List.inj_on_of_nodup_map hs.distinct hp hq h

theorem bridgeStep_attach {s s' : Bridge} {bsddev driver unit : ℕ} {avail : ℕ → Bool}
    (h : bridgeStep s (.attach bsddev driver unit avail) = some s') :
    (∀ p ∈ s.devices, p.bsddev ≠ bsddev) ∧
      s' = { s with devices := lkpiPlatformBusAttach bsddev driver unit avail :: s.devices } := by
  simp only [bridgeStep] at h
  split at h
  · next hall =>
      refine ⟨?_, (Option.some.inj h).symm⟩
      intro p hp
      have := List.all_eq_true.mp hall p hp
      simp only [Bool.and_eq_true, bne_iff_ne] at this
      exact this.1
  · cases h

theorem bridgeStep_getIrq {s s' : Bridge} {bsddev num : ℕ}
    (h : bridgeStep s (.getIrq bsddev num) = some s') :
    s' = s ∨ ∃ pdev ∈ s.devices, pdev.bsddev = bsddev ∧
      ∃ token, lkpiPlatformGetIrq pdev num = .ok token ∧
        s' = { s with minted := ⟨bsddev, num, token⟩ :: s.minted } := by
  simp only [bridgeStep] at h
  split at h
  · cases h
  · next pdev hfind =>
      split at h
      · exact .inl (Option.some.inj h).symm
      · next token hget =>
          have hb := List.find?_some hfind
          exact .inr ⟨pdev, List.mem_of_find?_eq_some hfind, beq_iff_eq.mp hb, token, hget,
            (Option.some.inj h).symm⟩

theorem bridgeStep_detach {s s' : Bridge} {bsddev : ℕ}
    (h : bridgeStep s (.detach bsddev) = some s') :
    s' = { s with devices := lkpiPlatformUnpublish bsddev s.devices } := by
  simp only [bridgeStep] at h
  split at h
  · exact (Option.some.inj h).symm
  · cases h

theorem mem_unpublish {bsddev : ℕ} {devices : List PlatformDevice} {p : PlatformDevice} :
    p ∈ lkpiPlatformUnpublish bsddev devices ↔ p ∈ devices ∧ p.bsddev ≠ bsddev := by
  simp [lkpiPlatformUnpublish]

/-- A token just returned. -/
theorem Minted.ok_of_getIrq {pdev : PlatformDevice} (hp : pdev.Ok) {num token : ℕ}
    (h : lkpiPlatformGetIrq pdev num = .ok token) :
    Minted.Ok ⟨pdev.bsddev, num, token⟩ ∧ pdev.Answers token ∧ pdev.nirq ≠ 0 := by
  obtain ⟨hnum, rfl⟩ := (getIrq_ok_iff hp).mp h
  exact ⟨Minted.ok_token _ _ (hnum.trans_le hp.nirq), (irqUnit_token pdev.id num).symm,
    by omega⟩

theorem Bridge.Ok.step {s s' : Bridge} {a : BridgeAct} (hs : s.Ok)
    (h : bridgeStep s a = some s') : s'.Ok := by
  cases a with
  | attach bsddev driver unit avail =>
      obtain ⟨hnew, rfl⟩ := bridgeStep_attach h
      constructor
      · show (_ :: s.devices.map PlatformDevice.bsddev).Nodup
        rw [List.nodup_cons]
        refine ⟨?_, hs.distinct⟩
        rw [busAttach_bsddev, List.mem_map]
        rintro ⟨p, hp, heq⟩
        exact hnew p hp heq
      · intro p hp
        rcases List.mem_cons.mp hp with rfl | hp
        · exact busAttach_ok _ _ _ _
        · exact hs.device p hp
      · exact hs.minted
  | getIrq bsddev num =>
      rcases bridgeStep_getIrq h with rfl | ⟨pdev, hmem, rfl, token, hget, rfl⟩
      · exact hs
      · refine ⟨hs.distinct, hs.device, ?_⟩
        intro m hm
        rcases List.mem_cons.mp hm with rfl | hm
        · exact (Minted.ok_of_getIrq (hs.device _ hmem) hget).1
        · exact hs.minted m hm
  | detach bsddev =>
      obtain rfl := bridgeStep_detach h
      constructor
      · exact (List.filter_sublist.map PlatformDevice.bsddev).nodup hs.distinct
      · intro p hp
        exact hs.device p (mem_unpublish.mp hp).1
      · exact hs.minted

theorem Bridge.ok_of_reachable {s : Bridge} (h : bridgeLts.Reachable s) : s.Ok := by
  refine Lts.Reachable.invariant (I := Bridge.Ok) ?_ ?_ h
  · rintro s rfl
    exact ⟨List.nodup_nil, by simp, by simp⟩
  · intro s a s' _ hs hstep
    exact hs.step hstep

theorem Bridge.Apart.step {s s' : Bridge} {a : BridgeAct} (hok : s.Ok) (hs : s.Apart)
    (ha : s.UnitsApart a) (h : bridgeStep s a = some s') : s'.Apart := by
  cases a with
  | attach bsddev driver unit avail =>
      obtain ⟨hhome, hunits⟩ := ha
      obtain ⟨hnew, rfl⟩ := bridgeStep_attach h
      constructor
      · intro m hm p hp
        rcases List.mem_cons.mp hp with rfl | hp
        · rw [PlatformDevice.Answers, busAttach_id, busAttach_bsddev, eq_comm, hhome m hm,
            eq_comm]
        · exact hs.home m hm p hp
      · intro p hp q hq hid hne
        rcases List.mem_cons.mp hp with rfl | hp <;> rcases List.mem_cons.mp hq with rfl | hq
        · exact absurd rfl hne
        · rw [busAttach_id] at hid
          rw [busAttach_nirq]
          exact (hunits q hq hid.symm).2
        · rw [busAttach_id] at hid
          exact (hunits p hp hid).1
        · exact hs.units p hp q hq hid hne
  | getIrq bsddev num =>
      rcases bridgeStep_getIrq h with rfl | ⟨pdev, hmem, rfl, token, hget, rfl⟩
      · exact hs
      · obtain ⟨-, hans, hirq⟩ := Minted.ok_of_getIrq (hok.device _ hmem) hget
        refine ⟨?_, hs.units⟩
        intro m hm p hp
        rcases List.mem_cons.mp hm with rfl | hm
        · constructor
          · intro hp'
            by_contra hne
            exact hirq (hs.units pdev hmem p hp (hans.trans hp'.symm) (Ne.symm hne))
          · intro heq
            rw [hok.eq_of_bsddev hp hmem heq]
            exact hans
        · exact hs.home m hm p hp
  | detach bsddev =>
      obtain rfl := bridgeStep_detach h
      constructor
      · intro m hm p hp
        exact hs.home m hm p (mem_unpublish.mp hp).1
      · intro p hp q hq
        exact hs.units p (mem_unpublish.mp hp).1 q (mem_unpublish.mp hq).1

/-- Devices that are told apart resolve their tokens. -/
theorem Bridge.Apart.resolves {s : Bridge} (hok : s.Ok) (hs : s.Apart) {m : Minted}
    (hm : m ∈ s.minted) : s.Resolves m := by
  have hmok := hok.minted m hm
  have hback : ∀ p idx, lkpiPlatformIrqLookup s.devices m.token = some (p, idx) →
      p ∈ s.devices ∧ p.bsddev = m.bsddev ∧ idx = m.idx := by
    intro p idx h
    obtain ⟨hp, hans, hidx⟩ := hmok.of_lookup h
    exact ⟨hp, (hs.home m hm p hp).mp hans, hidx⟩
  refine ⟨?_, ?_, ?_⟩
  · intro p hp heq
    have hne := hmok.lookup_ne_none hp ((hs.home m hm p hp).mpr heq)
    obtain ⟨⟨q, idx⟩, hq⟩ := Option.ne_none_iff_exists'.mp hne
    obtain ⟨hmem, hbsd, rfl⟩ := hback q idx hq
    rw [hq, hok.eq_of_bsddev hp hmem (heq.trans hbsd.symm)]
  · intro hgone
    by_contra hne
    obtain ⟨⟨q, idx⟩, hq⟩ := Option.ne_none_iff_exists'.mp hne
    obtain ⟨hmem, hbsd, -⟩ := hback q idx hq
    exact hgone q hmem hbsd
  · intro p idx h
    have hlook : lkpiPlatformIrqLookup s.devices m.token = some (p, idx) := by
      rcases h with h | h
      · exact of_requestIrqSlot h
      · exact of_freeIrqSlot h
    exact (hback p idx hlook).2

/-! ## Main results -/

/-- **Main result.** As long as no device is attached under a unit that shares its low
twelve bits with another device's, every token ever returned resolves. -/
theorem irq_tokens_resolve {s : Bridge} (h : bridgeLts.Via Bridge.UnitsApart s) :
    ∀ m ∈ s.minted, s.Resolves m := by
  have hinv : s.Ok ∧ s.Apart := by
    refine Lts.Via.invariant (I := fun s => s.Ok ∧ s.Apart) ?_ ?_ h
    · rintro s rfl
      exact ⟨⟨List.nodup_nil, by simp, by simp⟩, ⟨by simp, by simp⟩⟩
    · intro s a s' _ hs ha hstep
      exact ⟨hs.1.step hstep, hs.2.step hs.1 ha hstep⟩
  intro m hm
  exact hinv.2.resolves hinv.1 hm

/-- Two devices of one driver, with `minted` the tokens they have been asked for. -/
def twoUnits (minted : List Minted) : Bridge :=
  { devices := [lkpiPlatformBusAttach 1 0 1 fun i => i == 0,
      lkpiPlatformBusAttach 0 0 0 fun _ => true]
    minted }

theorem twoUnits_via : bridgeLts.Via Bridge.UnitsApart (twoUnits [⟨0, 2, 0x71D00002⟩]) := by
  have h0 : bridgeLts.Via Bridge.UnitsApart ⟨[], []⟩ := .init rfl
  have h1 : bridgeLts.Via Bridge.UnitsApart
      ⟨[lkpiPlatformBusAttach 0 0 0 fun _ => true], []⟩ :=
    h0.step (a := .attach 0 0 0 fun _ => true) ⟨by simp, by simp⟩ rfl
  have h2 : bridgeLts.Via Bridge.UnitsApart
      ⟨[lkpiPlatformBusAttach 0 0 0 fun _ => true], [⟨0, 2, 0x71D00002⟩]⟩ :=
    h1.step (a := .getIrq 0 2) trivial rfl
  refine h2.step (a := .attach 1 0 1 fun i => i == 0) ?_ rfl
  constructor
  · intro m hm
    obtain rfl := List.mem_singleton.mp hm
    decide
  · intro p hp
    obtain rfl := List.mem_singleton.mp hp
    decide

theorem irq_tokens_resolve_two :
    (twoUnits [⟨1, 0, 0x71D00100⟩, ⟨0, 2, 0x71D00002⟩]).Resolves ⟨1, 0, 0x71D00100⟩ ∧
      (twoUnits [⟨1, 0, 0x71D00100⟩, ⟨0, 2, 0x71D00002⟩]).Resolves ⟨0, 2, 0x71D00002⟩ := by
  have hrun : bridgeLts.Via Bridge.UnitsApart
      (twoUnits [⟨1, 0, 0x71D00100⟩, ⟨0, 2, 0x71D00002⟩]) :=
    twoUnits_via.step (a := .getIrq 1 0) trivial rfl
  constructor
  · exact irq_tokens_resolve hrun _ List.mem_cons_self
  · exact irq_tokens_resolve hrun _ (List.mem_cons_of_mem _ List.mem_cons_self)

/-- Unit 0 of one driver asks for its first interrupt and unit 0 of another driver is
attached after it. -/
def unitClash : List BridgeAct :=
  [.attach 0 0 0 fun _ => true, .getIrq 0 0, .attach 1 1 0 fun _ => true]

/-- The token of the first device now stands for the second, and a bare request sets up
the second's interrupt. -/
theorem irq_token_other_driver : ∃ s m, bridgeLts.Reachable s ∧ m ∈ s.minted ∧
    (∃ p ∈ s.devices, p.bsddev = m.bsddev) ∧
    (∃ q, lkpiPlatformRequestIrqSlot s.devices m.token = .ok (q, m.idx) ∧
      q.bsddev ≠ m.bsddev) ∧ ¬ s.Resolves m := by
  have hrun : ∀ s ∈ Lts.exec bridgeStep ⟨[], []⟩ unitClash, bridgeLts.Reachable s := by
    intro s hs
    exact Lts.Reachable.exec (fun _ _ _ h => h) (.init rfl) hs
  refine ⟨_, ⟨0, 0, lkpiPlatformIrqToken 0 0⟩, hrun _ rfl, List.mem_cons_self, ?_, ?_, ?_⟩
  · exact ⟨_, List.mem_cons_of_mem _ List.mem_cons_self, rfl⟩
  · exact ⟨_, rfl, by decide⟩
  · intro h
    exact absurd (h.2.2 _ _ (.inl rfl)).1 (by decide)

/-! ## The guard is needed -/

/-- What a token that resolves is found to stand for is the device that asked for it. -/
theorem Bridge.Resolves.home {s : Bridge} {m : Minted} (h : s.Resolves m)
    {q : PlatformDevice} {idx : ℕ}
    (hq : lkpiPlatformIrqLookup s.devices m.token = some (q, idx)) : q.bsddev = m.bsddev := by
  by_cases hlive : ∃ p ∈ s.devices, p.bsddev = m.bsddev
  · obtain ⟨p, hp, heq⟩ := hlive
    have hlook := h.1 p hp heq
    rw [hq] at hlook
    obtain ⟨rfl, -⟩ := Prod.mk.inj (Option.some.inj hlook)
    exact heq
  · have hnone := h.2.1 fun p hp heq => hlive ⟨p, hp, heq⟩
    rw [hq] at hnone
    cases hnone

/-- An attached device with an interrupt can be asked for its first token. -/
theorem bridgeStep_getIrq_zero {s : Bridge} (hs : s.Ok) {p : PlatformDevice}
    (hp : p ∈ s.devices) (hirq : p.nirq ≠ 0) :
    bridgeStep s (.getIrq p.bsddev 0) =
      some { s with minted := ⟨p.bsddev, 0, lkpiPlatformIrqToken p.id 0⟩ :: s.minted } := by
  have hget := (getIrq_ok_iff (hs.device p hp)).mpr ⟨Nat.pos_of_ne_zero hirq, rfl⟩
  have hfind : (s.devices.find? fun q => q.bsddev == p.bsddev) = some p := by
    cases hf : s.devices.find? fun q => q.bsddev == p.bsddev with
    | none => exact absurd (beq_self_eq_true p.bsddev) (List.find?_eq_none.mp hf p hp)
    | some q =>
        have hq := List.find?_some hf
        rw [hs.eq_of_bsddev (List.mem_of_find?_eq_some hf) hp (beq_iff_eq.mp hq)]
  simp only [bridgeStep, hfind, hget]

/-- A device attached in front of one that shares its unit's low bits, if either has an
interrupt, takes a token over or leaves one behind. -/
theorem Bridge.clash_breaks {devices : List PlatformDevice} {minted : List Minted}
    {new p : PlatformDevice} (hok : Bridge.Ok ⟨new :: devices, minted⟩) (hp : p ∈ devices)
    (hne : p.bsddev ≠ new.bsddev) (hid : p.id % 2 ^ 12 = new.id % 2 ^ 12)
    (hirq : p.nirq ≠ 0 ∨ new.nirq ≠ 0) :
    ∃ as t, Lts.exec bridgeStep ⟨new :: devices, minted⟩ as = some t ∧
      ∃ m ∈ t.minted, ¬ t.Resolves m := by
  have hzero : 0 < lkpiPlatformMaxIrq := by decide
  rcases hirq with hirq | hirq
  · -- the older device's token is found to be the new one's
    have hget := bridgeStep_getIrq_zero hok (List.mem_cons_of_mem _ hp) hirq
    refine ⟨[.getIrq p.bsddev 0],
      ⟨new :: devices, ⟨p.bsddev, 0, lkpiPlatformIrqToken p.id 0⟩ :: minted⟩, ?_,
      _, List.mem_cons_self, fun hres => ?_⟩
    · rw [Lts.exec, hget]
      rfl
    · have hans : new.Answers (lkpiPlatformIrqToken p.id 0) := by
        rw [PlatformDevice.Answers, irqUnit_token]
        exact hid.symm
      have hhome := hres.home
        ((Minted.ok_token p.bsddev p.id hzero).lookup_head devices hans)
      exact hne hhome.symm
  · -- the new device's token is left with the older one
    have hget := bridgeStep_getIrq_zero hok List.mem_cons_self hirq
    refine ⟨[.getIrq new.bsddev 0, .detach new.bsddev],
      ⟨lkpiPlatformUnpublish new.bsddev (new :: devices),
        ⟨new.bsddev, 0, lkpiPlatformIrqToken new.id 0⟩ :: minted⟩, ?_,
      _, List.mem_cons_self, fun hres => ?_⟩
    · rw [Lts.exec, hget, Option.bind_some, Lts.exec]
      simp [bridgeStep, Lts.exec]
    · have hgone := hres.2.1 fun q hq => (mem_unpublish.mp hq).2
      refine (Minted.ok_token new.bsddev new.id hzero).lookup_ne_none
        (mem_unpublish.mpr ⟨List.mem_cons_of_mem _ hp, hne⟩) ?_ hgone
      rw [PlatformDevice.Answers, irqUnit_token]
      exact hid

/-- After any other attach some token fails to resolve within two steps. -/
theorem unitsApart_needed {s s' : Bridge} {a : BridgeAct} (hs : bridgeLts.Reachable s)
    (h : bridgeStep s a = some s') (ha : ¬ s.UnitsApart a) :
    ∃ as t, Lts.exec bridgeStep s' as = some t ∧ ∃ m ∈ t.minted, ¬ t.Resolves m := by
  have hok' : s'.Ok := (Bridge.ok_of_reachable hs).step h
  cases a with
  | getIrq bsddev num => exact absurd trivial ha
  | detach bsddev => exact absurd trivial ha
  | attach bsddev driver unit avail =>
      obtain ⟨hnew, rfl⟩ := bridgeStep_attach h
      rw [Bridge.UnitsApart, not_and_or] at ha
      push Not at ha
      rcases ha with ⟨m, hm, hbad⟩ | ⟨p, hp, hid, hbad⟩
      · refine ⟨[], _, rfl, m, hm, fun hres => ?_⟩
        have hmok := hok'.minted m hm
        rcases hbad with ⟨hunit, hne⟩ | ⟨hunit, heq⟩
        · -- the new device is found for another device's token
          have hans : (lkpiPlatformBusAttach bsddev driver unit avail).Answers m.token := by
            rw [PlatformDevice.Answers, busAttach_id, hunit]
          have hhome := hres.home (hmok.lookup_head s.devices hans)
          rw [busAttach_bsddev] at hhome
          exact hne hhome.symm
        · -- the device has come back and does not answer to its own token
          have hlook := hres.1 _ List.mem_cons_self (by rw [busAttach_bsddev, heq])
          obtain ⟨-, hans, -⟩ := hmok.of_lookup hlook
          rw [PlatformDevice.Answers, busAttach_id] at hans
          exact hunit hans.symm
      · refine Bridge.clash_breaks hok' hp ?_ ?_ ?_
        · rw [busAttach_bsddev]
          exact hnew p hp
        · rw [busAttach_id, hid]
        · by_cases hirq : p.nirq = 0
          · exact .inr (mt (busAttach_nirq bsddev driver unit avail).mp (hbad hirq))
          · exact .inl hirq

end Lima
