import Lima.Basic

/-!
# Waiting for a buffer until a deadline

`lima_gem_wait` turns an absolute deadline in nanoseconds into a number of jiffies and
waits that long for the fences of a buffer. The deadline is whatever user space passes;
the arithmetic is that of the 64-bit words of the source, and what it should come to is
said in unbounded integers.
-/

namespace Lima

/-! ## 64-bit words -/

/-- A value of an `int64_t`. -/
def InS64 (n : ℤ) : Prop := -2 ^ 63 ≤ n ∧ n < 2 ^ 63

instance (n : ℤ) : Decidable (InS64 n) := inferInstanceAs (Decidable (_ ∧ _))

/-- What an `int64_t` makes of a result. -/
def s64 (n : ℤ) : ℤ := n.bmod (2 ^ 64)

/-- What a `uint64_t` makes of a result. -/
def u64 (n : ℤ) : ℤ := n % 2 ^ 64

theorem s64_eq {n : ℤ} (h : InS64 n) : s64 n = n := by
  obtain ⟨hlo, hhi⟩ := h
  unfold s64
  rw [Int.bmod_eq_of_le] <;> omega

theorem u64_eq {n : ℤ} (hlo : 0 ≤ n) (hhi : n < 2 ^ 64) : u64 n = n :=
  Int.emod_eq_of_lt hlo hhi

/-! ## The functions -/

/-- The kernel's clock tick, in nanoseconds, and the timeout that means to wait for
ever. -/
structure JiffyConfig where
  jiffy : ℤ
  maxScheduleTimeout : ℤ
  jiffy_pos : 0 < jiffy
  two_le_max : 2 ≤ maxScheduleTimeout
  max_lt : maxScheduleTimeout < 2 ^ 63

namespace JiffyConfig

variable (k : JiffyConfig)

/-- `nsecs_to_jiffies64`. -/
def nsecsToJiffies64 (ns : ℤ) : ℤ := ns / k.jiffy

/-- `drm_timeout_abs_to_jiffies`, `now` being what `ktime_get` returns. -/
def drmTimeoutAbsToJiffies (timeoutNsec now : ℤ) : ℤ :=
  if timeoutNsec = 0 then 0
  else if ¬ now < timeoutNsec then 0
  else
    let timeoutNs := u64 (s64 (timeoutNsec - now))
    let timeoutJiffies64 := k.nsecsToJiffies64 timeoutNs
    if u64 (k.maxScheduleTimeout - 1) ≤ timeoutJiffies64 then k.maxScheduleTimeout - 1
    else s64 (u64 (timeoutJiffies64 + 1))

end JiffyConfig

/-- `drm_gem_dma_resv_wait` of one handle: what it returns, given whether it waits for
readers too and how long, and whether the buffer is still busy then. -/
structure ResvWait where
  ret : Bool → ℤ → Option Errno
  busy : Bool → ℤ → Bool
  etime_iff : ∀ write timeout, ret write timeout = some .etime ↔ busy write timeout = true

def limaGemWaitWrite : ℕ := 2

/-- `lima_gem_wait`: the timeout it hands to `drm_gem_dma_resv_wait`, if it calls it, and
what it returns. -/
def limaGemWait (k : JiffyConfig) (r : ResvWait) (now : ℤ) (op : ℕ) (timeoutNs : ℤ) :
    Option ℤ × Option Errno :=
  if op = 0 then (none, none)
  else
    let write := op &&& limaGemWaitWrite ≠ 0
    let timeout := k.drmTimeoutAbsToJiffies timeoutNs now
    let ret := r.ret write timeout
    (some timeout,
      if ret = some .etime then some (if timeout ≠ 0 then .etimedout else .ebusy) else ret)

/-! ## In unbounded integers -/

namespace JiffyConfig

variable (k : JiffyConfig)

/-- What the timeout should be: nothing once the deadline has passed, else enough jiffies
for the rest of the time, but fewer than for ever. -/
def span (deadline now : ℤ) : ℤ :=
  if deadline ≤ now then 0
  else min ((deadline - now) / k.jiffy + 1) (k.maxScheduleTimeout - 1)

variable {k} {d d' now : ℤ}

theorem span_of_le (h : d ≤ now) : k.span d now = 0 := if_pos h

theorem span_of_lt (h : now < d) :
    k.span d now = min ((d - now) / k.jiffy + 1) (k.maxScheduleTimeout - 1) :=
  if_neg (not_le.mpr h)

theorem ediv_nonneg_of_lt (h : now < d) : 0 ≤ (d - now) / k.jiffy :=
  Int.ediv_nonneg (by omega) k.jiffy_pos.le

theorem span_bounds (h : now < d) :
    1 ≤ k.span d now ∧ k.span d now ≤ k.maxScheduleTimeout - 1 := by
  have hdiv : 0 ≤ (d - now) / k.jiffy := ediv_nonneg_of_lt h
  have hmax := k.two_le_max
  rw [span_of_lt h]
  constructor
  · exact le_min (by omega) (by omega)
  · exact min_le_right _ _

theorem span_eq_zero : k.span d now = 0 ↔ d ≤ now := by
  constructor
  · intro hzero
    by_contra hlt
    have hpos := (span_bounds (k := k) (not_le.mp hlt)).1
    omega
  · exact span_of_le

theorem span_nonneg : 0 ≤ k.span d now := by
  rcases le_or_gt d now with h | h
  · rw [span_of_le h]
  · exact zero_le_one.trans (span_bounds h).1

theorem span_lt_max : k.span d now < k.maxScheduleTimeout := by
  have hmax := k.two_le_max
  rcases le_or_gt d now with h | h
  · rw [span_of_le h]
    omega
  · have hle := (span_bounds (k := k) h).2
    omega

/-- The jiffies of an unclamped timeout cover the rest of the time. -/
theorem span_covers (h : now < d) (hclamp : (d - now) / k.jiffy < k.maxScheduleTimeout - 1) :
    d - now < k.jiffy * k.span d now := by
  have hfloor := Int.lt_mul_ediv_self_add (x := d - now) k.jiffy_pos
  rw [span_of_lt h, min_eq_left (by omega), mul_add, mul_one]
  exact hfloor

theorem span_mono (h : d ≤ d') : k.span d now ≤ k.span d' now := by
  rcases le_or_gt d now with hd | hd
  · rw [span_of_le hd]
    exact span_nonneg
  · have hdiv : (d - now) / k.jiffy ≤ (d' - now) / k.jiffy :=
      Int.ediv_le_ediv k.jiffy_pos (by omega)
    rw [span_of_lt hd, span_of_lt (hd.trans_le h)]
    exact min_le_min (by omega) le_rfl

/-- **No step overflows**: the code computes the timeout it should. -/
theorem drmTimeoutAbsToJiffies_eq (hd : InS64 d) (hnow : 0 ≤ now) :
    k.drmTimeoutAbsToJiffies d now = k.span d now := by
  obtain ⟨hlo, hhi⟩ := hd
  unfold drmTimeoutAbsToJiffies
  split
  · rename_i hzero
    rw [span_of_le (by omega)]
  split
  · rename_i hle
    rw [span_of_le (not_lt.mp hle)]
  rename_i hlt
  rw [not_not] at hlt
  have hsub : u64 (s64 (d - now)) = d - now := by
    rw [s64_eq ⟨by omega, by omega⟩, u64_eq (by omega) (by omega)]
  have hmax := k.two_le_max
  have hmax' := k.max_lt
  have hlimit : u64 (k.maxScheduleTimeout - 1) = k.maxScheduleTimeout - 1 :=
    u64_eq (by omega) (by omega)
  have hdiv : 0 ≤ (d - now) / k.jiffy := ediv_nonneg_of_lt hlt
  simp only [nsecsToJiffies64, hsub, hlimit]
  rw [span_of_lt hlt]
  split
  · rename_i hclamp
    rw [min_eq_right (by omega)]
  · rename_i hclamp
    have hu : u64 ((d - now) / k.jiffy + 1) = (d - now) / k.jiffy + 1 :=
      u64_eq (by omega) (by omega)
    rw [min_eq_left (by omega), hu, s64_eq ⟨by omega, by omega⟩]

end JiffyConfig

/-- A busy buffer is answered by whether there was anything left to wait for. -/
theorem limaGemWait_busy {k : JiffyConfig} {r : ResvWait} {now timeoutNs : ℤ} {op : ℕ}
    (hop : op ≠ 0) (hbusy : r.busy (op &&& limaGemWaitWrite ≠ 0)
      (k.drmTimeoutAbsToJiffies timeoutNs now) = true) :
    (limaGemWait k r now op timeoutNs).2 =
      some (if k.drmTimeoutAbsToJiffies timeoutNs now ≠ 0 then .etimedout else .ebusy) := by
  have hret := (r.etime_iff _ _).mpr hbusy
  simp only [limaGemWait, if_neg hop, if_pos hret]

/-- **Waits end.** For every deadline and clock reading the timeout is `0` exactly if the
deadline has passed, and otherwise covers the time that is left without being taken for
a wait for ever; a later deadline never gives a shorter timeout. So `lima_gem_wait` hands
`drm_gem_dma_resv_wait` a bounded timeout, and its answer for a busy buffer tells whether
the deadline had passed on entry. -/
theorem gem_wait_bounded (k : JiffyConfig) (r : ResvWait) {now : ℤ} (hnow : 0 ≤ now) :
    (∀ d, InS64 d → (k.drmTimeoutAbsToJiffies d now = 0 ↔ d ≤ now) ∧
      (now < d → 1 ≤ k.drmTimeoutAbsToJiffies d now ∧
        k.drmTimeoutAbsToJiffies d now ≤ k.maxScheduleTimeout - 1 ∧
        ((d - now) / k.jiffy < k.maxScheduleTimeout - 1 →
          d - now < k.jiffy * k.drmTimeoutAbsToJiffies d now)) ∧
      k.drmTimeoutAbsToJiffies d now = k.span d now ∧
      (now < d → InS64 (d - now) ∧
        ((d - now) / k.jiffy < k.maxScheduleTimeout - 1 → InS64 ((d - now) / k.jiffy + 1)))) ∧
    (∀ d d', InS64 d → InS64 d' → d ≤ d' →
      k.drmTimeoutAbsToJiffies d now ≤ k.drmTimeoutAbsToJiffies d' now) ∧
    ∀ op d, op ≠ 0 → InS64 d → ∃ timeout, (limaGemWait k r now op d).1 = some timeout ∧
      0 ≤ timeout ∧ timeout < k.maxScheduleTimeout ∧
      (r.busy (op &&& limaGemWaitWrite ≠ 0) timeout = true →
        (limaGemWait k r now op d).2 = some (if d ≤ now then .ebusy else .etimedout)) := by
  refine ⟨fun d hd => ?_, fun d d' hd hd' hle => ?_, fun op d hop hd => ?_⟩
  · have heq := JiffyConfig.drmTimeoutAbsToJiffies_eq (k := k) hd hnow
    rw [heq]
    refine ⟨JiffyConfig.span_eq_zero, fun hlt => ?_, rfl, fun hlt => ?_⟩
    · obtain ⟨hone, hmax⟩ := JiffyConfig.span_bounds (k := k) hlt
      exact ⟨hone, hmax, JiffyConfig.span_covers hlt⟩
    · have hdiv : 0 ≤ (d - now) / k.jiffy := JiffyConfig.ediv_nonneg_of_lt hlt
      have hmax := k.max_lt
      obtain ⟨hlo, hhi⟩ := hd
      exact ⟨⟨by omega, by omega⟩, fun hclamp => ⟨by omega, by omega⟩⟩
  · rw [JiffyConfig.drmTimeoutAbsToJiffies_eq hd hnow,
      JiffyConfig.drmTimeoutAbsToJiffies_eq hd' hnow]
    exact JiffyConfig.span_mono hle
  · have heq := JiffyConfig.drmTimeoutAbsToJiffies_eq (k := k) hd hnow
    refine ⟨k.drmTimeoutAbsToJiffies d now, by simp [limaGemWait, hop], ?_, ?_, fun hbusy => ?_⟩
    · rw [heq]
      exact JiffyConfig.span_nonneg
    · rw [heq]
      exact JiffyConfig.span_lt_max
    · rw [limaGemWait_busy hop hbusy, heq]
      by_cases hle : d ≤ now
      · rw [if_neg (not_not.mpr (JiffyConfig.span_eq_zero.mpr hle)), if_pos hle]
      · rw [if_pos (fun h => hle (JiffyConfig.span_eq_zero.mp h)), if_neg hle]

theorem millisecond_pos : (0 : ℤ) < 1000000 := by decide

/-- A kernel that runs at 1000 Hz. -/
def kiloHertz : JiffyConfig where
  jiffy := 1000000
  maxScheduleTimeout := 2 ^ 63 - 1
  jiffy_pos := millisecond_pos
  two_le_max := by decide
  max_lt := by decide

/-- A buffer that never becomes idle. -/
def neverIdle : ResvWait where
  ret _ _ := some .etime
  busy _ _ := true
  etime_iff _ _ := by decide

/-- One nanosecond before the deadline a busy buffer is waited for, a jiffy long. -/
theorem gem_wait_bounded_busy : 0 ≤ (5 : ℤ) ∧ InS64 6 ∧
    kiloHertz.drmTimeoutAbsToJiffies 6 5 = 1 ∧ ∃ timeout,
      (limaGemWait kiloHertz neverIdle 5 1 6).1 = some timeout ∧
      0 ≤ timeout ∧ timeout < kiloHertz.maxScheduleTimeout ∧
      (neverIdle.busy (1 &&& limaGemWaitWrite ≠ 0) timeout = true →
        (limaGemWait kiloHertz neverIdle 5 1 6).2 = some .etimedout) :=
  ⟨by decide, by decide, by decide,
    (gem_wait_bounded kiloHertz neverIdle (by decide : (0 : ℤ) ≤ 5)).2.2 1 6 (by decide)
      (by decide)⟩

end Lima
