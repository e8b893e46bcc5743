import Lima.Basic

/-!
# Polling against the coarse clock

`lima_poll_timeout` takes its deadline and its expiry test from `ktime_get`, which
returns the time of the last tick, and it does not look at the condition again once the
deadline has passed. Times are integers, in nanoseconds of real time; the polling thread
may be preempted anywhere, so a run is given by the moments at which it reads.
-/

namespace Lima

/-! ## The coarse clock -/

/-- A clock that advances on a tick only. -/
structure CoarseClock where
  period : ℤ
  phase : ℤ
  pos : 0 < period

namespace CoarseClock

variable (c : CoarseClock)

/-- `ktime_get`: the time of the last tick. -/
def now (t : ℤ) : ℤ := c.phase + c.period * ((t - c.phase) / c.period)

theorem now_le (t : ℤ) : c.now t ≤ t := by
  have h := Int.mul_ediv_self_le (x := t - c.phase) (k := c.period) c.pos.ne'
  unfold now
  omega

theorem lt_now_add (t : ℤ) : t < c.now t + c.period := by
  have h := Int.lt_mul_ediv_self_add (x := t - c.phase) c.pos
  unfold now
  omega

/-- Two readings are a whole number of ticks apart. -/
theorem dvd_now_sub (t u : ℤ) : c.period ∣ c.now t - c.now u :=
  ⟨(t - c.phase) / c.period - (u - c.phase) / c.period, by unfold now; ring⟩

/-- **A deadline of whole ticks is never early**: once a reading is past it, the time is
past too. -/
theorem lt_of_whole_ticks {t u d : ℤ} (hd : c.period ∣ d) (h : c.now u + d < c.now t) :
    u + d < t := by
  have hdvd : c.period ∣ c.now t - c.now u - d := dvd_sub (c.dvd_now_sub t u) hd
  have htick : c.period ≤ c.now t - c.now u - d := Int.le_of_dvd (by omega) hdvd
  have hu := c.lt_now_add u
  have ht := c.now_le t
  omega

end CoarseClock

/-! ## The polling loop -/

/-- The least sleep of `usleep_range((sleep_us >> 2) + 1, sleep_us)`. -/
def pollSleep (sleepUs : ℕ) : ℤ := if sleepUs = 0 then 0 else 1000 * ((sleepUs >>> 2 : ℕ) + 1)

/-- When the thread enters the function, reads the clock for the deadline, and, in each
round, evaluates the condition and reads the clock. -/
structure PollSchedule (sleepUs : ℕ) where
  entry : ℤ
  read : ℤ
  poll : ℕ → ℤ
  check : ℕ → ℤ
  entry_le : entry ≤ read
  read_le : read ≤ poll 0
  poll_lt : ∀ k, poll k < check k
  sleeps : ∀ k, check k + pollSleep sleepUs ≤ poll (k + 1)

section Poll

variable {sleepUs : ℕ} (c : CoarseClock) (timeoutUs : ℕ) (s : PollSchedule sleepUs)

/-- `ktime_add_us(ktime_get(), timeout_us)`. -/
def PollSchedule.deadline : ℤ := c.now s.read + 1000 * timeoutUs

/-- `timeout_us && ktime_compare(ktime_get(), timeout) > 0`. -/
def PollSchedule.Expired (k : ℕ) : Prop :=
  timeoutUs ≠ 0 ∧ s.deadline c timeoutUs < c.now (s.check k)

instance (k : ℕ) : Decidable (s.Expired c timeoutUs k) :=
  inferInstanceAs (Decidable (_ ∧ _))

/-- `lima_poll_timeout` from round `k` on; `ready t` is the condition at time `t`. -/
def limaPollTimeout (ready : ℤ → Bool) : ℕ → ℕ → Outcome (Option Errno)
  | 0, _ => .hang
  | fuel + 1, k =>
      if ready (s.poll k) then .ok none
      else if s.Expired c timeoutUs k then .ok (some .etimedout)
      else limaPollTimeout ready fuel (k + 1)

/-- `timeout_us` after the entry. -/
def PollSchedule.limit : ℤ := s.entry + 1000 * timeoutUs

/-- **What is promised**: success if the condition becomes true in time, a timeout only
if it is still false when the time is over. -/
def PollRight (ready : ℤ → Bool) : Prop :=
  ((∃ t < s.limit timeoutUs, ready t = true) →
    ∃ fuel, limaPollTimeout c timeoutUs s ready fuel 0 = .ok none) ∧
  ∀ fuel, limaPollTimeout c timeoutUs s ready fuel 0 = .ok (some .etimedout) →
    ready (s.limit timeoutUs) = false

/-- In the first round to find the clock past the deadline, the condition was evaluated
no earlier than `timeout_us` after the entry. -/
def PollSchedule.LastPollLate : Prop :=
  ∀ k, (∀ j < k, ¬ s.Expired c timeoutUs j) → s.Expired c timeoutUs k →
    s.limit timeoutUs ≤ s.poll k

/-- A condition that stays true. -/
def StaysTrue (ready : ℤ → Bool) : Prop := ∀ t u, t ≤ u → ready t = true → ready u = true

/-! ## Rounds -/

variable {c timeoutUs s} {ready : ℤ → Bool}

/-- Rounds that find neither are passed over. -/
theorem limaPollTimeout_skip (fuel : ℕ) : ∀ n k,
    (∀ i < n, ready (s.poll (k + i)) = false ∧ ¬ s.Expired c timeoutUs (k + i)) →
    limaPollTimeout c timeoutUs s ready (fuel + n) k =
      limaPollTimeout c timeoutUs s ready fuel (k + n)
  | 0, _, _ => rfl
  | n + 1, k, h => by
      obtain ⟨hready, hexp⟩ := h 0 (Nat.succ_pos n)
      have hnext := limaPollTimeout_skip fuel n (k + 1) fun i hi => by
        have hi' := h (i + 1) (Nat.succ_lt_succ hi)
        rwa [show k + (i + 1) = k + 1 + i by omega] at hi'
      rw [Nat.add_zero] at hready hexp
      rw [← Nat.add_assoc, limaPollTimeout, hready, if_neg Bool.false_ne_true, if_neg hexp, hnext,
        show k + 1 + n = k + (n + 1) by omega]

/-- A timeout comes from a round that finds the deadline passed, after rounds that did
not, and no round has found the condition true. -/
theorem limaPollTimeout_timedout : ∀ {fuel k : ℕ},
    limaPollTimeout c timeoutUs s ready fuel k = .ok (some .etimedout) →
    ∃ n, (∀ i < n, ¬ s.Expired c timeoutUs (k + i)) ∧ s.Expired c timeoutUs (k + n) ∧
      ready (s.poll (k + n)) = false
  | 0, _, h => by cases h
  | fuel + 1, k, h => by
      rw [limaPollTimeout] at h
      split at h
      · cases h
      · rename_i hready
        split at h
        · rename_i hexp
          exact ⟨0, fun i hi => absurd hi (Nat.not_lt_zero i), hexp, by simpa using hready⟩
        · rename_i hexp
          obtain ⟨n, hbefore, hn, hpoll⟩ := limaPollTimeout_timedout h
          rw [show k + 1 + n = k + (n + 1) by omega] at hn hpoll
          refine ⟨n + 1, fun i hi => ?_, hn, hpoll⟩
          cases i with
          | zero => exact hexp
          | succ i =>
              rw [show k + (i + 1) = k + 1 + i by omega]
              exact hbefore i (by omega)

/-! ## Time passes -/

theorem pollSleep_nonneg (sleepUs : ℕ) : 0 ≤ pollSleep sleepUs := by
  unfold pollSleep
  split <;> omega

theorem PollSchedule.le_poll (s : PollSchedule sleepUs) (k : ℕ) : s.read + k ≤ s.poll k := by
  have hsleep := pollSleep_nonneg sleepUs
  induction k with
  | zero => simpa using s.read_le
  | succ k ih =>
      have h1 := s.poll_lt k
      have h2 := s.sleeps k
      push_cast
      omega

theorem PollSchedule.poll_mono (s : PollSchedule sleepUs) {i j : ℕ} (h : i ≤ j) :
    s.poll i ≤ s.poll j := by
  have hsleep := pollSleep_nonneg sleepUs
  induction h with
  | refl => exact le_rfl
  | @step j _ ih =>
      have h1 := s.poll_lt j
      have h2 := s.sleeps j
      show s.poll i ≤ s.poll (j + 1)
      omega

/-- The clock passes every deadline. -/
theorem PollSchedule.expires (s : PollSchedule sleepUs) (htimeout : 0 < timeoutUs) :
    ∃ k, s.Expired c timeoutUs k := by
  refine ⟨(1000 * timeoutUs + c.period).toNat, htimeout.ne', ?_⟩
  have hpoll := s.le_poll (1000 * timeoutUs + c.period).toNat
  have hcheck := s.poll_lt (1000 * timeoutUs + c.period).toNat
  have hpos := c.pos
  have hnow := c.lt_now_add (s.check (1000 * timeoutUs + c.period).toNat)
  have hread := c.now_le s.read
  unfold PollSchedule.deadline
  omega

/-- The first round that finds the deadline passed. -/
theorem PollSchedule.first_expiry (s : PollSchedule sleepUs) (htimeout : 0 < timeoutUs) :
    ∃ k, (∀ j < k, ¬ s.Expired c timeoutUs j) ∧ s.Expired c timeoutUs k := by
  have hex := s.expires (c := c) htimeout
  exact ⟨Nat.find hex, fun j hj => Nat.find_min hex hj, Nat.find_spec hex⟩

/-! ## The guarantee -/

/-- The function returns 0 if a round up to the first expiry finds the condition true. -/
theorem limaPollTimeout_ok {k : ℕ} (hbefore : ∀ j < k, ¬ s.Expired c timeoutUs j)
    (hready : ready (s.poll k) = true) :
    ∃ fuel, limaPollTimeout c timeoutUs s ready fuel 0 = .ok none := by
  have hex : ∃ j, ready (s.poll j) = true := ⟨k, hready⟩
  have hle : Nat.find hex ≤ k := Nat.find_min' hex hready
  refine ⟨1 + Nat.find hex, ?_⟩
  rw [limaPollTimeout_skip 1 (Nat.find hex) 0 fun i hi => ?_, Nat.zero_add, limaPollTimeout,
    if_pos (Nat.find_spec hex)]
  rw [Nat.zero_add]
  exact ⟨by simpa using Nat.find_min hex hi, hbefore i (by omega)⟩

/-- A condition that becomes true just after the last poll is missed. -/
theorem limaPollTimeout_missed {k : ℕ} (hbefore : ∀ j < k, ¬ s.Expired c timeoutUs j)
    (hexp : s.Expired c timeoutUs k) :
    limaPollTimeout c timeoutUs s (fun t => decide (s.poll k < t)) (1 + k) 0 =
      .ok (some .etimedout) := by
  have hfalse : ∀ j ≤ k, decide (s.poll k < s.poll j) = false := fun j hj => by
    simpa using s.poll_mono hj
  rw [limaPollTimeout_skip 1 k 0 fun i hi => ?_, Nat.zero_add, limaPollTimeout,
    hfalse k le_rfl, if_neg Bool.false_ne_true, if_pos hexp]
  rw [Nat.zero_add]
  exact ⟨hfalse i hi.le, hbefore i hi⟩

/-- **`lima_poll_timeout` keeps its promise for every condition iff the last poll is late
enough.** -/
theorem limaPollTimeout_right_iff (c : CoarseClock) (timeoutUs : ℕ) (htimeout : 0 < timeoutUs)
    (s : PollSchedule sleepUs) :
    (∀ ready, StaysTrue ready → PollRight c timeoutUs s ready) ↔ s.LastPollLate c timeoutUs := by
  constructor
  · intro hright k hbefore hexp
    by_contra hearly
    have hstays : StaysTrue fun t => decide (s.poll k < t) := fun t u htu ht => by
      simp only [decide_eq_true_eq] at ht ⊢
      omega
    have hnot := (hright _ hstays).2 (1 + k) (limaPollTimeout_missed hbefore hexp)
    exact hearly (by simpa using hnot)
  · intro hlate ready hstays
    constructor
    · rintro ⟨t, ht, hready⟩
      obtain ⟨k, hbefore, hexp⟩ := s.first_expiry (c := c) htimeout
      have hpoll := hlate k hbefore hexp
      exact limaPollTimeout_ok hbefore (hstays t (s.poll k) (by omega) hready)
    · intro fuel hrun
      obtain ⟨n, hbefore, hexp, hpoll⟩ := limaPollTimeout_timedout hrun
      simp only [Nat.zero_add] at hbefore hexp hpoll
      by_contra hready
      rw [Bool.not_eq_false] at hready
      rw [hstays _ _ (hlate n hbefore hexp) hready] at hpoll
      cases hpoll

end Poll

/-! ## Ticks of one millisecond -/

/-- `hz = 1000`. -/
def milliClock : CoarseClock := ⟨1000000, 0, by decide⟩

/-- A thread that polls every other nanosecond from time `entry` on. -/
def busySchedule (entry : ℤ) : PollSchedule 0 where
  entry := entry
  read := entry
  poll k := entry + 2 * k
  check k := entry + 2 * k + 1
  entry_le := le_rfl
  read_le := by simp
  poll_lt k := by omega
  sleeps k := by
    simp only [pollSleep, if_true]
    push_cast
    omega

/-- The L2 flush's 20 ms, entered right after a tick, with the cache ready after 15 ms. -/
theorem limaPollTimeout_right_flush :
    PollRight milliClock 20000 (busySchedule 0) fun t => decide (15000000 ≤ t) := by
  refine (limaPollTimeout_right_iff milliClock 20000 (by decide) (busySchedule 0)).mpr ?_ _ ?_
  · rintro k - ⟨-, hexp⟩
    have hlt : (0 : ℤ) + 1000 * 20000 < (busySchedule 0).check k :=
      milliClock.lt_of_whole_ticks ⟨20, by decide⟩ hexp
    simp only [busySchedule] at hlt
    show (0 : ℤ) + 1000 * 20000 ≤ 0 + 2 * k
    omega
  · intro t u htu ht
    simp only [decide_eq_true_eq] at ht ⊢
    omega

/-- A core reset's 100 us, entered one nanosecond before a tick: the first round finds
the deadline passed, although the condition becomes true a nanosecond later. -/
theorem limaPollTimeout_early :
    limaPollTimeout milliClock 100 (busySchedule 999999) (fun t => decide (1000001 ≤ t)) 1 0 =
        .ok (some .etimedout) ∧
      ¬ PollRight milliClock 100 (busySchedule 999999) fun t => decide (1000001 ≤ t) := by
  have hrun : limaPollTimeout milliClock 100 (busySchedule 999999)
      (fun t => decide (1000001 ≤ t)) 1 0 = .ok (some .etimedout) := rfl
  refine ⟨hrun, fun hright => ?_⟩
  have hfalse := hright.2 1 hrun
  revert hfalse
  decide

end Lima
