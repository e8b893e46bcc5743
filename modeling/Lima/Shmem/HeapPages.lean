import Lima.Shmem.Counts
import Lima.Vm.Calls

/-!
# The backing pages of a heap

`lima_heap_alloc` reads the pages between the old and the new size, each of which comes
back wired, and records them in `pages[]`; the size is committed at the very end. An
attempt that fails keeps the pages it has read, so the next one starts over at a page
that is recorded already and wires it a second time.
-/

namespace Lima

open Overlay

/-- `pages[i]` is set. -/
def Bo.recorded (bo : Bo) (i : ℕ) : Bool := bo.pages.elim false fun p => p i

/-- The shmem object of a heap, which is never mapped by the kernel; its sg table is the
driver's. -/
def Bo.shmem (bo : Bo) : Shmem where
  size := bo.size
  filp := bo.filp
  pages := bo.pages
  pagesUseCount := bo.pagesUseCount
  madv := 0
  sgt := bo.sgt.isSome
  vaddr := false
  vmapUseCount := 0
  mapWc := true
  wires := bo.wires
  wc := fun _ => false

/-! ## Attempts to grow a heap -/

inductive HeapEvent where
  | alloc (env : HeapEnv) (fuel : ℕ) (vm : Option VmId)
  /-- Other calls change the address spaces, and where the heap is mapped. -/
  | other (s : Sys)

/-- Attempts to grow heap `b`, from its creation on. -/
def heapLts (initNrPages : ℕ) (b : BoId) : Lts Sys HeapEvent where
  init s := (s.bo b).isHeap = true ∧ (s.bo b).heapSize = 0 ∧ (s.bo b).pages = none ∧
    (s.bo b).pagesUseCount = 0 ∧ ∀ i, (s.bo b).wires i = 0
  step s e s' :=
    match e with
    | .alloc env fuel vm => ∃ r, limaHeapAlloc initNrPages env fuel s b vm = .ok (s', r)
    | .other s₁ => s' = s₁ ∧ s₁.bo b = { s.bo b with va := (s₁.bo b).va }

/-- An attempt that returns. -/
def heapStep (initNrPages : ℕ) (b : BoId) (s : Sys) : HeapEvent → Option Sys
  | .alloc env fuel vm =>
      (limaHeapAlloc initNrPages env fuel s b vm).toOption.map Prod.fst
  | .other _ => none

theorem heapStep_step {initNrPages : ℕ} {b : BoId} {s s' : Sys} {e : HeapEvent}
    (h : heapStep initNrPages b s e = some s') : (heapLts initNrPages b).step s e s' := by
  cases e with
  | alloc env fuel vm =>
      obtain ⟨⟨s₁, r⟩, hcall, rfl⟩ := Option.map_eq_some_iff.mp h
      exact ⟨r, Outcome.toOption_eq_some.mp hcall⟩
  | other s₁ => cases h

/-- The attempt reads a page that an earlier attempt has recorded. -/
def Bo.Rereads (initNrPages : ℕ) (env : HeapEnv) (bo : Bo) : Prop :=
  bo.recorded (bo.heapSize / limaPageSize) = true ∧
    bo.heapSize / limaPageSize < bo.grownSize initNrPages / limaPageSize ∧
    env.readPage (bo.heapSize / limaPageSize) = none

/-- No attempt reads a page again. -/
def ReadsOnce (initNrPages : ℕ) (b : BoId) (s : Sys) : HeapEvent → Prop
  | .alloc env _ _ => ¬ (s.bo b).Rereads initNrPages env
  | .other _ => True

instance (initNrPages : ℕ) (env : HeapEnv) (bo : Bo) :
    Decidable (bo.Rereads initNrPages env) :=
  inferInstanceAs (Decidable (_ ∧ _ ∧ _))

/-- The first `n` pages are recorded, and wired once; no other page is. -/
structure HeapWired (bo : Bo) (n : ℕ) : Prop where
  recorded : ∀ i, bo.recorded i = true ↔ i < n
  wires : ∀ i, bo.wires i = if i < n then 1 else 0
  heap_le : bo.heapSize / limaPageSize ≤ n
  le_size : n ≤ bo.size / limaPageSize
  count : bo.pagesUseCount = if bo.pages.isSome then 1 else 0
  filp : bo.pages.isSome = true → bo.filp = true

/-! ## The loop -/

theorem readHeapPages_spec {readPage : ℕ → Option Errno} :
    ∀ {n i : ℕ} {bo bo' : Bo} {r : Option Errno},
      readHeapPages readPage n i bo = (bo', r) →
      ∃ k, k ≤ n ∧ (r = none → k = n) ∧ (0 < n → readPage i = none → 0 < k) ∧
        (0 < k → readPage i = none) ∧ bo' = { bo with
          pages := bo.pages.map fun p => fill p i k fun _ => true
          wires := fill bo.wires i k fun j => bo.wires (i + j) + 1 } := by
  intro n
  induction n with
  | zero =>
      intro i bo bo' r h
      obtain ⟨rfl, rfl⟩ := Prod.mk.inj h
      refine ⟨0, le_rfl, fun _ => rfl, fun hlt => absurd hlt (lt_irrefl 0),
        fun hlt => absurd hlt (lt_irrefl 0), ?_⟩
      cases hp : bo.pages <;> simp [← hp]
  | succ n ih =>
      intro i bo bo' r h
      rw [readHeapPages] at h
      cases hread : readPage i with
      | some e =>
          rw [hread] at h
          obtain ⟨rfl, rfl⟩ := Prod.mk.inj h
          refine ⟨0, Nat.zero_le _, ?_, ?_, fun hlt => absurd hlt (lt_irrefl 0), ?_⟩
          · intro hr
            cases hr
          · intro _ hnone
            cases hnone
          · cases hp : bo.pages <;> simp [← hp]
      | none =>
          rw [hread] at h
          obtain ⟨k, hk, hr, -, -, rfl⟩ := ih h
          refine ⟨k + 1, Nat.succ_le_succ hk, fun hnone => congrArg Nat.succ (hr hnone),
            fun _ _ => Nat.succ_pos k, fun _ => rfl, ?_⟩
          rw [← wires_succ]
          cases bo.pages with
          | none => rfl
          | some p =>
              simp only [Option.map_some]
              rw [fill_succ p]

/-! ## Steps -/

namespace HeapWired

variable {bo bo' : Bo} {n : ℕ}

/-- What the loop has done to the record and the wires. -/
theorem read {initNrPages : ℕ} {env : HeapEnv} {r : Option Errno} (h : HeapWired bo n)
    (hread : bo.ReadInto initNrPages env bo' r) :
    ∃ k, bo.heapSize / limaPageSize + k ≤ max (bo.heapSize / limaPageSize)
        (bo.grownSize initNrPages / limaPageSize) ∧
      (r = none → bo.grownSize initNrPages / limaPageSize ≤
        bo.heapSize / limaPageSize + k) ∧
      (0 < k → bo.heapSize / limaPageSize < bo.grownSize initNrPages / limaPageSize ∧
        env.readPage (bo.heapSize / limaPageSize) = none) ∧
      (bo.Rereads initNrPages env → 0 < k) ∧
      (∀ i, bo'.recorded i = true ↔
        i < n ∨ bo.heapSize / limaPageSize ≤ i ∧ i < bo.heapSize / limaPageSize + k) ∧
      (∀ i, bo'.wires i = (if i < n then 1 else 0) +
        if bo.heapSize / limaPageSize ≤ i ∧ i < bo.heapSize / limaPageSize + k then 1
        else 0) ∧
      bo'.pages.isSome = true ∧ bo'.pagesUseCount = 1 := by
  obtain ⟨-, bo₁, r₁, halloc, hloop, hr⟩ := hread
  obtain ⟨k, hk, hall, hpos, hfirst, rfl⟩ := readHeapPages_spec hloop
  -- the array is there, and records what was recorded
  have halloc' : ∃ p, bo₁.pages = some p ∧ (∀ i, p i = bo.recorded i) ∧
      bo₁.wires = bo.wires ∧ bo₁.pagesUseCount = 1 := by
    unfold Bo.allocPages at halloc
    cases hp : bo.pages with
    | some p =>
        simp only [hp] at halloc
        obtain rfl := Option.some.inj halloc
        refine ⟨p, hp, fun i => ?_, rfl, ?_⟩
        · simp [Bo.recorded, hp]
        · rw [h.count, hp]
          rfl
    | none =>
        simp only [hp] at halloc
        split at halloc
        · obtain rfl := Option.some.inj halloc
          exact ⟨_, rfl, fun i => by simp [Bo.recorded, hp], rfl, rfl⟩
        · cases halloc
  obtain ⟨p, hp, hrec, hwires, hcount⟩ := halloc'
  refine ⟨k, by omega, fun hnone => ?_, fun hlt => ⟨by omega, hfirst hlt⟩,
    fun hre => hpos (by have := hre.2.1; omega) hre.2.2, fun i => ?_, fun i => ?_, ?_, hcount⟩
  · have := hall (hr hnone)
    omega
  · have hfill : ({ bo₁ with
        pages := bo₁.pages.map fun p => fill p (bo.heapSize / limaPageSize) k fun _ => true
        wires := fill bo₁.wires (bo.heapSize / limaPageSize) k fun j =>
          bo₁.wires (bo.heapSize / limaPageSize + j) + 1 } : Bo).recorded i =
        fill p (bo.heapSize / limaPageSize) k (fun _ => true) i := by
      simp [Bo.recorded, hp]
    rw [hfill, ← h.recorded i, ← hrec i]
    unfold fill
    split <;> simp [*]
  · simp only [hwires]
    unfold fill
    split
    · rename_i hin
      show bo.wires (_ + (i - _)) + 1 = _
      rw [Nat.add_sub_cancel' hin.1, h.wires]
    · rw [h.wires, Nat.add_zero]
  · simp [hp]

end HeapWired

section Attempt

variable {initNrPages : ℕ} {env : HeapEnv} {fuel : ℕ} {s s' : Sys} {b : BoId}
  {vm : Option VmId} {r : Option Errno} {n : ℕ}

/-- What a completed attempt leaves in the object. -/
theorem limaHeapAlloc_bo (h : limaHeapAlloc initNrPages env fuel s b vm = .ok (s', r)) :
    (r ≠ none ∧ s' = s ∧ ((s.bo b).size ≤ (s.bo b).heapSize ∨ (s.bo b).filp = false ∨
      (s.bo b).allocPages env.kvmallocOk = none)) ∨
    (s.bo b).heapSize < (s.bo b).size ∧ ∃ bo, (s.bo b).ReadInto initNrPages env bo r ∧
      ∃ sgt, s'.bo b = { bo with
        sgt := sgt
        heapSize := if r = none then (s.bo b).grownSize initNrPages
          else (s.bo b).heapSize } := by
  obtain ⟨e, rfl, rfl, hreason⟩ | ⟨hlt, bo, hread, hcase⟩ := limaHeapAlloc_cases h
  · exact .inl ⟨nofun, rfl, hreason⟩
  have hheap : bo.heapSize = (s.bo b).heapSize := by rw [hread.same]
  refine .inr ⟨hlt, bo, hread, ?_⟩
  obtain ⟨e, rfl, rfl | rfl⟩ | ⟨-, rfl, rfl⟩ | ⟨v, s₁, -, -, ⟨rfl, rfl⟩ | ⟨hr, rfl⟩⟩ := hcase
  · exact ⟨bo.sgt, by simp [← hheap]⟩
  · exact ⟨none, by simp [← hheap]⟩
  · exact ⟨some (bo.sgTable ((s.bo b).grownSize initNrPages)), by simp [Bo.withTable]⟩
  · exact ⟨some (bo.sgTable ((s.bo b).grownSize initNrPages)), by simp [Bo.withTable]⟩
  · exact ⟨none, by simp [hr, ← hheap]⟩

/-- An attempt that gives up at once has read no page again. -/
theorem HeapWired.not_rereads (hw : HeapWired (s.bo b) n)
    (hreason : (s.bo b).size ≤ (s.bo b).heapSize ∨ (s.bo b).filp = false ∨
      (s.bo b).allocPages env.kvmallocOk = none) : ¬ (s.bo b).Rereads initNrPages env := by
  intro hre
  obtain ⟨hrec, hlt, -⟩ := hre
  have hpages : (s.bo b).pages.isSome = true := by
    unfold Bo.recorded at hrec
    cases hp : (s.bo b).pages with
    | none => simp [hp] at hrec
    | some p => rfl
  rcases hreason with hsize | hfilp | halloc
  · have hgrown : (s.bo b).grownSize initNrPages ≤ (s.bo b).size := min_le_right _ _
    have hdiv := Nat.div_le_div_right (c := limaPageSize) (hgrown.trans hsize)
    omega
  · have htrue := hw.filp hpages
    rw [hfilp] at htrue
    cases htrue
  · obtain ⟨p, hp⟩ := Option.isSome_iff_exists.mp hpages
    simp [Bo.allocPages, hp] at halloc

/-- **One attempt.** It keeps every page wired once exactly if it reads no page again. -/
theorem HeapWired.alloc (hw : HeapWired (s.bo b) n)
    (h : limaHeapAlloc initNrPages env fuel s b vm = .ok (s', r)) :
    ((s.bo b).Rereads initNrPages env →
      ∃ i, (s'.bo b).recorded i = true ∧ (s'.bo b).wires i = 2) ∧
    (¬ (s.bo b).Rereads initNrPages env → ∃ n', HeapWired (s'.bo b) n') := by
  obtain ⟨-, rfl, hreason⟩ | ⟨hlt, bo, hread, sgt, hbo⟩ := limaHeapAlloc_bo h
  · exact ⟨fun hre => absurd hre (hw.not_rereads hreason), fun _ => ⟨n, hw⟩⟩
  obtain ⟨k, hmax, hall, hpos, hre, hrec, hwires, hsome, hcount⟩ := hw.read hread
  have hgrown : (s.bo b).grownSize initNrPages ≤ (s.bo b).size := min_le_right _ _
  have hgrown' := Nat.div_le_div_right (c := limaPageSize) hgrown
  have hsame : bo.size = (s.bo b).size ∧ bo.filp = (s.bo b).filp := by
    rw [hread.same]
    exact ⟨rfl, rfl⟩
  have hrec' : ∀ i, (s'.bo b).recorded i = bo.recorded i := fun i => by rw [hbo]; rfl
  have hwires' : ∀ i, (s'.bo b).wires i = bo.wires i := fun i => by rw [hbo]
  have hfirst := hw.recorded ((s.bo b).heapSize / limaPageSize)
  have hle := hw.heap_le
  have hle' := hw.le_size
  constructor
  · intro hagain
    have hlt : (s.bo b).heapSize / limaPageSize < n := hfirst.mp hagain.1
    have hk := hre hagain
    refine ⟨(s.bo b).heapSize / limaPageSize, ?_, ?_⟩
    · rw [hrec', hrec]
      exact .inl hlt
    · rw [hwires', hwires, if_pos hlt, if_pos ⟨le_rfl, by omega⟩]
  · intro honce
    -- the loop starts right behind the recorded pages, or has read none
    have hk : k = 0 ∨ n = (s.bo b).heapSize / limaPageSize := by
      by_contra hne
      have hpos' := hpos (by omega)
      exact honce ⟨hfirst.mpr (by omega), hpos'⟩
    have hheap : (s'.bo b).heapSize / limaPageSize ≤ n + k := by
      rw [hbo]
      change (if r = none then _ else _) / limaPageSize ≤ n + k
      split
      · rename_i hr
        have := hall hr
        omega
      · omega
    refine ⟨n + k, ?_, ?_, hheap, ?_, ?_, ?_⟩
    · intro i
      rw [hrec', hrec]
      omega
    · intro i
      rw [hwires', hwires]
      split <;> split <;> split <;> omega
    · have hsize : (s'.bo b).size = (s.bo b).size := by rw [hbo]; exact hsame.1
      rw [hsize]
      rcases hk with rfl | hk
      · omega
      · by_cases hzero : k = 0
        · omega
        · have := (hpos (by omega)).1
          omega
    · have hpages : (s'.bo b).pages = bo.pages := by rw [hbo]
      have hcount' : (s'.bo b).pagesUseCount = bo.pagesUseCount := by rw [hbo]
      rw [hpages, hcount', hcount, hsome]
      rfl
    · intro _
      have hfilp : (s'.bo b).filp = (s.bo b).filp := by rw [hbo]; exact hsame.2
      rw [hfilp]
      exact hread.1

end Attempt

/-! ## Main result -/

section Runs

variable {initNrPages : ℕ} {b : BoId} {s : Sys}

theorem HeapWired.of_via (h : (heapLts initNrPages b).Via (ReadsOnce initNrPages b) s) :
    ∃ n, HeapWired (s.bo b) n := by
  refine Lts.Via.invariant (I := fun s => ∃ n, HeapWired (s.bo b) n) (fun s hs => ?_)
    (fun s e s' _ hi hok hstep => ?_) h
  · obtain ⟨-, hsize, hpages, hcount, hwires⟩ := hs
    refine ⟨0, fun i => ?_, fun i => ?_, ?_, Nat.zero_le _, ?_, fun hsome => ?_⟩
    · simp [Bo.recorded, hpages]
    · rw [hwires, if_neg (Nat.not_lt_zero i)]
    · rw [hsize, Nat.zero_div]
    · rw [hpages]
      exact hcount
    · rw [hpages] at hsome
      cases hsome
  · obtain ⟨n, hw⟩ := hi
    cases e with
    | alloc env fuel vm =>
        obtain ⟨r, halloc⟩ := hstep
        exact (hw.alloc halloc).2 hok
    | other s₁ =>
        obtain ⟨rfl, hbo⟩ := hstep
        rw [hbo]
        exact ⟨n, hw.recorded, hw.wires, hw.heap_le, hw.le_size, hw.count, hw.filp⟩

/-- The final free takes the one wire of every recorded page. -/
theorem HeapWired.free {bo : Bo} {n : ℕ} (hw : HeapWired bo n) :
    ∃ x, bo.shmem.drmGemShmemFree = .ok x ∧ x.pages = none ∧ ∀ i, x.wires i = 0 := by
  have hcount := hw.count
  unfold Shmem.drmGemShmemFree
  cases hp : bo.pages with
  | none =>
      refine ⟨{ bo.shmem with sgt := false }, ?_, hp, fun i => ?_⟩
      · simp [Bo.shmem, hp]
      · have hnone : ¬ i < n := by
          rw [← hw.recorded i]
          simp [Bo.recorded, hp]
        exact (hw.wires i).trans (if_neg hnone)
  | some p =>
      rw [hp] at hcount
      have hput : { bo.shmem with sgt := false }.drmGemShmemPutPages =
          .ok { ({ bo.shmem with
            sgt := false
            pagesUseCount := 0 }.drmGemShmemSetPagesMemattr p false).drmGemShmemFreebsdPutPages
              p with pages := none } := by
        simp [Shmem.drmGemShmemPutPages, Bo.shmem, hcount, drmGemShmemUnref, hp]
      refine ⟨_, (if_pos ?_).trans hput, rfl, fun i => ?_⟩
      · simp [Bo.shmem, hp]
      · have hrec := hw.recorded i
        have hsize := hw.le_size
        simp only [Bo.recorded, hp, Option.elim_some] at hrec
        change (if i < bo.size / limaPageSize ∧ p i = true then bo.wires i - 1
          else bo.wires i) = 0
        rw [hw.wires]
        simp only [hrec]
        split <;> split <;> omega

/-- **Main result.** As long as no attempt reads a page that a failed one has recorded,
every recorded page carries one wire, and after the final free none is left; the first
attempt that does leaves a recorded page with two. -/
theorem heap_wired_once (h : (heapLts initNrPages b).Via (ReadsOnce initNrPages b) s) :
    (∀ i, (s.bo b).wires i = if (s.bo b).recorded i then 1 else 0) ∧
    (∃ x, (s.bo b).shmem.drmGemShmemFree = .ok x ∧ x.pages = none ∧ ∀ i, x.wires i = 0) ∧
    ∀ env fuel vm s' r, limaHeapAlloc initNrPages env fuel s b vm = .ok (s', r) →
      ((∀ i, (s'.bo b).recorded i = true → (s'.bo b).wires i = 1) ↔
        ¬ (s.bo b).Rereads initNrPages env) := by
  obtain ⟨n, hw⟩ := HeapWired.of_via h
  refine ⟨fun i => ?_, hw.free, fun env fuel vm s' r halloc =>
    ⟨fun hone hre => ?_, fun hre i hi => ?_⟩⟩
  · rw [hw.wires]
    simp only [hw.recorded]
  · obtain ⟨i, hrec, htwo⟩ := (hw.alloc halloc).1 hre
    have := hone i hrec
    omega
  · obtain ⟨n', hw'⟩ := (hw.alloc halloc).2 hre
    rw [hw'.wires, if_pos ((hw'.recorded i).mp hi)]

end Runs

/-! ## A heap of eight pages -/

def wiredHeap : Bo where
  size := 32768
  isHeap := true
  heapSize := 0
  filp := true
  pageDma := fun i => i * limaPageSize
  sgt := none
  pages := none
  wires := fun _ => 0
  pagesUseCount := 0
  va := []

def wiredSys : Sys := ⟨fun _ => none, 0, fun _ => wiredHeap⟩

theorem wiredSys_init : (heapLts 2 0).init wiredSys := ⟨rfl, rfl, rfl, rfl, fun _ => rfl⟩

/-- Page `3` cannot be read if `full` is set. -/
def growEnv (full : Bool) : HeapEnv :=
  ⟨true, fun i => if full ∧ i = 3 then some .enomem else none, none, true, none,
    fun _ => none⟩

/-- The creation of the heap with two pages, and a growth to four that fails. -/
def createHeap : HeapEvent := .alloc (growEnv false) 0 none
def failToGrow : HeapEvent := .alloc (growEnv true) 0 (some 0)

theorem heap_wired_once_created : ∃ s : Sys, (s.bo 0).recorded 1 = true ∧
    ∀ i, (s.bo 0).wires i = if (s.bo 0).recorded i then 1 else 0 := by
  have hrun : (heapStep 2 0 wiredSys createHeap).map (fun s => (s.bo 0).recorded 1) =
      some true := rfl
  obtain ⟨s, hs, hrec⟩ := Option.map_eq_some_iff.mp hrun
  have honce : ReadsOnce 2 0 wiredSys createHeap := by
    intro hre
    exact absurd hre.1 (by decide)
  exact ⟨s, hrec, (heap_wired_once (.step (.init wiredSys_init) honce (heapStep_step hs))).1⟩

/-- Two growths that fail at page `3` both wire page `2`, and the final free drops one of
the two wires. -/
theorem heap_wired_twice : ∃ s : Sys, (heapLts 2 0).Reachable s ∧
    (s.bo 0).recorded 2 = true ∧ (s.bo 0).wires 2 = 2 ∧
    ∃ x, (s.bo 0).shmem.drmGemShmemFree = .ok x ∧ x.wires 2 = 1 := by
  have hrun : ((Lts.exec (heapStep 2 0) wiredSys [createHeap, failToGrow, failToGrow]).map fun s =>
      ((s.bo 0).recorded 2, (s.bo 0).wires 2,
        (s.bo 0).shmem.drmGemShmemFree.toOption.map fun x => x.wires 2)) =
      some (true, 2, some 1) := rfl
  obtain ⟨s, hs, hobs⟩ := Option.map_eq_some_iff.mp hrun
  obtain ⟨hrec, hobs⟩ := Prod.mk.inj hobs
  obtain ⟨hwires, hobs⟩ := Prod.mk.inj hobs
  obtain ⟨x, hx, hone⟩ := Option.map_eq_some_iff.mp hobs
  refine ⟨s, ?_, hrec, hwires, x, Outcome.toOption_eq_some.mp hx, hone⟩
  exact Lts.Reachable.exec (fun _ _ _ hstep => heapStep_step hstep) (.init wiredSys_init) hs

end Lima
