import Lima.Vm.Table

/-!
# The mapping and unmapping loops

Each loop of `lima_vm.c` is an overlay of the page-number view: mapping the
pages of an sg table fills a run of entries, unmapping a range fills it with
zeros. Both leave everything else of the address space alone. The unmap loop
runs on `u32` addresses with an inclusive end, so it needs the range to stop
short of 4 GiB; at 4 GiB it does not end.
-/

namespace Lima

open Overlay

/-! ## Mapping -/

/-- The first `n` pages of `pas` have been mapped from page number `p` on. -/
structure MapRun (dmaAlloc : ℕ → Option ℕ) (p : ℕ) (pas : List ℕ) (n : ℕ)
    (vm vm' : Vm) : Prop where
  entry : vm'.entry = fill vm.entry p n fun k => leafPte (pas.getD k 0)
  frame : VmFrame dmaAlloc vm vm'
  table : ∀ k < n, vm'.HasTable (p + k)
  low : ∀ k < n, pas.getD k 0 ≤ limaVmMaxPage

theorem MapRun.zero (dmaAlloc : ℕ → Option ℕ) (p : ℕ) (pas : List ℕ) (vm : Vm) :
    MapRun dmaAlloc p pas 0 vm vm :=
  ⟨by simp, .refl _ _, by simp, by simp⟩

/-- Mapping the first page and then `n` more. -/
theorem MapRun.cons {dmaAlloc : ℕ → Option ℕ} {p pa n : ℕ} {pas : List ℕ}
    {vm vm₁ vm' : Vm} {va : ℕ} (hva : va / 4096 = p)
    (h : limaVmMapPage dmaAlloc vm pa va = .ok vm₁)
    (hrest : MapRun dmaAlloc (p + 1) pas n vm₁ vm') :
    MapRun dmaAlloc p (pa :: pas) (n + 1) vm vm' where
  entry := by
    rw [hrest.entry, (limaVmMapPage_ok h).1, fill_succ, hva]
    rfl
  frame := (limaVmMapPage_ok h).2.2.trans hrest.frame
  table k hk := by
    cases k with
    | zero => exact hrest.frame.hasTable (hva ▸ (limaVmMapPage_ok h).2.1)
    | succ k =>
        have := hrest.table k (by omega)
        rwa [Nat.add_assoc, Nat.add_comm 1] at this
  low k hk := by
    cases k with
    | zero => exact (limaVmMapPage_cases h).1
    | succ k => exact hrest.low k (by omega)

/-- What the mapping loop has done when it stops after `n` pages, with or
without an error. -/
theorem limaVmMapPages_spec {dmaAlloc : ℕ → Option ℕ} {base : ℕ} :
    ∀ {pas : List ℕ} {vm vm' : Vm} {offset offset' p : ℕ} {e : Option Errno},
      limaVmMapPages dmaAlloc base pas vm offset = (vm', offset', e) →
      base + offset = 4096 * p → p + pas.length ≤ 2 ^ 20 →
      ∃ n ≤ pas.length, offset' = offset + 4096 * n ∧
        (e = none ↔ n = pas.length) ∧ MapRun dmaAlloc p pas n vm vm'
  | [], vm, vm', offset, offset', p, e, h, _, _ => by
      obtain ⟨rfl, rfl, rfl⟩ : vm = vm' ∧ offset = offset' ∧ none = e := by
        simpa [limaVmMapPages] using h
      exact ⟨0, le_refl _, rfl, by simp, .zero _ _ _ _⟩
  | pa :: pas, vm, vm', offset, offset', p, e, h, hp, hlen => by
      simp only [List.length_cons] at hlen ⊢
      have hva : u32 (base + offset) / 4096 = p := by
        rw [u32_of_lt (by omega)]
        omega
      rw [limaVmMapPages] at h
      split at h
      · obtain ⟨rfl, rfl, rfl⟩ := by simpa using h
        exact ⟨0, Nat.zero_le _, rfl, by simp, .zero _ _ _ _⟩
      · rename_i vm₁ hpage
        have hnext : base + (offset + limaPageSize) = 4096 * (p + 1) := by
          rw [limaPageSize]
          omega
        obtain ⟨n, hn, hoff, herr, hrun⟩ :=
          limaVmMapPages_spec h hnext (by omega)
        refine ⟨n + 1, by omega, ?_, ?_, .cons hva hpage hrun⟩
        · rw [hoff, limaPageSize]
          omega
        · rw [herr]
          omega

/-- Pages that can all be mapped are all mapped. -/
theorem limaVmMapPages_total {dmaAlloc : ℕ → Option ℕ} {base : ℕ} :
    ∀ {pas : List ℕ} {vm : Vm} {offset p : ℕ},
      base + offset = 4096 * p → p + pas.length ≤ 2 ^ 20 →
      (∀ k < pas.length, vm.CanMap dmaAlloc (p + k) (pas.getD k 0)) →
      (limaVmMapPages dmaAlloc base pas vm offset).2.2 = none
  | [], _, _, _, _, _, _ => rfl
  | pa :: pas, vm, offset, p, hp, hlen, hcan => by
      simp only [List.length_cons] at hlen hcan
      have hva : u32 (base + offset) / 4096 = p := by
        rw [u32_of_lt (by omega)]
        omega
      have hnext : base + (offset + limaPageSize) = 4096 * (p + 1) := by
        rw [limaPageSize]
        omega
      obtain ⟨vm₁, hpage⟩ : ∃ vm₁,
          limaVmMapPage dmaAlloc vm pa (u32 (base + offset)) = .ok vm₁ :=
        limaVmMapPage_total (hva ▸ hcan 0 (by omega))
      rw [limaVmMapPages, hpage]
      refine limaVmMapPages_total hnext (by omega) fun k hk => ?_
      have hlater := (hcan (k + 1) (by omega)).frame (limaVmMapPage_ok hpage).2.2.toTableFrame
      rwa [Nat.add_comm k 1, ← Nat.add_assoc, Nat.add_comm 1 k] at hlater

/-- A property that every mapped page preserves holds after the loop. -/
theorem limaVmMapPages_preserves {dmaAlloc : ℕ → Option ℕ} {base : ℕ}
    {P : Vm → Prop}
    (hpage : ∀ vm vm' pa va, P vm → va < 2 ^ 32 →
      limaVmMapPage dmaAlloc vm pa va = .ok vm' → P vm') :
    ∀ {pas : List ℕ} {vm vm' : Vm} {offset offset' : ℕ} {e : Option Errno},
      P vm → limaVmMapPages dmaAlloc base pas vm offset = (vm', offset', e) →
      P vm'
  | [], vm, vm', offset, offset', e, hP, h => by
      obtain rfl : vm = vm' := congrArg Prod.fst h
      exact hP
  | pa :: pas, vm, vm', offset, offset', e, hP, h => by
      rw [limaVmMapPages] at h
      split at h
      · obtain rfl : vm = vm' := congrArg Prod.fst h
        exact hP
      · rename_i vm₁ hok
        exact limaVmMapPages_preserves hpage (hpage _ _ _ _ hP (u32_lt _) hok) h

/-! ## Unmapping -/

/-- The entries of the `n` pages from page number `p` on have been cleared,
each through its own backing table. -/
structure UnmapRun (p n : ℕ) (u u' : Unmap) : Prop where
  entry : u'.vm.entry = fill u.vm.entry p n fun _ => 0
  frame : VmFrame (fun _ => none) u.vm u'.vm
  pd : u'.vm.pd = u.vm.pd
  touched : u'.touched = u.touched ++ (List.range' p n).map (· / 8192)

/-- Clearing one page and then `n` more. -/
theorem UnmapRun.cons {p n : ℕ} {u u' : Unmap} {bt : DmaBlock}
    (hbt : u.vm.bts (p / 8192) = some bt)
    (hrest : UnmapRun (p + 1) n
      ⟨u.vm.setBt (p / 8192) (bt.set (p % 8192) 0), u.touched ++ [p / 8192]⟩ u') :
    UnmapRun p (n + 1) u u' where
  entry := by
    rw [hrest.entry, fill_succ, Vm.entry, Vm.setBt_bts, entryOf_store hbt]
    rfl
  frame := (Vm.setBt_frame hbt _ _ _).trans hrest.frame
  pd := hrest.pd
  touched := by
    rw [hrest.touched, List.range'_succ, List.map_cons, List.append_assoc]
    rfl

/-- The step of the loop at a page below the end. -/
theorem limaVmUnmapRange_step {fuel p stop : ℕ} (u : Unmap)
    (hstop : 4096 * p ≤ stop) (hp : p + 1 < 2 ^ 20) :
    limaVmUnmapRange (fuel + 1) u (4096 * p) stop =
      match u.vm.bts (p / 8192) with
      | none => .oops
      | some bt => limaVmUnmapRange fuel
          ⟨u.vm.setBt (p / 8192) (bt.set (p % 8192) 0), u.touched ++ [p / 8192]⟩
          (4096 * (p + 1)) stop := by
  have hdiv : 4096 * p / 4096 = p := by omega
  have hnext : u32 (4096 * p + limaPageSize) = 4096 * (p + 1) := by
    rw [u32_of_lt (by simp only [limaPageSize]; omega), limaPageSize]
    omega
  rw [limaVmUnmapRange, if_pos hstop]
  cases hbt : u.vm.bts (p / 8192) <;>
    simp only [limaPbe_eq, limaBte_eq, hdiv, hnext, hbt]

/-- A completed unmap of a range that stops short of 4 GiB cleared the pages
of the range, and only touched their tables. -/
theorem limaVmUnmapRange_spec {stop : ℕ} :
    ∀ {n fuel p : ℕ} {u u' : Unmap}, p + n < 2 ^ 20 → stop + 1 = 4096 * (p + n) →
      limaVmUnmapRange fuel u (4096 * p) stop = .ok u' → UnmapRun p n u u'
  | n, 0, p, u, u', _, _, h => by cases h
  | 0, fuel + 1, p, u, u', _, hstop, h => by
      rw [limaVmUnmapRange, if_neg (by omega)] at h
      obtain rfl := Outcome.ok.inj h
      exact ⟨by simp, .refl _ _, rfl, by simp⟩
  | n + 1, fuel + 1, p, u, u', hp, hstop, h => by
      rw [limaVmUnmapRange_step u (by omega) (by omega)] at h
      split at h
      · cases h
      · rename_i bt hbt
        exact .cons hbt (limaVmUnmapRange_spec (by omega) (by omega) h)

/-- With all tables present, such an unmap completes. -/
theorem limaVmUnmapRange_total {stop : ℕ} :
    ∀ {n p : ℕ} {u : Unmap}, p + n < 2 ^ 20 → stop + 1 = 4096 * (p + n) →
      (∀ k < n, u.vm.HasTable (p + k)) →
      ∃ u', limaVmUnmapRange (n + 1) u (4096 * p) stop = .ok u'
  | 0, p, u, _, hstop, _ => by
      rw [limaVmUnmapRange, if_neg (by omega)]
      exact ⟨u, rfl⟩
  | n + 1, p, u, hp, hstop, ht => by
      obtain ⟨bt, hbt⟩ : ∃ bt, u.vm.bts (p / 8192) = some bt :=
        Option.isSome_iff_exists.mp (ht 0 (by omega))
      rw [limaVmUnmapRange_step u (by omega) (by omega), hbt]
      refine limaVmUnmapRange_total (by omega) (by omega) fun k hk => ?_
      have := (Vm.setBt_frame hbt (p % 8192) 0 fun _ => none).hasTable
        (ht (k + 1) (by omega))
      rwa [Nat.add_assoc, Nat.add_comm 1]

/-- **An inclusive end at the top of the address space is never passed**: no
amount of fuel completes the loop. -/
theorem limaVmUnmapRange_top : ∀ {fuel : ℕ} {u : Unmap} {addr : ℕ},
    addr < 2 ^ 32 → ∀ u', limaVmUnmapRange fuel u addr (2 ^ 32 - 1) ≠ .ok u'
  | 0, _, _, _, _ => by rintro ⟨⟩
  | fuel + 1, u, addr, haddr, u' => by
      rw [limaVmUnmapRange, if_pos (by omega)]
      simp only
      split
      · rintro ⟨⟩
      · exact limaVmUnmapRange_top (u32_lt _) u'

/-- A property that every cleared entry preserves holds after the loop. -/
theorem limaVmUnmapRange_preserves {P : Vm → Prop}
    (hclear : ∀ vm pbe bt bte, P vm → vm.bts pbe = some bt →
      P (vm.setBt pbe (bt.set bte 0))) :
    ∀ {fuel : ℕ} {u u' : Unmap} {addr stop : ℕ}, P u.vm →
      limaVmUnmapRange fuel u addr stop = .ok u' → P u'.vm
  | 0, _, _, _, _, _, h => by cases h
  | fuel + 1, u, u', addr, stop, hP, h => by
      rw [limaVmUnmapRange] at h
      split at h
      · simp only at h
        split at h
        · cases h
        · rename_i bt hbt
          exact limaVmUnmapRange_preserves hclear (hclear _ _ _ _ hP hbt) h
      · obtain rfl := Outcome.ok.inj h
        exact hP

end Lima
