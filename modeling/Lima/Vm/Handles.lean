import Lima.Vm.MapCounts
import Lima.Sched.Submit

/-!
# One file's threads on the same handles

A handle can be looked up as soon as it is allocated, before `lima_gem_object_open` has
mapped its object, and a looked up object keeps its GEM reference but not its mapping
while another thread closes the handle. Here the threads of one file interleave between
the handle table's critical sections and those of `bo->lock`; `lima_vm_get_va` and
`lima_vm_bo_del` follow the result of `lima_vm_bo_find` without a check.
-/

namespace Lima

/-! ## Calls in progress -/

/-- A `lima_gem_submit` in progress: the handles it has not looked up, the object it has
looked up and not added yet, the objects it has added and not released. -/
structure GemSubmit where
  rest : List ℕ
  found : Option BoId
  lbos : List BoId
  failed : Bool
deriving DecidableEq

/-- A file with its threads. -/
structure FileCalls where
  sys : Sys
  table : List (ℕ × BoId)
  /-- The handles whose `lima_gem_object_open` has not run. -/
  opening : List (ℕ × BoId)
  /-- The objects of the handles taken from the table whose `lima_gem_object_close` has not
  run. -/
  closing : List BoId
  /-- The objects `lima_gem_get_info` has looked up. -/
  infos : List BoId
  submits : List GemSubmit
  /-- The objects that unfreed tasks have not released. -/
  held : List BoId

inductive FileAct where
  | openBegin (h : ℕ) (b : BoId)
  | openHook (h : ℕ) (b : BoId) (env : BoAddEnv) (fuel : ℕ)
  | closeBegin (h : ℕ) (b : BoId)
  | closeHook (b : BoId) (fuel : ℕ)
  | infoBegin (h : ℕ) (b : BoId)
  | getVa (b : BoId)
  | submitBegin (handles : List ℕ)
  | submitLookup (x : GemSubmit)
  | submitAdd (x : GemSubmit)
  | submitFail (x : GemSubmit)
  | submitQueue (x : GemSubmit)
  | submitUndo (x : GemSubmit) (fuel : ℕ)
  | submitEnd (x : GemSubmit)
  | taskDel (b : BoId) (fuel : ℕ)
  /-- Other files, and the growth of heaps. -/
  | others (sys : Sys)

namespace FileCalls

local instance : LawfulBEq (ℕ × BoId) := inferInstance

variable (v : VmId) (s : FileCalls)

/-- The submit `x` has got to `y`. -/
def moveSubmit (x y : GemSubmit) : FileCalls :=
  { s with submits := y :: s.submits.erase x }

/-! ## The steps -/

/-- `drm_gem_handle_create` up to the open hook. -/
def openBegin (h : ℕ) (b : BoId) : Option FileCalls :=
  if lookupId h s.table = none then
    some { s with
      table := (h, b) :: s.table
      opening := (h, b) :: s.opening }
  else none

/-- `lima_gem_object_open`; if it fails, the handle goes. -/
def openHook (h : ℕ) (b : BoId) (env : BoAddEnv) (fuel : ℕ) : Option FileCalls :=
  if (h, b) ∈ s.opening then
    (limaVmBoAdd env fuel s.sys v b true).toOption.map fun r =>
      { s with
        sys := r.1
        opening := s.opening.erase (h, b)
        table := if r.2 = none then s.table else s.table.erase (h, b) }
  else none

/-- `drm_gem_handle_delete` up to the close hook. -/
def closeBegin (h : ℕ) (b : BoId) : Option FileCalls :=
  if (h, b) ∈ s.table then
    some { s with
      table := s.table.erase (h, b)
      closing := b :: s.closing }
  else none

/-- `lima_gem_object_close`. -/
def closeHook (b : BoId) (fuel : ℕ) : Option FileCalls :=
  if b ∈ s.closing then
    (limaVmBoDel fuel s.sys v b).toOption.map fun r =>
      { s with
        sys := r.1
        closing := s.closing.erase b }
  else none

/-- The lookup of `lima_gem_get_info`. -/
def infoBegin (h : ℕ) (b : BoId) : Option FileCalls :=
  if lookupId h s.table = some b then some { s with infos := b :: s.infos } else none

/-- `lima_vm_get_va` and the rest of `lima_gem_get_info`. -/
def getVa (b : BoId) : Option FileCalls :=
  if b ∈ s.infos then
    (limaVmGetVa s.sys v b).toOption.map fun _ => { s with infos := s.infos.erase b }
  else none

/-- The `drm_gem_object_lookup` of `lima_gem_submit`. -/
def submitLookup (x : GemSubmit) : Option FileCalls :=
  match x.rest with
  | [] => none
  | h :: hs =>
      if x ∈ s.submits ∧ x.failed = false ∧ x.found = none then
        match lookupId h s.table with
        | none => some (s.moveSubmit x { x with failed := true })
        | some b => some (s.moveSubmit x { x with
            rest := hs
            found := some b })
      else none

/-- The `lima_vm_bo_add` of `lima_gem_submit`. -/
def submitAdd (x : GemSubmit) : Option FileCalls :=
  match x.found with
  | none => none
  | some b =>
      if x ∈ s.submits then
        (limaVmBoAdd ⟨false, none, fun _ => none⟩ 0 s.sys v b false).toOption.map fun r =>
          match r.2 with
          | none => { s with sys := r.1 }.moveSubmit x { x with
              found := none
              lbos := x.lbos ++ [b] }
          | some _ => { s with sys := r.1 }.moveSubmit x { x with
              found := none
              failed := true }
      else none

/-- All objects have been found. -/
def Complete (x : GemSubmit) : Prop :=
  x ∈ s.submits ∧ x.failed = false ∧ x.rest = [] ∧ x.found = none

instance (x : GemSubmit) : Decidable (s.Complete x) :=
  inferInstanceAs (Decidable (_ ∧ _ ∧ _ ∧ _))

/-- The reservations, the task or a dependency fail. -/
def submitFail (x : GemSubmit) : Option FileCalls :=
  if s.Complete x then some (s.moveSubmit x { x with failed := true }) else none

/-- The task is pushed. -/
def submitQueue (x : GemSubmit) : Option FileCalls :=
  if s.Complete x then
    some { s with
      submits := s.submits.erase x
      held := x.lbos ++ s.held }
  else none

/-- One step of the loop at `err_out0`. -/
def submitUndo (x : GemSubmit) (fuel : ℕ) : Option FileCalls :=
  match x.lbos with
  | [] => none
  | b :: bs =>
      if x ∈ s.submits ∧ x.failed = true then
        (limaVmBoDel fuel s.sys v b).toOption.map fun r =>
          { s with sys := r.1 }.moveSubmit x { x with lbos := bs }
      else none

/-- One step of the loop of `lima_sched_free_job`. -/
def taskDel (b : BoId) (fuel : ℕ) : Option FileCalls :=
  if b ∈ s.held then
    (limaVmBoDel fuel s.sys v b).toOption.map fun r =>
      { s with
        sys := r.1
        held := s.held.erase b }
  else none

end FileCalls

def fileStep (v : VmId) (s : FileCalls) : FileAct → Option FileCalls
  | .openBegin h b => s.openBegin h b
  | .openHook h b env fuel => s.openHook v h b env fuel
  | .closeBegin h b => s.closeBegin h b
  | .closeHook b fuel => s.closeHook v b fuel
  | .infoBegin h b => s.infoBegin h b
  | .getVa b => s.getVa v b
  | .submitBegin hs => some { s with submits := ⟨hs, none, [], false⟩ :: s.submits }
  | .submitLookup x => s.submitLookup x
  | .submitAdd x => s.submitAdd v x
  | .submitFail x => s.submitFail x
  | .submitQueue x => s.submitQueue x
  | .submitUndo x fuel => s.submitUndo v x fuel
  | .submitEnd x =>
      if x ∈ s.submits ∧ x.failed = true ∧ x.lbos = [] then
        some { s with submits := s.submits.erase x }
      else none
  | .taskDel b fuel => s.taskDel v b fuel
  | .others _ => none

/-- Nobody but the file's own calls touches the entries of its address space. -/
def SameEntries (v : VmId) (s s' : Sys) : Prop :=
  s'.Listed ∧ ∀ b, limaVmBoFind v (s'.bo b).va = limaVmBoFind v (s.bo b).va

/-- Runs of a file with address space `v` that starts without handles. -/
def fileLts (v : VmId) : Lts FileCalls FileAct where
  init s := ∃ sys : Sys, s = ⟨sys, [], [], [], [], [], []⟩ ∧ sys.Listed ∧
    ∀ b, limaVmBoFind v (sys.bo b).va = none
  step s a s' := fileStep v s a = some s' ∨
    ∃ sys, a = .others sys ∧ SameEntries v s.sys sys ∧ s' = { s with sys := sys }

/-! ## Who names an object -/

namespace FileCalls

variable (s : FileCalls) (b : BoId)

/-- The references `b` should have to its mapping, but for the handles not opened yet. -/
def owed : ℕ :=
  s.table.countP (fun e => e.2 = b) + s.closing.count b +
    (s.submits.map fun x => x.lbos.count b).sum + s.held.count b

/-- Somebody has a reference to the mapping of `b`: a handle whose open hook has run, a
close hook that has not, a submit or a task. -/
def Named : Prop :=
  (∃ h, (h, b) ∈ s.table ∧ (h, b) ∉ s.opening) ∨ b ∈ s.closing ∨
    (∃ x ∈ s.submits, b ∈ x.lbos) ∨ b ∈ s.held

/-- The step runs `lima_vm_get_va` or `lima_vm_bo_del` on `b`. -/
def Derefs : FileAct → Prop
  | .getVa c => c = b ∧ b ∈ s.infos
  | .closeHook c _ => c = b ∧ b ∈ s.closing
  | .submitUndo x _ => x ∈ s.submits ∧ x.failed = true ∧ x.lbos.head? = some b
  | .taskDel c _ => c = b ∧ b ∈ s.held
  | _ => False

end FileCalls

/-- **The condition.** No handle is closed before its open hook has run, and a
`lima_gem_get_info` reads the address while somebody has a reference to the mapping. -/
def InOrder (s : FileCalls) : FileAct → Prop
  | .closeBegin h b => (h, b) ∉ s.opening
  | .getVa b => s.Named b
  | _ => True

/-! ## The invariant -/

structure FileOk (v : VmId) (s : FileCalls) : Prop where
  listed : s.sys.Listed
  nodup : s.table.Nodup
  opening : s.opening.Subperm s.table
  count : ∀ b, s.sys.mapRefs v b + s.opening.countP (fun e => e.2 = b) = s.owed b

theorem countP_erase_add {α : Type} [BEq α] [LawfulBEq α] {p : α → Bool} {l : List α} {a : α}
    (h : a ∈ l) : (l.erase a).countP p + (if p a then 1 else 0) = l.countP p := by
  rw [(List.perm_cons_erase h).countP_eq p, List.countP_cons]

theorem count_erase_add {l : List BoId} {c : BoId} (h : c ∈ l) (b : BoId) :
    (l.erase c).count b + (if c = b then 1 else 0) = l.count b := by
  rw [(List.perm_cons_erase h).count_eq b, List.count_cons]
  simp

namespace FileCalls

variable {s : FileCalls} {b : BoId}

/-- The entries of a submit that moves on. -/
theorem moveSubmit_sum {x y : GemSubmit} (h : x ∈ s.submits) (b : BoId) :
    ((s.moveSubmit x y).submits.map fun z => z.lbos.count b).sum + x.lbos.count b =
      (s.submits.map fun z => z.lbos.count b).sum + y.lbos.count b := by
  have hsum := List.sum_map_erase (f := fun z : GemSubmit => z.lbos.count b) h
  show ((y :: s.submits.erase x).map fun z => z.lbos.count b).sum + _ = _
  rw [List.map_cons, List.sum_cons]
  omega

end FileCalls

namespace FileOk

open FileCalls

variable {v : VmId} {s s' : FileCalls} {b : BoId}

/-- A handle that has been opened is one more than those that have not. -/
theorem opening_lt (h : FileOk v s) {e : ℕ × BoId} (he : e ∈ s.table)
    (hne : e ∉ s.opening) :
    s.opening.countP (fun x => x.2 = e.2) + 1 ≤ s.table.countP (fun x => x.2 = e.2) := by
  have hsub : s.opening.Subperm (s.table.erase e) := by
    have herase := h.opening.erase e
    rwa [List.erase_of_not_mem hne] at herase
  have hle := hsub.countP_le fun x => decide (x.2 = e.2)
  have hadd := countP_erase_add (p := fun x => decide (x.2 = e.2)) he
  rw [if_pos (by simp)] at hadd
  omega

/-- **Who has a reference finds the mapping.** -/
theorem mapped (h : FileOk v s) (hn : s.Named b) : 0 < s.sys.mapRefs v b := by
  have hcount := h.count b
  have hle := h.opening.countP_le fun x => decide (x.2 = b)
  unfold owed at hcount
  rcases hn with ⟨n, hn, hopen⟩ | hn | ⟨x, hx, hb⟩ | hn
  · have hlt : s.opening.countP (fun x => x.2 = b) + 1 ≤ s.table.countP (fun x => x.2 = b) :=
      h.opening_lt hn hopen
    omega
  · have hpos := List.count_pos_iff.mpr hn
    omega
  · have hpos := List.count_pos_iff.mpr hb
    have hsum := List.sum_map_erase (f := fun z : GemSubmit => z.lbos.count b) hx
    omega
  · have hpos := List.count_pos_iff.mpr hn
    omega

/-- The mapping is found only while somebody has a reference to it. -/
theorem named (h : FileOk v s) (hpos : 0 < s.sys.mapRefs v b) : s.Named b := by
  by_contra hn
  unfold Named at hn
  push Not at hn
  obtain ⟨htable, hclosing, hsubmits, hheld⟩ := hn
  have hle : s.table.countP (fun e => e.2 = b) ≤ s.opening.countP (fun e => e.2 = b) := by
    have hsub : (s.table.filter fun e => e.2 = b).Subperm s.opening := by
      refine List.subperm_of_subset (h.nodup.filter _) fun e he => ?_
      obtain ⟨hmem, hb⟩ := List.mem_filter.mp he
      obtain rfl : e.2 = b := by simpa using hb
      exact htable e.1 hmem
    have hcount := hsub.countP_le fun e => decide (e.2 = b)
    simpa only [List.countP_filter, Bool.and_self] using hcount
  have hzero : (s.submits.map fun x => x.lbos.count b).sum = 0 := by
    refine List.sum_eq_zero fun n hn => ?_
    obtain ⟨x, hx, rfl⟩ := List.mem_map.mp hn
    exact List.count_eq_zero.mpr (hsubmits x hx)
  have hcount := h.count b
  unfold owed at hcount
  rw [List.count_eq_zero.mpr hclosing, List.count_eq_zero.mpr hheld, hzero] at hcount
  omega

theorem named_of_derefs {a : FileAct} (hok : InOrder s a) (hd : s.Derefs b a) :
    s.Named b := by
  cases a with
  | getVa c =>
      obtain ⟨rfl, -⟩ := hd
      exact hok
  | closeHook c fuel => exact .inr (.inl hd.2)
  | submitUndo x fuel =>
      exact .inr (.inr (.inl ⟨x, hd.1, List.mem_of_head? hd.2.2⟩))
  | taskDel c fuel => exact .inr (.inr (.inr hd.2))
  | _ => exact hd.elim

/-! ## Steps -/

theorem openBegin (h : FileOk v s) {n : ℕ} (hs : s.openBegin n b = some s') : FileOk v s' := by
  unfold FileCalls.openBegin at hs
  split at hs
  · rename_i hfree
    obtain rfl := Option.some.inj hs
    have hnew : (n, b) ∉ s.table := fun hmem => by
      have hfind : s.table.find? (fun e => e.1 == n) = none := Option.map_eq_none_iff.mp hfree
      exact absurd (List.find?_eq_none.mp hfind _ hmem) (by simp)
    refine ⟨h.listed, h.nodup.cons hnew, (List.subperm_cons _).mpr h.opening, fun c => ?_⟩
    have hcount := h.count c
    simp only [owed, List.countP_cons] at hcount ⊢
    omega
  · cases hs

/-- The open hook has run: the mapping has a new reference, or the handle is gone. -/
theorem openHook (h : FileOk v s) {n fuel : ℕ} {env : BoAddEnv}
    (hs : s.openHook v n b env fuel = some s') : FileOk v s' := by
  unfold FileCalls.openHook at hs
  split at hs
  · rename_i hmem
    obtain ⟨⟨sys, r⟩, hadd, rfl⟩ := Option.map_eq_some_iff.mp hs
    have hrec := limaVmBoAdd_recounts h.listed (Outcome.toOption_eq_some.mp hadd)
    have htable : (n, b) ∈ s.table := h.opening.subset hmem
    refine ⟨hrec.listed, ?_, ?_, fun c => ?_⟩
    · show (if r = none then s.table else s.table.erase (n, b)).Nodup
      split
      · exact h.nodup
      · exact h.nodup.erase _
    · show (s.opening.erase (n, b)).Subperm (if r = none then s.table else s.table.erase (n, b))
      split
      · exact (List.erase_subperm _ _).trans h.opening
      · exact h.opening.erase _
    · have hcount := h.count c
      have hopen := countP_erase_add (p := fun e => decide (e.2 = c)) hmem
      have hgone := countP_erase_add (p := fun e => decide (e.2 = c)) htable
      have hself := hrec.self c
      simp only [owed, decide_eq_true_eq] at hcount hopen hgone ⊢
      rw [hself]
      by_cases hc : c = b
      · subst hc
        cases r with
        | none =>
            simp only [if_true] at hopen hgone ⊢
            omega
        | some e =>
            simp only [if_true, reduceCtorEq, if_false] at hopen hgone ⊢
            omega
      · rw [if_neg (Ne.symm hc)] at hopen hgone
        rw [if_neg hc]
        split <;> omega
  · cases hs

/-- An opened handle leaves the table; its close hook owes the reference now. -/
theorem closeBegin (h : FileOk v s) {n : ℕ} (hok : (n, b) ∉ s.opening)
    (hs : s.closeBegin n b = some s') : FileOk v s' := by
  unfold FileCalls.closeBegin at hs
  split at hs
  · rename_i hmem
    obtain rfl := Option.some.inj hs
    refine ⟨h.listed, h.nodup.erase _, ?_, fun c => ?_⟩
    · have herase := h.opening.erase (n, b)
      rwa [List.erase_of_not_mem hok] at herase
    · have hcount := h.count c
      have hgone := countP_erase_add (p := fun e => decide (e.2 = c)) hmem
      simp only [owed, List.count_cons, beq_iff_eq, decide_eq_true_eq] at hcount hgone ⊢
      omega
  · cases hs

/-- A `lima_vm_bo_del` of one of the named objects. -/
theorem del (h : FileOk v s) {fuel : ℕ} {sys : Sys} {touched : List ℕ}
    (hdel : limaVmBoDel fuel s.sys v b = .ok (sys, touched)) (hsys : s'.sys = sys)
    (htable : s'.table = s.table) (hopen : s'.opening = s.opening)
    (howed : ∀ c, s'.owed c + (if b = c then 1 else 0) = s.owed c) : FileOk v s' := by
  obtain ⟨hpos, hrec⟩ := limaVmBoDel_recounts h.listed hdel
  refine ⟨?_, ?_, ?_, fun c => ?_⟩
  · rw [hsys]
    exact hrec.listed
  · rw [htable]
    exact h.nodup
  · rw [htable, hopen]
    exact h.opening
  · have hcount := h.count c
    have hafter := howed c
    rw [hsys, hrec.self c, hopen]
    by_cases hc : c = b
    · subst hc
      simp only [if_true] at hafter ⊢
      omega
    · simp only [if_neg hc, if_neg (Ne.symm hc)] at hafter ⊢
      omega

theorem closeHook (h : FileOk v s) {fuel : ℕ}
    (hs : s.closeHook v b fuel = some s') : FileOk v s' := by
  unfold FileCalls.closeHook at hs
  split at hs
  · rename_i hmem
    obtain ⟨⟨sys, touched⟩, hdel, rfl⟩ := Option.map_eq_some_iff.mp hs
    refine h.del (Outcome.toOption_eq_some.mp hdel) rfl rfl rfl fun c => ?_
    have hcount := count_erase_add hmem c
    simp only [owed]
    omega
  · cases hs

theorem taskDel (h : FileOk v s) {fuel : ℕ}
    (hs : s.taskDel v b fuel = some s') : FileOk v s' := by
  unfold FileCalls.taskDel at hs
  split at hs
  · rename_i hmem
    obtain ⟨⟨sys, touched⟩, hdel, rfl⟩ := Option.map_eq_some_iff.mp hs
    refine h.del (Outcome.toOption_eq_some.mp hdel) rfl rfl rfl fun c => ?_
    have hcount := count_erase_add hmem c
    simp only [owed]
    omega
  · cases hs

/-- A submit moves on without touching a mapping. -/
theorem moveSubmit (h : FileOk v s) {x y : GemSubmit} (hx : x ∈ s.submits)
    (hy : y.lbos = x.lbos) : FileOk v (s.moveSubmit x y) := by
  refine ⟨h.listed, h.nodup, h.opening, fun c => ?_⟩
  have hcount := h.count c
  have hsum := moveSubmit_sum (y := y) hx c
  rw [hy] at hsum
  show s.sys.mapRefs v c + s.opening.countP (fun e => e.2 = c) = _
  unfold owed at hcount ⊢
  show _ = s.table.countP (fun e => e.2 = c) + s.closing.count c + _ + s.held.count c
  omega

theorem submitLookup (h : FileOk v s) {x : GemSubmit} (hs : s.submitLookup x = some s') :
    FileOk v s' := by
  unfold FileCalls.submitLookup at hs
  split at hs
  · cases hs
  split at hs
  · rename_i hx
    split at hs
    · obtain rfl := Option.some.inj hs
      exact h.moveSubmit hx.1 rfl
    · obtain rfl := Option.some.inj hs
      exact h.moveSubmit hx.1 rfl
  · cases hs

/-- The mapping found has a new reference, and the submit one more object. -/
theorem submitAdd (h : FileOk v s) {x : GemSubmit}
    (hs : s.submitAdd v x = some s') : FileOk v s' := by
  unfold FileCalls.submitAdd at hs
  split at hs
  · cases hs
  rename_i b hb
  split at hs
  · rename_i hx
    obtain ⟨⟨sys, r⟩, hadd, rfl⟩ := Option.map_eq_some_iff.mp hs
    have hrec := limaVmBoAdd_recounts h.listed (Outcome.toOption_eq_some.mp hadd)
    cases r with
    | some e =>
        have hs : FileOk v { s with sys := sys } := by
          refine ⟨hrec.listed, h.nodup, h.opening, fun c => ?_⟩
          have hsame : sys.mapRefs v c = s.sys.mapRefs v c := by
            have hself := hrec.self c
            rw [if_neg (by simp : ¬ (some e : Option Errno) = none)] at hself
            rw [hself]
            split
            · rename_i hc
              rw [hc]
            · rfl
          show sys.mapRefs v c + _ = _
          rw [hsame]
          exact h.count c
        exact hs.moveSubmit hx rfl
    | none =>
        refine ⟨hrec.listed, h.nodup, h.opening, fun c => ?_⟩
        have hcount := h.count c
        have hsum := moveSubmit_sum (s := { s with sys := sys }) (y := { x with
          found := none
          lbos := x.lbos ++ [b] }) hx c
        have hself := hrec.self c
        simp only [List.count_append, List.count_singleton, beq_iff_eq, if_true] at hsum hself
        unfold owed at hcount ⊢
        show sys.mapRefs v c + s.opening.countP (fun e => e.2 = c) =
          s.table.countP (fun e => e.2 = c) + s.closing.count c + _ + s.held.count c
        rw [hself]
        by_cases hc : c = b
        · subst hc
          simp only [if_true] at hsum ⊢
          omega
        · simp only [if_neg hc, if_neg (Ne.symm hc)] at hsum ⊢
          omega
  · cases hs

theorem submitQueue (h : FileOk v s) {x : GemSubmit} (hs : s.submitQueue x = some s') :
    FileOk v s' := by
  unfold FileCalls.submitQueue at hs
  split at hs
  · rename_i hx
    obtain rfl := Option.some.inj hs
    refine ⟨h.listed, h.nodup, h.opening, fun c => ?_⟩
    have hcount := h.count c
    have hsum := List.sum_map_erase (f := fun z : GemSubmit => z.lbos.count c) hx.1
    simp only [owed, List.count_append] at hcount ⊢
    omega
  · cases hs

theorem submitUndo (h : FileOk v s) {x : GemSubmit} {fuel : ℕ}
    (hs : s.submitUndo v x fuel = some s') : FileOk v s' := by
  unfold FileCalls.submitUndo at hs
  split at hs
  · cases hs
  rename_i b bs hbs
  split at hs
  · rename_i hx
    obtain ⟨r, hdel, rfl⟩ := Option.map_eq_some_iff.mp hs
    refine h.del (Outcome.toOption_eq_some.mp hdel) rfl rfl rfl fun c => ?_
    have hsum := moveSubmit_sum (s := { s with sys := r.1 })
      (y := { x with lbos := bs }) hx.1 c
    simp only [hbs, List.count_cons, beq_iff_eq] at hsum
    unfold owed
    show s.table.countP (fun e => e.2 = c) + s.closing.count c + _ + s.held.count c + _ = _
    omega
  · cases hs

/-- **Step.** -/
theorem step (h : FileOk v s) {a : FileAct} (hok : InOrder s a)
    (hs : (fileLts v).step s a s') : FileOk v s' := by
  obtain hs | ⟨sys, rfl, ⟨hlisted, hsame⟩, rfl⟩ := hs
  · cases a with
    | openBegin n b => exact h.openBegin hs
    | openHook n b env fuel => exact h.openHook hs
    | closeBegin n b => exact h.closeBegin hok hs
    | closeHook b fuel => exact h.closeHook hs
    | infoBegin n b =>
        simp only [fileStep, FileCalls.infoBegin] at hs
        split at hs
        · obtain rfl := Option.some.inj hs
          exact ⟨h.listed, h.nodup, h.opening, h.count⟩
        · cases hs
    | getVa b =>
        simp only [fileStep, FileCalls.getVa] at hs
        split at hs
        · obtain ⟨_, -, rfl⟩ := Option.map_eq_some_iff.mp hs
          exact ⟨h.listed, h.nodup, h.opening, h.count⟩
        · cases hs
    | submitBegin handles =>
        obtain rfl := Option.some.inj hs
        refine ⟨h.listed, h.nodup, h.opening, fun c => ?_⟩
        have hcount := h.count c
        simp only [owed, List.map_cons, List.sum_cons, List.count_nil] at hcount ⊢
        omega
    | submitLookup x => exact h.submitLookup hs
    | submitAdd x => exact h.submitAdd hs
    | submitFail x =>
        simp only [fileStep, FileCalls.submitFail] at hs
        split at hs
        · rename_i hx
          obtain rfl := Option.some.inj hs
          exact h.moveSubmit hx.1 rfl
        · cases hs
    | submitQueue x => exact h.submitQueue hs
    | submitUndo x fuel => exact h.submitUndo hs
    | submitEnd x =>
        simp only [fileStep] at hs
        split at hs
        · rename_i hx
          obtain rfl := Option.some.inj hs
          refine ⟨h.listed, h.nodup, h.opening, fun c => ?_⟩
          have hcount := h.count c
          have hsum := List.sum_map_erase (f := fun z : GemSubmit => z.lbos.count c) hx.1
          simp only [owed, hx.2.2, List.count_nil] at hcount hsum ⊢
          omega
        · cases hs
    | taskDel b fuel => exact h.taskDel hs
    | others sys => cases hs
  · refine ⟨hlisted, h.nodup, h.opening, fun c => ?_⟩
    have hrefs : sys.mapRefs v c = s.sys.mapRefs v c := by
      unfold Sys.mapRefs Bo.refs
      rw [hsame]
    show sys.mapRefs v c + _ = _
    rw [hrefs]
    exact h.count c

theorem of_via (hs : (fileLts v).Via InOrder s) : FileOk v s := by
  refine hs.invariant ?_ fun s a s' _ h hok hstep => h.step hok hstep
  rintro s ⟨sys, rfl, hlisted, hnone⟩
  refine ⟨hlisted, List.nodup_nil, .refl _, fun c => ?_⟩
  have hzero : sys.mapRefs v c = 0 := by
    rw [Sys.mapRefs, Bo.refs, hnone]
    rfl
  simp [owed, hzero]

end FileOk

/-- **No entry is missing.** In a run whose steps all meet the condition, the entry of an
object is there exactly while somebody has a reference to it, and whatever
`lima_vm_get_va` and `lima_vm_bo_del` look for is there. -/
theorem boVa_found (v : VmId) {s : FileCalls} (hs : (fileLts v).Via InOrder s) :
    (∀ b, limaVmBoFind v (s.sys.bo b).va ≠ none ↔ s.Named b) ∧
    ∀ a b, InOrder s a → s.Derefs b a → limaVmBoFind v (s.sys.bo b).va ≠ none := by
  have h := FileOk.of_via hs
  have hiff : ∀ b, limaVmBoFind v (s.sys.bo b).va ≠ none ↔ s.Named b := fun b =>
    h.listed.mapRefs_pos.symm.trans ⟨h.named, h.mapped⟩
  exact ⟨hiff, fun a b hok hd => (hiff b).mpr (FileOk.named_of_derefs hok hd)⟩

/-- A file on a fresh Mali-400 device that has called nothing yet. -/
def idleFile : FileCalls :=
  ⟨(limaVmCreate (limaDeviceInit .mali400 0) true (some 0x48000000)
    (fun k => some (0x50000000 + 0x8000 * k)) (.fresh onePageBo)).1, [], [], [], [], [], []⟩

theorem idleFile_init : (fileLts 0).init idleFile :=
  ⟨_, rfl, fun _ => ⟨List.nodup_nil, nofun⟩, fun _ => rfl⟩

/-- An object is opened, and its address read. -/
theorem boVa_found_opened : ∃ s, (fileLts 0).Via InOrder s ∧
    limaVmGetVa s.sys 0 0 = .ok 0x10000 ∧ limaVmBoFind 0 (s.sys.bo 0).va ≠ none := by
  let sys := onePageSys (limaDeviceInit .mali400 0) 0x10000
  let env : BoAddEnv := ⟨true, some 0x10000, fun k => some (0x50000000 + 0x8000 * k)⟩
  have hadd : limaVmBoAdd env 0 idleFile.sys 0 0 true = .ok (sys, none) := rfl
  have hopen : FileCalls.openHook 0 ⟨idleFile.sys, [(1, 0)], [(1, 0)], [], [], [], []⟩ 1 0
      env 0 = some ⟨sys, [(1, 0)], [], [], [], [], []⟩ := by
    rw [FileCalls.openHook, if_pos List.mem_cons_self, hadd]
    rfl
  have h₀ : (fileLts 0).Via InOrder idleFile := .init idleFile_init
  have h₁ : (fileLts 0).Via InOrder ⟨idleFile.sys, [(1, 0)], [(1, 0)], [], [], [], []⟩ :=
    h₀.step (a := .openBegin 1 0) trivial (.inl rfl)
  have h₂ : (fileLts 0).Via InOrder ⟨sys, [(1, 0)], [], [], [], [], []⟩ :=
    h₁.step (a := .openHook 1 0 env 0) trivial (.inl hopen)
  have h₃ : (fileLts 0).Via InOrder ⟨sys, [(1, 0)], [], [], [0], [], []⟩ :=
    h₂.step (a := .infoBegin 1 0) trivial (.inl rfl)
  refine ⟨_, h₃, rfl, (boVa_found 0 h₃).2 (.getVa 0) 0 ?_ ⟨rfl, List.mem_cons_self⟩⟩
  exact .inl ⟨1, List.mem_cons_self, nofun⟩

/-- One thread has allocated the handle of a new object; before it gets to the open hook
another thread asks for the address of the handle it has guessed. -/
theorem getVa_null : ∃ s, (fileLts 0).Reachable s ∧ s.Derefs 0 (.getVa 0) ∧
    limaVmBoFind 0 (s.sys.bo 0).va = none ∧ limaVmGetVa s.sys 0 0 = .oops := by
  have h₀ : (fileLts 0).Reachable idleFile := .init idleFile_init
  have h₁ : (fileLts 0).Reachable ⟨idleFile.sys, [(1, 0)], [(1, 0)], [], [], [], []⟩ :=
    h₀.step (a := .openBegin 1 0) (.inl rfl)
  have h₂ : (fileLts 0).Reachable ⟨idleFile.sys, [(1, 0)], [(1, 0)], [], [0], [], []⟩ :=
    h₁.step (a := .infoBegin 1 0) (.inl rfl)
  exact ⟨_, h₂, ⟨rfl, List.mem_cons_self⟩, rfl, rfl⟩

end Lima
