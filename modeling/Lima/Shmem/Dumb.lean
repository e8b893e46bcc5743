import Lima.Shmem.Counts

/-!
# Dumb buffers

`drm_gem_shmem_dumb_create` computes a pitch from a number of bits and a size from a
number of bytes, both as 32-bit products, where the DRM core has only checked that the
bytes fit. What comes out is large enough exactly if the bits fit too, or the caller has
passed values that are.
-/

namespace Lima

/-! ## The functions -/

/-- `DIV_ROUND_UP` of a `u32`. -/
def divRoundUp (n d : ℕ) : ℕ := u32 (n + (d - 1)) / d

/-- `drm_gem_shmem_align_size`. -/
def drmGemShmemAlignSize (size : ℕ) : ℕ :=
  (size + limaPageSize - 1) % 2 ^ 64 / limaPageSize * limaPageSize

/-- `struct drm_mode_create_dumb`, but for its flags and its handle. -/
structure DrmModeCreateDumb where
  height : ℕ
  width : ℕ
  bpp : ℕ
  pitch : ℕ
  size : ℕ

/-- What the creation of an object of a size meets: `gem_create_object`,
`drm_gem_object_init`, `drm_gem_create_mmap_offset` and `drm_gem_handle_create`. -/
structure DumbEnv where
  createObject : ℕ → Option Errno
  objectInit : ℕ → Option Errno
  mmapOffset : ℕ → Option Errno
  handle : Option Errno

/-- `__drm_gem_shmem_create` of an object that is not private, made by
`lima_gem_create_object`. -/
def drmGemShmemCreate (env : DumbEnv) (size : ℕ) : Except Errno Shmem :=
  let size := drmGemShmemAlignSize size
  match (env.createObject size).or ((env.objectInit size).or (env.mmapOffset size)) with
  | some e => .error e
  | none => .ok (.fresh size true true)

/-- `drm_gem_shmem_create_with_handle`: the object of the handle. -/
def drmGemShmemCreateWithHandle (env : DumbEnv) (size : ℕ) : Except Errno Shmem :=
  match drmGemShmemCreate env size with
  | .error e => .error e
  | .ok x =>
      match env.handle with
      | some e => .error e
      | none => .ok x

namespace DrmModeCreateDumb

variable (args : DrmModeCreateDumb)

/-- `min_pitch`. -/
def minPitch : ℕ := divRoundUp (u32 (args.width * args.bpp)) 8

/-- `args` once its pitch and its size are filled in. -/
def fillIn : DrmModeCreateDumb :=
  if args.pitch = 0 ∨ args.size = 0 then
    { args with
      pitch := args.minPitch
      size := drmGemShmemAlignSize (u32 (args.minPitch * args.height)) }
  else
    let args :=
      if args.pitch < args.minPitch then { args with pitch := args.minPitch } else args
    if args.size < args.pitch * args.height then
      { args with size := drmGemShmemAlignSize (u32 (args.pitch * args.height)) }
    else args

end DrmModeCreateDumb

/-- `drm_gem_shmem_dumb_create`: the arguments it leaves, and the object. -/
def drmGemShmemDumbCreate (env : DumbEnv) (args : DrmModeCreateDumb) :
    Except Errno (DrmModeCreateDumb × Shmem) :=
  match drmGemShmemCreateWithHandle env args.fillIn.size with
  | .error e => .error e
  | .ok x => .ok (args.fillIn, x)

namespace DrmModeCreateDumb

variable (args : DrmModeCreateDumb)

/-! ## What it is given, and what it should give -/

/-- The values of the fields. -/
structure InRange : Prop where
  height : args.height < 2 ^ 32
  width : args.width < 2 ^ 32
  bpp : args.bpp < 2 ^ 32
  pitch : args.pitch < 2 ^ 32
  size : args.size < 2 ^ 64

/-- The checks of `drm_mode_create_dumb`. -/
structure Checked : Prop where
  height : args.height ≠ 0
  width : args.width ≠ 0
  bpp : args.bpp ≠ 0
  stride : (args.bpp + 7) / 8 * args.width < 2 ^ 32
  bytes : (args.bpp + 7) / 8 * args.width * args.height < 2 ^ 32
  aligned : u32 ((args.bpp + 7) / 8 * args.width * args.height + 4095) / 4096 ≠ 0

/-- A row fits its pitch, the rows fit the size, and the size fits the object. -/
def Fits (args' : DrmModeCreateDumb) (x : Shmem) : Prop :=
  args.width * args.bpp ≤ 8 * args'.pitch ∧ args'.pitch * args.height ≤ args'.size ∧
    args'.size ≤ x.size

/-- **The condition.** The bits of a row fit in 32 bits after rounding, or the pitch
passed in has room for them; if a size is computed, it fits in 32 bits, and if one is
kept, it can be aligned. -/
def NoWrap : Prop :=
  if args.pitch = 0 ∨ args.size = 0 then args.width * args.bpp + 7 < 2 ^ 32
  else
    (args.width * args.bpp + 7 < 2 ^ 32 ∨ args.width * args.bpp ≤ 8 * args.pitch) ∧
    let pitch := max args.pitch ((args.width * args.bpp + 7) / 8)
    if args.size < pitch * args.height then pitch * args.height < 2 ^ 32
    else args.size + 4095 < 2 ^ 64

instance : Decidable args.NoWrap := inferInstanceAs (Decidable (ite _ _ _))

end DrmModeCreateDumb

/-! ## Arithmetic -/

theorem le_drmGemShmemAlignSize {n : ℕ} (h : n + 4095 < 2 ^ 64) :
    n ≤ drmGemShmemAlignSize n := by
  unfold drmGemShmemAlignSize limaPageSize
  omega

theorem drmGemShmemAlignSize_le (n : ℕ) : drmGemShmemAlignSize n ≤ n + 4095 := by
  unfold drmGemShmemAlignSize limaPageSize
  omega

/-- The last sizes wrap to none. -/
theorem drmGemShmemAlignSize_wrap {n : ℕ} (hlt : n < 2 ^ 64) (h : 2 ^ 64 ≤ n + 4095) :
    drmGemShmemAlignSize n = 0 := by
  unfold drmGemShmemAlignSize limaPageSize
  omega

/-- A product is large enough after alignment exactly if it fits. -/
theorem le_drmGemShmemAlignSize_u32 (n : ℕ) :
    n ≤ drmGemShmemAlignSize (u32 n) ↔ n < 2 ^ 32 := by
  have hlt := u32_lt n
  constructor
  · intro hle
    unfold drmGemShmemAlignSize limaPageSize u32 at hle
    omega
  · intro h
    rw [u32_of_lt h]
    exact le_drmGemShmemAlignSize (by omega)

theorem divRoundUp_of_lt {n : ℕ} (h : n + 7 < 2 ^ 32) : divRoundUp (u32 n) 8 = (n + 7) / 8 := by
  unfold divRoundUp u32
  omega

/-- Where the bits do not fit, the rounded quotient is too small for them. -/
theorem divRoundUp_lt {n : ℕ} (h : 2 ^ 32 ≤ n + 7) : 8 * divRoundUp (u32 n) 8 < n := by
  unfold divRoundUp u32
  omega

/-! ## The buffer -/

namespace DrmModeCreateDumb

variable {args : DrmModeCreateDumb}

/-- The bytes of a row are at least those the core has checked. -/
theorem rowBytes_le (args : DrmModeCreateDumb) :
    (args.width * args.bpp + 7) / 8 ≤ (args.bpp + 7) / 8 * args.width := by
  have hbits : args.bpp ≤ 8 * ((args.bpp + 7) / 8) := by omega
  have hrow : args.width * args.bpp ≤ 8 * ((args.bpp + 7) / 8 * args.width) := by
    calc args.width * args.bpp ≤ args.width * (8 * ((args.bpp + 7) / 8)) :=
          Nat.mul_le_mul_left _ hbits
      _ = 8 * ((args.bpp + 7) / 8 * args.width) := by ring
  omega

/-- Where nothing is passed in, the buffer fits exactly if the bits of a row do. -/
theorem fillIn_computed (hc : args.Checked) (h : args.pitch = 0 ∨ args.size = 0) :
    (args.width * args.bpp ≤ 8 * args.fillIn.pitch ∧
      args.fillIn.pitch * args.height ≤ args.fillIn.size ∧
      args.fillIn.size ≤ drmGemShmemAlignSize args.fillIn.size) ↔
    args.width * args.bpp + 7 < 2 ^ 32 := by
  have hfill : args.fillIn = { args with
      pitch := args.minPitch
      size := drmGemShmemAlignSize (u32 (args.minPitch * args.height)) } := if_pos h
  rw [hfill]
  constructor
  · rintro ⟨hrow, -⟩
    by_contra hwrap
    exact absurd hrow (not_le.mpr (divRoundUp_lt (not_lt.mp hwrap)))
  · intro hlt
    have hpitch : args.minPitch = (args.width * args.bpp + 7) / 8 := divRoundUp_of_lt hlt
    have hbytes : args.minPitch * args.height < 2 ^ 32 := by
      rw [hpitch]
      exact (Nat.mul_le_mul_right _ args.rowBytes_le).trans_lt hc.bytes
    refine ⟨?_, (le_drmGemShmemAlignSize_u32 _).mpr hbytes, ?_⟩
    · show _ ≤ 8 * args.minPitch
      omega
    · refine le_drmGemShmemAlignSize ?_
      have hle := drmGemShmemAlignSize_le (u32 (args.minPitch * args.height))
      have hu := u32_lt (args.minPitch * args.height)
      show drmGemShmemAlignSize _ + 4095 < _
      omega

/-- A size that is kept or computed for a pitch. -/
theorem size_fits (hr : args.InRange) (pitch : ℕ) (hsize : args.size ≠ 0) :
    let size := if args.size < pitch * args.height then
      drmGemShmemAlignSize (u32 (pitch * args.height)) else args.size
    (pitch * args.height ≤ size ∧ size ≤ drmGemShmemAlignSize size) ↔
      if args.size < pitch * args.height then pitch * args.height < 2 ^ 32
      else args.size + 4095 < 2 ^ 64 := by
  have hlt := hr.size
  dsimp only
  split
  · rw [le_drmGemShmemAlignSize_u32]
    refine ⟨fun h => h.1, fun h => ⟨h, ?_⟩⟩
    have hle := drmGemShmemAlignSize_le (u32 (pitch * args.height))
    have hu := u32_lt (pitch * args.height)
    exact le_drmGemShmemAlignSize (by omega)
  · rename_i hge
    constructor
    · rintro ⟨-, hle⟩
      by_contra hwrap
      rw [drmGemShmemAlignSize_wrap hlt (not_lt.mp hwrap)] at hle
      exact hsize (Nat.le_zero.mp hle)
    · exact fun h => ⟨not_lt.mp hge, le_drmGemShmemAlignSize h⟩

/-- The pitch that is kept or raised has room for the row exactly if the bits fit, or the
pitch passed in has. -/
theorem pitch_fits (args : DrmModeCreateDumb) :
    (args.width * args.bpp ≤ 8 * max args.pitch args.minPitch ↔
      args.width * args.bpp + 7 < 2 ^ 32 ∨ args.width * args.bpp ≤ 8 * args.pitch) ∧
    (args.width * args.bpp + 7 < 2 ^ 32 ∨ args.width * args.bpp ≤ 8 * args.pitch →
      max args.pitch args.minPitch = max args.pitch ((args.width * args.bpp + 7) / 8)) := by
  by_cases hlt : args.width * args.bpp + 7 < 2 ^ 32
  · have hpitch : args.minPitch = (args.width * args.bpp + 7) / 8 := divRoundUp_of_lt hlt
    rw [hpitch]
    refine ⟨⟨fun _ => .inl hlt, fun _ => ?_⟩, fun _ => rfl⟩
    omega
  · have hsmall : 8 * args.minPitch < args.width * args.bpp :=
      divRoundUp_lt (not_lt.mp hlt)
    refine ⟨⟨fun h => .inr ?_, fun h => ?_⟩, fun h => ?_⟩
    · omega
    · omega
    · have hrow : args.width * args.bpp ≤ 8 * args.pitch := h.resolve_left hlt
      omega

/-- What is filled in where values are passed. -/
theorem fillIn_passed (h : ¬ (args.pitch = 0 ∨ args.size = 0)) :
    args.fillIn.pitch = max args.pitch args.minPitch ∧
    args.fillIn.size =
      if args.size < max args.pitch args.minPitch * args.height then
        drmGemShmemAlignSize (u32 (max args.pitch args.minPitch * args.height))
      else args.size := by
  have hmax : (if args.pitch < args.minPitch then { args with pitch := args.minPitch }
      else args) = { args with pitch := max args.pitch args.minPitch } := by
    split
    · rename_i hlt
      rw [max_eq_right hlt.le]
    · rename_i hge
      rw [max_eq_left (not_lt.mp hge)]
  unfold fillIn
  rw [if_neg h, hmax]
  dsimp only
  split
  · exact ⟨rfl, rfl⟩
  · exact ⟨rfl, rfl⟩

end DrmModeCreateDumb

/-- **Dumb buffers that fit.** For all arguments that pass the core's checks, a creation
that succeeds leaves a pitch, a size and an object that are large enough exactly if no
product wraps. -/
theorem dumb_create_fits_iff (env : DumbEnv) {args args' : DrmModeCreateDumb} {x : Shmem}
    (hr : args.InRange) (hc : args.Checked)
    (h : drmGemShmemDumbCreate env args = .ok (args', x)) :
    args.Fits args' x ↔ args.NoWrap := by
  have hok : args' = args.fillIn ∧ x.size = drmGemShmemAlignSize args.fillIn.size := by
    unfold drmGemShmemDumbCreate drmGemShmemCreateWithHandle drmGemShmemCreate at h
    cases hcreate : (env.createObject (drmGemShmemAlignSize args.fillIn.size)).or
        ((env.objectInit (drmGemShmemAlignSize args.fillIn.size)).or
          (env.mmapOffset (drmGemShmemAlignSize args.fillIn.size))) with
    | some e => simp [hcreate] at h
    | none =>
        cases hhandle : env.handle with
        | some e => simp [hcreate, hhandle] at h
        | none =>
            simp only [hcreate, hhandle, Except.ok.injEq, Prod.mk.injEq] at h
            obtain ⟨rfl, rfl⟩ := h
            exact ⟨rfl, rfl⟩
  obtain ⟨rfl, hx⟩ := hok
  unfold DrmModeCreateDumb.Fits DrmModeCreateDumb.NoWrap
  rw [hx]
  by_cases hin : args.pitch = 0 ∨ args.size = 0
  · rw [if_pos hin]
    exact DrmModeCreateDumb.fillIn_computed hc hin
  · rw [if_neg hin]
    obtain ⟨hpitch, hsize⟩ := DrmModeCreateDumb.fillIn_passed hin
    obtain ⟨hrow, hsame⟩ := args.pitch_fits
    have hne : args.size ≠ 0 := fun hzero => hin (.inr hzero)
    have hfits := DrmModeCreateDumb.size_fits hr (max args.pitch args.minPitch) hne
    dsimp only at hfits ⊢
    rw [hpitch, hsize, hfits, hrow]
    refine and_congr_right fun hroom => ?_
    rw [hsame hroom]

/-- Nothing fails. -/
def dumbEnv : DumbEnv := ⟨fun _ => none, fun _ => none, fun _ => none, none⟩

/-- A screen of 1920 by 1080 pixels. -/
def fullHd : DrmModeCreateDumb := ⟨1080, 1920, 32, 0, 0⟩

theorem dumb_create_fits_fullHd : fullHd.InRange ∧ fullHd.Checked ∧
    drmGemShmemDumbCreate dumbEnv fullHd = .ok (fullHd.fillIn, .fresh 8294400 true true) ∧
    (fullHd.Fits fullHd.fillIn (.fresh 8294400 true true) ↔ fullHd.NoWrap) := by
  have hr : fullHd.InRange := ⟨by decide, by decide, by decide, by decide, by decide⟩
  have hc : fullHd.Checked :=
    ⟨by decide, by decide, by decide, by decide, by decide, by decide⟩
  exact ⟨hr, hc, rfl, dumb_create_fits_iff dumbEnv hr hc rfl⟩

/-- A row of 2^27 + 1 pixels of 32 bits, which has 2^32 + 32 bits. -/
def longRow : DrmModeCreateDumb := ⟨1, 2 ^ 27 + 1, 32, 0, 0⟩

/-- The row gets a pitch of 4 bytes. -/
theorem dumb_create_too_small : longRow.InRange ∧ longRow.Checked ∧
    ∃ args' x, drmGemShmemDumbCreate dumbEnv longRow = .ok (args', x) ∧
      args'.pitch = 4 ∧ ¬ longRow.Fits args' x := by
  have hr : longRow.InRange := ⟨by decide, by decide, by decide, by decide, by decide⟩
  have hc : longRow.Checked :=
    ⟨by decide, by decide, by decide, by decide, by decide, by decide⟩
  exact ⟨hr, hc, longRow.fillIn, .fresh 4096 true true, rfl, rfl, fun h => absurd h.1 (by decide)⟩

end Lima
