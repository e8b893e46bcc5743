import Lima.Basic

/-!
# Error-task capture

When a job times out, `lima_sched_build_error_task_list` serialises the task
into one buffer: a `lima_dump_task` header, a frame chunk, a process-name
chunk, a pid chunk and one buffer chunk per BO. A first pass over the BO list
computes the size handed to `kvmalloc`; a second pass writes the chunks with a
moving pointer. The model keeps both passes as they are, with every write the
second pass makes recorded as a byte range of the allocation.
-/

namespace Lima

/-! ## Structure sizes -/

/-- `sizeof` of a structure whose fields have the given sizes, each naturally
aligned, padded to its largest alignment. -/
def cSizeof (fields : List ℕ) : ℕ :=
  let alignUp := fun a n => (n + a - 1) / a * a
  alignUp (fields.foldl max 1) (fields.foldl (fun off a => alignUp a off + a) 0)

def sizeofDumpTask : ℕ := cSizeof [4, 4, 4]
def sizeofDumpChunk : ℕ := cSizeof [4, 4]
def sizeofDumpChunkPid : ℕ := cSizeof [4, 4, 4]
def sizeofDumpChunkBuffer : ℕ := cSizeof [4, 4, 8]
/-- `struct lima_sched_error_task`: a list head, the data pointer, the size. -/
def sizeofErrorTask : ℕ := cSizeof [8, 8, 8, 4]

example : [sizeofDumpTask, sizeofDumpChunk, sizeofDumpChunkPid,
    sizeofDumpChunkBuffer] = [12, 8, 12, 16] := by decide

/-! ## Inputs -/

/-- The frame structure copied for a task, one per pipe and GPU model. -/
inductive FrameKind where
  | gp | m400Pp | m450Pp
deriving DecidableEq, Repr

/-- `pipe->frame_size`: `sizeof` of the frame structure in `lima_drm.h`. -/
def FrameKind.frameSize : FrameKind → ℕ
  | .gp => cSizeof (List.replicate 6 4)
  | .m400Pp => cSizeof (List.replicate (23 + 1 + 3 * 12 + 4 + 4) 4)
  | .m450Pp => cSizeof (List.replicate (23 + 1 + 3 * 12 + 1 + 1 + 8 + 8) 4)

/-- `pipe_id`, derived from `processor[0]`. -/
def FrameKind.pipeId : FrameKind → ℕ
  | .gp => 0
  | _ => 1

/-- What the capture reads of one BO: the two sizes, its address in
`task->vm`, its contents, and whether `vmap` (heap) or `drm_gem_vmap_unlocked`
succeeds on it. -/
structure DumpBo where
  heapSize : ℕ
  size : ℕ
  va : ℕ
  bytes : ℕ → UInt8
  mapOk : Bool

/-- The timed-out task, with the `lima_ctx` it was submitted from. -/
structure DumpSource where
  kind : FrameKind
  frame : ℕ → UInt8
  /-- `ctx->pname`, an array of `TASK_COMM_LEN` bytes. -/
  pname : List UInt8
  pid : ℕ
  bos : List DumpBo

/-- `bo->heap_size ? bo->heap_size : lima_bo_size(bo)`. -/
def DumpBo.dumpSize (bo : DumpBo) : ℕ :=
  if bo.heapSize ≠ 0 then bo.heapSize else bo.size

/-! ## The record -/

inductive DumpChunkId where
  | frame | processName | processId | buffer
deriving DecidableEq, Repr

/-- A chunk as written: its id, its `size` field, its payload, and the fields
the pid and buffer headers add. -/
structure DumpChunk where
  id : DumpChunkId
  size : ℕ
  payload : List UInt8 := []
  pid : ℕ := 0
  va : ℕ := 0

/-- The header structure used for a chunk. -/
def DumpChunkId.headerSize : DumpChunkId → ℕ
  | .frame | .processName => sizeofDumpChunk
  | .processId => sizeofDumpChunkPid
  | .buffer => sizeofDumpChunkBuffer

/-- A byte range of the allocation, counted from its start. -/
structure DumpWrite where
  off : ℕ
  len : ℕ

structure DumpRecord where
  /-- The argument of `kvmalloc`. -/
  memSize : ℕ
  /-- `et->size`. -/
  etSize : ℕ
  /-- `dt->id`, `dt->size`, `dt->num_chunks`. -/
  dtId : ℕ
  dtSize : ℕ
  numChunks : ℕ
  chunks : List DumpChunk
  writes : List DumpWrite

/-! ## First pass -/

/-- The loop adding one buffer chunk per BO to the `u32` size. -/
def dumpBoSizes : List DumpBo → ℕ → ℕ
  | [], size => size
  | bo :: bos, size =>
      dumpBoSizes bos (u32 (u32 (size + sizeofDumpChunk) + bo.dumpSize))

def dumpSize (src : DumpSource) : ℕ :=
  let size := u32 (sizeofDumpChunk + src.kind.frameSize)
  let size := u32 (size + (sizeofDumpChunk + src.pname.length))
  let size := u32 (size + sizeofDumpChunk)
  dumpBoSizes src.bos size

/-! ## Second pass -/

/-- The state of the second pass: the chunk pointer as an offset from the start
of the allocation, the chunks and the writes so far. -/
structure DumpCursor where
  off : ℕ
  chunks : List DumpChunk
  writes : List DumpWrite

/-- Write one chunk at the pointer: its header, then `copied` payload bytes.
The pointer then moves past the header and past `size`. -/
def DumpCursor.put (c : DumpCursor) (chunk : DumpChunk) : DumpCursor where
  off := c.off + chunk.id.headerSize + chunk.size
  chunks := c.chunks ++ [chunk]
  writes := c.writes ++
    [⟨c.off, chunk.id.headerSize⟩,
     ⟨c.off + chunk.id.headerSize, chunk.payload.length⟩]

def DumpBo.chunk (bo : DumpBo) : DumpChunk where
  id := .buffer
  size := u32 bo.dumpSize
  payload := (List.range (u32 bo.dumpSize)).map bo.bytes
  va := bo.va

/-- The buffer-chunk loop; a BO that cannot be mapped abandons the record. -/
def dumpBos : List DumpBo → DumpCursor → Option DumpCursor
  | [], c => some c
  | bo :: bos, c => if bo.mapOk then dumpBos bos (c.put bo.chunk) else none

def DumpSource.frameChunk (src : DumpSource) : DumpChunk where
  id := .frame
  size := src.kind.frameSize
  payload := (List.range src.kind.frameSize).map src.frame

def DumpSource.nameChunk (src : DumpSource) : DumpChunk where
  id := .processName
  size := u32 src.pname.length
  payload := src.pname

def DumpSource.pidChunk (src : DumpSource) : DumpChunk where
  id := .processId
  size := 0
  pid := src.pid

/-- `lima_sched_build_error_task_list` up to `list_add`: the record appended
to the error list, or `none` when the list is full (`numTasks` against
`lima_max_error_tasks`), the allocation fails or a BO cannot be mapped. -/
def limaSchedBuildErrorTaskList (numTasks maxErrorTasks : ℕ) (kvmallocOk : Bool)
    (src : DumpSource) : Option DumpRecord :=
  if maxErrorTasks ≤ numTasks then none
  else
    let size := dumpSize src
    let taskSize := u32 (size + sizeofDumpTask)
    let memSize := u32 (taskSize + sizeofErrorTask)
    if !kvmallocOk then none
    else
      let start : DumpCursor :=
        ⟨sizeofErrorTask + sizeofDumpTask, [],
          [⟨0, sizeofErrorTask⟩, ⟨sizeofErrorTask, sizeofDumpTask⟩]⟩
      let fixed := ((start.put src.frameChunk).put src.nameChunk).put src.pidChunk
      (dumpBos src.bos fixed).map fun c =>
        { memSize := memSize
          etSize := taskSize
          dtId := src.kind.pipeId
          dtSize := size
          numChunks := u32 c.chunks.length
          chunks := c.chunks
          writes := c.writes }

/-! ## What a well-formed record is -/

/-- Bytes of a chunk in the record: its header and its payload. -/
def DumpChunk.bytes (c : DumpChunk) : ℕ := c.id.headerSize + c.size

/-- The number of bytes the second pass emits after the task header. -/
def DumpRecord.emitted (r : DumpRecord) : ℕ := (r.chunks.map DumpChunk.bytes).sum

/-- Where a reader ends that steps from the first chunk over all of them. -/
def DumpRecord.walkEnd (r : DumpRecord) : ℕ :=
  r.chunks.foldl (fun off c => off + c.bytes) sizeofDumpTask

/-- The two passes agree. -/
def DumpRecord.SizeAgrees (r : DumpRecord) : Prop :=
  r.dtSize = r.emitted ∧ r.etSize = r.dtSize + sizeofDumpTask

/-- Every write stays inside the allocation. -/
def DumpRecord.InBuffer (r : DumpRecord) : Prop :=
  ∀ w ∈ r.writes, w.off + w.len ≤ r.memSize

/-- A reader visits `num_chunks` chunks and ends at `et->size`. -/
def DumpRecord.WalkEnds (r : DumpRecord) : Prop :=
  r.chunks.length = r.numChunks ∧ r.walkEnd = r.etSize

/-- The record is exactly as long as the first pass said. -/
structure DumpRecord.Sound (r : DumpRecord) : Prop where
  sizeAgrees : r.SizeAgrees
  inBuffer : r.InBuffer
  walkEnds : r.WalkEnds

/-! ## The first pass undercounts

The first pass counts a generic 8-byte header for every chunk. The second pass
writes a 12-byte header for the pid and a 16-byte header for each buffer, so
the size it needs is strictly larger on every task. -/

theorem u32_add_le (a b : ℕ) : u32 (a + b) ≤ a + u32 b := by
  unfold u32
  rw [← Nat.add_mod_mod]
  exact Nat.mod_le _ _

/-- Bytes of the buffer chunks of a BO list. -/
def dumpBoBytes (bos : List DumpBo) : ℕ :=
  (bos.map fun bo => bo.chunk.bytes).sum

theorem dumpBoSizes_le : ∀ (bos : List DumpBo) (size : ℕ),
    dumpBoSizes bos size + 8 * bos.length ≤ size + dumpBoBytes bos
  | [], size => by simp [dumpBoSizes, dumpBoBytes]
  | bo :: bos, size => by
      have ih := dumpBoSizes_le bos
        (u32 (u32 (size + sizeofDumpChunk) + bo.dumpSize))
      have h1 := u32_add_le (u32 (size + sizeofDumpChunk)) bo.dumpSize
      have h2 := u32_le (size + sizeofDumpChunk)
      have h8 : sizeofDumpChunk = 8 := by decide
      have h16 : bo.chunk.bytes = 16 + u32 bo.dumpSize := rfl
      simp only [dumpBoSizes, dumpBoBytes, List.map_cons, List.sum_cons,
        List.length_cons] at ih ⊢
      omega

/-- What the second pass knows about its pointer: it stands after the bytes of
the chunks emitted so far, and some write reaches it. -/
structure DumpCursor.Ok (c : DumpCursor) : Prop where
  off_eq : c.off = sizeofErrorTask + sizeofDumpTask +
    (c.chunks.map DumpChunk.bytes).sum
  reached : ∃ w ∈ c.writes, c.off ≤ w.off + w.len

theorem DumpCursor.Ok.put {c : DumpCursor} (h : c.Ok) (chunk : DumpChunk)
    (hsize : chunk.size ≤ chunk.payload.length) : (c.put chunk).Ok where
  off_eq := by
    simp only [DumpCursor.put, h.off_eq, List.map_append, List.sum_append,
      List.map_cons, List.map_nil, List.sum_cons, List.sum_nil, DumpChunk.bytes]
    omega
  reached := by
    refine ⟨⟨c.off + chunk.id.headerSize, chunk.payload.length⟩, ?_, ?_⟩
    · simp [DumpCursor.put]
    · simpa [DumpCursor.put] using hsize

theorem DumpBo.chunk_size_le (bo : DumpBo) :
    bo.chunk.size ≤ bo.chunk.payload.length := by
  simp [DumpBo.chunk]

/-- The buffer loop appends one chunk per BO and keeps the pointer honest. -/
theorem dumpBos_spec : ∀ {bos : List DumpBo} {c c' : DumpCursor},
    dumpBos bos c = some c' → c.Ok →
      c'.Ok ∧ c'.chunks = c.chunks ++ bos.map DumpBo.chunk
  | [], c, c', h, hc => by
      obtain rfl : c = c' := Option.some.inj h
      simpa using hc
  | bo :: bos, c, c', h, hc => by
      rw [dumpBos] at h
      split at h
      · obtain ⟨hok, hchunks⟩ := dumpBos_spec h (hc.put bo.chunk bo.chunk_size_le)
        exact ⟨hok, by simp [hchunks, DumpCursor.put]⟩
      · cases h

/-- The chunks of a record, in the order they are written. -/
def DumpSource.allChunks (src : DumpSource) : List DumpChunk :=
  [src.frameChunk, src.nameChunk, src.pidChunk] ++ src.bos.map DumpBo.chunk

/-- Everything a completed build determines. -/
theorem limaSchedBuildErrorTaskList_spec {numTasks maxErrorTasks : ℕ}
    {kvmallocOk : Bool} {src : DumpSource} {r : DumpRecord}
    (h : limaSchedBuildErrorTaskList numTasks maxErrorTasks kvmallocOk src =
      some r) :
    r.chunks = src.allChunks ∧ r.dtSize = dumpSize src ∧
      r.etSize = u32 (r.dtSize + sizeofDumpTask) ∧
      r.memSize = u32 (r.etSize + sizeofErrorTask) ∧
      ∃ w ∈ r.writes,
        sizeofErrorTask + sizeofDumpTask + r.emitted ≤ w.off + w.len := by
  unfold limaSchedBuildErrorTaskList at h
  split at h
  · cases h
  · simp only at h
    split at h
    · cases h
    · obtain ⟨c, hc, rfl⟩ := Option.map_eq_some_iff.mp h
      have hstart : DumpCursor.Ok ⟨sizeofErrorTask + sizeofDumpTask, [],
          [⟨0, sizeofErrorTask⟩, ⟨sizeofErrorTask, sizeofDumpTask⟩]⟩ :=
        ⟨by simp, ⟨_, List.mem_cons_of_mem _ List.mem_cons_self, le_refl _⟩⟩
      have hfixed := ((hstart.put src.frameChunk
        (by simp [DumpSource.frameChunk])).put src.nameChunk
        (by simpa [DumpSource.nameChunk] using u32_le _)).put src.pidChunk
        (by simp [DumpSource.pidChunk])
      obtain ⟨hok, hchunks⟩ := dumpBos_spec hc hfixed
      obtain ⟨w, hw, hle⟩ := hok.reached
      refine ⟨by simp [hchunks, DumpCursor.put, DumpSource.allChunks], rfl, rfl,
        rfl, w, hw, ?_⟩
      rw [hok.off_eq] at hle
      exact hle

/-- **The undercount.** The first pass misses four bytes for the pid header
and eight for every buffer header. -/
theorem dumpSize_lt_emitted (src : DumpSource) :
    dumpSize src + (4 + 8 * src.bos.length) ≤
      (src.allChunks.map DumpChunk.bytes).sum := by
  have h8 : sizeofDumpChunk = 8 := by decide
  have hframe := u32_le (sizeofDumpChunk + src.kind.frameSize)
  have hname := u32_add_le
    (u32 (sizeofDumpChunk + src.kind.frameSize) + 8) src.pname.length
  have hpid := u32_le (u32 (u32 (sizeofDumpChunk + src.kind.frameSize) +
    (sizeofDumpChunk + src.pname.length)) + sizeofDumpChunk)
  have hbos := dumpBoSizes_le src.bos
    (u32 (u32 (u32 (sizeofDumpChunk + src.kind.frameSize) +
      (sizeofDumpChunk + src.pname.length)) + sizeofDumpChunk))
  have hsum : (src.allChunks.map DumpChunk.bytes).sum =
      (8 + src.kind.frameSize) + (8 + u32 src.pname.length) + 12 +
        dumpBoBytes src.bos := by
    simp [DumpSource.allChunks, DumpChunk.bytes, DumpSource.frameChunk,
      DumpSource.nameChunk, DumpSource.pidChunk, DumpChunkId.headerSize,
      dumpBoBytes, Function.comp_def, h8,
      show sizeofDumpChunkPid = 12 by decide]
    ring
  rw [hsum]
  simp only [dumpSize, h8, ← Nat.add_assoc] at *
  omega

theorem DumpRecord.walkEnd_eq (r : DumpRecord) :
    r.walkEnd = sizeofDumpTask + r.emitted := by
  have go : ∀ (cs : List DumpChunk) (off : ℕ),
      cs.foldl (fun off c => off + c.bytes) off =
        off + (cs.map DumpChunk.bytes).sum := by
    intro cs
    induction cs with
    | nil => simp
    | cons c cs ih =>
        intro off
        rw [List.foldl_cons, ih, List.map_cons, List.sum_cons, Nat.add_assoc]
  exact go r.chunks sizeofDumpTask

/-- **No captured record fits.** Whatever the task, a completed capture has a
size field smaller than what it emitted, a write past its allocation, and a
reader that does not end at `et->size`. -/
theorem errorTaskRecord_overflows {numTasks maxErrorTasks : ℕ}
    {kvmallocOk : Bool} {src : DumpSource} {r : DumpRecord}
    (h : limaSchedBuildErrorTaskList numTasks maxErrorTasks kvmallocOk src =
      some r) :
    ¬ r.SizeAgrees ∧ ¬ r.InBuffer ∧ ¬ r.WalkEnds := by
  obtain ⟨hchunks, hsize, het, hmem, w, hw, hend⟩ :=
    limaSchedBuildErrorTaskList_spec h
  have hlt : r.dtSize < r.emitted := by
    have := dumpSize_lt_emitted src
    rw [DumpRecord.emitted, hchunks, hsize]
    omega
  have het' : r.etSize ≤ r.dtSize + sizeofDumpTask := het ▸ u32_le _
  refine ⟨fun hs => ?_, fun hb => ?_, fun hwalk => ?_⟩
  · have := hs.1
    omega
  · have hmem' : r.memSize ≤ r.etSize + sizeofErrorTask := hmem ▸ u32_le _
    have := hb w hw
    omega
  · have := hwalk.2
    rw [r.walkEnd_eq] at this
    omega

/-- A GP task with one 4 KiB buffer, from a process named in 20 bytes. -/
def gpDumpSource : DumpSource where
  kind := .gp
  frame := fun _ => 0
  pname := List.replicate 20 0
  pid := 100
  bos := [⟨0, 4096, 0x1000, fun _ => 0, true⟩]

theorem errorTaskRecord_overflows_gp :
    ∃ r, limaSchedBuildErrorTaskList 0 1 true gpDumpSource = some r ∧
      ¬ r.SizeAgrees ∧ ¬ r.InBuffer ∧ ¬ r.WalkEnds := by
  obtain ⟨r, h⟩ :
      ∃ r, limaSchedBuildErrorTaskList 0 1 true gpDumpSource = some r := ⟨_, rfl⟩
  exact ⟨r, h, errorTaskRecord_overflows h⟩

/-- On that task the buffer is sized for 4172 bytes of chunks and 4184 are
written into it. -/
theorem gpDumpSource_unsound :
    ∃ r, limaSchedBuildErrorTaskList 0 1 true gpDumpSource = some r ∧
      r.dtSize = 4172 ∧ r.emitted = 4184 ∧ ¬ r.Sound := by
  refine ⟨_, rfl, by decide, by decide, fun hs => ?_⟩
  exact absurd hs.sizeAgrees.1 (by decide)

end Lima
