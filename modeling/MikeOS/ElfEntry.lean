import MikeOS.ElfReport

/-!
# Where a task starts

`load_task` jumps to the field `text_begin`, which the loader sets for each
segment with the flags of a text segment. The address is compared with the
entry point in the header of the file. The segments that were loaded are those
that the loop of the loader got through.
-/

set_option autoImplicit false

namespace MikeOS.ElfEntry
open MikeOS.Initrd MikeOS.File MikeOS.KernelHeap MikeOS.Mmu MikeOS.VirtualMemory MikeOS.Mmaps
open MikeOS.Elf MikeOS.ElfConfined MikeOS.ElfLoad MikeOS.ElfReport MikeOS.UserBytes MikeOS.FrameDemand
open MikeOS.AddressSpaces MikeOS.Teardown MikeOS.KernelHeapRuns

variable {σ : Type}

def stackEndAddress : Word := kernelVirtualOffset-pageSize
def stackSize : Word := 5#32

structure Jump where
  eip : Word
  esp : Word
  deriving DecidableEq, Repr

/-- `task` is what `alloc_task` returned, with what `kmalloc` left in it, and
`memory` is in use after the switch to its address space. Where the source
calls `free_task` and returns `NULL` there is no jump. -/
def loadTask (M : Memory σ) (ram : Ram) (headerBuf segments : StackBuffer) (elfFile : Option FileT)
    (task : Option Task) (memory : σ) : Except Stop (Option Jump × σ) :=
  match task with
  | none => .ok (none, memory)
  | some task => do
    let (code, task, memory) ← loadElf M ram headerBuf segments elfFile task memory
    if code ≠ .success then return (none, memory)
    let (code, memory) ← M.mmap (stackEndAddress-stackSize*pageSize) stackSize memory
    if code ≠ .success then return (none, memory)
    return (some ⟨task.textBegin, stackEndAddress⟩, memory)

/-! ## The property -/

def entryOf (content : List Byte) : Word := wordAt (byteAt (content.take elfHeaderSize)) 24

def isExecutable (s : Phdr) : Bool := s.flags.getLsbD 0

def Inside (s : Phdr) (a : Word) : Prop :=
  s.vaddr.toNat ≤ a.toNat ∧ a.toNat < s.vaddr.toNat+s.memsz.toNat

def loadedSegments (M : Memory σ) (ram : Ram) : List Phdr → Loader σ → List Phdr
  | [], _ => []
  | s::rest, x =>
    if s.type = ptLoad then
      match loadSegment M ram s x with
      | .ok (.success, x) => s :: loadedSegments M ram rest x
      | _ => []
    else loadedSegments M ram rest x

def loadedIn (M : Memory σ) (ram : Ram) (headerBuf segments : StackBuffer) (mode : Word) (node : FsNode)
    (task : Task) (m : σ) : List Phdr :=
  let elfHeader := headerOf (node.content ram)
  let t := loadProgramHeaderTable ram elfHeader segments (elfHeader.phnum.setWidth 32)
    (afterHeader mode node headerBuf)
  if elfHeader.type ≠ etExec ∨ t.1 = 0#32 then []
  else loadedSegments M ram (segmentsOf t.2.1 (elfHeader.phnum.setWidth 32)) ⟨t.2.2, task, m⟩

/-! ## The condition -/

/-- The segments that are loaded when the file stands at `pos`: those before the
first that is not mapped or of which nothing is read. -/
def loadable (size : ℕ) : ℕ → List Phdr → List Phdr
  | _, [] => []
  | pos, s::rest =>
    if s.type = ptLoad then
      let start := cursor size s.offset pos
      let count := min s.filesz.toNat (size-start)
      if mmapRejects s.vaddr (segmentPages s.memsz) = true ∨ s.vaddr = null ∨ count = 0 then []
      else s :: loadable size (start+count) rest
    else loadable size pos rest

def loadableIn (content : List Byte) (segments : StackBuffer) : List Phdr :=
  let elfHeader := headerOf content
  let start := cursor content.length elfHeader.phoff (min 52 content.length)
  let count := min (32*elfHeader.phnum.toNat) (content.length-start)
  if elfHeader.type ≠ etExec ∨ count = 0 then []
  else loadable content.length (start+count)
    (segmentsOf (segments.filled ((content.drop start).take count)) (elfHeader.phnum.setWidth 32))

def lastText (textBegin : Word) (loaded : List Phdr) : Word :=
  ((loaded.filter fun s => s.flags = pfRX).getLast?.map Phdr.vaddr).getD textBegin

/-- The last text segment that is loaded starts at the entry point, and a loaded
segment that is executable contains it. -/
def EntersText (content : List Byte) (segments : StackBuffer) (textBegin : Word) : Prop :=
  lastText textBegin (loadableIn content segments) = entryOf content ∧
    ∃ s ∈ loadableIn content segments, isExecutable s = true ∧ Inside s (entryOf content)

/-! ## The segments of a run -/

variable {M : Memory σ}

theorem loadSegment_after (hM : Decides M) (ram : Ram) {s : Phdr} {x : Loader σ} {r : ErrorCode × Loader σ}
    (h : loadSegment M ram s x = .ok r) :
    r.1 = (after s x.file x.task).1 ∧ r.2.file = (after s x.file x.task).2.1 ∧
      r.2.task = (after s x.file x.task).2.2 := by
  rw [show x = ⟨x.file, x.task, x.memory⟩ from rfl, loadSegment_played hM] at h
  obtain ⟨m',-,hr⟩ := bind_eq_ok h
  cases hr
  exact ⟨rfl,rfl,rfl⟩

theorem update_textBegin (task : Task) (s : Phdr) :
    (task.update s).textBegin = if s.flags = pfRX then s.vaddr else task.textBegin := by
  rw [Task.update]
  split <;> split <;> rfl

theorem lastText_cons (textBegin : Word) (s : Phdr) (rest : List Phdr) :
    lastText textBegin (s::rest) = lastText (if s.flags = pfRX then s.vaddr else textBegin) rest := by
  rw [lastText, lastText]
  by_cases hs : s.flags = pfRX
  · rw [List.filter_cons_of_pos (by simpa using hs), if_pos hs, List.getLast?_cons]
    cases (rest.filter fun s => s.flags = pfRX).getLast? <;> rfl
  · rw [List.filter_cons_of_neg (by simpa using hs), if_neg hs]

theorem loaded_step (hM : Decides M) (ram : Ram) {s : Phdr} {x x₁ : Loader σ} {code : ErrorCode}
    (hin : x.file.offset ≤ x.file.inode.size) (h : loadSegment M ram s x = .ok (code, x₁))
    (ho : outcomeOf s x.file = .loaded) (hv : s.vaddr ≠ null) :
    let start := cursor x.file.inode.size.toNat s.offset x.file.offset.toNat
    let count := min s.filesz.toNat (x.file.inode.size.toNat-start)
    code = .success ∧ x₁.task = x.task.update s ∧ x₁.file.inode = x.file.inode ∧
      x₁.file.offset.toNat = start+count ∧ x₁.file.offset ≤ x₁.file.inode.size := by
  intro start count
  obtain ⟨hcode,hfile,htask⟩ := loadSegment_after hM ram h
  rw [after_loaded x.task ho] at hcode hfile htask
  obtain ⟨-,-,-,hinode,hoff⟩ := segmentRead_eq ram s hv hin
  have hle : start ≤ x.file.inode.size.toNat := cursor_le _ s.offset hin
  have hfile₁ : x₁.file = (segmentRead s x.file).file := hfile
  refine ⟨hcode,htask,by rw [hfile₁, hinode],by rw [hfile₁, hoff],?_⟩
  change x₁.file.offset.toNat ≤ x₁.file.inode.size.toNat
  rw [hfile₁, hinode, hoff]
  omega

theorem failed_step (hM : Decides M) (ram : Ram) {s : Phdr} {x x₁ : Loader σ} {code : ErrorCode}
    (h : loadSegment M ram s x = .ok (code, x₁)) (ho : outcomeOf s x.file ≠ .loaded) :
    code = .failure ∧ x₁.task = x.task := by
  obtain ⟨hcode,-,htask⟩ := loadSegment_after hM ram h
  rw [after_failed x.task ho] at hcode
  refine ⟨hcode,?_⟩
  rw [htask, after]
  split
  · rfl
  · rfl
  · contradiction

theorem loadEach_loaded (hM : Decides M) (ram : Ram) {segs : List Phdr} {x : Loader σ}
    {r : ErrorCode × Loader σ} (hin : x.file.offset ≤ x.file.inode.size)
    (h : loadEach M ram segs x = .ok r) :
    loadedSegments M ram segs x = loadable x.file.inode.size.toNat x.file.offset.toNat segs ∧
      r.2.task.textBegin = lastText x.task.textBegin (loadedSegments M ram segs x) := by
  induction segs generalizing x with
  | nil =>
    cases h
    exact ⟨rfl,rfl⟩
  | cons s rest ih =>
    rw [loadEach] at h
    rw [loadedSegments, loadable]
    by_cases ht : s.type = ptLoad
    · rw [if_pos ht] at h ⊢
      rw [if_pos ht]
      obtain ⟨⟨code,x₁⟩,hseg,hrest⟩ := bind_eq_ok h
      have hout := (segment_confined ram s x.file hin 0#32 0#32 []).2
      rw [hseg]
      by_cases ho : outcomeOf s x.file = .loaded
      · have hnot := hout.mp ho
        obtain ⟨rfl,htask,hinode,hoff,hin₁⟩ := loaded_step hM ram hin hseg ho fun hv => hnot (Or.inr (Or.inl hv))
        obtain ⟨hloaded,htext⟩ := ih hin₁ hrest
        rw [hinode, hoff] at hloaded
        simp only [if_neg hnot]
        refine ⟨congrArg (s :: ·) hloaded,?_⟩
        rw [htext, lastText_cons, ← update_textBegin, htask]
      · have hyes := not_not.mp (hout.not.mp ho)
        obtain ⟨rfl,htask⟩ := failed_step hM ram hseg ho
        cases hrest
        simp only [if_pos hyes]
        exact ⟨trivial,congrArg Task.textBegin htask⟩
    · rw [if_neg ht] at h ⊢
      rw [if_neg ht]
      exact ih hin h

/-! ## Whole files -/

/-- What is loaded of an executable and where its task starts. -/
theorem loadSegments_loaded (hM : Decides M) (ram : Ram) (headerBuf segments : StackBuffer) (mode : Word)
    (node : FsNode) (task : Task) (m : σ) {r : ErrorCode × Loader σ}
    (hexec : (headerOf (node.content ram)).type = etExec)
    (h : loadSegments M ram segments (headerOf (node.content ram)) ⟨afterHeader mode node headerBuf, task, m⟩ =
      .ok r) :
    loadedIn M ram headerBuf segments mode node task m = loadableIn (node.content ram) segments ∧
      r.2.task.textBegin = lastText task.textBegin (loadedIn M ram headerBuf segments mode node task m) := by
  obtain ⟨hinode,hin⟩ := afterHeader_range mode node headerBuf
  obtain ⟨hbytes,htab,hinode',hoff⟩ := table_read ram segments (headerOf (node.content ram))
    (afterHeader mode node headerBuf) hin
  have hle := cursor_le (afterHeader mode node headerBuf).inode.size.toNat (headerOf (node.content ram)).phoff hin
  rw [hinode, afterHeader_offset, ← content_length ram node] at hbytes htab hoff hle
  rw [hinode] at hinode'
  unfold loadSegments at h
  unfold loadedIn loadableIn
  obtain ⟨t,ht⟩ : ∃ t, t = loadProgramHeaderTable ram (headerOf (node.content ram)) segments
    ((headerOf (node.content ram)).phnum.setWidth 32) (afterHeader mode node headerBuf) := ⟨_,rfl⟩
  simp only [← ht] at h hbytes htab hinode' hoff ⊢
  have hzero : t.1 = 0#32 ↔ t.1.toNat = 0 := ⟨fun h0 => by rw [h0]; rfl,fun h0 => BitVec.eq_of_toNat_eq h0⟩
  rw [hbytes] at hzero
  by_cases h0 : t.1 = 0#32
  · rw [if_pos h0] at h
    cases h
    rw [if_pos (Or.inr h0), if_pos (Or.inr (hzero.mp h0))]
    exact ⟨rfl,rfl⟩
  · rw [if_neg h0] at h
    rw [if_neg (not_or.mpr ⟨not_not.mpr hexec,h0⟩), if_neg (not_or.mpr ⟨not_not.mpr hexec,hzero.not.mp h0⟩)]
    have hin' : t.2.2.offset ≤ t.2.2.inode.size := by
      change t.2.2.offset.toNat ≤ t.2.2.inode.size.toNat
      rw [hoff, hinode', ← content_length ram node]
      omega
    obtain ⟨hloaded,htext⟩ := loadEach_loaded hM ram (x := ⟨t.2.2, task, m⟩) hin' h
    refine ⟨?_,htext⟩
    rw [hloaded, htab, hinode', hoff, content_length]

/-- The jump of a task is made to what the loader left in `text_begin`. -/
theorem loadTask_jump (ram : Ram) {headerBuf segments : StackBuffer} {elfFile : Option FileT} {task : Task}
    {m m' : σ} {jump : Jump}
    (h : loadTask M ram headerBuf segments elfFile (some task) m = .ok (some jump, m')) :
    ∃ task' m₁, loadElf M ram headerBuf segments elfFile task m = .ok (.success, task', m₁) ∧
      jump.eip = task'.textBegin := by
  unfold loadTask at h
  obtain ⟨⟨code,task',m₁⟩,helf,hrest⟩ := bind_eq_ok h
  simp only at hrest
  split at hrest
  · cases hrest
  rename_i hcode
  obtain ⟨⟨code',m₂⟩,-,hend⟩ := bind_eq_ok hrest
  simp only at hend
  split at hend
  · cases hend
  cases hend
  exact ⟨task',m₁,by rw [helf, not_not.mp hcode],rfl⟩

/-- The segments and the address of a task that gets to user space. -/
theorem jump_of_reach (hM : Decides M) (ram : Ram) {headerBuf segments : StackBuffer} {mode : Word}
    {node : FsNode} {task : Task} {m m' : σ} {jump : Jump}
    (hreach : loadTask M ram headerBuf segments (some (opened mode node)) (some task) m = .ok (some jump, m')) :
    loadedIn M ram headerBuf segments mode node task m = loadableIn (node.content ram) segments ∧
      jump.eip = lastText task.textBegin (loadableIn (node.content ram) segments) := by
  obtain ⟨task',m₁,helf,heip⟩ := loadTask_jump ram hreach
  rw [loadElf_eq] at helf
  by_cases ha : Accepted (node.content ram)
  · rw [if_pos ha] at helf
    by_cases hexec : (headerOf (node.content ram)).type = etExec
    · rw [if_pos hexec] at helf
      obtain ⟨r,hload,hr⟩ := bind_eq_ok helf
      cases hr
      obtain ⟨hloaded,htext⟩ := loadSegments_loaded hM ram headerBuf segments mode node task m hexec hload
      exact ⟨hloaded,by rw [heip, htext, hloaded]⟩
    · rw [if_neg hexec] at helf
      cases helf
      rw [loadedIn, loadableIn, if_pos (Or.inl hexec), if_pos (Or.inl hexec)]
      exact ⟨rfl,heip⟩
  · rw [if_neg ha] at helf
    cases helf

/-! ## Well-formed files -/

theorem stack_accepted : mmapRejects (stackEndAddress-stackSize*pageSize) stackSize = false ∧
    mmapCount (stackEndAddress-stackSize*pageSize) stackSize = 5 := by decide

/-- A well-formed file gets to user space while the frames for its segments and
for the stack are left. -/
theorem wellFormed_reaches {L : Layout} {dirs : List ℕ} {m : Machine} (h : InSpace L dirs m) (ram : Ram)
    (headerBuf segments : StackBuffer) (mode : Word) (node : FsNode) (task : Task)
    (hsize : node.size.toNat < 2^31) (hwell : WellFormed (node.content ram) (headerOf (node.content ram)))
    (hframes : framesFor m.mem (frameOf m.cr3)
      (loadsOf (phdrsOf (node.content ram) (headerOf (node.content ram))))+
        FrameDemand.demand m.mem (frameOf m.cr3) 0xBFFFA 5 ≤ FramePool.left L.toKernelImage m.phys) :
    ∃ jump m', loadTask (machineMemory L) ram headerBuf segments (some (opened mode node)) (some task) m =
      .ok (some jump, m') := by
  obtain ⟨hinode,hin⟩ := afterHeader_range mode node headerBuf
  have hload := segments_loaded h ram segments (headerOf (node.content ram)) (afterHeader mode node headerBuf)
    task (r := FrameDemand.demand m.mem (frameOf m.cr3) 0xBFFFA 5)
  rw [hinode] at hload hin
  obtain ⟨x,hx,hprog,-⟩ := hload hsize hin hwell hframes
  have ha : Accepted (node.content ram) := by
    refine ⟨fun h0 => ?_,hwell.header,hwell.supported⟩
    have htable := hwell.table
    have hsome := hwell.some
    rw [h0] at htable hsome
    simp only [List.length_nil] at htable
    omega
  obtain ⟨hr,hcount⟩ := stack_accepted
  have hdemand := (hprog.demand 0xBFFFA 5 (by omega)).trans hprog.left
  rw [← hprog.cr3] at hdemand
  obtain ⟨m₂,hm₂,-⟩ := mmapLoop_running 5 hprog.space.running (v := stackEndAddress-stackSize*pageSize)
    (by decide) (by decide) (r := 0) hdemand
  have hmap : VirtualMemory.mmap L (stackEndAddress-stackSize*pageSize) stackSize x.memory = .ok (.success, m₂) := by
    rw [VirtualMemory.mmap, hr, if_neg (by simp), hcount, hm₂]
    rfl
  refine ⟨⟨x.task.textBegin, stackEndAddress⟩,m₂,?_⟩
  unfold loadTask
  simp only [loadElf_eq, if_pos ha, if_pos hwell.exec, hx, ok_bind]
  change (if ErrorCode.success ≠ .success then _ else
    VirtualMemory.mmap L (stackEndAddress-stackSize*pageSize) stackSize x.memory >>= _) = _
  rw [if_neg (by simp), hmap]
  rfl

/-- A task that gets to user space starts at the entry point of its file, inside
an executable segment that was loaded, precisely when the last text segment that
is loaded starts there. -/
theorem entry_point_iff (L : Layout) (ram : Ram) (headerBuf segments : StackBuffer) (mode : Word)
    (node : FsNode) (task : Task) (m m' : Machine) (jump : Jump)
    (hreach : loadTask (machineMemory L) ram headerBuf segments (some (opened mode node)) (some task) m =
      .ok (some jump, m')) :
    (jump.eip = entryOf (node.content ram) ∧
      ∃ s ∈ loadedIn (machineMemory L) ram headerBuf segments mode node task m,
        isExecutable s = true ∧ Inside s jump.eip) ↔
      EntersText (node.content ram) segments task.textBegin := by
  obtain ⟨hloaded,heip⟩ := jump_of_reach (decides_machine L) ram hreach
  rw [EntersText, hloaded, heip]
  constructor
  · rintro ⟨he,s,hs,hx,hin⟩
    exact ⟨he,s,hs,hx,he ▸ hin⟩
  · rintro ⟨he,s,hs,hx,hin⟩
    exact ⟨he,s,hs,hx,he.symm ▸ hin⟩

/-! ## Two programs -/

theorem space_with_frames : ∃ dirs m, InSpace smallLayout dirs m ∧
    FramePool.left smallLayout.toKernelImage m.phys = 14 := by
  obtain ⟨phys,hinit,hbits⟩ := region_init 0xF0#8 0xF000#32 (by decide) (by decide) (by decide)
  obtain ⟨m₀,hstart,hm⟩ := Boot.start_ok smallLayout (fun _ _ => 0#32) phys
  obtain ⟨phys',hcount,hinto⟩ := into_first_space (n := 15) (by omega) (by omega) hbits
    (FrameAllocator.init_reserved hinit).2 hm
  have hrun := (hinto []).1
  rw [Transition.run_nil] at hrun
  obtain ⟨dirs,hspace⟩ := inSpace_of_inv (inv_of_run (inv_of_start hinit hstart) ((hinto []).2 trivial) hrun)
    List.mem_cons_self rfl
  exact ⟨dirs,_,hspace,by change FramePool.left smallImage phys' = 14; omega⟩

theorem twoSegments_loadable : loadableIn (twoSegmentsFile.content twoSegments) stackBuffer =
    [⟨1#32, 116#32, 0x40001000#32, 4#32, 4#32, 5#32⟩, ⟨1#32, 120#32, 0x40000000#32, 2#32, 6#32, 6#32⟩] := by
  decide +kernel

theorem twoSegments_entry : ∃ m jump m',
    loadTask (machineMemory smallLayout) twoSegments stackBuffer stackBuffer (some (opened 1#32 twoSegmentsFile))
      (some ⟨0xCCCCCCCC#32, 0#32⟩) m = .ok (some jump, m') ∧
    jump.eip = entryOf (twoSegmentsFile.content twoSegments) ∧
    ∃ s ∈ loadedIn (machineMemory smallLayout) twoSegments stackBuffer stackBuffer 1#32 twoSegmentsFile
      ⟨0xCCCCCCCC#32, 0#32⟩ m, isExecutable s = true ∧ Inside s jump.eip := by
  obtain ⟨dirs,m,hspace,hleft⟩ := space_with_frames
  obtain ⟨jump,m',hreach⟩ := wellFormed_reaches hspace twoSegments stackBuffer stackBuffer 1#32 twoSegmentsFile
    ⟨0xCCCCCCCC#32, 0#32⟩ (by decide) twoSegments_wellFormed (by
      have hstack := demand_le m.mem (frameOf m.cr3) 0xBFFFA 5
      have hfirst := demand_le m.mem (frameOf m.cr3) 0x40001 1
      have hsecond := demand_le m.mem (frameOf m.cr3) 0x40000 1
      rw [twoSegments_loads, framesFor]
      simp only [List.map_cons, List.map_nil, List.sum_cons, List.sum_nil]
      change demand _ _ 0x40001 1+(demand _ _ 0x40000 1+0)+_ ≤ _
      omega)
  refine ⟨m,jump,m',hreach,(entry_point_iff smallLayout _ _ _ _ _ _ _ _ _ hreach).mpr ?_⟩
  have hentry : entryOf (twoSegmentsFile.content twoSegments) = 0x40001000#32 := by decide +kernel
  rw [EntersText, twoSegments_loadable, hentry]
  exact ⟨by decide,_,List.mem_cons_self,by decide,by constructor <;> decide⟩

def laterEntry : Ram := ramOf (headerBytes 1#8 ++
  [1#8, 0#8, 0#8, 0#8, 84#8, 0#8, 0#8, 0#8, 0#8, 0#8, 0#8, 0x40#8, 0#8, 0#8, 0#8, 0#8,
    4#8, 0x10#8, 0#8, 0#8, 4#8, 0x10#8, 0#8, 0#8, 5#8, 0#8, 0#8, 0#8, 0#8, 0x10#8, 0#8, 0#8])

def laterEntryFile : FsNode := ⟨0x1058#32, imageBase⟩

theorem laterEntry_loads : loadsOf (phdrsOf (laterEntryFile.content laterEntry)
    (headerOf (laterEntryFile.content laterEntry))) =
    [⟨1#32, 84#32, 0x40000000#32, 0x1004#32, 0x1004#32, 5#32⟩] := by
  decide +kernel

theorem laterEntry_wellFormed : WellFormed (laterEntryFile.content laterEntry)
    (headerOf (laterEntryFile.content laterEntry)) := by
  have hlen : (laterEntryFile.content laterEntry).length = 0x1058 := content_length _ _
  refine ⟨by decide +kernel,by decide +kernel,by decide +kernel,by decide +kernel,?_,?_,?_⟩
  · rw [hlen]
    decide +kernel
  · rw [laterEntry_loads, hlen]
    simp only [List.forall_mem_cons, List.not_mem_nil, false_implies, implies_true, and_true]
    constructor <;> decide
  · rw [laterEntry_loads]
    exact List.pairwise_singleton _ _

/-- The program is loaded as it should be and started a page too low. -/
theorem laterEntry_missed : ∃ m jump m',
    loadTask (machineMemory smallLayout) laterEntry stackBuffer stackBuffer (some (opened 1#32 laterEntryFile))
      (some ⟨0#32, 0#32⟩) m = .ok (some jump, m') ∧
    ¬ (jump.eip = entryOf (laterEntryFile.content laterEntry) ∧
      ∃ s ∈ loadedIn (machineMemory smallLayout) laterEntry stackBuffer stackBuffer 1#32 laterEntryFile
        ⟨0#32, 0#32⟩ m, isExecutable s = true ∧ Inside s jump.eip) := by
  obtain ⟨dirs,m,hspace,hleft⟩ := space_with_frames
  obtain ⟨jump,m',hreach⟩ := wellFormed_reaches hspace laterEntry stackBuffer stackBuffer 1#32 laterEntryFile
    ⟨0#32, 0#32⟩ (by decide) laterEntry_wellFormed (by
      have hstack := demand_le m.mem (frameOf m.cr3) 0xBFFFA 5
      have htext := demand_le m.mem (frameOf m.cr3) 0x40000 2
      rw [laterEntry_loads, framesFor]
      simp only [List.map_cons, List.map_nil, List.sum_cons, List.sum_nil]
      change demand _ _ 0x40000 2+0+_ ≤ _
      omega)
  refine ⟨m,jump,m',hreach,fun h => ?_⟩
  have heip := (jump_of_reach (decides_machine smallLayout) laterEntry hreach).2
  have hload : loadableIn (laterEntryFile.content laterEntry) stackBuffer =
      [⟨1#32, 84#32, 0x40000000#32, 0x1004#32, 0x1004#32, 5#32⟩] := by decide +kernel
  have hentry : entryOf (laterEntryFile.content laterEntry) = 0x40001000#32 := by decide +kernel
  rw [h.1, hload, hentry] at heip
  revert heip
  decide

end MikeOS.ElfEntry
