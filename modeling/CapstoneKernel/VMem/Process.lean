import CapstoneKernel.Mem.BuddySpec
import CapstoneKernel.VMem.PageTable

/-!
# User memory of processes

The state that `exec`, `fork`, `mmap`, the fault handler and the reaper of zombies share: the page
allocator, `usr_pages` (a reference count and a write permission for each physical page), the memory
itself, and for each process its page table, its sections and the address of its program.

Pages for programs and for the user come from the page allocator through `malloc`; what other kernel
code allocates and frees (page tables, sections, stacks, files) is the environment, which takes and
returns blocks of its own.  The calls of `ref_page`, `deref_page` and `buddy_free` that one
operation makes are recorded in `trace`.
-/

namespace CapstoneKernel.VMem

open Mem Function

inductive SectionType
  | text
  | heap
  | stack
  | device
  deriving DecidableEq, Repr

/-- `struct section`.  Only a section without bytes may start inside a page. -/
structure Section where
  type : SectionType
  base : ℕ
  size : ℕ
  aligned : base % pageSize = 0 ∨ size = 0
  deriving DecidableEq

namespace Section

/-- The rounds of the loops `for (i = 0; i < size; i += PAGE_SIZE)`. -/
def numPages (sec : Section) : ℕ := (sec.size + pageSize - 1) / pageSize

def firstPage (sec : Section) : ℕ := sec.base / pageSize

/-- The virtual pages of the section. -/
def pages (sec : Section) : List ℕ := (List.range sec.numPages).map (sec.firstPage + ·)

/-- `in_section`. -/
def contains (sec : Section) (addr : ℕ) : Bool := sec.base ≤ addr && addr < sec.base + sec.size

end Section

def usrCodeStart : ℕ := 0

def usrStackStart : ℕ := 0xffffffffb000

def stackEl0Size : ℕ := 2 ^ 14

def maxProc : ℕ := 1024

/-- The fields of `struct pcb_t` that describe the memory of a process. -/
structure Proc where
  el0 : Bool
  dead : Bool
  code : ℕ
  sections : List Section
  table : PageTable

/-- The calls an operation makes.  `free` is the call of `buddy_free` in `deref_page`, with the
pages of the block that are still counted. -/
inductive VmEvent
  | ref (page : ℕ)
  | deref (page : ℕ)
  | free (head : ℕ) (counted : List ℕ)
  deriving DecidableEq

structure VmState where
  buddy : Buddy
  usableEnd : ℕ
  refCount : ℕ → ℕ
  wPermission : ℕ → Bool
  mem : ℕ → BitVec 8
  procs : ℕ → Option Proc
  /-- Heads of the blocks other kernel code holds. -/
  kernel : List ℕ
  trace : List VmEvent

namespace VmState

def setProc (s : VmState) (pid : ℕ) (p : Proc) : VmState :=
  { s with procs := update s.procs pid (some p) }

def log (s : VmState) (event : VmEvent) : VmState := { s with trace := s.trace ++ [event] }

/-- The state at the start of an operation, before it makes any calls. -/
def clear (s : VmState) : VmState := { s with trace := [] }

/-- `pcb_table[pid]`, where the code reads it without a check. -/
def proc (s : VmState) (pid : ℕ) : Except Fault Proc :=
  match s.procs pid with
  | none => .error .nullPointer
  | some p => .ok p

/-- The pages of the block headed by `head` with a count above 0. -/
def countedPages (s : VmState) (head : ℕ) : List ℕ :=
  ((List.range (2 ^ blockOrder s.buddy head)).map (head + ·)).filter fun page ↦ 0 < s.refCount page

end VmState

/-! ## `usr_pages` -/

/-- `ref_page`; the count is a `uint16_t`. -/
def refPage (s : VmState) (ptr : ℕ) : Except Fault VmState :=
  if ptr % pageSize ≠ 0 then
    .ok { s with buddy := s.buddy.print .notStartOfPage }
  else if ptr / pageSize < s.buddy.numPages then
    .ok { s with
      refCount := update s.refCount (ptr / pageSize) ((s.refCount (ptr / pageSize) + 1) % 2 ^ 16)
      trace := s.trace ++ [.ref (ptr / pageSize)] }
  else .error .outOfBounds

/-- The end of `deref_page`: the block is freed if the page is the head of a used one. -/
def releaseHead (s : VmState) (ptr : ℕ) : Except Fault VmState := do
  let value ← s.buddy.readArr (ptr / pageSize)
  if value < 0 ∨ value = negZero then
    let b ← buddyFree s.buddy ptr
    return { s.log (.free (ptr / pageSize) (s.countedPages (ptr / pageSize))) with buddy := b }
  else
    return s

/-- The state after `--ref_count`. -/
def countDown (s : VmState) (page : ℕ) : VmState :=
  { s with refCount := update s.refCount page (s.refCount page - 1) }

def derefPage (s : VmState) (ptr : ℕ) : Except Fault VmState :=
  if ptr % pageSize ≠ 0 then
    .ok { s with buddy := s.buddy.print .notStartOfPage }
  else if ptr / pageSize < s.buddy.numPages then
    if s.refCount (ptr / pageSize) = 0 then .ok (s.log (.deref (ptr / pageSize)))
    else if s.refCount (ptr / pageSize) = 1 then
      releaseHead
        { countDown (s.log (.deref (ptr / pageSize))) (ptr / pageSize) with
          wPermission := update s.wPermission (ptr / pageSize) false } ptr
    else .ok (countDown (s.log (.deref (ptr / pageSize))) (ptr / pageSize))
  else .error .outOfBounds

/-- `malloc` of whole pages, as the physical address it returns: the size goes to `buddy_malloc` as
a `uint32_t`, and a request that fails gives the address 0. -/
def mallocPages (b : Buddy) (pages : ℕ) : Except Fault (ℕ × Buddy) := do
  let (block, b) ← buddyMalloc b (pages % 2 ^ 32)
  return (blockPtr block, b)

/-! ## Sections -/

/-- The inner loop of `free_sections`. -/
def derefRange : ℕ → ℕ → VmState → Except Fault VmState
  | 0, _, s => .ok s
  | count + 1, ptr, s => do
      let s ← derefPage s ptr
      derefRange count (ptr + pageSize) s

/-- `free_sections`: the pages of a section are taken to follow the first one in memory. -/
def freeSections (t : PageTable) : List Section → VmState → Except Fault VmState
  | [], s => .ok s
  | sec :: rest, s => do
      let s ← derefRange sec.numPages (v2pTrans t sec.base) s
      freeSections t rest s

/-- `ref_page` on a list of addresses. -/
def refAll : List ℕ → VmState → Except Fault VmState
  | [], s => .ok s
  | ptr :: rest, s => do
      let s ← refPage s ptr
      refAll rest s

/-- `add_ref_sections`. -/
def addRefSections (t : PageTable) (sections : List Section) (s : VmState) : Except Fault VmState :=
  refAll ((sections.filter (·.type ≠ .device)).flatMap fun sec ↦
    (List.range sec.numPages).map fun i ↦ v2pTrans t (sec.base + i * pageSize)) s

/-! ## System calls -/

/-- `exit`. -/
def exit (s : VmState) (pid : ℕ) : Except Fault VmState := do
  let p ← s.proc pid
  return s.setProc pid { p with dead := true }

def writeBytes (mem : ℕ → BitVec 8) (ptr : ℕ) (bytes : List (BitVec 8)) : ℕ → BitVec 8 :=
  fun addr ↦ if ptr ≤ addr ∧ addr < ptr + bytes.length then bytes.getD (addr - ptr) 0 else mem addr

/-- The pages of a program of `size` bytes. -/
def imagePages (size : ℕ) : ℕ := size / pageSize + if 0 < size % pageSize then 1 else 0

def textSection (size : ℕ) : Section := ⟨.text, usrCodeStart, size, .inl rfl⟩

def stackSection : Section := ⟨.stack, usrStackStart, stackEl0Size, .inl rfl⟩

/-- The process that `exec` leaves: nothing is mapped before the first fault. -/
def loadedProc (code size : ℕ) : Proc where
  el0 := true
  dead := false
  code := code
  sections := [textSection size, stackSection]
  table := emptyPageTable

/-- The memory of the previous program, if the process has run one. -/
def releaseProc (s : VmState) (p : Proc) : Except Fault VmState :=
  if p.el0 then freeSections p.table p.sections s else .ok s

/-- `exec` of a program file with the given bytes.  `load_prog` fails on an empty file, since
`malloc(0)` is `NULL`. -/
def exec (s : VmState) (pid : ℕ) (image : List (BitVec 8)) : Except Fault VmState := do
  let p ← s.proc pid
  if image.length = 0 then
    exit s pid
  else
    let (code, b) ← mallocPages s.buddy (imagePages image.length)
    let s ← releaseProc { s with buddy := b, mem := writeBytes s.mem code image } p
    return s.setProc pid (loadedProc code image.length)

/-- `fork`, with the pid that `thread_create` has found. -/
def fork (s : VmState) (pid child : ℕ) : Except Fault VmState := do
  let p ← s.proc pid
  if p.el0 then
    let s ← addRefSections p.table p.sections s
    let p' := { p with table := pageTableFork s.usableEnd p.table }
    return { (s.setProc pid p').setProc child p' with
      wPermission := fun page ↦ s.wPermission page || forkWritable s.usableEnd p.table page }
  else
    return s.setProc child p

/-- `MAP_POPULATE`. -/
def mapPopulate : ℕ := 0x8000

def protWrite : ℕ := 2

def protExec : ℕ := 4

/-- The search of `mmap` for `numPages` pages in a row for which `v2p_trans` is `NULL`. -/
def mmapSearch (t : PageTable) (numPages : ℕ) : ℕ → ℕ → ℕ → ℕ → Except Fault ℕ
  | 0, _, _, _ => .error .diverges
  | fuel + 1, page, start, continuous =>
    if numPages ≤ continuous then .ok start
    else if userPages ≤ page then .error .outOfBounds
    else if v2pTrans t (page * pageSize) ≠ 0 then mmapSearch t numPages fuel (page + 1) start 0
    else
      mmapSearch t numPages fuel (page + 1) (if continuous = 0 then page else start) (continuous + 1)

/-- The loop of `mmap` for `MAP_POPULATE`.  `malloc` does not return `NULL` for a size above 0. -/
def populate (flags : PteFlags) (endPage : ℕ) :
    ℕ → ℕ → ℕ → Buddy → PageTable → Except Fault (Buddy × PageTable)
  | 0, _, _, _, _ => .error .diverges
  | fuel + 1, pages, page, b, t =>
    if page < endPage ∧ 0 < pages then
      if pages ≤ endPage - page then do
        let (ptr, b) ← mallocPages b pages
        populate flags endPage fuel pages (page + pages) b (fillPageTable t page (page + pages) ptr flags)
      else populate flags endPage fuel (pages / 2) page b t
    else .ok (b, t)

/-- The flags `mmap` gives to `fill_page_table`; `prot & PROT_NONE` is always 0. -/
def mmapFlags (prot : ℕ) : PteFlags where
  rdonly := prot &&& protWrite = 0
  noExec := prot &&& protExec = 0
  userAccess := true
  access := true

/-- The section `mmap` adds. -/
def heapSection (addr page numPages : ℕ) : Section :=
  if numPages = 0 then ⟨.heap, addr, 0, .inr rfl⟩
  else ⟨.heap, page * pageSize, numPages * pageSize, .inl (Nat.mul_mod_left page pageSize)⟩

def mmap (s : VmState) (pid addr len prot flags : ℕ) : Except Fault VmState := do
  let p ← s.proc pid
  let numPages := imagePages len
  let page ← mmapSearch p.table numPages (userPages + 1) (addr / pageSize) (addr / pageSize) 0
  let p := { p with sections := p.sections ++ [heapSection addr page numPages] }
  if flags &&& mapPopulate = 0 then
    return s.setProc pid p
  else
    let (b, t) ← populate (mmapFlags prot) (page + numPages) (numPages + 2) numPages page s.buddy p.table
    return { s with buddy := b }.setProc pid { p with table := t }

/-! ## Faults and accesses of the user -/

/-- The flags of `exception_entry` for a program and for other pages. -/
def textFlags : PteFlags := ⟨false, false, true, true⟩

def dataFlags : PteFlags := ⟨false, true, true, true⟩

/-- A translation fault in a program maps all of it. -/
def faultText (s : VmState) (pid : ℕ) (p : Proc) (sec : Section) : Except Fault VmState :=
  let startPage := usrCodeStart / pageSize
  refAll ((List.range sec.numPages).map fun i ↦ p.code + i * pageSize)
    (s.setProc pid { p with
      table := fillPageTable p.table startPage (startPage + (sec.size - 1) / pageSize + 1) p.code textFlags })

/-- A translation fault elsewhere maps one new page. -/
def faultData (s : VmState) (pid : ℕ) (p : Proc) (addr : ℕ) : Except Fault VmState := do
  let page := addr / pageSize
  let (ptr, b) ← mallocPages s.buddy 1
  refPage ({ s with buddy := b }.setProc pid
    { p with table := fillPageTable p.table page (page + 1) ptr dataFlags }) ptr

/-- The cases of a translation fault, by the section that contains the address. -/
def faultIn (s : VmState) (pid addr : ℕ) (p : Proc) : Option Section → Except Fault VmState
  | none => exit s pid
  | some sec =>
    match sec.type with
    | .text => faultText s pid p sec
    | .stack => faultData s pid p addr
    | .heap => faultData s pid p addr
    | .device => exit s pid

/-- `exception_entry` for a translation fault. -/
def translationFault (s : VmState) (pid addr : ℕ) : Except Fault VmState := do
  let p ← s.proc pid
  faultIn s pid addr p (p.sections.find? (·.contains addr))

def copyPage (mem : ℕ → BitVec 8) (dst src : ℕ) : ℕ → BitVec 8 :=
  fun addr ↦ if dst ≤ addr ∧ addr < dst + pageSize then mem (src + (addr - dst)) else mem addr

/-- A write to a page that is counted more than once goes to a copy of the page. -/
def copyOnWrite (s : VmState) (pid : ℕ) (p : Proc) (addr faultPage : ℕ) : Except Fault VmState := do
  let (newPage, b) ← mallocPages s.buddy 1
  let s ← derefPage ({ s with buddy := b, mem := copyPage s.mem newPage faultPage }.setProc pid
    { p with table := replacePageEntry p.table addr newPage true }) faultPage
  refPage s newPage

/-- `exception_entry` for a permission fault. -/
def permissionFault (s : VmState) (pid addr : ℕ) : Except Fault VmState := do
  let p ← s.proc pid
  let faultAddr := v2pTrans p.table addr
  let faultPage := faultAddr - faultAddr % pageSize
  if s.buddy.numPages ≤ faultPage / pageSize then
    throw .outOfBounds
  else if s.wPermission (faultPage / pageSize) then
    if 1 < s.refCount (faultPage / pageSize) then
      copyOnWrite s pid p addr faultPage
    else
      return s.setProc pid { p with table := replacePageEntry p.table addr faultAddr true }
  else
    exit s pid

/-- A store by the user program; the descriptor decides where it goes. -/
def store (s : VmState) (pid addr : ℕ) (byte : BitVec 8) : Except Fault VmState := do
  let p ← s.proc pid
  return { s with mem := update s.mem (v2pTrans p.table addr) byte }

/-- What a process reads at an address; `none` where nothing is mapped. -/
def load (s : VmState) (pid addr : ℕ) : Option (BitVec 8) :=
  match s.procs pid with
  | none => none
  | some p =>
    if addr / pageSize < userPages ∧ lookup p.table (addr / pageSize) ≠ none then
      some (s.mem (v2pTrans p.table addr))
    else none

/-- One round of `kill_zombies`. -/
def reap (s : VmState) (pid : ℕ) : Except Fault VmState := do
  let p ← s.proc pid
  let s ← freeSections p.table p.sections s
  return { s with procs := update s.procs pid none }

/-! ## Operations -/

inductive VmOp
  | exec (pid : ℕ) (image : List (BitVec 8))
  | fork (pid child : ℕ)
  | mmap (pid addr len prot flags : ℕ)
  | translationFault (pid addr : ℕ)
  | permissionFault (pid addr : ℕ)
  | store (pid addr : ℕ) (byte : BitVec 8)
  | exit (pid : ℕ)
  | reap (pid : ℕ)
  /-- Other kernel code allocates a block. -/
  | kernelAlloc (size : ℕ)
  /-- Other kernel code frees a block of its own. -/
  | kernelFree (head : ℕ)

def kernelAlloc (s : VmState) (size : ℕ) : Except Fault VmState := do
  let (block, b) ← buddyMalloc s.buddy size
  return { s with buddy := b, kernel := block.toList ++ s.kernel }

def kernelFree (s : VmState) (head : ℕ) : Except Fault VmState := do
  let b ← buddyFree s.buddy (head * pageSize)
  return { s with buddy := b, kernel := s.kernel.filter (· ≠ head) }

def VmOp.run (s : VmState) (op : VmOp) : Except Fault VmState :=
  let s := s.clear
  match op with
  | .exec pid image => VMem.exec s pid image
  | .fork pid child => VMem.fork s pid child
  | .mmap pid addr len prot flags => VMem.mmap s pid addr len prot flags
  | .translationFault pid addr => VMem.translationFault s pid addr
  | .permissionFault pid addr => VMem.permissionFault s pid addr
  | .store pid addr byte => VMem.store s pid addr byte
  | .exit pid => VMem.exit s pid
  | .reap pid => VMem.reap s pid
  | .kernelAlloc size => VMem.kernelAlloc s size
  | .kernelFree head => VMem.kernelFree s head

/-- The program has fetched its first instruction, which maps the program. -/
def Proc.Fetched (p : Proc) : Prop := lookup p.table (usrCodeStart / pageSize) ≠ none
deriving Decidable

/-- When an operation can happen.  A process acts while it is alive; a user process does so from its
own code, so before the first fetch only that fetch can fault. -/
def VmOp.Enabled (s : VmState) : VmOp → Prop
  | .exec pid _ => ∃ p, s.procs pid = some p ∧ p.dead = false ∧ (p.el0 = true → p.Fetched)
  | .fork pid child => (∃ p, s.procs pid = some p ∧ p.dead = false ∧ (p.el0 = true → p.Fetched)) ∧
      child < maxProc ∧ s.procs child = none
  | .mmap pid _ _ _ _ => ∃ p, s.procs pid = some p ∧ p.dead = false ∧ p.el0 = true ∧ p.Fetched
  | .translationFault pid addr => ∃ p, s.procs pid = some p ∧ p.dead = false ∧ p.el0 = true ∧
      addr / pageSize < userPages ∧ lookup p.table (addr / pageSize) = none ∧
      (p.Fetched ∨ addr = usrCodeStart)
  | .permissionFault pid addr => ∃ p, s.procs pid = some p ∧ p.dead = false ∧ p.el0 = true ∧
      addr / pageSize < userPages ∧
      ∃ e, lookup p.table (addr / pageSize) = some e ∧ (e.rdonly = true ∨ e.noExec = true)
  | .store pid addr _ => ∃ p, s.procs pid = some p ∧ p.dead = false ∧ p.el0 = true ∧
      addr / pageSize < userPages ∧ ∃ e, lookup p.table (addr / pageSize) = some e ∧ e.rdonly = false
  | .exit pid => ∃ p, s.procs pid = some p ∧ p.dead = false
  | .reap pid => ∃ p, s.procs pid = some p ∧ p.dead = true
  | .kernelAlloc size => 0 < size
  | .kernelFree head => head ∈ s.kernel

instance decidableExistsSome {α : Type} (o : Option α) (Q : α → Prop) [DecidablePred Q] :
    Decidable (∃ a, o = some a ∧ Q a) :=
  match o with
  | none => isFalse nofun
  | some a => decidable_of_iff (Q a) ⟨fun h ↦ ⟨a, rfl, h⟩, fun ⟨_, ha, h⟩ ↦ Option.some.inj ha ▸ h⟩

instance decidableForallSome {α : Type} (o : Option α) (Q : α → Prop) [DecidablePred Q] :
    Decidable (∀ a, o = some a → Q a) :=
  match o with
  | none => isTrue nofun
  | some a => decidable_of_iff (Q a) ⟨fun h _ ha ↦ Option.some.inj ha ▸ h, fun h ↦ h a rfl⟩

instance (s : VmState) (op : VmOp) : Decidable (op.Enabled s) := by
  cases op <;> unfold VmOp.Enabled <;> infer_instance

end CapstoneKernel.VMem
