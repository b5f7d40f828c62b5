import CapstoneKernel.Mem.Buddy

/-!
# The dynamic allocator of `mem.c`

`malloc` and `free` on top of the page allocator.  Requests up to 2048 bytes are served from pages
that are cut into chunks of one size; each size class keeps its pages on a singly linked list
threaded through `dynamic_node_arr`.  Addresses are 64-bit words, node pointers are page numbers.

The chunk masks are the `int` expressions `1 << bitmap_element_idx` of the source: a 32-bit shift,
whose amount AArch64 takes modulo 32, sign-extended into the 64-bit bitmap word.  Two chunks whose
numbers differ by 32 therefore share a mask.
-/

namespace CapstoneKernel.Mem

def vKernelSpace : ℕ := 0xffff000000000000

def p2vTransKernel (addr : ℕ) : ℕ := (addr + vKernelSpace) % 2 ^ 64

def v2pTransKernel (addr : ℕ) : ℕ := (addr + (2 ^ 64 - vKernelSpace)) % 2 ^ 64

def minPoolSizeExp : ℕ := 4

def maxPoolSizeExp : ℕ := 11

/-- `BITMAP_ARR`. -/
def bitmapArr : ℕ := pageSize / 2 ^ minPoolSizeExp / 64

structure DynamicNode where
  addr : ℕ
  chunkSize : ℕ
  sum : ℤ
  bitmap : ℕ → BitVec 64
  curIdx : ℤ
  next : Option ℕ

/-- The page allocator with `mem_pool` and `dynamic_node_arr`. -/
structure Allocator where
  buddy : Buddy
  memPool : ℕ → Option ℕ
  nodes : ℕ → DynamicNode

/-- `1 << bitmap_element_idx`, as an operand of the 64-bit bitmap word. -/
def chunkMask (idx : ℕ) : BitVec 64 := (1#32 <<< (idx % 64 % 32)).signExtend 64

namespace Allocator

def disableInt (s : Allocator) : Allocator := { s with buddy := s.buddy.disableInt }

def enableInt (s : Allocator) : Allocator := { s with buddy := s.buddy.enableInt }

def print (s : Allocator) (msg : Msg) : Allocator := { s with buddy := s.buddy.print msg }

/-! ## Checked array accesses -/

def readNode (s : Allocator) (page : ℕ) : Except Fault DynamicNode :=
  if page < s.buddy.numPages then .ok (s.nodes page) else .error .outOfBounds

def writeNode (s : Allocator) (page : ℕ) (node : DynamicNode) : Except Fault Allocator :=
  if page < s.buddy.numPages then .ok { s with nodes := Function.update s.nodes page node }
  else .error .outOfBounds

def readPool (s : Allocator) (sizeExp : ℤ) : Except Fault (Option ℕ) :=
  if minPoolSizeExp ≤ sizeExp ∧ sizeExp ≤ maxPoolSizeExp then .ok (s.memPool (sizeExp.toNat - minPoolSizeExp))
  else .error .outOfBounds

def writePool (s : Allocator) (sizeExp : ℤ) (head : Option ℕ) : Except Fault Allocator :=
  if minPoolSizeExp ≤ sizeExp ∧ sizeExp ≤ maxPoolSizeExp then
    .ok { s with memPool := Function.update s.memPool (sizeExp.toNat - minPoolSizeExp) head }
  else .error .outOfBounds

/-- `prev->next = target`, or `mem_pool[...] = target` for the first page of a list. -/
def linkAfter (s : Allocator) (sizeExp : ℤ) (prev target : Option ℕ) : Except Fault Allocator :=
  match prev with
  | none => s.writePool sizeExp target
  | some last => do
      let node ← s.readNode last
      s.writeNode last { node with next := target }

end Allocator

namespace DynamicNode

def readBitmap (node : DynamicNode) (word : ℕ) : Except Fault (BitVec 64) :=
  if word < bitmapArr then .ok (node.bitmap word) else .error .outOfBounds

def writeBitmap (node : DynamicNode) (word : ℕ) (value : BitVec 64) : Except Fault DynamicNode :=
  if word < bitmapArr then .ok { node with bitmap := Function.update node.bitmap word value }
  else .error .outOfBounds

end DynamicNode

def dynamicAllocatorInit (buddy : Buddy) : Allocator where
  buddy := buddy
  memPool := fun _ ↦ none
  nodes := fun i ↦
    { addr := pageSize * i
      chunkSize := pageSize
      sum := 0
      bitmap := fun _ ↦ 0
      curIdx := -1
      next := none }

/-! ## Allocation -/

/-- The way `malloc` serves a request: `NULL`, a call of `buddy_malloc`, or a chunk. -/
inductive MallocPlan
  | null
  | pages (count : ℕ)
  | pool (sizeExp : ℕ)
  deriving DecidableEq

/-- The loop that rounds the size up to a power of two; the callers have `size < PAGE_SIZE`. -/
def sizeExpLoop (size : ℕ) : ℕ → ℕ → ℕ → Except Fault ℕ
  | 0, _, _ => .error .diverges
  | fuel + 1, i, sizeExp => if i < size then sizeExpLoop size fuel (i * 2) (sizeExp + 1) else .ok sizeExp

/-- The case distinctions of `malloc` on the size.  The argument of `buddy_malloc` is a
`uint32_t`. -/
def mallocPlan (size : ℕ) : Except Fault MallocPlan := do
  if size = 0 then
    return .null
  if pageSize ≤ size then
    return .pages (((size - 1) / pageSize + 1) % 2 ^ 32)
  let sizeExp ← sizeExpLoop size 13 1 0
  if maxPoolSizeExp < sizeExp then
    return .pages 1
  return .pool (max sizeExp minPoolSizeExp)

/-- The loop over the chunks of one page, from the chunk after `cur_idx` round to it.  After
`numChunks` rounds without an exit the loop would repeat itself. -/
def chunkScan (node : DynamicNode) (numChunks : ℕ) : ℕ → ℕ → Except Fault (Option ℕ)
  | 0, _ => .error .diverges
  | fuel + 1, i => do
      if (← node.readBitmap (i / 64)) &&& chunkMask i ≠ 0 then
        if (i : ℤ) = node.curIdx then return none
        chunkScan node numChunks fuel ((i + 1) % numChunks)
      else
        return some i

/-- What the walk over a pool list finds: a page with a free chunk, or the last page. -/
inductive PoolScan
  | found (page idx : ℕ)
  | full (last : Option ℕ)

/-- The walk over a pool list; a list without repetition has at most `num_pages` pages. -/
def poolScan (s : Allocator) (sizeExp : ℕ) : ℕ → Option ℕ → Option ℕ → Except Fault PoolScan
  | 0, _, _ => .error .diverges
  | _ + 1, prev, none => .ok (.full prev)
  | fuel + 1, _, some cur => do
      let node ← s.readNode cur
      let numChunks := pageSize / 2 ^ sizeExp
      match ← chunkScan node numChunks numChunks ((node.curIdx + 1) % numChunks).toNat with
      | some i => return .found cur i
      | none => poolScan s sizeExp fuel (some cur) node.next

/-- A free chunk of a page of the pool is handed out. -/
def takeChunk (s : Allocator) (page idx : ℕ) : Except Fault (ℕ × Allocator) := do
  let node ← s.readNode page
  let word ← node.readBitmap (idx / 64)
  let node ← node.writeBitmap (idx / 64) (word ||| chunkMask idx)
  let node := { node with sum := node.sum + (idx + 1), curIdx := idx }
  let s ← s.writeNode page node
  return (node.addr + idx * node.chunkSize, s)

/-- The page at the physical address `addr` becomes the last page of the pool and its first chunk is
handed out. -/
def addPage (s : Allocator) (sizeExp : ℕ) (prev : Option ℕ) (addr : ℕ) : Except Fault (ℕ × Allocator) := do
  let page := addr / pageSize
  let s ← s.linkAfter sizeExp prev (some page)
  let node ← s.readNode page
  let word ← node.readBitmap 0
  let node ← node.writeBitmap 0 (word ||| 1)
  let node :=
    { node with
      addr := p2vTransKernel addr
      chunkSize := 2 ^ sizeExp
      sum := node.sum + 1
      curIdx := 0 }
  let s ← s.writeNode page node
  return (node.addr, s)

def malloc (s : Allocator) (size : ℕ) : Except Fault (ℕ × Allocator) := do
  let s := s.disableInt
  match ← mallocPlan size with
  | .null => return (0, s.enableInt)
  | .pages count =>
    let (block, buddy) ← buddyMalloc s.buddy count
    let s := { s with buddy := buddy }
    return (p2vTransKernel (blockPtr block), s.enableInt)
  | .pool sizeExp =>
    match ← poolScan s sizeExp (s.buddy.numPages + 1) none (← s.readPool sizeExp) with
    | .found page idx =>
      let (ptr, s) ← takeChunk s page idx
      return (ptr, s.enableInt)
    | .full prev =>
      -- There's no free chunk in the memory pool, allocate a new pageframe.
      let (block, buddy) ← buddyMalloc s.buddy 1
      let (ptr, s) ← addPage { s with buddy := buddy } sizeExp prev (blockPtr block)
      return (ptr, s.enableInt)

/-! ## Release -/

/-- The loop of `free` that computes the exponent of a chunk size. -/
def chunkExpLoop : ℕ → ℕ → ℤ → Except Fault ℤ
  | 0, _, _ => .error .diverges
  | fuel + 1, size, sizeExp => if 0 < size then chunkExpLoop fuel (size / 2) (sizeExp + 1) else .ok sizeExp

/-- The walk to the predecessor of a page on its pool list. -/
def poolFind (s : Allocator) (page : ℕ) : ℕ → Option ℕ → Option ℕ → Except Fault (Option ℕ)
  | 0, _, _ => .error .diverges
  | _ + 1, _, none => .error .nullPointer
  | fuel + 1, prev, some cur => do
      if cur = page then return prev
      let node ← s.readNode cur
      poolFind s page fuel (some cur) node.next

/-- The page leaves its pool and goes back to the page allocator. -/
def releasePage (s : Allocator) (page : ℕ) : Except Fault Allocator := do
  let node ← s.readNode page
  let sizeExp ← chunkExpLoop 65 node.chunkSize (-1)
  let prev ← poolFind s page (s.buddy.numPages + 1) none (← s.readPool sizeExp)
  let s ← s.linkAfter sizeExp prev node.next
  let node := { node with chunkSize := pageSize, sum := 0, next := none, bitmap := fun _ ↦ 0 }
  let buddy ← buddyFree s.buddy (v2pTransKernel node.addr)
  let node := { node with addr := page * pageSize }
  { s with buddy := buddy }.writeNode page node

def free (s : Allocator) (vptr : ℕ) : Except Fault Allocator := do
  let s := s.disableInt
  let ptr := v2pTransKernel vptr
  let pageIdx := ptr / pageSize
  if s.buddy.endAddr ≤ ptr then
    return s.enableInt.print .invalidPointer
  let node ← s.readNode pageIdx
  if node.chunkSize = pageSize then
    let buddy ← buddyFree s.buddy ptr
    return { s with buddy := buddy }.enableInt
  let chunkIdx := (vptr + 2 ^ 64 - node.addr) % 2 ^ 64 / node.chunkSize
  let word ← node.readBitmap (chunkIdx / 64)
  if word &&& chunkMask chunkIdx = 0 then
    return s.enableInt.print .chunkNotInUse
  let node ← node.writeBitmap (chunkIdx / 64) (word &&& ~~~ chunkMask chunkIdx)
  let node := { node with sum := node.sum - (chunkIdx + 1) }
  let s ← s.writeNode pageIdx node
  if node.sum = 0 then
    let s ← releasePage s pageIdx
    return s.enableInt
  return s.enableInt

end CapstoneKernel.Mem
