import CapstoneKernel.Lib.Execution

/-!
# File descriptors

Every process has a table of pointers to open files and a bitmap of its used entries.  `open`,
`close`, `fork` and the functions that set up and remove processes change them, together with the
reference counts of the files.

Processes are named by their positions in the list of all processes that there have been, and files
by their positions in the list of all files.  Any process that is not dead can make the next call.
-/

namespace CapstoneKernel.Descriptors

open Execution List Option

inductive Fault
  | outOfBounds
  | nullPointer
  | useAfterFree
  | notRunning
  deriving DecidableEq, Repr

def maxNumFd : ℕ := 16

/-- An entry of `fd_table`; `garbage` is a pointer that was never set. -/
inductive Slot
  | null
  | file (f : ℕ)
  | garbage
  deriving DecidableEq, Repr

/-- The fields of `struct pcb_t` for files, and whether its state is `DEAD`. -/
structure Pcb where
  fdTable : List Slot
  fdBitmap : BitVec 16
  dead : Bool
  length_eq : fdTable.length = maxNumFd
  deriving DecidableEq

/-- The reference counts of all files, or none for files that have been freed, and the processes, or
none for those that have been reaped. -/
structure State where
  files : List (Option ℕ)
  procs : List (Option Pcb)
  deriving DecidableEq

namespace State

def setProc (s : State) (pid : ℕ) (p : Option Pcb) : State := { s with procs := s.procs.set pid p }

/-- The process, if it can make a call. -/
def running (s : State) (pid : ℕ) : Except Fault Pcb :=
  match s.procs[pid]? with
  | some (some p) => if p.dead then .error .notRunning else .ok p
  | _ => .error .notRunning

end State

/-! ## The functions of the source -/

def emptyTable : List Slot := List.replicate maxNumFd .null

/-- `vfs_open`, which sets the pointer of its caller only if it succeeds. -/
def vfsOpen (s : State) (opened : Bool) : Slot × State :=
  if opened then (.file s.files.length, { s with files := s.files ++ [some 1] }) else (.garbage, s)

/-- `~pcb->fd_bitmap`, after the promotion to `int`. -/
def freeBits (bitmap : BitVec 16) : BitVec 32 := ~~~(bitmap.setWidth 32)

/-- `__builtin_ctz`. -/
def ctz (x : BitVec 32) : ℕ := ((List.range 32).find? fun i ↦ x.getLsbD i).getD 32

/-- `bitmap |= (1ULL << idx)` -/
def setBit (bitmap : BitVec 16) (idx : ℕ) : BitVec 16 := (bitmap.setWidth 64 ||| (1#64 <<< idx)).setWidth 16

/-- `bitmap &= ~(1ULL << idx)` -/
def clearBit (bitmap : BitVec 16) (idx : ℕ) : BitVec 16 := (bitmap.setWidth 64 &&& ~~~(1#64 <<< idx)).setWidth 16

def Pcb.withSlot (p : Pcb) (idx : ℕ) (slot : Slot) (bitmap : BitVec 16) : Pcb :=
  ⟨p.fdTable.set idx slot, bitmap, p.dead, by rw [length_set, p.length_eq]⟩

/-- A store to `fd_table`, with the new bitmap. -/
def Pcb.setSlot (p : Pcb) (idx : ℕ) (slot : Slot) (bitmap : BitVec 16) : Except Fault Pcb :=
  if idx < maxNumFd then .ok (p.withSlot idx slot bitmap) else .error .outOfBounds

/-- `open` for a path that `vfs_open` can open or not: the descriptor, or none for `-1`. -/
def openFd (s : State) (pid : ℕ) (opened : Bool) : Except Fault (Option ℕ × State) := do
  let p ← s.running pid
  if freeBits p.fdBitmap = 0 then return (none, s)
  let (f, s) := vfsOpen s opened
  let idx := ctz (freeBits p.fdBitmap)
  let p ← p.setSlot idx f (setBit p.fdBitmap idx)
  return (some idx, s.setProc pid (some p))

/-- `tmpfs_close`. -/
def tmpfsClose (s : State) (f : ℕ) : Except Fault State :=
  match s.files[f]? with
  | some (some count) => .ok { s with files := s.files.set f (if count - 1 = 0 then none else some (count - 1)) }
  | _ => .error .useAfterFree

/-- `close` returns whether there was a file. -/
def closeFd (s : State) (pid fd : ℕ) : Except Fault (Bool × State) := do
  let p ← s.running pid
  match p.fdTable[fd]? with
  | none => throw .outOfBounds
  | some .null => return (false, s)
  | some slot =>
    let p ← p.setSlot fd .null (clearBit p.fdBitmap fd)
    let s := s.setProc pid (some p)
    match slot with
    | .file f =>
      let s ← tmpfsClose s f
      return (true, s)
    | _ => throw .useAfterFree

/-- `ref_count++` for the file of an entry. -/
def addRef (files : List (Option ℕ)) : Slot → Except Fault (List (Option ℕ))
  | .null => .ok files
  | .garbage => .error .useAfterFree
  | .file f =>
    match files[f]? with
    | some (some count) => .ok (files.set f (some (count + 1)))
    | _ => .error .useAfterFree

/-- A process without files. -/
def Pcb.empty : Pcb := ⟨emptyTable, 0, false, length_replicate⟩

def threadCreate (s : State) : State := { s with procs := s.procs ++ [some .empty] }

/-- `fork` returns the new process. -/
def fork (s : State) (pid : ℕ) : Except Fault (ℕ × State) := do
  let p ← s.running pid
  let files ← p.fdTable.foldlM addRef s.files
  return (s.procs.length, ⟨files, s.procs ++ [some { p with dead := false }]⟩)

/-- `init_uart_fd` sets three entries to one file. -/
def uartTable (f : Slot) : List Slot := f :: f :: f :: List.replicate 13 .null

def Pcb.uart (f : Slot) : Pcb := ⟨uartTable f, 0b111, false, rfl⟩

/-- `init_pcb`, for a device that can be opened or not. -/
def initPcb (s : State) (opened : Bool) : State :=
  if opened then { (vfsOpen s true).2 with procs := s.procs ++ [some (.uart (vfsOpen s true).1)] }
  else { s with procs := s.procs ++ [some .empty] }

/-- `exit` and `kill`. -/
def exit (s : State) (pid : ℕ) : Except Fault State := do
  let p ← s.running pid
  return s.setProc pid (some { p with dead := true })

/-- `kill_zombies` for one process. -/
def reap (s : State) (pid : ℕ) : Except Fault State :=
  match s.procs[pid]? with
  | some (some p) => if p.dead then .ok (s.setProc pid none) else .error .notRunning
  | _ => .error .notRunning

/-! ## Runs -/

inductive Act
  | initPcb (opened : Bool)
  | threadCreate
  | openFd (pid : ℕ) (opened : Bool)
  | closeFd (pid fd : ℕ)
  | fork (pid : ℕ)
  | exit (pid : ℕ)
  | reap (pid : ℕ)
  deriving DecidableEq

/-- What a call returns. -/
inductive Out
  | none
  | fd (idx : Option ℕ)
  | status (done : Bool)
  | pid (child : ℕ)
  deriving DecidableEq

def Act.run (s : State) : Act → Except Fault (Out × State)
  | .initPcb opened => .ok (.none, Descriptors.initPcb s opened)
  | .threadCreate => .ok (.none, Descriptors.threadCreate s)
  | .openFd pid opened => (Descriptors.openFd s pid opened).map fun r ↦ (.fd r.1, r.2)
  | .closeFd pid fd => (Descriptors.closeFd s pid fd).map fun r ↦ (.status r.1, r.2)
  | .fork pid => (Descriptors.fork s pid).map fun r ↦ (.pid r.1, r.2)
  | .exit pid => (Descriptors.exit s pid).map fun s ↦ (.none, s)
  | .reap pid => (Descriptors.reap s pid).map fun s ↦ (.none, s)

/-- Before the first process. -/
def start : State := ⟨[], []⟩

/-! ## Bits -/

section Bits

variable {bitmap : BitVec 16} {idx i : ℕ}

theorem getLsbD_one_shiftLeft (idx : ℕ) (hi : i < maxNumFd) :
    (1#64 <<< idx).getLsbD i = decide (i = idx) := by
  rw [BitVec.getLsbD_shiftLeft, BitVec.getLsbD_one]
  unfold maxNumFd at hi
  grind

theorem getLsbD_setBit (hi : i < maxNumFd) : (setBit bitmap idx).getLsbD i = (bitmap.getLsbD i || decide (i = idx)) := by
  have hone := getLsbD_one_shiftLeft idx hi
  unfold maxNumFd at hi
  rw [setBit, BitVec.getLsbD_setWidth, BitVec.getLsbD_or, BitVec.getLsbD_setWidth, hone,
    decide_eq_true hi,
    decide_eq_true (by omega : i < 64), Bool.true_and, Bool.true_and]

theorem getLsbD_clearBit (hi : i < maxNumFd) :
    (clearBit bitmap idx).getLsbD i = (bitmap.getLsbD i && !decide (i = idx)) := by
  have hone := getLsbD_one_shiftLeft idx hi
  unfold maxNumFd at hi
  rw [clearBit, BitVec.getLsbD_setWidth, BitVec.getLsbD_and, BitVec.getLsbD_setWidth,
    BitVec.getLsbD_not, hone,
    decide_eq_true hi, decide_eq_true (by omega : i < 64), Bool.true_and, Bool.true_and,
      Bool.true_and]

theorem getLsbD_freeBits (hi : i < maxNumFd) : (freeBits bitmap).getLsbD i = !bitmap.getLsbD i := by
  unfold maxNumFd at hi
  rw [freeBits, BitVec.getLsbD_not, BitVec.getLsbD_setWidth, decide_eq_true (by omega : i < 32),
    Bool.true_and,
    Bool.true_and]

/-- After the promotion there is always a free bit. -/
theorem freeBits_ne_zero (bitmap : BitVec 16) : freeBits bitmap ≠ 0 := by
  intro hzero
  have hbit := congrArg (BitVec.getLsbD · 16) hzero
  simp [freeBits] at hbit

/-- The lowest free bit, if one of the sixteen is free. -/
theorem ctz_freeBits (hfree : bitmap ≠ BitVec.allOnes 16) : ctz (freeBits bitmap) < maxNumFd ∧
    bitmap.getLsbD (ctz (freeBits bitmap)) = false ∧ ∀ i < ctz (freeBits bitmap), bitmap.getLsbD i = true := by
  obtain ⟨j, hj, hbit⟩ : ∃ j < maxNumFd, bitmap.getLsbD j = false := by
    by_contra hnone
    apply hfree
    refine BitVec.eq_of_getLsbD_eq fun j hj ↦ ?_
    rw [BitVec.getLsbD_allOnes, decide_eq_true hj]
    by_contra hne
    exact hnone ⟨j, hj, eq_false_of_ne_true hne⟩
  unfold ctz
  cases hfind : (List.range 32).find? fun i ↦ (freeBits bitmap).getLsbD i with
  | none =>
    have hlt : j < 32 := Nat.lt_trans hj (by decide)
    have hnot := find?_eq_none.1 hfind j (mem_range.2 hlt)
    rw [getLsbD_freeBits hj, hbit] at hnot
    exact absurd rfl hnot
  | some k =>
    rw [getD_some]
    obtain ⟨hk, hlow⟩ := find?_range_eq_some.1 hfind
    have hle : k ≤ j := by
      by_contra hlt
      have hused := hlow.2 j (Nat.lt_of_not_le hlt)
      rw [getLsbD_freeBits hj, hbit] at hused
      exact absurd hused (by decide)
    have hkj : k < maxNumFd := Nat.lt_of_le_of_lt hle hj
    refine ⟨hkj, ?_, fun i hi ↦ ?_⟩
    · rw [getLsbD_freeBits hkj] at hk
      simpa using hk
    · have hused := hlow.2 i hi
      rw [getLsbD_freeBits (Nat.lt_trans hi hkj)] at hused
      simpa using hused

end Bits

/-! ## Coherence -/

/-- A bit is set exactly if the entry points to a file that was opened. -/
def Coherent (p : Pcb) : Prop := ∀ i < maxNumFd, p.fdBitmap.getLsbD i = true ↔ ∃ f, p.fdTable[i]? = some (.file f)

/-- Every `open` finds a free entry and a file, and only open descriptors are closed. -/
def opensFiles (s : State) : Act → Bool
  | .openFd pid opened => opened && s.procs[pid]?.all fun p ↦ p.all fun p ↦ p.fdBitmap != BitVec.allOnes 16
  | .closeFd pid fd => s.procs[pid]?.all fun p ↦ p.all fun p ↦ decide (fd < maxNumFd) && p.fdBitmap.getLsbD fd
  | _ => true

def OpensFiles (s : State) (a : Act) : Prop := opensFiles s a = true
deriving Decidable

theorem coherent_empty : Coherent .empty := by
  intro i hi
  have hget : Pcb.empty.fdTable[i]? = some .null := getElem?_replicate_of_lt hi
  have hbit : Pcb.empty.fdBitmap.getLsbD i = false := BitVec.getLsbD_zero
  rw [hget, hbit]
  exact ⟨nofun, nofun⟩

theorem coherent_uart (f : ℕ) : Coherent (.uart (.file f)) := by
  have hbits : ∀ k < maxNumFd, (0b111 : BitVec 16).getLsbD k = decide (k < 3) := by decide
  intro i hi
  change (0b111 : BitVec 16).getLsbD i = true ↔ _
  rw [hbits i hi, decide_eq_true_eq]
  match i, hi with
  | 0, _ | 1, _ | 2, _ => exact iff_of_true (by decide) ⟨f, rfl⟩
  | n + 3, hi =>
    have hget : (Pcb.uart (.file f)).fdTable[n + 3]? = some .null :=
      getElem?_replicate_of_lt (Nat.lt_sub_of_add_lt hi)
    rw [hget]
    exact iff_of_false (by omega) nofun

section Slots

variable {p : Pcb} {idx f : ℕ}

theorem getElem?_withSlot (hidx : idx < maxNumFd) (slot : Slot) (bitmap : BitVec 16) (i : ℕ) :
    (p.withSlot idx slot bitmap).fdTable[i]? = if i = idx then some slot else p.fdTable[i]? := by
  rw [Pcb.withSlot, getElem?_set]
  split
  · next heq => rw [if_pos heq.symm, if_pos (by rw [p.length_eq]; exact hidx)]
  · next hne => rw [if_neg (Ne.symm hne)]

theorem Coherent.opened (h : Coherent p) (hidx : idx < maxNumFd) :
    Coherent (p.withSlot idx (.file f) (setBit p.fdBitmap idx)) := by
  intro i hi
  rw [getElem?_withSlot hidx]
  change (setBit p.fdBitmap idx).getLsbD i = true ↔ _
  rw [getLsbD_setBit hi, Bool.or_eq_true, decide_eq_true_eq]
  split
  · next heq => exact ⟨fun _ ↦ ⟨f, rfl⟩, fun _ ↦ .inr heq⟩
  · next hne =>
    rw [h i hi]
    exact or_iff_left hne

theorem Coherent.closed (h : Coherent p) (hidx : idx < maxNumFd) :
    Coherent (p.withSlot idx .null (clearBit p.fdBitmap idx)) := by
  intro i hi
  rw [getElem?_withSlot hidx]
  change (clearBit p.fdBitmap idx).getLsbD i = true ↔ _
  rw [getLsbD_clearBit hi, Bool.and_eq_true, Bool.not_eq_true', decide_eq_false_iff_not]
  split
  · next heq => exact ⟨fun hand ↦ absurd heq hand.2, nofun⟩
  · next hne =>
    rw [h i hi]
    exact and_iff_left hne

end Slots

/-! ## What the calls do -/

section Calls

variable {s s' : State} {pid fd : ℕ} {p : Pcb}

theorem running_eq_ok (h : s.running pid = .ok p) : s.procs[pid]? = some (some p) ∧ p.dead = false := by
  unfold State.running at h
  split at h
  · next p' hp =>
    split at h
    · cases h
    · next hdead =>
      cases h
      exact ⟨hp, eq_false_of_ne_true hdead⟩
  · cases h

/-- `open` with a free entry and a file takes the lowest free entry. -/
theorem openFd_eq (hp : s.running pid = .ok p) (hfree : p.fdBitmap ≠ BitVec.allOnes 16) :
    openFd s pid true = .ok (some (ctz (freeBits p.fdBitmap)), ⟨s.files ++ [some 1],
      s.procs.set pid (some (p.withSlot (ctz (freeBits p.fdBitmap)) (.file s.files.length)
        (setBit p.fdBitmap (ctz (freeBits p.fdBitmap)))))⟩) := by
  have hslot (slot : Slot) (bitmap : BitVec 16) :
    p.setSlot (ctz (freeBits p.fdBitmap)) slot bitmap =
      .ok (p.withSlot (ctz (freeBits p.fdBitmap)) slot bitmap) := if_pos (ctz_freeBits hfree).1
  rw [openFd, hp, ok_bind, if_neg (freeBits_ne_zero _)]
  simp only [hslot]
  rfl

theorem closeFd_eq_ok {b : Bool} (h : closeFd s pid fd = .ok (b, s')) : ∃ p, s.running pid = .ok p ∧ fd < maxNumFd ∧
    (s' = s ∨ ∃ f count, p.fdTable[fd]? = some (.file f) ∧ s.files[f]? = some (some count) ∧
      s' = ⟨s.files.set f (if count - 1 = 0 then none else some (count - 1)),
        s.procs.set pid (some (p.withSlot fd .null (clearBit p.fdBitmap fd)))⟩) := by
  obtain ⟨p, hp, h⟩ := of_bind_eq_ok h
  refine ⟨p, hp, ?_⟩
  have hlt {slot : Slot} (hslot : p.fdTable[fd]? = some slot) : fd < maxNumFd := by
    rw [← p.length_eq]
    exact (List.getElem?_eq_some_iff.1 hslot).1
  split at h
  · cases h
  · next hslot =>
    cases h
    exact ⟨hlt hslot, .inl rfl⟩
  · next slot hnull hslot =>
    rw [Pcb.setSlot, if_pos (hlt hslot), ok_bind] at h
    refine ⟨hlt hslot, .inr ?_⟩
    split at h
    · next f =>
      obtain ⟨s₁, hclose, h⟩ := of_bind_eq_ok h
      cases h
      unfold tmpfsClose at hclose
      split at hclose
      · next count hcount =>
        rw [← Except.ok.inj hclose]
        exact ⟨f, count, hslot, hcount, rfl⟩
      · cases hclose
    · cases h

theorem fork_eq_ok {child : ℕ} (h : fork s pid = .ok (child, s')) : ∃ p files, s.running pid = .ok p ∧
    p.fdTable.foldlM addRef s.files = .ok files ∧ s' = ⟨files, s.procs ++ [some p]⟩ := by
  obtain ⟨p, hp, h⟩ := of_bind_eq_ok h
  obtain ⟨files, hfiles, h⟩ := of_bind_eq_ok h
  cases h
  refine ⟨p, files, hp, hfiles, ?_⟩
  have hself : { p with dead := false } = p := by rw [← (running_eq_ok hp).2]
  rw [hself]

theorem exit_eq_ok (h : exit s pid = .ok s') : ∃ p, s.running pid = .ok p ∧
    s' = s.setProc pid (some { p with dead := true }) := by
  obtain ⟨p, hp, h⟩ := of_bind_eq_ok h
  exact ⟨p, hp, (Except.ok.inj h).symm⟩

theorem reap_eq_ok (h : reap s pid = .ok s') : ∃ p, s.procs[pid]? = some (some p) ∧ p.dead = true ∧
    s' = s.setProc pid none := by
  unfold reap at h
  split at h
  · next p hp =>
    split at h
    · next hdead => exact ⟨p, hp, hdead, (Except.ok.inj h).symm⟩
    · cases h
  · cases h

/-- Where a call that meets the condition leads. -/
inductive Effect (s : State) : Act → State → Prop
  | initPcb (opened : Bool) : Effect s (.initPcb opened) (initPcb s opened)
  | threadCreate : Effect s .threadCreate (threadCreate s)
  | opened {pid idx : ℕ} {p : Pcb} : s.running pid = .ok p → idx < maxNumFd → p.fdBitmap.getLsbD idx = false →
      Effect s (.openFd pid true) ⟨s.files ++ [some 1],
        s.procs.set pid (some (p.withSlot idx (.file s.files.length) (setBit p.fdBitmap idx)))⟩
  | unchanged {pid fd : ℕ} : Effect s (.closeFd pid fd) s
  | closed {pid fd f count : ℕ} {p : Pcb} : s.running pid = .ok p → fd < maxNumFd →
      p.fdTable[fd]? = some (.file f) → s.files[f]? = some (some count) →
      Effect s (.closeFd pid fd) ⟨s.files.set f (if count - 1 = 0 then none else some (count - 1)),
        s.procs.set pid (some (p.withSlot fd .null (clearBit p.fdBitmap fd)))⟩
  | forked {pid : ℕ} {p : Pcb} {files : List (Option ℕ)} : s.running pid = .ok p →
      p.fdTable.foldlM addRef s.files = .ok files → Effect s (.fork pid) ⟨files, s.procs ++ [some p]⟩
  | exited {pid : ℕ} {p : Pcb} : s.running pid = .ok p →
      Effect s (.exit pid) (s.setProc pid (some { p with dead := true }))
  | reaped {pid : ℕ} {p : Pcb} : s.procs[pid]? = some (some p) → p.dead = true →
      Effect s (.reap pid) (s.setProc pid none)

theorem OpensFiles.ne_allOnes {opened : Bool} (h : OpensFiles s (.openFd pid opened))
    (hp : s.procs[pid]? = some (some p)) : opened = true ∧ p.fdBitmap ≠ BitVec.allOnes 16 := by
  rw [OpensFiles, opensFiles, hp, all_some, all_some, Bool.and_eq_true, bne_iff_ne] at h
  exact h

theorem Act.effect {a : Act} {out : Out} (hallowed : OpensFiles s a) (h : a.run s = .ok (out, s')) : Effect s a s' := by
  cases a with
  | initPcb opened =>
    cases h
    exact .initPcb opened
  | threadCreate =>
    cases h
    exact .threadCreate
  | openFd pid opened =>
    obtain ⟨⟨idx, s₁⟩, hopen, h⟩ := map_eq_ok h
    cases h
    obtain ⟨p, hp, -⟩ := of_bind_eq_ok hopen
    obtain ⟨rfl, hfree⟩ := hallowed.ne_allOnes (running_eq_ok hp).1
    rw [openFd_eq hp hfree] at hopen
    cases hopen
    obtain ⟨hlt, hbit, -⟩ := ctz_freeBits hfree
    exact .opened hp hlt hbit
  | closeFd pid fd =>
    obtain ⟨⟨b, s₁⟩, hclose, h⟩ := map_eq_ok h
    cases h
    obtain ⟨p, hp, hlt, rfl | ⟨f, count, hslot, hcount, rfl⟩⟩ := closeFd_eq_ok hclose
    · exact .unchanged
    · exact .closed hp hlt hslot hcount
  | fork pid =>
    obtain ⟨⟨child, s₁⟩, hfork, h⟩ := map_eq_ok h
    cases h
    obtain ⟨p, files, hp, hfiles, rfl⟩ := fork_eq_ok hfork
    exact .forked hp hfiles
  | exit pid =>
    obtain ⟨s₁, hexit, h⟩ := map_eq_ok h
    cases h
    obtain ⟨p, hp, rfl⟩ := exit_eq_ok hexit
    exact .exited hp
  | reap pid =>
    obtain ⟨s₁, hreap, h⟩ := map_eq_ok h
    cases h
    obtain ⟨p, hp, hdead, rfl⟩ := reap_eq_ok hreap
    exact .reaped hp hdead

end Calls

/-! ## All tables -/

def AllCoherent (s : State) : Prop := ∀ p, some p ∈ s.procs → Coherent p

section All

variable {s s' : State} {pid : ℕ} {files : List (Option ℕ)}

theorem AllCoherent.of_running (h : AllCoherent s) {p : Pcb} (hp : s.running pid = .ok p) :
    Coherent p :=
  h p (mem_of_getElem? (running_eq_ok hp).1)

theorem AllCoherent.set (h : AllCoherent s) {q : Option Pcb} (hq : ∀ p, q = some p → Coherent p) :
    AllCoherent ⟨files, s.procs.set pid q⟩ := by
  intro p hp
  rcases mem_or_eq_of_mem_set hp with hold | hnew
  · exact h p hold
  · exact hq p hnew.symm

theorem AllCoherent.append (h : AllCoherent s) {q : Pcb} (hq : Coherent q) :
    AllCoherent ⟨files, s.procs ++ [some q]⟩ := by
  intro p hp
  rcases mem_append.1 hp with hold | hnew
  · exact h p hold
  · obtain rfl := some.inj (mem_singleton.1 hnew)
    exact hq

theorem Effect.allCoherent {a : Act} (heffect : Effect s a s') (h : AllCoherent s) : AllCoherent s' := by
  cases heffect with
  | initPcb opened =>
    cases opened with
    | true => exact h.append (coherent_uart s.files.length)
    | false => exact h.append coherent_empty
  | threadCreate => exact h.append coherent_empty
  | opened hp hlt _ => exact h.set fun p heq ↦ some.inj heq ▸ (h.of_running hp).opened hlt
  | unchanged => exact h
  | closed hp hlt _ _ => exact h.set fun p heq ↦ some.inj heq ▸ (h.of_running hp).closed hlt
  | forked hp _ => exact h.append (h.of_running hp)
  | exited hp =>
    have hp := h.of_running hp
    exact h.set fun p heq ↦ some.inj heq ▸ hp
  | reaped _ _ => exact h.set nofun

end All

/-- If `open` is only called with a free descriptor and for files that can be opened, the bitmap of
every process says which entries of its table are open files, and `open` returns the lowest free
descriptor. -/
theorem tables_coherent {s : State} (hrun : Reachable (· = start) (CallStep OpensFiles fun s a ↦ a.run s) s) :
    (∀ p, some p ∈ s.procs → ∀ i < maxNumFd,
      p.fdBitmap.getLsbD i = true ↔ ∃ f, p.fdTable[i]? = some (.file f)) ∧
    ∀ pid p, s.running pid = .ok p → OpensFiles s (.openFd pid true) →
      Returns ((Act.openFd pid true).run s) fun o ↦ ∃ idx < maxNumFd, o.1 = .fd (some idx) ∧
        p.fdBitmap.getLsbD idx = false ∧ ∀ i < idx, p.fdBitmap.getLsbD i = true := by
  have hcoherent : AllCoherent s := by
    refine hrun.calls ?_ fun s a out s' h hallowed hrun ↦ (a.effect hallowed hrun).allCoherent h
    rintro s rfl
    exact nofun
  refine ⟨hcoherent, fun pid p hp hallowed ↦ ?_⟩
  obtain ⟨-, hfree⟩ := hallowed.ne_allOnes (running_eq_ok hp).1
  obtain ⟨hlt, hbit, hlow⟩ := ctz_freeBits hfree
  rw [Act.run, openFd_eq hp hfree]
  exact .ok ⟨_, hlt, rfl, hbit, hlow⟩

/-- A process opens a file, forks and closes its first descriptor, which the next `open` returns. -/
theorem tables_coherent_reopen : ∃ s, Reachable (· = start) (CallStep OpensFiles fun s a ↦ a.run s) s ∧
    (∀ p, some p ∈ s.procs → ∀ i < maxNumFd,
      p.fdBitmap.getLsbD i = true ↔ ∃ f, p.fdTable[i]? = some (.file f)) ∧
    ∃ p, s.running 0 = .ok p ∧ p.fdBitmap = 0b1110 ∧
      Returns ((Act.openFd 0 true).run s) fun o ↦ ∃ idx < maxNumFd, o.1 = .fd (some idx) ∧
        p.fdBitmap.getLsbD idx = false ∧ ∀ i < idx, p.fdBitmap.getLsbD i = true := by
  obtain ⟨s, hreach, hfound, hallowed⟩ :=
    Reachable.exists_calls OpensFiles (fun s a ↦ Act.run s a) start
    [.initPcb true, .openFd 0 true, .fork 0, .closeFd 0 0]
    (fun s ↦ ((s.running 0).toOption.any fun p ↦ p.fdBitmap == 0b1110) = true ∧
      OpensFiles s (.openFd 0 true))
    (by decide +kernel)
  obtain ⟨hcoherent, hopen⟩ := tables_coherent hreach
  obtain ⟨p, hp, hbitmap⟩ := exists_of_any_toOption hfound
  exact ⟨s, hreach, hcoherent, p, hp, eq_of_beq hbitmap, hopen 0 p hp hallowed⟩

/-- A file that cannot be opened leaves a set bit and a pointer that was never set. -/
theorem open_missing_file : ∃ s, Reachable (· = start) (CallStep anyCall Act.run) s ∧
    ∃ p, some p ∈ s.procs ∧ ∃ i < maxNumFd,
      ¬ (p.fdBitmap.getLsbD i = true ↔ ∃ f, p.fdTable[i]? = some (.file f)) := by
  obtain ⟨s, hreach, p, hp, i, hi, hbit, hslot⟩ :=
    Reachable.exists_calls anyCall Act.run start
    [.threadCreate, .openFd 0 false]
    (fun s ↦ ∃ p ∈ s.procs.reduceOption, ∃ i < maxNumFd,
      p.fdBitmap.getLsbD i = true ∧ p.fdTable[i]? = some .garbage) (by decide +kernel)
  refine ⟨s, hreach, p, reduceOption_mem_iff.1 hp, i, hi, fun h ↦ ?_⟩
  obtain ⟨f, hf⟩ := h.1 hbit
  rw [hslot] at hf
  cases hf

end CapstoneKernel.Descriptors
