import CapstoneKernel.Lib.Execution
import CapstoneKernel.Lib.Overlay

/-!
# Files of tmpfs

A file of tmpfs is a block of fixed size that `malloc` has returned, and so has arbitrary contents,
and the number of bytes written to it.  Positions and sizes have type `size_t`, and sums and
differences of them wrap around.
-/

namespace CapstoneKernel.Tmpfs

open Overlay Execution List Option

inductive Fault
  | outOfBounds
  | nullPointer
  deriving DecidableEq, Repr

def maxFileSz : ℕ := 4096

/-- `internal`. -/
structure Buffer where
  bytes : List UInt8
  length_eq : bytes.length = maxFileSz
  deriving DecidableEq

namespace Buffer

/-- `memcpy` to the buffer. -/
def store (b : Buffer) (off : ℕ) (data : List UInt8) : Except Fault Buffer :=
  if h : off + data.length ≤ maxFileSz then
    .ok ⟨overlay b.bytes off data, by rw [length_overlay (by rw [b.length_eq]; exact h), b.length_eq]⟩
  else if data = [] then .ok b
  else .error .outOfBounds

/-- `memcpy` from the buffer. -/
def load (b : Buffer) (off n : ℕ) : Except Fault (List UInt8) :=
  if off + n ≤ maxFileSz then .ok ((b.bytes.drop off).take n)
  else if n = 0 then .ok []
  else .error .outOfBounds

end Buffer

structure Vnode where
  fileSize : ℕ
  internal : Buffer
  deriving DecidableEq

/-! ## The functions of the source -/

/-- `struct file`. -/
structure File where
  vnode : ℕ
  fPos : ℕ
  deriving DecidableEq, Repr

/-- `tmpfs_open` of the vnode. -/
def tmpfsOpen (vnode : ℕ) : File := ⟨vnode, 0⟩

/-- The difference of type `size_t`. -/
def subSize (a b : ℕ) : ℕ := (a + 2 ^ 64 - b) % 2 ^ 64

/-- `write_sz`. -/
def writeSize (fPos len : ℕ) : ℕ := if maxFileSz < (fPos + len) % 2 ^ 64 then subSize maxFileSz fPos else len

/-- `tmpfs_write`: the number of bytes, the position and the vnode.  The buffer of the caller ends
with `buf`. -/
def tmpfsWrite (v : Vnode) (fPos : ℕ) (buf : List UInt8) : Except Fault (ℕ × ℕ × Vnode) :=
  let sz := writeSize fPos buf.length
  let fPos' := (fPos + sz) % 2 ^ 64
  if buf.length < sz then .error .outOfBounds
  else do
    let internal ← v.internal.store fPos (buf.take sz)
    return (sz, fPos', ⟨if v.fileSize < fPos' then fPos' else v.fileSize, internal⟩)

/-- `tmpfs_read`: the bytes and the position. -/
def tmpfsRead (v : Vnode) (fPos len : ℕ) : Except Fault (List UInt8 × ℕ) := do
  let sz := min len (subSize v.fileSize fPos)
  let data ← v.internal.load fPos sz
  return (data, (fPos + sz) % 2 ^ 64)

inductive Whence
  | seekSet
  | seekCur
  | seekEnd
  deriving DecidableEq, Repr

/-- The new position for the cases of `tmpfs_lseek64`, or none if it returns `-1`.  Sums with the
position or the size are of type `size_t`, and so never negative. -/
def lseek (fileSize fPos : ℕ) (offset : ℤ) : Whence → Option ℕ
  | .seekSet => if offset < 0 ∨ (fileSize : ℤ) < offset then none else some offset.toNat
  | .seekCur =>
    let target := ((fPos + offset) % 2 ^ 64).toNat
    if fileSize < target then none else some target
  | .seekEnd => if 0 < offset then none else some ((fileSize + offset) % 2 ^ 64).toNat

/-- The three values of `whence` for which there is a case. -/
def whenceOf (whence : ℤ) : Option Whence :=
  if whence = 0 then some .seekSet
  else if whence = 1 then some .seekCur
  else if whence = 2 then some .seekEnd
  else none

/-- `tmpfs_lseek64`: the new position, or none if it returns `-1`. -/
def tmpfsLseek64 (v : Vnode) (fPos : ℕ) (offset whence : ℤ) : Option ℕ :=
  (whenceOf whence).bind fun w ↦ lseek v.fileSize fPos offset w

/-! ## Runs -/

/-- A vnode and the positions of the handles that are open on it. -/
structure State where
  vnode : Vnode
  handles : List ℕ
  deriving DecidableEq

/-- A call on the file.  Handles are named by their positions, and `tmpfs_open` can run out of
memory. -/
inductive Act
  | openFile (mem : Bool)
  | write (handle : ℕ) (buf : List UInt8)
  | read (handle len : ℕ)
  | lseek64 (handle : ℕ) (offset whence : ℤ)
  deriving DecidableEq

/-- What a call returns. -/
inductive Out
  | count (n : ℕ)
  | data (bytes : List UInt8)
  | status (done : Bool)
  deriving DecidableEq

def State.handle (s : State) (i : ℕ) : Except Fault ℕ :=
  match s.handles[i]? with
  | none => .error .nullPointer
  | some fPos => .ok fPos

def Act.run (s : State) : Act → Except Fault (Out × State)
  | openFile mem => .ok (if mem then (.status true, { s with handles := s.handles ++ [0] }) else (.status false, s))
  | write i buf => do
      let fPos ← s.handle i
      let (n, fPos, vnode) ← tmpfsWrite s.vnode fPos buf
      return (.count n, ⟨vnode, s.handles.set i fPos⟩)
  | read i len => do
      let fPos ← s.handle i
      let (data, fPos) ← tmpfsRead s.vnode fPos len
      return (.data data, { s with handles := s.handles.set i fPos })
  | lseek64 i offset whence => do
      let fPos ← s.handle i
      match tmpfsLseek64 s.vnode fPos offset whence with
      | none => return (.status false, s)
      | some fPos => return (.status true, { s with handles := s.handles.set i fPos })

/-- The file that `tmpfs_create` makes, with whatever its block contains. -/
def newFile (internal : Buffer) : State := ⟨⟨0, internal⟩, []⟩

/-! ## The calls inside of the buffer -/

section Calls

variable {v : Vnode} {fPos len : ℕ} {buf : List UInt8}

theorem subSize_of_le {a b : ℕ} (hle : b ≤ a) (hlt : a < 2 ^ 64) : subSize a b = a - b := by
  unfold subSize
  omega

/-- Without a wrap of the sum the capacity test is right. -/
theorem writeSize_eq (hpos : fPos ≤ maxFileSz) (hlen : fPos + len < 2 ^ 64) :
    writeSize fPos len = min len (maxFileSz - fPos) := by
  unfold writeSize
  rw [Nat.mod_eq_of_lt hlen]
  split
  · rw [subSize_of_le hpos (by decide)]
    omega
  · omega

theorem Buffer.store_eq (b : Buffer) {off : ℕ} {data : List UInt8} (h : off + data.length ≤ maxFileSz) :
    ∃ b', b.store off data = .ok b' ∧ b'.bytes = overlay b.bytes off data := by
  unfold Buffer.store
  rw [dif_pos h]
  exact ⟨_, rfl, rfl⟩

/-- A write stays in the buffer, and the position in the file. -/
theorem tmpfsWrite_eq (hpos : fPos ≤ maxFileSz) (hlen : fPos + buf.length < 2 ^ 64) :
    ∃ internal, tmpfsWrite v fPos buf = .ok (min buf.length (maxFileSz - fPos),
        fPos + min buf.length (maxFileSz - fPos),
        ⟨max v.fileSize (fPos + min buf.length (maxFileSz - fPos)), internal⟩) ∧
      internal.bytes = overlay v.internal.bytes fPos (buf.take (maxFileSz - fPos)) := by
  have hsz : min buf.length (maxFileSz - fPos) ≤ buf.length := Nat.min_le_left ..
  have htake : buf.take (min buf.length (maxFileSz - fPos)) = buf.take (maxFileSz - fPos) := by
    rw [take_eq_take_iff]
    omega
  have hfits : fPos + (buf.take (maxFileSz - fPos)).length ≤ maxFileSz := by
    rw [length_take]
    omega
  obtain ⟨internal, hstore, hbytes⟩ := v.internal.store_eq hfits
  refine ⟨internal, ?_, hbytes⟩
  have hmax (n : ℕ) : (if v.fileSize < n then n else v.fileSize) = max v.fileSize n := by split <;>
    omega
  have hmod : (fPos + min buf.length (maxFileSz - fPos)) % 2 ^ 64 = fPos + min buf.length
    (maxFileSz - fPos) :=
    Nat.mod_eq_of_lt (by omega)
  unfold tmpfsWrite
  dsimp only
  rw [writeSize_eq hpos hlen, if_neg (by omega), htake, hstore, ok_bind, hmod, hmax]
  rfl

theorem tmpfsRead_eq (hsize : v.fileSize ≤ maxFileSz) (hpos : fPos ≤ v.fileSize) :
    tmpfsRead v fPos len = .ok (((v.internal.bytes.take v.fileSize).drop fPos).take len,
      fPos + min len (v.fileSize - fPos)) := by
  have hlt : maxFileSz < 2 ^ 64 := by decide
  have hdata : (v.internal.bytes.drop fPos).take (min len (v.fileSize - fPos)) =
      ((v.internal.bytes.take v.fileSize).drop fPos).take len := by
    rw [drop_take, take_take]
  have hmod : (fPos + min len (v.fileSize - fPos)) % 2 ^ 64 = fPos + min len (v.fileSize - fPos) :=
    Nat.mod_eq_of_lt (by omega)
  unfold tmpfsRead Buffer.load
  dsimp only
  rw [subSize_of_le hpos (by omega), if_pos (by omega), ok_bind, hdata, hmod]
  rfl

variable {offset : ℤ} {whence : Whence}

/-- A seek that succeeds stays in the file, unless it goes back behind the beginning from the
end. -/
theorem tmpfsLseek64_le {whence : ℤ} {fPos' : ℕ} (hsize : v.fileSize ≤ maxFileSz)
    (hend : whence = 2 → 0 < offset ∨ -offset ≤ v.fileSize)
    (h : tmpfsLseek64 v fPos offset whence = some fPos') :
    fPos' ≤ v.fileSize := by
  obtain ⟨w, hw, h⟩ := bind_eq_some_iff.1 h
  unfold lseek at h
  cases w with
  | seekSet =>
    dsimp only at h
    split at h
    · cases h
    · rw [← some.inj h]
      omega
  | seekCur =>
    dsimp only at h
    split at h
    · cases h
    · next hle =>
      rw [← some.inj h]
      exact Nat.le_of_not_lt hle
  | seekEnd =>
    have hwhence : whence = 2 := by
      unfold whenceOf at hw
      grind
    have hlt : maxFileSz < 2 ^ 64 := by decide
    dsimp only at h
    split at h
    · cases h
    · rw [← some.inj h]
      have hback := hend hwhence
      omega

/-- A seek in a string of bytes: the new position, if it is in the string. -/
def seekIn (length pos : ℕ) (offset : ℤ) (whence : Whence) : Option ℕ :=
  let target : ℤ := match whence with
    | .seekSet => offset
    | .seekCur => pos + offset
    | .seekEnd => length + offset
  if 0 ≤ target ∧ target ≤ length then some target.toNat else none

theorem seekIn_le {length pos pos' : ℕ} (h : seekIn length pos offset whence = some pos') :
    pos' ≤ length := by
  unfold seekIn at h
  extract_lets target at h
  split at h
  · next hin =>
    rw [← some.inj h]
    omega
  · cases h

/-- The unsigned tests accept exactly the targets in the file. -/
theorem lseek_eq {fileSize : ℕ} (hwhence : whence ≠ .seekEnd) (hsize : fileSize < 2 ^ 63)
    (hpos : fPos ≤ fileSize) (hoffset : -2 ^ 63 ≤ offset ∧ offset < 2 ^ 63) :
    lseek fileSize fPos offset whence = seekIn fileSize fPos offset whence := by
  unfold lseek seekIn
  cases whence with
  | seekSet =>
    dsimp only
    split <;> split <;> first | rfl | omega
  | seekCur =>
    dsimp only
    split <;> split <;> first | rfl | omega | (congr 1; omega)
  | seekEnd => exact absurd rfl hwhence

end Calls

/-! ## Positions and sizes -/

/-- All positions are in the file, and the file is in its block. -/
structure Bounded (s : State) : Prop where
  handles : ∀ fPos ∈ s.handles, fPos ≤ s.vnode.fileSize
  fileSize : s.vnode.fileSize ≤ maxFileSz

/-- Calls with arguments of the types of the source whose sum with the position does not wrap, and
that do not go back behind the beginning of the file from its end. -/
def staysInFile (s : State) : Act → Bool
  | .openFile _ => true
  | .write i buf => s.handles[i]?.any fun fPos ↦ decide (fPos + buf.length < 2 ^ 64)
  | .read i len => s.handles[i]?.isSome && decide (len < 2 ^ 64)
  | .lseek64 i offset whence => s.handles[i]?.isSome && decide (-2 ^ 63 ≤ offset ∧ offset < 2 ^ 63) &&
      (whence != 2 || decide (0 < offset ∨ -offset ≤ s.vnode.fileSize))

def StaysInFile (s : State) (a : Act) : Prop := staysInFile s a = true
deriving Decidable

theorem State.handle_of_getElem? {s : State} {i fPos : ℕ} (h : s.handles[i]? = some fPos) : s.handle i = .ok fPos := by
  unfold State.handle
  rw [h]

namespace Bounded

variable {s : State}

/-- One handle moves, and the file may grow. -/
theorem set (h : Bounded s) {i fPos : ℕ} {vnode : Vnode} (hgrow : s.vnode.fileSize ≤ vnode.fileSize)
    (hpos : fPos ≤ vnode.fileSize) (hsize : vnode.fileSize ≤ maxFileSz) : Bounded ⟨vnode, s.handles.set i fPos⟩ := by
  refine ⟨fun fPos' hmem ↦ ?_, hsize⟩
  rcases mem_or_eq_of_mem_set hmem with hold | rfl
  · exact Nat.le_trans (h.handles fPos' hold) hgrow
  · exact hpos

/-- Every such call returns in a state with all positions in the file, and a call that fails changes
nothing. -/
theorem run (h : Bounded s) {a : Act} (hallowed : StaysInFile s a) :
    Returns (a.run s) fun o ↦ Bounded o.2 ∧ (o.1 = .status false → o.2 = s) := by
  cases a with
  | openFile mem =>
    cases mem with
    | false => exact .ok ⟨h, fun _ ↦ rfl⟩
    | true =>
      refine .ok ⟨⟨fun fPos hmem ↦ ?_, h.fileSize⟩, nofun⟩
      rcases mem_append.1 hmem with hold | hnew
      · exact h.handles fPos hold
      · rw [mem_singleton.1 hnew]
        exact Nat.zero_le _
  | write i buf =>
    obtain ⟨fPos, hi, hlen⟩ := (Option.any_eq_true ..).1 hallowed
    have hpos := h.handles fPos (mem_of_getElem? hi)
    have hsize := h.fileSize
    obtain ⟨internal, hwrite, -⟩ := tmpfsWrite_eq (v := s.vnode) (Nat.le_trans hpos hsize)
      (of_decide_eq_true hlen)
    rw [Act.run, State.handle_of_getElem? hi, ok_bind, hwrite, ok_bind]
    exact .ok ⟨h.set (Nat.le_max_left ..) (Nat.le_max_right ..) (by dsimp only; omega), nofun⟩
  | read i len =>
    obtain ⟨hsome, -⟩ := Bool.and_eq_true_iff.1 hallowed
    obtain ⟨fPos, hi⟩ := isSome_iff_exists.1 hsome
    have hpos := h.handles fPos (mem_of_getElem? hi)
    rw [Act.run, State.handle_of_getElem? hi, ok_bind, tmpfsRead_eq h.fileSize hpos, ok_bind]
    exact .ok ⟨h.set (Nat.le_refl _) (by omega) h.fileSize, nofun⟩
  | lseek64 i offset whence =>
    rw [StaysInFile, staysInFile, Bool.and_eq_true, Bool.and_eq_true, Bool.or_eq_true, bne_iff_ne,
      decide_eq_true_eq, decide_eq_true_eq] at hallowed
    obtain ⟨⟨hsome, -⟩, hend⟩ := hallowed
    obtain ⟨fPos, hi⟩ := isSome_iff_exists.1 hsome
    rw [Act.run, State.handle_of_getElem? hi, ok_bind]
    cases hseek : tmpfsLseek64 s.vnode fPos offset whence with
    | none => exact .ok ⟨h, fun _ ↦ rfl⟩
    | some fPos' =>
      have hle := tmpfsLseek64_le h.fileSize
        (fun hwhence ↦ hend.resolve_left (absurd hwhence)) hseek
      exact .ok ⟨h.set (Nat.le_refl _) hle h.fileSize, nofun⟩

end Bounded

/-- As long as no seek from the end goes back behind the beginning and no write wraps around, all
positions stay in the file and the file in its block, every call returns, and one that fails changes
nothing. -/
theorem positions_stay_in_file {internal : Buffer} {s : State}
    (hrun : Reachable (· = newFile internal) (CallStep StaysInFile fun s a ↦ a.run s) s) :
    (∀ fPos ∈ s.handles, fPos ≤ s.vnode.fileSize) ∧ s.vnode.fileSize ≤ maxFileSz ∧
      ∀ a, StaysInFile s a → Returns (a.run s) fun o ↦ o.1 = .status false → o.2 = s := by
  have hbounded : Bounded s := by
    refine hrun.calls ?_ fun s a out s' h hallowed hrun ↦ ((h.run hallowed).post_of_eq hrun).1
    rintro s rfl
    exact ⟨nofun, Nat.zero_le _⟩
  exact ⟨hbounded.handles, hbounded.fileSize, fun a hallowed ↦
    (hbounded.run hallowed).mono fun o ho ↦ ho.2⟩

/-- A block of zeros. -/
def zeros : Buffer := ⟨List.replicate maxFileSz 0, length_replicate⟩

/-- Seeking in a file of three bytes. -/
theorem positions_stay_in_file_seek : ∃ s, (Reachable (· = newFile zeros) (CallStep StaysInFile fun s a ↦ a.run s) s ∧
      s.handles = [1] ∧ s.vnode.fileSize = 3) ∧
    (∀ fPos ∈ s.handles, fPos ≤ s.vnode.fileSize) ∧ s.vnode.fileSize ≤ maxFileSz := by
  obtain ⟨s, hreach, hs⟩ := Reachable.exists_calls StaysInFile (fun s a ↦ Act.run s a)
    (newFile zeros)
    [.openFile true, .write 0 [7, 8, 9], .lseek64 0 (-2) 2, .lseek64 0 4 0]
    (fun s ↦ s.handles = [1] ∧ s.vnode.fileSize = 3) (by decide +kernel)
  obtain ⟨hhandles, hsize, -⟩ := positions_stay_in_file hreach
  exact ⟨s, ⟨hreach, hs⟩, hhandles, hsize⟩

/-- A seek by `-1` from the end of an empty file goes to the largest position there is. -/
theorem seek_behind_beginning : ∃ s, Reachable (· = newFile zeros) (CallStep anyCall Act.run) s ∧
    ∃ fPos ∈ s.handles, s.vnode.fileSize < fPos := by
  obtain ⟨s, hreach, hs⟩ := Reachable.exists_calls anyCall Act.run (newFile zeros)
    [.openFile true, .lseek64 0 (-1) 2] (fun s ↦ ∃ fPos ∈ s.handles, s.vnode.fileSize < fPos)
      (by decide +kernel)
  exact ⟨s, hreach, hs⟩

end CapstoneKernel.Tmpfs
