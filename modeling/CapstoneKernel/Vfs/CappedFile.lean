import CapstoneKernel.Vfs.Tmpfs

/-!
# A file of tmpfs as a string of bytes

The bytes of a file are those of its block up to its size.  Reads, writes and seeks of tmpfs do to
them what they do to a string of at most `MAX_FILE_SZ` bytes with one cursor a handle.  The string
starts empty, so that the contents the block had before are never read.
-/

namespace CapstoneKernel.Tmpfs

open Overlay Execution List

/-- A string of bytes and its cursors. -/
structure CappedFile where
  bytes : List UInt8
  cursors : List ℕ

namespace CappedFile

variable (r : CappedFile)

def cursor (i : ℕ) : ℕ := r.cursors.getD i 0

/-- The new cursor. -/
def seek (pos : ℕ) (offset whence : ℤ) : Option ℕ :=
  (whenceOf whence).bind (seekIn r.bytes.length pos offset)

/-- The calls on the string.  Writes are cut off at the cap. -/
def run : Act → Out × CappedFile
  | .openFile mem => if mem then (.status true, { r with cursors := r.cursors ++ [0] }) else (.status false, r)
  | .write i buf =>
    let data := buf.take (maxFileSz - r.cursor i)
    (.count data.length, ⟨overlay r.bytes (r.cursor i) data, r.cursors.set i (r.cursor i + data.length)⟩)
  | .read i len =>
    let data := (r.bytes.drop (r.cursor i)).take len
    (.data data, { r with cursors := r.cursors.set i (r.cursor i + data.length) })
  | .lseek64 i offset whence =>
    match r.seek (r.cursor i) offset whence with
    | none => (.status false, r)
    | some pos => (.status true, { r with cursors := r.cursors.set i pos })

end CappedFile

/-- A seek from the beginning or the current position, or another call. -/
def forward : Act → Bool
  | .lseek64 _ _ whence => whence = 0 ∨ whence = 1
  | _ => true

/-- Calls on open handles that stay in the file, without seeks from its end. -/
def PlainCall (s : State) (a : Act) : Prop := StaysInFile s a ∧ forward a = true
deriving Decidable

/-- The file holds the string. -/
structure Simulates (s : State) (r : CappedFile) : Prop where
  bounded : Bounded s
  bytes : r.bytes = s.vnode.internal.bytes.take s.vnode.fileSize
  cursors : r.cursors = s.handles

namespace Simulates

variable {s : State} {r : CappedFile}

section

variable (h : Simulates s r)
include h

theorem length_eq : r.bytes.length = s.vnode.fileSize := by
  rw [h.bytes, length_take, s.vnode.internal.length_eq, Nat.min_eq_left h.bounded.fileSize]

variable {i fPos : ℕ} {offset whence : ℤ}

theorem cursor_eq (hi : s.handles[i]? = some fPos) : r.cursor i = fPos := by
  rw [CappedFile.cursor, h.cursors, getD_eq_getElem?_getD, hi, Option.getD_some]

omit h in
/-- The call returns what it returns for the string, and the file holds the string afterwards. -/
def Agrees (s : State) (r : CappedFile) (a : Act) : Prop :=
  Returns (a.run s) fun o ↦ o.1 = (r.run a).1 ∧ Simulates o.2 (r.run a).2

theorem openFile (mem : Bool) : Agrees s r (.openFile mem) := by
  have hbounded := h.bounded.run (a := .openFile mem) rfl
  cases mem with
  | false => exact .ok ⟨rfl, h⟩
  | true =>
    refine .ok ⟨rfl, (hbounded.post_of_eq rfl).1, h.bytes, ?_⟩
    exact congrArg (· ++ [0]) h.cursors

theorem write {buf : List UInt8} (hallowed : StaysInFile s (.write i buf)) :
    Agrees s r (.write i buf) := by
  have hbounded := h.bounded.run (a := .write i buf) hallowed
  obtain ⟨fPos, hi, hlen⟩ := (Option.any_eq_true ..).1 hallowed
  have hpos := h.bounded.handles fPos (mem_of_getElem? hi)
  have hsize := h.bounded.fileSize
  obtain ⟨internal, hwrite, hbytes⟩ := tmpfsWrite_eq (v := s.vnode) (Nat.le_trans hpos hsize)
    (of_decide_eq_true hlen)
  have hlength : (buf.take (maxFileSz - fPos)).length = min buf.length (maxFileSz - fPos) := by
    rw [length_take, Nat.min_comm]
  have hrun : (Act.write i buf).run s = .ok (.count (min buf.length (maxFileSz - fPos)),
      ⟨⟨max s.vnode.fileSize (fPos + min buf.length (maxFileSz - fPos)), internal⟩,
        s.handles.set i (fPos + min buf.length (maxFileSz - fPos))⟩) := by
    rw [Act.run, State.handle_of_getElem? hi, ok_bind, hwrite]
    rfl
  refine .of_eq hrun ⟨?_, (hbounded.post_of_eq hrun).1, ?_, ?_⟩
  · rw [CappedFile.run, h.cursor_eq hi, hlength]
  · -- Writing at the cursor leaves no hole.
    rw [CappedFile.run, h.cursor_eq hi, h.bytes]
    dsimp only
    rw [hbytes, ← hlength, take_overlay (by rw [s.vnode.internal.length_eq]; omega)
      (Nat.le_max_right ..),
      overlay_take_max hpos]
  · rw [CappedFile.run, h.cursor_eq hi, h.cursors, hlength]

theorem read {len : ℕ} (hallowed : StaysInFile s (.read i len)) : Agrees s r (.read i len) := by
  have hbounded := h.bounded.run (a := .read i len) hallowed
  obtain ⟨hsome, -⟩ := Bool.and_eq_true_iff.1 hallowed
  obtain ⟨fPos, hi⟩ := Option.isSome_iff_exists.1 hsome
  have hpos := h.bounded.handles fPos (mem_of_getElem? hi)
  have hlength : ((r.bytes.drop fPos).take len).length = min len (s.vnode.fileSize - fPos) := by
    rw [length_take, length_drop, h.length_eq]
  have hrun : (Act.read i len).run s = .ok (.data ((r.bytes.drop fPos).take len),
      { s with handles := s.handles.set i (fPos + ((r.bytes.drop fPos).take len).length) }) := by
    rw [Act.run, State.handle_of_getElem? hi, ok_bind, tmpfsRead_eq h.bounded.fileSize hpos,
      hlength, h.bytes]
    rfl
  refine .of_eq hrun ⟨?_, (hbounded.post_of_eq hrun).1, h.bytes, ?_⟩
  · rw [CappedFile.run, h.cursor_eq hi]
  · rw [CappedFile.run, h.cursor_eq hi, h.cursors]

theorem seek_eq (hpos : fPos ≤ s.vnode.fileSize) (hoffset : -2 ^ 63 ≤ offset ∧ offset < 2 ^ 63)
    (hwhence : whence = 0 ∨ whence = 1) :
    tmpfsLseek64 s.vnode fPos offset whence = r.seek fPos offset whence := by
  have hsize := Nat.lt_of_le_of_lt h.bounded.fileSize (by decide : maxFileSz < 2 ^ 63)
  rw [tmpfsLseek64, CappedFile.seek, h.length_eq]
  rcases hwhence with rfl | rfl
  · exact lseek_eq (by decide : Whence.seekSet ≠ .seekEnd) hsize hpos hoffset
  · exact lseek_eq (by decide : Whence.seekCur ≠ .seekEnd) hsize hpos hoffset

theorem lseek64 (hallowed : PlainCall s (.lseek64 i offset whence)) :
    Agrees s r (.lseek64 i offset whence) := by
  obtain ⟨hstays, hwhence⟩ := hallowed
  rw [StaysInFile, staysInFile, Bool.and_eq_true, Bool.and_eq_true, decide_eq_true_eq] at hstays
  obtain ⟨⟨hsome, hoffset⟩, -⟩ := hstays
  replace hwhence := of_decide_eq_true hwhence
  obtain ⟨fPos, hi⟩ := Option.isSome_iff_exists.1 hsome
  have hpos := h.bounded.handles fPos (mem_of_getElem? hi)
  have hseek := h.seek_eq hpos hoffset hwhence
  rw [Agrees, Act.run, State.handle_of_getElem? hi, ok_bind, CappedFile.run, h.cursor_eq hi, hseek]
  cases htarget : r.seek fPos offset whence with
  | none => exact .ok ⟨rfl, h⟩
  | some pos =>
    have hle := tmpfsLseek64_le h.bounded.fileSize (fun htwo ↦ by omega) (hseek.trans htarget)
    refine .ok ⟨rfl, h.bounded.set (Nat.le_refl _) hle h.bounded.fileSize, h.bytes, ?_⟩
    dsimp only
    rw [h.cursors]

theorem call {a : Act} (hallowed : PlainCall s a) : Agrees s r a := by
  cases a with
  | openFile mem => exact h.openFile mem
  | write i buf => exact h.write hallowed.1
  | read i len => exact h.read hallowed.1
  | lseek64 i offset whence => exact h.lseek64 hallowed

end

end Simulates

/-- Whatever the block of a new file contains: calls return what they return for the string, the
string has at most `MAX_FILE_SZ` bytes, and positions and size are its cursors and its length. -/
theorem file_refines_capped {internal : Buffer} {s : State} {r : CappedFile}
    (hrun : Reachable (· = (newFile internal, ⟨[], []⟩))
      (LockStep PlainCall (fun s a ↦ a.run s) CappedFile.run) (s, r)) :
    r.bytes.length ≤ maxFileSz ∧ s.vnode.fileSize = r.bytes.length ∧ s.handles = r.cursors ∧
      ∀ a, PlainCall s a → Returns (a.run s) fun o ↦ o.1 = (r.run a).1 := by
  have hstart : Simulates (newFile internal) ⟨[], []⟩ := ⟨⟨nofun, Nat.zero_le _⟩, rfl, rfl⟩
  have hsim : Simulates s r := hrun.lockStep (fun s r a h hallowed ↦ h.call hallowed) hstart
  refine ⟨hsim.length_eq ▸ hsim.bounded.fileSize, hsim.length_eq.symm, hsim.cursors.symm,
    fun a hallowed ↦ ?_⟩
  exact (hsim.call hallowed).mono fun o ho ↦ ho.1

/-- Two handles: one writes, the other one reads what was written. -/
theorem file_refines_capped_shared : ∃ s r, (Reachable (· = (newFile zeros, ⟨[], []⟩))
      (LockStep PlainCall (fun s a ↦ a.run s) CappedFile.run) (s, r) ∧
      PlainCall s (.read 1 9) ∧ (r.run (.read 1 9)).1 = .data [7, 8, 9]) ∧
    Returns ((Act.read 1 9).run s) fun o ↦ o.1 = (r.run (.read 1 9)).1 := by
  obtain ⟨⟨s, r⟩, hreach, hs⟩ := Reachable.exists_lockStep PlainCall
    (fun s a ↦ Act.run s a) CappedFile.run
    (newFile zeros, ⟨[], []⟩) [.openFile true, .openFile true, .write 0 [7, 8, 9], .lseek64 1 3 0,
      .lseek64 1 (-3) 1]
    (fun x ↦ PlainCall x.1 (.read 1 9) ∧ (x.2.run (.read 1 9)).1 = .data [7, 8, 9])
      (by decide +kernel)
  obtain ⟨-, -, -, hcalls⟩ := file_refines_capped hreach
  exact ⟨s, r, ⟨hreach, hs⟩, hcalls _ hs.1⟩

end CapstoneKernel.Tmpfs
