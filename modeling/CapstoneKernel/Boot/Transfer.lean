import CapstoneKernel.Lib.ByteFields

/-!
# The transfer of the kernel

The bytes that `send_kernel.py` writes to the serial line and the loop of the bootloader's `main`
that receives them.  The memory behind `_skernel` is taken to be RAM.
-/

namespace CapstoneKernel.Boot

open ByteFields List

/-- `MAGIC`, and the first word that `send_kernel.py` packs. -/
def bootMagic : ℕ := 0x544f4f42

/-! ## Sending -/

/-- An `I` of `struct.pack` with the format `<III`. -/
def packWord (n : ℕ) : List UInt8 := (bytesOf 4 n).reverse

def checksum (data : List UInt8) : ℕ :=
  data.foldl (fun ret byte ↦ ret + byte.toNat) 0 &&& 0xffffffff

def header (data : List UInt8) : List UInt8 :=
  packWord bootMagic ++ (packWord data.length ++ packWord (checksum data))

/-! ## Receiving -/

/-- The bytes that are still to come over the line, the memory from `_skernel` on, and what has
been written to the line. -/
structure Bootloader where
  line : List UInt8
  kernel : ℕ → UInt8
  console : List String

namespace Bootloader

def uartWriteString (s : Bootloader) (str : String) : Bootloader :=
  { s with console := s.console ++ [str] }

/-- `uart_read_raw`, which waits for as many bytes as it is to read. -/
def uartReadRaw (s : Bootloader) (size : ℕ) : Option (List UInt8 × Bootloader) :=
  if size ≤ s.line.length then some (s.line.take size, { s with line := s.line.drop size })
  else none

end Bootloader

/-- `*(uint32_t*)buf`. -/
def loadWord (buf : List UInt8) : ℕ := bigEndian buf.reverse

/-- One round of the loop of `main`, and whether it jumps to `_skernel`.  None means that it waits
for more bytes, or that `data_len` is more than the index `i` can count. -/
def receive (s : Bootloader) : Option (Bool × Bootloader) := do
  let s := s.uartWriteString "Receiving kernel image...\r\n"
  let (buf, s) ← s.uartReadRaw 4
  let magic := loadWord buf
  let (buf, s) ← s.uartReadRaw 4
  let dataLen := loadWord buf
  let (buf, s) ← s.uartReadRaw 4
  let check := loadWord buf
  if 2 ^ 31 ≤ dataLen then none else
  let (data, s) ← s.uartReadRaw dataLen
  let s := { s with kernel := fun i ↦ data.getD i (s.kernel i) }
  let sum := (range dataLen).foldl (fun sum i ↦ (sum + (s.kernel i).toNat) % 2 ^ 32) 0
  if magic ≠ bootMagic then return (false, s.uartWriteString "Invalid file\r\n")
  else if sum ≠ check then return (false, s.uartWriteString "File corrupted\r\n")
  else return (true, s.uartWriteString "File received\r\n")

/-- A header with data of the announced length; the other words of the header can be any. -/
structure Frame where
  magic : List UInt8
  check : List UInt8
  data : List UInt8
  length_magic : magic.length = 4
  length_check : check.length = 4
  length_data : data.length < 2 ^ 31

namespace Frame

def bytes (f : Frame) : List UInt8 := f.magic ++ (packWord f.data.length ++ (f.check ++ f.data))

end Frame

section

variable {image data : List UInt8} (hlength : data.length = image.length)
  (h : image.length < 2 ^ 31)

end

end CapstoneKernel.Boot
