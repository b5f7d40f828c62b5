import Mathlib

/-!
# Words in a memory of bytes

The number in `n` bytes from an address on, with the least significant byte first, and the memory
after a number has been stored there.
-/

namespace CapstoneKernel.ByteWords

/-- The number in the first `n` bytes from an address on. -/
def load (mem : ℕ → UInt8) (addr : ℕ) : ℕ → ℕ
  | 0 => 0
  | n + 1 => (mem addr).toNat + 256 * load mem (addr + 1) n

def store (mem : ℕ → UInt8) (addr value : ℕ) : ℕ → ℕ → UInt8
  | 0 => mem
  | n + 1 => store (Function.update mem addr (UInt8.ofNat value)) (addr + 1) (value / 256) n

variable {mem mem' : ℕ → UInt8} {addr value n x : ℕ}

theorem load_lt (mem : ℕ → UInt8) (addr n : ℕ) : load mem addr n < 256 ^ n := by
  induction n generalizing addr with
  | zero => exact Nat.one_pos
  | succ n ih =>
    have hbyte := (mem addr).toNat_lt
    have hrest := ih (addr + 1)
    rw [load, Nat.pow_succ]
    omega

theorem load_copy {addr' : ℕ} (h : ∀ i < n, mem' (addr' + i) = mem (addr + i)) :
    load mem' addr' n = load mem addr n := by
  induction n generalizing addr addr' with
  | zero => rfl
  | succ n ih =>
    have hfirst : mem' addr' = mem addr := h 0 (Nat.succ_pos n)
    have hrest : load mem' (addr' + 1) n = load mem (addr + 1) n := ih fun i hi ↦ by
      rw [Nat.add_assoc, Nat.add_assoc, Nat.add_comm 1]
      exact h (i + 1) (by omega)
    rw [load, load, hfirst, hrest]

theorem store_of_notMem (h : ¬ (addr ≤ x ∧ x < addr + n)) : store mem addr value n x = mem x := by
  induction n generalizing mem addr value with
  | zero => rfl
  | succ n ih =>
    rw [store, ih (by omega), Function.update_of_ne (by omega)]

theorem load_store (mem : ℕ → UInt8) (addr value n : ℕ) :
    load (store mem addr value n) addr n = value % 256 ^ n := by
  induction n generalizing mem addr value with
  | zero => rw [Nat.pow_zero, Nat.mod_one]; rfl
  | succ n ih =>
    have hbyte : (UInt8.ofNat value).toNat = value % 256 := rfl
    rw [store, load, ih, store_of_notMem (by omega), Function.update_self, hbyte,
      Nat.pow_succ', Nat.mod_mul (a := 256)]

end CapstoneKernel.ByteWords
