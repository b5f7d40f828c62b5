import Mathlib

/-!
# Fields of a byte sequence

Numbers with the most significant byte first, strings that end in a zero, and sizes that are rounded
up to whole words, at positions of a list of bytes.
-/

namespace CapstoneKernel.ByteFields

open List

/-! ## Numbers -/

def bigEndian (bytes : List UInt8) : ℕ := bytes.foldl (fun n b ↦ n * 256 + b.toNat) 0

/-- A number in `k` bytes. -/
def bytesOf : ℕ → ℕ → List UInt8
  | 0, _ => []
  | k + 1, n => bytesOf k (n / 256) ++ [UInt8.ofNat n]

@[simp] theorem length_bytesOf (k n : ℕ) : (bytesOf k n).length = k := by
  induction k generalizing n with
  | zero => rfl
  | succ k ih => rw [bytesOf, length_append, ih, length_singleton]

theorem bigEndian_concat (bytes : List UInt8) (b : UInt8) :
    bigEndian (bytes ++ [b]) = bigEndian bytes * 256 + b.toNat := foldl_append

theorem bigEndian_bytesOf {k n : ℕ} (h : n < 256 ^ k) : bigEndian (bytesOf k n) = n := by
  induction k generalizing n with
  | zero =>
    obtain rfl : n = 0 := by simpa using h
    rfl
  | succ k ih =>
    have hbyte : (UInt8.ofNat n).toNat = n % 256 := rfl
    have hhigh : n / 256 < 256 ^ k := by
      rw [Nat.pow_succ] at h
      exact Nat.div_lt_of_lt_mul (Nat.mul_comm .. ▸ h)
    rw [bytesOf, bigEndian_concat, ih hhigh, hbyte]
    omega

theorem bigEndian_lt (bytes : List UInt8) : bigEndian bytes < 256 ^ bytes.length := by
  induction bytes using List.reverseRecOn with
  | nil => exact Nat.one_pos
  | append_singleton bytes b ih =>
    have hbyte := b.toNat_lt
    rw [bigEndian_concat, length_append, length_singleton, Nat.pow_succ]
    omega

theorem bytesOf_bigEndian (bytes : List UInt8) : bytesOf bytes.length (bigEndian bytes) = bytes := by
  induction bytes using List.reverseRecOn with
  | nil => rfl
  | append_singleton bytes b ih =>
    have hbyte := b.toNat_lt
    have hhigh : (bigEndian bytes * 256 + b.toNat) / 256 = bigEndian bytes := by omega
    have hlow : UInt8.ofNat (bigEndian bytes * 256 + b.toNat) = b := by
      apply UInt8.toNat.inj
      change (bigEndian bytes * 256 + b.toNat) % 256 = b.toNat
      omega
    rw [bigEndian_concat, length_append, length_singleton, bytesOf, hhigh, ih, hlow]

/-! ## Positions -/

section Positions

variable {bytes front rest : List UInt8} {p k n : ℕ}

theorem drop_add_length (h : bytes.drop p = front ++ rest) :
    bytes.drop (p + front.length) = rest := by
  rw [← drop_drop, h, drop_left]

/-- The number in the `k` bytes at a position; bytes behind the end count as missing. -/
def field (bytes : List UInt8) (p k : ℕ) : ℕ := bigEndian ((bytes.drop p).take k)

theorem field_eq (h : bytes.drop p = bytesOf k n ++ rest) (hn : n < 256 ^ k) :
    field bytes p k = n := by
  rw [field, h, take_left' (length_bytesOf k n), bigEndian_bytesOf hn]

theorem drop_eq_field (h : p + k ≤ bytes.length) :
    bytes.drop p = bytesOf k (field bytes p k) ++ bytes.drop (p + k) := by
  have hlength : ((bytes.drop p).take k).length = k := by
    rw [length_take, length_drop]
    omega
  have hfield := bytesOf_bigEndian ((bytes.drop p).take k)
  rw [hlength] at hfield
  rw [field, hfield, ← drop_drop, take_append_drop]

theorem field_lt (bytes : List UInt8) (p k : ℕ) : field bytes p k < 256 ^ k := by
  refine (bigEndian_lt _).trans_le (Nat.pow_le_pow_right (by decide) ?_)
  rw [length_take]
  exact Nat.min_le_left k _

end Positions

/-! ## Strings -/

/-- A string up to its terminator. -/
def string (bytes : List UInt8) : List UInt8 := bytes.takeWhile (· ≠ 0)

theorem string_append {name : List UInt8} (h : 0 ∉ name) (rest : List UInt8) :
    string (name ++ 0 :: rest) = name := by
  have hall : ∀ c ∈ name, decide (c ≠ 0) = true := fun c hc ↦
    decide_eq_true fun hzero ↦ h (hzero ▸ hc)
  rw [string, takeWhile_append_of_pos hall, takeWhile_cons_of_neg (by decide), append_nil]

theorem exists_string {bytes : List UInt8} (h : (string bytes).length < bytes.length) :
    0 ∉ string bytes ∧ ∃ rest, bytes = string bytes ++ 0 :: rest := by
  induction bytes with
  | nil => exact absurd h (Nat.lt_irrefl 0)
  | cons c bytes ih =>
    by_cases hc : c = 0
    · have hempty : string (c :: bytes) = [] := takeWhile_cons_of_neg (by simpa using hc)
      rw [hempty]
      exact ⟨not_mem_nil, bytes, by rw [hc]; rfl⟩
    · have hcons : string (c :: bytes) = c :: string bytes :=
        takeWhile_cons_of_pos (decide_eq_true hc)
      rw [hcons] at h ⊢
      obtain ⟨hzero, rest, hrest⟩ := ih (Nat.lt_of_succ_lt_succ h)
      refine ⟨not_mem_cons_of_ne_of_not_mem (Ne.symm hc) hzero, rest, ?_⟩
      rw [cons_append, ← hrest]

/-! ## Whole words -/

def align4 (n : ℕ) : ℕ := (n + 3) / 4 * 4

theorem le_align4 (n : ℕ) : n ≤ align4 n := by
  unfold align4
  omega

theorem four_dvd_align4 (n : ℕ) : 4 ∣ align4 n := Nat.dvd_mul_left 4 _

end CapstoneKernel.ByteFields
