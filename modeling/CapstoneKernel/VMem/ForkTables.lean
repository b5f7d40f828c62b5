import CapstoneKernel.Lib.TableCopy
import CapstoneKernel.VMem.ReplaceEntry

/-!
# `page_table_fork` on words

The recursion of `page_table_fork` over the four levels, with its loop over the entries of a table.
An entry with one of the bits of `PD_TABLE` above the last level is a table; any other entry, valid
or not, is treated as a page: below `usable_memory[1]` it becomes read-only in the source before it
is copied, and `set_w_permission` is called for its page if it was writable.
-/

namespace CapstoneKernel.VMem.Words

open RadixTable TableWalk Mem Function List

variable {bound entry i : ℕ} {step : Forking → ℕ → Forking} {fork : ℕ → ℕ → Forking → Forking}

/-- The memory, `w_permission` of the pages and the number of calls of `malloc`. -/
structure Forking where
  mem : Memory
  wPermission : ℕ → Bool
  mallocs : ℕ

def setWPermission (wPermission : ℕ → Bool) (ptr : ℕ) (w : Bool) : ℕ → Bool :=
  if ptr % pageSize ≠ 0 then wPermission else update wPermission (ptr / pageSize) w

section Fork

variable (malloc : ℕ → ℕ) (usableEnd : ℕ)

/-- The branch for a block or a page. -/
def copyEntry (dstTableAddr srcTableAddr : ℕ) (s : Forking) (i : ℕ) : Forking :=
  let vSrcTableAddr := p2vTransKernel srcTableAddr
  let vDstTableAddr := p2vTransKernel dstTableAddr
  let pageAddr := load s.mem (vSrcTableAddr + 8 * i) &&& tableAddrMask
  let s :=
    if pageAddr < usableEnd then
      { s with
        mem := store s.mem (vSrcTableAddr + 8 * i) (load s.mem (vSrcTableAddr + 8 * i) ||| pdRdonly)
        wPermission :=
          if load s.mem (vSrcTableAddr + 8 * i) &&& pdRdonly = 0 then
            setWPermission s.wPermission pageAddr true
          else s.wPermission }
    else s
  { s with mem := store s.mem (vDstTableAddr + 8 * i) (load s.mem (vSrcTableAddr + 8 * i)) }

/-- One round of the loop above the last level, with the recursive call. -/
def forkEntry (fork : ℕ → ℕ → Forking → Forking) (dstTableAddr srcTableAddr : ℕ) (s : Forking)
    (i : ℕ) : Forking :=
  let entry := load s.mem (p2vTransKernel srcTableAddr + 8 * i)
  if entry &&& pdTable ≠ 0 then
    let srcTableAddrNext := entry &&& tableAddrMask
    let vDstTableAddrNext := malloc s.mallocs
    let dstTableAddrNext := v2pTransKernel vDstTableAddrNext
    fork dstTableAddrNext srcTableAddrNext
      { s with
        mem := store s.mem (p2vTransKernel dstTableAddr + 8 * i) (dstTableAddrNext ||| pdTable)
        mallocs := s.mallocs + 1 }
  else copyEntry usableEnd dstTableAddr srcTableAddr s i

/-- `page_table_fork` for a table of level `addr_type`. -/
def pageTableFork : ℕ → ℕ → ℕ → Forking → Forking
  | 0, dstTableAddr, srcTableAddr, s =>
    (List.range numPtEntries).foldl (copyEntry usableEnd dstTableAddr srcTableAddr) s
  | addrType + 1, dstTableAddr, srcTableAddr, s =>
    (List.range numPtEntries).foldl
      (forkEntry malloc usableEnd (pageTableFork addrType) dstTableAddr srcTableAddr) s

end Fork

variable {malloc : ℕ → ℕ} {usableEnd : ℕ}

/-! ## Entries -/

/-- What becomes of an entry that is not a table. -/
def protectWord (usableEnd entry : ℕ) : ℕ :=
  if entry &&& tableAddrMask < usableEnd then entry ||| pdRdonly else entry

/-- The entry of a table. -/
def linkWord (f : ℕ) : ℕ := f * pageSize ||| pdTable

theorem protectWord_and {bits : ℕ} (hbits : pdRdonly &&& bits = 0) (entry : ℕ) :
    protectWord usableEnd entry &&& bits = entry &&& bits := by
  unfold protectWord
  split
  · rw [Nat.and_or_distrib_right, hbits, Nat.or_zero]
  · rfl

theorem child_protectWord (usableEnd entry : ℕ) (h : child entry = none) :
    child (protectWord usableEnd entry) = none := by
  unfold child at *
  rw [protectWord_and (by decide)]
  split at h
  · next hinvalid => rw [if_pos hinvalid]
  · cases h

theorem child_eq_none : child entry = none ↔ entry &&& 0b1 = 0 := by
  unfold child
  split <;> simp_all

/-- An invalid entry without bits other than `PD_RDONLY`. -/
def BlankEntry (entry : ℕ) : Prop := entry &&& 0b1 = 0 → entry = 0 ∨ entry = pdRdonly

/-- The entry maps a page below `usable_memory[1]` with write permission. -/
def WritableLeaf (usableEnd entry page : ℕ) : Prop :=
  entry &&& 0b1 ≠ 0 ∧ entry / pageSize % 2 ^ 36 = page ∧ page * pageSize < usableEnd ∧
    entry &&& pdRdonly = 0

section Entry

variable {s : Forking} {d f i : ℕ} (hd : d < 2 ^ 36) (hf : f < 2 ^ 36) (hi : i < numPtEntries)

include hd hf hi in
theorem copyEntry_mem : (copyEntry usableEnd (d * pageSize) (f * pageSize) s i).mem =
      write (write s.mem f i (protectWord usableEnd (s.mem f i))) d i
        (protectWord usableEnd (s.mem f i)) := by
  have hsame : write s.mem f i (s.mem f i) = s.mem := by simp [write]
  unfold copyEntry protectWord
  simp only [load_entry _ hf hi]
  split
  · simp only [store_entry _ _ hf hi, store_entry _ _ hd hi, write_self]
  · simp only [store_entry _ _ hd hi, hsame]

theorem copyEntry_mallocs (usableEnd d f : ℕ) (s : Forking) (i : ℕ) :
    (copyEntry usableEnd d f s i).mallocs = s.mallocs := by
  unfold copyEntry
  simp only
  split <;> rfl

include hf hi in
theorem copyEntry_wPermission_eq :
    (copyEntry usableEnd (d * pageSize) (f * pageSize) s i).wPermission =
      if s.mem f i &&& tableAddrMask < usableEnd ∧ s.mem f i &&& pdRdonly = 0 then
        update s.wPermission (s.mem f i / pageSize % 2 ^ 36) true
      else s.wPermission := by
  have haligned : s.mem f i / pageSize % 2 ^ 36 * pageSize % pageSize = 0 := Nat.mul_mod_left _ _
  have hframe : s.mem f i / pageSize % 2 ^ 36 * pageSize / pageSize = _ :=
    Nat.mul_div_cancel _ (by decide)
  unfold copyEntry
  simp only [load_entry _ hf hi, and_tableAddrMask]
  by_cases hbelow : s.mem f i / pageSize % 2 ^ 36 * pageSize < usableEnd
  · by_cases hwritable : s.mem f i &&& pdRdonly = 0
    · simp only [hbelow, hwritable, if_true, and_self, setWPermission, haligned, ne_eq,
        not_true_eq_false, if_false, hframe]
    · simp only [hbelow, hwritable, if_true, if_false, and_false]
  · simp only [hbelow, if_false, false_and]

include hf hi in
/-- An entry that is not valid counts for page 0 alone. -/
theorem copyEntry_wPermission (hblank : BlankEntry (s.mem f i)) {page : ℕ} (hpage : page ≠ 0) :
    (copyEntry usableEnd (d * pageSize) (f * pageSize) s i).wPermission page = true ↔
      s.wPermission page = true ∨ WritableLeaf usableEnd (s.mem f i) page := by
  rw [copyEntry_wPermission_eq hf hi, and_tableAddrMask]
  by_cases hset : s.mem f i / pageSize % 2 ^ 36 * pageSize < usableEnd ∧ s.mem f i &&& pdRdonly = 0
  · rw [if_pos hset]
    by_cases hframe : page = s.mem f i / pageSize % 2 ^ 36
    · have hvalid : s.mem f i &&& 0b1 ≠ 0 := by
        intro hinvalid
        rcases hblank hinvalid with hzero | hzero <;> rw [hzero] at hframe <;> exact hpage hframe
      rw [hframe, update_self]
      exact ⟨fun _ ↦ .inr ⟨hvalid, rfl, hset⟩, fun _ ↦ rfl⟩
    · rw [update_of_ne hframe]
      exact ⟨.inl, fun h ↦ h.elim id fun hleaf ↦ absurd hleaf.2.1.symm hframe⟩
  · rw [if_neg hset]
    refine ⟨.inl, fun h ↦ h.elim id fun ⟨_, hframe, hleaf⟩ ↦ ?_⟩
    rw [← hframe] at hleaf
    exact absurd hleaf hset

end Entry

/-! ## The recursion -/

/-- The pages of a range of calls of `malloc`. -/
def newPages (malloc : ℕ → ℕ) (start stop : ℕ) : Set ℕ :=
  (fun n ↦ pageOf (malloc n)) '' Set.Ico start stop

/-- The invalid entries for the keys whose first digit is in a set. -/
def BlankOn (level : ℕ) (m : Memory) (f : ℕ) (P : ℕ → Prop) : Prop :=
  ∀ k ≤ level, ∀ e, EntryAt numPtEntries child level m f P k e → BlankEntry e

/-- The entries in a set have been forked. -/
structure Forked (malloc : ℕ → ℕ) (usableEnd level : ℕ) (s s' : Forking) (f d : ℕ)
    (P : ℕ → Prop) : Prop where
  le : s.mallocs ≤ s'.mallocs
  copied : CopiedOn numPtEntries child (protectWord usableEnd) linkWord level s.mem s'.mem f d P
    (newPages malloc s.mallocs s'.mallocs)
  writable : ∀ page ≠ 0, s'.wPermission page = true ↔ s.wPermission page = true ∨
    ∃ e, EntryAt numPtEntries child level s.mem f P level e ∧ WritableLeaf usableEnd e page

section Pages

variable {calls a b c : ℕ}

theorem newPages_self (malloc : ℕ → ℕ) (a : ℕ) : newPages malloc a a = ∅ := by
  rw [newPages, Set.Ico_self, Set.image_empty]

theorem newPages_mono {malloc : ℕ → ℕ} {a' b' : ℕ} (hlow : a' ≤ a) (hhigh : b ≤ b') :
    newPages malloc a b ⊆ newPages malloc a' b' := Set.image_mono (Set.Ico_subset_Ico hlow hhigh)

theorem newPages_union (malloc : ℕ → ℕ) (hab : a ≤ b) (hbc : b ≤ c) :
    newPages malloc a b ∪ newPages malloc b c = newPages malloc a c := by
  rw [newPages, newPages, ← Set.image_union, Set.Ico_union_Ico_eq_Ico hab hbc, newPages]

theorem newPages_insert (malloc : ℕ → ℕ) (hab : a < b) :
    insert (pageOf (malloc a)) (newPages malloc (a + 1) b) = newPages malloc a b := by
  rw [newPages, newPages, ← Set.insert_Ico_succ_left_eq_Ico hab, Set.image_insert_eq]
  rfl

theorem PageSource.disjoint (hm : PageSource malloc calls) (hc : c ≤ calls) :
    Disjoint (newPages malloc a b) (newPages malloc b c) := by
  refine Set.disjoint_left.2 ?_
  rintro x ⟨n, ⟨h, h'⟩, rfl⟩ ⟨n', ⟨hn, hn'⟩, heq : pageOf _ = pageOf _⟩
  have := hm.distinct n (by omega) n' (by omega) (by
    rw [hm.addr n (by omega), ← heq, ← hm.addr n' (by omega)])
  omega

/-- A page that has just been given out is not one of those that follow. -/
theorem PageSource.notMem (hm : PageSource malloc calls) (hb : b ≤ calls) :
    pageOf (malloc a) ∉ newPages malloc (a + 1) b :=
  (hm.disjoint hb).notMem_of_mem_left ⟨a, ⟨le_rfl, Nat.lt_succ_self a⟩, rfl⟩

end Pages

section Recursion

variable {s s' : Forking} {level f d calls : ℕ} {P : ℕ → Prop}

theorem BlankOn.root {m : Memory} (h : BlankOn level m f (· = i)) (hi : i < numPtEntries) :
    BlankEntry (m f i) :=
  h 0 (Nat.zero_le level) _ ((entryAt_root hi).2 rfl)

theorem Forked.nothing (hP : ∀ i, ¬ P i) : Forked malloc usableEnd level s s f d P where
  le := le_rfl
  copied := by
    rw [newPages_self]
    exact .nothing hP
  writable _ _ := ⟨.inl, fun h ↦ h.elim id fun ⟨_, ⟨_, _, hkey, _⟩, _⟩ ↦ (hP _ hkey).elim⟩

section

variable
  (hpages : CopyPages numPtEntries child level s.mem f d (newPages malloc s.mallocs calls))
include hpages

/-- The tables after a part of the work are still those that are copied. -/
theorem Forked.copyPages (h : Forked malloc usableEnd level s s' f d P)
    (hcalls : s'.mallocs ≤ calls) :
    CopyPages numPtEntries child level s'.mem f d (newPages malloc s'.mallocs calls) :=
  (hpages.mono (newPages_mono h.le le_rfl)).of_walk_eq fun _ hk key ↦
    h.copied.walk_source (hpages.mono (newPages_mono le_rfl hcalls)) (child_protectWord usableEnd)
      hk key

theorem Forked.trans {s₁ s₂ : Forking} {Q R : ℕ → Prop} (hm : PageSource malloc calls)
    (hcalls : s₂.mallocs ≤ calls)
    (h₁ : Forked malloc usableEnd level s s₁ f d P) (h₂ : Forked malloc usableEnd level s₁ s₂ f d Q)
    (hPQ : ∀ i, P i → ¬ Q i) (hR : ∀ i, R i ↔ P i ∨ Q i) :
    Forked malloc usableEnd level s s₂ f d R := by
  have hle := h₁.le.trans h₂.le
  have hunion := newPages_union malloc h₁.le h₂.le
  have hpages₁ := hpages.mono (newPages_mono le_rfl (h₂.le.trans hcalls))
  refine ⟨hle, ?_, fun page hpage ↦ ?_⟩
  · rw [← hunion]
    refine h₁.copied.trans (child_protectWord usableEnd) h₂.copied ?_ (hm.disjoint hcalls) hPQ hR
    rw [hunion]
    exact hpages.mono (newPages_mono le_rfl hcalls)
  · rw [h₂.writable page hpage, h₁.writable page hpage, or_assoc]
    simp only [h₁.copied.entryAt hpages₁ (child_protectWord usableEnd) hPQ le_rfl, entryAt_or hR,
      or_and_right, exists_or]

theorem copyEntry_forked (hd : d < 2 ^ 36) (hf : f < 2 ^ 36) (hi : i < numPtEntries)
    (hblank : BlankEntry (s.mem f i)) (hnone : level = 0 ∨ child (s.mem f i) = none) :
    Forked malloc usableEnd level s (copyEntry usableEnd (d * pageSize) (f * pageSize) s i) f d
      fun j ↦ j = i := by
  have hmallocs := copyEntry_mallocs usableEnd (d * pageSize) (f * pageSize) s i
  refine ⟨hmallocs.ge, ?_, fun page hpage ↦ ?_⟩
  · rw [hmallocs, newPages_self, copyEntry_mem hd hf hi]
    exact .single_leaf (child_protectWord usableEnd) (hpages.mono (Set.empty_subset _)) hnone
  · rw [copyEntry_wPermission hf hi hblank hpage]
    cases level with
    | zero => simp only [entryAt_root hi, exists_eq_left']
    | succ level =>
      -- A leaf above the last level would be a table.
      have hchild := hnone.resolve_left (Nat.succ_ne_zero level)
      refine or_congr_right ⟨fun hleaf ↦ absurd (child_eq_none.1 hchild) hleaf.1, ?_⟩
      rintro ⟨e, ⟨key, x, hkey, hx, -⟩, -⟩
      rw [walk_succ_top, hkey, hchild] at hx
      cases hx

/-! ## The loop -/

theorem Forked.foldl (hm : PageSource malloc calls) (hle : ∀ s i, s.mallocs ≤ (step s i).mallocs)
    (hblank : BlankOn level s.mem f (· < numPtEntries))
    (hstep : ∀ s i, i < numPtEntries → (step s i).mallocs ≤ calls →
      CopyPages numPtEntries child level s.mem f d (newPages malloc s.mallocs calls) →
      BlankOn level s.mem f (· = i) → Forked malloc usableEnd level s (step s i) f d (· = i))
    (n : ℕ) (hn : n ≤ numPtEntries) (hcalls : ((List.range n).foldl step s).mallocs ≤ calls) :
    Forked malloc usableEnd level s ((List.range n).foldl step s) f d (· < n) := by
  induction n with
  | zero => exact .nothing Nat.not_lt_zero
  | succ n ih =>
    rw [range_succ, foldl_append, foldl_cons, foldl_nil] at hcalls ⊢
    have hcalls' := (hle _ n).trans hcalls
    have hdone := ih (by omega) hcalls'
    have hpages' := hpages.mono (newPages_mono le_rfl hcalls')
    refine .trans hpages hm hcalls hdone
      (hstep _ n hn hcalls (hdone.copyPages hpages hcalls') fun k hk e he ↦ ?_)
      (fun j hlt heq ↦ by omega) fun j ↦ Nat.lt_succ_iff_lt_or_eq
    -- The entry has not been reached yet.
    rw [hdone.copied.entryAt hpages' (child_protectWord usableEnd) (fun j hlt heq ↦ by omega)
      hk] at he
    obtain ⟨key, x, -, hx⟩ := he
    exact hblank k hk e ⟨key, x, digit_lt key level, hx⟩

end

/-- From one state to another there are at most `bound` calls of `malloc`. -/
def Forking.Calls (s s' : Forking) (bound : ℕ) : Prop :=
  s.mallocs ≤ s'.mallocs ∧ s'.mallocs ≤ s.mallocs + bound

theorem foldl_calls (hstep : ∀ s i, Forking.Calls s (step s i) bound) (n : ℕ) (s : Forking) :
    s.Calls ((List.range n).foldl step s) (n * bound) := by
  induction n with
  | zero => exact ⟨le_rfl, Nat.le_add_right _ _⟩
  | succ n ih =>
    have hlast := hstep ((List.range n).foldl step s) n
    rw [range_succ, foldl_append, foldl_cons, foldl_nil, Nat.succ_mul]
    unfold Forking.Calls at *
    omega

theorem copyEntry_calls (dst src : ℕ) (s : Forking) (i bound : ℕ) :
    s.Calls (copyEntry usableEnd dst src s i) bound := by
  rw [Forking.Calls, copyEntry_mallocs]
  omega

theorem forkEntry_calls (hfork : ∀ dst src s, Forking.Calls s (fork dst src s) bound) (dst src : ℕ)
    (s : Forking) (i : ℕ) :
    s.Calls (forkEntry malloc usableEnd fork dst src s i) (bound + 1) := by
  unfold forkEntry
  simp only
  split
  · refine ⟨le_trans ?_ (hfork _ _ _).1, (hfork _ _ _).2.trans ?_⟩ <;> simp only <;> omega
  · exact copyEntry_calls dst src s i _

/-- The most tables below a table of a level. -/
def maxTables : ℕ → ℕ
  | 0 => 0
  | level + 1 => numPtEntries * (maxTables level + 1)

theorem pageTableFork_calls (level dst src : ℕ) (s : Forking) :
    s.Calls (pageTableFork malloc usableEnd level dst src s) (maxTables level) := by
  induction level generalizing dst src s with
  | zero => exact foldl_calls (fun s i ↦ copyEntry_calls dst src s i 0) numPtEntries s
  | succ level ih => exact foldl_calls (forkEntry_calls ih dst src) numPtEntries s

/-! ## The recursive call -/

section Table

variable {i g : ℕ} (hm : PageSource malloc calls) (hcalls : s.mallocs < calls) (hd : d < 2 ^ 36)
  (hf : f < 2 ^ 36) (hi : i < numPtEntries) (hg : child (s.mem f i) = some g)

/-- The state of the recursive call for a table. -/
def linked (malloc : ℕ → ℕ) (s : Forking) (d i : ℕ) : Forking :=
  { s with
    mem := write s.mem d i (linkWord (pageOf (malloc s.mallocs)))
    mallocs := s.mallocs + 1 }

theorem valid_of_child (h : child entry = some g) : entry &&& 0b1 ≠ 0 := by
  intro hinvalid
  rw [child_eq_none.2 hinvalid] at h
  cases h

include hf hi hg in
theorem forkEntry_table (fork : ℕ → ℕ → Forking → Forking) :
    forkEntry malloc usableEnd fork (d * pageSize) (f * pageSize) s i =
      fork (v2pTransKernel (malloc s.mallocs)) (g * pageSize)
        { s with
          mem := store s.mem (p2vTransKernel (d * pageSize) + 8 * i)
            (v2pTransKernel (malloc s.mallocs) ||| pdTable)
          mallocs := s.mallocs + 1 } := by
  have hvalid := valid_of_child hg
  have htable : s.mem f i &&& pdTable ≠ 0 := by
    intro hzero
    have hbit : s.mem f i &&& pdTable &&& 0b1 = s.mem f i &&& 0b1 := Nat.and_assoc ..
    rw [hzero] at hbit
    exact hvalid hbit.symm
  have hframe : s.mem f i &&& tableAddrMask = g * pageSize := by
    rw [child, if_neg hvalid] at hg
    rw [and_tableAddrMask, Option.some.inj hg]
  unfold forkEntry
  simp only [load_entry _ hf hi, hframe]
  rw [if_pos htable]

include hm hcalls hd hf hi hg in
theorem forkEntry_linked (fork : ℕ → ℕ → Forking → Forking) :
    forkEntry malloc usableEnd fork (d * pageSize) (f * pageSize) s i =
      fork (pageOf (malloc s.mallocs) * pageSize) (g * pageSize) (linked malloc s d i) := by
  rw [forkEntry_table hf hi hg, store_entry _ _ hd hi, hm.v2p hcalls]
  rfl

include hf hi hg in
theorem lt_forkEntry_mallocs (hfork : ∀ dst src s, Forking.Calls s (fork dst src s) bound) :
    s.mallocs < (forkEntry malloc usableEnd fork (d * pageSize) (f * pageSize) s i).mallocs := by
  rw [forkEntry_table hf hi hg]
  refine le_trans ?_ (hfork _ _ _).1
  exact le_rfl

include hm hcalls hi hg in
theorem Forked.table
    (hpages : CopyPages numPtEntries child (level + 1) s.mem f d (newPages malloc s.mallocs calls))
    (hle : s'.mallocs ≤ calls)
    (h : Forked malloc usableEnd level (linked malloc s d i) s' g (pageOf (malloc s.mallocs))
      (· < numPtEntries)) :
    Forked malloc usableEnd (level + 1) s s' f d (· = i) := by
  have hlt : s.mallocs < s'.mallocs := h.le
  have hinsert := newPages_insert malloc hlt
  have hpages' : CopyPages numPtEntries child (level + 1) s.mem f d
      (insert (pageOf (malloc s.mallocs)) (newPages malloc (s.mallocs + 1) s'.mallocs)) := by
    rw [hinsert]
    exact hpages.mono (newPages_mono le_rfl hle)
  refine ⟨hlt.le, ?_, fun page hpage ↦ ?_⟩
  · rw [← hinsert]
    exact .single_table hi hg (table_entry (hm.page_lt _ hcalls)).1 (hm.notMem hle) hpages'
      (digit_lt · level) h.copied
  · rw [h.writable page hpage]
    simp only [linked, hpages'.entryAt_below (P := (· < numPtEntries)) hi hg _ le_rfl
      (digit_lt · level)]

end Table

theorem forkEntry_leaf (hf : f < 2 ^ 36) (hi : i < numPtEntries) (hblank : BlankEntry (s.mem f i))
    (hinvalid : s.mem f i &&& 0b1 = 0) :
    forkEntry malloc usableEnd fork (d * pageSize) (f * pageSize) s i =
      copyEntry usableEnd (d * pageSize) (f * pageSize) s i := by
  have htable : ¬ s.mem f i &&& pdTable ≠ 0 := by
    rcases hblank hinvalid with hzero | hzero <;> rw [hzero] <;> decide
  unfold forkEntry
  simp only [load_entry _ hf hi]
  rw [if_neg htable]

/-- `page_table_fork` of a table of any level. -/
theorem pageTableFork_forked (hm : PageSource malloc calls) (hd : d < 2 ^ 36) (hf : f < 2 ^ 36)
    (hpages : CopyPages numPtEntries child level s.mem f d (newPages malloc s.mallocs calls))
    (hblank : BlankOn level s.mem f (· < numPtEntries))
    (hcalls : (pageTableFork malloc usableEnd level (d * pageSize) (f * pageSize) s).mallocs ≤
      calls) :
    Forked malloc usableEnd level s
      (pageTableFork malloc usableEnd level (d * pageSize) (f * pageSize) s) f d
      (· < numPtEntries) := by
  induction level generalizing s f d with
  | zero =>
    refine .foldl hpages hm (fun s i ↦ (copyEntry_mallocs ..).ge) hblank
      (fun s i hi _ hpages hblank ↦ ?_) numPtEntries le_rfl hcalls
    exact copyEntry_forked hpages hd hf hi (hblank.root hi) (.inl rfl)
  | succ level ih =>
    have hfork := @pageTableFork_calls malloc usableEnd level
    refine .foldl hpages hm (fun s i ↦ (forkEntry_calls hfork _ _ s i).1)
      hblank (fun s i hi hcalls hpages hblank ↦ ?_) numPtEntries le_rfl hcalls
    cases hg : child (s.mem f i) with
    | none =>
      rw [forkEntry_leaf hf hi (hblank.root hi) (child_eq_none.1 hg)]
      exact copyEntry_forked hpages hd hf hi (hblank.root hi) (.inr hg)
    | some g =>
      have hlt : s.mallocs < calls :=
        (lt_forkEntry_mallocs hf hi hg hfork).trans_le hcalls
      rw [forkEntry_linked hm hlt hd hf hi hg] at hcalls ⊢
      have hpages' : CopyPages numPtEntries child (level + 1) s.mem f d
          (insert (pageOf (malloc s.mallocs)) (newPages malloc (s.mallocs + 1) calls)) := by
        rw [newPages_insert malloc hlt]
        exact hpages
      refine .table hm hlt hi hg hpages hcalls (ih (hm.page_lt _ hlt) (child_lt hg)
        (hpages'.below hi hg (hm.notMem le_rfl) _) (fun k hk e he ↦ ?_) hcalls)
      exact hblank (k + 1) (by omega) e
        ((hpages'.entryAt_below hi hg _ hk (digit_lt · level)).1 he)

end Recursion

end CapstoneKernel.VMem.Words
