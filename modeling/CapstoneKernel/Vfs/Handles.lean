import CapstoneKernel.Vfs.Descriptors

/-!
# Lifetime of open files

The reference count of a file is the number of descriptors of live processes that refer to it, and
the file is freed with the last of them, if processes close their descriptors before they exit and
no process is started with the three standard descriptors, which share a file that is counted once.
-/

namespace CapstoneKernel.Descriptors

open Execution List Option

variable {a : Act} {files files' : List (Option ℕ)} {p : Pcb} {old : Slot} {f idx pid : ℕ}

/-- The descriptors for the file of a process that is alive. -/
def liveRefs (f : ℕ) : Option Pcb → ℕ
  | none => 0
  | some p => if p.dead then 0 else p.fdTable.count (.file f)

def State.refs (s : State) (f : ℕ) : ℕ := (s.procs.map (liveRefs f)).sum

/-- The count that is stored, for a file that is freed at zero. -/
def countOf (n : ℕ) : Option ℕ := if n = 0 then none else some n

/-- The standard descriptors are not set up, and a process exits without open files. -/
def countsRefs (s : State) : Act → Bool
  | .initPcb opened => !opened
  | .exit pid => s.procs[pid]?.all fun p ↦ p.all fun p ↦ p.fdBitmap == 0
  | a => opensFiles s a

def CountsRefs (s : State) (a : Act) : Prop := countsRefs s a = true
deriving Decidable

theorem CountsRefs.opensFiles {s : State} (h : CountsRefs s a) : OpensFiles s a := by
  cases a with
  | initPcb opened => rfl
  | exit pid => rfl
  | _ => exact h

theorem countOf_pos {n : ℕ} (h : 0 < n) : countOf n = some n := if_neg (Nat.ne_of_gt h)

/-! ## Counting -/

section Sums

variable {α : Type} {l : List α} {i : ℕ} {a : α}

theorem sum_map_set (g : α → ℕ) (hget : l[i]? = some a) (b : α) :
    ((l.set i b).map g).sum + g a = (l.map g).sum + g b := by
  induction l generalizing i with
  | nil => cases hget
  | cons x rest ih =>
    cases i with
    | zero =>
      cases hget
      simp only [set_cons_zero, map_cons, sum_cons]
      omega
    | succ i =>
      have hrest := ih hget
      simp only [set_cons_succ, map_cons, sum_cons]
      omega

theorem le_sum_map (g : α → ℕ) (hmem : a ∈ l) : g a ≤ (l.map g).sum :=
  single_le_sum (fun _ _ ↦ Nat.zero_le _) _ (mem_map_of_mem hmem)

end Sums

section Refs

variable {s : State} {pid f : ℕ} {p : Pcb}

theorem liveRefs_running (hp : s.running pid = .ok p) (f : ℕ) : liveRefs f (some p) = p.fdTable.count (.file f) :=
  if_neg (Bool.eq_false_iff.1 (running_eq_ok hp).2)

theorem count_le_refs (hp : s.running pid = .ok p) (f : ℕ) : p.fdTable.count (.file f) ≤ s.refs f := by
  rw [← liveRefs_running hp f]
  exact le_sum_map (liveRefs f) (mem_of_getElem? (running_eq_ok hp).1)

theorem refs_set (hp : s.procs[pid]? = some (some p)) (files : List (Option ℕ)) (q : Option Pcb) (f : ℕ) :
    State.refs ⟨files, s.procs.set pid q⟩ f + liveRefs f (some p) = s.refs f + liveRefs f q :=
  sum_map_set (liveRefs f) hp q

theorem refs_append (files : List (Option ℕ)) (q : Option Pcb) (f : ℕ) :
    State.refs ⟨files, s.procs ++ [q]⟩ f = s.refs f + liveRefs f q := by
  simp only [State.refs, map_append, sum_append, map_singleton, sum_singleton]

theorem liveRefs_empty (f : ℕ) : liveRefs f (some .empty) = 0 :=
  count_eq_zero.2 fun hmem ↦ absurd (eq_of_mem_replicate hmem) nofun

theorem count_withSlot (hold : p.fdTable[idx]? = some old) (slot : Slot) (bitmap : BitVec 16)
    (x : Slot) : (p.withSlot idx slot bitmap).fdTable.count x + (if old = x then 1 else 0) =
      p.fdTable.count x + if slot = x then 1 else 0 := by
  obtain ⟨hlt, hold⟩ := List.getElem?_eq_some_iff.1 hold
  have hset : (p.fdTable.set idx slot).count x = _ := count_set hlt
  have hpos : old = x → 0 < p.fdTable.count x := by
    rintro rfl
    exact count_pos_iff.2 (hold ▸ getElem_mem hlt)
  change (p.fdTable.set idx slot).count x + _ = _
  rw [hset, hold]
  simp only [beq_iff_eq]
  split
  · next heq =>
    have hpos := hpos heq
    omega
  · omega

theorem refs_withSlot (hp : s.running pid = .ok p) (hold : p.fdTable[idx]? = some old)
    (files : List (Option ℕ)) (slot : Slot) (bitmap : BitVec 16) (f : ℕ) :
    State.refs ⟨files, s.procs.set pid (some (p.withSlot idx slot bitmap))⟩ f + (if old = .file f then 1 else 0) =
      s.refs f + if slot = .file f then 1 else 0 := by
  have hset := refs_set (running_eq_ok hp).1 files (some (p.withSlot idx slot bitmap)) f
  have hnew : liveRefs f (some (p.withSlot idx slot bitmap)) =
      (p.withSlot idx slot bitmap).fdTable.count (.file f) :=
        if_neg (Bool.eq_false_iff.1 (running_eq_ok hp).2)
  have hcount := count_withSlot hold slot bitmap (.file f)
  rw [liveRefs_running hp, hnew] at hset
  omega

theorem addRef_eq_ok {slot : Slot} (h : addRef files slot = .ok files') (f : ℕ) :
    files'[f]?.join = files[f]?.join.map (· + if slot = .file f then 1 else 0) := by
  unfold addRef at h
  split at h
  · cases h
    simp
  · cases h
  · next g =>
    split at h
    · next count hcount =>
      cases h
      have hlt := (List.getElem?_eq_some_iff.1 hcount).1
      rw [getElem?_set]
      split
      · next heq =>
        obtain rfl := heq
        rw [hcount, if_pos rfl]
        rfl
      · next hne =>
        rw [if_neg fun heq ↦ hne (Slot.file.inj heq)]
        simp
    · cases h

theorem foldlM_addRef {slots : List Slot} (h : slots.foldlM addRef files = .ok files') (f : ℕ) :
    files'[f]?.join = files[f]?.join.map (· + slots.count (.file f)) := by
  induction slots generalizing files with
  | nil =>
    cases h
    simp
  | cons slot rest ih =>
    rw [foldlM_cons] at h
    obtain ⟨files₁, hadd, h⟩ := of_bind_eq_ok h
    rw [ih h, addRef_eq_ok hadd f, Option.map_map, count_cons]
    congr 1
    funext count
    simp only [Function.comp_apply, beq_iff_eq]
    omega

end Refs

/-! ## The counts -/

/-- Every count is the number of references, and dead processes have none. -/
structure Counted (s : State) : Prop where
  coherent : AllCoherent s
  count : ∀ f, s.files[f]?.join = countOf (s.refs f)
  dead : ∀ p, some p ∈ s.procs → p.dead = true → ∀ f, .file f ∉ p.fdTable

section Counted

variable {s s' : State}

theorem Coherent.not_mem_of_zero (h : Coherent p) (hzero : p.fdBitmap = 0) (f : ℕ) :
    .file f ∉ p.fdTable := by
  intro hmem
  obtain ⟨i, hget⟩ := mem_iff_getElem?.1 hmem
  have hlt : i < maxNumFd := by
    rw [← p.length_eq]
    exact (List.getElem?_eq_some_iff.1 hget).1
  have hbit := (h i hlt).2 ⟨f, hget⟩
  rw [hzero, BitVec.ofNat_eq_ofNat, BitVec.getLsbD_zero] at hbit
  exact Bool.false_ne_true hbit

theorem CountsRefs.bitmap_eq_zero (h : CountsRefs s (.exit pid)) (hp : s.running pid = .ok p) :
    p.fdBitmap = 0 := by
  rw [CountsRefs, countsRefs, (running_eq_ok hp).1, all_some, all_some] at h
  exact eq_of_beq h

section

variable (h : Counted s)
include h

theorem Counted.append_empty : Counted { s with procs := s.procs ++ [some .empty] } where
  coherent := h.coherent.append coherent_empty
  count f := by
    rw [refs_append, liveRefs_empty, Nat.add_zero]
    exact h.count f
  dead p hp hdead := by
    rcases mem_append.1 hp with hold | hnew
    · exact h.dead p hold hdead
    · obtain rfl := some.inj (mem_singleton.1 hnew)
      exact absurd hdead Bool.false_ne_true

/-- A process that replaces another one has no files if it is dead. -/
theorem Counted.dead_set {q : Option Pcb}
    (hq : ∀ p, q = some p → p.dead = true → ∀ f, .file f ∉ p.fdTable) :
    ∀ p, some p ∈ (State.mk files (s.procs.set pid q)).procs → p.dead = true → ∀ f, .file f ∉ p.fdTable := by
  intro p hp
  rcases mem_or_eq_of_mem_set hp with hold | hnew
  · exact h.dead p hold
  · exact hq p hnew.symm

section

variable (hp : s.running pid = .ok p)
include hp

theorem Counted.opened (hidx : idx < maxNumFd) (hfree : p.fdBitmap.getLsbD idx = false) :
    Counted ⟨s.files ++ [some 1],
      s.procs.set pid (some (p.withSlot idx (.file s.files.length) (setBit p.fdBitmap idx)))⟩ where
  coherent := h.coherent.set fun q heq ↦ some.inj heq ▸ (h.coherent.of_running hp).opened hidx
  count f := by
    obtain ⟨old, hold⟩ : ∃ old, p.fdTable[idx]? = some old :=
      ⟨_, getElem?_eq_getElem (by rw [p.length_eq]; exact hidx)⟩
    have hne : old ≠ .file f := by
      rintro rfl
      have hbit := (h.coherent.of_running hp idx hidx).2 ⟨f, hold⟩
      rw [hfree] at hbit
      exact Bool.false_ne_true hbit
    have hrefs := refs_withSlot hp hold (s.files ++ [some 1]) (.file s.files.length)
      (setBit p.fdBitmap idx) f
    rw [if_neg hne, Nat.add_zero] at hrefs
    rw [hrefs]
    have hcount := h.count f
    by_cases heq : s.files.length = f
    · subst heq
      rw [getElem?_eq_none (Nat.le_refl _)] at hcount
      have hzero : s.refs s.files.length = 0 := by
        by_contra hpos
        rw [countOf_pos (Nat.pos_of_ne_zero hpos)] at hcount
        cases hcount
      rw [if_pos rfl, hzero, getElem?_concat_length]
      rfl
    · rw [if_neg fun hfile ↦ heq (Slot.file.inj hfile), Nat.add_zero, ← hcount, getElem?_append]
      split
      · rfl
      · next hge =>
        rw [getElem?_eq_none (by simp; omega), getElem?_eq_none (by omega)]
  dead := h.dead_set fun q heq hdead ↦ by
    cases heq
    exact absurd ((running_eq_ok hp).2.symm.trans hdead) Bool.false_ne_true

theorem Counted.closed {fd count : ℕ} (hfd : fd < maxNumFd)
    (hslot : p.fdTable[fd]? = some (.file f)) (hfile : s.files[f]? = some (some count)) :
    Counted ⟨s.files.set f (if count - 1 = 0 then none else some (count - 1)),
      s.procs.set pid (some (p.withSlot fd .null (clearBit p.fdBitmap fd)))⟩ where
  coherent := h.coherent.set fun q heq ↦ some.inj heq ▸ (h.coherent.of_running hp).closed hfd
  count g := by
    have hrefs := refs_withSlot hp hslot (s.files.set f (countOf (count - 1))) .null
      (clearBit p.fdBitmap fd) g
    have hcount := h.count g
    change (s.files.set f (countOf (count - 1)))[g]?.join =
      countOf (State.refs ⟨s.files.set f (countOf (count - 1)), _⟩ g)
    rw [getElem?_set]
    split
    · next heq =>
      subst heq
      have hpos : 0 < s.refs f :=
        Nat.lt_of_lt_of_le (count_pos_iff.2 (mem_of_getElem? hslot)) (count_le_refs hp f)
      rw [hfile, countOf_pos hpos] at hcount
      cases hcount
      rw [if_pos (List.getElem?_eq_some_iff.1 hfile).1]
      rw [if_pos rfl, if_neg nofun] at hrefs
      exact congrArg countOf (by omega)
    · next hne =>
      rw [if_neg fun heq ↦ hne (Slot.file.inj heq), if_neg nofun] at hrefs
      rw [hcount]
      exact congrArg countOf (by omega)
  dead := h.dead_set fun q heq hdead ↦ by
    cases heq
    exact absurd ((running_eq_ok hp).2.symm.trans hdead) Bool.false_ne_true

theorem Counted.forked (hfiles : p.fdTable.foldlM addRef s.files = .ok files) :
    Counted ⟨files, s.procs ++ [some p]⟩ where
  coherent := h.coherent.append (h.coherent.of_running hp)
  count f := by
    rw [refs_append, liveRefs_running hp, foldlM_addRef hfiles, h.count f]
    have hle := count_le_refs hp f
    rcases Nat.eq_zero_or_pos (s.refs f) with hzero | hpos
    · rw [hzero] at hle ⊢
      rw [Nat.le_zero.1 hle]
      rfl
    · rw [countOf_pos hpos, countOf_pos (by omega)]
      rfl
  dead q hq hdead := by
    rcases mem_append.1 hq with hold | hnew
    · exact h.dead q hold hdead
    · obtain rfl := some.inj (mem_singleton.1 hnew)
      exact absurd ((running_eq_ok hp).2.symm.trans hdead) Bool.false_ne_true

theorem Counted.exited (hzero : p.fdBitmap = 0) :
    Counted (s.setProc pid (some { p with dead := true })) where
  coherent := by
    have hcoherent := h.coherent.of_running hp
    exact h.coherent.set fun q heq ↦ some.inj heq ▸ hcoherent
  count f := by
    have hset := refs_set (running_eq_ok hp).1 s.files (some { p with dead := true }) f
    have hnone := count_eq_zero.2 ((h.coherent.of_running hp).not_mem_of_zero hzero f)
    rw [liveRefs_running hp, hnone] at hset
    exact (h.count f).trans (congrArg countOf hset.symm)
  dead := h.dead_set fun q heq _ ↦ by
    cases heq
    exact (h.coherent.of_running hp).not_mem_of_zero hzero

end

theorem Counted.reaped (hp : s.procs[pid]? = some (some p)) (hdead : p.dead = true) :
    Counted (s.setProc pid none) where
  coherent := h.coherent.set nofun
  count f := by
    have hset := refs_set hp s.files none f
    have hnone : liveRefs f (some p) = 0 := if_pos hdead
    rw [hnone] at hset
    exact (h.count f).trans (congrArg countOf hset.symm)
  dead := h.dead_set nofun

omit h in
theorem Effect.counted (heffect : Effect s a s') (hallowed : CountsRefs s a) (h : Counted s) :
    Counted s' := by
  cases heffect with
  | initPcb opened =>
    cases opened with
    | true => exact absurd hallowed Bool.false_ne_true
    | false => exact h.append_empty
  | threadCreate => exact h.append_empty
  | opened hp hidx hfree => exact h.opened hp hidx hfree
  | unchanged => exact h
  | closed hp hfd hslot hfile => exact h.closed hp hfd hslot hfile
  | forked hp hfiles => exact h.forked hp hfiles
  | exited hp => exact h.exited hp (hallowed.bitmap_eq_zero hp)
  | reaped hp hdead => exact h.reaped hp hdead

/-- No descriptor refers to a file that has been freed. -/
theorem Counted.not_freed (hp : some p ∈ s.procs) (hmem : .file f ∈ p.fdTable) :
    ∃ count, s.files[f]? = some (some count) := by
  have hlive : liveRefs f (some p) = p.fdTable.count (.file f) :=
    if_neg fun hdead ↦ h.dead p hp hdead f hmem
  have hpos : 0 < s.refs f := by
    have hle : liveRefs f (some p) ≤ s.refs f := le_sum_map (liveRefs f) hp
    rw [hlive] at hle
    exact Nat.lt_of_lt_of_le (count_pos_iff.2 hmem) hle
  have hcount := h.count f
  rw [countOf_pos hpos] at hcount
  exact ⟨s.refs f, join_eq_some_iff.1 hcount⟩

end

end Counted

/-- If `open` is only called with a free descriptor and for files that can be opened, processes
close their files before they exit and the standard descriptors are not set up, every file that is
not freed has as its count the number of descriptors of live processes for it, a file is freed
exactly if there are none, and no descriptor refers to a freed file. -/
theorem counts_are_refs {s : State} (hrun : Reachable (· = start) (CallStep CountsRefs fun s a ↦ a.run s) s) :
    (∀ f < s.files.length, s.files[f]? = some (if s.refs f = 0 then none else some (s.refs f))) ∧
    ∀ p, some p ∈ s.procs → ∀ f, .file f ∈ p.fdTable → ∃ count, s.files[f]? = some (some count) := by
  have hcounted : Counted s := by
    refine hrun.calls ?_ fun s a out s' h hallowed hrun ↦
      (a.effect hallowed.opensFiles hrun).counted hallowed h
    rintro s rfl
    exact ⟨nofun, fun _ ↦ rfl, nofun⟩
  refine ⟨fun f hf ↦ ?_, fun p hp f hmem ↦ hcounted.not_freed hp hmem⟩
  have hcount := hcounted.count f
  rw [getElem?_eq_getElem hf] at hcount ⊢
  exact congrArg some hcount

/-- A file that two processes share is freed when the second one closes it. -/
theorem counts_are_refs_shared : ∃ s, (Reachable (· = start) (CallStep CountsRefs fun s a ↦ a.run s) s ∧
      s.files = [none, some 2]) ∧
    (∀ f < s.files.length, s.files[f]? = some (if s.refs f = 0 then none else some (s.refs f))) ∧
    ∀ p, some p ∈ s.procs → ∀ f, .file f ∈ p.fdTable → ∃ count, s.files[f]? = some (some count) := by
  obtain ⟨s, hreach, hs⟩ := Reachable.exists_calls CountsRefs (fun s a ↦ Act.run s a) start
    [.initPcb false, .openFd 0 true, .openFd 0 true, .fork 0, .closeFd 0 0, .closeFd 1 0]
      (fun s ↦ s.files = [none, some 2])
    (by decide +kernel)
  exact ⟨s, ⟨hreach, hs⟩, counts_are_refs hreach⟩

/-- The three standard descriptors of a process refer to a file with count one. -/
theorem standard_descriptors_share : ∃ s, Reachable (· = start) (CallStep anyCall Act.run) s ∧
    s.files = [some 1] ∧ s.refs 0 = 3 :=
  Reachable.exists_calls anyCall Act.run start [.initPcb true]
    (fun s ↦ s.files = [some 1] ∧ s.refs 0 = 3) (by decide +kernel)

end CapstoneKernel.Descriptors
