import CapstoneKernel.Mem.BuddyRuns
import CapstoneKernel.VMem.Process

/-!
# Counting references

What the loops over `ref_page` and `deref_page` do as a whole.  A list of pages that are referenced
adds its multiplicities to the counts.  A list of pages that are dereferenced takes them away, and
frees at most the blocks headed by pages of the list whose count it uses up.
-/

namespace CapstoneKernel.VMem

open Mem Execution Function List

variable {s : VmState}

/-! ## References -/

/-- The state after `ref_page` on each of the pages. -/
def VmState.withRefs (s : VmState) (pages : List ℕ) : VmState :=
  { s with
    refCount := fun x ↦ (s.refCount x + pages.count x) % 2 ^ 16
    trace := s.trace ++ pages.map .ref }

theorem withRefs_nil (hcount : ∀ x, s.refCount x < 2 ^ 16) : s.withRefs [] = s := by
  have h (x : ℕ) : (s.refCount x + [].count x) % 2 ^ 16 = s.refCount x := by
    rw [count_nil, Nat.add_zero, Nat.mod_eq_of_lt (hcount x)]
  simp only [VmState.withRefs, h, map_nil, append_nil]

theorem withRefs_count_lt (s : VmState) (pages : List ℕ) (x : ℕ) :
    (s.withRefs pages).refCount x < 2 ^ 16 := Nat.mod_lt _ (by decide)

variable {page : ℕ} {pages : List ℕ} {sec : Section}

theorem refPage_eq (hcount : ∀ x, s.refCount x < 2 ^ 16) (hpage : page < s.buddy.numPages) :
    refPage s (page * pageSize) = .ok (s.withRefs [page]) := by
  have hmod : page * pageSize % pageSize = 0 := Nat.mul_mod_left page pageSize
  have hdiv : page * pageSize / pageSize = page := Nat.mul_div_cancel page (by decide)
  have hrefs : update s.refCount page ((s.refCount page + 1) % 2 ^ 16) =
      fun x ↦ (s.refCount x + [page].count x) % 2 ^ 16 := by
    funext x
    by_cases hx : x = page
    · subst hx
      simp
    · rw [update_of_ne hx, count_singleton, if_neg (by simpa using Ne.symm hx), Nat.add_zero,
        Nat.mod_eq_of_lt (hcount x)]
  rw [refPage, if_neg (not_not.2 hmod), hdiv, if_pos hpage, hrefs]
  rfl

theorem withRefs_withRefs (s : VmState) (pages pages' : List ℕ) :
    (s.withRefs pages).withRefs pages' = s.withRefs (pages ++ pages') := by
  simp only [VmState.withRefs, count_append, Nat.mod_add_mod, Nat.add_assoc, map_append,
    append_assoc]

theorem refAll_eq (hcount : ∀ x, s.refCount x < 2 ^ 16)
    (hpages : ∀ page ∈ pages, page < s.buddy.numPages) :
    refAll (pages.map (· * pageSize)) s = .ok (s.withRefs pages) := by
  induction pages generalizing s with
  | nil => rw [withRefs_nil hcount, map_nil, refAll]
  | cons page rest ih =>
    rw [map_cons, refAll, refPage_eq hcount (hpages page mem_cons_self), ok_bind]
    rw [ih (withRefs_count_lt s [page]) (fun x hx ↦ hpages x (mem_cons_of_mem _ hx)),
      withRefs_withRefs, singleton_append]

/-! ## Dereferences -/

/-- The state `s'` comes from `s` by `deref_page` on each of the pages. -/
structure Derefs (s : VmState) (pages : List ℕ) (s' : VmState) : Prop where
  wf : BuddyWf s'.buddy
  exp : s'.buddy.numPagesExp = s.buddy.numPagesExp
  usableEnd : s'.usableEnd = s.usableEnd
  mem : s'.mem = s.mem
  procs : s'.procs = s.procs
  kernel : s'.kernel = s.kernel
  refCount : ∀ x, s'.refCount x = s.refCount x - pages.count x
  /-- A block that is freed is headed by a page that runs out of references. -/
  used : ∀ x, usedAt s'.buddy x = usedAt s.buddy x ∨
    (usedAt s'.buddy x = none ∧ 0 < s.refCount x ∧ s.refCount x ≤ pages.count x)
  trace : ∃ events, s'.trace = s.trace ++ events ∧ (∀ x, .ref x ∉ events) ∧
    (∀ x, .deref x ∈ events → x ∈ pages) ∧
    ∀ x counted, .free x counted ∈ events → 0 < s.refCount x ∧ s.refCount x ≤ pages.count x ∧
      ∃ k, usedAt s.buddy x = some k ∧ (k = 0 → counted = [])

theorem Derefs.refl (h : BuddyWf s.buddy) : Derefs s [] s :=
  ⟨h, rfl, rfl, rfl, rfl, rfl, fun _ ↦ rfl, fun _ ↦ .inl rfl, [], by simp⟩

theorem Derefs.trans {s₁ s₂ s₃ : VmState} {pages' : List ℕ} (h : Derefs s₁ pages s₂)
    (h' : Derefs s₂ pages' s₃) : Derefs s₁ (pages ++ pages') s₃ where
  wf := h'.wf
  exp := h'.exp.trans h.exp
  usableEnd := h'.usableEnd.trans h.usableEnd
  mem := h'.mem.trans h.mem
  procs := h'.procs.trans h.procs
  kernel := h'.kernel.trans h.kernel
  refCount x := by
    rw [h'.refCount, h.refCount, count_append]
    omega
  used x := by
    have hcount := h.refCount x
    rw [count_append]
    rcases h'.used x with hsame | ⟨hnone, hpos, hle⟩
    · rw [hsame]
      exact (h.used x).imp id fun ⟨hnone, hpos, hle⟩ ↦ ⟨hnone, hpos, by omega⟩
    · exact .inr ⟨hnone, by omega, by omega⟩
  trace := by
    obtain ⟨events, htrace, href, hderef, hfree⟩ := h.trace
    obtain ⟨events', htrace', href', hderef', hfree'⟩ := h'.trace
    refine ⟨events ++ events', by rw [htrace', htrace, append_assoc], fun x hx ↦ ?_, fun x hx ↦
      ?_,
      fun x counted hx ↦ ?_⟩
    · exact (mem_append.1 hx).elim (href x) (href' x)
    · exact mem_append.2 ((mem_append.1 hx).imp (hderef x) (hderef' x))
    · rw [count_append]
      rcases mem_append.1 hx with hx | hx
      · obtain ⟨hpos, hle, hk⟩ := hfree x counted hx
        exact ⟨hpos, by omega, hk⟩
      · obtain ⟨hpos, hle, k, hused, hempty⟩ := hfree' x counted hx
        have hcount := h.refCount x
        refine ⟨by omega, by omega, k, ?_, hempty⟩
        rcases h.used x with hsame | ⟨hnone, -⟩
        · rw [← hsame, hused]
        · rw [hnone] at hused
          cases hused

theorem countedPages_of_order_zero {head : ℕ} (hused : usedAt s.buddy head = some 0)
    (hcount : s.refCount head = 0) : s.countedPages head = [] := by
  simp [VmState.countedPages, blockOrder, hused, hcount]

theorem usedAt_of_neg {b : Buddy} {i : ℕ} (hneg : b.arr i < 0) : ∃ k, usedAt b i = some k := by
  unfold usedAt usedOrder Mem.orderOf
  rw [if_pos hneg, if_neg (by unfold empty intMax; omega)]
  split
  · exact ⟨_, rfl⟩
  · exact ⟨_, rfl⟩

/-- Counting a page down, as the removal of one mention of it. -/
theorem update_pred (refCount : ℕ → ℕ) (page x : ℕ) :
    update refCount page (refCount page - 1) x = refCount x - [page].count x := by
  rw [count_singleton]
  by_cases hx : x = page
  · simp [hx]
  · rw [update_of_ne hx, if_neg (by simpa using Ne.symm hx), Nat.sub_zero]

/-- Releasing a page whose count has just gone from 1 to 0. -/
theorem releaseHead_spec (h : BuddyWf s.buddy) (hpage : page < s.buddy.numPages)
    (hone : s.refCount page = 1) :
    Returns (releaseHead { countDown (s.log (.deref page)) page with
        wPermission := update s.wPermission page false } (page * pageSize))
      (Derefs s [page]) := by
  have hdiv : page * pageSize / pageSize = page := Nat.mul_div_cancel page (by decide)
  set t : VmState := { countDown (s.log (.deref page)) page with
    wPermission := update s.wPermission page false } with ht
  have hcount (x : ℕ) : t.refCount x = s.refCount x - [page].count x :=
    update_pred s.refCount page x
  have hzero : t.refCount page = 0 := by rw [hcount]; simp [hone]
  have hread : t.buddy.readArr page = .ok (s.buddy.arr page) := readArr_eq hpage
  rw [releaseHead, hdiv, hread, ok_bind]
  by_cases hneg : s.buddy.arr page < 0 ∨ s.buddy.arr page = negZero
  · rw [if_pos hneg]
    have hneg' : s.buddy.arr page < 0 := hneg.elim id fun hz ↦ by rw [hz]; decide
    obtain ⟨k, hused⟩ := usedAt_of_neg hneg'
    apply (buddyFree_used (s := t.buddy) h hused).bind
    rintro b ⟨hwf, hframe, husedAt⟩
    apply Returns.ok
    refine ⟨hwf, hframe.numPagesExp, rfl, rfl, rfl, rfl, hcount, fun x ↦ ?_, ?_⟩
    · by_cases hx : x = page
      · subst hx
        right
        simp [husedAt, hone]
      · left
        change usedAt b x = _
        rw [husedAt, update_of_ne hx]
        rfl
    · refine ⟨[.deref page, .free page (t.countedPages page)], ?_, by simp, by simp, ?_⟩
      · change (s.trace ++ [.deref page]) ++ [.free page (t.countedPages page)] = _
        rw [append_assoc]
        rfl
      · intro x counted hx
        obtain ⟨rfl, rfl⟩ : x = page ∧ counted = t.countedPages page := by simpa using hx
        refine ⟨by omega, by simp [hone], k, hused, ?_⟩
        rintro rfl
        exact countedPages_of_order_zero hused hzero
  · rw [if_neg hneg]
    apply Returns.ok
    exact ⟨h, rfl, rfl, rfl, rfl, rfl, hcount, fun _ ↦ .inl rfl, [.deref page], rfl, by simp,
      by simp,
      by simp⟩

theorem derefPage_spec (h : BuddyWf s.buddy) (page : ℕ) (hpage : page < s.buddy.numPages) :
    Returns (derefPage s (page * pageSize)) (Derefs s [page]) := by
  have hmod : page * pageSize % pageSize = 0 := Nat.mul_mod_left page pageSize
  have hdiv : page * pageSize / pageSize = page := Nat.mul_div_cancel page (by decide)
  rw [derefPage, if_neg (not_not.2 hmod), hdiv, if_pos hpage]
  by_cases hzero : s.refCount page = 0
  · rw [if_pos hzero]
    apply Returns.ok
    refine ⟨h, rfl, rfl, rfl, rfl, rfl, fun x ↦ ?_, fun _ ↦ .inl rfl, [.deref page], rfl, by simp,
      by simp,
      by simp⟩
    change s.refCount x = _
    rw [count_singleton]
    split
    · next hx =>
      rw [← eq_of_beq hx, hzero]
    · rfl
  · rw [if_neg hzero]
    by_cases hone : s.refCount page = 1
    · rw [if_pos hone]
      exact releaseHead_spec h hpage hone
    · rw [if_neg hone]
      apply Returns.ok
      exact ⟨h, rfl, rfl, rfl, rfl, rfl, update_pred s.refCount page, fun _ ↦ .inl rfl,
        [.deref page], rfl, by simp, by simp, by simp⟩

theorem derefRange_spec (count page : ℕ) (h : BuddyWf s.buddy)
    (hpages : page + count ≤ s.buddy.numPages) :
    Returns (derefRange count (page * pageSize) s) (Derefs s ((List.range count).map (page + ·))) := by
  induction count generalizing page s with
  | zero => exact Returns.ok (Derefs.refl h)
  | succ count ih =>
    rw [derefRange]
    apply (derefPage_spec h page (by omega)).bind
    intro s' hs'
    rw [show page * pageSize + pageSize = (page + 1) * pageSize by ring]
    have hnum : s'.buddy.numPages = s.buddy.numPages := congrArg (2 ^ ·) hs'.exp
    apply (ih (page + 1) hs'.wf (by omega)).mono
    intro s'' hs''
    have hlist : (List.range (count + 1)).map (page + ·) =
        [page] ++ (List.range count).map (page + 1 + ·) := by
      rw [range_succ_eq_map, map_cons, map_map]
      simp only [Nat.add_zero, singleton_append, List.cons.injEq, true_and]
      apply map_congr_left
      intro i _
      simp only [Function.comp_apply]
      omega
    rw [hlist]
    exact hs'.trans hs''

/-- The physical pages `free_sections` passes to `deref_page`. -/
def releasedPages (t : PageTable) (sections : List Section) : List ℕ :=
  sections.flatMap fun sec ↦ (List.range sec.numPages).map (v2pTrans t sec.base / pageSize + ·)

theorem Section.numPages_eq_zero (h : sec.size = 0) : sec.numPages = 0 := by
  rw [Section.numPages, h]
  rfl

theorem Section.base_eq (hpos : 0 < sec.numPages) : sec.base = sec.firstPage * pageSize := by
  have halign : sec.base % pageSize = 0 := sec.aligned.resolve_right fun hsize ↦ by
    rw [Section.numPages_eq_zero hsize] at hpos
    exact absurd hpos (Nat.lt_irrefl 0)
  exact (Nat.div_mul_cancel (Nat.dvd_of_mod_eq_zero halign)).symm

theorem v2pTrans_page (t : PageTable) (page : ℕ) :
    v2pTrans t (page * pageSize) = v2pTrans t (page * pageSize) / pageSize * pageSize := by
  cases hlook : lookup t page with
  | none => rw [v2pTrans_unmapped hlook]; rfl
  | some e => rw [v2pTrans_mapped hlook, Nat.mul_div_cancel _ (by decide)]

theorem freeSections_spec {t : PageTable} {sections : List Section} (h : BuddyWf s.buddy)
    (hpages : ∀ page ∈ releasedPages t sections, page < s.buddy.numPages) :
    Returns (freeSections t sections s) (Derefs s (releasedPages t sections)) := by
  induction sections generalizing s with
  | nil => exact Returns.ok (Derefs.refl h)
  | cons sec rest ih =>
    have hsplit : releasedPages t (sec :: rest) =
        (List.range sec.numPages).map (v2pTrans t sec.base / pageSize + ·) ++
          releasedPages t rest := rfl
    rw [hsplit] at hpages ⊢
    have hrange : Returns (derefRange sec.numPages (v2pTrans t sec.base) s)
        (Derefs s ((List.range sec.numPages).map (v2pTrans t sec.base / pageSize + ·))) := by
      rcases Nat.eq_zero_or_pos sec.numPages with hzero | hpos
      · rw [hzero]
        exact Returns.ok (Derefs.refl h)
      · have hlast := hpages (v2pTrans t sec.base / pageSize + (sec.numPages - 1))
          (mem_append_left _ (mem_map.2 ⟨_, mem_range.2 (by omega), rfl⟩))
        have hptr : v2pTrans t sec.base = v2pTrans t sec.base / pageSize * pageSize := by
          rw [Section.base_eq hpos]
          exact v2pTrans_page t sec.firstPage
        have hspec := derefRange_spec sec.numPages (v2pTrans t sec.base / pageSize) h (by omega)
        rwa [← hptr] at hspec
    rw [freeSections]
    apply hrange.bind
    intro s' hs'
    have hnum : s'.buddy.numPages = s.buddy.numPages := congrArg (2 ^ ·) hs'.exp
    apply (ih hs'.wf fun page hp ↦ hnum ▸ hpages page (mem_append_right _ hp)).mono
    intro s'' hs''
    exact hs'.trans hs''

end CapstoneKernel.VMem
