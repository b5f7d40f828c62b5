import CapstoneKernel.VMem.Invariant

/-!
# What the operations map

The processes an operation leaves, and for each of them its mappings in terms of the mappings
before.
-/

namespace CapstoneKernel.VMem

open Mem Execution List

variable {size v x page count frame : ℕ} {flags : PteFlags} {b : Buddy}

theorem textSection_numPages (hsize : 0 < size) :
    (textSection size).numPages = (size - 1) / pageSize + 1 := by
  unfold Section.numPages textSection pageSize
  simp only
  omega

theorem textSection_pos (hsize : 0 < size) : 0 < (textSection size).numPages := by
  rw [textSection_numPages hsize]
  exact Nat.succ_pos _

@[simp] theorem textSection_firstPage (size : ℕ) : (textSection size).firstPage = 0 := by
  simp [Section.firstPage, textSection, usrCodeStart]

theorem imagePages_eq : imagePages size = (size + pageSize - 1) / pageSize := by
  unfold imagePages pageSize
  split <;> omega

theorem textSection_imagePages (hsize : 0 < size) :
    (textSection size).numPages = imagePages size := by
  rw [textSection_numPages hsize, imagePages_eq]
  unfold pageSize
  omega

theorem imagePages_pos : 0 < imagePages size ↔ 0 < size := by
  rw [imagePages_eq]
  unfold pageSize
  omega

/-- The physical pages of the sections, as `add_ref_sections` computes them. -/
def Proc.frames (p : Proc) : List ℕ := p.pages.map fun v ↦ v2pTrans p.table (v * pageSize) / pageSize

/-- The process after `fork`, in the parent and in the child. -/
def Proc.forked (usableEnd : ℕ) (p : Proc) : Proc := { p with table := pageTableFork usableEnd p.table }

/-- The process with a new section. -/
def Proc.addSection (p : Proc) (sec : Section) : Proc := { p with sections := p.sections ++ [sec] }

/-- The pages of a program that starts at the page `code`. -/
abbrev textFrames (size code : ℕ) : List ℕ :=
  (List.range (textSection size).numPages).map (code + ·)

/-- The process with the program mapped. -/
def Proc.withText (p : Proc) (size code : ℕ) : Proc :=
  { p with table := fillPageTable p.table 0 (textSection size).numPages (code * pageSize) textFlags }

/-- The process with pages mapped from `page` on. -/
def Proc.withPages (p : Proc) (page count frame : ℕ) (flags : PteFlags) : Proc :=
  { p with table := fillPageTable p.table page (page + count) (frame * pageSize) flags }

/-- The process with write permission for the page of `addr`, which is `frame` from now on. -/
def Proc.withFrame (p : Proc) (addr frame : ℕ) : Proc :=
  { p with table := replacePageEntry p.table addr (frame * pageSize) true }

namespace Proc

variable {p : Proc}

/-! ## Mappings -/

theorem forked_maps {usableEnd : ℕ} : (p.forked usableEnd).Maps v x ↔ p.Maps v x := by
  have hframe (e : Pte) : (protect usableEnd e).frame = e.frame := by
    rw [protect]
    split <;> rfl
  simp only [Maps, forked, lookup_pageTableFork, Option.map_eq_some_iff]
  constructor
  · rintro ⟨hv, -, ⟨e, he, rfl⟩, rfl⟩
    exact ⟨hv, e, he, (hframe e).symm⟩
  · rintro ⟨hv, e, he, rfl⟩
    exact ⟨hv, _, ⟨e, he, rfl⟩, hframe e⟩

theorem withPages_maps_new (p : Proc) (frame : ℕ) (flags : PteFlags) (hend : page + count ≤ userPages)
    (hlow : page ≤ v) (hhigh : v < page + count) :
    (p.withPages page count frame flags).Maps v (frame + (v - page)) :=
  ⟨by omega, _, lookup_fillPageTable_mem hend hlow hhigh, rfl⟩

/-- A page outside the range is mapped as before, if it is still mapped. -/
theorem withPages_maps (hend : page + count ≤ userPages)
    (h : (p.withPages page count frame flags).Maps v x) :
    (page ≤ v ∧ v < page + count ∧ x = frame + (v - page)) ∨
      ((v < page ∨ page + count ≤ v) ∧ p.Maps v x) := by
  by_cases hin : page ≤ v ∧ v < page + count
  · exact .inl ⟨hin.1, hin.2, h.unique (withPages_maps_new p _ _ hend hin.1 hin.2)⟩
  · have hout : v < page ∨ page + count ≤ v := by omega
    obtain ⟨hv, e, he, hx⟩ := h
    refine .inr ⟨hout, hv, e, ?_, hx⟩
    rcases lookup_fillPageTable_notMem p.table (frame * pageSize) flags hend
      (Nat.le_add_right _ _) hv hout with hsame | ⟨hnone, -⟩
    · rw [← hsame]
      exact he
    · exact absurd (he.symm.trans hnone) nofun

theorem withPages_lookup_below (hend : page + count ≤ userPages)
    (hv : v < page) : lookup (p.withPages page count frame flags).table v = lookup p.table v :=
  (lookup_fillPageTable_notMem _ _ _ hend (Nat.le_add_right _ _) (by omega) (.inl hv)).resolve_right
    fun h ↦ by omega

theorem withPages_one_maps (hpage : page < userPages) :
    (p.withPages page 1 frame flags).Maps v x ↔ (v = page ∧ x = frame) ∨ (v ≠ page ∧ p.Maps v x) := by
  constructor
  · intro h
    rcases withPages_maps (by omega) h with ⟨hlow, hhigh, hx⟩ | ⟨hout, hmaps⟩
    · exact .inl ⟨by omega, by omega⟩
    · exact .inr ⟨by omega, hmaps⟩
  · rintro (⟨rfl, rfl⟩ | ⟨hne, hv, e, he, hx⟩)
    · simpa using withPages_maps_new p x flags (by omega) le_rfl
        (Nat.lt_succ_self v)
    · refine ⟨hv, e, ?_, hx⟩
      rw [withPages, lookup_fillPageTable_one hpage hv, if_neg hne]
      exact he

theorem withText_maps (code v x : ℕ) (hempty : p.table = emptyPageTable)
    (hcount : (textSection size).numPages ≤ userPages) :
    (p.withText size code).Maps v x ↔ v < (textSection size).numPages ∧ x = code + v := by
  have heq : p.withText size code = p.withPages 0 (textSection size).numPages code textFlags := by
    rw [withText, withPages, Nat.zero_add]
  rw [heq]
  constructor
  · intro h
    rcases withPages_maps (by omega) h with ⟨-, hhigh, hx⟩ | ⟨-, hmaps⟩
    · exact ⟨by omega, by omega⟩
    · exact absurd hmaps (not_maps_of_empty hempty v x)
  · rintro ⟨hv, rfl⟩
    simpa using withPages_maps_new p code textFlags (by omega)
      (Nat.zero_le v) (by omega : v < 0 + (textSection size).numPages)

theorem withFrame_lookup {addr : ℕ} (haddr : addr / pageSize < userPages) (hv : v < userPages) :
    lookup (p.withFrame addr frame).table v =
      if v = addr / pageSize then (lookup p.table v).map fun e ↦ { e with rdonly := false, frame := frame }
      else lookup p.table v := by
  rw [withFrame, lookup_replacePageEntry haddr hv, Nat.mul_div_cancel frame (by decide)]
  rfl

theorem withFrame_maps {addr frame' : ℕ} (h : p.Maps (addr / pageSize) frame) :
    (p.withFrame addr frame').Maps v x ↔
      (v = addr / pageSize ∧ x = frame') ∨ (v ≠ addr / pageSize ∧ p.Maps v x) := by
  obtain ⟨haddr, e, he, -⟩ := h
  by_cases hv : v = addr / pageSize
  · subst hv
    simp [Maps, haddr, withFrame_lookup haddr haddr, he, eq_comm]
  · simp only [hv, false_and, ne_eq, not_false_eq_true, true_and, false_or]
    constructor
    · rintro ⟨hlt, e', he', hx⟩
      rw [withFrame_lookup haddr hlt, if_neg hv] at he'
      exact ⟨hlt, e', he', hx⟩
    · rintro ⟨hlt, e', he', hx⟩
      refine ⟨hlt, e', ?_, hx⟩
      rw [withFrame_lookup haddr hlt, if_neg hv]
      exact he'

theorem withFrame_maps_same {addr : ℕ} (h : p.Maps (addr / pageSize) frame) :
    (p.withFrame addr frame).Maps v x ↔ p.Maps v x := by
  rw [withFrame_maps h]
  by_cases hv : v = addr / pageSize
  · subst hv
    simp only [true_and, ne_eq, not_true, false_and, or_false]
    exact ⟨fun hx ↦ hx ▸ h, fun hx ↦ hx.unique h⟩
  · simp [hv]

theorem lookup_ne_none_iff (hv : v < userPages) : lookup p.table v ≠ none ↔ ∃ x, p.Maps v x := by
  constructor
  · intro h
    obtain ⟨e, he⟩ := Option.ne_none_iff_exists'.1 h
    exact ⟨e.frame, hv, e, he, rfl⟩
  · rintro ⟨x, -, e, he, -⟩
    rw [he]
    exact nofun

/-- Virtual pages that are not mapped have the physical address 0 for `add_ref_sections`. -/
theorem mem_frames (hwf : p.Wf b) (hx : x ∈ p.frames) :
    (∃ v ∈ p.pages, p.Maps v x) ∨ (x = 0 ∧ ∃ v ∈ p.pages, lookup p.table v = none) := by
  obtain ⟨v, hv, rfl⟩ := mem_map.1 hx
  cases hlook : lookup p.table v with
  | none =>
    right
    rw [v2pTrans_unmapped hlook]
    exact ⟨rfl, v, hv, hlook⟩
  | some e =>
    left
    rw [v2pTrans_mapped hlook, Nat.mul_div_cancel _ (by decide)]
    exact ⟨v, hv, hwf.page_lt hv, e, hlook, rfl⟩

/-! ## Well-formed processes -/

theorem addSection_pages (p : Proc) (sec : Section) : (p.addSection sec).pages = p.pages ++ sec.pages := by
  simp [pages, addSection]

theorem Wf.setDead (h : p.Wf b) : { p with dead := true }.Wf b := by
  refine ⟨?_, h.sections_le, h.frame, h.mem_pages⟩
  cases h.stage with
  | thread hel hsec htable => exact .thread hel hsec htable
  | loaded size code hel hsize hsec htable hcode hpos hle =>
    exact .loaded size code hel hsize hsec htable hcode hpos hle
  | running size rest hel hsize hsec hrest hmapped =>
    exact .running size rest hel hsize hsec hrest hmapped

theorem not_fetched (h : p.table = emptyPageTable) : ¬ p.Fetched := by
  rw [Fetched, h]
  exact not_not.2 (lookup_emptyPageTable _)

theorem Wf.fetched (h : p.Wf b) (hmaps : p.Maps v x) : p.Fetched := by
  cases h.stage with
  | thread _ _ htable | loaded _ _ _ _ _ htable => exact absurd hmaps (not_maps_of_empty htable v x)
  | running size rest _ hsize _ _ hmapped => exact hmapped 0 (textSection_pos hsize)

/-- A running process whose program stays mapped. -/
theorem Wf.of_running {b' : Buddy} (h : p.Wf b) (hfetched : p.Fetched) {q : Proc} (hel : q.el0 = p.el0)
    (extra : List Section) (hsecs : q.sections = p.sections ++ extra)
    (hextra : ∀ sec ∈ extra, (sec.type = .stack ∨ sec.type = .heap) ∧
      (sec.numPages = 0 ∨ sec.firstPage + sec.numPages ≤ userPages))
    (htext : ∀ v < userPages, (∀ u ≤ v, lookup p.table u ≠ none) → lookup q.table v ≠ none)
    (hmaps : ∀ v x, q.Maps v x → 0 < x ∧ x < b'.numPages ∧ v ∈ q.pages) : q.Wf b' := by
  refine ⟨?_, ?_, fun v x hv ↦ ⟨(hmaps v x hv).1, (hmaps v x hv).2.1⟩, fun v x hv ↦
    (hmaps v x hv).2.2⟩
  · cases h.stage with
    | thread _ _ htable | loaded _ _ _ _ _ htable => exact absurd hfetched (not_fetched htable)
    | running size rest hel' hsize hsecs' hrest hmapped =>
      refine .running size (rest ++ extra) (hel.trans hel') hsize (by rw [hsecs, hsecs']; rfl) ?_ ?_
      · intro sec hsec
        exact (mem_append.1 hsec).elim (hrest sec) fun hmem ↦ (hextra sec hmem).1
      · intro v hv
        have hle := h.sections_le (textSection size) (hsecs' ▸ mem_cons_self)
        rw [textSection_firstPage] at hle
        exact htext v (by omega) fun u hu ↦ hmapped u (by omega)
  · intro sec hsec
    rw [hsecs] at hsec
    exact (mem_append.1 hsec).elim (h.sections_le sec) fun hmem ↦ (hextra sec hmem).2

/-- A running process in which one page of a section gets another frame. -/
theorem Wf.of_page (h : p.Wf b) (hfetched : p.Fetched) {q : Proc} (hel : q.el0 = p.el0)
    (hsecs : q.sections = p.sections) (hpage : page ∈ p.pages) (hpos : 0 < frame)
    (hlt : frame < b.numPages)
    (hmaps : ∀ v x, q.Maps v x ↔ (v = page ∧ x = frame) ∨ (v ≠ page ∧ p.Maps v x)) : q.Wf b := by
  have hpages : q.pages = p.pages := congrArg (flatMap Section.pages) hsecs
  refine h.of_running hfetched hel [] (hsecs.trans (append_nil _).symm) (by simp) ?_ ?_
  · intro v hvlt hv
    obtain ⟨x, hx⟩ := (lookup_ne_none_iff hvlt).1 (hv v le_rfl)
    apply (lookup_ne_none_iff hvlt).2
    by_cases heq : v = page
    · exact ⟨frame, (hmaps v _).2 (.inl ⟨heq, rfl⟩)⟩
    · exact ⟨x, (hmaps v x).2 (.inr ⟨heq, hx⟩)⟩
  · intro v x hv
    rw [hpages]
    rcases (hmaps v x).1 hv with ⟨rfl, rfl⟩ | ⟨-, hx⟩
    · exact ⟨hpos, hlt, hpage⟩
    · exact ⟨(h.frame v x hx).1, (h.frame v x hx).2, h.mem_pages v x hx⟩

end Proc

end CapstoneKernel.VMem
