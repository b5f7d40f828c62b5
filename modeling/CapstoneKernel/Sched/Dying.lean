import CapstoneKernel.Sched.Invariant

/-!
# What a dying process leaves

`exit` and `kill` put the PCB on the dead queue and move every process that waits for its pid to the
ready queue.
-/

namespace CapstoneKernel.Sched

open Places Execution Function List Option Writes

variable {ids : List ℕ} {s : State} {id id' pid : ℕ}

/-- The PCB after `wait_to_ready`. -/
def Pcb.woken (p : Pcb) : Pcb := { p with waitData := 0, state := .ready, waitQ := none }

/-- The test of `match_pid`. -/
def State.waitsFor (s : State) (pid id : ℕ) : Bool := (s.pcbs id).any fun p ↦ p.waitData % 2 ^ 32 = pid

/-- `wait_to_ready` on all of the PCBs, which stay on their lists. -/
def State.wakeAll (s : State) (ids : List ℕ) : State :=
  { s with
    pcbs := fun id ↦ if id ∈ ids then (s.pcbs id).map Pcb.woken else s.pcbs id
    queue := update s.queue .ready (s.queue .ready ++ ids) }

theorem wakeAll_nil (s : State) : s.wakeAll [] = s := by
  simp [State.wakeAll]

theorem waitToReady_eq (h : s.pcbs id ≠ none) : waitToReady s id = .ok (s.wakeAll [id]) := by
  obtain ⟨p, hp⟩ := ne_none_iff_exists'.1 h
  have hpcbs : update s.pcbs id (some p.woken) =
      fun id' ↦ if id' ∈ [id] then (s.pcbs id').map Pcb.woken else s.pcbs id' := by
    funext id'
    by_cases hid : id' = id
    · subst hid
      simp [hp]
    · simp [hid]
  rw [waitToReady, pcb_eq_ok.2 hp, ok_bind]
  change Except.ok { s with pcbs := update s.pcbs id (some p.woken), queue := _ } = _
  rw [hpcbs]
  rfl

theorem wakeAll_wakeAll (s : State) (hid : id ∉ ids) :
    (s.wakeAll [id]).wakeAll ids = s.wakeAll (id :: ids) := by
  have hpcbs (id' : ℕ) : (if id' ∈ ids then
    (if id' ∈ [id] then (s.pcbs id').map Pcb.woken else s.pcbs id').map
      Pcb.woken else if id' ∈ [id] then (s.pcbs id').map Pcb.woken else s.pcbs id') =
      if id' ∈ id :: ids then (s.pcbs id').map Pcb.woken else s.pcbs id' := by
    by_cases heq : id' = id
    · subst heq
      simp [hid]
    · simp [heq]
  simp only [State.wakeAll, hpcbs, update_self, update_idem, append_assoc, singleton_append]

theorem waitsFor_wakeAll (h : id' ≠ id) :
    (s.wakeAll [id]).waitsFor pid id' = s.waitsFor pid id' := by
  simp [State.waitsFor, State.wakeAll, h]

theorem rmAndProcess_eq (pid : ℕ) (hnodup : ids.Nodup) (hlive : ∀ id ∈ ids, s.pcbs id ≠ none) :
    rmAndProcess pid ids s =
      .ok (ids.filter fun id ↦ !s.waitsFor pid id, s.wakeAll (ids.filter (s.waitsFor pid))) := by
  induction ids generalizing s with
  | nil => rw [rmAndProcess, filter_nil, filter_nil, wakeAll_nil]
  | cons id rest ih =>
    obtain ⟨hnotMem, hnodup⟩ := nodup_cons.1 hnodup
    obtain ⟨p, hp⟩ := ne_none_iff_exists'.1 (hlive id mem_cons_self)
    have hrest (id' : ℕ) (hid' : id' ∈ rest) : id' ≠ id := fun heq ↦ hnotMem (heq ▸ hid')
    have hwaits : s.waitsFor pid id = decide (p.waitData % 2 ^ 32 = pid) := by
      rw [State.waitsFor, hp, any_some]
    rw [rmAndProcess, pcb_eq_ok.2 hp, ok_bind]
    split
    · next heq =>
      have hlive' : ∀ id' ∈ rest, (s.wakeAll [id]).pcbs id' ≠ none := fun id' hid' ↦ by
        simpa [State.wakeAll, hrest id' hid'] using hlive id' (mem_cons_of_mem id hid')
      have hfilter : rest.filter ((s.wakeAll [id]).waitsFor pid) = rest.filter (s.waitsFor pid) :=
        filter_congr fun id' hid' ↦ waitsFor_wakeAll (hrest id' hid')
      have hfilter' : (rest.filter fun id' ↦ !(s.wakeAll [id]).waitsFor pid id') =
          rest.filter fun id' ↦ !s.waitsFor pid id' :=
        filter_congr fun id' hid' ↦ by rw [waitsFor_wakeAll (hrest id' hid')]
      rw [waitToReady_eq (hlive id mem_cons_self), ok_bind, ih hnodup hlive', hfilter, hfilter',
        wakeAll_wakeAll s fun hmem ↦ hnotMem (mem_filter.1 hmem).1]
      simp only [filter_cons, hwaits, heq, decide_true, Bool.not_true, Bool.false_eq_true, if_true,
        if_false]
    · next hne =>
      rw [ih hnodup fun id' hid' ↦ hlive id' (mem_cons_of_mem id hid'), ok_bind]
      simp only [filter_cons, hwaits, hne, decide_false, Bool.not_false, if_true,
        Bool.false_eq_true, if_false]
      rfl

/-- The state after `list_rm_and_process`. -/
def State.wakeFor (s : State) (pid : ℕ) : State :=
  { s with
    pcbs := fun id ↦ if id ∈ (s.queue (.wait .proc)).filter (s.waitsFor pid) then (s.pcbs id).map Pcb.woken
      else s.pcbs id
    queue := update (update s.queue .ready
        (s.queue .ready ++ (s.queue (.wait .proc)).filter (s.waitsFor pid))) (.wait .proc)
      ((s.queue (.wait .proc)).filter fun id ↦ !s.waitsFor pid id) }

theorem wakeWaiters_eq (pid : ℕ) (hnodup : (s.queue (.wait .proc)).Nodup)
    (hlive : ∀ id ∈ s.queue (.wait .proc), s.pcbs id ≠ none) :
    wakeWaiters s pid = .ok (s.wakeFor pid) := by
  rw [wakeWaiters, rmAndProcess_eq pid hnodup hlive, ok_bind]
  rfl

theorem wakeFor_placed {taken : List (Queue × ℕ)} (h : Placed s.queue taken s.home) (pid : ℕ) :
    Placed (s.wakeFor pid).queue taken (s.wakeFor pid).home := by
  refine (h.moveFilter (by decide : Queue.wait .proc ≠ .ready) (s.waitsFor pid)).congr_home fun id ↦
    ?_
  rw [State.home, State.wakeFor]
  simp only [mem_filter]
  split
  · next hmem =>
    obtain ⟨p, hp, -⟩ := home_eq_some (h.home_of_mem hmem.1)
    rw [hp]
    rfl
  · rfl

theorem wakeFor_pcbs {p' : Pcb} (h : (s.wakeFor pid).pcbs id = some p') :
    ∃ p, s.pcbs id = some p ∧ ((id ∉ (s.queue (.wait .proc)).filter (s.waitsFor pid) ∧ p' = p) ∨
      (id ∈ (s.queue (.wait .proc)).filter (s.waitsFor pid) ∧ p' = p.woken)) := by
  rw [State.wakeFor] at h
  dsimp only at h
  split at h
  · next hmem =>
    obtain ⟨p, hp, rfl⟩ := map_eq_some_iff.1 h
    exact ⟨p, hp, .inr ⟨hmem, rfl⟩⟩
  · next hmem => exact ⟨p', h, .inl ⟨hmem, rfl⟩⟩

theorem wakeFor_live (h : s.pcbs id ≠ none) (pid : ℕ) : (s.wakeFor pid).pcbs id ≠ none := by
  rw [State.wakeFor]
  by_cases hmem : id ∈ (s.queue (.wait .proc)).filter (s.waitsFor pid)
  · simpa only [if_pos hmem, ne_eq, map_eq_none_iff] using h
  · simpa only [if_neg hmem] using h

theorem PcbsWf.wakeFor (h : PcbsWf s) (pid : ℕ) : PcbsWf (s.wakeFor pid) := by
  refine h.map (fun id p ↦ if id ∈ (s.queue (.wait .proc)).filter
    (s.waitsFor pid) then p.woken else p)
    (fun id ↦ ?_) (fun id p _ ↦ ?_) (fun id p hp ↦ ?_) (fun p hp hstate ↦ ?_) rfl rfl
  · rw [State.wakeFor]
    dsimp only
    split
    · rfl
    · rw [Option.map_id']
  · split <;> rfl
  · split
    · exact fun hstate ↦ absurd hstate nofun
    · exact h.waiting id p hp
  · split
    · exact .inr rfl
    · exact hstate

/-- The state after `exit` or `kill` has put the PCB on the dead queue and woken the others. -/
def State.died (s : State) (id : ℕ) (p : Pcb) : State :=
  ((s.setPcb id { p with state := .dead }).push .dead id).wakeFor p.pid

section Died

variable {s : State} {taken : List (Queue × ℕ)} {id : ℕ} {p : Pcb} (hp : s.pcbs id = some p)
  (hplaced : Placed s.queue taken (update s.home id none))

include hp hplaced

omit hp in
theorem dead_placed :
    Placed ((s.setPcb id { p with state := .dead }).push .dead id).queue taken
      ((s.setPcb id { p with state := .dead }).push .dead id).home := by
  have h := hplaced.push (update_self ..) .dead
  rw [update_idem] at h
  refine h.congr_home fun id' ↦ ?_
  exact congrFun (home_setPcb s id { p with state := .dead }) id'

omit hp in
theorem die_eq : die s id p = .ok (s.died id p) := by
  have h := dead_placed (p := p) hplaced
  refine wakeWaiters_eq p.pid (h.nodup _) fun id' hid' ↦ ?_
  obtain ⟨q, hq, -⟩ := home_eq_some (h.home_of_mem hid')
  rw [hq]
  exact nofun

omit hp in
theorem died_placed : Placed (s.died id p).queue taken (s.died id p).home :=
  wakeFor_placed (dead_placed hplaced) p.pid

omit hplaced in
theorem PcbsWf.died (h : PcbsWf s) (hid : id ≠ idlePcb) : PcbsWf (s.died id p) := by
  have hdead : PcbsWf ((s.setPcb id { p with state := .dead }).push .dead id) := by
    exact h.setPcb { p with state := .dead } hp rfl nofun (fun hidle ↦ absurd hidle hid) rfl rfl rfl
  exact hdead.wakeFor p.pid

omit hp hplaced in
theorem died_run {q : Pcb} (hq : (s.died id p).pcbs id' = some q) (hrun : q.state = .run) :
    id' ≠ id ∧ s.pcbs id' = some q := by
  obtain ⟨q₀, hq₀, ⟨-, rfl⟩ | ⟨-, rfl⟩⟩ := wakeFor_pcbs hq
  · rcases update_apply_eq_iff.1 hq₀ with ⟨-, ⟨⟩⟩ | hold
    · cases hrun
    · exact hold
  · cases hrun

omit hp hplaced in
theorem died_live (h : s.pcbs id' ≠ none) : (s.died id p).pcbs id' ≠ none := by
  apply wakeFor_live
  change update s.pcbs id _ id' ≠ none
  by_cases hid : id' = id
  · rw [hid, update_self]
    exact nofun
  · rwa [update_of_ne hid]

end Died

end CapstoneKernel.Sched
