import CapstoneKernel.Lib.IntrusiveList
import CapstoneKernel.Sched.Invariant

/-!
# The linked lists behind the queues

`list.c` keeps a queue as a doubly linked list of nodes that point to the PCBs.  `calloc` returns a
node that is not in use, chosen in any way by `alloc`.  A freed node loses its links, which nothing
reads before `calloc` clears them.  The loops take a bound on the number of their rounds.
-/

namespace CapstoneKernel.Sched

open Execution Function IntrusiveList List

/-- The nodes and the lists; `links` and `ptr` are the fields of the nodes. -/
structure Lists where
  live : Finset ℕ
  links : Links ℕ
  ptr : ℕ → ℕ
  head : Queue → Option ℕ
  tail : Queue → Option ℕ

namespace Lists

variable (alloc : Finset ℕ → ℕ)

def listPush (l : Lists) (q : Queue) (ptr : ℕ) : Lists :=
  let tmp := alloc l.live
  let zeroed := (l.links.setPrev tmp none).setNext tmp none
  { live := insert tmp l.live
    links := zeroed.pushBack (l.tail q) tmp
    ptr := update l.ptr tmp ptr
    head := update l.head q (if l.tail q = none then some tmp else l.head q)
    tail := update l.tail q (some tmp) }

def listPop (l : Lists) (q : Queue) : Option ℕ × Lists :=
  match l.head q with
  | none => (none, l)
  | some head =>
    let closed := match l.links.next head with
      | some after => l.links.setPrev after none
      | none => l.links
    (some (l.ptr head), { l with
      live := l.live.erase head
      links := (closed.setPrev head none).setNext head none
      head := update l.head q (l.links.next head)
      tail := update l.tail q (if l.links.next head = none then none else l.tail q) })

/-- A node leaves its list and is freed, in `list_delete` and in `list_rm_and_process`. -/
def remove (l : Lists) (q : Queue) (tmp : ℕ) : Lists :=
  { l with
    live := l.live.erase tmp
    links := l.links.unlink tmp
    head := update l.head q (if l.links.prev tmp = none then l.links.next tmp else l.head q)
    tail := update l.tail q (if l.links.next tmp = none then l.links.prev tmp else l.tail q) }

/-- The loop of `list_delete`. -/
def findNode (l : Lists) (ptr : ℕ) : ℕ → Option ℕ → Option ℕ
  | fuel + 1, some tmp =>
    if l.ptr tmp = ptr then some tmp else findNode l ptr fuel (l.links.next tmp)
  | _, _ => none

def listDelete (l : Lists) (q : Queue) (ptr fuel : ℕ) : Lists :=
  match l.findNode ptr fuel (l.head q) with
  | some tmp => l.remove q tmp
  | none => l

/-- The loop of `list_rm_and_process` with `match_pid` and `wait_to_ready`. -/
def listRmAndProcess (pid : ℕ) : Lists → ℕ → Option ℕ → State → Except Fault (Lists × State)
  | l, fuel + 1, some tmp, s => do
    let next := l.links.next tmp
    let p ← s.pcb (l.ptr tmp)
    if p.waitData % 2 ^ 32 = pid then
      let s ← waitToReady s (l.ptr tmp)
      let l := l.listPush alloc .ready (l.ptr tmp)
      listRmAndProcess pid (l.remove (.wait .proc) tmp) fuel next s
    else listRmAndProcess pid l fuel next s
  | l, _, _, s => .ok (l, s)

end Lists

/-- The list of a queue has these nodes, which point to these PCBs. -/
structure ListAt (l : Lists) (q : Queue) (nodes ids : List ℕ) : Prop where
  isList : IsList l.links (l.head q) nodes
  tail : l.tail q = nodes.getLast?
  ptrs : nodes.map l.ptr = ids
  live : ∀ x ∈ nodes, x ∈ l.live

/-- Every queue has its list, and no two lists have a node in common. -/
structure Represents (l : Lists) (nodes queue : Queue → List ℕ) : Prop where
  list : ∀ q, ListAt l q (nodes q) (queue q)
  disjoint : Pairwise fun q q' ↦ (nodes q).Disjoint (nodes q')

namespace Represents

variable {l l' : Lists} {nodes queue : Queue → List ℕ} {q : Queue} {alloc : Finset ℕ → ℕ}
  {tmp id fuel : ℕ} {front back rest ns done ids : List ℕ} (h : Represents l nodes queue)

include h

theorem update_list (hnew : ListAt l' q ns ids) (hapart : ∀ q' ≠ q, ns.Disjoint (nodes q'))
    (hrest : ∀ q' ≠ q, ListAt l' q' (nodes q') (queue q')) :
    Represents l' (update nodes q ns) (update queue q ids) := by
  refine ⟨fun q' ↦ ?_, fun q₁ q₂ hne ↦ ?_⟩
  · rcases eq_or_ne q' q with rfl | hq'
    · rwa [update_self, update_self]
    · rw [update_of_ne hq', update_of_ne hq']
      exact hrest q' hq'
  · rcases eq_or_ne q₁ q with rfl | h₁
    · rw [update_self, update_of_ne hne.symm]
      exact hapart q₂ hne.symm
    · rw [update_of_ne h₁]
      rcases eq_or_ne q₂ q with rfl | h₂
      · rw [update_self]
        exact (hapart q₁ h₁).symm
      · rw [update_of_ne h₂]
        exact h.disjoint hne

theorem listPush (halloc : ∀ live, alloc live ∉ live) (q : Queue) (ptr : ℕ) :
    Represents (l.listPush alloc q ptr) (update nodes q (nodes q ++ [alloc l.live]))
      (update queue q (queue q ++ [ptr])) := by
  have hfresh (q : Queue) : alloc l.live ∉ nodes q := fun hx ↦ halloc _ ((h.list q).live _ hx)
  have hne {q : Queue} {x : ℕ} (hx : x ∈ nodes q) : x ≠ alloc l.live := fun heq ↦
    hfresh q (heq ▸ hx)
  have hzeroed (q : Queue) : IsList ((l.links.setPrev (alloc l.live) none).setNext (alloc l.live)
      none) (l.head q) (nodes q) :=
    (h.list q).isList.congr fun x hx ↦ ⟨update_of_ne (hne hx) .., update_of_ne (hne hx) ..⟩
  have hptrs (q : Queue) : (nodes q).map (update l.ptr (alloc l.live) ptr) = queue q :=
    (map_congr_left fun x hx ↦ update_of_ne (hne hx) ..).trans (h.list q).ptrs
  have hlive (q : Queue) (x : ℕ) (hx : x ∈ nodes q) : x ∈ insert (alloc l.live) l.live :=
    Finset.mem_insert_of_mem ((h.list q).live x hx)
  have htail := (h.list q).tail
  refine h.update_list ⟨?_, ?_, ?_, ?_⟩ (fun q' hq' ↦ disjoint_append_left.2
    ⟨h.disjoint hq'.symm, singleton_disjoint.2 (hfresh q')⟩) fun q' hq' ↦ ⟨?_, ?_, hptrs q', hlive q'⟩
  · have hhead : (if (nodes q).getLast? = none then some (alloc l.live) else l.head q) =
        (nodes q ++ [alloc l.live]).head? := by
      rw [(h.list q).isList.head_eq]
      cases nodes q <;> simp
    simp only [Lists.listPush, update_self, htail, hhead]
    exact (hzeroed q).pushBack (hfresh q) (update_self ..)
  · rw [getLast?_concat]
    exact update_self ..
  · rw [map_append, map_singleton]
    exact congrArg₂ _ (hptrs q) (congrArg (fun y ↦ [y]) (update_self ..))
  · exact forall_mem_append.2 ⟨hlive q, forall_mem_singleton.2 (Finset.mem_insert_self ..)⟩
  · simp only [Lists.listPush, update_of_ne hq']
    exact (hzeroed q').pushBack_frame (hfresh q') fun old hold ↦
      h.disjoint hq'.symm (mem_of_getLast? (htail.symm.trans hold))
  · exact (update_of_ne hq' ..).trans (h.list q').tail

/-- The nodes and the PCBs behind as many of them. -/
theorem split (hnodes : nodes q = front ++ rest) (hqueue : queue q = done ++ ids)
    (hlength : front.length = done.length) : front.map l.ptr = done ∧ rest.map l.ptr = ids := by
  have hptrs := (h.list q).ptrs
  rw [hnodes, hqueue, map_append] at hptrs
  exact append_inj hptrs (by rwa [length_map])

theorem remove (hnodes : nodes q = front ++ tmp :: back) (hqueue : queue q = done ++ id :: ids)
    (hlength : front.length = done.length) :
    Represents (l.remove q tmp) (update nodes q (front ++ back)) (update queue q (done ++ ids)) := by
  obtain ⟨hlist, htail, -, hlive⟩ := h.list q
  have hmem : tmp ∈ nodes q := hnodes ▸ mem_append_right _ mem_cons_self
  obtain ⟨hprev, hnext⟩ := (hnodes ▸ hlist).neighbours
  have hnot := (nodup_cons.1 (nodup_middle.1 (hnodes ▸ hlist.nodup))).1
  have herase : (nodes q).erase tmp = front ++ back := by
    rw [hnodes, erase_append_right _ fun hfront ↦ hnot (mem_append_left _ hfront), erase_cons_head]
  have hsub : front ++ back ⊆ nodes q := herase ▸ erase_subset
  refine h.update_list ⟨?_, ?_, ?_, fun x hx ↦ ?_⟩ (fun q' hq' ↦
    disjoint_of_subset_left hsub (h.disjoint hq'.symm)) fun q' hq' ↦ ⟨?_, ?_, (h.list q').ptrs,
    fun x hx ↦ ?_⟩
  · have hhead : (if l.links.prev tmp = none then l.links.next tmp else l.head q) =
        (front ++ back).head? := by
      rw [hprev, hnext, hlist.head_eq, hnodes]
      cases front <;> simp
    have hunlink := hlist.unlink hmem
    rw [hunlink.head_eq, herase] at hunlink
    simpa only [Lists.remove, update_self, hhead] using hunlink
  · simp only [Lists.remove, update_self, hprev, hnext, htail, hnodes]
    cases back <;> simp
  · obtain ⟨hfront, hback⟩ := h.split hnodes hqueue hlength
    rw [map_append]
    exact congrArg₂ _ hfront (cons.inj hback).2
  · exact Finset.mem_erase.2 ⟨fun heq ↦ hnot (heq ▸ hx), hlive x (hsub hx)⟩
  · simp only [Lists.remove, update_of_ne hq']
    exact hlist.unlink_frame hmem (h.list q').isList fun x hx ↦ h.disjoint hq'.symm hx
  · exact (update_of_ne hq' ..).trans (h.list q').tail
  · exact Finset.mem_erase.2 ⟨fun heq ↦ h.disjoint hq'.symm hmem (heq ▸ hx), (h.list q').live x hx⟩

theorem listPop (q : Queue) : (l.listPop q).1 = (queue q).head? ∧
    ∃ nodes', Represents (l.listPop q).2 nodes' (update queue q (queue q).tail) := by
  obtain ⟨hlist, -, hptrs, -⟩ := h.list q
  have hhead := hlist.head_eq
  cases hnodes : nodes q with
  | nil =>
    rw [hnodes] at hptrs hhead
    rw [Lists.listPop, hhead, update_eq_self_iff.2 (hptrs ▸ rfl)]
    exact ⟨hptrs ▸ rfl, nodes, h⟩
  | cons tmp back =>
    rw [hnodes] at hptrs hhead
    have hsplit : nodes q = [] ++ tmp :: back := hnodes
    have hprev : l.links.prev tmp = none := (hsplit ▸ hlist).neighbours.1
    have hpop : l.listPop q = (some (l.ptr tmp), l.remove q tmp) := by
      simp only [Lists.listPop, hhead, head?_cons, Lists.remove, Links.unlink, hprev, if_true]
      cases l.links.next tmp <;> rfl
    rw [hpop, ← hptrs]
    exact ⟨rfl, _, h.remove hsplit (hptrs.symm : _ = [] ++ _ :: _) rfl⟩

theorem findNode (ptr : ℕ) (hnodes : nodes q = front ++ rest) (hfuel : rest.length ≤ fuel) :
    l.findNode ptr fuel rest.head? = rest.find? fun tmp ↦ l.ptr tmp = ptr := by
  induction rest generalizing front fuel with
  | nil => cases fuel <;> rfl
  | cons tmp rest ih =>
    obtain ⟨fuel, rfl⟩ := Nat.exists_eq_add_one_of_ne_zero (Nat.ne_zero_of_lt hfuel)
    have hnext := (hnodes ▸ (h.list q).isList).neighbours.2
    rw [head?_cons, Lists.findNode, find?_cons, hnext]
    by_cases heq : l.ptr tmp = ptr
    · simp [heq]
    · simpa [heq] using ih (hnodes.trans (append_cons ..)) (Nat.le_of_succ_le_succ hfuel)

theorem listDelete (q : Queue) (id : ℕ) (hfuel : (queue q).length ≤ fuel) :
    ∃ nodes', Represents (l.listDelete q id fuel) nodes' (update queue q ((queue q).erase id)) := by
  obtain ⟨hlist, -, hptrs, -⟩ := h.list q
  rw [← hptrs, length_map] at hfuel
  rw [Lists.listDelete, hlist.head_eq, h.findNode id (nil_append _).symm hfuel]
  cases hfind : (nodes q).find? fun tmp ↦ l.ptr tmp = id with
  | none =>
    have hnot : id ∉ queue q := by simpa [← hptrs] using hfind
    rw [erase_of_not_mem hnot, update_eq_self]
    exact ⟨nodes, h⟩
  | some tmp =>
    obtain ⟨hid, front, back, hnodes, hfront⟩ := find?_eq_some_iff_append.1 hfind
    rw [hnodes, map_append, map_cons] at hptrs
    have herase : (queue q).erase id = front.map l.ptr ++ back.map l.ptr := by
      rw [← hptrs, erase_append_right _ (by simpa using hfront), of_decide_eq_true hid,
        erase_cons_head]
    exact herase ▸ ⟨_, h.remove hnodes hptrs.symm (length_map l.ptr).symm⟩

omit h in
/-- `list_rm_and_process` takes the processes from the list that the loop of the machine takes. -/
theorem listRmAndProcess (halloc : ∀ live, alloc live ∉ live) {s s' : State} {pid : ℕ}
    {kept : List ℕ} (h : Represents l nodes (update s.queue (.wait .proc) (done ++ ids)))
    (hnodes : nodes (.wait .proc) = front ++ rest) (hlength : front.length = done.length)
    (hrun : rmAndProcess pid ids s = .ok (kept, s')) (hfuel : ids.length ≤ fuel) :
    ∃ l' nodes', l.listRmAndProcess alloc pid fuel rest.head? s = .ok (l', s') ∧
      Represents l' nodes' (update s'.queue (.wait .proc) (done ++ kept)) := by
  have hne : Queue.wait .proc ≠ .ready := nofun
  induction ids generalizing l nodes s front rest done fuel kept with
  | nil =>
    obtain rfl := map_eq_nil_iff.1 (h.split hnodes (update_self ..) hlength).2
    cases hrun
    cases fuel <;> exact ⟨l, nodes, rfl, h⟩
  | cons id ids ih =>
    obtain ⟨fuel, rfl⟩ := Nat.exists_eq_add_one_of_ne_zero (Nat.ne_zero_of_lt hfuel)
    have hrounds := Nat.le_of_succ_le_succ hfuel
    obtain ⟨tmp, rest, rfl, rfl, -⟩ :=
      map_eq_cons_iff.1 (h.split hnodes (update_self ..) hlength).2
    have hnext := (hnodes ▸ (h.list (.wait .proc)).isList).neighbours.2
    obtain ⟨p, hp, hrun⟩ := of_bind_eq_ok hrun
    rw [head?_cons, Lists.listRmAndProcess, hnext, hp, ok_bind]
    split at hrun
    · next hwaits =>
      obtain ⟨t, ht, hrun⟩ := of_bind_eq_ok hrun
      have hqueue : t.queue = update s.queue .ready (s.queue .ready ++ [l.ptr tmp]) := by
        obtain ⟨_, -, ht⟩ := of_bind_eq_ok ht
        cases ht
        rfl
      have hremove := (h.listPush halloc .ready (l.ptr tmp)).remove (q := .wait .proc) hnodes
        (update_self (Queue.wait .proc) _ s.queue :) hlength
      rw [update_comm hne, update_idem, update_of_ne hne.symm, ← hqueue] at hremove
      rw [if_pos hwaits, ht, ok_bind]
      exact ih hremove (update_self ..) hlength hrun hrounds
    · next hwaits =>
      obtain ⟨⟨kept, t⟩, hrun, ht⟩ := of_bind_eq_ok hrun
      cases ht
      rw [append_cons] at h hnodes
      rw [if_neg hwaits, append_cons]
      exact ih h hnodes (by simpa) hrun hrounds

end Represents

/-- What the scheduler does to its queues is done to the lists by the functions of `list.c`. -/
theorem lists_follow_queues {alloc : Finset ℕ → ℕ} (halloc : ∀ live, alloc live ∉ live) {l : Lists}
    {nodes : Queue → List ℕ} {s : State} (h : Represents l nodes s.queue) {fuel : ℕ}
    (hfuel : ∀ q, (s.queue q).length ≤ fuel) :
    (∀ q id, ∃ nodes', Represents (l.listPush alloc q id) nodes' (s.push q id).queue) ∧
    (∀ q, (l.listPop q).1 = (s.queue q).head? ∧
      ∃ nodes', Represents (l.listPop q).2 nodes' (s.popped q).queue) ∧
    (∀ q id, ∃ nodes', Represents (l.listDelete q id fuel) nodes' (s.delete q id).queue) ∧
    ∀ pid s', wakeWaiters s pid = .ok s' → ∃ l' t nodes',
      l.listRmAndProcess alloc pid fuel (l.head (.wait .proc)) s = .ok (l', t) ∧
        s' = { t with queue := s'.queue } ∧ Represents l' nodes' s'.queue := by
  refine ⟨fun q id ↦ ⟨_, h.listPush halloc q id⟩, h.listPop, fun q id ↦ h.listDelete q id (hfuel q),
    fun pid s' hrun ↦ ?_⟩
  obtain ⟨⟨kept, t⟩, hkept, hs'⟩ := of_bind_eq_ok hrun
  cases hs'
  rw [(h.list _).isList.head_eq]
  have h' : Represents l nodes (update s.queue (.wait .proc) ([] ++ s.queue (.wait .proc))) := by
    rwa [nil_append, update_eq_self]
  obtain ⟨l', nodes', hloop, hlists⟩ :=
    h'.listRmAndProcess halloc (nil_append _).symm rfl hkept (hfuel _)
  exact ⟨l', t, nodes', hloop, rfl, hlists⟩

example :
    let l : Lists := ⟨∅, ⟨fun _ ↦ none, fun _ ↦ none⟩, fun _ ↦ 0, fun _ ↦ none, fun _ ↦ none⟩
    let l := [7, 8, 9].foldl (Lists.listPush Finset.card · .ready) l
    ((l.listDelete .ready 8 3).listPop .ready).2.listPop .ready |>.1 = some 9 := by decide

end CapstoneKernel.Sched
