import Mathlib

/-!
# Intrusive doubly linked lists

Nodes of an arbitrary type carry a `prev` and a `next` link, and a list is known only by its
head pointer; `none` is the null pointer.  `IsList links head nodes` says that following `next`
from `head` visits exactly `nodes`, in order and without repetition, and that every `prev` link
is the reverse of the `next` link that leads to its node.

The mutators are the usual ones: `pushFront` and `pushBack` hang a detached node before the head
or behind the last node, and `unlink` takes a node out of whichever list it is on.  All come with
a preservation rule and a frame rule for the lists they do not touch.
-/

namespace CapstoneKernel.IntrusiveList

open Function List Option

/-- The link fields of a pool of nodes. -/
structure Links (ι : Type*) where
  prev : ι → Option ι
  next : ι → Option ι

namespace Links

variable {ι : Type*} [DecidableEq ι] (links : Links ι) (node : ι) (target : Option ι)

/-- Overwrite one `prev` field. -/
def setPrev : Links ι := { links with prev := update links.prev node target }

/-- Overwrite one `next` field. -/
def setNext : Links ι := { links with next := update links.next node target }

@[simp] theorem setPrev_next : (links.setPrev node target).next = links.next := rfl

@[simp] theorem setNext_prev : (links.setNext node target).prev = links.prev := rfl

@[simp] theorem setPrev_prev :
    (links.setPrev node target).prev = update links.prev node target := rfl

@[simp] theorem setNext_next :
    (links.setNext node target).next = update links.next node target := rfl

/-- A node that is on no list. -/
def Detached : Prop := links.prev node = none ∧ links.next node = none

/-- Hang `node` before the current head. -/
def pushFront (head : Option ι) (node : ι) : Links ι :=
  (match head with
    | some old => links.setPrev old (some node)
    | none => links).setNext node head

/-- The links of the lists read from their ends. -/
def reversed (links : Links ι) : Links ι := ⟨links.next, links.prev⟩

/-- Hang `node` behind the current last node. -/
def pushBack (last : Option ι) (node : ι) : Links ι :=
  (links.reversed.pushFront last node).reversed

/-- Take `node` out of its list and reset its own links. -/
def unlink (links : Links ι) (node : ι) : Links ι :=
  let bypassed := match links.prev node with
    | some before => links.setNext before (links.next node)
    | none => links
  let closed := match links.next node with
    | some after => bypassed.setPrev after (links.prev node)
    | none => bypassed
  (closed.setPrev node none).setNext node none

end Links

variable {ι : Type*}

/-- The chain from `head`, whose first node has `before` as its `prev` link, is `nodes`. -/
def Linked (links : Links ι) : Option ι → Option ι → List ι → Prop
  | _, head, [] => head = none
  | before, head, node :: rest =>
    head = some node ∧ links.prev node = before ∧ Linked links (some node) (links.next node) rest

/-- A well-formed list: correctly linked from its head and free of repetitions. -/
structure IsList (links : Links ι) (head : Option ι) (nodes : List ι) : Prop where
  linked : Linked links none head nodes
  nodup : nodes.Nodup

/-- In a chain the links of a node are its neighbours. -/
theorem linked_iff {links : Links ι} {before head : Option ι} {nodes : List ι} :
    Linked links before head nodes ↔ head = nodes.head? ∧ ∀ front node back,
      nodes = front ++ node :: back →
        links.prev node = front.getLast?.or before ∧ links.next node = back.head? := by
  induction nodes generalizing before head with
  | nil => simp [Linked]
  | cons first rest ih =>
    have hlast (front : List ι) :
        (first :: front).getLast?.or before = front.getLast?.or (some first) := by
      rw [getLast?_cons, some_or]
      cases front.getLast? <;> rfl
    constructor
    · rintro ⟨hhead, hprev, hrest⟩
      obtain ⟨hnext, hsplit⟩ := ih.1 hrest
      refine ⟨hhead, fun front node back heq ↦ ?_⟩
      cases front with
      | nil =>
        obtain ⟨rfl, rfl⟩ := cons.inj heq
        exact ⟨hprev, hnext⟩
      | cons x front =>
        obtain ⟨rfl, rfl⟩ := cons.inj heq
        rw [hlast]
        exact hsplit front node back rfl
    · rintro ⟨hhead, hsplit⟩
      obtain ⟨hprev, hnext⟩ := hsplit [] first rest rfl
      refine ⟨hhead, hprev, ih.2 ⟨hnext, fun front node back heq ↦ ?_⟩⟩
      rw [← hlast]
      exact hsplit (first :: front) node back (congrArg (cons first) heq)

variable {links links' : Links ι} {head other : Option ι} {nodes front back : List ι} {node x : ι}

theorem isList_of_neighbours (hnodup : nodes.Nodup) (hnodes : ∀ x ∈ nodes, ∃ front back,
      nodes = front ++ x :: back ∧ links.prev x = front.getLast? ∧ links.next x = back.head?) :
    IsList links nodes.head? nodes := by
  refine ⟨linked_iff.2 ⟨rfl, fun front x back heq ↦ ?_⟩, hnodup⟩
  obtain ⟨front', back', rfl, hx⟩ := hnodes x (heq ▸ mem_append_right _ mem_cons_self)
  -- In a list without repetitions a node stands at one place.
  obtain ⟨-, hback, hfront⟩ := nodup_append.1 hnodup
  obtain ⟨rfl, -, rfl⟩ := (append_cons_inj_of_notMem
    (fun hmem ↦ hfront x hmem x mem_cons_self rfl) (nodup_cons.1 hback).1).1 heq
  rwa [or_none]

namespace IsList

section

variable (h : IsList links head nodes)
include h

theorem head_eq : head = nodes.head? := (linked_iff.1 h.linked).1

omit h in
theorem neighbours (h : IsList links head (front ++ node :: back)) :
    links.prev node = front.getLast? ∧ links.next node = back.head? := by
  simpa using (linked_iff.1 h.linked).2 front node back rfl

/-- A `next` link inside a list leads to another node of the list. -/
theorem next_mem (hmem : node ∈ nodes) (hnext : links.next node = some x) : x ∈ nodes := by
  obtain ⟨front, back, rfl⟩ := append_of_mem hmem
  rw [h.neighbours.2] at hnext
  exact mem_append_right _ (mem_cons_of_mem _ (mem_of_mem_head? hnext))

/-- A `prev` link inside a list leads to another node of the list. -/
theorem prev_mem (hmem : node ∈ nodes) (hprev : links.prev node = some x) : x ∈ nodes := by
  obtain ⟨front, back, rfl⟩ := append_of_mem hmem
  rw [h.neighbours.1] at hprev
  exact mem_append_left _ (mem_of_getLast? hprev)

/-- Only the links of the listed nodes matter. -/
theorem congr (hsame : ∀ x ∈ nodes, links'.prev x = links.prev x ∧ links'.next x = links.next x) :
    IsList links' head nodes := by
  rw [h.head_eq]
  refine isList_of_neighbours h.nodup fun x hx ↦ ?_
  obtain ⟨front, back, rfl⟩ := append_of_mem hx
  rw [(hsame x hx).1, (hsame x hx).2]
  exact ⟨front, back, rfl, h.neighbours⟩

theorem reversed : IsList links.reversed nodes.getLast? nodes.reverse := by
  rw [← head?_reverse]
  refine isList_of_neighbours (nodup_reverse.2 h.nodup) fun x hx ↦ ?_
  obtain ⟨front, back, rfl⟩ := append_of_mem (mem_reverse.1 hx)
  refine ⟨back.reverse, front.reverse, by simp, ?_, ?_⟩
  · rw [getLast?_reverse]
    exact h.neighbours.2
  · rw [head?_reverse]
    exact h.neighbours.1

end

variable [DecidableEq ι]

/-- The nodes between `front` and `back` are replaced by `new`. -/
theorem splice {old new : List ι} (h : IsList links head (front ++ old ++ back))
    (hnodup : (front ++ new ++ back).Nodup)
    (hprev : ∀ x ∈ front ++ back, links'.prev x =
      if back.head? = some x then (front ++ new).getLast? else links.prev x)
    (hnext : ∀ x ∈ front ++ back, links'.next x =
      if front.getLast? = some x then (new ++ back).head? else links.next x)
    (hnew : ∀ x ∈ new, ∃ front' back', new = front' ++ x :: back' ∧
      links'.prev x = (front ++ front').getLast? ∧ links'.next x = (back' ++ back).head?) :
    IsList links' (front ++ new ++ back).head? (front ++ new ++ back) := by
  refine isList_of_neighbours hnodup fun x hx ↦ ?_
  rw [append_assoc, mem_append, mem_append] at hx
  rcases hx with hx | hx | hx
  · rw [hprev x (mem_append_left _ hx), hnext x (mem_append_left _ hx)]
    obtain ⟨start, rest, rfl⟩ := append_of_mem hx
    simp only [append_assoc, cons_append] at h hnodup
    have hnot := (nodup_cons.1 (nodup_append.1 hnodup).2.1).1
    refine ⟨start, rest ++ (new ++ back), by simp, ?_, ?_⟩
    · rw [if_neg fun hhead ↦ hnot (by simp [mem_of_mem_head? hhead]), h.neighbours.1]
    · cases rest with
      | nil => simp
      | cons y rest =>
        rw [getLast?_append_of_ne_nil _ (by simp), getLast?_cons_cons,
          if_neg fun hlast ↦ hnot (mem_append_left _ (mem_of_getLast? hlast)), h.neighbours.2]
        rfl
  · obtain ⟨front', back', rfl, hlinks⟩ := hnew x hx
    exact ⟨front ++ front', back' ++ back, by simp, hlinks⟩
  · rw [hprev x (mem_append_right _ hx), hnext x (mem_append_right _ hx)]
    obtain ⟨start, rest, rfl⟩ := append_of_mem hx
    rw [← append_assoc] at h hnodup
    have hnot (hmem : x ∈ front ++ new ++ start) : False :=
      (nodup_append.1 hnodup).2.2 x hmem x mem_cons_self rfl
    refine ⟨front ++ new ++ start, rest, by simp, ?_, ?_⟩
    · cases start with
      | nil => simp
      | cons y start =>
        rw [cons_append, head?_cons, if_neg fun hhead ↦ hnot (by simp [Option.some.inj hhead]),
          h.neighbours.1, getLast?_append_of_ne_nil _ (cons_ne_nil _ _),
          getLast?_append_of_ne_nil _ (cons_ne_nil _ _)]
    · rw [if_neg fun hlast ↦ hnot (by simp [mem_of_getLast? hlast]), h.neighbours.2]

end IsList

section Mutators

variable [DecidableEq ι]

theorem pushFront_prev (x : ι) :
    (links.pushFront head node).prev x = if head = some x then some node else links.prev x := by
  cases head <;> simp [Links.pushFront, update_apply, eq_comm]

theorem pushFront_next (x : ι) :
    (links.pushFront head node).next x = if x = node then head else links.next x := by
  cases head <;> simp [Links.pushFront, update_apply]

theorem unlink_prev (x : ι) : (links.unlink node).prev x = if x = node then none else
    if links.next node = some x then links.prev node else links.prev x := by
  unfold Links.unlink
  cases links.prev node <;> cases links.next node <;> simp [update_apply, eq_comm]

theorem unlink_next (x : ι) : (links.unlink node).next x = if x = node then none else
    if links.prev node = some x then links.next node else links.next x := by
  unfold Links.unlink
  cases links.prev node <;> cases links.next node <;> simp [update_apply, eq_comm]

namespace IsList

/-- Hanging a fresh node whose `prev` link is null before the head gives the extended list. -/
theorem pushFront (h : IsList links head nodes) (hfresh : node ∉ nodes)
    (hprev : links.prev node = none) :
    IsList (links.pushFront head node) (some node) (node :: nodes) := by
  have hhead := h.head_eq
  refine @splice _ links _ head [] nodes _ [] [node] h (nodup_cons.2 ⟨hfresh, h.nodup⟩)
    (fun x hx ↦ ?_) (fun x hx ↦ ?_) fun x hx ↦ ?_
  · rw [pushFront_prev, hhead]
    rfl
  · have hne : x ≠ node := fun heq ↦ hfresh (heq ▸ hx)
    rw [pushFront_next, if_neg hne]
    rfl
  · obtain rfl := mem_singleton.1 hx
    have hold : head ≠ some x := fun heq ↦ hfresh (mem_of_mem_head? (hhead.symm.trans heq))
    refine ⟨[], [], rfl, ?_, ?_⟩
    · rw [pushFront_prev, if_neg hold, hprev]
      rfl
    · rw [pushFront_next, if_pos rfl, hhead]
      rfl

/-- A list whose nodes are neither the pushed node nor the old head is left alone. -/
theorem pushFront_frame (h : IsList links other nodes) (hfresh : node ∉ nodes)
    (hhead : ∀ old, head = some old → old ∉ nodes) :
    IsList (links.pushFront head node) other nodes := by
  refine h.congr fun x hx ↦ ?_
  have hne : x ≠ node := fun heq ↦ hfresh (heq ▸ hx)
  rw [pushFront_prev, pushFront_next, if_neg fun heq ↦ hhead x heq hx, if_neg hne]
  exact ⟨rfl, rfl⟩

/-- Hanging a fresh node whose `next` link is null behind the last one gives the extended list. -/
theorem pushBack (h : IsList links head nodes) (hfresh : node ∉ nodes)
    (hnext : links.next node = none) :
    IsList (links.pushBack nodes.getLast? node) (nodes ++ [node]).head? (nodes ++ [node]) := by
  have hback := (h.reversed.pushFront (mt mem_reverse.1 hfresh) hnext).reversed
  rw [reverse_cons, reverse_reverse] at hback
  rwa [← hback.head_eq]

/-- A list whose nodes are neither the pushed node nor the old last one is left alone. -/
theorem pushBack_frame {last : Option ι} (h : IsList links other nodes) (hfresh : node ∉ nodes)
    (hlast : ∀ old, last = some old → old ∉ nodes) :
    IsList (links.pushBack last node) other nodes := by
  have hframe := (h.reversed.pushFront_frame (mt mem_reverse.1 hfresh)
    fun old hold ↦ mt mem_reverse.1 (hlast old hold)).reversed
  rwa [getLast?_reverse, reverse_reverse, ← h.head_eq] at hframe

/-- Unlinking a node of a list erases exactly that node. -/
theorem unlink (h : IsList links head nodes) (hmem : node ∈ nodes) :
    IsList (links.unlink node) (if head = some node then links.next node else head)
      (nodes.erase node) := by
  obtain ⟨front, back, rfl⟩ := append_of_mem hmem
  obtain ⟨-, hback, hdisjoint⟩ := nodup_append.1 h.nodup
  have hfront (hx : node ∈ front) : False := hdisjoint node hx node mem_cons_self rfl
  have hne {x : ι} (hx : x ∈ front ++ back) : x ≠ node := by
    rintro rfl
    exact (mem_append.1 hx).elim hfront (nodup_cons.1 hback).1
  obtain ⟨hprev, hnext⟩ := h.neighbours
  have hnodes := @splice _ links (links.unlink node) head front back _ [node] [] (by simpa using h)
    (by simpa [erase_append_right _ hfront] using h.nodup.erase node)
    (fun x hx ↦ by rw [unlink_prev, if_neg (hne hx), hprev, hnext, append_nil])
    (fun x hx ↦ by rw [unlink_next, if_neg (hne hx), hprev, hnext]; rfl) (by simp)
  rw [append_nil] at hnodes
  rw [erase_append_right _ hfront, erase_cons_head, hnext, h.head_eq]
  cases front with
  | nil => simpa using hnodes
  | cons y front => simpa [hne (x := y) (by simp)] using hnodes

/-- Unlinking a node of one list leaves every disjoint list alone. -/
theorem unlink_frame {others : List ι} (h : IsList links head nodes) (hmem : node ∈ nodes)
    (hother : IsList links other others) (hdisjoint : ∀ x ∈ nodes, x ∉ others) :
    IsList (links.unlink node) other others := by
  refine hother.congr fun x hx ↦ ?_
  have hne : x ≠ node := fun heq ↦ hdisjoint node hmem (heq ▸ hx)
  rw [unlink_prev, unlink_next, if_neg hne, if_neg hne,
    if_neg fun hnext ↦ hdisjoint x (h.next_mem hmem hnext) hx,
    if_neg fun hprev ↦ hdisjoint x (h.prev_mem hmem hprev) hx]
  exact ⟨rfl, rfl⟩

end IsList

end Mutators

end CapstoneKernel.IntrusiveList
