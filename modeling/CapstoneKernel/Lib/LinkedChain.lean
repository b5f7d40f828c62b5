import Mathlib

/-!
# Singly linked chains

A chain is a list of nodes threaded through a `next` field and ending in a null pointer.  `Chain`
relates the head pointer to the nodes in order.  Appending and removing a node change the field of
one predecessor, which is the last node before the place of the change.
-/

namespace CapstoneKernel.LinkedChain

open List Option

variable {ι : Type*} {next next' : ι → Option ι} {head : Option ι} {nodes front back : List ι} {x : ι}

/-- The nodes reached from `head` along `next`, up to the null pointer. -/
def Chain (next : ι → Option ι) : Option ι → List ι → Prop
  | head, [] => head = none
  | head, x :: rest => head = some x ∧ Chain next (next x) rest

instance Chain.decidable [DecidableEq ι] (next : ι → Option ι) :
    ∀ (head : Option ι) (nodes : List ι), Decidable (Chain next head nodes)
  | head, [] => inferInstanceAs (Decidable (head = none))
  | head, x :: rest =>
    have := Chain.decidable next (next x) rest
    inferInstanceAs (Decidable (head = some x ∧ Chain next (next x) rest))

theorem Chain.congr (h : Chain next head nodes) (heq : ∀ y ∈ nodes, next' y = next y) :
    Chain next' head nodes := by
  induction nodes generalizing head with
  | nil => exact h
  | cons y rest ih =>
    refine ⟨h.1, ?_⟩
    rw [heq y mem_cons_self]
    exact ih h.2 (fun z hz ↦ heq z (mem_cons_of_mem y hz))

theorem Chain.unique {nodes' : List ι} (h : Chain next head nodes) (h' : Chain next head nodes') :
    nodes = nodes' := by
  induction nodes generalizing head nodes' with
  | nil =>
    cases nodes' with
    | nil => rfl
    | cons y rest => exact absurd (h.symm.trans h'.1) nofun
  | cons x nodes ih =>
    cases nodes' with
    | nil => exact absurd (h'.symm.trans h.1) nofun
    | cons y rest =>
      obtain rfl := mem_unique h.1 h'.1
      rw [ih h.2 h'.2]

/-- The field of a node that is not on the chain can be changed. -/
theorem Chain.update [DecidableEq ι] (h : Chain next head nodes) (hx : x ∉ nodes) (target : Option ι) :
    Chain (Function.update next x target) head nodes :=
  h.congr (fun y hy ↦ Function.update_of_ne (fun heq : y = x ↦ hx (heq ▸ hy)) _ _)

/-- The fields after the pointer behind `prev` is set; without a predecessor it is the head. -/
def setLink [DecidableEq ι] (next : ι → Option ι) (prev target : Option ι) : ι → Option ι :=
  match prev with
  | none => next
  | some last => Function.update next last target

/-- The head after the pointer behind `prev` is set. -/
def setHead (head prev target : Option ι) : Option ι :=
  match prev with
  | none => target
  | some _ => head

theorem setLink_of_ne [DecidableEq ι] {prev : Option ι} (hx : prev ≠ some x) (target : Option ι) :
    setLink next prev target x = next x := by
  cases prev with
  | none => rfl
  | some last =>
    apply Function.update_of_ne
    rintro rfl
    exact hx rfl

/-- Redirecting the pointer behind `front` replaces the rest of the chain. -/
theorem Chain.redirect [DecidableEq ι] {rest : List ι} {target : Option ι}
    (h : Chain next head (front ++ back)) (hnodup : front.Nodup)
    (hrest : Chain next target rest) (hfresh : ∀ y ∈ front, y ∉ rest) :
    Chain (setLink next front.getLast? target) (setHead head front.getLast? target) (front ++ rest) := by
  induction front generalizing head with
  | nil => exact hrest
  | cons y front ih =>
    obtain ⟨hhead, htail⟩ := h
    cases front with
    | nil =>
      refine ⟨hhead, ?_⟩
      change Chain (Function.update next y target) (Function.update next y target y) rest
      rw [Function.update_self]
      exact hrest.update (hfresh y mem_cons_self) target
    | cons z front =>
      have hy : y ∉ z :: front := (nodup_cons.1 hnodup).1
      have hchain := ih htail (nodup_cons.1 hnodup).2 (fun w hw ↦ hfresh w (mem_cons_of_mem y hw))
      obtain ⟨last, hlast⟩ : ∃ last, (z :: front).getLast? = some last :=
        ⟨_, getLast?_eq_some_getLast (cons_ne_nil z front)⟩
      have hkeep : setLink next (z :: front).getLast? target y = next y :=
        setLink_of_ne (fun heq ↦ hy (mem_of_getLast? heq)) target
      rw [getLast?_cons_cons, hlast]
      rw [hlast] at hchain hkeep
      refine ⟨hhead, ?_⟩
      rw [hkeep]
      exact hchain

/-- The predecessor a walk remembers: the last node passed, or the one it started with. -/
theorem getLast?_cons_or (x : ι) (rest : List ι) (prev : Option ι) :
    (x :: rest).getLast?.or prev = rest.getLast?.or (some x) := by
  cases rest with
  | nil => rfl
  | cons y rest =>
    rw [getLast?_cons_cons, getLast?_eq_some_getLast (cons_ne_nil y rest)]
    rfl

/-- The chain from a node on is the chain from the pointer to it on. -/
theorem Chain.suffix (h : Chain next head (front ++ back)) : ∃ pointer, Chain next pointer back := by
  induction front generalizing head with
  | nil => exact ⟨head, h⟩
  | cons y front ih => exact ih h.2

section

variable (h : Chain next head (front ++ x :: back))
include h

theorem Chain.next_suffix : Chain next (next x) back := by
  obtain ⟨pointer, hsuffix⟩ := h.suffix
  exact hsuffix.2

omit h in
/-- A chain that ends does not come back to a node. -/
theorem Chain.nodup (h : Chain next head nodes) : nodes.Nodup := by
  induction nodes generalizing head with
  | nil => exact nodup_nil
  | cons x rest ih =>
    refine nodup_cons.2 ⟨fun hmem ↦ ?_, ih h.2⟩
    obtain ⟨front, back, rfl⟩ := append_of_mem hmem
    have heq : front ++ x :: back = back := h.2.unique h.2.next_suffix
    have hlength := congrArg List.length heq
    rw [length_append, length_cons] at hlength
    omega

omit h in
theorem Chain.append [DecidableEq ι] (h : Chain next head nodes) (hnodup : nodes.Nodup) (hx : x ∉ nodes)
    (hnext : next x = none) :
    Chain (setLink next nodes.getLast? (some x)) (setHead head nodes.getLast? (some x)) (nodes ++ [x]) := by
  have h' : Chain next head (nodes ++ []) := by rwa [append_nil]
  refine h'.redirect hnodup ⟨rfl, hnext⟩ (fun y hy hmem ↦ ?_)
  rw [mem_singleton] at hmem
  exact hx (hmem ▸ hy)

/-- A new node behind `x` ends the chain, whatever has followed `x`. -/
theorem Chain.relink [DecidableEq ι] {t : ι} (ht : t ∉ front ++ x :: back) :
    Chain (Function.update (Function.update next x (some t)) t none) head (front ++ [x, t]) := by
  have hxt : x ≠ t := by
    intro heq
    apply ht
    simp [heq]
  have hsplit : front ++ x :: back = (front ++ [x]) ++ back := by simp
  have hnodup : (front ++ [x]).Nodup := (nodup_append.1 (hsplit ▸ h.nodup)).1
  have hfresh : ∀ y ∈ front ++ [x], y ∉ [t] := by
    intro y hy hmem
    rw [mem_singleton.1 hmem] at hy
    exact ht (hsplit ▸ mem_append_left back hy)
  have hlast : Chain (Function.update next t none) (some t) [t] := ⟨rfl, Function.update_self ..⟩
  have hold : Chain (Function.update next t none) head ((front ++ [x]) ++ back) :=
    hsplit ▸ h.update ht none
  have hnew := hold.redirect hnodup hlast hfresh
  rw [getLast?_concat, append_assoc] at hnew
  rw [Function.update_comm hxt]
  exact hnew

theorem Chain.remove [DecidableEq ι] (hnodup : (front ++ x :: back).Nodup) :
    Chain (setLink next front.getLast? (next x)) (setHead head front.getLast? (next x)) (front ++ back) := by
  have hdisjoint := (nodup_append.1 hnodup).2.2
  refine h.redirect (nodup_append.1 hnodup).1 h.next_suffix (fun y hy hmem ↦ ?_)
  exact hdisjoint y hy y (mem_cons_of_mem x hmem) rfl

end

/-! ## Walks -/

/-- The first `n` nodes that a walk along `next` visits. -/
def visits (next : ι → Option ι) : ℕ → Option ι → List ι
  | 0, _ => []
  | _ + 1, none => []
  | n + 1, some x => x :: visits next n (next x)

theorem visits_subset_succ (next : ι → Option ι) (n : ℕ) (head : Option ι) :
    visits next n head ⊆ visits next (n + 1) head := by
  induction n generalizing head with
  | zero => exact nil_subset _
  | succ n ih =>
    cases head with
    | none => exact nil_subset _
    | some x => exact cons_subset_cons x (ih (next x))

theorem Chain.visits_eq_take (h : Chain next head nodes) (n : ℕ) : visits next n head = nodes.take n := by
  induction nodes generalizing head n with
  | nil =>
    obtain rfl := h
    cases n <;> rfl
  | cons x rest ih =>
    obtain ⟨rfl, hrest⟩ := h
    cases n with
    | zero => rfl
    | succ n => exact congrArg (x :: ·) (ih hrest n)

/-- The walks that visit the nodes and end with the last one. -/
theorem visits_eq_take_iff : (∀ n, visits next n head = nodes.take n) ↔ Chain next head nodes := by
  refine ⟨fun h ↦ ?_, fun h n ↦ h.visits_eq_take n⟩
  induction nodes generalizing head with
  | nil =>
    cases head with
    | none => rfl
    | some x => exact absurd (h 1) nofun
  | cons x rest ih =>
    cases head with
    | none => exact absurd (h 1) nofun
    | some y =>
      obtain rfl : y = x := (List.cons.inj (h 1)).1
      exact ⟨rfl, ih fun n ↦ (List.cons.inj (h (n + 1))).2⟩

/-- Two fields give the same chain if they agree on it. -/
theorem Chain.congr_iff (h : Chain next head nodes) :
    Chain next' head nodes ↔ ∀ x ∈ nodes, next' x = next x := by
  refine ⟨fun h' ↦ ?_, h.congr⟩
  induction nodes generalizing head with
  | nil => exact nofun
  | cons y rest ih =>
    have heq : next' y = next y := by
      cases rest with
      | nil => exact h'.2.trans h.2.symm
      | cons z rest => exact h'.2.1.trans h.2.1.symm
    intro x hx
    rcases mem_cons.1 hx with rfl | hx
    · exact heq
    · exact ih h.2 (heq ▸ h'.2) x hx

/-- The node at the end of a chain, and the others. -/
theorem Chain.next_concat (h : Chain next head (front ++ [x])) :
    next x = none ∧ ∀ y ∈ front, (next y).isSome := by
  induction front generalizing head with
  | nil => exact ⟨h.2, nofun⟩
  | cons y front ih =>
    obtain ⟨hx, hfront⟩ := ih h.2
    refine ⟨hx, fun z hz ↦ ?_⟩
    rcases mem_cons.1 hz with rfl | hz
    · cases front with
      | nil | cons w front => rw [h.2.1, isSome_some]
    · exact hfront z hz

/-- A walk that never ends visits the first nodes of a chain if the chain is as long and the fields
agree before the last of them. -/
theorem Chain.visits_of_some_iff {succ : ι → ι} {m : ℕ} (h : Chain next (some x) (x :: back)) :
    visits (fun y ↦ some (succ y)) (m + 1) (some x) = (x :: back).take (m + 1) ↔
      m ≤ back.length ∧ ∀ y ∈ (x :: back).take m, some (succ y) = next y := by
  induction m generalizing x back with
  | zero => exact iff_of_true rfl ⟨Nat.zero_le _, nofun⟩
  | succ m ih =>
    change x :: visits _ (m + 1) (some (succ x)) = x :: back.take (m + 1) ↔ _
    rw [cons_inj_right]
    cases back with
    | nil => exact iff_of_false nofun fun hle ↦ absurd hle.1 (Nat.not_succ_le_zero m)
    | cons y back =>
      obtain ⟨-, hnext, hback⟩ := h
      by_cases hy : succ x = y
      · rw [hy, ih ⟨rfl, hback⟩, take_succ_cons, forall_mem_cons, hnext, hy, length_cons,
          Nat.add_le_add_iff_right]
        simp only [true_and]
      · refine iff_of_false (fun heq ↦ hy (List.cons.inj heq).1) fun hall ↦ hy ?_
        have hsucc := hall.2 x (mem_cons_self ..)
        exact some.inj (hsucc.trans hnext)

end CapstoneKernel.LinkedChain
