import CapstoneKernel.Boot.DeviceTree

/-!
# Properties of the device tree

`mem_region`, `initramfs_start` and `initramfs_end` look for a property of a node under the root.
They compare the names of all nodes and properties with one component of their path after the other,
at any depth, and do not notice where a node ends.  They find the property if nothing in front of it
that is called like the property comes behind something that is called like the node.
-/

namespace CapstoneKernel.Boot

open ByteFields Execution List

/-! ## The source -/

/-- The index into the path, and the variables that are to be set. -/
structure Matcher (V : Type) where
  dtbStrIdx : ℕ
  value : V
  deriving DecidableEq

def slash : UInt8 := 47

section Source

variable (blob : List UInt8)

/-- `initramfs_process_node` and `mem_region`, which differ in their paths and in what they read
behind the fields of the property. -/
def processNode {V : Type} (path : Name) (read : ℕ → Except Fault V) (s : Matcher V) (p : ℕ)
    (name : Name) : Except Fault (Bool × Matcher V) := do
  let token ← word blob p
  if token = fdtEnd then return (false, { s with dtbStrIdx := 0 })
  else if token ≠ fdtBeginNode ∧ token ≠ fdtProp then return (false, s)
  else
    let idx := if s.dtbStrIdx = 0 ∧ path.head? = some slash then s.dtbStrIdx + 1 else s.dtbStrIdx
    let component := (path.drop idx).takeWhile (· ≠ slash)
    let i := idx + component.length
    if component = name then
      if i = path.length then
        let value ← read (p + 12)
        return (true, ⟨0, value⟩)
      else return (false, { s with dtbStrIdx := i + 1 })
    else return (false, { s with dtbStrIdx := idx })

end Source

/-! ## Trees -/

/-- A call for a node or a property at a position, inside of nodes with the names of the path. -/
structure Call where
  path : List Name
  isProp : Bool
  name : Name
  pos : ℕ
  deriving DecidableEq

/-- What the function is called with. -/
def Call.args (c : Call) : ℕ × Name := (c.pos, c.name)

/-- The tokens from `p` to `q` are what a node with the given path contains: properties and nodes, in
any order. -/
inductive Block (blob : List UInt8) : List Name → ℕ → ℕ → List Call → Prop
  | nil {path : List Name} {p : ℕ} : Block blob path p p []
  | nop {path : List Name} {p q : ℕ} {rest : List UInt8} {calls : List Call} :
      blob.drop p = bytesOf 4 fdtNop ++ rest → Block blob path (p + 4) q calls →
      Block blob path p q calls
  | prop {path : List Name} {p q len nameoff : ℕ} {rest : List UInt8} {calls : List Call} :
      blob.drop p = bytesOf 4 fdtProp ++ (bytesOf 4 len ++ (bytesOf 4 nameoff ++ rest)) →
      nameoff < 2 ^ 32 → Block blob path (p + (12 + align4 len)) q calls →
      Block blob path p q (⟨path, true, string (blob.drop (field blob 12 4 + nameoff)), p⟩ :: calls)
  | node {path : List Name} {p q q' : ℕ} {name rest rest' : List UInt8} {inner calls : List Call} :
      blob.drop p = bytesOf 4 fdtBeginNode ++ (name ++ 0 :: rest) → 0 ∉ name →
      (unitName name).length < 32 →
      Block blob (path ++ [unitName name]) (p + align4 (4 + (name.length + 1))) q inner →
      blob.drop q = bytesOf 4 fdtEndNode ++ rest' → Block blob path (q + 4) q' calls →
      Block blob path p q' (⟨path, false, unitName name, p⟩ :: (inner ++ calls))

/-- The blob is a flattened device tree: there is one root, without a name. -/
structure Flattens (blob : List UInt8) (calls : List Call) : Prop where
  header : 40 ≤ blob.length
  size : blob.length < 2 ^ 32
  root : ∃ p inner, calls = ⟨[], false, [], p⟩ :: inner ∧ ∀ c ∈ inner, c.path ≠ []
  block : ∃ q rest, Block blob [] (field blob 8 4) q calls ∧ blob.drop q = bytesOf 4 fdtEnd ++ rest

/-- The call is for a property of a node directly under the root. -/
def isProperty (node name : Name) (c : Call) : Bool := c.isProp ∧ c.path = [[], node] ∧ c.name = name

def property (calls : List Call) (node name : Name) : Option Call := calls.find? (isProperty node name)

/-- A call is for a node or a property. -/
def IsNamed (blob : List UInt8) (c : Call) : Prop :=
  word blob c.pos = .ok fdtBeginNode ∨ word blob c.pos = .ok fdtProp

/-- Every name on the path of a call has been seen, or is the name of an earlier call. -/
def Announced : Set Name → List Call → Prop
  | _, [] => True
  | seen, c :: calls => (∀ n ∈ c.path, n ∈ seen) ∧ Announced (insert c.name seen) calls

variable {blob : List UInt8} {calls : List Call} {c : Call} {node name : Name} {p idx : ℕ} {V : Type}
  {read : ℕ → Except Fault V}

theorem Announced.mono : ∀ {seen seen' : Set Name}, Announced seen calls →
    seen ⊆ seen' → Announced seen' calls := by
  induction calls with
  | nil => exact fun h _ ↦ h
  | cons c calls ih =>
    intro seen seen' h hsub
    exact ⟨fun n hn ↦ hsub (h.1 n hn), ih h.2 (Set.insert_subset_insert hsub)⟩

theorem Announced.append {calls' : List Call} : ∀ {seen : Set Name}, Announced seen calls →
    Announced seen calls' → Announced seen (calls ++ calls') := by
  induction calls with
  | nil => exact fun _ h' ↦ h'
  | cons c calls ih => exact fun h h' ↦ ⟨h.1, ih h.2 (h'.mono (Set.subset_insert _ _))⟩

/-- The step for a property does not wrap around inside of a blob. -/
theorem propStep_eq {len : ℕ} (h : 12 + align4 len < 2 ^ 32) : propStep len = 12 + align4 len := by
  unfold propStep
  unfold align4 at *
  omega

section Blocks

variable {path : List Name} {q : ℕ} (h : Block blob path p q calls)
include h

theorem Block.walk (hsize : blob.length < 2 ^ 32) {rest : List (ℕ × Name)}
    (hrest : Walk blob q rest) :
    Walk blob p (calls.map Call.args ++ rest) := by
  induction h generalizing rest with
  | nil => exact hrest
  | nop h _ ih => exact .skip h (.inr rfl) (ih hrest)
  | @prop path p q len nameoff _ calls h hname _ ih =>
    have hwalk := ih hrest
    have hle := hwalk.add_four_le
    have hlen := le_align4 len
    have hstep := propStep_eq (by omega : 12 + align4 len < 2 ^ 32)
    rw [← hstep] at hwalk
    exact .prop h (by omega) hname (by omega) hwalk
  | @node path p q q' name _ _ inner calls h hzero hshort _ hend _ ihInner ih =>
    rw [map_cons, map_append, cons_append, append_assoc]
    exact .beginNode h hzero hshort (ihInner (.skip hend (.inl rfl) (ih hrest)))

theorem Block.isNamed : ∀ c ∈ calls, IsNamed blob c := by
  induction h with
  | nil => exact nofun
  | nop _ _ ih => exact ih
  | prop h _ _ ih => exact forall_mem_cons.2 ⟨.inr (word_eq h (by decide)), ih⟩
  | node h _ _ _ _ _ ihInner ih =>
    exact forall_mem_cons.2
      ⟨.inl (word_eq h (by decide)), fun c hc ↦ (mem_append.1 hc).elim (ihInner c) (ih c)⟩

theorem Block.le : p ≤ q := by
  induction h with
  | nil => exact le_rfl
  | nop _ _ ih => omega
  | prop _ _ _ ih => omega
  | node _ _ _ _ _ _ ihInner ih => omega

/-- Behind a call there are twelve bytes of its block, and four more if it is inside of a node. -/
theorem Block.pos_add_le : ∀ c ∈ calls, c.pos + 12 ≤ q ∧ (c.path ≠ path → c.pos + 16 ≤ q) := by
  induction h with
  | nil => exact nofun
  | nop _ _ ih => exact ih
  | prop _ _ hrest ih =>
    have hle := hrest.le
    exact forall_mem_cons.2 ⟨⟨by dsimp only; omega, fun hne ↦ absurd rfl hne⟩, ih⟩
  | @node path p q q' name _ _ inner calls _ _ _ hinner _ hrest ihInner ih =>
    have hle := hinner.le
    have hle' := hrest.le
    have halign := le_align4 (4 + (name.length + 1))
    have hdvd := four_dvd_align4 (4 + (name.length + 1))
    refine forall_mem_cons.2 ⟨⟨by dsimp only; omega, fun hne ↦ absurd rfl hne⟩, fun c hc ↦ ?_⟩
    rcases mem_append.1 hc with hc | hc
    · have hpos := (ihInner c hc).1
      exact ⟨by omega, fun _ ↦ by omega⟩
    · exact ih c hc

end Blocks

/-- Two words can be read behind the fields of anything that has a name. -/
theorem Flattens.inside (h : Flattens blob calls) (hc : c ∈ calls) (hname : c.name ≠ []) : c.pos + 12 + 8 ≤ blob.length := by
  obtain ⟨q, rest, hblock, hend⟩ := h.block
  obtain ⟨p, inner, rfl, hinner⟩ := h.root
  have hle := add_four_le hend
  have hpath : c.path ≠ [] := by
    rcases mem_cons.1 hc with rfl | hc
    · exact absurd rfl hname
    · exact hinner c hc
  have hpos := (hblock.pos_add_le c hc).2 hpath
  omega

/-! ## The matcher -/

/-- The path of a property of a node under the root. -/
def pathOf (node name : Name) : Name := slash :: (node ++ slash :: name)

/-- What the functions find: the first thing with the name of the property behind the first thing
with the name of the node. -/
def firstMatch (node name : Name) (calls : List Call) : Option Call :=
  ((calls.dropWhile fun c ↦ c.name ≠ node).drop 1).find? fun c ↦ c.name = name

section Matcher

variable {pEnd : ℕ} (hnode : slash ∉ node) (hname : slash ∉ name)

theorem processNode_of_isNamed (h : IsNamed blob c) (path : Name) (s : Matcher V) :
    processNode blob path read s c.pos c.name =
      let idx := if s.dtbStrIdx = 0 ∧ path.head? = some slash then s.dtbStrIdx + 1 else s.dtbStrIdx
      let component := (path.drop idx).takeWhile (· ≠ slash)
      let i := idx + component.length
      if component = c.name then
        if i = path.length then read (c.pos + 12) >>= fun value ↦ .ok (true, ⟨0, value⟩)
        else .ok (false, { s with dtbStrIdx := i + 1 })
      else .ok (false, { s with dtbStrIdx := idx }) := by
  rcases h with h | h
  · rw [processNode, h]
    rfl
  · rw [processNode, h]
    rfl

theorem takeWhile_ne_append (hnode : slash ∉ node) (rest : Name) :
    (node ++ slash :: rest).takeWhile (· ≠ slash) = node := by
  rw [takeWhile_append_of_pos, takeWhile_cons_of_neg, append_nil]
  · simp
  · intro c hc
    simpa using fun heq : c = slash ↦ hnode (heq ▸ hc)

theorem takeWhile_ne_self (hname : slash ∉ name) : name.takeWhile (· ≠ slash) = name := by
  rw [takeWhile_eq_self_iff]
  intro c hc
  simpa using fun heq : c = slash ↦ hname (heq ▸ hc)

include hnode in
theorem processNode_first (h : IsNamed blob c) (hidx : idx ≤ 1) (v : V) :
    processNode blob (pathOf node name) read ⟨idx, v⟩ c.pos c.name =
      .ok (false, ⟨if c.name = node then node.length + 2 else 1, v⟩) := by
  have hstart : (if idx = 0 ∧ (pathOf node name).head? = some slash then idx + 1 else idx) = 1 := by
    rcases Nat.le_one_iff_eq_zero_or_eq_one.1 hidx with rfl | rfl
    · rfl
    · rfl
  have hcomponent : ((pathOf node name).drop 1).takeWhile (· ≠ slash) = node :=
    takeWhile_ne_append hnode name
  have hlast : 1 + node.length ≠ (pathOf node name).length := by
    simp [pathOf]
    omega
  rw [processNode_of_isNamed h]
  dsimp only
  rw [hstart, hcomponent, if_neg hlast]
  by_cases heq : c.name = node
  · rw [if_pos heq.symm, if_pos heq, show 1 + node.length + 1 = node.length + 2 by omega]
  · rw [if_neg (Ne.symm heq), if_neg heq]

include hname in
theorem processNode_second (h : IsNamed blob c) (v : V) :
    processNode blob (pathOf node name) read ⟨node.length + 2, v⟩ c.pos c.name =
      if c.name = name then read (c.pos + 12) >>= fun value ↦ .ok (true, ⟨0, value⟩)
      else .ok (false, ⟨node.length + 2, v⟩) := by
  have hstart : (if node.length + 2 = 0 ∧ (pathOf node name).head? = some slash
      then node.length + 2 + 1 else node.length + 2) = node.length + 2 :=
    if_neg fun h ↦ absurd h.1 (by omega)
  have hdrop : (pathOf node name).drop (node.length + 2) = name := by
    simp [pathOf]
  have hlast : node.length + 2 + name.length = (pathOf node name).length := by
    simp [pathOf]
    omega
  rw [processNode_of_isNamed h]
  dsimp only
  rw [hstart, hdrop, takeWhile_ne_self hname, if_pos hlast]
  by_cases heq : c.name = name
  · rw [if_pos heq.symm, if_pos heq]
  · rw [if_neg (Ne.symm heq), if_neg heq]

theorem processNode_end (hend : word blob pEnd = .ok fdtEnd) (path : Name)
    (s : Matcher V) : processNode blob path read s pEnd [] = .ok (false, { s with dtbStrIdx := 0 }) := by
  rw [processNode, hend]
  rfl

/-- What the search leaves, depending on what it finds. -/
def outcome (read : ℕ → Except Fault V) (v : V) : Option Call → Except Fault (Matcher V)
  | none => .ok ⟨0, v⟩
  | some c => read (c.pos + 12) >>= fun value ↦ .ok ⟨0, value⟩

theorem visit_cons {σ : Type} (func : σ → ℕ → Name → Except Fault (Bool × σ)) (c : Call)
    (rest : List (ℕ × Name)) (s : σ) : visit func (c.args :: rest) s =
      func s c.pos c.name >>= fun r ↦ if r.1 then .ok r.2 else visit func rest r.2 := rfl

include hname in
theorem visit_second (hcalls : ∀ c ∈ calls, IsNamed blob c) (hend : word blob pEnd = .ok fdtEnd)
    (v : V) : visit (processNode blob (pathOf node name) read) (calls.map Call.args ++ [(pEnd, [])])
      ⟨node.length + 2, v⟩ = outcome read v (calls.find? fun c ↦ c.name = name) := by
  induction calls with
  | nil =>
    rw [map_nil, nil_append, visit, processNode_end hend]
    rfl
  | cons c calls ih =>
    obtain ⟨hc, hcalls⟩ := forall_mem_cons.1 hcalls
    rw [map_cons, cons_append, visit_cons, processNode_second hname hc]
    by_cases heq : c.name = name
    · rw [if_pos heq, find?_cons_of_pos (by simpa using heq), outcome, bind_assoc]
      rfl
    · rw [if_neg heq, find?_cons_of_neg (by simpa using heq), ← ih hcalls]
      rfl

include hnode hname in
theorem visit_first (hcalls : ∀ c ∈ calls, IsNamed blob c) (hend : word blob pEnd = .ok fdtEnd)
    (hidx : idx ≤ 1) (v : V) :
    visit (processNode blob (pathOf node name) read) (calls.map Call.args ++ [(pEnd, [])])
      ⟨idx, v⟩ = outcome read v (firstMatch node name calls) := by
  induction calls generalizing idx with
  | nil =>
    rw [map_nil, nil_append, visit, processNode_end hend]
    rfl
  | cons c calls ih =>
    obtain ⟨hc, hcalls⟩ := forall_mem_cons.1 hcalls
    rw [map_cons, cons_append, visit_cons, processNode_first hnode hc hidx, firstMatch]
    by_cases heq : c.name = node
    · rw [if_pos heq, dropWhile_cons_of_neg (by simpa using heq)]
      exact visit_second hname hcalls hend v
    · rw [if_neg heq, dropWhile_cons_of_pos (by simpa using heq)]
      exact ih hcalls Nat.le.refl

end Matcher

/-- The call reads the value of the property, or leaves everything alone if there is none.  The index
into the path is back to the start. -/
def Exact {V : Type} (blob : List UInt8) (calls : List Call) (node name : Name)
    (read : ℕ → Except Fault V) (func : Matcher V → ℕ → Name → Except Fault (Bool × Matcher V)) :
    Prop :=
  ∀ v, ∃ fuel v', fdtTraverse blob func fuel ⟨0, v⟩ = .ok ⟨0, v'⟩ ∧
    match property calls node name with
    | none => v' = v
    | some r => read (r.pos + 12) = .ok v'

theorem Exact.found {func : Matcher V → ℕ → Name → Except Fault (Bool × Matcher V)} {r : Call} {w : V}
    (h : Exact blob calls node name read func) (hr : property calls node name = some r)
    (hw : read (r.pos + 12) = .ok w) (v : V) :
    ∃ fuel, fdtTraverse blob func fuel ⟨0, v⟩ = .ok ⟨0, w⟩ := by
  obtain ⟨fuel, v', hrun, hv'⟩ := h v
  simp only [hr, hw, Except.ok.injEq] at hv'
  exact ⟨fuel, hv' ▸ hrun⟩

/-- One call of `fdt_traverse` returns what the search finds. -/
theorem Flattens.fdtTraverse (h : Flattens blob calls) (read : ℕ → Except Fault V)
    (hnode : slash ∉ node) (hname : slash ∉ name) : ∃ fuel, ∀ v,
      Boot.fdtTraverse blob (processNode blob (pathOf node name) read) fuel ⟨0, v⟩ =
        outcome read v (firstMatch node name calls) := by
  have hheader := h.header
  have hoff : word blob 8 = .ok (field blob 8 4) := if_pos (by omega)
  obtain ⟨q, rest, hblock, hend⟩ := h.block
  obtain ⟨fuel, hfuel⟩ := (hblock.walk h.size (.done hend)).traverseFrom (by omega) h.size
  refine ⟨fuel, fun v ↦ ?_⟩
  rw [Boot.fdtTraverse, hoff, ok_bind, hfuel]
  exact visit_first hnode hname hblock.isNamed (word_eq hend (by decide)) (Nat.zero_le 1) v

def reg : Name := [114, 101, 103]

end CapstoneKernel.Boot
