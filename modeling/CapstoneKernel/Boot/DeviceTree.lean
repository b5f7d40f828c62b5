import CapstoneKernel.Lib.ByteFields
import CapstoneKernel.Lib.Execution

/-!
# Going through the device tree

`fdt_traverse` goes from token to token of the structure block and calls a function for every node
and every property.  How far it goes comes from the data.  It stays where it is at a token that it
does not know, and at a property whose length wraps around to zero when it is rounded up.  So it
ends if and only if the tokens lead to `FDT_END`.

The blob is a list of bytes, and the cursor is a position in it.  The function that is called can be
any function with a state.
-/

namespace CapstoneKernel.Boot

open ByteFields Execution List

variable {calls : List (ℕ × Name)} {data : List UInt8} {p p' : ℕ}

abbrev Name := List UInt8

inductive Fault
  /-- The cursor, or a loop over a name, leaves the blob. -/
  | outOfBlob
  /-- `char name[32]` is too short. -/
  | nameOverflow
  | diverges
  deriving DecidableEq, Repr

def fdtBeginNode : ℕ := 1

def fdtEndNode : ℕ := 2

def fdtProp : ℕ := 3

def fdtNop : ℕ := 4

def fdtEnd : ℕ := 9

/-- `@`, which separates the name of a node from its unit address. -/
def atSign : UInt8 := 64

/-! ## The source -/

section Source

variable (blob : List UInt8)

/-- `big2host` of the word at a position. -/
def word (p : ℕ) : Except Fault ℕ :=
  if p + 4 ≤ blob.length then .ok (field blob p 4) else .error .outOfBlob

/-- The name of a node as far as it is copied. -/
def unitName (data : List UInt8) : Name := data.takeWhile fun c ↦ decide (c ≠ 0 ∧ c ≠ atSign)

/-- The loop that copies the name. -/
def copyName (data : List UInt8) : Except Fault Name :=
  if 32 ≤ (unitName data).length then .error .nameOverflow
  else if (unitName data).length < data.length then .ok (unitName data)
  else .error .outOfBlob

/-- How far the cursor moves for a node; `strlen` is a `uint32_t`. -/
def nodeStep (data : List UInt8) : Except Fault ℕ :=
  if (string data).length < data.length then .ok (align4 (4 + ((string data).length + 1) % 2 ^ 32))
  else .error .outOfBlob

/-- How far the cursor moves for a property, in 32 bits. -/
def propStep (len : ℕ) : ℕ := ((4 + 8 + len) % 2 ^ 32 + 3) % 2 ^ 32 / 4 * 4

variable {σ : Type} (func : σ → ℕ → Name → Except Fault (Bool × σ))

/-- A round of the loop stops it, or goes on at a position. -/
inductive Round (σ : Type)
  | stop (s : σ)
  | next (s : σ) (p : ℕ)

def round (s : σ) (p : ℕ) : Except Fault (Round σ) := do
  let token ← word blob p
  if token = fdtBeginNode then
    let name ← copyName (blob.drop (p + 4))
    let (found, s) ← func s p name
    if found then return .stop s
    else
      let step ← nodeStep (blob.drop (p + 4))
      return .next s (p + step)
  else if token = fdtProp then
    let strings ← word blob 12
    let nameoff ← word blob (p + 8)
    let (found, s) ← func s p (string (blob.drop (strings + nameoff)))
    if found then return .stop s
    else
      let len ← word blob (p + 4)
      return .next s (p + propStep len)
  else if token = fdtEndNode ∨ token = fdtNop then return .next s (p + 4)
  else if token = fdtEnd then
    let (_, s) ← func s p []
    return .stop s
  -- an unknown token is only reported
  else return .next s p

def traverseFrom : ℕ → σ → ℕ → Except Fault σ
  | 0, _, _ => .error .diverges
  | fuel + 1, s, p => do
      match ← round blob func s p with
      | .stop s => return s
      | .next s p => traverseFrom fuel s p

/-- `fdt_traverse`; a wrong magic number is only reported. -/
def fdtTraverse (fuel : ℕ) (s : σ) : Except Fault σ := do
  let off ← word blob 8
  traverseFrom blob func fuel s off

end Source

/-! ## Tokens -/

/-- The tokens from a position on lead to `FDT_END`.  The list has the positions and names for which
the function is called. -/
inductive Walk (blob : List UInt8) : ℕ → List (ℕ × Name) → Prop
  | beginNode {p : ℕ} {name rest : List UInt8} {calls : List (ℕ × Name)} :
      blob.drop p = bytesOf 4 fdtBeginNode ++ (name ++ 0 :: rest) → 0 ∉ name →
      (unitName name).length < 32 → Walk blob (p + align4 (4 + (name.length + 1))) calls →
      Walk blob p ((p, unitName name) :: calls)
  | prop {p len nameoff : ℕ} {rest : List UInt8} {calls : List (ℕ × Name)} :
      blob.drop p = bytesOf 4 fdtProp ++ (bytesOf 4 len ++ (bytesOf 4 nameoff ++ rest)) →
      len < 2 ^ 32 → nameoff < 2 ^ 32 → 0 < propStep len → Walk blob (p + propStep len) calls →
      Walk blob p ((p, string (blob.drop (field blob 12 4 + nameoff))) :: calls)
  | skip {p token : ℕ} {rest : List UInt8} {calls : List (ℕ × Name)} :
      blob.drop p = bytesOf 4 token ++ rest → token = fdtEndNode ∨ token = fdtNop →
      Walk blob (p + 4) calls → Walk blob p calls
  | done {p : ℕ} {rest : List UInt8} : blob.drop p = bytesOf 4 fdtEnd ++ rest →
      Walk blob p [(p, [])]

/-- The calls of a function for positions and names, up to the first that finds something. -/
def visit {σ : Type} (func : σ → ℕ → Name → Except Fault (Bool × σ)) :
    List (ℕ × Name) → σ → Except Fault σ
  | [], s => .ok s
  | (p, name) :: calls, s => do
      let (found, s) ← func s p name
      if found then return s else visit func calls s

section Words

variable {blob rest : List UInt8} {p n : ℕ}

section

variable (h : blob.drop p = bytesOf 4 n ++ rest)
include h

theorem add_four_le : p + 4 ≤ blob.length := by
  have hlength := congrArg List.length h
  rw [length_drop, length_append, length_bytesOf] at hlength
  omega

theorem word_eq (hn : n < 2 ^ 32) : word blob p = .ok n := by
  rw [word, if_pos (add_four_le h), field_eq h hn]

theorem drop_four : blob.drop (p + 4) = rest := by
  have hrest := drop_add_length h
  rwa [length_bytesOf] at hrest

end

theorem word_eq_ok (h : word blob p = .ok n) :
    n < 2 ^ 32 ∧ blob.drop p = bytesOf 4 n ++ blob.drop (p + 4) := by
  unfold word at h
  split at h
  · next hle =>
    cases h
    exact ⟨field_lt blob p 4, drop_eq_field hle⟩
  · cases h

end Words

/-! ## Names -/

section Names

variable {name data : List UInt8}

theorem unitName_append (h : 0 ∉ name) (rest : List UInt8) :
    unitName (name ++ 0 :: rest) = unitName name := by
  induction name with
  | nil => rfl
  | cons c name ih =>
    have hc : c ≠ 0 := fun hc ↦ h (hc ▸ mem_cons_self)
    have hrest := ih fun hmem ↦ h (mem_cons_of_mem c hmem)
    unfold unitName at hrest ⊢
    rw [cons_append, takeWhile_cons, takeWhile_cons, hrest]

theorem length_unitName_le (data : List UInt8) : (unitName data).length ≤ data.length :=
  (List.takeWhile_prefix _).length_le

theorem copyName_append (h : 0 ∉ name) (hshort : (unitName name).length < 32)
    (rest : List UInt8) : copyName (name ++ 0 :: rest) = .ok (unitName name) := by
  have hle := length_unitName_le name
  have hlength : (unitName name).length < (name ++ 0 :: rest).length := by
    rw [length_append, length_cons]
    omega
  rw [copyName, unitName_append h, if_neg (Nat.not_le.2 hshort), if_pos hlength]

theorem nodeStep_append (h : 0 ∉ name) {rest : List UInt8}
    (hlength : (name ++ 0 :: rest).length < 2 ^ 32) :
    nodeStep (name ++ 0 :: rest) = .ok (align4 (4 + (name.length + 1))) := by
  rw [length_append, length_cons] at hlength
  have hlt : name.length < (name ++ 0 :: rest).length := by
    rw [length_append, length_cons]
    omega
  rw [nodeStep, string_append h, if_pos hlt, Nat.mod_eq_of_lt (by omega)]

end Names

/-! ## One round -/

/-- What a round does at a position from which the tokens lead to `FDT_END`. -/
inductive Moves (blob : List UInt8) (p : ℕ) : List (ℕ × Name) → Prop
  | call {p' : ℕ} {name : Name} {calls : List (ℕ × Name)} : p < p' → 4 ∣ p' - p →
      Walk blob p' calls →
      (∀ {σ : Type} (func : σ → ℕ → Name → Except Fault (Bool × σ)) (s : σ),
        round blob func s p = func s p name >>= fun r ↦
          if r.1 then .ok (.stop r.2) else .ok (.next r.2 p')) →
      Moves blob p ((p, name) :: calls)
  | skip {calls : List (ℕ × Name)} : Walk blob (p + 4) calls →
      (∀ {σ : Type} (func : σ → ℕ → Name → Except Fault (Bool × σ)) (s : σ),
        round blob func s p = .ok (.next s (p + 4))) → Moves blob p calls
  | done : (∀ {σ : Type} (func : σ → ℕ → Name → Except Fault (Bool × σ)) (s : σ),
        round blob func s p = func s p [] >>= fun r ↦ .ok (.stop r.2)) → Moves blob p [(p, [])]

section Walks

variable {blob : List UInt8} {p : ℕ} {calls : List (ℕ × Name)}

theorem Walk.add_four_le (h : Walk blob p calls) : p + 4 ≤ blob.length := by
  cases h with
  | beginNode h | prop h | skip h | done h => exact Boot.add_four_le h

theorem propStep_dvd (len : ℕ) : 4 ∣ propStep len := Nat.dvd_mul_left 4 _

theorem Walk.moves (h : Walk blob p calls) (hheader : 16 ≤ blob.length)
    (hsize : blob.length < 2 ^ 32) : Moves blob p calls := by
  cases h with
  | @beginNode _ name rest calls h hzero hshort hrest =>
    have hpos := le_align4 (4 + (name.length + 1))
    have hdata := drop_four h
    have hlength : (name ++ 0 :: rest).length < 2 ^ 32 := by
      rw [← hdata, length_drop]
      omega
    refine .call (by omega) ?_ hrest fun func s ↦ ?_
    · rw [Nat.add_sub_cancel_left]
      exact four_dvd_align4 _
    · rw [round, word_eq h (by decide), ok_bind, if_pos rfl, hdata, copyName_append hzero hshort,
        ok_bind]
      refine bind_congr fun r ↦ ?_
      rw [nodeStep_append hzero hlength]
      rfl
  | @prop _ len nameoff rest calls h hlen hnameoff hstep hrest =>
    have hlenAt := drop_four h
    have hnameAt := drop_four hlenAt
    refine .call (by omega) ?_ hrest fun func s ↦ ?_
    · rw [Nat.add_sub_cancel_left]
      exact propStep_dvd len
    · have hstrings : word blob 12 = .ok (field blob 12 4) := if_pos hheader
      rw [round, word_eq h (by decide), ok_bind, if_neg (by decide), if_pos rfl, hstrings,
        ok_bind, word_eq hnameAt hnameoff, ok_bind]
      refine bind_congr fun r ↦ ?_
      rw [word_eq hlenAt hlen]
      rfl
  | @skip _ token rest calls h htoken hrest =>
    refine .skip hrest fun func s ↦ ?_
    rcases htoken with rfl | rfl
    · rw [round, word_eq h (by decide)]
      rfl
    · rw [round, word_eq h (by decide)]
      rfl
  | @done _ rest h =>
    refine .done fun func s ↦ ?_
    rw [round, word_eq h (by decide)]
    rfl

theorem traverseFrom_succ {σ : Type} (func : σ → ℕ → Name → Except Fault (Bool × σ)) (fuel : ℕ)
    (s : σ) (p : ℕ) : traverseFrom blob func (fuel + 1) s p = round blob func s p >>= fun r ↦
      match r with
      | .stop s => .ok s
      | .next s p => traverseFrom blob func fuel s p := rfl

theorem Walk.traverseFrom (h : Walk blob p calls) (hheader : 16 ≤ blob.length)
    (hsize : blob.length < 2 ^ 32) : ∃ fuel, ∀ {σ : Type}
      (func : σ → ℕ → Name → Except Fault (Bool × σ)) (s : σ),
        Boot.traverseFrom blob func fuel s p = visit func calls s := by
  -- the cursor moves on at every token, so the bytes behind it are a measure
  induction hn : blob.length - p using Nat.strong_induction_on generalizing p calls with
  | h n ih =>
    have hle := h.add_four_le
    cases h.moves hheader hsize with
    | @call p' name calls hlt _ hrest hround =>
      obtain ⟨fuel, hfuel⟩ := ih _ (by omega) hrest rfl
      refine ⟨fuel + 1, fun func s ↦ ?_⟩
      rw [traverseFrom_succ, hround, visit, bind_assoc]
      refine bind_congr ?_
      rintro ⟨found, s'⟩
      cases found with
      | true => rfl
      | false => exact hfuel func s'
    | skip hrest hround =>
      obtain ⟨fuel, hfuel⟩ := ih _ (by omega) hrest rfl
      refine ⟨fuel + 1, fun func s ↦ ?_⟩
      rw [traverseFrom_succ, hround]
      exact hfuel func s
    | done hround =>
      refine ⟨1, fun func s ↦ ?_⟩
      rw [traverseFrom_succ, hround, visit, bind_assoc]
      refine bind_congr ?_
      rintro ⟨found, s'⟩
      cases found with
      | true => rfl
      | false => rfl

end Walks

/-! ## Blobs that are left -/

/-- A function that finds nothing. -/
def findsNothing (s : Unit) (_ : ℕ) (_ : Name) : Except Fault (Bool × Unit) := .ok (false, s)

section Converse

variable {blob : List UInt8} {p : ℕ}

theorem round_findsNothing (p : ℕ) : round blob findsNothing () p = word blob p >>= fun token ↦
    if token = fdtBeginNode then
      copyName (blob.drop (p + 4)) >>= fun _ ↦ nodeStep (blob.drop (p + 4)) >>= fun step ↦
        .ok (.next () (p + step))
    else if token = fdtProp then
      word blob 12 >>= fun _ ↦ word blob (p + 8) >>= fun _ ↦ word blob (p + 4) >>= fun len ↦
        .ok (.next () (p + propStep len))
    else if token = fdtEndNode ∨ token = fdtNop then .ok (.next () (p + 4))
    else if token = fdtEnd then .ok (.stop ())
    else .ok (.next () p) := rfl

theorem copyName_eq_ok {name : Name} (h : copyName data = .ok name) :
    (unitName data).length < 32 := by
  unfold copyName at h
  split at h
  · cases h
  · next hshort => exact Nat.not_le.1 hshort

theorem nodeStep_eq_ok {step : ℕ} (h : nodeStep data = .ok step) (hsize : data.length < 2 ^ 32) :
    ∃ name rest, data = name ++ 0 :: rest ∧ 0 ∉ name ∧ step = align4 (4 + (name.length + 1)) := by
  unfold nodeStep at h
  split at h
  · next hlt =>
    obtain ⟨hzero, rest, hdata⟩ := exists_string hlt
    refine ⟨string data, rest, hdata, hzero, ?_⟩
    rw [← Except.ok.inj h, Nat.mod_eq_of_lt (by omega)]
  · cases h

/-- A round that goes on is a step of a walk, or stays where it is. -/
theorem walk_of_next (hsize : blob.length < 2 ^ 32)
    (h : round blob findsNothing () p = .ok (.next () p')) (hrest : Walk blob p' calls) :
    ∃ calls, Walk blob p calls := by
  rw [round_findsNothing] at h
  obtain ⟨token, htoken, h⟩ := of_bind_eq_ok h
  obtain ⟨-, hbytes⟩ := word_eq_ok htoken
  split at h
  · next hbegin =>
    obtain ⟨name, hname, h⟩ := of_bind_eq_ok h
    obtain ⟨step, hstep, h⟩ := of_bind_eq_ok h
    obtain ⟨name', rest, hdata, hzero, rfl⟩ := nodeStep_eq_ok hstep (by
      rw [length_drop]
      omega)
    obtain ⟨-, rfl⟩ := Round.next.inj (Except.ok.inj h)
    have hshort := copyName_eq_ok hname
    rw [hdata, unitName_append hzero] at hshort
    rw [hbegin, hdata] at hbytes
    exact ⟨_, .beginNode hbytes hzero hshort hrest⟩
  · split at h
    · next hprop =>
      obtain ⟨strings, -, h⟩ := of_bind_eq_ok h
      obtain ⟨nameoff, hnameoff, h⟩ := of_bind_eq_ok h
      obtain ⟨len, hlen, h⟩ := of_bind_eq_ok h
      obtain ⟨-, rfl⟩ := Round.next.inj (Except.ok.inj h)
      obtain ⟨hnameLt, hnameBytes⟩ := word_eq_ok hnameoff
      obtain ⟨hlenLt, hlenBytes⟩ := word_eq_ok hlen
      rcases Nat.eq_zero_or_pos (propStep len) with hzero | hpos
      · rw [hzero] at hrest
        exact ⟨_, hrest⟩
      · rw [hprop, hlenBytes, Nat.add_assoc, hnameBytes] at hbytes
        exact ⟨_, .prop hbytes hlenLt hnameLt hpos hrest⟩
    · split at h
      · next hskip =>
        obtain ⟨-, rfl⟩ := Round.next.inj (Except.ok.inj h)
        exact ⟨_, .skip hbytes hskip hrest⟩
      · split at h
        · cases h
        · obtain ⟨-, rfl⟩ := Round.next.inj (Except.ok.inj h)
          exact ⟨_, hrest⟩

theorem walk_of_stop (h : round blob findsNothing () p = .ok (.stop ())) :
    ∃ calls, Walk blob p calls := by
  rw [round_findsNothing] at h
  obtain ⟨token, htoken, h⟩ := of_bind_eq_ok h
  obtain ⟨-, hbytes⟩ := word_eq_ok htoken
  split at h
  · obtain ⟨name, -, h⟩ := of_bind_eq_ok h
    obtain ⟨step, -, h⟩ := of_bind_eq_ok h
    cases h
  · split at h
    · obtain ⟨strings, -, h⟩ := of_bind_eq_ok h
      obtain ⟨nameoff, -, h⟩ := of_bind_eq_ok h
      obtain ⟨len, -, h⟩ := of_bind_eq_ok h
      cases h
    · split at h
      · cases h
      · split at h
        · next hend =>
          rw [hend] at hbytes
          exact ⟨_, .done hbytes⟩
        · cases h

theorem walk_of_traverseFrom (hsize : blob.length < 2 ^ 32) {fuel : ℕ}
    (h : traverseFrom blob findsNothing fuel () p = .ok ()) : ∃ calls, Walk blob p calls := by
  induction fuel generalizing p with
  | zero => cases h
  | succ fuel ih =>
    rw [traverseFrom_succ] at h
    obtain ⟨r, hround, h⟩ := of_bind_eq_ok h
    cases r with
    | stop s => exact walk_of_stop hround
    | next s p' =>
      obtain ⟨calls, hrest⟩ := ih h
      exact walk_of_next hsize hround hrest

end Converse

/-! ## Termination -/

section Ends

variable {blob : List UInt8}

/-- A callback that returns. -/
def returning {σ : Type} (func : σ → ℕ → Name → Bool × σ) (s : σ) (p : ℕ) (name : Name) :
    Except Fault (Bool × σ) := .ok (func s p name)

/-- From one round of the loop to the next, with the cursor. -/
def LoopStep (blob : List UInt8) {σ : Type} (func : σ → ℕ → Name → Bool × σ) (x y : σ × ℕ) : Prop :=
  round blob (returning func) x.1 x.2 = .ok (.next y.1 y.2)

/-- The call ends; up to then the cursor is inside the blob and moves on by whole words. -/
structure Ends (blob : List UInt8) {σ : Type} (func : σ → ℕ → Name → Bool × σ) (s : σ) : Prop where
  returns : ∃ fuel s', fdtTraverse blob (returning func) fuel s = .ok s'
  inside : ∀ x, Reachable (· = (s, field blob 8 4)) (LoopStep blob func) x → x.2 + 4 ≤ blob.length
  advances : ∀ x y, Reachable (· = (s, field blob 8 4)) (LoopStep blob func) x →
    LoopStep blob func x y → x.2 < y.2 ∧ 4 ∣ y.2 - x.2

/-- A call that goes on moves to the next token of the walk. -/
theorem Walk.next (h : Walk blob p calls) (hheader : 16 ≤ blob.length)
    (hsize : blob.length < 2 ^ 32) {σ : Type} {func : σ → ℕ → Name → Bool × σ} {s s' : σ}
    (hround : round blob (returning func) s p = .ok (.next s' p')) :
    p < p' ∧ 4 ∣ p' - p ∧ ∃ calls, Walk blob p' calls := by
  cases h.moves hheader hsize with
  | @call q name calls hlt hdvd hrest heq =>
    rw [heq] at hround
    obtain ⟨r, -, hround⟩ := of_bind_eq_ok hround
    split at hround
    · cases hround
    · obtain ⟨-, rfl⟩ := Round.next.inj (Except.ok.inj hround)
      exact ⟨hlt, hdvd, calls, hrest⟩
  | skip hrest heq =>
    rw [heq] at hround
    obtain ⟨-, rfl⟩ := Round.next.inj (Except.ok.inj hround)
    refine ⟨by omega, ?_, calls, hrest⟩
    rw [Nat.add_sub_cancel_left]
  | done heq =>
    rw [heq] at hround
    obtain ⟨r, -, hround⟩ := of_bind_eq_ok hround
    cases hround

theorem visit_returns {σ : Type} (func : σ → ℕ → Name → Bool × σ) (calls : List (ℕ × Name)) (s : σ) :
    ∃ s', visit (returning func) calls s = .ok s' := by
  induction calls generalizing s with
  | nil => exact ⟨s, rfl⟩
  | cons call calls ih =>
    rw [visit, returning, ok_bind]
    dsimp only
    split
    · exact ⟨_, rfl⟩
    · exact ih _

/-- For every function that is called, `fdt_traverse` ends inside the blob if and only if the tokens
lead to `FDT_END`. -/
theorem fdt_traverse_ends_iff (hheader : 40 ≤ blob.length) (hsize : blob.length < 2 ^ 32) :
    (∀ (σ : Type) (func : σ → ℕ → Name → Bool × σ) (s : σ), Ends blob func s) ↔
      ∃ calls, Walk blob (field blob 8 4) calls := by
  have hoff : word blob 8 = .ok (field blob 8 4) := if_pos (by omega)
  constructor
  · intro h
    obtain ⟨fuel, s', hrun⟩ := (h Unit (fun s _ _ ↦ (false, s)) ()).returns
    rw [fdtTraverse, hoff] at hrun
    exact walk_of_traverseFrom hsize hrun
  · rintro ⟨calls, hwalk⟩ σ func s
    have hreach : ∀ x, Reachable (· = (s, field blob 8 4)) (LoopStep blob func) x →
        ∃ calls, Walk blob x.2 calls := by
      intro x hx
      refine hx.invariant (P := fun x ↦ ∃ calls, Walk blob x.2 calls) ?_ ?_
      · rintro x rfl
        exact ⟨calls, hwalk⟩
      · rintro x y ⟨calls, hx⟩ hstep
        exact (hx.next (by omega) hsize hstep).2.2
    refine ⟨?_, fun x hx ↦ ?_, fun x y hx hstep ↦ ?_⟩
    · obtain ⟨fuel, hfuel⟩ := hwalk.traverseFrom (by omega) hsize
      obtain ⟨s', hvisit⟩ := visit_returns func calls s
      refine ⟨fuel, s', ?_⟩
      rw [fdtTraverse, hoff, ok_bind, hfuel, hvisit]
    · obtain ⟨calls, hx⟩ := hreach x hx
      exact hx.add_four_le
    · obtain ⟨calls, hx⟩ := hreach x hx
      obtain ⟨hlt, hdvd, -⟩ := hx.next (by omega) hsize hstep
      exact ⟨hlt, hdvd⟩

end Ends

/-- A blob with the given structure block right behind its header. -/
def blobOf (block : List UInt8) : List UInt8 :=
  bytesOf 4 0xd00dfeed ++ bytesOf 4 (40 + block.length) ++ bytesOf 4 40 ++ bytesOf 4 40 ++
    List.replicate 24 0 ++ block

/-- A root with one property. -/
def rootBlock : List UInt8 :=
  bytesOf 4 fdtBeginNode ++ [0, 0, 0, 0] ++ bytesOf 4 fdtProp ++ bytesOf 4 4 ++ bytesOf 4 0 ++
    [1, 2, 3, 4] ++ bytesOf 4 fdtEndNode ++ bytesOf 4 fdtEnd

theorem walk_rootBlock : ∃ calls, Walk (blobOf rootBlock) 40 calls := by
  have hend : Walk (blobOf rootBlock) 68 [(68, [])] := @Walk.done _ 68 _ rfl
  have hskip : Walk (blobOf rootBlock) 64 [(68, [])] :=
    @Walk.skip _ 64 fdtEndNode _ _ rfl (.inl rfl) hend
  have hprop : Walk (blobOf rootBlock) 48 [(48, _), (68, [])] :=
    @Walk.prop _ 48 4 0 _ _ rfl (by decide) (by decide) (by decide) hskip
  exact ⟨_, @Walk.beginNode _ 40 [] _ _ rfl not_mem_nil (by decide) hprop⟩

theorem fdt_traverse_ends_iff_root : 40 ≤ (blobOf rootBlock).length ∧
    ∀ (σ : Type) (func : σ → ℕ → Name → Bool × σ) (s : σ), Ends (blobOf rootBlock) func s :=
  ⟨by decide, (fdt_traverse_ends_iff (by decide) (by decide)).2 walk_rootBlock⟩

theorem traverseFrom_diverges {blob : List UInt8}
    (h : round blob findsNothing () p = .ok (.next () p)) (fuel : ℕ) :
    traverseFrom blob findsNothing fuel () p = .error .diverges := by
  induction fuel with
  | zero => rfl
  | succ fuel ih =>
    rw [traverseFrom_succ, h]
    exact ih

/-- An unknown token in front of `FDT_END`. -/
def unknownBlock : List UInt8 := bytesOf 4 0 ++ bytesOf 4 fdtEnd

/-- A property with a length of almost `2^32` in front of `FDT_END`. -/
def wrappingBlock : List UInt8 :=
  bytesOf 4 fdtProp ++ bytesOf 4 0xfffffff4 ++ bytesOf 4 0 ++ bytesOf 4 fdtEnd

/-- Neither of the two is passed. -/
theorem fdt_traverse_stays :
    (∀ fuel, fdtTraverse (blobOf unknownBlock) (returning fun s _ _ ↦ (false, s)) fuel () =
      .error .diverges) ∧
    ∀ fuel, fdtTraverse (blobOf wrappingBlock) (returning fun s _ _ ↦ (false, s)) fuel () =
      .error .diverges := by
  refine ⟨fun fuel ↦ ?_, fun fuel ↦ ?_⟩
  · have hoff : word (blobOf unknownBlock) 8 = .ok 40 := by decide
    have htoken : word (blobOf unknownBlock) 40 = .ok 0 := by decide
    rw [fdtTraverse, hoff]
    refine traverseFrom_diverges ?_ fuel
    rw [round_findsNothing, htoken]
    rfl
  · have hoff : word (blobOf wrappingBlock) 8 = .ok 40 := by decide
    have htoken : word (blobOf wrappingBlock) 40 = .ok fdtProp := by decide
    have hlen : word (blobOf wrappingBlock) 44 = .ok 0xfffffff4 := by decide
    rw [fdtTraverse, hoff]
    refine traverseFrom_diverges ?_ fuel
    rw [round_findsNothing, htoken, ok_bind, if_neg (by decide), if_pos rfl, hlen]
    rfl

end CapstoneKernel.Boot
