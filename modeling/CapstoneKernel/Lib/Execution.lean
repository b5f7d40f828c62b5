import Mathlib

/-!
# Total executions and reachable states

Two small vocabularies for programs embedded as functions into `Except`.

`Returns run post` is total correctness: the run ends without an error and its result satisfies
`post`.  Its rules follow the shape of a program, so a straight-line piece of code is verified by
chaining the specifications of its calls with `Returns.bind`.

`Reachable init step` collects the states of a transition system, and `Reachable.invariant` is the
induction that turns a property of single steps into a property of whole runs.  `LockStep` runs a
program along with a reference that says what its calls are to return.
-/

namespace CapstoneKernel.Execution

open List Option

/-- The run ends without an error, in a result that satisfies `post`. -/
def Returns {ε α : Type*} (run : Except ε α) (post : α → Prop) : Prop :=
  ∃ result, run = .ok result ∧ post result

section Rules

variable {ε α β : Type} {run : Except ε α} {post : α → Prop} {result : α} {next : α → Except ε β}

theorem Returns.ok (h : post result) : Returns (.ok result : Except ε α) post :=
  ⟨result, rfl, h⟩

theorem Returns.of_eq (hrun : run = .ok result) (h : post result) : Returns run post :=
  ⟨result, hrun, h⟩

@[simp] theorem ok_bind (result : α) (next : α → Except ε β) :
    (Except.ok result >>= next) = next result := rfl

theorem Returns.bind {post' : β → Prop} (hrun : Returns run post)
    (hnext : ∀ result, post result → Returns (next result) post') :
    Returns (run >>= next) post' := by
  obtain ⟨result, rfl, hpost⟩ := hrun
  exact hnext result hpost

theorem Returns.mono {post' : α → Prop} (hrun : Returns run post)
    (h : ∀ result, post result → post' result) : Returns run post' := by
  obtain ⟨result, heq, hpost⟩ := hrun
  exact ⟨result, heq, h result hpost⟩

/-- A returned result is the one of the specification. -/
theorem Returns.post_of_eq (hrun : Returns run post) (heq : run = .ok result) : post result := by
  obtain ⟨result', heq', hpost⟩ := hrun
  rw [heq] at heq'
  exact Except.ok.inj heq' ▸ hpost

/-- A sequence that returns has returned from its first part. -/
theorem of_bind_eq_ok {result : β} (h : run >>= next = .ok result) :
    ∃ middle, run = .ok middle ∧ next middle = .ok result := by
  cases hrun : run with
  | error e =>
    rw [hrun] at h
    cases h
  | ok middle =>
    rw [hrun] at h
    exact ⟨middle, rfl, h⟩

/-- A loop over a list keeps `P`.  If each round gets `D` done for what its element covers, and what
has been done stays so, the loop gets it done for what all elements cover. -/
theorem Returns.foldlM {σ : Type} {f : σ → α → Except ε σ} {P : σ → Prop} {D : β → σ → Prop}
    {C : α → β → Prop} {l : List α}
    (hround : ∀ s, P s → ∀ a ∈ l, Returns (f s a) fun s' ↦
      P s' ∧ (∀ b, D b s → D b s') ∧ ∀ b, C a b → D b s') {s : σ} (hs : P s) :
    Returns (l.foldlM f s) fun s' ↦
      P s' ∧ (∀ b, D b s → D b s') ∧ ∀ a ∈ l, ∀ b, C a b → D b s' := by
  induction l generalizing s with
  | nil => exact .ok ⟨hs, fun b hb ↦ hb, nofun⟩
  | cons a l ih =>
    rw [foldlM_cons]
    refine (hround s hs a mem_cons_self).bind fun s₁ ⟨hs₁, hkept₁, hdone⟩ ↦ ?_
    refine (ih (fun s hs a ha ↦ hround s hs a (mem_cons_of_mem _ ha)) hs₁).mono ?_
    rintro s' ⟨hs', hkept, hall⟩
    refine ⟨hs', fun b hb ↦ hkept b (hkept₁ b hb), fun a' ha' b hb ↦ ?_⟩
    rcases mem_cons.1 ha' with rfl | ha'
    · exact hkept b (hdone b hb)
    · exact hall a' ha' b hb

theorem map_eq_ok {f : α → β} {result : β} (h : run.map f = .ok result) :
    ∃ middle, run = .ok middle ∧ f middle = result := by
  cases run with
  | error e => cases h
  | ok middle => exact ⟨middle, rfl, Except.ok.inj h⟩

theorem eq_ok_of_toOption (h : run.toOption = some result) : run = .ok result := by
  cases run with
  | error e => cases h
  | ok middle => exact congrArg Except.ok (some.inj h)

theorem exists_of_any_toOption {p : α → Bool} (h : run.toOption.any p = true) :
    ∃ result, run = .ok result ∧ p result = true := by
  obtain ⟨result, hresult, hp⟩ := (Option.any_eq_true ..).1 h
  exact ⟨result, eq_ok_of_toOption hresult, hp⟩

theorem mapError_eq_ok {ε' : Type} {f : ε → ε'} (h : run.mapError f = .ok result) :
    run = .ok result := by
  cases run with
  | error e => cases h
  | ok middle => exact congrArg Except.ok (Except.ok.inj h)

end Rules

/-- The states a transition system can get into. -/
inductive Reachable {σ : Type*} (init : σ → Prop) (step : σ → σ → Prop) : σ → Prop
  | start {s : σ} : init s → Reachable init step s
  | next {s s' : σ} : Reachable init step s → step s s' → Reachable init step s'

/-- What holds initially and is kept by every step holds of every reachable state. -/
theorem Reachable.invariant {σ : Type*} {init : σ → Prop} {step : σ → σ → Prop} {P : σ → Prop}
    (hinit : ∀ s, init s → P s) (hstep : ∀ s s', P s → step s s' → P s') {s : σ}
    (h : Reachable init step s) : P s := by
  induction h with
  | start h => exact hinit _ h
  | next _ hs ih => exact hstep _ _ ih hs

section Actions

variable {σ α ε : Type} (enabled : σ → α → Prop) [∀ s a, Decidable (enabled s a)]
    (run : σ → α → Except ε σ)

/-- The actions one after the other, as long as each can happen and ends. -/
def runAll : List α → σ → Option σ
  | [], s => some s
  | a :: rest, s => if enabled s a then (run s a).toOption.bind (runAll rest) else none

variable {enabled run}

theorem Reachable.runAll {init : σ → Prop} {step : σ → σ → Prop}
    (hstep : ∀ s a s', enabled s a → run s a = .ok s' → step s s') {actions : List α} {s s' : σ}
    (h : Reachable init step s) (hrun : Execution.runAll enabled run actions s = some s') :
    Reachable init step s' := by
  induction actions generalizing s with
  | nil => exact some.inj hrun ▸ h
  | cons a rest ih =>
    rw [Execution.runAll] at hrun
    split at hrun
    · next henabled =>
      obtain ⟨t, ht, hrest⟩ := bind_eq_some_iff.1 hrun
      exact ih (h.next (hstep s a t henabled (eq_ok_of_toOption ht))) hrest
    · cases hrun

/-- A reachable state with a decidable property, found by evaluating a run. -/
theorem Reachable.exists_runAll (init : σ → Prop) (step : σ → σ → Prop)
    (hstep : ∀ s a s', enabled s a → run s a = .ok s' → step s s') {s : σ} (hinit : init s)
    (actions : List α) (Q : σ → Prop) [DecidablePred Q]
    (h : ((Execution.runAll enabled run actions s).any fun s' ↦ decide (Q s')) = true) :
    ∃ s', Reachable init step s' ∧ Q s' := by
  cases hrun : Execution.runAll enabled run actions s with
  | none =>
    rw [hrun] at h
    exact absurd h Bool.false_ne_true
  | some s' =>
    rw [hrun, any_some] at h
    exact ⟨s', (Reachable.start hinit).runAll hstep hrun, of_decide_eq_true h⟩

end Actions

section Calls

variable {σ α ω ε : Type} {allowed : σ → α → Prop} {run : σ → α → Except ε (ω × σ)}

/-- A call that is `allowed` and returns. -/
def CallStep (allowed : σ → α → Prop) (run : σ → α → Except ε (ω × σ)) (s s' : σ) : Prop :=
  ∃ a out, allowed s a ∧ run s a = .ok (out, s')

/-- Any call. -/
def anyCall (_ : σ) (_ : α) : Prop := True

instance (s : σ) (a : α) : Decidable (anyCall s a) := .isTrue trivial

/-- What the returning calls keep holds after any number of calls. -/
theorem Reachable.calls {P : σ → Prop} {init : σ → Prop} {s : σ} (hinit : ∀ s, init s → P s)
    (hcall : ∀ s a out s', P s → allowed s a → run s a = .ok (out, s') → P s')
    (h : Reachable init (CallStep allowed run) s) : P s := by
  refine h.invariant hinit ?_
  rintro s s' hs ⟨a, out, hallowed, hrun⟩
  exact hcall s a out s' hs hallowed hrun

/-- A state with a decidable property, found by evaluating calls. -/
theorem Reachable.exists_calls (allowed : σ → α → Prop) [∀ s a, Decidable (allowed s a)]
    (run : σ → α → Except ε (ω × σ)) (init : σ) (actions : List α) (Q : σ → Prop) [DecidablePred Q]
    (h : ((Execution.runAll allowed (fun s a ↦ (run s a).map Prod.snd) actions init).any fun s ↦ decide (Q s)) = true) :
    ∃ s, Reachable (· = init) (CallStep allowed run) s ∧ Q s := by
  refine Reachable.exists_runAll (· = init) (CallStep allowed run) ?_ rfl actions Q h
  intro s a s' hallowed hrun
  obtain ⟨r, hact, rfl⟩ := map_eq_ok hrun
  exact ⟨a, r.1, hallowed, hact⟩

end Calls

section LockStep

variable {σ ρ α ω ε : Type} {allowed : σ → α → Prop} {run : σ → α → Except ε (ω × σ)}
    {ref : ρ → α → ω × ρ}

/-- A program and its reference make the same call. -/
def LockStep (allowed : σ → α → Prop) (run : σ → α → Except ε (ω × σ)) (ref : ρ → α → ω × ρ) (x y : σ × ρ) : Prop :=
  ∃ a out, allowed x.1 a ∧ run x.1 a = .ok (out, y.1) ∧ y.2 = (ref x.2 a).2

/-- A relation that every allowed call keeps holds along all runs in lock step. -/
theorem Reachable.lockStep {sim : σ → ρ → Prop}
    (hcall : ∀ s r a, sim s r → allowed s a → Returns (run s a) fun o ↦ o.1 = (ref r a).1 ∧ sim o.2 (ref r a).2)
    {init x : σ × ρ} (hinit : sim init.1 init.2) (h : Reachable (· = init) (LockStep allowed run ref) x) :
    sim x.1 x.2 := by
  refine h.invariant (P := fun x ↦ sim x.1 x.2) (fun y hy ↦ hy ▸ hinit) ?_
  rintro ⟨s, r⟩ ⟨s', r'⟩ hsim ⟨a, out, hallowed, hrun, rfl⟩
  exact ((hcall s r a hsim hallowed).post_of_eq hrun).2

/-- A pair with a decidable property, found by evaluating a run of both. -/
theorem Reachable.exists_lockStep (allowed : σ → α → Prop) [∀ s a, Decidable (allowed s a)]
    (run : σ → α → Except ε (ω × σ)) (ref : ρ → α → ω × ρ) (init : σ × ρ) (actions : List α) (Q : σ × ρ → Prop)
    [DecidablePred Q]
    (h : ((Execution.runAll (fun x a ↦ allowed x.1 a) (fun x a ↦ (run x.1 a).map fun o ↦ (o.2, (ref x.2 a).2))
      actions init).any fun x ↦ decide (Q x)) = true) :
    ∃ x, Reachable (· = init) (LockStep allowed run ref) x ∧ Q x := by
  refine Reachable.exists_runAll (· = init) (LockStep allowed run ref) ?_ rfl actions Q h
  intro x a y hallowed hrun
  cases hact : run x.1 a with
  | error e =>
    rw [hact] at hrun
    cases hrun
  | ok o =>
    rw [hact] at hrun
    cases hrun
    exact ⟨a, o.1, hallowed, hact, rfl⟩

end LockStep

end CapstoneKernel.Execution
