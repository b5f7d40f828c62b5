import CapstoneKernel.Lib.ByteFields
import CapstoneKernel.Vfs.Tree

/-!
# The tokenizer of `string.c`

`strtok_r` cuts its own copy of a string in place.  `cuts` says what the calls are to return, call
by call, for any delimiters.
-/

namespace CapstoneKernel.Vfs

open ByteFields List

/-- `struct strtok_ctx`. -/
structure StrtokCtx where
  str : List UInt8
  idx : ℕ
  len : ℕ

/-- The context after the initialisation of `strtok_r`, in memory that `malloc` has returned. -/
def StrtokCtx.init (fresh : StrtokCtx) (str : Name) : StrtokCtx where
  str := str ++ 0 :: fresh.str.drop (str.length + 1)
  idx := 0
  len := str.length + 1

/-- A call of `strtok_r` with the given context: the position of the token or null.  The loop over
`delim` includes its terminator. -/
def strtokR (ctx : StrtokCtx) (delim : Name) : Option ℕ × StrtokCtx :=
  match (range' ctx.idx (ctx.len - ctx.idx)).find? fun i ↦ ctx.str.getD i 0 ∈ delim ++ [0] with
  | none => (none, ctx)
  | some i => (some ctx.idx, { ctx with str := ctx.str.set i 0, idx := i + 1 })

/-- The strings that successive calls return. -/
def strtokCalls (ctx : StrtokCtx) : List Name → List (Option Name)
  | [] => []
  | delim :: delims =>
    let (ret, ctx') := strtokR ctx delim
    ret.map (fun i ↦ string (ctx'.str.drop i)) :: strtokCalls ctx' delims

/-- A token with the delimiter behind it, if it does not end with the string. -/
structure Cut where
  token : Name
  delimiter : Option UInt8

/-- The characters of a cut. -/
def Cut.chars (cut : Cut) : Name := cut.token ++ cut.delimiter.toList

/-- What a call is to cut from the rest of a string, of which there may be nothing left. -/
def nextCut (delim : Name) : Option Name → Option Cut × Option Name
  | none => (none, none)
  | some rest =>
    match rest.span (· ∉ delim) with
    | (token, []) => (some ⟨token, none⟩, none)
    | (token, c :: rest') => (some ⟨token, some c⟩, some rest')

/-- What successive calls are to cut, with what they leave. -/
def cuts (rest : Option Name) : List Name → List (Option Cut) × Option Name
  | [] => ([], rest)
  | delim :: delims =>
    let (cut, rest') := nextCut delim rest
    let (later, left) := cuts rest' delims
    (cut :: later, left)

/-- What is left of the string is in the context from `idx` on. -/
inductive StrtokCtx.Rest (ctx : StrtokCtx) : Option Name → Prop
  | ended (idx : ctx.len ≤ ctx.idx) : Rest ctx none
  | string {rest : Name} (done more : Name) (nonzero : 0 ∉ rest)
    (str : ctx.str = done ++ (rest ++ 0 :: more)) (idx : ctx.idx = done.length)
    (len : ctx.len = done.length + (rest.length + 1)) : Rest ctx (some rest)

theorem span_cases (delim rest : Name) :
    (rest.span (· ∉ delim) = (rest, []) ∧ ∀ x ∈ rest, x ∉ delim) ∨
    ∃ token c rest', rest.span (· ∉ delim) = (token, c :: rest') ∧ rest = token ++ c :: rest' ∧
      (∀ x ∈ token, x ∉ delim) ∧ c ∈ delim := by
  have hsplit : rest.takeWhile (· ∉ delim) ++ rest.dropWhile (· ∉ delim) = rest :=
    takeWhile_append_dropWhile
  have htoken : ∀ x ∈ rest.takeWhile (· ∉ delim), x ∉ delim := fun x hx ↦ by
    simpa using mem_takeWhile_imp hx
  rw [span_eq_takeWhile_dropWhile]
  cases hdrop : rest.dropWhile (· ∉ delim) with
  | nil =>
    rw [hdrop, append_nil] at hsplit
    rw [hsplit] at htoken ⊢
    exact .inl ⟨rfl, htoken⟩
  | cons c rest' =>
    refine .inr ⟨_, c, rest', rfl, by rw [← hdrop, hsplit], htoken, ?_⟩
    have hc := head?_dropWhile_not (· ∉ delim) rest
    rw [hdrop] at hc
    simpa using hc

variable {ctx : StrtokCtx} {rest : Option Name}

/-- A call ends its token at the first character that is a delimiter or the terminator. -/
theorem strtokR_cut {done token more delim : Name} {c : UInt8}
    (hstr : ctx.str = done ++ (token ++ c :: more)) (hidx : ctx.idx = done.length)
    (hlen : done.length + token.length < ctx.len) (htoken : ∀ x ∈ token, x ∉ delim)
    (hzero : 0 ∉ token) (hc : c ∈ delim ++ [0]) :
    strtokR ctx delim = (some done.length,
      ⟨done ++ (token ++ 0 :: more), done.length + token.length + 1, ctx.len⟩) := by
  have hget (i : ℕ) : ctx.str.getD (done.length + i) 0 = (token ++ c :: more).getD i 0 := by
    rw [hstr, getD_append_right _ _ _ _ (Nat.le_add_right ..), Nat.add_sub_cancel_left]
  have hfind : (range' ctx.idx (ctx.len - ctx.idx)).find?
      (fun i ↦ ctx.str.getD i 0 ∈ delim ++ [0]) = some (done.length + token.length) := by
    rw [find?_range'_eq_some]
    refine ⟨?_, mem_range'_1.2 (by omega), fun j hle hlt ↦ ?_⟩
    · rw [hget, getD_append_right _ _ _ _ le_rfl, Nat.sub_self]
      simpa using hc
    · obtain ⟨i, rfl⟩ := Nat.exists_eq_add_of_le (hidx ▸ hle)
      have hi : i < token.length := by omega
      have hmem : token[i] ∈ token := getElem_mem hi
      rw [hget, getD_append _ _ _ _ hi, getD_eq_getElem _ _ hi]
      have hne : token[i] ≠ 0 := fun heq ↦ hzero (heq ▸ hmem)
      simp [htoken _ hmem, hne]
  rw [strtokR, hfind]
  simp [hstr, hidx, set_append_right]

/-- A call cuts what is to be cut, and leaves what is to be left. -/
theorem strtokR_spec (h : ctx.Rest rest) (delim : Name) :
    (strtokR ctx delim).1.map (fun i ↦ string ((strtokR ctx delim).2.str.drop i)) =
      (nextCut delim rest).1.map Cut.token ∧
    (strtokR ctx delim).2.Rest (nextCut delim rest).2 := by
  cases h with
  | ended hidx =>
    have hcall : strtokR ctx delim = (none, ctx) := by
      rw [strtokR, Nat.sub_eq_zero_of_le hidx]
      rfl
    rw [hcall]
    exact ⟨rfl, .ended hidx⟩
  | @string rest done more hzero hstr hidx hlen =>
    have hread {token : Name} (htoken : 0 ∉ token) (more : Name) :
        some (ByteFields.string ((done ++ (token ++ 0 :: more)).drop done.length)) =
          some token := by
      rw [drop_left, string_append htoken]
    rcases span_cases delim rest with ⟨hspan, hall⟩ | ⟨token, c, rest', hspan, rfl, hall, hc⟩
    · rw [strtokR_cut hstr hidx (by omega) hall hzero (by simp), nextCut, hspan]
      exact ⟨hread hzero more, .ended (by dsimp only; omega)⟩
    · rw [mem_append, mem_cons, not_or, not_or] at hzero
      rw [append_assoc, cons_append] at hstr
      rw [length_append, length_cons] at hlen
      rw [strtokR_cut hstr hidx (by omega) hall hzero.1 (mem_append_left _ hc), nextCut, hspan]
      refine ⟨hread hzero.1 _, .string (done ++ (token ++ [0])) more hzero.2.2 ?_ ?_ ?_⟩
      · simp only [append_assoc, cons_append, nil_append]
      · simp only [length_append, length_singleton, Nat.add_assoc]
      · simp only [length_append, length_singleton]
        omega

theorem strtokCalls_eq (h : ctx.Rest rest) (delims : List Name) :
    strtokCalls ctx delims = (cuts rest delims).1.map (·.map Cut.token) := by
  induction delims generalizing ctx rest with
  | nil => rfl
  | cons delim delims ih =>
    obtain ⟨hcut, hrest⟩ := strtokR_spec h delim
    exact congrArg₂ cons hcut (ih hrest)

theorem nextCut_chars (delim : Name) (rest : Option Name) :
    (nextCut delim rest).1.elim [] Cut.chars ++ (nextCut delim rest).2.getD [] = rest.getD [] := by
  cases rest with
  | none => rfl
  | some rest =>
    rcases span_cases delim rest with ⟨hspan, -⟩ | ⟨token, c, rest', hspan, rfl, -⟩
    · simp only [nextCut, hspan]
      simp [Cut.chars]
    · simp only [nextCut, hspan]
      simp [Cut.chars]

theorem cuts_chars (rest : Option Name) (delims : List Name) :
    (cuts rest delims).1.flatMap (·.elim [] Cut.chars) ++ (cuts rest delims).2.getD [] =
      rest.getD [] := by
  induction delims generalizing rest with
  | nil => rfl
  | cons delim delims ih =>
    rw [← nextCut_chars delim rest, ← ih (nextCut delim rest).2, ← append_assoc]
    rfl

/-- For a path and `"/"` the calls return the tokens of the path, one after the other. -/
theorem strtokCalls_slash {ctx : StrtokCtx} {path : Name} (h : ctx.Rest (some path)) (n : ℕ) :
    strtokCalls ctx (replicate n [slash]) = (range n).map fun k ↦ (tokens path)[k]? := by
  have hnone (n : ℕ) : (cuts none (replicate n [slash])).1 = replicate n none := by
    induction n with
    | zero => rfl
    | succ n ih => exact congrArg (cons none) ih
  rw [strtokCalls_eq h]
  clear h
  induction n generalizing path with
  | zero => rfl
  | succ n ih =>
    rw [replicate_succ, range_succ_eq_map, map_cons, map_map, cuts]
    rcases span_cases [slash] path with ⟨hspan, hall⟩ | ⟨token, c, rest', hspan, rfl, hall, hc⟩
    · have htokens : tokens path = [path] :=
        splitOnP_eq_singleton fun x hx ↦ by simpa using hall x hx
      simp only [nextCut, hspan, hnone, htokens]
      simp [Function.comp_def]
    · have htokens : tokens (token ++ c :: rest') = token :: tokens rest' :=
        splitOnP_append_cons_of_forall_mem (fun x hx ↦ by simpa using hall x hx) c
          (by simpa using hc) rest'
      simp only [nextCut, hspan, map_cons, ih, htokens]
      simp [Function.comp_def]

theorem strtokCalls_slash_path :
    strtokCalls ⟨[97, 47, 98, 0], 0, 4⟩ (replicate 3 [slash]) = [some [97], some [98], none] :=
  @strtokCalls_slash _ [97, 47, 98] (.string [] [] (by decide) rfl rfl rfl) 3

/-- The calls on one context return what is to be cut from the string, whatever delimiters each
of them is given, and the tokens with the cut delimiters make up the string. -/
theorem strtok_law (str : Name) (hzero : 0 ∉ str) (hlen : str.length < strLen) (fresh : StrtokCtx)
    (hfresh : fresh.str.length = strLen) (delims : List Name) :
    (fresh.init str).str.length = strLen ∧
    strtokCalls (fresh.init str) delims = (cuts (some str) delims).1.map (·.map Cut.token) ∧
    (cuts (some str) delims).1.flatMap (·.elim [] Cut.chars) ++
      (cuts (some str) delims).2.getD [] = str := by
  refine ⟨?_, strtokCalls_eq (.string [] _ hzero rfl rfl (Nat.zero_add _).symm) delims,
    cuts_chars (some str) delims⟩
  simp only [StrtokCtx.init, length_append, length_cons, length_drop]
  omega

theorem strtok_law_path : (0 : UInt8) ∉ [47, 97, 47] ∧ [47, 97, 47].length < strLen ∧
      strtokCalls (StrtokCtx.init ⟨replicate strLen 7, 0, 0⟩ [47, 97, 47]) [[47], [], [47]] =
        [some [], some [97, 47], none] :=
  ⟨by decide, by decide, (strtok_law [47, 97, 47] (by decide) (by decide) ⟨replicate strLen 7, 0, 0⟩
    (length_replicate ..) [[47], [], [47]]).2.1⟩

end CapstoneKernel.Vfs
