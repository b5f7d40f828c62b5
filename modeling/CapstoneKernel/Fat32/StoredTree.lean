import CapstoneKernel.Fat32.Parsing

/-!
# The tree that a volume stores

What FAT32 says about directories: a file or directory has a short entry, in front of which there
may be the entries of a long name, in the order from its end to its beginning.  A subdirectory
begins with the entries `.` and `..`, and every directory ends with an entry that begins with a
zero.

Names are lists of characters.  A long name has characters of sixteen bits.
-/

namespace CapstoneKernel.Fat32

open LinkedChain Execution List

variable {d more : List UInt8} {a : UInt8}

/-! ## Names -/

/-- `ChkSum`. -/
def chkSum (name : List UInt8) : UInt8 :=
  name.foldl (fun sum b ↦ (if sum &&& 1 ≠ 0 then 0x80 else 0 : UInt8) + (sum >>> 1) + b) 0

/-- The characters in the bytes of a long entry. -/
def units : List UInt8 → List ℕ
  | lo :: hi :: rest => (lo.toNat + 2 ^ 8 * hi.toNat) :: units rest
  | _ => []

/-- The number of characters in a long entry. -/
def longChars : ℕ := 13

/-- A file or directory: the entries of its long name as they are stored, and its short entry. -/
structure Item where
  long : List (List UInt8)
  short : List UInt8

namespace Item

/-- The characters in the entries of the long name, with what is behind the name. -/
def longUnits (it : Item) : List ℕ := it.long.reverse.flatMap fun d ↦ units (longBytes d)

def base (it : Item) : List UInt8 := it.short.take 8

def ext (it : Item) : List UInt8 := (it.short.drop 8).take 3

/-- The short name.  The spaces at the end are no part of it, and its first byte may be replaced. -/
def shortName (it : Item) : List UInt8 :=
  let base := it.base.rdropWhile (· = space)
  let ext := it.ext.rdropWhile (· = space)
  (if dirName it.short 0 = dirEntryUnusedJp then base.set 0 dirEntryUnused else base) ++
    if ext = [] then [] else 46 :: ext

def name (it : Item) : List ℕ :=
  if it.long = [] then it.shortName.map UInt8.toNat else it.longUnits.takeWhile (· ≠ 0)

/-- The C string has the same characters.  In a long name only those of ASCII are bytes. -/
def NamedBy (it : Item) (name : List UInt8) : Prop :=
  name.map UInt8.toNat = it.name ∧ (it.long ≠ [] → ∀ b ∈ name, b < 0x80)

/-- The first byte of the entry of a long name at a position: its number from the end, with a mark
for the first one. -/
def ord (it : Item) (k : ℕ) : UInt8 := UInt8.ofNat (it.long.length - k) ||| if k = 0 then 0x40 else 0

/-- The entries of an item of the given type. -/
structure Valid (it : Item) (type : FileType) : Prop where
  length_eq : it.short.length = entrySz
  used : dirName it.short 0 ≠ dirEntryLastAndUnused ∧ dirName it.short 0 ≠ dirEntryUnused
  chars : ∀ b ∈ it.short.take 11, space ≤ b ∨ b = dirEntryUnusedJp
  attr : dirAttr it.short &&& attrVolumeId = 0
  type : dirAttr it.short &&& attrDirectory ≠ 0 ↔ type = .dir
  count : it.long.length ≤ 20
  long : ∀ d ∈ it.long, d.length = entrySz ∧ dirAttr d = attrLongName ∧ d.getD 13 0 = chkSum (it.short.take 11)
  ord : ∀ k d, it.long[k]? = some d → dirName d 0 = it.ord k
  /-- A zero and padding stand behind a long name that does not fill its entries. -/
  longName : it.long ≠ [] → ∃ name pad, it.longUnits = name ++ pad ∧ 0 ∉ name ∧
    (pad = [] ∨ ∃ k, pad = 0 :: List.replicate k 0xffff) ∧ longChars * (it.long.length - 1) < name.length

end Item

/-! ## Directories -/

/-- What is stored in a directory: entries that are not in use, the name of the volume, and files
and directories. -/
inductive Node
  | unused (d : List UInt8)
  | label (d : List UInt8)
  | file (it : Item)
  | dir (it : Item) (content : List Node)

namespace Node

def entries : Node → List (List UInt8)
  | unused d | label d => [d]
  | file it | dir it _ => it.long ++ [it.short]

def Valid : Node → Prop
  | unused d => dirName d 0 = dirEntryUnused
  | label d => dirName d 0 ≠ dirEntryLastAndUnused ∧ dirAttr d &&& ~~~attrArchive = attrVolumeId
  | file it => it.Valid .file
  | dir it _ => it.Valid .dir

/-- Files and directories. -/
def isStored : Node → Bool
  | unused _ | label _ => false
  | file _ | dir _ _ => true

/-- The entries of a file or directory. -/
def item : Node → Item
  | unused d | label d => ⟨[], d⟩
  | file it | dir it _ => it

end Node

/-- The entry `.` or `..`, with the cluster of the directory it stands for. -/
def IsDot (dots : ℕ) (clus : UInt32) (d : List UInt8) : Prop :=
  d.take 11 = List.replicate dots 46 ++ List.replicate (11 - dots) space ∧
    dirAttr d &&& ~~~attrArchive = attrDirectory ∧ dirFstClus d = clus

/-- The first entries of a directory.  The root has none, and its number is replaced by zero. -/
def DotEntries (rootClus : UInt32) (parent : Option UInt32) (clus : UInt32) (entries : List (List UInt8)) : Prop :=
  match parent with
  | none => entries = []
  | some p => ∃ d d', entries = [d, d'] ∧ IsDot 1 clus d ∧ IsDot 2 (if p = rootClus then 0 else p) d'

/-- A directory of the volume with what is stored in it. -/
inductive Stores (fs : Fs) : Option UInt32 → UInt32 → List Node → Prop
  | intro {parent : Option UInt32} {clus : UInt32} {nodes : List Node} {clusters : List UInt32}
      {dots rest : List (List UInt8)} {last : List UInt8} :
      ValidChain fs.vol fs.fat clus clusters →
      clusters.flatMap (clusterSlots fs.vol fs.disk) = dots ++ nodes.flatMap Node.entries ++ last :: rest →
      DotEntries fs.vol.rootClus parent clus dots → isEnd last = true → (∀ node ∈ nodes, node.Valid) →
      (∀ it content, Node.dir it content ∈ nodes → Stores fs (some clus) (dirFstClus it.short) content) →
      Stores fs parent clus nodes

/-- The vnode has the data of a file or directory. -/
def Vnode.Shows (v : Vnode) : Node → Prop
  | .file it => v.type = .file ∧ it.NamedBy v.name ∧ v.clusIdx = dirFstClus it.short ∧
      v.fileSize = (dirFileSize it.short).toNat
  | .dir it _ => v.type = .dir ∧ it.NamedBy v.name ∧ v.clusIdx = dirFstClus it.short
  | _ => False

/-- The child of a vnode for a file or directory. -/
def IsVnodeOf (fs : Fs) (parent child : ℕ) (node : Node) : Prop :=
  ∃ v, fs.nodes[child]? = some v ∧ v.parent = some parent ∧ v.Shows node

/-- The children of the vnode are what is stored in the directory. -/
inductive Mirrors (fs : Fs) : ℕ → List Node → Prop
  | intro {i : ℕ} {v : Vnode} {nodes : List Node} : fs.nodes[i]? = some v →
      v.children.length = (nodes.filter Node.isStored).length →
      (∀ (k child : ℕ) (node : Node), v.children[k]? = some child → (nodes.filter Node.isStored)[k]? = some node →
        IsVnodeOf fs i child node) →
      (∀ (k child : ℕ) (it : Item) (content : List Node), v.children[k]? = some child →
        (nodes.filter Node.isStored)[k]? = some (Node.dir it content) → Mirrors fs child content) →
      Mirrors fs i nodes

/-! ## Short names -/

/-- There are spaces only at the end. -/
def Padded (l : List UInt8) : Prop := l.takeWhile (· ≠ space) = l.rdropWhile (· = space)

section Padding

variable {l : List UInt8}

theorem rdropWhile_cons {α : Type} (p : α → Bool) (a : α) (l : List α) :
    (a :: l).rdropWhile p = if l.rdropWhile p = [] then (if p a then [] else [a]) else a :: l.rdropWhile p := by
  rw [List.rdropWhile, List.rdropWhile, reverse_cons, dropWhile_append]
  by_cases h : (l.reverse.dropWhile p) = []
  · cases hp : p a <;> simp [h, hp]
  · simp [h]

/-- A space that is not at the end stays in the name. -/
theorem padded_or (l : List UInt8) :
    Padded l ∨ ∃ t, l.rdropWhile (· = space) = l.takeWhile (· ≠ space) ++ space :: t := by
  induction l with
  | nil => exact .inl rfl
  | cons a l ih =>
    rw [Padded, rdropWhile_cons]
    by_cases ha : a = space
    · by_cases hl : l.rdropWhile (· = space) = []
      · exact .inl (by simp [ha, hl])
      · exact .inr ⟨l.rdropWhile (· = space), by simp [ha, hl]⟩
    · rcases ih with hpad | ⟨t, ht⟩
      · refine .inl ?_
        rw [takeWhile_cons_of_pos (by simpa using ha), hpad]
        split
        · next hl => simp [hl, ha]
        · rfl
      · refine .inr ⟨t, ?_⟩
        rw [takeWhile_cons_of_pos (by simpa using ha), ht]
        simp

theorem takeWhile_of_space_notMem (h : space ∉ l) : l.takeWhile (· ≠ space) = l := by
  rw [takeWhile_eq_self_iff]
  intro b hb
  exact decide_eq_true fun heq ↦ h (heq ▸ hb)

theorem padded_of_space_notMem (h : space ∉ l) : Padded l := by
  rcases padded_or l with hpad | ⟨t, ht⟩
  · exact hpad
  · have hmem : space ∈ l.rdropWhile (· = space) := ht ▸ mem_append_right _ mem_cons_self
    exact absurd ((List.rdropWhile_prefix _ _).subset hmem) h

theorem takeWhile_ext (hzero : 0 ∉ l) :
    (((l ++ a :: more).takeWhile (· ≠ space)).takeWhile (· ≠ 0)) =
      if space ∈ l then l.takeWhile (· ≠ space)
      else l ++ ((a :: more).takeWhile (· ≠ space)).takeWhile (· ≠ 0) := by
  have hkeep {l' : List UInt8} (hsub : l' ⊆ l) : ∀ b ∈ l', decide (b ≠ 0) = true :=
    fun b hb ↦ decide_eq_true fun heq ↦ hzero (heq ▸ hsub hb)
  split
  · next hmem =>
    have hlt : (l.takeWhile (· ≠ space)).length ≠ l.length := by
      intro heq
      have hall := takeWhile_eq_self_iff.1 ((List.takeWhile_prefix _).eq_of_length heq)
      exact of_decide_eq_true (hall space hmem) rfl
    rw [takeWhile_append, if_neg hlt, takeWhile_eq_self_iff]
    exact hkeep (List.takeWhile_prefix _).subset
  · next hmem =>
    have hall : ∀ b ∈ l, decide (b ≠ space) = true :=
      fun b hb ↦ decide_eq_true fun heq ↦ hmem (heq ▸ hb)
    rw [takeWhile_append_of_pos hall, takeWhile_append_of_pos (hkeep fun b hb ↦ hb)]

/-- The loop goes on behind an extension without a space. -/
theorem takeWhile_behind_eq_nil :
    ((a :: more).takeWhile (· ≠ space)).takeWhile (· ≠ 0) = [] ↔ a = space ∨ a = 0 := by
  by_cases hspace : a = space
  · simp [hspace]
  · rw [takeWhile_cons_of_pos (by simpa using hspace)]
    by_cases hzero : a = 0
    · simp [hzero]
    · simp [hspace, hzero]

/-- The extension comes out right exactly if its spaces are at the end, and if the field behind it
ends the loop. -/
theorem ext_eq_iff {x : UInt8} (hzero : 0 ∉ x :: l) :
    (if x ≠ space then [46] else []) ++ (((x :: l ++ a :: more).takeWhile (· ≠ space)).takeWhile (· ≠ 0)) =
        (if (x :: l).rdropWhile (· = space) = [] then [] else 46 :: (x :: l).rdropWhile (· = space)) ↔
      Padded (x :: l) ∧ (space ∉ x :: l → a = space ∨ a = 0) := by
  rw [takeWhile_ext hzero]
  by_cases hx : x = space
  · subst hx
    have hnil : (space :: l).takeWhile (· ≠ space) = [] := takeWhile_cons_of_neg (by simp)
    rw [if_neg (not_not_intro rfl), if_pos mem_cons_self, Padded, hnil]
    constructor
    · intro h
      split at h
      · next hrd => exact ⟨hrd.symm, fun hnot ↦ absurd mem_cons_self hnot⟩
      · cases h
    · rintro ⟨hrd, -⟩
      rw [if_pos hrd.symm]
      rfl
  · have hcons : (x :: l).takeWhile (· ≠ space) = x :: l.takeWhile (· ≠ space) :=
      takeWhile_cons_of_pos (by simpa using hx)
    have hne : (x :: l).rdropWhile (· = space) ≠ [] := by
      rcases padded_or (x :: l) with hpad | ⟨t, ht⟩
      · rw [← hpad, hcons]
        exact cons_ne_nil _ _
      · rw [ht]
        exact append_ne_nil_of_right_ne_nil _ (cons_ne_nil _ _)
    rw [if_pos hx, if_neg hne, singleton_append, cons_inj_right]
    by_cases hmem : space ∈ x :: l
    · rw [if_pos hmem]
      exact ⟨fun h ↦ ⟨h, fun hnot ↦ absurd hmem hnot⟩, And.left⟩
    · have hpad := padded_of_space_notMem hmem
      rw [if_neg hmem, ← hpad, takeWhile_of_space_notMem hmem, append_right_eq_self,
        takeWhile_behind_eq_nil]
      exact ⟨fun h ↦ ⟨hpad, fun _ ↦ h⟩, fun h ↦ h.2 hmem⟩

end Padding

namespace Item

/-- The short name comes out right. -/
def PlainShort (it : Item) : Prop :=
  Padded it.base ∧ Padded it.ext ∧
    (space ∉ it.ext → dirAttr it.short = attrArchive ∨ dirAttr it.short = 0)

section Short

variable {it : Item} {type : FileType}

theorem Valid.zero_notMem (h : it.Valid type) : 0 ∉ it.short.take 11 := by
  intro hzero
  rcases h.chars 0 hzero with hle | heq
  · exact absurd hle (by decide)
  · exact absurd heq (by decide)

theorem drop_eq (hlen : it.short.length = entrySz) :
    ∃ x l more, it.ext = x :: l ∧ dirNameExt it.short 0 = x ∧
      (it.short.drop 8).take 6 = x :: l ++ dirAttr it.short :: more := by
  unfold entrySz at hlen
  refine ⟨it.short[8], (it.short.drop 9).take 2, (it.short.drop 12).take 2, ?_, ?_, ?_⟩
  · rw [ext, drop_eq_getElem_cons (by omega), take_succ_cons]
  · rw [dirNameExt, getD_eq_getElem _ _ (by omega)]
  · rw [dirAttr, getD_eq_getElem _ _ (by omega), drop_eq_getElem_cons (by omega), take_succ_cons,
      cons_append, show (5 : ℕ) = 2 + 3 from rfl, take_add, drop_drop,
      drop_eq_getElem_cons (i := 9 + 2) (by omega), take_succ_cons]

theorem sfnName_eq_iff (hlen : it.short.length = entrySz) (hchars : 0 ∉ it.short.take 11)
    (hjp : dirName it.short 0 ≠ dirEntryUnusedJp) :
    sfnName it.short = it.shortName ↔ it.PlainShort := by
  obtain ⟨x, l, more, hext, hx, hdrop⟩ := drop_eq hlen
  have hbase : ∀ b ∈ it.base.takeWhile (· ≠ space), decide (b ≠ 0) = true := by
    intro b hb
    refine decide_eq_true fun hzero ↦ hchars ?_
    exact take_subset_take_left it.short (by omega)
      (hzero ▸ (List.takeWhile_prefix _).subset hb)
  have hext0 : 0 ∉ x :: l := by
    rw [← hext, ext]
    intro hzero
    have heq : (it.short.drop 8).take 3 = (it.short.take 11).drop 8 := by rw [drop_take]
    exact hchars (mem_of_mem_drop (heq ▸ hzero))
  have hsfn : sfnName it.short = it.base.takeWhile (· ≠ space) ++
    ((if x ≠ space then [46] else []) ++
      (((x :: l ++ dirAttr it.short :: more).takeWhile (· ≠ space)).takeWhile (· ≠ 0))) := by
    unfold sfnName
    dsimp only
    rw [hx, hdrop, append_assoc, ← base, takeWhile_append_of_pos hbase, takeWhile_append_of_pos]
    intro b hb
    split at hb
    · rw [mem_singleton.1 hb]
      rfl
    · exact absurd hb not_mem_nil
  have hshort : it.shortName = it.base.rdropWhile (· = space) ++
      if (x :: l).rdropWhile (· = space) = [] then [] else 46 :: (x :: l).rdropWhile (· = space) :=
        by
    unfold shortName
    dsimp only
    rw [if_neg hjp, hext]
  rw [hsfn, hshort, PlainShort, hext]
  rcases padded_or it.base with hpad | ⟨t, ht⟩
  · rw [← hpad, append_right_inj, ext_eq_iff hext0]
    exact ⟨fun h ↦ ⟨hpad, h⟩, And.right⟩
  · refine iff_of_false ?_ ?_
    · rw [ht, append_assoc, append_right_inj]
      intro heq
      split at heq
      · exact absurd (List.cons.inj heq).1 (by decide)
      · next hx =>
        rw [of_not_not hx] at heq
        simp at heq
    · rintro ⟨hpad, -⟩
      rw [Padded, ht] at hpad
      exact absurd (append_right_eq_self.1 hpad.symm) (cons_ne_nil _ _)

end Short

end Item

/-! ## Long names -/

/-- The bytes of a character that get into a name. -/
def keptUnit (u : ℕ) : List UInt8 := [UInt8.ofNat u, UInt8.ofNat (u / 2 ^ 8)].filter isKept

theorem keptUnit_of_lt {u : ℕ} (hpos : u ≠ 0) (hlt : u < 0x80) : keptUnit u = [UInt8.ofNat u] := by
  have hdiv : u / 2 ^ 8 = 0 := Nat.div_eq_of_lt (by omega)
  have hlow : isKept (UInt8.ofNat u) = true := by
    have hnat : (UInt8.ofNat u).toNat = u := UInt8.toNat_ofNat_of_lt' (Nat.lt_trans hlt (by decide))
    have hzero : UInt8.ofNat u ≠ 0 := fun heq ↦ hpos (by rw [← hnat, heq]; rfl)
    have hmax : UInt8.ofNat u ≠ 0xff := fun heq ↦ by
      rw [heq] at hnat
      have hbig : (0xff : UInt8).toNat = 255 := rfl
      omega
    simp [isKept, hzero, hmax]
  rw [keptUnit, hdiv, filter_cons_of_pos hlow]
  rfl

theorem length_units (l : List UInt8) : (units l).length = l.length / 2 := by
  induction l using units.induct with
  | case1 lo hi rest ih =>
    rw [units, length_cons, ih, length_cons, length_cons]
    omega
  | case2 l h =>
    cases l with
    | nil => rfl
    | cons a l =>
      cases l with
      | nil => simp [units]
      | cons b l => exact absurd rfl (h a b l)

/-- The bytes that are kept are those of the characters. -/
theorem filter_isKept_eq {l : List UInt8} (heven : l.length % 2 = 0) :
    l.filter isKept = (units l).flatMap keptUnit := by
  induction l using units.induct with
  | case1 lo hi rest ih =>
    have hlow : UInt8.ofNat (lo.toNat + 2 ^ 8 * hi.toNat) = lo := by
      apply UInt8.toNat.inj
      rw [UInt8.toNat_ofNat']
      have hlt := lo.toNat_lt
      omega
    have hhigh : (lo.toNat + 2 ^ 8 * hi.toNat) / 2 ^ 8 = hi.toNat := by
      have hlt := lo.toNat_lt
      omega
    rw [length_cons, length_cons] at heven
    rw [units, flatMap_cons, keptUnit, hlow, hhigh,
      UInt8.ofNat_toNat, ← ih (by omega), ← filter_append]
    rfl
  | case2 l h =>
    cases l with
    | nil => rfl
    | cons a l =>
      cases l with
      | nil => exact absurd heven (by simp)
      | cons b l => exact absurd rfl (h a b l)

/-- What the parser puts together from the entries of a long name.  The entry with the number 5 is
taken for one that is not in use. -/
def keptEntries (long : List (List UInt8)) : List UInt8 :=
  long.reverse.flatMap fun d ↦ if dirName d 0 = dirEntryUnusedJp then [] else keptBytes d

namespace Item

def keptLong (it : Item) : List UInt8 := keptEntries it.long

/-- The name that the parser gives to the vnode. -/
def parsedName (it : Item) : List UInt8 := if it.keptLong ≠ [] then it.keptLong else sfnName it.short

/-- The long name comes out right. -/
def PlainLong (it : Item) : Prop := it.long.length ≤ 5 ∧ ∀ u ∈ it.name, u < 0x80

theorem ord_facts : ∀ n ≤ 20, 0 < n → ∀ first : Bool,
    (UInt8.ofNat n ||| if first then 0x40 else 0) ≠ dirEntryLastAndUnused ∧
    (UInt8.ofNat n ||| if first then 0x40 else 0) ≠ dirEntryUnused ∧
    ((UInt8.ofNat n ||| if first then 0x40 else 0) = dirEntryUnusedJp ↔ first = false ∧ n = 5) := by
  decide

theorem length_flatMap_of_forall {α β : Type} {l : List α} {f : α → List β} {n : ℕ}
    (h : ∀ x ∈ l, (f x).length = n) : (l.flatMap f).length = n * l.length := by
  induction l with
  | nil => rfl
  | cons x l ih =>
    rw [flatMap_cons, length_append, h x mem_cons_self,
      ih fun y hy ↦ h y (mem_cons_of_mem x hy), length_cons, Nat.mul_succ, Nat.add_comm]

theorem length_flatMap_ite_le {α β : Type} {p : α → Prop} [DecidablePred p] (f : α → List β) (l : List α) :
    (l.flatMap fun x ↦ if p x then [] else f x).length ≤ (l.flatMap f).length := by
  induction l with
  | nil => exact Nat.le_refl _
  | cons x l ih =>
    rw [flatMap_cons, flatMap_cons, length_append, length_append]
    split
    · rw [length_nil]
      omega
    · omega

theorem length_sfnName_le (d : List UInt8) : (sfnName d).length ≤ 15 := by
  unfold sfnName
  dsimp only
  refine Nat.le_trans (List.takeWhile_prefix _).length_le ?_
  have hbase := (List.takeWhile_prefix (l := d.take 8) (· ≠ space)).length_le
  have hext := (List.takeWhile_prefix (l := (d.drop 8).take 6) (· ≠ space)).length_le
  rw [length_take] at hbase hext
  rw [length_append, length_append]
  split <;> simp only [length_singleton, length_nil] <;> omega

section Long

variable {it : Item} {type : FileType}

section

variable (h : it.Valid type)
include h

theorem Valid.ord_facts {k : ℕ} (hd : it.long[k]? = some d) :
    dirName d 0 ≠ dirEntryLastAndUnused ∧ dirName d 0 ≠ dirEntryUnused ∧
      (dirName d 0 = dirEntryUnusedJp ↔ k ≠ 0 ∧ it.long.length - k = 5) := by
  have hlt := (List.getElem?_eq_some_iff.1 hd).1
  have hcount := h.count
  obtain ⟨hlast, hunused, hjp⟩ := Item.ord_facts (it.long.length - k) (by omega) (by omega)
    (decide (k = 0))
  have hord : dirName d 0 = (UInt8.ofNat (it.long.length - k) ||| if decide (k = 0) =
    true then 0x40 else 0) := by
    rw [h.ord k d hd, Item.ord]
    simp only [decide_eq_true_eq]
  rw [hord]
  refine ⟨hlast, hunused, hjp.trans ?_⟩
  rw [decide_eq_false_iff_not]

theorem Valid.keptBytes_eq (hd : d ∈ it.long) :
    keptBytes d = (units (longBytes d)).flatMap keptUnit := by
  refine filter_isKept_eq ?_
  have hlen : d.length = 32 := (h.long d hd).1
  simp [longBytes, hlen]

/-- Nothing behind the name gets into it. -/
theorem Valid.name_append (hlong : it.long ≠ []) :
    ∃ pad, it.longUnits = it.name ++ pad ∧ 0 ∉ it.name ∧ (∀ u ∈ pad, keptUnit u = []) ∧
      longChars * (it.long.length - 1) < it.name.length := by
  obtain ⟨name, pad, hunits, hzero, hpad, hlt⟩ := h.longName hlong
  have hname : it.name = name := by
    have hall : ∀ u ∈ name, decide (u ≠ 0) = true := fun u hu ↦ decide_eq_true fun heq ↦
      hzero (heq ▸ hu)
    rw [Item.name, if_neg hlong, hunits, takeWhile_append_of_pos hall]
    rcases hpad with rfl | ⟨k, rfl⟩
    · rw [takeWhile_nil, append_nil]
    · rw [takeWhile_cons_of_neg (by simp), append_nil]
  rw [hname]
  refine ⟨pad, hunits, hzero, ?_, hlt⟩
  rcases hpad with rfl | ⟨k, rfl⟩
  · exact nofun
  · refine forall_mem_cons.2 ⟨by decide, fun u hu ↦ ?_⟩
    rw [eq_of_mem_replicate hu]
    decide

theorem Valid.kept_all (hlong : it.long ≠ []) (hascii : ∀ u ∈ it.name, u < 0x80) :
    it.long.reverse.flatMap keptBytes = it.name.map UInt8.ofNat := by
  obtain ⟨pad, hunits, hzero, hpad, -⟩ := h.name_append hlong
  calc it.long.reverse.flatMap keptBytes
      = it.long.reverse.flatMap fun d ↦ (units (longBytes d)).flatMap keptUnit :=
        flatMap_congr fun d hd ↦ h.keptBytes_eq (mem_reverse.1 hd)
    _ = it.longUnits.flatMap keptUnit := flatMap_assoc.symm
    _ = it.name.flatMap keptUnit ++ pad.flatMap keptUnit := by rw [hunits, flatMap_append]
    _ = it.name.flatMap keptUnit := by rw [flatMap_eq_nil_iff.2 hpad, append_nil]
    _ = it.name.flatMap fun u ↦ [UInt8.ofNat u] :=
        flatMap_congr fun u hu ↦ keptUnit_of_lt (fun heq ↦ hzero (heq ▸ hu)) (hascii u hu)
    _ = it.name.map UInt8.ofNat := map_eq_flatMap.symm

/-- No entry of a short long name is passed over. -/
theorem Valid.keptLong_of_le (hle : it.long.length ≤ 5) :
    it.keptLong = it.long.reverse.flatMap keptBytes := by
  refine flatMap_congr fun d hd ↦ if_neg fun hjp ↦ ?_
  obtain ⟨k, hk⟩ := mem_iff_getElem?.1 (mem_reverse.1 hd)
  obtain ⟨hne, hnumber⟩ := (h.ord_facts hk).2.2.1 hjp
  omega

/-- The bytes of the entry with the number 5 are missing in a name with more entries. -/
theorem Valid.length_keptLong_lt (hlt : 5 < it.long.length) (hascii : ∀ u ∈ it.name, u < 0x80) :
    it.keptLong.length < it.name.length := by
  have hlong : it.long ≠ [] := ne_nil_of_length_pos (by omega)
  obtain ⟨pad, hunits, hzero, -, hname⟩ := h.name_append hlong
  obtain ⟨front, d, back, hsplit, hback⟩ : ∃ front d back, it.long = front ++ d :: back ∧
    back.length = 4 := by
    refine ⟨it.long.take (it.long.length - 5), it.long[it.long.length - 5],
      it.long.drop (it.long.length - 5 + 1),
      ?_, ?_⟩
    · rw [← drop_eq_getElem_cons, take_append_drop]
    · rw [length_drop]
      omega
  have hjp : dirName d 0 = dirEntryUnusedJp := by
    refine (h.ord_facts (k := front.length) ?_).2.2.2 ?_
    · rw [hsplit]
      simp
    · rw [hsplit, length_append, length_cons] at hlt ⊢
      omega
  have hchars : ∀ d ∈ it.long, (units (longBytes d)).length = longChars := by
    intro d hd
    have hlen : d.length = 32 := (h.long d hd).1
    rw [length_units]
    simp [longBytes, hlen, longChars]
  have hkept : keptBytes d ≠ [] := by
    have hd : d ∈ it.long := hsplit ▸ mem_append_right _ mem_cons_self
    obtain ⟨u, rest, hu⟩ := exists_cons_of_length_pos (l := units (longBytes d))
      (by rw [hchars d hd]; decide)
    have hmem : u ∈ it.name := by
      have hfour : (back.reverse.flatMap fun d ↦ units (longBytes d)).length = longChars * 4 := by
        rw [length_flatMap_of_forall fun d hd ↦ hchars d ?_, length_reverse, hback]
        rw [hsplit]
        exact mem_append_right _ (mem_cons_of_mem _ (mem_reverse.1 hd))
      have hget : it.longUnits[longChars * 4]? = some u := by
        rw [longUnits, hsplit, reverse_append, reverse_cons, append_assoc, flatMap_append,
          getElem?_append_right (Nat.le_of_eq hfour), hfour, Nat.sub_self, singleton_append,
          flatMap_cons, hu]
        rfl
      rw [hunits, getElem?_append_left (by unfold longChars at hname ⊢; omega)] at hget
      exact mem_of_getElem? hget
    rw [h.keptBytes_eq hd, hu, flatMap_cons,
      keptUnit_of_lt (fun heq ↦ hzero (heq ▸ hmem)) (hascii u hmem)]
    exact cons_ne_nil _ _
  have hall := congrArg List.length (h.kept_all hlong hascii)
  rw [length_map] at hall
  rw [← hall, keptLong, keptEntries, hsplit, reverse_append, reverse_cons,
    flatMap_append, flatMap_append,
    flatMap_append, flatMap_append, flatMap_singleton, flatMap_singleton, if_pos hjp]
  have hfront := length_flatMap_ite_le (p := fun d ↦
    dirName d 0 = dirEntryUnusedJp) keptBytes front.reverse
  have hback := length_flatMap_ite_le (p := fun d ↦
    dirName d 0 = dirEntryUnusedJp) keptBytes back.reverse
  have hpos := length_pos_iff.2 hkept
  simp only [length_append, length_nil]
  omega

theorem Valid.namedBy_iff (hjp : dirName it.short 0 ≠ dirEntryUnusedJp) :
    it.NamedBy it.parsedName ↔ if it.long = [] then it.PlainShort else it.PlainLong := by
  split
  · next hlong =>
    have hkept : it.keptLong = [] := by rw [keptLong, hlong]; rfl
    rw [← sfnName_eq_iff h.length_eq h.zero_notMem hjp, NamedBy, parsedName, if_neg (not_not_intro hkept), name,
      if_pos hlong,
      List.map_inj_right fun _ _ ↦ UInt8.toNat.inj]
    exact ⟨And.left, fun heq ↦ ⟨heq, fun hne ↦ absurd hlong hne⟩⟩
  · next hlong =>
    obtain ⟨pad, -, hzero, -, hname⟩ := h.name_append hlong
    constructor
    · rintro ⟨hmap, hbytes⟩
      have hascii : ∀ u ∈ it.name, u < 0x80 := by
        intro u hu
        obtain ⟨b, hb, rfl⟩ := mem_map.1 (hmap ▸ hu)
        exact UInt8.lt_iff_toNat_lt.1 (hbytes hlong b hb)
      refine ⟨Nat.le_of_not_lt fun hlt ↦ ?_, hascii⟩
      have hlen := congrArg List.length hmap
      have hshort := length_sfnName_le it.short
      have hless := h.length_keptLong_lt hlt hascii
      rw [length_map, parsedName] at hlen
      unfold longChars at hname
      split at hlen <;> omega
    · rintro ⟨hle, hascii⟩
      have hkept : it.keptLong = it.name.map UInt8.ofNat :=
        (h.keptLong_of_le hle).trans (h.kept_all hlong hascii)
      have hne : it.keptLong ≠ [] := by
        rw [hkept]
        exact ne_nil_of_length_pos (by rw [length_map]; omega)
      have hnat : ∀ u ∈ it.name, (UInt8.ofNat u).toNat = u :=
        fun u hu ↦ UInt8.toNat_ofNat_of_lt' (Nat.lt_trans (hascii u hu) (by decide))
      rw [NamedBy, parsedName, if_pos hne, hkept, map_map]
      refine ⟨(map_congr_left (g := id) hnat).trans (map_id _), fun _ b hb ↦ ?_⟩
      obtain ⟨u, hu, rfl⟩ := mem_map.1 hb
      rw [UInt8.lt_iff_toNat_lt, hnat u hu]
      exact hascii u hu

end

end Long

end Item

end CapstoneKernel.Fat32
