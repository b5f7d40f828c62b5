import CapstoneKernel.Fat32.Directory

/-!
# What writing to a file does

`fat32_write` walks the chain of the file from its first cluster, one cluster for every boundary
between clusters that the written sectors pass, and appends a free cluster whenever the chain has
come to its end.  The cached sectors grow with the position.
-/

namespace CapstoneKernel.Fat32

open Execution List Option

variable {fs fs' : Fs} {cache : List Sector} {buf : List UInt8} {d : Option ℕ} {v : Vnode}
  {whichSec parent : ℕ} {file file' : File}

/-! ## The cursor -/

/-- The clusters on the chain of the file and those that can be put behind it. -/
def available (fs : Fs) (clusters : List UInt32) : ℕ := clusters.length + (freeClusters fs.vol fs.fat).card

/-- The cursor at position `p` of the chain with the given head. -/
structure Cursor (fs : Fs) (heads : List UInt32) (head : UInt32) (clusters : List UInt32) (p : ℕ) (clus : UInt32) :
    Prop where
  chainsOk : ChainsOk fs.vol fs.fat heads
  mem : head ∈ heads
  chain : FatChain fs.vol fs.fat head clusters
  clus : clusters[p]? = some clus

/-- The cursor has come to position `p`, on a chain that has got the free clusters this takes. -/
def Moves (fs : Fs) (heads : List UInt32) (head : UInt32) (clusters : List UInt32) (p : ℕ)
    (clus' : UInt32) (fs' : Fs) : Prop :=
  ∃ fat clusters', fs' = { fs with fat := fat } ∧ Appends fs.vol heads fs.fat fat ∧
    clusters <+: clusters' ∧ Cursor fs' heads head clusters' p clus' ∧
    available fs' clusters' = available fs clusters

section Cursor

variable {fs fs' : Fs} {heads : List UInt32} {head clus clus' : UInt32} {clusters : List UInt32} {p : ℕ}
  (h : Cursor fs heads head clusters p clus)
include h

theorem Cursor.stays : Moves fs heads head clusters p clus fs :=
  ⟨fs.fat, clusters, rfl, .refl, prefix_rfl, h, rfl⟩

/-- The cursor moves on, to a new cluster if it was on the last one. -/
theorem Cursor.nextClus_moves (hrun : nextClus fs clus = .ok (clus', fs')) :
    Moves fs heads head clusters (p + 1) clus' fs' := by
  obtain ⟨hok, hhead, hchain, hp⟩ := h
  obtain ⟨entry, hentry, hrun⟩ := of_bind_eq_ok hrun
  obtain ⟨-, rfl⟩ := getFatEntry_eq_ok hentry
  have hmem := mem_of_getElem? hp
  split at hrun
  · next hmark =>
    have hused := hchain.ne_free hok.endOfFile hmem
    obtain ⟨hlt, hfree, rfl⟩ := (linkFreeClus_eq_ok hrun).2 hused
    have hnone := (hchain.and_mask_eq_iff hok.endOfFile hp).1 hmark
    have hlast : fatNext fs.vol fs.fat clus = none := (hchain.next hp).trans hnone
    have hlinks : Links fs.vol fs.fat heads clus clus' :=
      ⟨⟨head, hhead, clusters, hchain, hmem⟩, hfree, hlt⟩
    obtain ⟨clusters', hpre, hchain', heq⟩ := hok.isPrefix_linked hlinks hlast hchain
    obtain rfl := heq hmem
    have hlength : clusters.length = p + 1 := by
      have hle := List.getElem?_eq_none_iff.1 hnone
      have hlt := (List.getElem?_eq_some_iff.1 hp).1
      omega
    have hcard := card_freeClusters_linked hused hfree (hok.two_le_of_free hfree) hlt hok.endOfFile
    refine ⟨_, _, rfl, .link .refl hlinks hlast, hpre, ⟨hok.link hlinks, hhead, hchain', ?_⟩, ?_⟩
    · rw [← hlength, getElem?_append_right (Nat.le_refl _), Nat.sub_self]
      rfl
    · unfold available
      rw [length_append, length_singleton]
      dsimp only
      omega
  · next hmark =>
    cases hrun
    refine ⟨fs.fat, clusters, rfl, .refl, prefix_rfl, ⟨hok, hhead, hchain, ?_⟩, rfl⟩
    rw [← hchain.next hp, fatNext, if_neg]
    intro hraw
    apply hmark
    rw [hraw, hok.endOfFile]
    decide

theorem Cursor.advanceClus_moves (hrun : advanceClus fs whichSec clus = .ok (clus', fs')) :
    Moves fs heads head clusters
      (p + ((whichSec + 1) / fs.vol.secPerClus - whichSec / fs.vol.secPerClus)) clus' fs' := by
  unfold advanceClus at hrun
  split at hrun
  · next hmod =>
    rw [Nat.succ_div_of_mod_eq_zero hmod, Nat.add_sub_cancel_left]
    exact h.nextClus_moves hrun
  · next hmod =>
    rw [Nat.succ_div_of_mod_ne_zero hmod, Nat.sub_self]
    cases hrun
    exact h.stays

end Cursor

/-! ## The loop -/

section Loop

variable {w w' : WriteState} {cur fuel : ℕ} {buf rest : List UInt8}

/-- The number of bytes one round writes. -/
def roundSize (w : WriteState) (buf : List UInt8) : ℕ := min buf.length (blkSz - w.fPos % blkSz)

/-- The sectors after a round that has stored `sec`. -/
def roundCache (w : WriteState) (cur : ℕ) (sec : Sector) (rest : List UInt8) : List Sector :=
  if rest ≠ [] ∧ cur + 1 = w.cache.length then w.cache.set cur sec ++ [.zero] else w.cache.set cur sec

theorem writeRound_eq_ok (h : writeRound w cur buf = .ok (rest, w')) :
    ∃ sec sec' clus fs, w.cache[cur]? = some sec ∧
      sec.store (w.fPos % blkSz) (buf.take (roundSize w buf)) = .ok sec' ∧
      advanceClus w.fs w.whichSec w.clusIdx = .ok (clus, fs) ∧ rest = buf.drop (roundSize w buf) ∧
      w' = ⟨fs, roundCache w cur sec' rest, max w.fileSize (w.fPos + roundSize w buf),
        w.fPos + roundSize w buf, w.whichSec + 1, clus⟩ := by
  unfold writeRound at h
  split at h
  · cases h
  · next sec hsec =>
    obtain ⟨sec', hstore, h⟩ := of_bind_eq_ok h
    obtain ⟨⟨clus, fs⟩, hadvance, h⟩ := of_bind_eq_ok h
    cases h
    refine ⟨sec, sec', clus, fs, hsec, hstore, hadvance, rfl, ?_⟩
    rw [roundCache, length_set]
    rfl

/-- The rounds the loop makes. -/
inductive Rounds : WriteState → ℕ → List UInt8 → WriteState → Prop
  | nil {w : WriteState} {cur : ℕ} : Rounds w cur [] w
  | cons {w w₁ w' : WriteState} {cur : ℕ} {buf rest : List UInt8} : buf ≠ [] →
      writeRound w cur buf = .ok (rest, w₁) → Rounds w₁ (cur + 1) rest w' → Rounds w cur buf w'

theorem writeLoop_rounds (h : writeLoop fuel w cur buf = .ok w') : Rounds w cur buf w' := by
  induction fuel generalizing w cur buf with
  | zero =>
    cases buf with
    | nil => exact Except.ok.inj h ▸ .nil
    | cons c buf => cases h
  | succ fuel ih =>
    cases buf with
    | nil => exact Except.ok.inj h ▸ .nil
    | cons c buf =>
      obtain ⟨⟨rest, w₁⟩, hround, h⟩ := of_bind_eq_ok h
      exact .cons nofun hround (ih h)

section

variable (h : Rounds w cur buf w')
include h

theorem Rounds.whichSec_le : w.whichSec ≤ w'.whichSec ∧ (buf ≠ [] → w.whichSec < w'.whichSec) := by
  induction h with
  | nil => exact ⟨Nat.le_refl _, fun hne ↦ absurd rfl hne⟩
  | cons _ hround _ ih =>
    obtain ⟨sec, sec', clus, fs, -, -, -, -, rfl⟩ := writeRound_eq_ok hround
    have hle := ih.1
    dsimp only at hle
    exact ⟨by omega, fun _ ↦ by omega⟩

omit h in
/-- The number of sectors up to the end of a write. -/
def sectorsAfter (fPos len : ℕ) : ℕ := (fPos + (len - 1)) / blkSz + 1

theorem Rounds.whichSec_eq (hbuf : buf ≠ []) :
    w'.whichSec + w.fPos / blkSz = w.whichSec + sectorsAfter w.fPos buf.length := by
  induction h with
  | nil => exact absurd rfl hbuf
  | @cons w w₁ w' cur buf rest _ hround hrest ih =>
    obtain ⟨sec, sec', clus, fs, -, -, -, rfl, rfl⟩ := writeRound_eq_ok hround
    have hpos : 0 < buf.length := length_pos_iff.2 hbuf
    by_cases hdrop : buf.drop (roundSize w buf) = []
    · rw [hdrop] at hrest
      cases hrest with
      | nil =>
        have hle := drop_eq_nil_iff.1 hdrop
        simp only [roundSize, sectorsAfter, blkSz] at hle ⊢
        omega
      | cons hne _ _ => exact absurd rfl hne
    · have hnext := ih hdrop
      have hlt : roundSize w buf < buf.length := by
        rw [drop_eq_nil_iff] at hdrop
        omega
      simp only [length_drop, sectorsAfter] at hnext ⊢
      simp only [roundSize, blkSz] at hnext hlt ⊢
      omega

/-- The number of cached sectors: no more than before, or up to the last one written. -/
theorem Rounds.length_le (hcur : cur = w.whichSec) :
    w'.cache.length ≤ max w.cache.length w'.whichSec := by
  induction h with
  | nil => exact Nat.le_max_left ..
  | cons _ hround hrest ih =>
    obtain ⟨sec, sec', clus, fs, -, -, -, -, rfl⟩ := writeRound_eq_ok hround
    have hlater := hrest.whichSec_le
    have hle := ih (by rw [hcur])
    dsimp only [roundCache] at hle hlater
    split at hle
    · next hnew =>
      have hlt := hlater.2 hnew.1
      rw [length_append, length_set, length_singleton] at hle
      omega
    · rw [length_set] at hle
      exact hle

/-- The loop only appends to chains, and the cursor has moved by the boundaries that were passed. -/
theorem Rounds.moves {heads : List UInt32} {head : UInt32} {clusters : List UInt32} {p : ℕ}
    (hcursor : Cursor w.fs heads head clusters p w.clusIdx) :
    Moves w.fs heads head clusters
      (p + (w'.whichSec / w.fs.vol.secPerClus - w.whichSec / w.fs.vol.secPerClus)) w'.clusIdx
        w'.fs := by
  induction h generalizing clusters p with
  | nil =>
    rw [Nat.sub_self]
    exact hcursor.stays
  | @cons w w₁ w' cur buf rest _ hround hrest ih =>
    obtain ⟨sec, sec', clus, fs, -, -, hadvance, -, rfl⟩ := writeRound_eq_ok hround
    obtain ⟨fat₁, clusters₁, rfl, happends₁, hpre₁, hcursor₁, hsame₁⟩ :=
      hcursor.advanceClus_moves hadvance
    obtain ⟨fat₂, clusters₂, hfs, happends₂, hpre₂, hcursor₂, hsame₂⟩ := ih hcursor₁
    refine ⟨fat₂, clusters₂, hfs, happends₁.trans happends₂, hpre₁.trans hpre₂, ?_,
      hsame₂.trans hsame₁⟩
    have hle₁ : w.whichSec / w.fs.vol.secPerClus ≤ (w.whichSec + 1) / w.fs.vol.secPerClus :=
      Nat.div_le_div_right (Nat.le_succ _)
    have hle₂ : (w.whichSec + 1) / w.fs.vol.secPerClus ≤ w'.whichSec / w.fs.vol.secPerClus :=
      Nat.div_le_div_right hrest.whichSec_le.1
    convert hcursor₂ using 1
    dsimp only
    omega

end

end Loop

/-! ## The whole function -/

theorem walk_eq (length n : ℕ) : walk length n = if n ≤ length then .ok n else .error .nullPointer := by
  induction n with
  | zero => rfl
  | succ n ih =>
    rw [walk, ih]
    by_cases hn : n ≤ length
    · rw [if_pos hn]
      rfl
    · rw [if_neg hn, if_neg (by omega)]
      rfl

/-- The sectors after the first loop of `fat32_write`. -/
def soughtCache (whichSec : ℕ) (cache : List Sector) : List Sector :=
  if whichSec < cache.length then cache else cache ++ [.zero]

theorem seekSector_eq (h : whichSec ≤ cache.length) :
    seekSector whichSec 2 cache = .ok (whichSec, soughtCache whichSec cache) := by
  rw [seekSector, walk_eq, if_pos h, ok_bind, soughtCache]
  split
  · rfl
  · rw [seekSector, walk_eq, length_append, length_singleton, if_pos (by omega), ok_bind,
      if_pos (by omega)]
    rfl

theorem seekSector_eq_ok {cur : ℕ} {cache' : List Sector}
    (h : seekSector whichSec 2 cache = .ok (cur, cache')) :
    whichSec ≤ cache.length ∧ cur = whichSec ∧ cache' = soughtCache whichSec cache := by
  by_cases hle : whichSec ≤ cache.length
  · rw [seekSector_eq hle] at h
    cases h
    exact ⟨hle, rfl, rfl⟩
  · rw [seekSector, walk_eq, if_neg hle] at h
    cases h

theorem getDirEntry_eq_ok {i : ℕ} (hv : fs.nodes[i]? = some v)
    (h : getDirEntry fs i = .ok (fs', parent, d)) :
    ∃ p secs, v.parent = some parent ∧ fs.nodes[parent]? = some p ∧ contentOf fs p true = .ok secs ∧
      fs' = fs.setNode parent { p with contentCache := secs } ∧
      d = (dirSlots secs).findIdx? (isEntryOf v.clusIdx) := by
  rw [getDirEntry, Fs.node_of_getElem? hv, ok_bind] at h
  cases hparent : v.parent with
  | none =>
    simp only [hparent] at h
    cases h
  | some parent' =>
    simp only [hparent] at h
    obtain ⟨fs₁, hload, h⟩ := of_bind_eq_ok h
    obtain ⟨p, secs, hp, hsecs, rfl⟩ := loadIf_eq_ok hload
    rw [Fs.node_of_getElem? (Fs.getElem?_setNode_self hp), ok_bind] at h
    obtain ⟨rfl, hrest⟩ := Prod.mk.inj (Except.ok.inj h)
    cases hrest
    exact ⟨p, secs, rfl, hp, hsecs, rfl, rfl⟩

theorem updateEntry_eq_ok {fileSize : ℕ} (h : updateEntry fs parent d fileSize = .ok fs') :
    ∃ k p cache₁ cache, d = some k ∧ fs.nodes[parent]? = some p ∧
      storeSlot p.contentCache k 28 (bytesOf32 (UInt32.ofNat fileSize)) = .ok cache₁ ∧
      storeSlot cache₁ k 11 [dirAttr ((dirSlots cache₁).getD k []) ||| attrArchive] = .ok cache ∧
      fs' = fs.setNode parent { p with contentCache := cache, dirty := true } := by
  cases d with
  | none => cases h
  | some k =>
    obtain ⟨p, hp, h⟩ := of_bind_eq_ok h
    obtain ⟨cache₁, hstore₁, h⟩ := of_bind_eq_ok h
    obtain ⟨cache, hstore, h⟩ := of_bind_eq_ok h
    exact ⟨k, p, cache₁, cache, rfl, Fs.node_eq_ok hp, hstore₁, hstore, (Except.ok.inj h).symm⟩

/-- The variables of `fat32_write` before its second loop. -/
def writeStart (fs : Fs) (v : Vnode) (fPos : ℕ) (secs : List Sector) : WriteState :=
  ⟨fs, soughtCache (fPos / blkSz) secs, v.fileSize, fPos, fPos / blkSz, v.clusIdx⟩

/-- What `fat32_write` does: the directory and the file are loaded, the rounds are made, and the
variables and the directory entry are stored. -/
inductive Writes (fs : Fs) (file : File) (buf : List UInt8) (file' : File) (fs' : Fs) : Prop
  | intro {v p v₁ p₁ : Vnode} {parent k : ℕ} {psecs secs pcache₁ pcache : List Sector} {w : WriteState} {fs₁ fs₂ : Fs}
      (hv : fs.nodes[file.vnode]? = some v) (hparent : v.parent = some parent)
      (hp : fs.nodes[parent]? = some p) (hpsecs : contentOf fs p true = .ok psecs)
      (hfs₁ : fs₁ = fs.setNode parent { p with contentCache := psecs })
      (hentry : (dirSlots psecs).findIdx? (isEntryOf v.clusIdx) = some k)
      (hv₁ : fs₁.nodes[file.vnode]? = some v₁) (hsecs : contentOf fs₁ v₁ (decide (0 < v₁.fileSize)) = .ok secs)
      (hfs₂ : fs₂ = fs₁.setNode file.vnode { v₁ with contentCache := secs })
      (hpos : file.fPos / blkSz ≤ secs.length)
      (hrounds : Rounds (writeStart fs₂ v₁ file.fPos secs) (file.fPos / blkSz) buf w)
      (hp₁ : (w.fs.setNode file.vnode
        { v₁ with contentCache := w.cache, fileSize := w.fileSize, dirty := true }).nodes[parent]? = some p₁)
      (hstore₁ : storeSlot p₁.contentCache k 28 (bytesOf32 (UInt32.ofNat w.fileSize)) = .ok pcache₁)
      (hstore : storeSlot pcache₁ k 11 [dirAttr ((dirSlots pcache₁).getD k []) ||| attrArchive] = .ok pcache)
      (hfile' : file' = { file with fPos := w.fPos })
      (hfs' : fs' = (w.fs.setNode file.vnode
        { v₁ with contentCache := w.cache, fileSize := w.fileSize, dirty := true }).setNode parent
          { p₁ with contentCache := pcache, dirty := true })

theorem fat32Write_writes {n : ℕ} (h : fat32Write fs file buf = .ok (n, file', fs')) :
    n = buf.length ∧ Writes fs file buf file' fs' := by
  obtain ⟨⟨fs₁, parent, d⟩, hentry, h⟩ := of_bind_eq_ok h
  obtain ⟨fs₂, hload, h⟩ := of_bind_eq_ok h
  obtain ⟨v₂, hv₂, h⟩ := of_bind_eq_ok h
  obtain ⟨⟨cur, cache⟩, hseek, h⟩ := of_bind_eq_ok h
  obtain ⟨w, hloop, h⟩ := of_bind_eq_ok h
  obtain ⟨fs₃, hupdate, h⟩ := of_bind_eq_ok h
  obtain ⟨rfl, hrest⟩ := Prod.mk.inj (Except.ok.inj h)
  cases hrest
  obtain ⟨v, hv⟩ : ∃ v, fs.nodes[file.vnode]? = some v := by
    obtain ⟨v, hv, -⟩ := of_bind_eq_ok hentry
    exact ⟨v, Fs.node_eq_ok hv⟩
  obtain ⟨p, psecs, hparent, hp, hpsecs, rfl, rfl⟩ := getDirEntry_eq_ok hv hentry
  obtain ⟨v₁, secs, hv₁, hsecs, rfl⟩ := loadIf_eq_ok hload
  have hself := Fs.node_eq_ok hv₂
  rw [Fs.getElem?_setNode_self hv₁] at hself
  cases hself
  obtain ⟨hpos, rfl, rfl⟩ := seekSector_eq_ok hseek
  obtain ⟨k, p₁, pcache₁, pcache, hk, hp₁, hstore₁, hstore, rfl⟩ := updateEntry_eq_ok hupdate
  exact ⟨rfl, hv, hparent, hp, hpsecs, rfl, hk, hv₁, hsecs, rfl, hpos, writeLoop_rounds hloop, hp₁,
    hstore₁,
    hstore, rfl, rfl⟩

/-- A write changes the table only by appending to chains. -/
theorem Writes.appends (h : Writes fs file buf file' fs') (hok : fs.ChainsOk) :
    fs'.vol = fs.vol ∧ fs'.heads = fs.heads ∧ Appends fs.vol fs.heads fs.fat fs'.fat := by
  obtain @⟨v, p, v₁, p₁, parent, k, psecs, secs, pcache₁, pcache, w, fs₁, fs₂, -, -, hp, -, hfs₁, -,
    hv₁, -, hfs₂,
    -, hrounds, hp₁, -, -, -, rfl⟩ := h
  have hheads₁ : fs₁.heads = fs.heads := hfs₁ ▸ Fs.heads_setNode hp rfl
  have hheads₂ : fs₂.heads = fs.heads := by
    rw [hfs₂, ← hheads₁]
    exact Fs.heads_setNode hv₁ rfl
  have hv₂ : fs₂.nodes[file.vnode]? = some { v₁ with contentCache := secs } :=
    hfs₂ ▸ Fs.getElem?_setNode_self hv₁
  have hvol : fs₂.vol = fs.vol := by rw [hfs₂, hfs₁]; rfl
  have hfat : fs₂.fat = fs.fat := by rw [hfs₂, hfs₁]; rfl
  have hhead : v₁.clusIdx ∈ fs.heads := by
    rw [← hheads₁]
    exact mem_map_of_mem (mem_of_getElem? hv₁)
  obtain ⟨clusters, hchain⟩ := hok.chain _ hhead
  unfold Fs.ChainsOk at hok
  rw [← hvol, ← hfat] at hok hchain
  obtain ⟨fat, -, hfs, happends, -⟩ := hrounds.moves ⟨hok, hhead, hchain, hchain.getElem?_zero⟩
  have hnodes : w.fs.nodes = fs₂.nodes := by rw [hfs]; rfl
  refine ⟨?_, ?_, ?_⟩
  · rw [Fs.setNode_vol, Fs.setNode_vol, hfs]
    exact hvol
  · rw [← hnodes] at hv₂
    refine (Fs.heads_setNode hp₁ ?_).trans ((Fs.heads_setNode hv₂ ?_).trans ?_)
    · rfl
    · rfl
    · rw [Fs.heads, hnodes]
      exact hheads₂
  · rw [Fs.setNode_fat, Fs.setNode_fat, hfs, ← hvol, ← hfat]
    exact happends

/-- A write to a file that is not its own directory: only the table and the two vnodes change. -/
theorem Writes.stores {p : Vnode} (h : Writes fs file buf file' fs')
    (hok : fs.ChainsOk) (hv : fs.nodes[file.vnode]? = some v)
    (hparent : v.parent = some parent) (hp : fs.nodes[parent]? = some p) (hne : parent ≠ file.vnode) :
    ∃ fat w fs₂ secs psecs k pcache₁ pcache, Appends fs.vol fs.heads fs.fat fat ∧
      contentOf fs p true = .ok psecs ∧ (dirSlots psecs).findIdx? (isEntryOf v.clusIdx) = some k ∧
      contentOf (fs.setNode parent { p with contentCache := psecs }) v (decide (0 < v.fileSize)) =
        .ok secs ∧
      file.fPos / blkSz ≤ secs.length ∧
      Rounds (writeStart fs₂ v file.fPos secs) (file.fPos / blkSz) buf w ∧
      storeSlot psecs k 28 (bytesOf32 (UInt32.ofNat w.fileSize)) = .ok pcache₁ ∧
      storeSlot pcache₁ k 11 [dirAttr ((dirSlots pcache₁).getD k []) ||| attrArchive] = .ok pcache ∧
      file' = { file with fPos := w.fPos } ∧
      fs' = { fs with
        fat := fat
        nodes := (fs.nodes.set file.vnode
          { v with contentCache := w.cache, fileSize := w.fileSize, dirty := true }).set parent
            { p with contentCache := pcache, dirty := true } } := by
  obtain ⟨-, -, happends⟩ := h.appends hok
  obtain @⟨v', p', v₁, p₁, parent', k, psecs, secs, pcache₁, pcache, w, fs₁, fs₂, hv', hparent',
    hp', hpsecs, hfs₁, hentry, hv₁, hsecs, hfs₂, hle, hrounds, hp₁, hstore₁, hstore, hfile',
    hfs'⟩ := h
  obtain rfl := mem_unique hv hv'
  obtain rfl := mem_unique hparent hparent'
  obtain rfl := mem_unique hp hp'
  obtain rfl : v = v₁ := by
    rw [hfs₁, Fs.setNode_nodes, getElem?_set_ne hne, hv] at hv₁
    exact some.inj hv₁
  -- The loop changes nothing but the table.
  obtain ⟨fat, hfs⟩ : ∃ fat, w.fs = { fs₂ with fat := fat } := by
    have hvol : fs₂.vol = fs.vol := by rw [hfs₂, hfs₁]; rfl
    have hfat : fs₂.fat = fs.fat := by rw [hfs₂, hfs₁]; rfl
    obtain ⟨clusters, hchain⟩ := hok.chain v.clusIdx (mem_map_of_mem (mem_of_getElem? hv))
    unfold Fs.ChainsOk at hok
    rw [← hvol, ← hfat] at hok hchain
    obtain ⟨fat, -, hfs, -⟩ := hrounds.moves
      ⟨hok, mem_map_of_mem (mem_of_getElem? hv), hchain, hchain.getElem?_zero⟩
    exact ⟨fat, hfs⟩
  have hp₁' : p₁ = { p with contentCache := psecs } := by
    rw [hfs, Fs.setNode_nodes, getElem?_set_ne hne.symm] at hp₁
    change fs₂.nodes[parent]? = some p₁ at hp₁
    rw [hfs₂, Fs.setNode_nodes, getElem?_set_ne hne.symm, hfs₁, Fs.getElem?_setNode_self hp] at hp₁
    exact (some.inj hp₁).symm
  subst hp₁'
  rw [hfs'] at happends
  refine ⟨fat, w, fs₂, secs, psecs, k, pcache₁, pcache, ?_, hpsecs, hentry, hfs₁ ▸ hsecs, hle,
    hrounds, hstore₁, hstore, hfile', ?_⟩
  · rw [Fs.setNode_fat, Fs.setNode_fat, hfs] at happends
    exact happends
  · rw [hfs', hfs, hfs₂, hfs₁]
    simp only [Fs.setNode]
    congr 1
    rw [set_set, set_comm _ _ hne, set_set]

/-! ## The disk -/

/-- The volume has the same disk: only the table and the vnodes may have changed. -/
def SameDisk (fs fs' : Fs) : Prop := fs'.vol = fs.vol ∧ fs'.disk = fs.disk

section Disk

variable {clus t : UInt32}

theorem linkFreeClus_disk (h : linkFreeClus fs clus = .ok (t, fs')) : SameDisk fs fs' := by
  obtain ⟨fs₁, hset, h⟩ := of_bind_eq_ok h
  obtain ⟨fs₂, hset', h⟩ := of_bind_eq_ok h
  obtain ⟨-, rfl⟩ := setFatEntry_eq_ok hset
  obtain ⟨-, rfl⟩ := setFatEntry_eq_ok hset'
  cases h
  exact ⟨rfl, rfl⟩

theorem advanceClus_disk (h : advanceClus fs whichSec clus = .ok (t, fs')) : SameDisk fs fs' := by
  unfold advanceClus at h
  split at h
  · obtain ⟨entry, -, h⟩ := of_bind_eq_ok h
    split at h
    · exact linkFreeClus_disk h
    · cases h
      exact ⟨rfl, rfl⟩
  · cases h
    exact ⟨rfl, rfl⟩

theorem Rounds.disk {w w' : WriteState} {cur : ℕ} (h : Rounds w cur buf w') :
    SameDisk w.fs w'.fs := by
  induction h with
  | nil => exact ⟨rfl, rfl⟩
  | cons _ hround _ ih =>
    obtain ⟨sec, sec', clus, fs, -, -, hadvance, -, rfl⟩ := writeRound_eq_ok hround
    obtain ⟨hvol, hdisk⟩ := advanceClus_disk hadvance
    exact ⟨ih.1.trans hvol, ih.2.trans hdisk⟩

theorem fat32Write_disk {n : ℕ} (h : fat32Write fs file buf = .ok (n, file', fs')) :
    SameDisk fs fs' := by
  obtain ⟨-, -, -, -, -, rfl, -, -, -, rfl, -, hrounds, -, -, -, -, rfl⟩ := fat32Write_writes h
  exact hrounds.disk

/-- Registering a new vnode loads its directory and may append to the chain of it. -/
theorem addNode_disk {dir i : ℕ} {type : FileType} {name : List UInt8} {fs₁ : Fs}
    (hadd : addNode fs dir type name cache = .ok fs₁) (h : regToDirEntry fs₁ i = .ok fs') :
    SameDisk fs fs' := by
  obtain ⟨_, _, -, -, -, rfl⟩ := addNode_eq_ok hadd
  obtain ⟨v, -, h⟩ := of_bind_eq_ok h
  split at h
  · cases h
  · obtain ⟨fs₂, hload, h⟩ := of_bind_eq_ok h
    obtain ⟨_, _, -, -, rfl⟩ := loadIf_eq_ok hload
    obtain ⟨p, -, h⟩ := of_bind_eq_ok h
    obtain ⟨r, -, h⟩ := of_bind_eq_ok h
    cases r with
    | none =>
      cases h
      exact ⟨rfl, rfl⟩
    | some r =>
      obtain ⟨⟨fs₃, cache'⟩, hmove, h⟩ := of_bind_eq_ok h
      obtain ⟨cache'', -, h⟩ := of_bind_eq_ok h
      cases h
      rcases moveLast_cases hmove with ⟨rfl, -⟩ | ⟨-, -, ⟨t, hlink⟩, -⟩
      · exact ⟨rfl, rfl⟩
      · exact (linkFreeClus_disk hlink :)

end Disk

end CapstoneKernel.Fat32
