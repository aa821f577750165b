import GravTree.Filters

/-!
# Decoding arbitrary bytes

`read_file` on a file with a correct checksum, but made by anyone. The reader's own fields
are checked against the end of the file. Three things are not: the length of the filter,
the number of children, and whether a filter with hash functions has any bits.
-/

namespace GravTree

open Reader

/-! ## The header -/

/-- The fields of a node file up to the length of the filter. -/
structure FileHead where
  id : NodeId
  level : Nat
  numChildren : Nat
  childIds : List NodeId
  numEntries : Nat
  minKey : Bytes
  maxKey : Bytes
  bloomLen : Nat

namespace FileHead

/-- How they are laid out. -/
def bytes (h : FileHead) : List UInt8 :=
  writeU64 nodeFileMagic ++ writeU32 nodeFileVersion ++ writeU64 h.id ++ writeU32 h.level ++
    writeU32 h.numChildren ++ h.childIds.flatMap writeU64 ++ writeU32 h.numEntries ++
    writeStr h.minKey ++ writeStr h.maxKey ++ writeU32 h.bloomLen

/-- They fit their places. -/
structure Fits (h : FileHead) : Prop where
  id : h.id < 2 ^ 64
  level : h.level < 2 ^ 32
  numChildren : h.numChildren < 2 ^ 32
  slots : h.childIds.length = maxFanout
  childIds : ∀ c ∈ h.childIds, c < 2 ^ 64
  numEntries : h.numEntries < 2 ^ 32
  minKey : h.minKey.size < 2 ^ 32
  maxKey : h.maxKey.size < 2 ^ 32
  bloomLen : h.bloomLen < 2 ^ 32

/-- The node that the header describes. -/
def node (h : FileHead) (path : FilePath) (bloom : Option BloomFilter) : IndexedNode :=
  { id := h.id, level := h.level, childIds := h.childIds.take h.numChildren,
    keyRange := { minKey := h.minKey, maxKey := h.maxKey }, bloom, filePath := path,
    numChildren := h.numChildren }

end FileHead

/-- The fields of the header, up to the length of the filter. -/
def readHead (path : FilePath) : BinaryReader FileHead := do
  let magic ← readU64
  if magic ≠ nodeFileMagic then throw (.badMagic path)
  let version ← readU32
  if version ≠ nodeFileVersion then throw (.version path)
  let id ← readU64
  let level ← readU32
  let numChildren ← readU32
  let childIds ← many readU64 maxFanout
  let numEntries ← readU32
  let minKey ← readStr
  let maxKey ← readStr
  let bloomLen ← readU32
  return { id, level, numChildren, childIds, numEntries, minKey, maxKey, bloomLen }

/-- The filter of the length `len`. -/
def readFilter (sum : List UInt8) (len : Nat) : BinaryReader (Option BloomFilter) :=
  if 0 < len then do
    let f ← readBloomData sum len
    return some f
  else return none

theorem readHeader_eq (path : FilePath) (sum : List UInt8) : readHeader path sum = (do
    let h ← readHead path
    let bloom ← readFilter sum h.bloomLen
    return (h.node path bloom, h.numEntries)) := by
  unfold readHeader readHead
  rw [bind_assoc]
  refine bind_congr fun magic => ?_
  by_cases hmagic : magic = nodeFileMagic
  · rw [if_neg (not_not.mpr hmagic), if_neg (not_not.mpr hmagic), bind_assoc]
    refine bind_congr fun version => ?_
    by_cases hversion : version = nodeFileVersion
    · rw [if_neg (not_not.mpr hversion), if_neg (not_not.mpr hversion)]
      simp only [readBloom, bind_assoc, pure_bind]
      rfl
    · rw [if_pos hversion, if_pos hversion]
      rfl
  · rw [if_pos hmagic, if_pos hmagic]
    rfl

theorem parses_u32 : Parses readU32 fun used n => n < 2 ^ 32 ∧ used = writeU32 n :=
  (parses_le _ 4).congr fun used n => by norm_num [writeU32]

theorem parses_u64 : Parses readU64 fun used n => n < 2 ^ 64 ∧ used = writeU64 n :=
  (parses_le _ 8).congr fun used n => by norm_num [writeU64]

theorem parses_str : Parses readStr fun used s => s.size < 2 ^ 32 ∧ used = writeStr s := by
  refine (parses_u32.bind fun len => (parses_take _ len).bind fun bs =>
    Parses.pure (Bytes.ofList bs)).congr fun used s => ?_
  constructor
  · rintro ⟨len, _, ⟨hlen, rfl⟩, _, rfl, bs, _, ⟨rfl, rfl⟩, _, rfl, rfl, rfl⟩
    refine ⟨hlen, ?_⟩
    rw [writeStr, List.append_nil]
    exact congrArg _ (List.ofFn_get bs).symm
  · rintro ⟨hs, rfl⟩
    exact ⟨s.size, _, ⟨hs, rfl⟩, _, rfl, s.toList, _, ⟨Bytes.length_toList s, rfl⟩, [], by simp,
      rfl, (Bytes.ofList_toList s).symm⟩

theorem parses_head (path : FilePath) :
    Parses (readHead path) fun used h => h.Fits ∧ used = h.bytes := by
  refine (parses_u64.bind fun magic => Parses.guard (parses_u32.bind fun version =>
    Parses.guard (parses_u64.bind fun id => parses_u32.bind fun level =>
      parses_u32.bind fun numChildren => (parses_many_exact parses_u64 maxFanout).bind fun childIds =>
        parses_u32.bind fun numEntries => parses_str.bind fun minKey =>
          parses_str.bind fun maxKey => parses_u32.bind fun bloomLen =>
            Parses.pure _))).congr fun used h => ?_
  constructor
  · rintro ⟨_, _, ⟨-, rfl⟩, _, rfl, rfl, _, _, ⟨-, rfl⟩, _, rfl, rfl, id, _, ⟨hid, rfl⟩, _, rfl,
      level, _, ⟨hlevel, rfl⟩, _, rfl, numChildren, _, ⟨hn, rfl⟩, _, rfl,
      childIds, _, ⟨⟨hslots, hids⟩, rfl⟩, _, rfl, numEntries, _, ⟨hentries, rfl⟩, _, rfl,
      minKey, _, ⟨hmin, rfl⟩, _, rfl, maxKey, _, ⟨hmax, rfl⟩, _, rfl,
      bloomLen, _, ⟨hbloom, rfl⟩, _, rfl, rfl, rfl⟩
    exact ⟨⟨hid, hlevel, hn, hslots, hids, hentries, hmin, hmax, hbloom⟩,
      by simp [FileHead.bytes]⟩
  · rintro ⟨H, rfl⟩
    simp only [FileHead.bytes, List.append_assoc]
    exact ⟨_, _, ⟨by norm_num [nodeFileMagic], rfl⟩, _, rfl, rfl,
      _, _, ⟨by norm_num [nodeFileVersion], rfl⟩, _, rfl, rfl, h.id, _, ⟨H.id, rfl⟩, _, rfl,
      h.level, _, ⟨H.level, rfl⟩, _, rfl, h.numChildren, _, ⟨H.numChildren, rfl⟩, _, rfl,
      h.childIds, _, ⟨⟨H.slots, H.childIds⟩, rfl⟩, _, rfl,
      h.numEntries, _, ⟨H.numEntries, rfl⟩, _, rfl, h.minKey, _, ⟨H.minKey, rfl⟩, _, rfl,
      h.maxKey, _, ⟨H.maxKey, rfl⟩, _, rfl, h.bloomLen, _, ⟨H.bloomLen, rfl⟩, [], by simp, rfl, rfl⟩

theorem avoids_u32 : Avoids readU32 (· = .outside) := avoids_le (by simp) 4

theorem avoids_u64 : Avoids readU64 (· = .outside) := avoids_le (by simp) 8

theorem avoids_str : Avoids readStr (· = .outside) :=
  avoids_u32.bind fun _ => (avoids_take (by simp) _).bind fun _ => .pure _

theorem avoids_head (path : FilePath) : Avoids (readHead path) (· = .outside) :=
  avoids_u64.bind fun _ => .guard (by simp) <| avoids_u32.bind fun _ => .guard (by simp) <|
    avoids_u64.bind fun _ => avoids_u32.bind fun _ => avoids_u32.bind fun _ =>
      (avoids_u64.many _).bind fun _ => avoids_u32.bind fun _ => avoids_str.bind fun _ =>
        avoids_str.bind fun _ => avoids_u32.bind fun _ => .pure _

/-! ## The entries -/

/-- The entries and the sparse index. -/
def readEntries (numEntries : Nat) : BinaryReader (List Entry × List SparseIndexEntry) := do
  let buffer ← many readEntry numEntries
  let count ← readU32
  let sparseIndex ← many readSparse count
  return (buffer, sparseIndex)

/-- How an entry is laid out. Every byte but zero stands for a tombstone. -/
def EntryFormat (used : List UInt8) (e : Entry) : Prop :=
  e.key.size < 2 ^ 32 ∧ e.value.size < 2 ^ 32 ∧ ∃ flag < 256, e.deleted = decide (flag ≠ 0) ∧
    used = writeStr e.key ++ writeStr e.value ++ writeU64 e.seqNo ++ leBytes flag 1

/-- A pair of the sparse index fits its place. -/
def SparseIndexEntry.Fits (p : SparseIndexEntry) : Prop := p.key.size < 2 ^ 32 ∧ p.fileOffset < 2 ^ 64

/-- So many entries and a sparse index are there. -/
def Whole (numEntries : Nat) (bs : List UInt8) : Prop :=
  ∃ (us : List (List UInt8)) (es : List Entry) (pairs : List SparseIndexEntry)
      (rest : List UInt8), es.length = numEntries ∧ List.Forall₂ EntryFormat us es ∧
    pairs.length < 2 ^ 32 ∧ (∀ p ∈ pairs, p.Fits) ∧
    bs = us.flatten ++ writeU32 pairs.length ++
      pairs.flatMap (fun p => writeStr p.key ++ writeU64 p.fileOffset) ++ rest

theorem parses_entry : Parses readEntry EntryFormat := by
  refine (parses_str.bind fun key => parses_str.bind fun value => parses_u64.bind fun seqNo =>
    (parses_le _ 1).bind fun flag => Parses.pure _).congr fun used e => ?_
  constructor
  · rintro ⟨key, _, ⟨hk, rfl⟩, _, rfl, value, _, ⟨hv, rfl⟩, _, rfl, seqNo, _, ⟨hs, rfl⟩, _, rfl,
      flag, _, ⟨hf, rfl⟩, _, rfl, rfl, rfl⟩
    have hseq : seqNo % 18446744073709551616 = seqNo := Nat.mod_eq_of_lt hs
    exact ⟨hk, hv, flag, hf, rfl, by simp [hseq]⟩
  · rintro ⟨hk, hv, flag, hf, hd, rfl⟩
    have he : e = ⟨e.key, e.value, Fin.ofNat _ e.seqNo.val, flag ≠ 0⟩ := by
      rw [Fin.ofNat_val_eq_self, ← hd]
    simp only [List.append_assoc]
    exact ⟨e.key, _, ⟨hk, rfl⟩, _, rfl, e.value, _, ⟨hv, rfl⟩, _, rfl,
      e.seqNo, _, ⟨e.seqNo.isLt, rfl⟩, _, rfl, flag, _, ⟨hf, rfl⟩, [], by simp, rfl, he⟩

theorem parses_sparse : Parses readSparse fun used p =>
    p.Fits ∧ used = writeStr p.key ++ writeU64 p.fileOffset := by
  refine (parses_str.bind fun key => parses_u64.bind fun offset =>
    Parses.pure _).congr fun used p => ?_
  constructor
  · rintro ⟨key, _, ⟨hk, rfl⟩, _, rfl, offset, _, ⟨ho, rfl⟩, _, rfl, rfl, rfl⟩
    exact ⟨⟨hk, ho⟩, by simp⟩
  · rintro ⟨⟨hk, ho⟩, rfl⟩
    exact ⟨p.key, _, ⟨hk, rfl⟩, _, rfl, p.fileOffset, _, ⟨ho, rfl⟩, [], by simp, rfl, rfl⟩

/-- The entries can be read exactly if they are there. -/
theorem readEntries_iff {numEntries : Nat} {bs : List UInt8} :
    (∃ r rest, readEntries numEntries bs = .ok (r, rest)) ↔ Whole numEntries bs := by
  have hparse := (parses_entry.many numEntries).bind fun es => parses_u32.bind fun count =>
    (parses_many_exact parses_sparse count).bind fun ps => Parses.pure (es, ps)
  constructor
  · rintro ⟨r, rest, h⟩
    obtain ⟨_, ⟨es, _, ⟨hlen, us, hus, rfl⟩, _, rfl, count, _, ⟨hcount, rfl⟩, _, rfl,
      ps, _, ⟨⟨hps, hfit⟩, rfl⟩, _, rfl, rfl, -⟩, rfl⟩ := (hparse _ _ _).mp h
    subst hps
    exact ⟨us, es, ps, rest, hlen, hus, hcount, hfit, by simp⟩
  · rintro ⟨us, es, ps, rest, hlen, hus, hcount, hfit, rfl⟩
    refine ⟨(es, ps), rest, (hparse _ _ _).mpr ⟨_, ⟨es, _, ⟨hlen, us, hus, rfl⟩, _, rfl,
      ps.length, _, ⟨hcount, rfl⟩, _, rfl, ps, _, ⟨⟨rfl, hfit⟩, rfl⟩, [],
      (List.append_nil _).symm, rfl, rfl⟩, ?_⟩⟩
    simp

theorem avoids_entries (numEntries : Nat) : Avoids (readEntries numEntries) (· = .outside) := by
  have hentry : Avoids readEntry (· = .outside) :=
    avoids_str.bind fun _ => avoids_str.bind fun _ => avoids_u64.bind fun _ =>
      (avoids_le (by simp) 1).bind fun _ => .pure _
  have hsparse : Avoids readSparse (· = .outside) :=
    avoids_str.bind fun _ => avoids_u64.bind fun _ => .pure _
  exact (hentry.many _).bind fun _ => avoids_u32.bind fun _ => (hsparse.many _).bind fun _ => .pure _

/-! ## The filter -/

/-- The number of hash functions and the number of bits that a filter at this place names. -/
def filterHashes (mem : List UInt8) : Nat := ofLe (mem.take 4)

def filterBits (mem : List UInt8) : Nat := ofLe ((mem.drop 4).take 8)

/-- A filter of the length `len` is long enough for what it says it holds. -/
def FilterFits (mem : List UInt8) (len : Nat) : Prop :=
  len = 0 ∨ 12 ≤ len ∧ 12 + filterBits mem / 8 ≤ len

/-- What `deserialize` looks at is in the file: the head of the filter unless it is too short
for one, and then the bits unless it is too short for them. -/
def FilterInside (mem : List UInt8) (len : Nat) : Prop :=
  12 ≤ len → 12 ≤ mem.length ∧
    (12 + filterBits mem / 8 ≤ len → 12 + filterBits mem / 8 ≤ mem.length)

/-- A filter that uses hash functions has a byte for them to look at. -/
def FilterUsable (mem : List UInt8) (len : Nat) : Prop :=
  0 < len → filterHashes mem = 0 ∨ 8 ≤ filterBits mem

/-- The filter at this place. -/
def filterAt (mem : List UInt8) (len : Nat) : Option BloomFilter :=
  if 0 < len then
    some { bits := (mem.drop 12).take (filterBits mem / 8), numHashFuncs := filterHashes mem }
  else none

section Filter

variable {sum rest : List UInt8} {len : Nat}

theorem readFilter_pos (h : 0 < len) : readFilter sum len rest =
    (BloomFilter.deserialize (rest ++ sum) len).map fun f => (some f, rest.drop len) := by
  rw [readFilter, if_pos h]
  show Except.bind (Except.map _ _) _ = _
  cases BloomFilter.deserialize (rest ++ sum) len <;> rfl

theorem readFilter_zero : readFilter sum 0 rest = .ok (none, rest) := rfl

theorem deserialize_eq (mem : List UInt8) (len : Nat) : BloomFilter.deserialize mem len =
    if len < 12 then .error .bloomTooSmall else if mem.length < 12 then .error .outside
    else if len < 12 + filterBits mem / 8 then .error .bloomTruncated
    else if mem.length < 12 + filterBits mem / 8 then .error .outside
    else .ok ⟨(mem.drop 12).take (filterBits mem / 8), filterHashes mem⟩ := rfl

theorem deserialize_outside {mem : List UInt8} :
    BloomFilter.deserialize mem len = .error .outside ↔ ¬ FilterInside mem len := by
  rw [deserialize_eq, FilterInside]
  by_cases hlen : len < 12
  · rw [if_pos hlen]
    exact iff_of_false (by simp) (not_not.mpr fun h => absurd h (by omega))
  rw [if_neg hlen]
  by_cases hhead : mem.length < 12
  · rw [if_pos hhead]
    exact iff_of_true rfl fun h => absurd (h (by omega)).1 (by omega)
  rw [if_neg hhead]
  by_cases hbits : len < 12 + filterBits mem / 8
  · rw [if_pos hbits]
    exact iff_of_false (by simp) (not_not.mpr fun _ => ⟨by omega, fun h => absurd h (by omega)⟩)
  rw [if_neg hbits]
  by_cases htail : mem.length < 12 + filterBits mem / 8
  · rw [if_pos htail]
    exact iff_of_true rfl fun h => absurd ((h (by omega)).2 (by omega)) (by omega)
  · rw [if_neg htail]
    exact iff_of_false (by simp) (not_not.mpr fun _ => ⟨by omega, fun _ => by omega⟩)

theorem readFilter_outside : readFilter sum len rest = .error .outside ↔
    ¬ FilterInside (rest ++ sum) len := by
  rcases Nat.eq_zero_or_pos len with rfl | hpos
  · simp [readFilter_zero, FilterInside]
  · rw [readFilter_pos hpos, ← deserialize_outside]
    cases BloomFilter.deserialize (rest ++ sum) len <;> simp [Except.map]

theorem readFilter_ok (h : FilterInside (rest ++ sum) len) (hfits : FilterFits (rest ++ sum) len) :
    readFilter sum len rest = .ok (filterAt (rest ++ sum) len, rest.drop len) := by
  rcases hfits with rfl | ⟨hlen, hbits⟩
  · rfl
  · obtain ⟨hhead, htail⟩ := h hlen
    have htail := htail hbits
    rw [readFilter_pos (by omega), deserialize_eq, if_neg (by omega), if_neg (by omega),
      if_neg (by omega), if_neg (by omega), filterAt, if_pos (by omega)]
    rfl

theorem fits_of_readFilter {p : Option BloomFilter × List UInt8}
    (h : readFilter sum len rest = .ok p) : FilterFits (rest ++ sum) len := by
  rcases Nat.eq_zero_or_pos len with rfl | hpos
  · exact .inl rfl
  · rw [readFilter_pos hpos, deserialize_eq] at h
    by_cases hlen : len < 12
    · rw [if_pos hlen] at h
      cases h
    rw [if_neg hlen] at h
    split at h
    · cases h
    · split at h
      · cases h
      · exact .inr ⟨by omega, by omega⟩

end Filter

/-- No probe divides by zero or leaves the bits. -/
def BloomFilter.ProbesInside (f : BloomFilter) : Prop :=
  ∀ key, ∀ i < f.numHashFuncs,
    0 < f.bitCount ∧ f.nthHash (baseHashes key) i / 8 < f.bits.length

theorem probesInside_filterAt {mem : List UInt8} {len : Nat} (h : FilterInside mem len)
    (hfits : FilterFits mem len) :
    (∀ f, filterAt mem len = some f → f.ProbesInside) ↔ FilterUsable mem len := by
  unfold FilterUsable
  rcases Nat.eq_zero_or_pos len with rfl | hpos
  · simp [filterAt]
  · obtain ⟨hlen, hbits⟩ := hfits.resolve_left hpos.ne'
    obtain ⟨hhead, htail⟩ := h hlen
    have htail := htail hbits
    obtain ⟨f, hf⟩ : ∃ f : BloomFilter,
        f = ⟨(mem.drop 12).take (filterBits mem / 8), filterHashes mem⟩ := ⟨_, rfl⟩
    have hcount : 0 < f.bitCount ↔ 8 ≤ filterBits mem := by
      have hlt : filterBits mem < 256 ^ 8 := by
        have := ofLe_lt ((mem.drop 4).take 8)
        rwa [show ((mem.drop 4).take 8).length = 8 by simp; omega] at this
      have hbytes : f.bits.length = filterBits mem / 8 := by
        rw [hf, List.length_take, List.length_drop]
        omega
      rw [BloomFilter.bitCount, hbytes]
      omega
    have hnum : f.numHashFuncs = filterHashes mem := by rw [hf]
    have hat : filterAt mem len = some f := by rw [filterAt, if_pos hpos, hf]
    rw [hat, ← hcount, ← hnum]
    constructor
    · intro hall _
      rcases Nat.eq_zero_or_pos f.numHashFuncs with h0 | h0
      · exact .inl h0
      · exact .inr (hall f rfl .empty 0 h0).1
    · rintro huse g hg key i hi
      obtain rfl := Option.some.inj hg
      have hb := (huse hpos).resolve_left (by omega)
      exact ⟨hb, BloomFilter.div_lt_of_lt (BloomFilter.nthHash_lt hb _ i)⟩

/-! ## The whole file -/

/-- Decoding is safe: it throws or returns, reads nothing outside of the file, and returns no
node whose number of children or whose filter does harm later. -/
structure DecodesSafely (r : Except NodeFileError IndexedNode) : Prop where
  inside : r ≠ .error .outside
  children : ∀ n, r = .ok n → n.numChildren ≤ maxFanout
  filter : ∀ n, r = .ok n → ∀ f, n.bloom = some f → f.ProbesInside

section Body

variable {path : FilePath} {data sum : List UInt8} {loadEntries : Bool}

/-- `read_file` in three parts. -/
theorem readBody_eq (path : FilePath) (loadEntries : Bool) (sum : List UInt8) :
    readBody path loadEntries sum = (do
      let h ← readHead path
      let bloom ← readFilter sum h.bloomLen
      if loadEntries then
        let p ← readEntries h.numEntries
        return { h.node path bloom with
          buffer := p.1, sparseIndex := p.2, entriesLoaded := true }
      else return h.node path bloom) := by
  cases loadEntries <;>
    simp only [readBody, readHeader_eq, readEntries, bind_assoc, pure_bind, Bool.not_true,
      Bool.not_false, if_true, Bool.false_eq_true, if_false]

/-- Only the filter is ever read outside of the file. -/
theorem readBody_outside : readBody path loadEntries sum data = .error .outside ↔
    ∃ (h : FileHead) (rest : List UInt8), h.Fits ∧ data = h.bytes ++ rest ∧
      ¬ FilterInside (rest ++ sum) h.bloomLen := by
  rw [readBody_eq, bind_eq_error]
  constructor
  · rintro (herr | ⟨h, rest, hhead, herr⟩)
    · exact absurd rfl (avoids_head path _ _ herr)
    · obtain ⟨_, ⟨hfit, rfl⟩, hdata⟩ := (parses_head path _ _ _).mp hhead
      refine ⟨h, rest, hfit, hdata, ?_⟩
      rcases bind_eq_error.mp herr with herr | ⟨bloom, tail, -, herr⟩
      · exact readFilter_outside.mp herr
      · cases loadEntries with
        | false => exact nomatch herr
        | true => exact absurd rfl (((avoids_entries _).bind fun _ => .pure _) _ _ herr)
  · rintro ⟨h, rest, hfit, hdata, hbad⟩
    exact .inr ⟨h, rest, (parses_head path _ _ _).mpr ⟨_, ⟨hfit, rfl⟩, hdata⟩,
      bind_eq_error.mpr (.inl (readFilter_outside.mpr hbad))⟩

/-- What returns was there. -/
theorem of_readBody_ok {n : IndexedNode}
    (hn : (readBody path loadEntries sum data).map Prod.fst = .ok n) :
    ∃ (h : FileHead) (rest : List UInt8), h.Fits ∧ data = h.bytes ++ rest ∧
      n.numChildren = h.numChildren ∧ n.bloom = filterAt (rest ++ sum) h.bloomLen ∧
      FilterFits (rest ++ sum) h.bloomLen ∧
      (loadEntries = true → Whole h.numEntries (rest.drop h.bloomLen)) := by
  obtain ⟨tail, hend⟩ : ∃ tail, readBody path loadEntries sum data = .ok (n, tail) := by
    cases hb : readBody path loadEntries sum data with
    | error e => rw [hb] at hn; cases hn
    | ok p => rw [hb] at hn; cases hn; exact ⟨p.2, rfl⟩
  rw [readBody_eq] at hend
  obtain ⟨h, rest, hhead, hend⟩ := bind_eq_ok.mp hend
  obtain ⟨_, ⟨hfit, rfl⟩, hdata⟩ := (parses_head path _ _ _).mp hhead
  obtain ⟨bloom, mid, hfilter, hend⟩ := bind_eq_ok.mp hend
  have hin : FilterInside (rest ++ sum) h.bloomLen := by
    by_contra hbad
    rw [readFilter_outside.mpr hbad] at hfilter
    cases hfilter
  have hfits := fits_of_readFilter hfilter
  rw [readFilter_ok hin hfits] at hfilter
  cases hfilter
  cases loadEntries with
  | false =>
    cases hend
    exact ⟨h, rest, hfit, hdata, rfl, rfl, hfits, fun h => nomatch h⟩
  | true =>
    obtain ⟨r, tail, hr, hend⟩ := bind_eq_ok.mp hend
    cases hend
    exact ⟨h, rest, hfit, hdata, rfl, rfl, hfits, fun _ => readEntries_iff.mp ⟨r, _, hr⟩⟩

/-- What is there returns. -/
theorem readBody_ok (path : FilePath) {h : FileHead} {rest : List UInt8} (hfit : h.Fits)
    (hin : FilterInside (rest ++ sum) h.bloomLen) (hfilter : FilterFits (rest ++ sum) h.bloomLen)
    (hwhole : loadEntries = true → Whole h.numEntries (rest.drop h.bloomLen)) :
    ∃ n tail, readBody path loadEntries sum (h.bytes ++ rest) = .ok (n, tail) ∧
      n.numChildren = h.numChildren ∧ n.bloom = filterAt (rest ++ sum) h.bloomLen := by
  have hhead : readHead path (h.bytes ++ rest) = .ok (h, rest) :=
    (parses_head path _ _ _).mpr ⟨_, ⟨hfit, rfl⟩, rfl⟩
  have hread := readFilter_ok hin hfilter
  rw [readBody_eq]
  cases loadEntries with
  | false => exact ⟨_, _, bind_eq_ok.mpr ⟨h, rest, hhead, bind_eq_ok.mpr ⟨_, _, hread, rfl⟩⟩, rfl, rfl⟩
  | true =>
    obtain ⟨r, tail, hr⟩ := readEntries_iff.mpr (hwhole rfl)
    exact ⟨_, _, bind_eq_ok.mpr ⟨h, rest, hhead, bind_eq_ok.mpr ⟨_, _, hread,
      bind_eq_ok.mpr ⟨r, tail, hr, rfl⟩⟩⟩, rfl, rfl⟩

/-- What is read of an entry is short, whatever is in the file. -/
theorem strings_of_readNodeFile {raw : List UInt8} {n : IndexedNode}
    (h : readNodeFile path raw loadEntries = .ok n) :
    ∀ e ∈ n.buffer, e.key.size < 2 ^ 32 ∧ e.value.size < 2 ^ 32 := by
  obtain ⟨data, sum, tail, hbody⟩ : ∃ data sum tail,
      readBody path loadEntries sum data = .ok (n, tail) := by
    unfold readNodeFile at h
    split at h
    · cases h
    · dsimp only at h
      split at h
      · cases h
      · cases hb : readBody path loadEntries (raw.drop (raw.length - 8))
            (raw.take (raw.length - 8)) with
        | error e =>
          rw [hb] at h
          cases h
        | ok p =>
          rw [hb] at h
          cases h
          exact ⟨_, _, p.2, hb⟩
  rw [readBody_eq] at hbody
  obtain ⟨head, rest, -, hbody⟩ := bind_eq_ok.mp hbody
  obtain ⟨bloom, mid, -, hbody⟩ := bind_eq_ok.mp hbody
  cases loadEntries with
  | false =>
    cases hbody
    exact fun e he => absurd he List.not_mem_nil
  | true =>
    obtain ⟨r, rest', hr, hend⟩ := bind_eq_ok.mp hbody
    cases hend
    obtain ⟨es, mid', hes, hr⟩ := bind_eq_ok.mp hr
    obtain ⟨count, last, -, hr⟩ := bind_eq_ok.mp hr
    obtain ⟨pairs, final, -, hr⟩ := bind_eq_ok.mp hr
    cases hr
    obtain ⟨_, ⟨-, us, hus, -⟩, -⟩ := (parses_entry.many _ _ _ _).mp hes
    have hes : List.Forall₂ (fun e u => EntryFormat u e) es us := hus.flip
    exact ((List.forall₂_and_left es us).mp (hes.imp fun _ _ hu => ⟨⟨hu.1, hu.2.1⟩, hu⟩)).1

/-- `load_entries` reads nothing longer. -/
theorem strings_of_loadEntries {raw : List UInt8} {g f : IndexedNode}
    (hg : readNodeFile path raw loadEntries = .ok g) (hf : g.loadEntries raw = .ok f) :
    ∀ e ∈ f.buffer, e.key.size < 2 ^ 32 ∧ e.value.size < 2 ^ 32 := by
  unfold IndexedNode.loadEntries at hf
  split at hf
  · cases hf
    exact strings_of_readNodeFile hg
  · cases hfull : readNodeFile g.filePath raw true with
    | error e =>
      rw [hfull] at hf
      cases hf
    | ok full =>
      rw [hfull] at hf
      cases hf
      have hshort := strings_of_readNodeFile hfull
      exact hshort

end Body

/-- If the bytes begin with a header, its filter is in the file, and if also the filter has
room for its bits and the entries are there (or not asked for), then there are not too many
children and the filter has bits for its hash functions. -/
def Harmless (data sum : List UInt8) (loadEntries : Bool) : Prop :=
  ∀ (h : FileHead) (rest : List UInt8), h.Fits → data = h.bytes ++ rest →
    FilterInside (rest ++ sum) h.bloomLen ∧
      (FilterFits (rest ++ sum) h.bloomLen →
        (loadEntries = true → Whole h.numEntries (rest.drop h.bloomLen)) →
        h.numChildren ≤ maxFanout ∧ FilterUsable (rest ++ sum) h.bloomLen)

/-- The checksum of these bytes. -/
def checksum (data : List UInt8) : List UInt8 := writeU64 (crc64 data).toNat

/-- **Decoding a file with a correct checksum is safe exactly if its bytes are harmless.** -/
theorem decodesSafely_iff (path : FilePath) (data : List UInt8) (loadEntries : Bool) :
    DecodesSafely (readNodeFile path (data ++ checksum data) loadEntries) ↔
      Harmless data (checksum data) loadEntries := by
  unfold checksum
  rw [SSTNode.readNodeFile_append, if_pos rfl]
  generalize writeU64 (crc64 data).toNat = sum
  constructor
  · intro D h rest hfit hdata
    have hin : FilterInside (rest ++ sum) h.bloomLen := by
      by_contra hout
      have hread : readBody path loadEntries sum data = .error .outside :=
        readBody_outside.mpr ⟨h, rest, hfit, hdata, hout⟩
      exact D.inside (by rw [hread]; rfl)
    refine ⟨hin, fun hfilter hwhole => ?_⟩
    obtain ⟨n, tail, hn, hnum, hbloom⟩ := readBody_ok path hfit hin hfilter hwhole
    rw [hdata, hn] at D
    exact ⟨hnum ▸ D.children n rfl, (probesInside_filterAt hin hfilter).mp fun f hf =>
      D.filter n rfl f (hbloom.trans hf)⟩
  · intro H
    have hof : ∀ n, (readBody path loadEntries sum data).map Prod.fst = .ok n →
        n.numChildren ≤ maxFanout ∧ ∀ f, n.bloom = some f → f.ProbesInside := by
      intro n hn
      obtain ⟨h, rest, hfit, hdata, hnum, hbloom, hfilter, hwhole⟩ := of_readBody_ok hn
      obtain ⟨hin, hgood⟩ := H h rest hfit hdata
      obtain ⟨hle, huse⟩ := hgood hfilter hwhole
      exact ⟨hnum ▸ hle, hbloom ▸ (probesInside_filterAt hin hfilter).mpr huse⟩
    refine ⟨fun hout => ?_, fun n hn => (hof n hn).1, fun n hn => (hof n hn).2⟩
    obtain ⟨h, rest, hfit, hdata, hbad⟩ := readBody_outside.mp (by
      cases hb : readBody path loadEntries sum data with
      | error e => rw [hb] at hout; exact congrArg _ (by simpa [Except.map] using hout)
      | ok p => rw [hb] at hout; cases hout)
    exact hbad (H h rest hfit hdata).1

/-- A header with no keys and no entries. -/
def forgedHead (numChildren bloomLen : Nat) : FileHead where
  id := 1
  level := 0
  numChildren := numChildren
  childIds := List.replicate maxFanout invalidNodeId
  numEntries := 0
  minKey := .empty
  maxKey := .empty
  bloomLen := bloomLen

/-- A file that begins with that header. -/
def forgedFile (numChildren bloomLen : Nat) (rest : List UInt8) : List UInt8 :=
  (forgedHead numChildren bloomLen).bytes ++ rest ++
    checksum ((forgedHead numChildren bloomLen).bytes ++ rest)

section Forged

variable {numChildren bloomLen : Nat}

theorem fits_forgedHead (hn : numChildren < 2 ^ 32) (hb : bloomLen < 2 ^ 32) :
    (forgedHead numChildren bloomLen).Fits where
  id := by norm_num [forgedHead]
  level := by norm_num [forgedHead]
  numChildren := hn
  slots := List.length_replicate
  childIds c hc := by
    rw [List.eq_of_mem_replicate hc]
    norm_num [invalidNodeId]
  numEntries := by norm_num [forgedHead]
  minKey := by norm_num [forgedHead, Bytes.empty]
  maxKey := by norm_num [forgedHead, Bytes.empty]
  bloomLen := hb

theorem readNodeFile_forged (rest : List UInt8) :
    readNodeFile ⟨1⟩ (forgedFile numChildren bloomLen rest) false =
      (readBody ⟨1⟩ false (checksum ((forgedHead numChildren bloomLen).bytes ++ rest))
        ((forgedHead numChildren bloomLen).bytes ++ rest)).map Prod.fst := by
  rw [forgedFile, checksum, SSTNode.readNodeFile_append, if_pos rfl]

end Forged

/-- A file with seventeen children, a file that ends where its filter should begin, and a
file whose filter has a hash function and no bits. -/
theorem decodesSafely_forged :
    ¬ DecodesSafely (readNodeFile ⟨1⟩ (forgedFile 17 0 []) false) ∧
      ¬ DecodesSafely (readNodeFile ⟨1⟩ (forgedFile 0 12 []) false) ∧
      ¬ DecodesSafely (readNodeFile ⟨1⟩ (forgedFile 0 12 (writeU32 1 ++ writeU64 0)) false) := by
  have hmany : (forgedHead 17 0).Fits := fits_forgedHead (by norm_num) (by norm_num)
  have hfilter : (forgedHead 0 12).Fits := fits_forgedHead (by norm_num) (by norm_num)
  rw [readNodeFile_forged, readNodeFile_forged, readNodeFile_forged]
  refine ⟨fun D => ?_, fun D => ?_, fun D => ?_⟩
  · obtain ⟨n, tail, hn, hnum, -⟩ := readBody_ok ⟨1⟩ hmany (fun h => absurd h (by decide))
      (.inl rfl) (fun h : false = true => nomatch h)
    rw [hn] at D
    have := D.children n rfl
    rw [hnum] at this
    exact absurd this (by decide)
  · refine D.inside ?_
    rw [readBody_outside.mpr ⟨_, [], hfilter, rfl, fun h => ?_⟩]
    · rfl
    · have := (h le_rfl).1
      rw [List.nil_append, checksum, writeU64, length_leBytes] at this
      omega
  · generalize checksum _ = sum at D
    have hhashes : filterHashes (writeU32 1 ++ writeU64 0 ++ sum) = 1 := rfl
    have hbits : filterBits (writeU32 1 ++ writeU64 0 ++ sum) = 0 := by
      rw [filterBits, writeU32, writeU64, List.append_assoc, List.drop_left' (length_leBytes 1 4),
        List.take_left' (length_leBytes 0 8), ofLe_leBytes, Nat.zero_mod]
    have hlen : 12 ≤ (writeU32 1 ++ writeU64 0 ++ sum).length := by
      simp [writeU32, writeU64]
      omega
    have hin : FilterInside (writeU32 1 ++ writeU64 0 ++ sum) (forgedHead 0 12).bloomLen :=
      fun _ => ⟨hlen, fun _ => by rw [hbits]; exact hlen⟩
    have hfits : FilterFits (writeU32 1 ++ writeU64 0 ++ sum) (forgedHead 0 12).bloomLen :=
      .inr ⟨le_rfl, by rw [hbits]; exact le_rfl⟩
    obtain ⟨n, tail, hn, -, hbloom⟩ := readBody_ok ⟨1⟩ hfilter hin hfits
      (fun h : false = true => nomatch h)
    rw [hn] at D
    have huse := (probesInside_filterAt hin hfits).mp fun f hf => D.filter n rfl f (hbloom.trans hf)
    rcases huse (by norm_num [forgedHead]) with h | h
    · rw [hhashes] at h
      omega
    · rw [hbits] at h
      omega

end GravTree
