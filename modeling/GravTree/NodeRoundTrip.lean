import GravTree.NodeFile

/-!
# What is written to a node file is read back

Encoder and decoder meet field by field. The offsets of the sparse index are where the
writer stood when it came to the entry, so decoding one entry there finds that entry.
This is what lets the other modules keep decoded nodes in the directory.
-/

namespace GravTree

open Reader

/-- The numbers of a node fit the fields of the file, and so do the lengths of what is
written with a length. The first three and the last are what the types of the source say. -/
structure SSTNode.Fits (n : SSTNode) : Prop where
  id : n.id < 2 ^ 64
  level : n.level < 2 ^ 32
  kids : ∀ c ∈ n.childIds, c < 2 ^ 64
  fanout : n.childIds.length ≤ maxFanout
  minKey : n.keyRange.minKey.size < 2 ^ 32
  maxKey : n.keyRange.maxKey.size < 2 ^ 32
  count : n.buffer.length < 2 ^ 32
  entries : ∀ e ∈ n.buffer, e.key.size < 2 ^ 32 ∧ e.value.size < 2 ^ 32
  bloom : ∀ f, n.bloom = some f → f.serialize.length < 2 ^ 32 ∧ f.numHashFuncs < 2 ^ 32
  size : n.rawBytes.length < 2 ^ 64

/-! ## Fields -/

theorem decodes_u32 {n : Nat} (h : n < 2 ^ 32) : Decodes readU32 (writeU32 n) n :=
  decodes_le _ (lt_of_lt_of_eq h (by norm_num))

theorem decodes_u64 {n : Nat} (h : n < 2 ^ 64) : Decodes readU64 (writeU64 n) n :=
  decodes_le _ (lt_of_lt_of_eq h (by norm_num))

theorem Bytes.ofList_toList (s : Bytes) : Bytes.ofList s.toList = s := by
  apply Bytes.toList_injective
  exact List.ofFn_get _

@[simp] theorem Bytes.length_toList (s : Bytes) : s.toList.length = s.size := List.length_ofFn

theorem decodes_str {s : Bytes} (h : s.size < 2 ^ 32) : Decodes readStr (writeStr s) s := by
  have hs := decodes_take NodeFileError.unexpectedEnd s.toList
  rw [Bytes.length_toList] at hs
  have := hs.map (f := Bytes.ofList)
  rw [Bytes.ofList_toList] at this
  exact (decodes_u32 h).bind this

theorem decodes_bit (b : Bool) : Decodes readU8 [if b then 1 else 0] (if b then 1 else 0) := by
  cases b
  · exact fun _ => rfl
  · exact fun _ => rfl

theorem decodes_entry {e : Entry} (hk : e.key.size < 2 ^ 32) (hv : e.value.size < 2 ^ 32) :
    Decodes readEntry (writeEntry e) e := by
  let entry (d : Nat) : Entry :=
    { key := e.key, value := e.value, seqNo := Fin.ofNat _ e.seqNo.val, deleted := d ≠ 0 }
  have hval : entry (if e.deleted then 1 else 0) = e := by
    have hfin : Fin.ofNat (2 ^ 64) (e.seqNo : Nat) = e.seqNo := Fin.ofNat_val_eq_self e.seqNo
    have hdel : decide ((if e.deleted = true then 1 else 0) ≠ 0) = e.deleted := by
      cases e.deleted <;> rfl
    show ({ key := e.key, value := e.value, seqNo := _, deleted := _ } : Entry) = e
    rw [hfin, hdel]
  have hlast := (decodes_bit e.deleted).map (f := entry)
  rw [hval] at hlast
  simp only [writeEntry, List.append_assoc]
  exact (decodes_str hk).bind ((decodes_str hv).bind ((decodes_u64 e.seqNo.isLt).bind hlast))

theorem decodes_sparse {se : SparseIndexEntry} (hk : se.key.size < 2 ^ 32)
    (ho : se.fileOffset < 2 ^ 64) :
    Decodes readSparse (writeStr se.key ++ writeU64 se.fileOffset) se :=
  (decodes_str hk).bind ((decodes_u64 ho).map
    (f := fun o => ({ key := se.key, fileOffset := o } : SparseIndexEntry)))

/-! ## The filter -/

theorem BloomFilter.length_serialize (f : BloomFilter) :
    f.serialize.length = 12 + f.bits.length := by
  simp only [serialize, writeU32, writeU64, List.length_append, length_leBytes]

/-- What is read back of any filter, whatever follows it. A length that is no `size_t` is
written modulo its size. -/
theorem BloomFilter.deserialize_append {f : BloomFilter} (hn : f.numHashFuncs < 2 ^ 32)
    (rest : List UInt8) : deserialize (f.serialize ++ rest) f.serialize.length =
      .ok { f with bits := f.bits.take (f.bitCount / 8) } := by
  have hlen := f.length_serialize
  have hlen' : (f.serialize ++ rest).length = 12 + f.bits.length + rest.length := by
    rw [List.length_append, hlen]
  have hu32 : ∀ n : Nat, (writeU32 n).length = 4 := fun n => length_leBytes n 4
  have hu64 : ∀ n : Nat, (writeU64 n).length = 8 := fun n => length_leBytes n 8
  have h4 : (f.serialize ++ rest).take 4 = writeU32 f.numHashFuncs := by
    rw [serialize, List.append_assoc, List.append_assoc]
    exact List.take_left' (hu32 _)
  have h8 : ((f.serialize ++ rest).drop 4).take 8 = writeU64 f.bitCount := by
    rw [serialize, List.append_assoc, List.append_assoc, List.drop_left' (hu32 _)]
    exact List.take_left' (hu64 _)
  have h12 : (f.serialize ++ rest).drop 12 = f.bits ++ rest := by
    rw [serialize, List.append_assoc]
    exact List.drop_left' (by rw [List.length_append, hu32, hu64])
  have hnhf : ofLe (writeU32 f.numHashFuncs) = f.numHashFuncs := by
    rw [writeU32, ofLe_leBytes, Nat.mod_eq_of_lt (lt_of_lt_of_eq hn (by norm_num))]
  have hbits : ofLe (writeU64 f.bitCount) = f.bitCount := by
    have hb : f.bitCount < 256 ^ 8 :=
      lt_of_lt_of_eq (Nat.mod_lt _ (by norm_num)) (by norm_num)
    rw [writeU64, ofLe_leBytes, Nat.mod_eq_of_lt hb]
  have hle : f.bitCount ≤ f.bits.length * 8 := Nat.mod_le _ _
  rw [deserialize, if_neg (by omega), if_neg (by omega)]
  simp only [h4, h8, h12, hnhf, hbits]
  rw [if_neg (by omega), if_neg (by omega), List.take_append_of_le_length (by omega)]

theorem BloomFilter.deserialize_serialize {f : BloomFilter} (h : f.serialize.length < 2 ^ 32)
    (hn : f.numHashFuncs < 2 ^ 32) (rest : List UInt8) :
    deserialize (f.serialize ++ rest) f.serialize.length = .ok f := by
  have hlen := f.length_serialize
  have hbits : f.bitCount / 8 = f.bits.length := by
    rw [bitCount]
    omega
  rw [deserialize_append hn, hbits, List.take_length]

theorem decodes_bloom {o : Option BloomFilter} (sum : List UInt8)
    (h : ∀ f, o = some f → f.serialize.length < 2 ^ 32 ∧ f.numHashFuncs < 2 ^ 32) :
    Decodes (readBloom sum) (writeBloom o) o := by
  cases o with
  | none =>
    have hnone : Decodes (pure none : BinaryReader (Option BloomFilter)) [] none := .pure none
    have := (decodes_u32 (n := 0) (by norm_num)).bind (f := fun len =>
      if 0 < len then readBloomData sum len >>= fun f => pure (some f) else pure none) hnone
    rwa [List.append_nil] at this
  | some f =>
    obtain ⟨hs, hn⟩ := h f rfl
    have hdata : Decodes (readBloomData sum f.serialize.length) f.serialize f := by
      intro rest
      rw [readBloomData, List.append_assoc, List.drop_left' rfl,
        BloomFilter.deserialize_serialize hs hn]
      rfl
    have hpos : 0 < f.serialize.length := by
      rw [f.length_serialize]
      omega
    refine (decodes_u32 hs).bind ?_
    rw [if_pos hpos]
    exact hdata.map

/-- Setting bits keeps the size of a filter. -/
theorem BloomFilter.shape_foldl_setBit {α : Type} (pos : BloomFilter → α → Nat) (is : List α) :
    ∀ f : BloomFilter,
      (is.foldl (fun g i => g.setBit (pos g i)) f).bits.length = f.bits.length ∧
        (is.foldl (fun g i => g.setBit (pos g i)) f).numHashFuncs = f.numHashFuncs := by
  induction is with
  | nil => exact fun _ => ⟨rfl, rfl⟩
  | cons i is ih =>
    intro f
    obtain ⟨hbits, hhash⟩ := ih (f.setBit (pos f i))
    exact ⟨hbits.trans (List.length_modify ..), hhash⟩

/-- The filter that `build_bloom` makes has the size the library gave it. -/
theorem SSTNode.shape_buildBloom (sizing : Sizing) (n : SSTNode) :
    ∃ f, (n.buildBloom sizing).bloom = some f ∧
      f.serialize.length = (sizing (max n.buffer.length 1)).1 / 8 + 12 ∧
      f.numHashFuncs = (sizing (max n.buffer.length 1)).2 := by
  have hadd : ∀ (es : List Entry) (f : BloomFilter),
      (es.foldl (fun f e => f.add e.key) f).bits.length = f.bits.length ∧
        (es.foldl (fun f e => f.add e.key) f).numHashFuncs = f.numHashFuncs := by
    intro es
    induction es with
    | nil => exact fun _ => ⟨rfl, rfl⟩
    | cons e es ih =>
      intro f
      obtain ⟨hbits, hhash⟩ := ih (f.add e.key)
      have hone := BloomFilter.shape_foldl_setBit
        (fun g i => g.nthHash (BloomFilter.baseHashes e.key) i) (List.range f.numHashFuncs) f
      exact ⟨hbits.trans hone.1, hhash.trans hone.2⟩
  obtain ⟨hbits, hhash⟩ := hadd n.buffer (.new sizing (max n.buffer.length 1))
  refine ⟨_, rfl, ?_, ?_⟩
  · rw [BloomFilter.length_serialize, hbits]
    simp [BloomFilter.new, Nat.add_comm]
  · rw [hhash]
    simp [BloomFilter.new]

/-! ## The pass over the entries -/

/-- The offsets collected so far: one for every 128th of the first `i` entries, where the
bytes of that entry begin. -/
structure Indexed (all : List Entry) (base i : Nat) (offsets : List (Nat × Nat)) : Prop where
  length : offsets.length = (i + 127) / sparseStep
  get : ∀ {j p}, offsets[j]? = some p → p.1 = sparseStep * j ∧ p.1 < i ∧
    p.2 = base + ((all.take p.1).flatMap writeEntry).length

theorem Indexed.next {all : List Entry} {base i : Nat} {offsets : List (Nat × Nat)}
    (I : Indexed all base i offsets) :
    Indexed all base (i + 1) (if i % sparseStep = 0 then
      offsets ++ [(i, base + ((all.take i).flatMap writeEntry).length)] else offsets) := by
  have hlen := I.length
  unfold sparseStep at *
  by_cases hi : i % 128 = 0
  · rw [if_pos hi]
    refine ⟨by rw [List.length_append, List.length_singleton, sparseStep]; omega,
      fun {j p} hp => ?_⟩
    rcases Nat.lt_or_ge j offsets.length with hj | hj
    · rw [List.getElem?_append_left hj] at hp
      obtain ⟨h1, h2, h3⟩ := I.get hp
      exact ⟨h1, by omega, h3⟩
    · rw [List.getElem?_append_right hj] at hp
      obtain ⟨hj0, rfl⟩ : j - offsets.length = 0 ∧
          (i, base + ((all.take i).flatMap writeEntry).length) = p := by
        cases h : j - offsets.length with
        | zero => exact ⟨rfl, by simpa [h] using hp⟩
        | succ k => simp [h] at hp
      exact ⟨show i = 128 * j by omega, Nat.lt_succ_self i, rfl⟩
  · rw [if_neg hi]
    refine ⟨by rw [sparseStep]; omega, fun {j p} hp => ?_⟩
    obtain ⟨h1, h2, h3⟩ := I.get hp
    exact ⟨h1, by omega, h3⟩

/-- The pass writes the entries one after the other and collects the offsets. -/
theorem writeEntries_spec {head : List UInt8} : ∀ (es done : List Entry)
    {offsets : List (Nat × Nat)}, Indexed (done ++ es) head.length done.length offsets →
    ∃ offsets', writeEntries es done.length (head ++ done.flatMap writeEntry) offsets =
        (head ++ (done ++ es).flatMap writeEntry, offsets') ∧
      Indexed (done ++ es) head.length (done ++ es).length offsets' := by
  intro es
  induction es with
  | nil =>
    intro done offsets I
    rw [List.append_nil] at I ⊢
    exact ⟨offsets, rfl, I⟩
  | cons e es ih =>
    intro done offsets I
    have hnext := I.next
    rw [List.take_left' rfl] at hnext
    have hassoc : done ++ e :: es = done ++ [e] ++ es := by simp
    have hlen : (done ++ [e]).length = done.length + 1 := by simp
    have hbuf : head ++ done.flatMap writeEntry ++ writeEntry e =
        head ++ (done ++ [e]).flatMap writeEntry := by simp
    rw [hassoc, ← hlen] at hnext
    obtain ⟨offsets', h', I'⟩ := ih (done ++ [e]) hnext
    rw [hassoc]
    refine ⟨offsets', ?_, I'⟩
    have hoff : (head ++ done.flatMap writeEntry).length =
        head.length + (done.flatMap writeEntry).length := List.length_append
    rw [writeEntries, hbuf, ← hlen, hoff]
    exact h'

theorem SSTNode.exists_offsets (n : SSTNode) : ∃ offsets,
    n.rawBytes = n.headerBytes ++ n.buffer.flatMap writeEntry ++ (writeU32 offsets.length ++
      offsets.flatMap (writeSparse n.buffer)) ∧
    Indexed n.buffer n.headerBytes.length n.buffer.length offsets := by
  have h0 : Indexed ([] ++ n.buffer) n.headerBytes.length ([] : List Entry).length [] :=
    ⟨rfl, fun hp => by simp at hp⟩
  obtain ⟨offsets, h, I⟩ := writeEntries_spec n.buffer [] h0
  refine ⟨offsets, ?_, I⟩
  have h : writeEntries n.buffer 0 n.headerBytes [] =
      (n.headerBytes ++ n.buffer.flatMap writeEntry, offsets) := by simpa using h
  rw [rawBytes, h]
  simp

/-! ## Headers and bodies -/

namespace SSTNode

variable {n : SSTNode}

/-- What the types of the source say of a node's own numbers. -/
structure Typed (n : SSTNode) : Prop where
  id : n.id < 2 ^ 64
  level : n.level < 2 ^ 32
  kids : ∀ c ∈ n.childIds, c < 2 ^ 64
  fanout : n.childIds.length ≤ maxFanout

theorem Fits.typed (h : n.Fits) : n.Typed := ⟨h.id, h.level, h.kids, h.fanout⟩

theorem childSlots_length (h : n.Typed) : n.childSlots.length = maxFanout := by
  have := h.fanout
  rw [childSlots, List.length_append, List.length_replicate]
  omega

theorem childSlots_take : n.childSlots.take n.childIds.length = n.childIds :=
  List.take_left' rfl

theorem childSlots_lt (h : n.Typed) : ∀ c ∈ n.childSlots, c < 2 ^ 64 := by
  intro c hc
  rcases List.mem_append.mp hc with hc | hc
  · exact h.kids c hc
  · rw [List.eq_of_mem_replicate hc]
    norm_num [invalidNodeId]

/-- What the header says of a node. -/
def header (n : SSTNode) (path : FilePath) : SSTNode :=
  { n with buffer := [], filePath := path, entriesLoaded := false }

/-- The header alone is read back whatever the entries are: their number is written in 32
bits, but reading the header does not need it. -/
theorem decodes_header_typed (h : n.Typed) (hmin : n.keyRange.minKey.size < 2 ^ 32)
    (hmax : n.keyRange.maxKey.size < 2 ^ 32)
    (hbloom : ∀ f, n.bloom = some f → f.serialize.length < 2 ^ 32 ∧ f.numHashFuncs < 2 ^ 32)
    (path : FilePath) (sum : List UInt8) : Decodes (readHeader path sum) n.headerBytes
      ({ toSSTNode := n.header path }, n.buffer.length % 2 ^ 32) := by
  have hkids : Decodes (many readU64 maxFanout) (n.childSlots.flatMap writeU64) n.childSlots := by
    have := decodes_many (r := readU64) (w := writeU64) (l := n.childSlots) fun c hc =>
      decodes_u64 (n.childSlots_lt h c hc)
    rwa [childSlots_length h] at this
  have hfan : n.childIds.length < 2 ^ 32 := lt_of_le_of_lt h.fanout (by norm_num [maxFanout])
  have hcount : Decodes readU32 (writeU32 n.buffer.length) (n.buffer.length % 2 ^ 32) :=
    decodes_le_mod _ _ _
  simp only [headerBytes, List.append_assoc]
  refine (decodes_u64 (by norm_num [nodeFileMagic])).bind ?_
  rw [if_neg (not_not.mpr rfl)]
  refine (decodes_u32 (by norm_num [nodeFileVersion])).bind ?_
  rw [if_neg (not_not.mpr rfl)]
  refine (decodes_u64 h.id).bind ((decodes_u32 h.level).bind ((decodes_u32 hfan).bind
    (hkids.bind (hcount.bind ((decodes_str hmin).bind ((decodes_str hmax).bind ?_))))))
  simp only [childSlots_take]
  exact (decodes_bloom sum hbloom).map (f := fun b =>
    (({ n.header path with bloom := b } : IndexedNode), n.buffer.length % 2 ^ 32))

theorem decodes_header (h : n.Fits) (path : FilePath) (sum : List UInt8) :
    Decodes (readHeader path sum) n.headerBytes
      ({ toSSTNode := n.header path }, n.buffer.length) := by
  have := decodes_header_typed h.typed h.minKey h.maxKey h.bloom path sum
  rwa [Nat.mod_eq_of_lt h.count] at this

/-- The sparse index that was written. -/
def sparse (n : SSTNode) (offsets : List (Nat × Nat)) : List SparseIndexEntry :=
  offsets.map fun p => ⟨n.buffer[p.1]?.elim .empty (·.key), p.2⟩

theorem decodes_body (h : n.Fits) (path : FilePath) (sum : List UInt8)
    {offsets : List (Nat × Nat)}
    (hraw : n.rawBytes = n.headerBytes ++ n.buffer.flatMap writeEntry ++
      (writeU32 offsets.length ++ offsets.flatMap (writeSparse n.buffer)))
    (I : Indexed n.buffer n.headerBytes.length n.buffer.length offsets) :
    Decodes (readBody path true sum) n.rawBytes
      { n.header path with
        buffer := n.buffer, sparseIndex := n.sparse offsets, entriesLoaded := true } := by
  have hentries : Decodes (many readEntry n.buffer.length) (n.buffer.flatMap writeEntry) n.buffer :=
    decodes_many fun e he => decodes_entry (h.entries e he).1 (h.entries e he).2
  have hcount : offsets.length < 2 ^ 32 := by
    have := h.count
    rw [I.length, sparseStep]
    omega
  have hsparse : Decodes (many readSparse offsets.length)
      (offsets.flatMap (writeSparse n.buffer)) (n.sparse offsets) := by
    have hmap := decodes_many (r := readSparse) (l := n.sparse offsets)
      (w := fun se => writeStr se.key ++ writeU64 se.fileOffset) fun se hse => by
        obtain ⟨p, hp, rfl⟩ := List.mem_map.mp hse
        obtain ⟨j, hj⟩ := List.mem_iff_getElem?.mp hp
        obtain ⟨-, hlt, hoff⟩ := I.get hj
        refine decodes_sparse ?_ ?_
        · rw [List.getElem?_eq_getElem hlt]
          exact (h.entries _ (List.getElem_mem hlt)).1
        · -- an offset lies inside the file
          have hsub : ((n.buffer.take p.1).flatMap writeEntry).length ≤
              (n.buffer.flatMap writeEntry).length :=
            (List.Sublist.flatMap (List.take_sublist _ _) _).length_le
          have hsize := h.size
          rw [hraw, List.length_append, List.length_append] at hsize
          show p.2 < _
          omega
    rw [sparse, List.length_map, List.flatMap_map] at hmap
    exact hmap
  rw [hraw, List.append_assoc]
  refine (decodes_header h path sum).bind ?_
  exact hentries.bind ((decodes_u32 hcount).bind hsparse.map)

/-- Reading bytes that end in a checksum. -/
theorem readNodeFile_append (path : FilePath) (data : List UInt8) (sum : UInt64)
    (loadEntries : Bool) : readNodeFile path (data ++ writeU64 sum.toNat) loadEntries =
      if sum = crc64 data then
        (readBody path loadEntries (writeU64 sum.toNat) data).map Prod.fst
      else .error (.checksum path) := by
  have hsum : (writeU64 sum.toNat).length = 8 := length_leBytes _ 8
  have hlen : (data ++ writeU64 sum.toNat).length = data.length + 8 := by
    rw [List.length_append, hsum]
  have hval : ofLe (writeU64 sum.toNat) = sum.toNat := by
    have h256 : (256 : Nat) ^ 8 = 2 ^ 64 := by norm_num
    rw [writeU64, ofLe_leBytes, h256, Nat.mod_eq_of_lt (UInt64.toNat_lt _)]
  rw [readNodeFile, if_neg (by omega), hlen, Nat.add_sub_cancel]
  simp only [List.take_left' rfl, List.drop_left' rfl, hval, ne_eq, UInt64.toNat_inj]
  by_cases h : sum = crc64 data
  · rw [if_neg (not_not.mpr h), if_pos h]
  · rw [if_pos h, if_neg h]

theorem readNodeFile_eq (n : SSTNode) (path : FilePath) (loadEntries : Bool) :
    readNodeFile path n.fileBytes loadEntries =
      (readBody path loadEntries (writeU64 (crc64 n.rawBytes).toNat) n.rawBytes).map Prod.fst := by
  rw [fileBytes, readNodeFile_append, if_pos rfl]

/-- What reading the written file gives. -/
theorem readNodeFile_fileBytes (h : n.Fits) (path : FilePath) : ∃ offsets,
    n.rawBytes = n.headerBytes ++ n.buffer.flatMap writeEntry ++ (writeU32 offsets.length ++
      offsets.flatMap (writeSparse n.buffer)) ∧
    Indexed n.buffer n.headerBytes.length n.buffer.length offsets ∧
    readNodeFile path n.fileBytes true = .ok { n.header path with
      buffer := n.buffer, sparseIndex := n.sparse offsets, entriesLoaded := true } := by
  obtain ⟨offsets, hraw, I⟩ := n.exists_offsets
  have hbody := decodes_body h path (writeU64 (crc64 n.rawBytes).toNat) hraw I []
  rw [List.append_nil] at hbody
  refine ⟨offsets, hraw, I, ?_⟩
  rw [readNodeFile_eq, hbody]
  rfl

end SSTNode

/-- Without the entries, only the header is read. -/
theorem readBody_header {path : FilePath} {bs rest sum : List UInt8} {n : IndexedNode}
    {count : Nat} (h : readHeader path sum bs = .ok ((n, count), rest)) :
    readBody path false sum bs = .ok (n, rest) := by
  show (readHeader path sum bs).bind _ = _
  rw [h]
  rfl

theorem IndexedNode.loadEntries_eq {g f : IndexedNode} {raw : List UInt8}
    (hg : g.entriesLoaded = false) (h : readNodeFile g.filePath raw true = .ok f) :
    g.loadEntries raw = .ok { g with
      buffer := f.buffer, sparseIndex := f.sparseIndex, entriesLoaded := true } := by
  rw [loadEntries, hg, h]
  rfl

/-! ## Sizes -/

section Sizes

theorem length_writeStr (s : Bytes) : (writeStr s).length = 4 + s.size := by
  rw [writeStr, List.length_append, writeU32, length_leBytes, Bytes.length_toList]

theorem length_writeEntry (e : Entry) : (writeEntry e).length = e.sizeBytes + 8 := by
  simp only [writeEntry, List.length_append, length_writeStr, writeU64, length_leBytes,
    List.length_singleton, Entry.sizeBytes]
  omega

theorem length_flatMap_writeEntry (es : List Entry) :
    (es.flatMap writeEntry).length = (es.map Entry.sizeBytes).sum + 8 * es.length := by
  induction es with
  | nil => rfl
  | cons e es ih =>
    rw [List.flatMap_cons, List.length_append, length_writeEntry, ih, List.map_cons, List.sum_cons,
      List.length_cons]
    omega

theorem length_flatMap_writeSparse (n : SSTNode) {offsets : List (Nat × Nat)} {c : Nat}
    (h : ∀ e ∈ n.buffer, e.key.size ≤ c) :
    (offsets.flatMap (writeSparse n.buffer)).length ≤ offsets.length * (12 + c) := by
  induction offsets with
  | nil => exact Nat.zero_le _
  | cons p offsets ih =>
    have hkey : (n.buffer[p.1]?.elim .empty (·.key) : Bytes).size ≤ c := by
      cases hp : n.buffer[p.1]? with
      | none => exact Nat.zero_le _
      | some e => exact h e (List.mem_of_getElem? hp)
    rw [List.flatMap_cons, List.length_append, writeSparse, List.length_append, length_writeStr,
      writeU64, length_leBytes, List.length_cons, Nat.succ_mul]
    omega

theorem length_headerBytes {n : SSTNode} (h : n.Typed) : n.headerBytes.length =
    168 + n.keyRange.minKey.size + n.keyRange.maxKey.size + (writeBloom n.bloom).length := by
  have hslots : (n.childSlots.flatMap writeU64).length = 128 := by
    rw [List.length_flatMap]
    simp [writeU64, SSTNode.childSlots_length h, maxFanout]
  simp only [SSTNode.headerBytes, List.length_append, hslots, length_writeStr, writeU64, writeU32,
    length_leBytes]
  omega

/-- **The file is not too long** when the entries are not: one pair of the sparse index stands
for 128 of them. -/
theorem SSTNode.fits_of {n : SSTNode} (ht : n.Typed) (hmin : n.keyRange.minKey.size < 2 ^ 32)
    (hmax : n.keyRange.maxKey.size < 2 ^ 32) (hcount : n.buffer.length < 2 ^ 32)
    (hentries : ∀ e ∈ n.buffer, e.key.size < 2 ^ 32 ∧ e.value.size < 2 ^ 32)
    (hbloom : ∀ f, n.bloom = some f → f.serialize.length < 2 ^ 32 ∧ f.numHashFuncs < 2 ^ 32)
    (htotal : (n.buffer.map Entry.sizeBytes).sum < 2 ^ 62) : n.Fits := by
  refine ⟨ht.id, ht.level, ht.kids, ht.fanout, hmin, hmax, hcount, hentries, hbloom, ?_⟩
  obtain ⟨offsets, hraw, I⟩ := n.exists_offsets
  have hsparse : (offsets.flatMap (writeSparse n.buffer)).length ≤
      offsets.length * (12 + 2 ^ 32) :=
    length_flatMap_writeSparse n fun e he => (hentries e he).1.le
  have hbuf := length_flatMap_writeEntry n.buffer
  have hoff := I.length
  have hfilter : (writeBloom n.bloom).length < 2 ^ 33 := by
    cases hb : n.bloom with
    | none => exact lt_of_eq_of_lt (length_leBytes 0 4) (by norm_num)
    | some f =>
      have := (hbloom f hb).1
      rw [writeBloom, List.length_append, writeU32, length_leBytes]
      omega
  rw [hraw, List.length_append, List.length_append, List.length_append, writeU32, length_leBytes,
    length_headerBytes ht]
  rw [sparseStep] at hoff
  have hoffsets : offsets.length * (12 + 2 ^ 32) ≤ 2 ^ 26 * (12 + 2 ^ 32) :=
    Nat.mul_le_mul_right _ (by omega)
  omega

end Sizes

/-! ## Round trips -/

/-- `f` is what was written of `n`: the node, and a sparse index whose `j`-th pair has the key
of entry `128 j` and an offset at which that entry can be decoded. -/
structure ReadsBack (n : SSTNode) (path : FilePath) (f : IndexedNode) : Prop where
  node : f.toSSTNode = { n with filePath := path, entriesLoaded := true }
  numChildren : f.numChildren = n.childIds.length
  pairs : f.sparseIndex.length = (n.buffer.length + 127) / sparseStep
  pair : ∀ {j se}, f.sparseIndex[j]? = some se → ∃ e, n.buffer[sparseStep * j]? = some e ∧
    se.key = e.key ∧ ∃ rest, readEntry (n.fileBytes.drop se.fileOffset) = .ok (e, rest)

/-- **A node file is read back** in one read, and by the header first and the entries later. -/
theorem fileBytes_readsBack (n : SSTNode) (h : n.Fits) (path : FilePath) :
    ∃ f, readNodeFile path n.fileBytes true = .ok f ∧ ReadsBack n path f ∧
      ∃ g, readNodeFile path n.fileBytes false = .ok g ∧
        g.toSSTNode = { n with buffer := [], filePath := path, entriesLoaded := false } ∧
        g.numChildren = n.childIds.length ∧ g.loadEntries n.fileBytes = .ok f := by
  obtain ⟨offsets, hraw, I, hfull⟩ := SSTNode.readNodeFile_fileBytes h path
  obtain ⟨f, hf⟩ : ∃ f : IndexedNode, f = { n.header path with
      buffer := n.buffer, sparseIndex := n.sparse offsets, entriesLoaded := true } := ⟨_, rfl⟩
  rw [← hf] at hfull
  refine ⟨f, hfull, ⟨by rw [hf]; rfl, by rw [hf]; rfl, ?_, ?_⟩,
    { toSSTNode := n.header path }, ?_, rfl, rfl, ?_⟩
  · rw [hf, ← I.length]
    exact List.length_map _
  · intro j se hse
    rw [hf] at hse
    obtain ⟨p, hp, rfl⟩ := Option.map_eq_some_iff.mp
      ((List.getElem?_map (l := offsets) (i := j)).symm.trans hse)
    obtain ⟨hidx, hlt, hoff⟩ := I.get hp
    have he := List.getElem?_eq_getElem hlt
    refine ⟨n.buffer[p.1], by rw [← hidx]; exact he, by rw [he]; rfl, ?_⟩
    -- the bytes from the offset on begin with the entry
    have hsplit : n.buffer = n.buffer.take p.1 ++ n.buffer[p.1] :: n.buffer.drop (p.1 + 1) := by
      simp
    obtain ⟨tail, hfile⟩ : ∃ tail, n.fileBytes =
        (n.headerBytes ++ (n.buffer.take p.1).flatMap writeEntry) ++
          (writeEntry n.buffer[p.1] ++ tail) := by
      have hflat := congrArg (List.flatMap writeEntry) hsplit
      rw [List.flatMap_append, List.flatMap_cons] at hflat
      rw [SSTNode.fileBytes]
      generalize writeU64 (crc64 n.rawBytes).toNat = sum
      refine ⟨(n.buffer.drop (p.1 + 1)).flatMap writeEntry ++
        (writeU32 offsets.length ++ offsets.flatMap (writeSparse n.buffer)) ++ sum, ?_⟩
      rw [hraw, hflat]
      simp only [List.append_assoc]
    have hoff : p.2 = (n.headerBytes ++ (n.buffer.take p.1).flatMap writeEntry).length := by
      rw [hoff, List.length_append]
    have hent := h.entries _ (List.getElem_mem hlt)
    refine ⟨tail, ?_⟩
    show readEntry (n.fileBytes.drop p.2) = _
    rw [hfile, hoff, List.drop_left' rfl]
    exact decodes_entry hent.1 hent.2 _
  · have hhead := SSTNode.decodes_header h path (writeU64 (crc64 n.rawBytes).toNat) (n.buffer.flatMap writeEntry ++
      (writeU32 offsets.length ++ offsets.flatMap (writeSparse n.buffer)))
    rw [← List.append_assoc, ← hraw] at hhead
    rw [SSTNode.readNodeFile_eq, readBody_header hhead]
    rfl
  · rw [IndexedNode.loadEntries_eq (g := { toSSTNode := n.header path }) rfl hfull, hf]

/-- 130 entries, each of a key of its own. -/
def wideEntries : List Entry := (List.range 130).map fun i =>
  { key := .byte (UInt8.ofNat i), value := .byte 2, seqNo := Fin.ofNat _ (i + 1) }

/-- A node with two children and these entries. -/
def wideNode : SSTNode := .build (fun _ => (64, 7)) 1 1 wideEntries [2, 3]

theorem fits_wideNode : wideNode.Fits := by
  have hbloom : ∀ f, wideNode.bloom = some f →
      f.serialize.length < 2 ^ 32 ∧ f.numHashFuncs < 2 ^ 32 := by
    intro f hf
    obtain ⟨g, hg, hserial, hhash⟩ := wideNode.shape_buildBloom fun _ => (64, 7)
    obtain rfl : f = g := Option.some.inj (hf.symm.trans hg)
    rw [hserial, hhash]
    decide
  refine SSTNode.fits_of ⟨?_, ?_, ?_, ?_⟩ ?_ ?_ ?_ ?_ hbloom ?_
  · decide
  · decide
  · decide
  · decide
  · decide +kernel
  · decide +kernel
  · decide +kernel
  · decide +kernel
  · decide +kernel

theorem fileBytes_wideNode : ∃ f, readNodeFile ⟨1⟩ wideNode.fileBytes true = .ok f ∧
    ReadsBack wideNode ⟨1⟩ f ∧ f.numChildren = 2 ∧ f.sparseIndex.length = 2 ∧
    ∃ g, readNodeFile ⟨1⟩ wideNode.fileBytes false = .ok g ∧
      g.toSSTNode = { wideNode with buffer := [], filePath := ⟨1⟩, entriesLoaded := false } ∧
      g.numChildren = 2 ∧ g.loadEntries wideNode.fileBytes = .ok f := by
  obtain ⟨f, hf, R, hg⟩ := fileBytes_readsBack wideNode fits_wideNode ⟨1⟩
  have hpairs : (wideNode.buffer.length + 127) / sparseStep = 2 := by decide +kernel
  exact ⟨f, hf, R, R.numChildren, R.pairs.trans hpairs, hg⟩

end GravTree
