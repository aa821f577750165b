import GravTree.NodeRoundTrip

/-!
# No false negatives

A filter answers for every key that was added to it, also after it has been through its
own serialisation, through a node file, or both. All of this rests on the probes of a
key: they depend on the key and on the size of the filter only, and adding a key sets
the bits at its probes and clears none.
-/

namespace GravTree

namespace BloomFilter

variable {f : BloomFilter} {p q : Nat}

/-! ## Bits -/

theorem shiftRight_and_one (b : UInt8) {s : Nat} (hs : s < 8) :
    ((b >>> UInt8.ofNat s) &&& 1 == 1) = b.toNat.testBit s := by
  have hval : ((b >>> UInt8.ofNat s) &&& 1).toNat = (b.toNat >>> s) % 2 := by
    simp [UInt8.toNat_and, UInt8.toNat_shiftRight, Nat.mod_eq_of_lt, hs, Nat.and_one_is_mod,
      show s % 256 = s by omega]
  rw [Bool.eq_iff_iff, beq_iff_eq, ← UInt8.toNat_inj, hval, Nat.testBit_eq_decide_div_mod_eq,
    Nat.shiftRight_eq_div_pow]
  simp

theorem testBit_or_shiftLeft (b : UInt8) (s : Nat) {r : Nat} (hr : r < 8) :
    (b ||| ((1 : UInt8) <<< UInt8.ofNat r)).toNat.testBit s =
      (b.toNat.testBit s || decide (r = s)) := by
  have hval : ((1 : UInt8) <<< UInt8.ofNat r).toNat = 2 ^ r := by
    have : 2 ^ r < 2 ^ 8 := Nat.pow_lt_pow_right (by decide) hr
    rw [UInt8.toNat_shiftLeft]
    simp [Nat.one_shiftLeft, show r % 256 = r by omega, Nat.mod_eq_of_lt hr]
    omega
  rw [UInt8.toNat_or, hval, Nat.testBit_or, Nat.testBit_two_pow]

theorem getBit_eq (f : BloomFilter) (p : Nat) :
    f.getBit p = (f.bits.getD (p / 8) 0).toNat.testBit (p % 8) :=
  shiftRight_and_one _ (Nat.mod_lt p (by decide))

@[simp] theorem length_setBit (f : BloomFilter) (p : Nat) :
    (f.setBit p).bits.length = f.bits.length := List.length_modify ..

@[simp] theorem numHashFuncs_setBit (f : BloomFilter) (p : Nat) :
    (f.setBit p).numHashFuncs = f.numHashFuncs := rfl

/-- Setting a bit of the array changes that bit only. -/
theorem getBit_setBit (hp : p / 8 < f.bits.length) :
    (f.setBit p).getBit q = (f.getBit q || decide (p = q)) := by
  rw [getBit_eq, getBit_eq, setBit, List.getD_eq_getElem?_getD, List.getElem?_modify,
    List.getD_eq_getElem?_getD]
  by_cases hpq : p / 8 = q / 8
  · rw [← hpq, List.getElem?_eq_getElem hp]
    have hbit := testBit_or_shiftLeft f.bits[p / 8] (q % 8) (Nat.mod_lt p (by decide : 0 < 8))
    have hq : p % 8 = q % 8 ↔ p = q := by omega
    simpa [hq] using hbit
  · have hne : p ≠ q := fun h => hpq (h ▸ rfl)
    simp [hpq, hne]

/-! ## Probes -/

/-- The bit positions of a key. -/
def probes (f : BloomFilter) (key : Bytes) : List Nat :=
  (List.range f.numHashFuncs).map (f.nthHash (baseHashes key))

theorem nthHash_congr {g : BloomFilter} (h : g.bitCount = f.bitCount) : g.nthHash = f.nthHash := by
  funext hs i
  rw [nthHash, nthHash, h]

/-- Filters of one shape probe the same positions. -/
theorem probes_congr {g : BloomFilter} (h : g.bitCount = f.bitCount)
    (hn : g.numHashFuncs = f.numHashFuncs) (key : Bytes) : g.probes key = f.probes key := by
  rw [probes, probes, nthHash_congr h, hn]

theorem mightContain_iff {key : Bytes} :
    f.mightContain key = true ↔ ∀ p ∈ f.probes key, f.getBit p = true := by
  simp [mightContain, probes]

/-- Every probe is a position of the filter. -/
theorem nthHash_lt (h : 0 < f.bitCount) (hs : UInt64 × UInt64) (i : Nat) :
    f.nthHash hs i < f.bitCount := Nat.mod_lt _ h

theorem div_lt_of_lt (h : p < f.bitCount) : p / 8 < f.bits.length := by
  have : f.bitCount ≤ f.bits.length * 8 := Nat.mod_le _ _
  omega

theorem probe_lt (h : 0 < f.bitCount) {key : Bytes} (hp : p ∈ f.probes key) : p < f.bitCount := by
  obtain ⟨i, -, rfl⟩ := List.mem_map.mp hp
  exact nthHash_lt h _ i

/-! ## Adding keys -/

/-- Set these bits. -/
def setBits (f : BloomFilter) (ps : List Nat) : BloomFilter := ps.foldl setBit f

@[simp] theorem bitCount_setBit (f : BloomFilter) (p : Nat) :
    (f.setBit p).bitCount = f.bitCount := by
  rw [bitCount, bitCount, length_setBit]

theorem setBits_shape (ps : List Nat) : ∀ f : BloomFilter,
    (f.setBits ps).bitCount = f.bitCount ∧ (f.setBits ps).numHashFuncs = f.numHashFuncs := by
  induction ps with
  | nil => exact fun f => ⟨rfl, rfl⟩
  | cons p ps ih =>
    intro f
    obtain ⟨h₁, h₂⟩ := ih (f.setBit p)
    exact ⟨h₁.trans (bitCount_setBit f p), h₂⟩

/-- The positions do not move while bits are set. -/
theorem foldl_setBit (hs : UInt64 × UInt64) : ∀ (is : List Nat) {g : BloomFilter},
    g.bitCount = f.bitCount → is.foldl (fun g i => g.setBit (g.nthHash hs i)) g =
      g.setBits (is.map (f.nthHash hs)) := by
  intro is
  induction is with
  | nil => exact fun _ => rfl
  | cons i is ih =>
    intro g hg
    have hnext : (g.setBit (g.nthHash hs i)).bitCount = f.bitCount :=
      (bitCount_setBit g _).trans hg
    rw [List.foldl_cons, ih hnext, nthHash_congr hg, List.map_cons, setBits, setBits,
      List.foldl_cons]

/-- `add` sets the bits at the probes of the key. -/
theorem add_eq (f : BloomFilter) (key : Bytes) : f.add key = f.setBits (f.probes key) := by
  rw [add, probes]
  exact foldl_setBit (baseHashes key) (List.range f.numHashFuncs) rfl

theorem getBit_setBits : ∀ {ps : List Nat} {f : BloomFilter}, (∀ p ∈ ps, p / 8 < f.bits.length) →
    ((f.setBits ps).getBit q = true ↔ f.getBit q = true ∨ q ∈ ps) := by
  intro ps
  induction ps with
  | nil => exact fun _ => by simp [setBits]
  | cons p ps ih =>
    intro f h
    obtain ⟨hp, hps⟩ := List.forall_mem_cons.mp h
    have := ih (f := f.setBit p) (by simpa using hps)
    rw [getBit_setBit hp] at this
    rw [show f.setBits (p :: ps) = (f.setBit p).setBits ps from rfl, this]
    simp only [Bool.or_eq_true, decide_eq_true_eq, List.mem_cons, or_assoc, @eq_comm _ p q]

/-- What a filter answers after `add`. -/
theorem mightContain_add (h : 0 < f.bitCount) (key key' : Bytes) :
    (f.add key).mightContain key' = true ↔
      ∀ p ∈ f.probes key', f.getBit p = true ∨ p ∈ f.probes key := by
  have hshape := setBits_shape (f.probes key) f
  rw [mightContain_iff, add_eq, probes_congr hshape.1 hshape.2]
  exact forall₂_congr fun p _ => getBit_setBits fun p hp => div_lt_of_lt (probe_lt h hp)

theorem bitCount_add (f : BloomFilter) (key : Bytes) : (f.add key).bitCount = f.bitCount := by
  rw [add_eq, (setBits_shape _ f).1]

theorem numHashFuncs_foldl_add : ∀ (keys : List Bytes) (f : BloomFilter),
    (keys.foldl add f).numHashFuncs = f.numHashFuncs := by
  intro keys
  induction keys with
  | nil => exact fun _ => rfl
  | cons k keys ih =>
    intro f
    rw [List.foldl_cons, ih, add_eq, (setBits_shape _ f).2]

/-- **Adding keys never takes an answer back.** -/
theorem mightContain_mono {key : Bytes} : ∀ {keys : List Bytes} {f : BloomFilter},
    0 < f.bitCount → f.mightContain key = true → (keys.foldl add f).mightContain key = true := by
  intro keys
  induction keys with
  | nil => exact fun _ hf => hf
  | cons k keys ih =>
    intro f h hf
    rw [List.foldl_cons]
    refine ih (by rwa [bitCount_add]) ((mightContain_add h k key).mpr fun p hp => ?_)
    exact .inl (mightContain_iff.mp hf p hp)

/-- **A filter answers for every key added.** -/
theorem mightContain_of_mem {key : Bytes} : ∀ {keys : List Bytes} {f : BloomFilter},
    0 < f.bitCount → key ∈ keys → (keys.foldl add f).mightContain key = true := by
  intro keys
  induction keys with
  | nil => exact fun _ h => nomatch h
  | cons k keys ih =>
    intro f h hk
    have h' : 0 < (f.add k).bitCount := by rwa [bitCount_add]
    rw [List.foldl_cons]
    rcases List.mem_cons.mp hk with rfl | hk
    · exact mightContain_mono h' ((mightContain_add h key key).mpr fun _ => .inr)
    · exact ih h' hk

/-- A filter and the one read back from its serialisation answer alike. -/
theorem mightContain_deserialize (h : 0 < f.bitCount) (hn : f.numHashFuncs < 2 ^ 32) :
    ∃ g, deserialize f.serialize = .ok g ∧ ∀ key, g.mightContain key = f.mightContain key := by
  have hread := deserialize_append hn []
  rw [List.append_nil] at hread
  refine ⟨_, hread, fun key => ?_⟩
  obtain ⟨g, hg⟩ : ∃ g : BloomFilter, g = { f with bits := f.bits.take (f.bitCount / 8) } :=
    ⟨_, rfl⟩
  rw [← hg]
  have hbits : g.bits = f.bits.take (f.bitCount / 8) := by rw [hg]
  have hcount : g.bitCount = f.bitCount := by
    have : f.bitCount ≤ f.bits.length * 8 := Nat.mod_le _ _
    have hdef : f.bitCount = f.bits.length * 8 % 2 ^ 64 := rfl
    rw [bitCount, hbits, List.length_take]
    omega
  have hprobes : g.probes key = f.probes key := probes_congr hcount (by rw [hg]) key
  have hbit : ∀ p ∈ f.probes key, g.getBit p = f.getBit p := by
    intro p hp
    have hlt := probe_lt h hp
    have hdef : f.bitCount = f.bits.length * 8 % 2 ^ 64 := rfl
    rw [getBit, getBit, hbits, List.getD_eq_getElem?_getD, List.getD_eq_getElem?_getD,
      List.getElem?_take_of_lt (by omega)]
  rw [Bool.eq_iff_iff, mightContain_iff, mightContain_iff, hprobes]
  exact forall₂_congr fun p hp => by rw [hbit p hp]

end BloomFilter

/-! ## Node files -/

section Written

variable {sizing : Sizing} {n : SSTNode}

/-- What `create` and `flush_to_disk` write. -/
def WrittenNode (sizing : Sizing) (n : SSTNode) : Prop :=
  (∃ id level entries children, n = SSTNode.build sizing id level entries children) ∨
    ∃ m : SSTNode, n = m.prepare sizing

/-- The filter of a written node was made of the keys it is written with. -/
theorem WrittenNode.bloom (h : WrittenNode sizing n) : n.bloom =
    some ((n.buffer.map (·.key)).foldl .add (.new sizing (max n.buffer.length 1))) := by
  rcases h with ⟨id, level, entries, children, rfl⟩ | ⟨m, rfl⟩
  · simp only [SSTNode.build, SSTNode.buildBloom, List.foldl_map]
  · simp only [SSTNode.prepare, SSTNode.buildBloom, List.foldl_map]

/-- `load_header` gets the header that was written. -/
theorem readNodeFile_header (h : n.Typed) (hmin : n.keyRange.minKey.size < 2 ^ 32)
    (hmax : n.keyRange.maxKey.size < 2 ^ 32)
    (hbloom : ∀ f, n.bloom = some f → f.serialize.length < 2 ^ 32 ∧ f.numHashFuncs < 2 ^ 32)
    (path : FilePath) :
    readNodeFile path n.fileBytes false = .ok { toSSTNode := n.header path } := by
  obtain ⟨offsets, hraw, -⟩ := n.exists_offsets
  have hhead := SSTNode.decodes_header_typed h hmin hmax hbloom path
    (writeU64 (crc64 n.rawBytes).toNat) (n.buffer.flatMap writeEntry ++
      (writeU32 offsets.length ++ offsets.flatMap (writeSparse n.buffer)))
  rw [← List.append_assoc, ← hraw] at hhead
  rw [SSTNode.readNodeFile_eq, readBody_header hhead]
  rfl

/-- **No false negatives**, in memory, through `serialize` and through a node file whose
header fits its length fields. -/
theorem noFalseNegatives :
    (∀ f : BloomFilter, 0 < f.bitCount →
      (∀ key i, f.nthHash (BloomFilter.baseHashes key) i < f.bitCount) ∧
      (∀ (keys : List Bytes), ∀ key ∈ keys, (keys.foldl BloomFilter.add f).mightContain key = true) ∧
      (∀ (keys : List Bytes) key, f.mightContain key = true →
        (keys.foldl BloomFilter.add f).mightContain key = true) ∧
      (f.numHashFuncs < 2 ^ 32 → ∃ g, BloomFilter.deserialize f.serialize = .ok g ∧
        ∀ key, g.mightContain key = f.mightContain key)) ∧
    ∀ (sizing : Sizing) (n : SSTNode) (path : FilePath),
      (∀ m, 0 < (BloomFilter.new sizing m).bitCount ∧
        (BloomFilter.new sizing m).numHashFuncs < 2 ^ 32) →
      WrittenNode sizing n → n.Typed →
      n.keyRange.minKey.size < 2 ^ 32 → n.keyRange.maxKey.size < 2 ^ 32 →
      (∀ f, n.bloom = some f → f.serialize.length < 2 ^ 32) →
      ∃ g, readNodeFile path n.fileBytes false = .ok g ∧ g.entriesLoaded = false ∧
        ∀ e ∈ n.buffer, g.mightContain e.key = true := by
  refine ⟨fun f h => ⟨fun key i => BloomFilter.nthHash_lt h _ i,
    fun keys key hk => BloomFilter.mightContain_of_mem h hk,
    fun keys key hk => BloomFilter.mightContain_mono h hk,
    BloomFilter.mightContain_deserialize h⟩, ?_⟩
  intro sizing n path hs hw hn hmin hmax hlen
  obtain ⟨hpos, hnhf⟩ := hs (max n.buffer.length 1)
  have hbloom := hw.bloom
  refine ⟨_, readNodeFile_header hn hmin hmax (fun f hf => ⟨hlen f hf, ?_⟩) path, rfl, ?_⟩
  · rw [hbloom] at hf
    obtain rfl := Option.some.inj hf
    rwa [BloomFilter.numHashFuncs_foldl_add]
  · intro e he
    have hkey : (n.header path).mightContain e.key =
        ((n.buffer.map (·.key)).foldl .add
          (BloomFilter.new sizing (max n.buffer.length 1))).mightContain e.key := by
      rw [SSTNode.mightContain, SSTNode.header, hbloom]
      rfl
    exact hkey.trans (BloomFilter.mightContain_of_mem hpos (List.mem_map_of_mem he))

theorem typed_single {n : SSTNode} (hid : n.id = 1) (hl : n.level = 0) (hk : n.childIds = []) :
    n.Typed where
  id := by rw [hid]; decide
  level := by rw [hl]; decide
  kids := by rw [hk]; exact fun c hc => nomatch hc
  fanout := by rw [hk]; decide

theorem noFalseNegatives_wideNode :
    ∃ g, readNodeFile ⟨1⟩ wideNode.fileBytes false = .ok g ∧ g.entriesLoaded = false ∧
      ∀ e ∈ wideNode.buffer, g.mightContain e.key = true := by
  have hfits := fits_wideNode
  refine noFalseNegatives.2 (fun _ => (64, 7)) wideNode ⟨1⟩ (fun m => ?_) (.inl ⟨_, _, _, _, rfl⟩)
    hfits.typed hfits.minKey hfits.maxKey fun f hf => (hfits.bloom f hf).1
  exact ⟨by rw [BloomFilter.new]; decide, by rw [BloomFilter.new]; decide⟩

/-- The bytes a reader of a header takes for an empty `max_key` and a filter of 64 zero
bits. -/
def forgedHeader : List UInt8 :=
  writeStr .empty ++ writeBloom (some { bits := List.replicate 8 0, numHashFuncs := 1 })

/-- A key of 2^32 bytes that begins with them. Its length is written as zero. -/
def longKey : Bytes := .ofList (forgedHeader ++ List.replicate (2 ^ 32 - 28) 0)

theorem longKey_size : longKey.size = 2 ^ 32 := by
  show (forgedHeader ++ List.replicate (2 ^ 32 - 28) 0).length = 2 ^ 32
  rw [List.length_append, List.length_replicate, show forgedHeader.length = 28 by decide]
  norm_num

theorem writeStr_longKey : writeStr longKey =
    writeStr .empty ++ (forgedHeader ++ List.replicate (2 ^ 32 - 28) 0) := by
  have hlen : writeU32 longKey.size = writeStr .empty := by
    rw [longKey_size]
    decide
  rw [writeStr, hlen]
  exact congrArg _ (List.ofFn_get _)

/-- A filter of zeros contains nothing. -/
theorem mightContain_zeros (key : Bytes) :
    ({ bits := List.replicate 8 0, numHashFuncs := 1 } : BloomFilter).mightContain key = false := by
  have hbit : ∀ p, ({ bits := List.replicate 8 0, numHashFuncs := 1 } : BloomFilter).getBit p =
      false := by
    intro p
    rw [BloomFilter.getBit_eq, List.getD_eq_getElem?_getD, List.getElem?_replicate]
    split <;> simp
  rw [BloomFilter.mightContain, List.range_one, List.all_cons, hbit, Bool.false_and]

/-- A node with one entry of this key: its file says that the key is not there. -/
theorem noFalseNegatives_longKey : ∃ (sizing : Sizing) (n : SSTNode) (path : FilePath)
    (g : IndexedNode), (∀ m, 0 < (BloomFilter.new sizing m).bitCount ∧
      (BloomFilter.new sizing m).numHashFuncs < 2 ^ 32) ∧
    WrittenNode sizing n ∧ n.Typed ∧ readNodeFile path n.fileBytes false = .ok g ∧
    ∃ e ∈ n.buffer, g.mightContain e.key = false := by
  obtain ⟨e, he⟩ : ∃ e : Entry, e.key = longKey := ⟨{ key := longKey }, rfl⟩
  obtain ⟨n, hn⟩ : ∃ n, n = SSTNode.build (fun _ => (64, 1)) 1 0 [e] [] := ⟨_, rfl⟩
  have hbuf : n.buffer = [e] := by rw [hn]; rfl
  -- what the header is taken for
  obtain ⟨f, hf⟩ : ∃ f : BloomFilter, f = { bits := List.replicate 8 0, numHashFuncs := 1 } :=
    ⟨_, rfl⟩
  obtain ⟨n', hn'⟩ : ∃ n' : SSTNode, n' = { id := 1, level := 0, buffer := [e], bloom := some f } :=
    ⟨_, rfl⟩
  have hhead : ∃ rest, n.rawBytes = n'.headerBytes ++ rest := by
    obtain ⟨offsets, hraw, -⟩ := n.exists_offsets
    have hmin : n.keyRange.minKey = longKey := by rw [hn]; exact he
    have hdef : n.headerBytes = writeU64 nodeFileMagic ++ writeU32 nodeFileVersion ++ writeU64 1 ++
        writeU32 0 ++ writeU32 0 ++ n'.childSlots.flatMap writeU64 ++ writeU32 1 ++
        writeStr n.keyRange.minKey ++ writeStr n.keyRange.maxKey ++ writeBloom n.bloom := by
      rw [hn, hn']
      rfl
    have hdef' : n'.headerBytes = writeU64 nodeFileMagic ++ writeU32 nodeFileVersion ++
        writeU64 1 ++ writeU32 0 ++ writeU32 0 ++ n'.childSlots.flatMap writeU64 ++ writeU32 1 ++
        writeStr .empty ++ forgedHeader := by
      rw [hn', forgedHeader, ← List.append_assoc, ← hf]
      rfl
    rw [hraw, hdef, hdef', hmin, writeStr_longKey]
    simp only [List.append_assoc, List.append_cancel_left_eq]
    exact ⟨_, rfl⟩
  obtain ⟨rest, hrest⟩ := hhead
  refine ⟨fun _ => (64, 1), n, ⟨1⟩, { toSSTNode := n'.header ⟨1⟩ }, fun m => ?_,
    .inl ⟨1, 0, [e], [], hn⟩, typed_single (by rw [hn]; rfl) (by rw [hn]; rfl) (by rw [hn]; rfl),
    ?_, e, by simp [hbuf], ?_⟩
  · exact ⟨by rw [BloomFilter.new]; decide, by rw [BloomFilter.new]; decide⟩
  · have hbloom : ∀ g, n'.bloom = some g → g.serialize.length < 2 ^ 32 ∧ g.numHashFuncs < 2 ^ 32 := by
      intro g hg
      obtain rfl : f = g := by simpa [hn'] using hg
      rw [BloomFilter.length_serialize, hf]
      decide
    have htyped : n'.Typed := typed_single (by rw [hn']) (by rw [hn']) (by rw [hn'])
    have hrange : n'.keyRange = {} := by rw [hn']
    have := SSTNode.decodes_header_typed htyped (by rw [hrange]; decide) (by rw [hrange]; decide)
      hbloom ⟨1⟩ (writeU64 (crc64 n.rawBytes).toNat) rest
    rw [← hrest] at this
    rw [SSTNode.readNodeFile_eq, readBody_header this]
    rfl
  · rw [hn', hf]
    exact mightContain_zeros e.key

end Written

end GravTree
