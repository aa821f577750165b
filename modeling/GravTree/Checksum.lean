import GravTree.NodeRoundTrip
import GravTree.Lib.Crc

/-!
# The checksum of a node file

`crc64` is a bit-serial check of 64 bits whose polynomial has constant term one, so it
detects every change of a file that stays inside eight consecutive bytes, and
`read_file` throws on it.
-/

namespace GravTree

/-- `POLY`. -/
def crcPoly : BitVec 64 := 0xad93d23594c935a9#64

/-- The test of the highest bit. -/
theorem high_bit (c : UInt64) : c &&& ((1 : UInt64) <<< 63) ≠ 0 ↔ c.toBitVec.msb = true := by
  have hone : ((1 : UInt64) <<< 63).toBitVec = BitVec.twoPow 64 63 := by decide
  rw [ne_eq, ← UInt64.toBitVec_inj, UInt64.toBitVec_and, hone, BitVec.and_twoPow,
    BitVec.msb_eq_getLsbD_last]
  cases c.toBitVec.getLsbD (64 - 1)
  · simp
  · simp

/-- One byte of `crc64`. -/
theorem crcByte_toBitVec (c : UInt64) (b : UInt8) :
    (crcByte c b).toBitVec = Crc.byte crcPoly c.toBitVec b.toBitVec := by
  have hshift : ∀ c : UInt64, (if c &&& ((1 : UInt64) <<< 63) ≠ 0 then
      (c <<< 1) ^^^ 0xad93d23594c935a9 else c <<< 1).toBitVec = Crc.shift crcPoly c.toBitVec := by
    intro c
    unfold Crc.shift
    by_cases h : c.toBitVec.msb = true
    · rw [if_pos ((high_bit c).mpr h), if_pos h]
      rfl
    · rw [if_neg (mt (high_bit c).mp h), if_neg h]
      rfl
  have hfold : ∀ (n : Nat) (c : UInt64), ((List.range n).foldl (fun c _ =>
      if c &&& ((1 : UInt64) <<< 63) ≠ 0 then (c <<< 1) ^^^ 0xad93d23594c935a9 else c <<< 1)
        c).toBitVec = (Crc.shift crcPoly)^[n] c.toBitVec := by
    intro n
    induction n with
    | zero => exact fun _ => rfl
    | succ n ih =>
      intro c
      rw [List.range_succ, List.foldl_append, List.foldl_cons, List.foldl_nil, hshift, ih,
        Function.iterate_succ_apply']
  rw [crcByte, hfold, Crc.byte, UInt64.toBitVec_xor]
  rfl

theorem crc64_toBitVec (data : List UInt8) : (crc64 data).toBitVec =
    Crc.run crcPoly (BitVec.allOnes 64) (data.map UInt8.toBitVec) ^^^ BitVec.allOnes 64 := by
  have hfold : ∀ (data : List UInt8) (c : UInt64), (data.foldl crcByte c).toBitVec =
      Crc.run crcPoly c.toBitVec (data.map UInt8.toBitVec) := by
    intro data
    induction data with
    | nil => exact fun _ => rfl
    | cons b data ih =>
      intro c
      rw [List.foldl_cons, ih, crcByte_toBitVec]
      rfl
  rw [crc64, UInt64.toBitVec_xor, hfold]
  rfl

/-- Two strings that differ inside a window of eight bytes have different checksums. -/
theorem crc64_window_ne (front back : List UInt8) {old new : List UInt8}
    (hlen : new.length = old.length) (h8 : old.length ≤ 8) (hne : new ≠ old) :
    crc64 (front ++ new ++ back) ≠ crc64 (front ++ old ++ back) := by
  intro h
  have h := congrArg UInt64.toBitVec h
  rw [crc64_toBitVec, crc64_toBitVec] at h
  have hrun := congrArg (· ^^^ BitVec.allOnes 64) h
  simp only [BitVec.xor_assoc, BitVec.xor_self, BitVec.xor_zero, List.map_append] at hrun
  refine Crc.run_window_ne (by decide) _ _ _ ?_ ?_ ?_ hrun
  · simpa using hlen
  · simp
    omega
  · exact fun h => hne (List.map_injective_iff.mpr (fun _ _ => UInt8.toBitVec_inj.mp) h)

/-- **Bursts are detected**, in a checksum and in a node file. -/
theorem burst_detected :
    (∀ front old new back : List UInt8, new.length = old.length → old.length ≤ 8 → new ≠ old →
      crc64 (front ++ new ++ back) ≠ crc64 (front ++ old ++ back)) ∧
    ∀ (n : SSTNode) (front old new back : List UInt8), n.rawBytes = front ++ old ++ back →
      new.length = old.length → old.length ≤ 8 → new ≠ old →
      ∀ path loadEntries,
        readNodeFile path (front ++ new ++ back ++ writeU64 (crc64 n.rawBytes).toNat) loadEntries =
          .error (.checksum path) := by
  refine ⟨fun front old new back => crc64_window_ne front back, ?_⟩
  intro n front old new back hraw hlen h8 hne path loadEntries
  have hsum : crc64 (front ++ new ++ back) ≠ crc64 n.rawBytes := by
    rw [hraw]
    exact crc64_window_ne front back hlen h8 hne
  rw [SSTNode.readNodeFile_append, if_neg hsum.symm]

/-- Eight bytes of a node file are overwritten, where it has zeros for absent children. -/
theorem burst_detected_window : ∃ front back, wideNode.rawBytes =
      front ++ List.replicate 8 0 ++ back ∧
    crc64 (front ++ List.replicate 8 0xff ++ back) ≠
      crc64 (front ++ List.replicate 8 0 ++ back) ∧
    readNodeFile ⟨1⟩ (front ++ List.replicate 8 0xff ++ back ++
        writeU64 (crc64 wideNode.rawBytes).toNat) true = .error (.checksum ⟨1⟩) := by
  have hold : (wideNode.rawBytes.drop 100).take 8 = List.replicate 8 0 := by decide +kernel
  obtain ⟨front, back, hraw⟩ : ∃ front back,
      wideNode.rawBytes = front ++ List.replicate 8 0 ++ back := by
    refine ⟨wideNode.rawBytes.take 100, (wideNode.rawBytes.drop 100).drop 8, ?_⟩
    rw [← hold, List.append_assoc, List.take_append_drop, List.take_append_drop]
  have hne : List.replicate 8 (0xff : UInt8) ≠ List.replicate 8 0 := by decide
  exact ⟨front, back, hraw, burst_detected.1 front _ _ back rfl (by decide) hne,
    burst_detected.2 wideNode front _ (List.replicate 8 0xff) back hraw rfl (by decide) hne ⟨1⟩
      true⟩

end GravTree
