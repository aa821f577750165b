import Mathlib.Data.List.Lex
import Mathlib.Data.List.Sort
import Mathlib.Data.List.Destutter
import Mathlib.Data.List.OfFn
import Mathlib.Data.List.AList
import Mathlib.Data.List.Flatten
import Mathlib.Data.Fin.VecNotation
import Mathlib.Order.BoundedOrder.Basic
import Mathlib.Order.Lattice
import Mathlib.Order.Fin.Basic
import Mathlib.Algebra.Order.Ring.Nat
import Mathlib.Algebra.BigOperators.Group.List.Basic
import Mathlib.Tactic.Common

/-!
# Core types

`include/gravtree/types.h`: keys and values are byte strings, a version of a key
is an `Entry`, and entries sort by key ascending and then by sequence number
*descending*, so the newest version of a key comes first among its versions.
-/

namespace GravTree

/-- `NodeId` (`uint64_t`). Identifiers are only ever allocated upwards from one. -/
abbrev NodeId := Nat

/-- `SequenceNumber` (`uint64_t`, so it wraps around). -/
abbrev SequenceNumber := Fin (2 ^ 64)

instance SequenceNumber.size_neZero : NeZero (2 ^ 64) := ⟨by decide⟩

/-- `INVALID_NODE_ID`. -/
def invalidNodeId : NodeId := 0

/-- `MAX_FANOUT`. -/
def maxFanout : Nat := 16

/-- `BUFFER_THRESHOLD`: 4 MB. -/
def bufferThreshold : Nat := 4 * 1024 * 1024

/-! ## Byte strings -/

/-- A `std::string`: its length and its bytes. -/
structure Bytes where
  /-- `size()`. -/
  size : Nat
  /-- The bytes, by index. -/
  data : Fin size → UInt8

namespace Bytes

/-- The empty string. -/
def empty : Bytes := ⟨0, Fin.elim0⟩

/-- A string of one byte. -/
def byte (b : UInt8) : Bytes := ⟨1, fun _ => b⟩

/-- A string of `n` zero bytes. -/
def zeros (n : Nat) : Bytes := ⟨n, fun _ => 0⟩

/-- The bytes in order. -/
def toList (b : Bytes) : List UInt8 := List.ofFn b.data

/-- The unsigned values of the bytes, which is what `std::string` compares. -/
def codes (b : Bytes) : List Nat := b.toList.map UInt8.toNat

theorem toList_injective : Function.Injective toList := by
  rintro ⟨n, f⟩ ⟨m, g⟩ h
  have hlen : n = m := by simpa [toList] using congrArg List.length h
  subst hlen
  have hfg : f = g := List.ofFn_injective h
  rw [hfg]

theorem codes_injective : Function.Injective codes := by
  intro a b h
  exact toList_injective (List.map_injective_iff.mpr (fun _ _ => UInt8.toNat_inj.mp) h)

/-- Strings compare lexicographically, byte by byte. -/
instance : LinearOrder Bytes := LinearOrder.lift' codes codes_injective

theorem empty_le (b : Bytes) : empty ≤ b := by
  show codes empty ≤ codes b
  cases h : codes b with
  | nil => exact le_of_eq (by simp [codes, toList, empty])
  | cons x xs => exact le_of_lt (by simp [codes, toList, empty])

instance : OrderBot Bytes where
  bot := empty
  bot_le := empty_le

end Bytes

/-! ## Entries -/

/-- A single key-value record. -/
structure Entry where
  key : Bytes
  value : Bytes := .empty
  seqNo : SequenceNumber := 0
  /-- The tombstone flag. -/
  deleted : Bool := false

namespace Entry

/-- `Entry::operator<`: key ascending, then newest first. -/
def before (a b : Entry) : Prop :=
  if a.key ≠ b.key then a.key < b.key else a.seqNo > b.seqNo

instance : LT Entry := ⟨before⟩

instance (a b : Entry) : Decidable (a < b) := by
  unfold LT.lt instLT before
  infer_instance

/-- What an entry adds to `buffer_size_bytes` and to `SkipList::bytes_`. -/
def sizeBytes (e : Entry) : Nat := e.key.size + e.value.size + 8 + 1

theorem lt_iff {a b : Entry} :
    a < b ↔ a.key < b.key ∨ a.key = b.key ∧ b.seqNo < a.seqNo := by
  show before a b ↔ _
  unfold before
  by_cases h : a.key = b.key
  · simp [h]
  · simp [h]

/-- `a` may stand before `b` in a sorted buffer. -/
def le (a b : Entry) : Prop := ¬ b < a

instance : DecidableRel le := fun a b => inferInstanceAs (Decidable (¬ b < a))

theorem le_iff {a b : Entry} :
    le a b ↔ a.key < b.key ∨ a.key = b.key ∧ b.seqNo ≤ a.seqNo := by
  unfold le
  rw [lt_iff]
  rcases lt_trichotomy a.key b.key with h | h | h
  · simp [h, h.ne', not_lt_of_gt h]
  · simp [h]
  · simp [h, h.ne', not_lt_of_gt h]

instance : IsTrans Entry le where
  trans a b c hab hbc := by
    rw [le_iff] at *
    rcases hab with h1 | ⟨h1, h1'⟩ <;> rcases hbc with h2 | ⟨h2, h2'⟩
    · exact .inl (h1.trans h2)
    · exact .inl (h2 ▸ h1)
    · exact .inl (h1 ▸ h2)
    · exact .inr ⟨h1.trans h2, h2'.trans h1'⟩

instance : Std.Total le where
  total a b := by
    rw [le_iff, le_iff]
    rcases lt_trichotomy a.key b.key with h | h | h
    · exact .inl (.inl h)
    · rcases le_total b.seqNo a.seqNo with h' | h'
      · exact .inl (.inr ⟨h, h'⟩)
      · exact .inr (.inr ⟨h.symm, h'⟩)
    · exact .inr (.inl h)

end Entry

/-- `std::stable_sort` with `Entry::operator<`. -/
def stableSort (es : List Entry) : List Entry := es.insertionSort Entry.le

/-- A buffer in `Entry` order. -/
def Sorted (es : List Entry) : Prop := es.Pairwise Entry.le

theorem sorted_stableSort (es : List Entry) : Sorted (stableSort es) :=
  List.pairwise_insertionSort Entry.le es

theorem stableSort_perm (es : List Entry) : (stableSort es).Perm es :=
  List.perm_insertionSort Entry.le es

@[simp] theorem mem_stableSort {e : Entry} {es : List Entry} : e ∈ stableSort es ↔ e ∈ es :=
  (stableSort_perm es).mem_iff

theorem stableSort_eq_self {es : List Entry} (h : Sorted es) : stableSort es = es :=
  List.Pairwise.insertionSort_eq h

/-- The deduplication loop of `sort_buffer`: an entry whose key equals the key of
the last entry kept is dropped. -/
def dedup (es : List Entry) : List Entry := es.destutter (fun a b => a.key ≠ b.key)

/-- `SSTNode::sort_buffer`: sort, then keep the newest version of each key. -/
def sortBuffer (es : List Entry) : List Entry := dedup (stableSort es)

/-- The probe of a point lookup, which sorts before every other version of `key`. -/
def probe (key : Bytes) : Entry := { key, seqNo := Fin.last _ }

/-- The point lookup of `SSTNode::get` and `SkipList::find_key`: the first entry
that is not before the probe, if its key is `key`. -/
def lookupSorted (es : List Entry) (key : Bytes) : Option Entry :=
  match es.dropWhile (· < probe key) with
  | e :: _ => if e.key = key then some e else none
  | [] => none

/-! ## Key ranges -/

/-- `KeyRange`: the empty string also stands for an absent bound. -/
structure KeyRange where
  minKey : Bytes := .empty
  maxKey : Bytes := .empty

end GravTree
