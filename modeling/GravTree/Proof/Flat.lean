import GravTree.Proof.Tidy

/-!
# Flat trees

Small trees to run the operations on: a root over leaves of one entry each.
-/

namespace GravTree

open Forest

/-- A node is cached, listed and on disk. -/
def World.put (w : World) (n : SSTNode) : World :=
  ((w.renamed n).registerNode n.id n.level ⟨n.id⟩).setNode n.id n

/-- The world with given nodes. -/
def World.given (ns : List SSTNode) (root next : NodeId) : World :=
  ns.foldr (fun n w => w.put n)
    { sizing := fun _ => (64, 7), manifest := { rootId := root, nextId := next } }

section Given

variable {ns : List SSTNode} {root next : NodeId}

theorem cell_given (x : NodeId) : (World.given ns root next).cell x =
    match ns.find? (·.id = x) with
    | some n => ⟨some n, some { id := x, level := n.level, filePath := ⟨x⟩ }, some n⟩
    | none => ⟨none, none, none⟩ := by
  induction ns with
  | nil => rfl
  | cons n ns ih =>
    show ((World.given ns root next).put n).cell x = _
    unfold World.put
    by_cases hx : x = n.id
    · subst hx
      simp
    · have hx' : ¬ n.id = x := fun h => hx h.symm
      simp only [World.cell_setNode, World.cell_registerNode, World.cell_renamed, if_neg hx, ih,
        List.find?_cons, hx', decide_false]

theorem rest_given : (World.given ns root next).rest.root = root ∧
    (World.given ns root next).rest.next = next := by
  induction ns with
  | nil => exact ⟨rfl, rfl⟩
  | cons n ns ih => exact ih

theorem view_given (x : NodeId) : (World.given ns root next).view x = ns.find? (·.id = x) := by
  rw [World.view, cell_given]
  cases ns.find? (·.id = x) <;> rfl

theorem filed_given (h : ∀ n ∈ ns, n.childIds.length ≤ maxFanout ∧ n.filePath = ⟨n.id⟩ ∧
    n.entriesLoaded = true ∧ n.id < next) : Filed (World.given ns root next) none := by
  have hmem : ∀ {x n}, ((World.given ns root next).cell x).node = some n → n ∈ ns ∧ n.id = x := by
    intro x n hx
    have := (view_given x).symm.trans hx
    exact ⟨List.mem_of_find?_eq_some this, by simpa using List.find?_some this⟩
  constructor
  · exact fun hx => (h _ (hmem hx).1).1
  · intro x n hx
    obtain ⟨hn, rfl⟩ := hmem hx
    exact ⟨(h n hn).2.1, (h n hn).2.2.1⟩
  · intro x
    rw [Cell.Valid, cell_given]
    split <;> simp
  · intro x r hr
    rw [cell_given] at hr
    split at hr
    · rename_i n hn
      cases hr
      have hid : n.id = x := by simpa using List.find?_some hn
      exact ⟨rfl, rfl, rest_given.2 ▸ hid ▸ (h n (List.mem_of_find?_eq_some hn)).2.2.2⟩
    · cases hr
  · intro x n hx
    obtain ⟨hn, rfl⟩ := hmem hx
    refine ⟨n, ?_, .inl ?_⟩
    · have hfind := (view_given n.id).symm.trans hx
      rw [cell_given, hfind]
    · obtain ⟨-, hpath, hload, -⟩ := h n hn
      rw [SSTNode.loaded, ← hpath, ← hload]

end Given

/-- A root over leaves. -/
theorem Shape.flat {v : View} {root : NodeId} {r : SSTNode} (hr : v root = some r)
    (hid : r.id = root) (hl : r.level = 1) (hk : r.childIds ≠ []) (hnd : r.childIds.Nodup)
    (hkid : ∀ c ∈ r.childIds, ∃ m, v c = some m ∧ m.id = c ∧ m.level = 0 ∧ m.childIds = [])
    (hall : ∀ {x n}, v x = some n → x = root ∨ x ∈ r.childIds) : Shape v root 1 := by
  have hrow₁ : v.row root 1 = r.childIds := by simp [level_succ, View.kids_some hr]
  have hrow₂ : ∀ d, v.row root (d + 2) = [] := by
    intro d
    induction d with
    | zero =>
      rw [View.row, level_succ, ← View.row, hrow₁, List.flatMap_eq_nil_iff]
      intro c hc
      obtain ⟨m, hm, -, -, hmk⟩ := hkid c hc
      rw [View.kids_some hm, hmk]
    | succ d ih =>
      rw [View.row, level_succ, ← View.row, ih]
      rfl
  constructor
  · intro d x hx
    obtain _ | _ | d := d
    · obtain rfl : x = root := by simpa using hx
      exact ⟨r, hr, hid, hl⟩
    · rw [Nat.zero_add, hrow₁] at hx
      obtain ⟨m, hm, hmid, hml, -⟩ := hkid x hx
      exact ⟨m, hm, hmid, by rw [hml]⟩
    · rw [hrow₂] at hx
      cases hx
  · intro x n hx
    rcases hall hx with rfl | hc
    · obtain rfl := Option.some.inj (hr.symm.trans hx)
      exact ⟨fun _ => List.length_pos_of_ne_nil hk, fun h0 => absurd (hl.symm.trans h0) (by decide)⟩
    · obtain ⟨m, hm, -, hml, hmk⟩ := hkid x hc
      obtain rfl := Option.some.inj (hm.symm.trans hx)
      exact ⟨fun h => absurd hml h, fun _ => hmk⟩
  · intro d
    obtain _ | _ | d := d
    · simp
    · exact hrow₁ ▸ hnd
    · rw [hrow₂]
      exact List.nodup_nil
  · intro x n hx
    rcases hall hx with rfl | hc
    · exact ⟨0, by simp⟩
    · exact ⟨1, by rwa [hrow₁]⟩

/-- A leaf of one entry. -/
def flatLeaf (x : NodeId) : SSTNode where
  id := x
  level := 0
  keyRange := ⟨.byte x.toUInt8, .byte x.toUInt8⟩
  buffer := [{ key := .byte x.toUInt8, seqNo := 1 }]
  entriesLoaded := true

/-- A root. -/
def flatRoot (ks : List NodeId) (es : List Entry) : SSTNode where
  id := 1
  level := 1
  childIds := ks
  keyRange := ⟨.byte (ks.headD invalidNodeId).toUInt8, .byte (ks.getLastD invalidNodeId).toUInt8⟩
  buffer := es
  entriesLoaded := true

/-- The root names `ks` and buffers `es`; the leaves are `ids`. -/
def World.flat (ks ids : List NodeId) (es : List Entry) (next : NodeId) : World :=
  World.given (flatRoot ks es :: ids.map flatLeaf) 1 next

section Flat

variable {ks ids : List NodeId} {es : List Entry} {next : NodeId}

theorem view_flat (x : NodeId) : (World.flat ks ids es next).view x =
    if x = 1 then some (flatRoot ks es) else if x ∈ ids then some (flatLeaf x) else none := by
  rw [World.flat, view_given, List.find?_cons]
  by_cases hx : x = 1
  · subst hx
    rfl
  · have hx' : ¬ (flatRoot ks es).id = x := fun h => hx h.symm
    rw [decide_eq_false hx', if_neg hx]
    induction ids with
    | nil => rfl
    | cons i is ih =>
      rw [List.map_cons, List.find?_cons]
      by_cases hi : i = x
      · subst hi
        simp [flatLeaf]
      · have hi' : ¬ (flatLeaf i).id = x := hi
        rw [decide_eq_false hi']
        simp only [ih, List.mem_cons, Ne.symm hi, false_or]

theorem rest_flat : (World.flat ks ids es next).rest.root = 1 ∧
    (World.flat ks ids es next).rest.next = next :=
  rest_given

theorem filed_flat (hfan : ks.length ≤ maxFanout) (hnext : 1 < next ∧ ∀ x ∈ ids, x < next) :
    Filed (World.flat ks ids es next) none := by
  refine filed_given (List.forall_mem_cons.mpr ⟨⟨hfan, rfl, rfl, hnext.1⟩, ?_⟩)
  simp only [List.mem_map, forall_exists_index, and_imp, forall_apply_eq_imp_iff₂]
  exact fun x hx => ⟨Nat.zero_le _, rfl, rfl, hnext.2 x hx⟩

end Flat

end GravTree
