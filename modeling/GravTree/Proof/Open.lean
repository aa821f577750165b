import GravTree.Proof.Cycle
import GravTree.Proof.Provenance

/-!
# An empty directory

`open` on an empty directory makes a root: an empty leaf.
-/

namespace GravTree

open Forest Fence

/-- A tree that is one empty leaf. -/
structure Tree.Blank (t : Tree) : Prop where
  pos : 0 < t.root
  next : t.root < t.next
  root : ∃ r, t.view t.root = some r ∧ r.id = t.root ∧ r.level = 0 ∧ r.childIds = [] ∧ r.buffer = []
  other : ∀ x, x ≠ t.root → t.view x = none

namespace Tree.Blank

variable {t : Tree}

theorem row (B : t.Blank) (d : Nat) : t.view.row t.root d = if d = 0 then [t.root] else [] := by
  obtain ⟨r, hr, -, -, hk, -⟩ := B.root
  induction d with
  | zero => rfl
  | succ d ih =>
    rw [View.row, level_succ, ← View.row, ih]
    cases d with
    | zero => simp [View.kids_some hr, hk]
    | succ d => rfl

theorem only (B : t.Blank) {x : NodeId} {n : SSTNode} (h : t.view x = some n) : x = t.root := by
  by_contra hx
  rw [B.other x hx] at h
  cases h

theorem buffer_nil (B : t.Blank) {x : NodeId} {n : SSTNode} (h : t.view x = some n) :
    n.buffer = [] := by
  obtain ⟨r, hr, -, -, -, hb⟩ := B.root
  rw [B.only h, hr] at h
  cases h
  exact hb

theorem sound (B : t.Blank) : t.Sound := by
  obtain ⟨r, hr, hid, hl, hk, hb⟩ := B.root
  have hsh : Shape t.view t.root 0 := by
    refine ⟨fun {d x} hx => ?_, fun {x n} hx => ?_, fun d => ?_, fun {x n} hx => ⟨0, ?_⟩⟩
    · rw [B.row] at hx
      cases d with
      | zero =>
        obtain rfl : x = t.root := by simpa using hx
        exact ⟨r, hr, hid, hl⟩
      | succ d => simp at hx
    · obtain rfl := B.only hx
      obtain rfl : r = n := Option.some.inj (hr.symm.trans hx)
      exact ⟨fun h => absurd hl h, fun _ => hk⟩
    · rw [B.row]
      split <;> simp
    · rw [B.only hx]
      simp
  refine ⟨Tree.height_eq hsh ▸ hsh, B.pos, fun hx => B.only hx ▸ B.next, fun hx => ?_,
    fun hx hne => absurd (B.only hx) hne⟩
  rw [B.buffer_nil hx]
  exact List.Pairwise.nil

theorem ordered (B : t.Blank) : t.Ordered where
  asc d := by
    rw [B.row]
    split
    · exact List.pairwise_singleton _ _
    · exact List.Pairwise.nil
  owns _ hx e he := by
    rw [B.buffer_nil hx] at he
    cases he
  fit := by
    intro d x n hx
    rw [B.row] at hx
    split at hx <;> simp at hx

theorem layered (B : t.Blank) : t.Layered := by
  intro x y n m hx _ _ e he
  rw [B.buffer_nil hx] at he
  cases he

theorem not_stored (B : t.Blank) (e : Entry) : ¬ t.view.Stored e := by
  rintro ⟨x, n, hx, he⟩
  rw [B.buffer_nil hx] at he
  cases he

end Tree.Blank

/-- The world `open` leaves on an empty directory. -/
def World.opened (sizing : Sizing) : World :=
  (((((World.takeId { sizing }).renamed (SSTNode.build sizing 1 0 [] [])).registerNode
    1 0 ⟨1⟩).setRoot 1).saved).setNode 1 (created sizing 1 0 [] [])

theorem openTree_empty (sizing : Sizing) :
    Act.Runs openTree { sizing } () (World.opened sizing) fun _ => True := by
  refine Act.Runs.update_bind (Act.Runs.world_bind ?_)
  refine Act.Runs.bind nextNodeId_runs (Act.Runs.bind (create_runs trivial) ?_)
  exact Act.Runs.update_bind (Act.Runs.update_bind (Act.Runs.bind (save_runs trivial)
    (Act.Runs.update _ _)))

section Opened

variable (sizing : Sizing)

theorem cell_opened (x : NodeId) : (World.opened sizing).cell x = if x = 1 then
      ⟨some (created sizing 1 0 [] []), some { id := 1, level := 0, filePath := ⟨1⟩ },
        some (SSTNode.build sizing 1 0 [] [])⟩
    else ⟨none, none, none⟩ := by
  unfold World.opened
  by_cases hx : x = 1
  · subst hx
    simp
  · simp [hx]
    rfl

theorem blank_opened : (World.opened sizing).tree.Blank where
  pos := Nat.one_pos
  next := Nat.lt_succ_self 1
  root := by
    refine ⟨created sizing 1 0 [] [], ?_, rfl, rfl, rfl, rfl⟩
    show ((World.opened sizing).cell 1).node = _
    rw [cell_opened, if_pos rfl]
  other x hx := by
    show ((World.opened sizing).cell x).node = none
    rw [cell_opened, if_neg (show ¬ x = 1 from hx)]

/-- **A fresh directory** is tidy. -/
theorem tidy_opened : Tidy (World.opened sizing) none where
  sound := (blank_opened sizing).sound
  filed := by
    rw [filed_iff]
    intro x
    rw [cell_opened]
    split
    · rename_i hx
      subst hx
      exact .written (Nat.zero_le _) rfl rfl rfl (Nat.lt_succ_self 1)
    · exact ⟨fun h => (nomatch h), fun h => (nomatch h),
        ⟨fun ⟨_, h, _⟩ => (nomatch h), fun h => absurd rfl h⟩, fun h => (nomatch h),
        fun h => (nomatch h)⟩
  saved := by
    have hm : (World.opened sizing).rest.stored = some (World.opened sizing).manifest := rfl
    refine ⟨_, hm, rfl, le_rfl, fun x => ?_, fun x r hr => ?_⟩
    · show ((World.opened sizing).cell x).Valid ↔ _
      rw [cell_opened, Cell.Valid]
      split <;> simp
    · have hr : ((World.opened sizing).cell x).record = some r := hr
      rw [cell_opened] at hr
      split at hr
      · rename_i hx
        cases hr
        exact ⟨by rw [hx], hx.symm, hx ▸ Nat.lt_succ_self 1⟩
      · cases hr

end Opened

theorem start_world (sizing : Sizing) : (Db.start sizing).world = World.opened sizing :=
  (openTree_empty sizing).exec_eq

end GravTree
