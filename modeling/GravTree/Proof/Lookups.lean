import GravTree.Tree

/-!
# Lookups

A lookup reads nodes with `get_node` and does nothing else. So where `get_node` leads from one
world to another, lookups lead as well.
-/

namespace GravTree

/-- `get_node` leads along `R` from worlds with `I` to worlds with `I`. -/
structure Fetches (I : World → Prop) (R : World → World → Prop) : Prop where
  refl : ∀ {w}, I w → R w w
  next : ∀ {w u}, R w u → I u
  get : ∀ id {w}, I w → Act.Leads R R (getNode id) w fun _ _ => True

namespace Fetches

variable {I : World → Prop} {R : World → World → Prop} [Act.Course R R] (F : Fetches I R)

include F

theorem nextChild (key : Bytes) : ∀ (next : NodeId) (ids : List NodeId) {w : World}, I w →
    Act.Leads R R (nextChild key next ids) w fun _ _ => True
  | _, [], _, h => .pure (F.refl h) trivial
  | next, id :: ids, _, h => by
    refine .bind (F.get id h) fun _ _ hu _ => ?_
    split
    · exact nextChild key id ids (F.next hu)
    · exact .pure (F.refl (F.next hu)) trivial

theorem findPathFrom (key : Bytes) : ∀ (fuel : Nat) (cur : NodeId) {w : World}, I w →
    Act.Leads R R (findPathFrom key fuel cur) w fun _ _ => True
  | 0, _, _, h => .fail _ (F.refl h)
  | fuel + 1, cur, _, h => by
    refine .bind (F.get cur h) fun _ _ hu _ => ?_
    split
    · exact .pure (F.refl (F.next hu)) trivial
    · exact .bind (F.nextChild key _ _ (F.next hu)) fun _ _ hv _ =>
        .bind (findPathFrom key fuel _ (F.next hv)) fun _ _ hx _ =>
          .pure (F.refl (F.next hx)) trivial

theorem findPath (key : Bytes) {w : World} (h : I w) :
    Act.Leads R R (findPath key) w fun _ _ => True :=
  .world_bind (F.findPathFrom key _ _ h)

theorem searchPath (key : Bytes) : ∀ (path : List NodeId) {w : World}, I w →
    Act.Leads R R (searchPath key path) w fun _ _ => True
  | [], _, h => .pure (F.refl h) trivial
  | nid :: rest, _, h => by
    refine .bind (F.get nid h) fun _ _ hu _ => ?_
    split
    · exact searchPath key rest (F.next hu)
    · split
      · exact .pure (F.refl (F.next hu)) trivial
      · exact searchPath key rest (F.next hu)

/-- The tree part of `get`. -/
theorem getFromTree (key : Bytes) {w : World} (h : I w) :
    Act.Leads R R (getFromTree key) w fun _ _ => True :=
  .bind (F.findPath key h) fun path _ hu _ => F.searchPath key path (F.next hu)

theorem firstPath {dfs : NodeId → M (Option (List NodeId))}
    (hdfs : ∀ id {w : World}, I w → Act.Leads R R (dfs id) w fun _ _ => True) :
    ∀ (ids : List NodeId) {w : World}, I w →
      Act.Leads R R (firstPath dfs ids) w fun _ _ => True
  | [], _, h => .pure (F.refl h) trivial
  | id :: ids, _, h => by
    refine .bind (hdfs id h) fun r _ hu _ => ?_
    cases r with
    | some path => exact .pure (F.refl (F.next hu)) trivial
    | none => exact firstPath hdfs ids (F.next hu)

theorem dfs (target : NodeId) : ∀ (fuel : Nat) (id : NodeId) {w : World}, I w →
    Act.Leads R R (dfs target fuel id) w fun _ _ => True
  | 0, _, _, h => .fail _ (F.refl h)
  | fuel + 1, id, _, h => by
    unfold GravTree.dfs
    split
    · exact .pure (F.refl h) trivial
    · exact .bind (F.get id h) fun _ _ hu _ =>
        .bind (F.firstPath (dfs target fuel) _ (F.next hu)) fun _ _ hv _ =>
          .pure (F.refl (F.next hv)) trivial

theorem pathTo (target : NodeId) {w : World} (h : I w) :
    Act.Leads R R (pathTo target) w fun _ _ => True :=
  .world_bind <| .bind (F.dfs target _ _ h) fun _ _ hu _ => .pure (F.refl (F.next hu)) trivial

end Fetches

end GravTree
