import GravTree.ManifestRoundTrip
import GravTree.Proof.Cells
import GravTree.Publish

/-!
# The directory in bytes

The model's directory holds decoded nodes and a decoded manifest. What the source has there are
the bytes of the two formats under their paths. Each change of the one is a change of the other:
a node or a manifest is written to a temporary name, which is no path of either, and renamed.
-/

namespace GravTree

/-- The files hold what the directory says, encoded. -/
structure Encodes (dir : Text) (d : Disk) (fs : Files) : Prop where
  manifest : fs (manifestPath dir) = d.manifest.map fun m => (m.text dir).bytes
  node : ∀ x, fs ((⟨x⟩ : FilePath).text dir) = (d.node.lookup x).map SSTNode.fileBytes

/-- What a change of the directory is in the source. -/
def Effect.play (dir : Text) (fs : Files) : Effect → Files
  | .rename _ n => (n.writeTo dir fs (.stores n.fileBytes.length)).2
  | .save m => (m.saveTo dir fs (.stores (m.text dir).bytes.length)).2
  | .remove path => Function.update fs (path.text dir) none

/-- The files after these changes of an empty directory, the newest first. -/
def replay (dir : Text) (effects : List Effect) : Files :=
  effects.foldr (fun e fs => e.play dir fs) fun _ => none

/-! ## Paths -/

theorem ofNat_injective : Function.Injective Text.ofNat := fun m n h => by
  have hm := Text.extractNat_ofNat m (r := []) head_nil
  have hn := Text.extractNat_ofNat n (r := []) head_nil
  rw [h, hn] at hm
  exact (congrArg Prod.fst hm).symm

theorem FilePath.text_injective (dir : Text) : Function.Injective (FilePath.text dir) :=
  fun p q h => by
    obtain ⟨x⟩ := p
    obtain ⟨y⟩ := q
    unfold FilePath.text at h
    rw [List.append_left_inj, List.append_right_inj] at h
    exact congrArg FilePath.mk (ofNat_injective h)

theorem FilePath.text_ne_manifestPath (dir : Text) (p : FilePath) :
    p.text dir ≠ manifestPath dir := fun h => by
  unfold FilePath.text manifestPath at h
  simp at h

theorem FilePath.getLast_text (dir : Text) (p : FilePath) : (p.text dir).getLast? = some 't' := by
  rw [FilePath.text, List.getLast?_append]
  rfl

theorem getLast_manifestPath (dir : Text) : (manifestPath dir).getLast? = some 't' := by
  rw [manifestPath, List.getLast?_append]
  rfl

/-- A temporary name is no path of the directory. -/
theorem ne_tmpPath {p : Text} (h : p.getLast? = some 't') (q : Text) : p ≠ tmpPath q := fun hp => by
  rw [hp] at h
  simp [tmpPath] at h

/-! ## Effects -/

/-- What a complete stream publishes. -/
theorem Files.publish_complete (fs : Files) (path q : Text) (data : List UInt8) {p : Text}
    (hp : p ≠ tmpPath q) : (fs.publish (tmpPath q) path data (.stores data.length)).2 p =
      if p = path then some data else fs p := by
  show (if p = path then _ else _) = _
  split
  · rw [Function.update_self, List.take_length]
  · exact Function.update_of_ne hp _ _

namespace Encodes

variable {dir : Text} {w : World} {fs : Files}

theorem empty (dir : Text) : Encodes dir {} fun _ => none := ⟨rfl, fun _ => rfl⟩

/-- **`write_file`.** -/
theorem renamed (E : Encodes dir w.disk fs) (n : SSTNode) : Encodes dir (w.renamed n).disk
    (Effect.play dir fs (.rename (w.disk.node.lookup n.id) n)) where
  manifest := by
    show (Files.publish fs _ _ _ _).2 _ = _
    rw [Files.publish_complete _ _ _ _ (ne_tmpPath (getLast_manifestPath dir) _),
      if_neg (FilePath.text_ne_manifestPath dir _).symm]
    exact E.manifest
  node x := by
    show (Files.publish fs _ _ _ _).2 _ = ((w.disk.node.insert n.id n).lookup x).map _
    rw [Files.publish_complete _ _ _ _ (ne_tmpPath (FilePath.getLast_text dir _) _), lookup_insert]
    by_cases hx : x = n.id
    · rw [hx, if_pos rfl, if_pos rfl]
      rfl
    · rw [if_neg hx, if_neg fun h => hx (congrArg FilePath.nodeId (FilePath.text_injective dir h))]
      exact E.node x

/-- **`Manifest::save`.** -/
theorem saved (E : Encodes dir w.disk fs) : Encodes dir w.saved.disk
    (Effect.play dir fs (.save w.manifest)) where
  manifest := by
    show (Files.publish fs _ _ _ _).2 _ = _
    rw [Files.publish_complete _ _ _ _ (ne_tmpPath (getLast_manifestPath dir) _), if_pos rfl]
    rfl
  node x := by
    show (Files.publish fs _ _ _ _).2 _ = _
    rw [Files.publish_complete _ _ _ _ (ne_tmpPath (FilePath.getLast_text dir _) _),
      if_neg (FilePath.text_ne_manifestPath dir _)]
    exact E.node x

/-- **`Manifest::gc`.** -/
theorem collected (E : Encodes dir w.disk fs) (x : NodeId) (r : NodeMeta) :
    Encodes dir (w.collected x r).disk (Effect.play dir fs (.remove r.filePath)) where
  manifest := by
    show Function.update fs _ _ _ = _
    rw [Function.update_of_ne (FilePath.text_ne_manifestPath dir _).symm]
    exact E.manifest
  node y := by
    show Function.update fs _ _ _ = ((w.disk.node.erase r.filePath.nodeId).lookup y).map _
    rw [lookup_erase]
    by_cases hy : y = r.filePath.nodeId
    · subst hy
      rw [if_pos rfl]
      exact Function.update_self ..
    · rw [if_neg hy, Function.update_of_ne fun h => hy
        (congrArg FilePath.nodeId (FilePath.text_injective dir h))]
      exact E.node y

end Encodes

end GravTree
