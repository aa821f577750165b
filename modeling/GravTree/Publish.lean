import GravTree.ManifestFile
import GravTree.NodeFile

/-!
# Publishing a file

`Manifest::save` and `SSTNode::write_file` write to a temporary name and rename it over
the published one. A stream that runs into an error keeps a prefix of what it was given
and fails silently, and neither function asks the stream before it renames.

So the published file is the old one or the new one exactly when the temporary could not
be opened at all or was stored to its end.
-/

namespace GravTree

/-- The contents of the files, by path. -/
abbrev Files := Text → Option (List UInt8)

/-- What becomes of a `std::ofstream`. -/
inductive Stream where
  /-- It cannot be opened. -/
  | closed
  /-- It stores that many bytes, or all of them if there are no more. -/
  | stores (k : Nat)
  deriving DecidableEq

/-- What the two functions throw. -/
inductive PublishError where
  /-- `Cannot write manifest: <path>`, `Cannot open <path> for writing`. -/
  | cannotOpen (tmp : Text)

namespace Files

/-- `fs::rename`. -/
def rename (fs : Files) (old new : Text) : Files := fun p =>
  if p = new then fs old else if p = old then none else fs p

/-- Write `data` to `tmp` and rename it to `path`. -/
def publish (fs : Files) (tmp path : Text) (data : List UInt8) (s : Stream) :
    Except PublishError Unit × Files :=
  match s with
  | .closed => (.error (.cannotOpen tmp), fs)
  | .stores k =>
    let written : Files := Function.update fs tmp (some (data.take k))
    (.ok (), written.rename tmp path)

end Files

/-- The bytes of a text. -/
def Text.bytes (s : Text) : List UInt8 := s.map fun c => UInt8.ofNat c.toNat

/-- `manifest_path`. -/
def manifestPath (dir : Text) : Text :=
  dir ++ ['/', 'm', 'a', 'n', 'i', 'f', 'e', 's', 't']

/-- The temporary name of a path. -/
def tmpPath (path : Text) : Text := path ++ ['.', 't', 'm', 'p']

/-- `Manifest::save`. -/
def Manifest.saveTo (m : Manifest) (dir : Text) (fs : Files) (s : Stream) :
    Except PublishError Unit × Files :=
  fs.publish (tmpPath (manifestPath dir)) (manifestPath dir) (m.text dir).bytes s

/-- `SSTNode::write_file`. -/
def SSTNode.writeTo (n : SSTNode) (dir : Text) (fs : Files) (s : Stream) :
    Except PublishError Unit × Files :=
  fs.publish (tmpPath ((⟨n.id⟩ : FilePath).text dir)) ((⟨n.id⟩ : FilePath).text dir) n.fileBytes s

/-- The published file is what it was or what it should be, and if the call returned it is
what it should be. -/
structure AllOrNothing (fs : Files) (path : Text) (data : List UInt8)
    (r : Except PublishError Unit × Files) : Prop where
  content : r.2 path = fs path ∨ r.2 path = some data
  returned : r.1.isOk = true → r.2 path = some data

/-- The stream lost nothing that was published. -/
def Stream.Complete (data : List UInt8) : Stream → Prop
  | .closed => True
  | .stores k => data.length ≤ k

instance (data : List UInt8) (s : Stream) : Decidable (s.Complete data) := by
  cases s <;> (unfold Stream.Complete; infer_instance)

/-- **All or nothing** exactly when the stream stored everything or was never opened. -/
theorem Files.publish_iff (fs : Files) (tmp path : Text) (data : List UInt8) (s : Stream) :
    AllOrNothing fs path data (fs.publish tmp path data s) ↔ s.Complete data := by
  cases s with
  | closed => exact ⟨fun _ => trivial, fun _ => ⟨.inl rfl, fun h => (nomatch h)⟩⟩
  | stores k =>
    have hpath : (fs.publish tmp path data (.stores k)).2 path = some (data.take k) := by
      show (if path = path then _ else _) = _
      rw [if_pos rfl, Function.update_self]
    have hiff : some (data.take k) = some data ↔ data.length ≤ k := by
      rw [Option.some.injEq, List.take_eq_self_iff]
    constructor
    · intro h
      exact hiff.mp (hpath ▸ h.returned rfl)
    · intro h
      exact ⟨.inr (hpath.trans (hiff.mpr h)), fun _ => hpath.trans (hiff.mpr h)⟩

/-- **Saving the manifest and writing a node file**: in every directory, over every earlier
version, and whatever the stream does. -/
theorem published_iff (dir : Text) (fs : Files) (s : Stream) (m : Manifest) (n : SSTNode) :
    (AllOrNothing fs (manifestPath dir) (m.text dir).bytes (m.saveTo dir fs s) ↔
        s.Complete (m.text dir).bytes) ∧
      (AllOrNothing fs ((⟨n.id⟩ : FilePath).text dir) n.fileBytes (n.writeTo dir fs s) ↔
        s.Complete n.fileBytes) :=
  ⟨Files.publish_iff .., Files.publish_iff ..⟩

/-- A disk that is full after the first line: the call returns, and the published manifest
has neither the root it had nor the one it should have. -/
theorem published_prefix : ¬ AllOrNothing
    (Function.update (fun _ => none) (manifestPath ['d'])
      (some (({ rootId := 1, nextId := 2 } : Manifest).text ['d']).bytes))
    (manifestPath ['d']) (({ rootId := 3, nextId := 4 } : Manifest).text ['d']).bytes
    (({ rootId := 3, nextId := 4 } : Manifest).saveTo ['d']
      (Function.update (fun _ => none) (manifestPath ['d'])
        (some (({ rootId := 1, nextId := 2 } : Manifest).text ['d']).bytes)) (.stores 10)) := by
  intro h
  have hcomplete := (Files.publish_iff ..).mp h
  revert hcomplete
  decide +kernel

end GravTree
