import GravTree.Manifest

/-!
# The manifest file

`src/manifest.cpp`, `save` and `load`: the text of the manifest. One record a line, its
fields separated by blanks; a node's path is the last field, as it is.

The paths here are those `write_file` returns: `<dir>/node_<id>.gst` for whatever string
the user gave as the data directory.
-/

namespace GravTree

/-- A `std::string` of text, one character for each byte. -/
abbrev Text := List Char

namespace Text

/-- `std::isspace` in the "C" locale. -/
def isSpace (c : Char) : Bool := c == ' ' || (9 ≤ c.toNat && c.toNat ≤ 13)

/-- A number in decimal. -/
def ofNat (n : Nat) : Text := Nat.toDigits 10 n

/-- `ss >> token`: what was read and what is left. -/
def extractToken (s : Text) : Text × Text := (s.dropWhile isSpace).span fun c => !isSpace c

/-- `ss >> number`, as far as `save` writes numbers: digits, without a sign, of a number that
fits. `operator>>` also takes a `+` or a `-`, counts down from `2 ^ 64` for the latter, and
fails with the largest number on one that does not fit; here a sign fails with zero, and no
number is too large. A failed extraction leaves nothing to the extractions after it. -/
def extractNat (s : Text) : Nat × Text :=
  let (digits, rest) := (s.dropWhile isSpace).span Char.isDigit
  if digits.isEmpty then (0, []) else (Nat.ofDigitChars 10 digits 0, rest)

end Text

open Text

/-! The words of the format. -/

def versionLine : Text := ['V', 'E', 'R', 'S', 'I', 'O', 'N', ' ', '1']

def rootWord : Text := ['R', 'O', 'O', 'T']

def nextIdWord : Text := ['N', 'E', 'X', 'T', '_', 'I', 'D']

def nodeWord : Text := ['N', 'O', 'D', 'E']

/-- The path of a node file below the data directory. -/
def FilePath.text (dir : Text) (p : FilePath) : Text :=
  dir ++ ['/', 'n', 'o', 'd', 'e', '_'] ++ ofNat p.nodeId ++ ['.', 'g', 's', 't']

namespace Manifest

/-- The line of one record. -/
def nodeLine (dir : Text) (r : NodeMeta) : Text :=
  nodeWord ++ ' ' :: (ofNat r.id ++ ' ' :: (ofNat r.level ++ ' ' ::
    (ofNat (if r.valid then 1 else 0) ++ ' ' :: r.filePath.text dir)))

/-- The lines `save` writes. -/
def lines (dir : Text) (m : Manifest) : List Text :=
  versionLine :: (rootWord ++ ' ' :: ofNat m.rootId) :: (nextIdWord ++ ' ' :: ofNat m.nextId) ::
    m.nodes.entries.map fun r => nodeLine dir r.2

/-- What `save` writes. -/
def text (dir : Text) (m : Manifest) : Text := (m.lines dir).flatMap (· ++ ['\n'])

end Manifest

/-- A `NodeMeta` as `load` finds it. -/
structure LoadedMeta where
  id : NodeId
  level : Nat
  filePath : Text
  valid : Bool
  deriving DecidableEq

/-- The members `load` fills in, and `max_id`. -/
structure LoadedManifest where
  rootId : NodeId := invalidNodeId
  nextId : NodeId := 1
  nodes : NodeMap LoadedMeta := ∅
  maxId : NodeId := 0

/-- The record of a `NODE` line, given what follows the first token. -/
def loadMeta (s : Text) : LoadedMeta :=
  let (id, s) := extractNat s
  let (level, s) := extractNat s
  let (valid, s) := extractNat s
  let (filePath, _) := extractToken s
  { id, level, filePath, valid := valid ≠ 0 }

/-- One line. -/
def loadLine (m : LoadedManifest) (line : Text) : LoadedManifest :=
  if line.isEmpty || line.head? == some '#' then m
  else
    let (token, s) := extractToken line
    if token = rootWord then { m with rootId := (extractNat s).1 }
    else if token = nextIdWord then { m with nextId := (extractNat s).1 }
    else if token = nodeWord then
      let r := loadMeta s
      { m with nodes := m.nodes.insert r.id r, maxId := max m.maxId r.id }
    else m

/-- `load` into a fresh manifest. -/
def loadText (s : Text) : LoadedManifest :=
  let m := (s.splitOn '\n').foldl loadLine {}
  if m.maxId + 1 > m.nextId then { m with nextId := m.maxId + 1 } else m

/-! ## Reachable manifests -/

namespace Manifest

/-- One record under `gc`. -/
def dropInvalid (ns : NodeMap NodeMeta) (id : NodeId) : NodeMap NodeMeta :=
  match ns.lookup id with
  | some r => if r.valid then ns else ns.erase id
  | none => ns

/-- The records after `gc`. -/
def gcRecords (m : Manifest) : Manifest :=
  { m with nodes := m.nodes.keys.foldl dropInvalid m.nodes }

/-- `next_node_id`. -/
def takeId (m : Manifest) : Manifest := { m with nextId := m.nextId + 1 }

/-- The calls that change a manifest. -/
inductive Op where
  | nextNodeId
  | registerNode (id level : Nat) (path : FilePath)
  | invalidateNode (id : NodeId)
  | setRoot (id : NodeId)
  | gc

def apply (m : Manifest) : Op → Manifest
  | .nextNodeId => m.takeId
  | .registerNode id level path => m.registerNode id level path
  | .invalidateNode id => m.invalidateNode id
  | .setRoot id => m.setRoot id
  | .gc => m.gcRecords

end Manifest

end GravTree
