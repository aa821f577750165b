import GravTree.ManifestFile
import Mathlib.Data.List.TakeWhile

/-!
# What is saved in the manifest is loaded

The fields of a line are separated by blanks and read token by token. So a path is read
back when it has no blank in it, and since the data directory is part of every path, the
manifest is read back when the data directory has none.
-/

namespace GravTree

open Text

/-! ## Tokens -/

/-- There is no blank in the text, nor the end of a line. -/
def Text.Plain (s : Text) : Prop := ∀ c ∈ s, isSpace c = false

namespace Text

instance (s : Text) : Decidable s.Plain := List.decidableBAll _ s

theorem Plain.append {s t : Text} (hs : s.Plain) (ht : t.Plain) : (s ++ t).Plain := by
  intro c hc
  rcases List.mem_append.mp hc with hc | hc
  · exact hs c hc
  · exact ht c hc

theorem Plain.newline {s : Text} (h : s.Plain) : '\n' ∉ s := fun hc => by
  have := h _ hc
  revert this
  decide

theorem isSpace_of_isDigit {c : Char} (h : c.isDigit = true) : isSpace c = false := by
  have h48 : 48 ≤ c.toNat := by
    simp only [Char.isDigit, Bool.and_eq_true, decide_eq_true_eq] at h
    exact h.1
  have hne : c ≠ ' ' := by
    rintro rfl
    revert h
    decide
  simp only [isSpace, beq_eq_false_iff_ne.mpr hne, Bool.false_or, Bool.and_eq_false_iff,
    decide_eq_false_iff_not]
  omega

theorem isDigit_of_mem {n : Nat} {c : Char} (h : c ∈ ofNat n) : c.isDigit = true :=
  Nat.isDigit_of_mem_toDigits (by decide) (by decide) h

theorem plain_ofNat (n : Nat) : (ofNat n).Plain :=
  fun _ hc => isSpace_of_isDigit (isDigit_of_mem hc)

theorem span_append {p : Char → Bool} {l r : Text} (hl : ∀ c ∈ l, p c = true)
    (hr : ∀ c, r.head? = some c → p c = false) : (l ++ r).span p = (l, r) := by
  rw [List.span_eq_takeWhile_dropWhile, List.takeWhile_append_of_pos hl,
    List.dropWhile_append_of_pos hl]
  cases r with
  | nil => simp
  | cons c r => simp [hr c rfl]

theorem dropWhile_plain {s r : Text} (hs : s.Plain) (hne : s ≠ []) :
    (s ++ r).dropWhile isSpace = s ++ r := by
  cases s with
  | nil => exact absurd rfl hne
  | cons c s => simp [hs c (by simp)]

theorem extractToken_blank (s : Text) : extractToken (' ' :: s) = extractToken s := by
  simp [extractToken, isSpace]

theorem extractNat_blank (s : Text) : extractNat (' ' :: s) = extractNat s := by
  simp [extractNat, isSpace]

/-- A word is read up to the next blank. -/
theorem extractToken_word {s r : Text} (hs : s.Plain) (hne : s ≠ [])
    (hr : ∀ c, r.head? = some c → isSpace c = true) : extractToken (s ++ r) = (s, r) := by
  rw [extractToken, dropWhile_plain hs hne]
  exact span_append (fun c hc => by simp [hs c hc]) fun c hc => by simp [hr c hc]

theorem extractNat_ofNat (n : Nat) {r : Text} (hr : ∀ c, r.head? = some c → isSpace c = true) :
    extractNat (ofNat n ++ r) = (n, r) := by
  have hne : ofNat n ≠ [] := Nat.toDigits_ne_nil
  have hdigit : ∀ c, r.head? = some c → c.isDigit = false := by
    intro c hc
    by_contra h
    have := isSpace_of_isDigit (by simpa using h)
    rw [hr c hc] at this
    cases this
  have hspan : ((ofNat n ++ r).dropWhile isSpace).span Char.isDigit = (ofNat n, r) := by
    rw [dropWhile_plain (plain_ofNat n) hne]
    exact span_append (fun c hc => isDigit_of_mem hc) hdigit
  rw [extractNat, hspan]
  simp only [List.isEmpty_eq_false_iff.mpr hne, Bool.false_eq_true, if_false]
  rw [ofNat, Nat.ofDigitChars_ten_toDigits]

end Text

/-! ## Lines -/

/-- The record as `load` should find it. -/
def NodeMeta.loaded (dir : Text) (r : NodeMeta) : LoadedMeta :=
  { id := r.id, level := r.level, filePath := r.filePath.text dir, valid := r.valid }

theorem FilePath.text_plain {dir : Text} (h : dir.Plain) (p : FilePath) : (p.text dir).Plain :=
  ((h.append (by decide)).append (plain_ofNat _)).append (by decide)

theorem FilePath.text_ne_nil (dir : Text) (p : FilePath) : p.text dir ≠ [] := by
  simp [FilePath.text]

theorem head_blank (s : Text) : ∀ c, (' ' :: s).head? = some c → isSpace c = true := by
  intro c hc
  cases hc
  rfl

theorem head_nil : ∀ c, ([] : Text).head? = some c → isSpace c = true := fun _ hc => (nomatch hc)

theorem loadMeta_nodeLine {dir : Text} (h : dir.Plain) (r : NodeMeta) :
    loadMeta (' ' :: (ofNat r.id ++ ' ' :: (ofNat r.level ++ ' ' ::
      (ofNat (if r.valid then 1 else 0) ++ ' ' :: r.filePath.text dir)))) = r.loaded dir := by
  have hpath : extractToken (r.filePath.text dir) = (r.filePath.text dir, []) := by
    have := extractToken_word (r := []) (r.filePath.text_plain h) (r.filePath.text_ne_nil dir)
      head_nil
    rwa [List.append_nil] at this
  have hvalid : decide ((if r.valid then 1 else 0) ≠ 0) = r.valid := by cases r.valid <;> rfl
  rw [loadMeta]
  simp only [extractNat_blank, extractToken_blank, extractNat_ofNat _ (head_blank _), hpath,
    hvalid, NodeMeta.loaded]

/-- A line whose first token is `token`. -/
theorem loadLine_token (m : LoadedManifest) {token s : Text} (ht : token.Plain)
    (hne : token ≠ []) (hc : token.head? ≠ some '#') : loadLine m (token ++ ' ' :: s) =
      if token = rootWord then { m with rootId := (extractNat s).1 }
      else if token = nextIdWord then { m with nextId := (extractNat s).1 }
      else if token = nodeWord then
        { m with nodes := m.nodes.insert (loadMeta (' ' :: s)).id (loadMeta (' ' :: s))
                 maxId := max m.maxId (loadMeta (' ' :: s)).id }
      else m := by
  have htoken := extractToken_word ht hne (head_blank s)
  have hskip : ((token ++ ' ' :: s).isEmpty || (token ++ ' ' :: s).head? == some '#') = false := by
    cases token with
    | nil => exact absurd rfl hne
    | cons c token => simpa using hc
  rw [loadLine, hskip]
  simp only [htoken, extractNat_blank, Bool.false_eq_true, if_false]

theorem loadLine_node {dir : Text} (h : dir.Plain) (m : LoadedManifest) (r : NodeMeta) :
    loadLine m (Manifest.nodeLine dir r) = { m with
      nodes := m.nodes.insert r.id (r.loaded dir), maxId := max m.maxId r.id } := by
  rw [Manifest.nodeLine, loadLine_token m (by decide) (by decide) (by decide), if_neg (by decide),
    if_neg (by decide), if_pos rfl, loadMeta_nodeLine h]
  rfl

/-! ## The whole file -/

namespace Manifest

variable {dir : Text} {m : Manifest}

theorem newline_lines (h : dir.Plain) : ∀ l ∈ m.lines dir, '\n' ∉ l := by
  have hnum : ∀ n, '\n' ∉ ofNat n := fun n => (plain_ofNat n).newline
  intro l hl
  simp only [lines, List.mem_cons, List.mem_map] at hl
  rcases hl with rfl | rfl | rfl | ⟨r, -, rfl⟩
  · decide
  · simp [rootWord, hnum]
  · simp [nextIdWord, hnum]
  · simp [nodeLine, nodeWord, hnum, (r.2.filePath.text_plain h).newline]

theorem splitOn_lines : ∀ (ls : List Text), (∀ l ∈ ls, '\n' ∉ l) →
    (ls.flatMap (· ++ ['\n'])).splitOn '\n' = ls ++ [[]]
  | [], _ => rfl
  | l :: ls, h => by
    have hassoc : (l :: ls).flatMap (· ++ ['\n']) = l ++ '\n' :: ls.flatMap (· ++ ['\n']) := by
      simp
    rw [hassoc, List.splitOn_append_cons_self_of_not_mem (h l (by simp)),
      splitOn_lines ls fun l' hl' => h l' (by simp [hl'])]
    rfl

end Manifest

/-- What the lines of some records add. -/
def LoadedManifest.addNodes (dir : Text) (m : LoadedManifest) (rs : List NodeMeta) :
    LoadedManifest := { m with
  nodes := rs.foldl (fun ns r => ns.insert r.id (r.loaded dir)) m.nodes
  maxId := rs.foldl (fun i r => max i r.id) m.maxId }

theorem foldl_loadLine {dir : Text} (h : dir.Plain) (rs : List NodeMeta) :
    ∀ m, (rs.map (Manifest.nodeLine dir)).foldl loadLine m = m.addNodes dir rs := by
  induction rs with
  | nil => exact fun _ => rfl
  | cons r rs ih =>
    intro m
    rw [List.map_cons, List.foldl_cons, loadLine_node h, ih]
    rfl

/-- The records `load` puts in, found by their ids. -/
theorem lookup_addNodes {dir : Text} {x : NodeId} : ∀ (es : List (Sigma fun _ : NodeId => NodeMeta))
    (ns : NodeMap LoadedMeta), es.NodupKeys → (∀ e ∈ es, e.2.id = e.1) →
    ((es.map fun e => e.2).foldl (fun ns r => ns.insert r.id (r.loaded dir)) ns).lookup x =
      ((List.dlookup x es).map (·.loaded dir)).or (ns.lookup x) := by
  intro es
  induction es with
  | nil => intro ns _ _; rfl
  | cons e es ih =>
    intro ns hnd hid
    obtain ⟨k, r⟩ := e
    have hr : r.id = k := hid ⟨k, r⟩ (by simp)
    obtain ⟨hk, hnd⟩ := List.nodupKeys_cons.mp hnd
    rw [List.map_cons, List.foldl_cons, ih _ hnd fun e he => hid e (by simp [he])]
    by_cases hx : x = k
    · subst hx
      have hnone : List.dlookup x es = none := List.dlookup_eq_none.mpr hk
      rw [hnone, List.dlookup_cons_eq, hr, AList.lookup_insert]
      rfl
    · have hne : List.dlookup x (⟨k, r⟩ :: es) = List.dlookup x es :=
        List.dlookup_cons_ne (β := fun _ => NodeMeta) es ⟨k, r⟩ hx
      rw [hne, hr, AList.lookup_insert_ne hx]

theorem foldl_max_eq (rs : List NodeMeta) (i : Nat) :
    rs.foldl (fun i r => max i r.id) i = max i ((rs.map fun r => r.id).foldr max 0) := by
  induction rs generalizing i with
  | nil => simp
  | cons r rs ih => simp [ih, max_assoc]

/-! ## What is loaded has no blanks -/

namespace Manifest

/-- What holds of every manifest the calls lead to. -/
structure Keyed (m : Manifest) : Prop where
  id : ∀ {x r}, m.nodes.lookup x = some r → r.id = x
  next : 1 ≤ m.nextId

theorem dropInvalid_keyed {ns : NodeMap NodeMeta} (id : NodeId)
    (h : ∀ {x r}, ns.lookup x = some r → r.id = x) :
    ∀ {x r}, (dropInvalid ns id).lookup x = some r → r.id = x := by
  intro x r hr
  unfold dropInvalid at hr
  split at hr
  · split at hr
    · exact h hr
    · by_cases hx : x = id
      · rw [hx, AList.lookup_erase] at hr
        cases hr
      · rw [AList.lookup_erase_ne hx] at hr
        exact h hr
  · exact h hr

theorem Keyed.apply {m : Manifest} (K : m.Keyed) (op : Op) : (m.apply op).Keyed := by
  cases op with
  | nextNodeId => exact ⟨K.id, Nat.le_succ_of_le K.next⟩
  | setRoot id => exact ⟨K.id, K.next⟩
  | registerNode id level path =>
    refine ⟨fun {x r} hr => ?_, K.next⟩
    have hr : (m.nodes.insert id { id, level, filePath := path }).lookup x = some r := hr
    by_cases hx : x = id
    · rw [hx, AList.lookup_insert] at hr
      cases hr
      exact hx.symm
    · rw [AList.lookup_insert_ne hx] at hr
      exact K.id hr
  | invalidateNode id =>
    show (m.invalidateNode id).Keyed
    unfold invalidateNode
    split
    · rename_i r' hr'
      refine ⟨fun {x r} hr => ?_, K.next⟩
      have hr : (m.nodes.insert id { r' with valid := false }).lookup x = some r := hr
      by_cases hx : x = id
      · rw [hx, AList.lookup_insert] at hr
        cases hr
        show r'.id = x
        rw [hx, K.id hr']
      · rw [AList.lookup_insert_ne hx] at hr
        exact K.id hr
    · exact K
  | gc =>
    have hfold : ∀ (ids : List NodeId) (ns : NodeMap NodeMeta),
        (∀ {x r}, ns.lookup x = some r → r.id = x) →
        ∀ {x r}, (ids.foldl dropInvalid ns).lookup x = some r → r.id = x := by
      intro ids
      induction ids with
      | nil => exact fun _ h => h
      | cons id ids ih => exact fun ns h => ih _ (dropInvalid_keyed id h)
    exact ⟨fun hr => hfold m.nodes.keys m.nodes K.id hr, K.next⟩

/-- `l` is what was saved of `m`. -/
structure ReadsBack (dir : Text) (m : Manifest) (l : LoadedManifest) : Prop where
  root : l.rootId = m.rootId
  nodes : ∀ x, l.nodes.lookup x = (m.nodes.lookup x).map (·.loaded dir)
  next : l.nextId = m.nextId
  beyond : ∀ {x r}, m.nodes.lookup x = some r → x < l.nextId

/-- The members `load` finds when there is no blank in the data directory. -/
theorem foldl_text {dir : Text} (h : dir.Plain) (m : Manifest) :
    ((m.text dir).splitOn '\n').foldl loadLine {} =
      LoadedManifest.addNodes dir { rootId := m.rootId, nextId := m.nextId }
        (m.nodes.entries.map fun r => r.2) := by
  have hnum : ∀ n, extractNat (ofNat n) = (n, []) := by
    intro n
    have := extractNat_ofNat n (r := []) head_nil
    rwa [List.append_nil] at this
  have hversion : loadLine {} versionLine = {} := rfl
  have hroot : ∀ l : LoadedManifest, loadLine l (rootWord ++ ' ' :: ofNat m.rootId) =
      { l with rootId := m.rootId } := by
    intro l
    rw [loadLine_token l (by decide) (by decide) (by decide), if_pos rfl, hnum]
  have hnext : ∀ l : LoadedManifest, loadLine l (nextIdWord ++ ' ' :: ofNat m.nextId) =
      { l with nextId := m.nextId } := by
    intro l
    rw [loadLine_token l (by decide) (by decide) (by decide), if_neg (by decide), if_pos rfl, hnum]
  have hempty : ∀ l : LoadedManifest, loadLine l [] = l := fun _ => rfl
  have hnodes : (m.nodes.entries.map fun r => nodeLine dir r.2) =
      (m.nodes.entries.map fun r => r.2).map (nodeLine dir) := by simp
  rw [text, splitOn_lines _ (newline_lines h), List.foldl_append, List.foldl_cons, List.foldl_nil,
    hempty, lines, List.foldl_cons, List.foldl_cons, List.foldl_cons, hversion, hroot, hnext,
    hnodes, foldl_loadLine h]

/-- Text apart, `load` is `Manifest.load`. -/
theorem loadText_load {dir : Text} {m : Manifest} (h : dir.Plain) (K : m.Keyed) :
    (loadText (m.text dir)).rootId = m.load.rootId ∧
      (∀ x, (loadText (m.text dir)).nodes.lookup x = (m.load.nodes.lookup x).map (·.loaded dir)) ∧
      (loadText (m.text dir)).nextId = m.load.nextId := by
  have hmax : (LoadedManifest.addNodes dir { rootId := m.rootId, nextId := m.nextId }
      (m.nodes.entries.map fun r => r.2)).maxId = m.maxId := by
    show (m.nodes.entries.map fun r => r.2).foldl (fun i r => max i r.id) 0 = m.maxId
    rw [foldl_max_eq, List.map_map, Nat.zero_max]
    rfl
  have hlookup : ∀ x, (LoadedManifest.addNodes dir { rootId := m.rootId, nextId := m.nextId }
      (m.nodes.entries.map fun r => r.2)).nodes.lookup x =
        (m.load.nodes.lookup x).map (·.loaded dir) := by
    intro x
    have := @lookup_addNodes dir x m.nodes.entries ∅ m.nodes.nodupKeys
      fun e he => K.id (AList.mem_lookup_iff.mpr he)
    rw [AList.lookup_empty, Option.or_none] at this
    exact this
  rw [loadText, foldl_text h, hmax]
  show _ ∧ _ ∧ _ = max m.nextId (m.maxId + 1)
  split
  · rename_i hgt
    exact ⟨rfl, hlookup, (max_eq_right (le_of_lt hgt)).symm⟩
  · rename_i hle
    exact ⟨rfl, hlookup, (max_eq_left (not_lt.mp hle)).symm⟩

end Manifest

end GravTree
