import GravTree.Proof.Buffer
import GravTree.Lib.Links
import GravTree.SkipList

/-!
# The towers of the skip list

Whatever heights the random generator yields, the bottom chain is the write buffer of a
session, and each level above it is a shortcut through the one below. `Linked` says so.
`find_prev` is right because a level's nodes below the probe are nodes below the probe of
the next level down, so the search may go on there from where it stopped.
-/

namespace GravTree

namespace SkipList

/-- The pointer of a node on level `lv`. -/
def next (s : SkipList) (lv : Nat) (p : Ptr) : Option Ptr := (s.heap p).bind (·.next lv)

/-- The value of a node. -/
def val (s : SkipList) (p : Ptr) : Entry := ((s.heap p).map (·.val)).getD { key := .empty }

/-- The nodes of each level, and the write buffer they hold. -/
structure Linked (s : SkipList) (chain : Nat → List Ptr) (b : WriteBuf) : Prop where
  low : 1 ≤ s.curHeight
  high : s.curHeight ≤ kMaxHeight
  path : ∀ lv, Links.Path (s.next lv) head (chain lv)
  above : ∀ lv, s.curHeight ≤ lv → chain lv = []
  sub : ∀ lv, (chain (lv + 1)).Sublist (chain lv)
  nodup : (head :: chain 0).Nodup
  live : ∀ p ∈ head :: chain 0, p < s.top ∧ (s.heap p).isSome
  vals : (chain 0).map s.val = b.entries
  size : s.size = b.entries.length
  bytes : s.bytes = b.sizeBytes

variable {s : SkipList} {chain : Nat → List Ptr} {b : WriteBuf}

namespace Linked

theorem sub_zero (L : s.Linked chain b) (lv : Nat) : (chain lv).Sublist (chain 0) := by
  induction lv with
  | zero => exact .refl _
  | succ lv ih => exact (L.sub lv).trans ih

theorem nodup_cons (L : s.Linked chain b) (lv : Nat) : (head :: chain lv).Nodup :=
  L.nodup.sublist ((L.sub_zero lv).cons_cons _)

theorem live_cons (L : s.Linked chain b) {lv : Nat} {p : Ptr} (hp : p ∈ head :: chain lv) :
    p < s.top ∧ (s.heap p).isSome :=
  L.live p (((L.sub_zero lv).cons_cons head).subset hp)

/-- There are addresses enough for every chain. -/
theorem length_lt (L : s.Linked chain b) (lv : Nat) : (chain lv).length < s.top := by
  have hsub : head :: chain lv ⊆ List.range s.top := fun p hp =>
    List.mem_range.mpr (L.live_cons hp).1
  simpa [Nat.succ_le_iff] using (List.subperm_of_subset (L.nodup_cons lv) hsub).length_le

/-- Every level is in `Entry` order. -/
theorem sorted (L : s.Linked chain b) (lv : Nat) : Sorted ((chain lv).map s.val) := by
  have h0 : Sorted ((chain 0).map s.val) := L.vals ▸ b.sorted
  exact h0.sublist ((L.sub_zero lv).map _)

end Linked

/-! ## The search -/

/-- The nodes of a level that sort before a value. -/
def below (s : SkipList) (e : Entry) (qs : List Ptr) : List Ptr :=
  qs.takeWhile fun p => s.val p < e

/-- The other nodes. -/
def rest (s : SkipList) (e : Entry) (qs : List Ptr) : List Ptr :=
  qs.dropWhile fun p => s.val p < e

theorem below_append_rest (s : SkipList) (e : Entry) (qs : List Ptr) :
    s.below e qs ++ s.rest e qs = qs := List.takeWhile_append_dropWhile

/-- What sorts before a value on one level does so on the level below. -/
theorem Linked.split_sublist (L : s.Linked chain b) (e : Entry) (lv : Nat) :
    (s.below e (chain (lv + 1))).Sublist (s.below e (chain lv)) ∧
      (s.rest e (chain (lv + 1))).Sublist (s.rest e (chain lv)) := by
  have hscan : ∀ lv, (chain lv).Pairwise fun p q =>
      decide (s.val q < e) = true → decide (s.val p < e) = true := by
    intro lv
    refine (List.pairwise_map.mp (L.sorted lv)).imp ?_
    intro p q hpq hq
    have hq : s.val q < e := by simpa using hq
    by_contra hp
    have hep : Entry.le e (s.val p) := fun h => hp (by simpa using h)
    exact IsTrans.trans _ _ _ hep hpq hq
  obtain ⟨htake, hdrop⟩ := Links.scan_eq_filter (hscan lv)
  obtain ⟨htake', hdrop'⟩ := Links.scan_eq_filter (hscan (lv + 1))
  unfold below rest
  rw [htake, htake', hdrop, hdrop']
  exact ⟨(L.sub lv).filter _, (L.sub lv).filter _⟩

/-- The scan of one level stops at the last node before the value. -/
theorem advance_eq {e : Entry} {lv : Nat} {B : List Ptr}
    (hB : ∀ q ∈ B.head?, ¬ s.val q < e) : ∀ {A : List Ptr} {cur : Ptr} {fuel : Nat},
    Links.Path (s.next lv) cur (A ++ B) → (∀ q ∈ A, s.val q < e) →
    (∀ q ∈ cur :: (A ++ B), (s.heap q).isSome) → A.length < fuel →
    s.advance e lv fuel cur = some (Links.last cur A) := by
  have hnode : ∀ {p : Ptr}, (s.heap p).isSome → ∃ n, s.heap p = some n ∧ s.next lv p = n.next lv ∧
      s.val p = n.val := by
    intro p hp
    obtain ⟨n, hn⟩ := Option.isSome_iff_exists.mp hp
    exact ⟨n, hn, by simp [next, hn], by simp [val, hn]⟩
  intro A
  induction A with
  | nil =>
    intro cur fuel hpath _ hlive hfuel
    obtain ⟨fuel, rfl⟩ := Nat.exists_eq_succ_of_ne_zero (Nat.ne_zero_of_lt hfuel)
    obtain ⟨n, hn, hnext, -⟩ := hnode (hlive cur (by simp))
    have hhead : n.next lv = B.head? := hnext ▸ hpath.head?
    rw [advance]
    cases B with
    | nil => simp [hn, show n.next lv = none from hhead]
    | cons q B =>
      obtain ⟨m, hm, -, hval⟩ := hnode (hlive q (by simp))
      have hq : ¬ m.val < e := hval ▸ hB q rfl
      simp [hn, show n.next lv = some q from hhead, hm, hq]
  | cons a A ih =>
    intro cur fuel hpath hA hlive hfuel
    obtain ⟨fuel, rfl⟩ := Nat.exists_eq_succ_of_ne_zero (Nat.ne_zero_of_lt hfuel)
    obtain ⟨n, hn, hnext, -⟩ := hnode (hlive cur (by simp))
    obtain ⟨m, hm, -, hval⟩ := hnode (hlive a (by simp))
    have hlt : m.val < e := hval ▸ hA a (by simp)
    have hstep : n.next lv = some a := hnext ▸ hpath.1
    have hrest := ih hpath.2 (fun q hq => hA q (by simp [hq]))
      (fun q hq => hlive q (List.mem_cons_of_mem _ hq)) (Nat.lt_of_succ_lt_succ hfuel)
    rw [advance]
    simp [hn, hstep, hm, hlt, hrest]

/-- The search goes on where the level above left it. -/
theorem Linked.advance_level (L : s.Linked chain b) (e : Entry) {lv : Nat} {cur : Ptr}
    (hcur : cur ∈ head :: s.below e (chain lv)) :
    s.advance e lv s.top cur = some (Links.last head (s.below e (chain lv))) := by
  obtain ⟨X, Y, hXY, rfl⟩ := Links.exists_last_eq hcur
  have hsplit : chain lv = X ++ (Y ++ s.rest e (chain lv)) := by
    rw [← List.append_assoc, ← hXY, below_append_rest]
  have hpath : Links.Path (s.next lv) head (X ++ (Y ++ s.rest e (chain lv))) :=
    hsplit ▸ L.path lv
  have hY : Y ⊆ s.below e (chain lv) := hXY ▸ List.subset_append_right X Y
  have hlive : ∀ q ∈ Links.last head X :: (Y ++ s.rest e (chain lv)), (s.heap q).isSome := by
    intro q hq
    refine (L.live_cons (?_ : q ∈ head :: chain lv)).2
    rw [hsplit]
    rcases List.mem_cons.mp hq with hq | hq
    · rcases List.mem_cons.mp (Links.last_mem head X) with h | h
      · rw [hq, h]
        exact List.mem_cons_self
      · rw [hq]
        exact List.mem_cons_of_mem _ (List.mem_append_left _ h)
    · exact List.mem_cons_of_mem _ (List.mem_append_right _ hq)
  have hlen : Y.length < s.top := by
    have := L.length_lt lv
    rw [hsplit] at this
    simp only [List.length_append] at this
    omega
  rw [advance_eq ?_ hpath.drop ?_ hlive hlen, hXY, Links.last_append]
  · intro q hq
    have := List.head?_dropWhile_not (fun p => decide (s.val p < e)) (chain lv)
    rw [show (List.dropWhile _ _).head? = some q from hq] at this
    simpa using this
  · intro q hq
    simpa using List.all_eq_true.mp List.all_takeWhile q (hY hq)

/-- **The predecessors** that `find_prev` stores. -/
theorem Linked.findPrevFrom_eq (L : s.Linked chain b) (e : Entry) :
    ∀ (lv : Nat) {cur : Ptr} {prev : Nat → Option Ptr},
    (∀ i, i + 1 = lv → cur ∈ head :: s.below e (chain i)) →
    s.findPrevFrom e lv cur prev =
      some (if lv = 0 then cur else Links.last head (s.below e (chain 0)),
        fun i => if i < lv then some (Links.last head (s.below e (chain i))) else prev i) := by
  intro lv
  induction lv with
  | zero =>
    intro cur prev _
    simp [findPrevFrom]
  | succ lv ih =>
    intro cur prev hcur
    rw [findPrevFrom, L.advance_level e (hcur lv rfl), Option.bind_eq_bind, Option.bind_some, ih]
    · refine congrArg some (Prod.ext ?_ (funext fun i => ?_))
      · cases lv with
        | zero => rfl
        | succ lv => simp
      · rcases Nat.lt_trichotomy i lv with h | rfl | h
        · simp [h, Nat.lt_succ_of_lt h]
        · simp
        · simp [Nat.not_lt_of_gt h, Function.update_of_ne h.ne', show ¬ i < lv + 1 by omega]
    · rintro i rfl
      have hmem := Links.last_mem head (s.below e (chain (i + 1)))
      exact ((L.split_sublist e i).1.cons_cons head).subset hmem

theorem Linked.findPrev_eq (L : s.Linked chain b) (e : Entry) :
    s.findPrev e = some (Links.last head (s.below e (chain 0)),
      fun i => if i < s.curHeight then some (Links.last head (s.below e (chain i))) else none) := by
  have hlow := L.low
  rw [findPrev, L.findPrevFrom_eq e s.curHeight]
  · rw [if_neg (by omega)]
  · intro i _
    exact List.mem_cons_self

/-! ## Insertion -/

/-- The heap after the new node was linked on the levels below `k`. -/
def spliced (s : SkipList) (e : Entry) (h : Nat) (pred : Nat → Ptr) (k : Nat) :
    Ptr → Option SkipNode := fun p =>
  if p = s.top then
    some { val := e, height := h, next := fun lv => if lv < k then s.next lv (pred lv) else none }
  else
    (s.heap p).map fun n =>
      { n with next := fun lv => if lv < k ∧ p = pred lv then some s.top else n.next lv }

theorem linkLevel_spliced {prev : Nat → Option Ptr} {pred : Nat → Ptr} {e : Entry} {h k : Nat}
    (hprev : prev k = some (pred k)) (hlt : pred k < s.top) (hlive : (s.heap (pred k)).isSome) :
    linkLevel s.top prev (s.spliced e h pred k) k = some (s.spliced e h pred (k + 1)) := by
  obtain ⟨n, hn⟩ := Option.isSome_iff_exists.mp hlive
  have hne : pred k ≠ s.top := hlt.ne
  have hnext : s.next k (pred k) = n.next k := by simp [next, hn]
  have hp : s.spliced e h pred k (pred k) = some
      { n with next := fun lv => if lv < k ∧ pred k = pred lv then some s.top else n.next lv } := by
    rw [spliced, if_neg hne, hn, Option.map_some]
  have hnd : s.spliced e h pred k s.top = some
      { val := e, height := h
        next := fun lv => if lv < k then s.next lv (pred lv) else none } := if_pos rfl
  simp only [linkLevel, hprev, hp, hnd, Option.bind_eq_bind, Option.bind_some,
    Function.update_of_ne hne]
  refine congrArg some (funext fun p => ?_)
  by_cases hpk : p = pred k
  · subst hpk
    rw [Function.update_self, spliced, if_neg hne, hn, Option.map_some]
    congr 2
    funext lv
    rcases Nat.lt_trichotomy lv k with hlv | rfl | hlv
    · simp [hlv.ne, hlv, Nat.lt_succ_of_lt hlv]
    · simp
    · simp [hlv.ne', Nat.not_lt_of_gt hlv, show ¬ lv < k + 1 by omega]
  · rw [Function.update_of_ne hpk]
    by_cases hptop : p = s.top
    · subst hptop
      rw [Function.update_self, spliced, if_pos rfl]
      congr 2
      funext lv
      rcases Nat.lt_trichotomy lv k with hlv | rfl | hlv
      · simp [hlv.ne, hlv, Nat.lt_succ_of_lt hlv]
      · simp [hnext]
      · simp [hlv.ne', Nat.not_lt_of_gt hlv, show ¬ lv < k + 1 by omega]
    · rw [Function.update_of_ne hptop, spliced, spliced, if_neg hptop, if_neg hptop]
      congr 1
      funext n
      congr 1
      funext lv
      rcases Nat.lt_trichotomy lv k with hlv | rfl | hlv
      · simp [hlv, Nat.lt_succ_of_lt hlv]
      · simp [hpk]
      · simp [Nat.not_lt_of_gt hlv, show ¬ lv < k + 1 by omega]

/-- The loop of `insert`, when every predecessor is known. -/
theorem linkLevels_spliced {prev : Nat → Option Ptr} {pred : Nat → Ptr} {e : Entry} {h : Nat}
    (hprev : ∀ i < h, prev i = some (pred i) ∧ pred i < s.top ∧ (s.heap (pred i)).isSome) :
    ∀ k ≤ h, (List.range k).foldlM (linkLevel s.top prev)
      (Function.update s.heap s.top (some { val := e, height := h })) =
        some (s.spliced e h pred k) := by
  intro k
  induction k with
  | zero =>
    intro _
    refine congrArg some (funext fun p => ?_)
    by_cases hp : p = s.top
    · subst hp
      simp [spliced]
    · simp [spliced, hp]
  | succ k ih =>
    intro hk
    obtain ⟨hfound, hlt, hlive⟩ := hprev k hk
    rw [List.range_succ, List.foldlM_append, ih (Nat.le_of_succ_le hk)]
    simp [linkLevel_spliced hfound hlt hlive]

/-- The list after `insert` put the new node behind its predecessors. -/
def withNode (s : SkipList) (e : Entry) (h : Nat) (pred : Nat → Ptr) : SkipList where
  heap := s.spliced e h pred h
  top := s.top + 1
  curHeight := if s.curHeight < h then h else s.curHeight
  size := s.size + 1
  bytes := s.bytes + e.sizeBytes

/-- The predecessors that `find_prev` finds, and the sentinel above them. -/
def pred (s : SkipList) (chain : Nat → List Ptr) (e : Entry) (lv : Nat) : Ptr :=
  Links.last head (s.below e (chain lv))

theorem Linked.pred_mem (s : SkipList) (chain : Nat → List Ptr) (e : Entry) (lv : Nat) :
    s.pred chain e lv ∈ head :: chain lv := by
  refine List.Sublist.subset ?_ (Links.last_mem head (s.below e (chain lv)))
  exact (List.takeWhile_sublist _).cons_cons head

theorem Linked.live_pred (L : s.Linked chain b) (e : Entry) (lv : Nat) :
    s.pred chain e lv < s.top ∧ (s.heap (s.pred chain e lv)).isSome :=
  L.live_cons (pred_mem s chain e lv)

theorem Linked.insert_eq (L : s.Linked chain b) (e : Entry) (h : Nat) :
    s.insert e h = some (s.withNode e h (s.pred chain e)) := by
  have hprev : ∀ i < h, (if s.curHeight ≤ i ∧ i < h then some head else
      if i < s.curHeight then some (s.pred chain e i) else none) = some (s.pred chain e i) := by
    intro i hi
    by_cases hcur : i < s.curHeight
    · rw [if_neg (by omega), if_pos hcur]
    · have hnil := L.above i (not_lt.mp hcur)
      rw [if_pos ⟨not_lt.mp hcur, hi⟩, pred, hnil]
      rfl
  have hlink := linkLevels_spliced (e := e) (h := h) (fun i hi => ⟨hprev i hi, L.live_pred e i⟩) h le_rfl
  rw [insert, L.findPrev_eq e]
  exact congrArg (fun heap => heap.bind fun heap => some { s.withNode e h (s.pred chain e) with heap })
    hlink

theorem val_withNode {e : Entry} {h : Nat} {pred : Nat → Ptr} (p : Ptr) :
    (s.withNode e h pred).val p = if p = s.top then e else s.val p := by
  by_cases hp : p = s.top
  · simp [val, withNode, spliced, hp]
  · cases hn : s.heap p <;> simp [val, withNode, spliced, hp, hn]

/-- On the levels of the tower, the node is linked behind its predecessor. -/
theorem next_withNode {e : Entry} {h : Nat} {pred : Nat → Ptr} {lv : Nat} (hlv : lv < h)
    (hlt : pred lv < s.top) (hlive : (s.heap (pred lv)).isSome) (p : Ptr) :
    (s.withNode e h pred).next lv p =
      if p = pred lv then some s.top else if p = s.top then s.next lv (pred lv)
      else s.next lv p := by
  obtain ⟨n, hn⟩ := Option.isSome_iff_exists.mp hlive
  by_cases hp : p = s.top
  · have hne : s.top ≠ pred lv := hlt.ne'
    simp [next, withNode, spliced, hp, hlv, hne]
  · by_cases hpl : p = pred lv
    · have hne : pred lv ≠ s.top := hlt.ne
      simp [next, withNode, spliced, hpl, hlv, hn, hne]
    · cases hm : s.heap p <;> simp [next, withNode, spliced, hp, hpl, hm]

/-- Above the tower, nothing changes. -/
theorem next_withNode_above {e : Entry} {h : Nat} {pred : Nat → Ptr} {lv : Nat} (hlv : h ≤ lv)
    {p : Ptr} (hp : p ≠ s.top) : (s.withNode e h pred).next lv p = s.next lv p := by
  cases hm : s.heap p <;> simp [next, withNode, spliced, hp, hm, Nat.not_lt_of_ge hlv]

/-- The nodes of a level after the insertion. -/
def chainWith (s : SkipList) (chain : Nat → List Ptr) (e : Entry) (h lv : Nat) : List Ptr :=
  if lv < h then s.below e (chain lv) ++ s.top :: s.rest e (chain lv) else chain lv

theorem chain_sublist_chainWith (s : SkipList) (chain : Nat → List Ptr) (e : Entry) (h lv : Nat) :
    (chain lv).Sublist (s.chainWith chain e h lv) := by
  unfold chainWith
  split
  · conv_lhs => rw [← below_append_rest s e (chain lv)]
    exact List.Sublist.append_left (List.sublist_cons_self _ _) _
  · exact .refl _

/-- The bottom level is the write buffer after `insert`. -/
theorem Linked.map_chainWith (L : s.Linked chain b) (e : Entry) {h : Nat} (hh : 0 < h)
    {pred : Nat → Ptr} :
    (s.chainWith chain e h 0).map (s.withNode e h pred).val = (b.insert e).entries := by
  have hold : ∀ qs ⊆ chain 0, qs.map (s.withNode e h pred).val = qs.map s.val := by
    intro qs hqs
    refine List.map_congr_left fun p hp => ?_
    rw [val_withNode, if_neg (L.live p (List.mem_cons_of_mem _ (hqs hp))).1.ne]
  have hle : (fun a => decide ¬ Entry.le e a) = fun a => decide (a < e) :=
    funext fun a => decide_eq_decide.mpr not_not
  rw [chainWith, if_pos hh, List.map_append, List.map_cons, val_withNode, if_pos rfl,
    hold (s.below e _) (List.takeWhile_sublist _).subset,
    hold (s.rest e _) (List.dropWhile_sublist _).subset]
  show _ = b.entries.orderedInsert Entry.le e
  rw [List.orderedInsert_eq_take_drop, hle, ← L.vals, List.takeWhile_map, List.dropWhile_map]
  rfl

/-- **Inserting keeps the towers linked**, whatever the height. -/
theorem Linked.insert (L : s.Linked chain b) (e : Entry) {h : Nat} (hh : 0 < h)
    (hmax : h ≤ kMaxHeight) :
    (s.withNode e h (s.pred chain e)).Linked (s.chainWith chain e h) (b.insert e) := by
  have hfresh : ∀ lv, s.top ∉ head :: chain lv := fun lv hmem =>
    absurd (L.live_cons hmem).1 (lt_irrefl _)
  have hperm : (s.chainWith chain e h 0).Perm (s.top :: chain 0) := by
    rw [chainWith, if_pos hh]
    refine List.perm_middle.trans (.cons _ ?_)
    rw [below_append_rest]
  have hentries : (b.insert e).entries.Perm (e :: b.entries) := List.perm_orderedInsert _ _ _
  refine ⟨?_, ?_, fun lv => ?_, fun lv hlv => ?_, fun lv => ?_, ?_, fun p hp => ?_,
    L.map_chainWith e hh, ?_, ?_⟩
  · have := L.low
    show 1 ≤ if s.curHeight < h then h else s.curHeight
    split <;> omega
  · have := L.high
    show (if s.curHeight < h then h else s.curHeight) ≤ kMaxHeight
    split <;> omega
  · by_cases hlv : lv < h
    · have hpath : Links.Path (s.next lv) head (s.below e (chain lv) ++ s.rest e (chain lv)) := by
        rw [below_append_rest]
        exact L.path lv
      rw [chainWith, if_pos hlv]
      refine hpath.splice ?_ ?_ fun p => ?_
      · rw [below_append_rest]
        exact L.nodup_cons lv
      · rw [below_append_rest]
        exact hfresh lv
      · rw [next_withNode hlv (L.live_pred e lv).1 (L.live_pred e lv).2, ← hpath.drop.head?]
        rfl
    · rw [chainWith, if_neg hlv]
      refine (L.path lv).congr fun p hp => next_withNode_above (not_lt.mp hlv) ?_
      exact (L.live_cons hp).1.ne
  · have hcur : (if s.curHeight < h then h else s.curHeight) ≤ lv := hlv
    rw [chainWith, if_neg (by split at hcur <;> omega)]
    exact L.above lv (by split at hcur <;> omega)
  · by_cases hlv : lv + 1 < h
    · rw [chainWith, chainWith, if_pos hlv, if_pos (Nat.lt_of_succ_lt hlv)]
      obtain ⟨hbelow, hrest⟩ := L.split_sublist e lv
      exact hbelow.append (hrest.cons_cons _)
    · rw [chainWith, if_neg hlv]
      exact (L.sub lv).trans (chain_sublist_chainWith ..)
  · rw [(hperm.cons head).nodup_iff, (List.Perm.swap ..).nodup_iff]
    exact List.nodup_cons.mpr ⟨hfresh 0, L.nodup⟩
  · have hmem : p = s.top ∨ p ∈ head :: chain 0 := by
      have := (hperm.cons head).mem_iff.mp hp
      simp only [List.mem_cons] at this ⊢
      tauto
    show p < s.top + 1 ∧ (s.spliced e h (s.pred chain e) h p).isSome
    rcases hmem with rfl | hmem
    · simp [spliced]
    · obtain ⟨hlt, hlive⟩ := L.live p hmem
      refine ⟨Nat.lt_succ_of_lt hlt, ?_⟩
      rw [spliced, if_neg hlt.ne, Option.isSome_map]
      exact hlive
  · rw [hentries.length_eq]
    exact congrArg (· + 1) L.size
  · show s.bytes + e.sizeBytes = _
    rw [L.bytes, WriteBuf.sizeBytes, WriteBuf.sizeBytes, (hentries.map _).sum_eq, List.map_cons,
      List.sum_cons, Nat.add_comm]

/-! ## Clearing -/

/-- The loop of `clear` frees exactly the nodes it visits. -/
theorem deleteFrom_eq : ∀ {qs : List Ptr} {cur : Option Ptr} {fuel : Nat} {heap : Ptr → Option SkipNode},
    cur = qs.head? → (∀ p rest, p :: rest <:+ qs → ∃ n, heap p = some n ∧ n.next 0 = rest.head?) →
    qs.Nodup → qs.length ≤ fuel →
    deleteFrom fuel cur heap = some fun p => if p ∈ qs then none else heap p := by
  intro qs
  induction qs with
  | nil =>
    intro cur fuel heap hcur _ _ _
    subst hcur
    cases fuel <;> simp [deleteFrom]
  | cons q qs ih =>
    intro cur fuel heap hcur hlinks hnd hfuel
    subst hcur
    obtain ⟨hq, hnd⟩ := List.nodup_cons.mp hnd
    obtain ⟨fuel, rfl⟩ := Nat.exists_eq_succ_of_ne_zero (Nat.ne_zero_of_lt hfuel)
    obtain ⟨n, hn, hnext⟩ := hlinks q qs (List.suffix_refl _)
    rw [List.head?_cons, deleteFrom, hn, Option.bind_eq_bind, Option.bind_some,
      ih hnext ?_ hnd (Nat.le_of_succ_le_succ hfuel)]
    · refine congrArg some (funext fun p => ?_)
      by_cases hp : p = q
      · simp [hp, hq]
      · simp [hp]
    · intro p rest hsuf
      have hp : p ≠ q := fun h => hq (h ▸ hsuf.subset List.mem_cons_self)
      rw [Function.update_of_ne hp]
      exact hlinks p rest (hsuf.trans (List.suffix_cons ..))

/-- **Clearing frees every node** and leaves the towers of an empty list. -/
theorem Linked.clear (L : s.Linked chain b) :
    ∃ s', s.clear = some s' ∧ s'.Linked (fun _ => []) {} := by
  obtain ⟨hlt, hlive⟩ := L.live head List.mem_cons_self
  obtain ⟨node, hnode⟩ := Option.isSome_iff_exists.mp hlive
  have hfirst : node.next 0 = (chain 0).head? := by
    simpa [next, hnode] using (L.path 0).head?
  have hlinks : ∀ p rest, p :: rest <:+ chain 0 →
      ∃ n, s.heap p = some n ∧ n.next 0 = rest.head? := by
    rintro p rest ⟨X, hX⟩
    obtain ⟨n, hn⟩ := Option.isSome_iff_exists.mp (L.live p (by simp [← hX])).2
    have hpath : Links.Path (s.next 0) head ((X ++ [p]) ++ rest) := by
      simpa [hX] using L.path 0
    have hnext := hpath.drop.head?
    rw [Links.last_append, Links.last_cons, Links.last_nil, next, hn] at hnext
    exact ⟨n, hn, hnext⟩
  have hdelete := deleteFrom_eq hfirst hlinks (List.nodup_cons.mp L.nodup).2 (L.length_lt 0).le
  refine ⟨_, by rw [SkipList.clear, hnode, Option.bind_eq_bind, Option.bind_some, hdelete]; rfl, ?_⟩
  have hone : 1 ≤ kMaxHeight := by decide
  refine ⟨le_rfl, hone, fun lv => ?_, fun _ _ => rfl, fun _ => .refl _, by simp, ?_, rfl, rfl, rfl⟩
  · simp [Links.Path, next]
  · intro p hp
    obtain rfl := List.mem_singleton.mp hp
    exact ⟨hlt, by simp⟩

/-! ## Reading -/

theorem nodesFrom_eq {lv : Nat} : ∀ {qs : List Ptr} {cur : Ptr} {fuel : Nat},
    Links.Path (s.next lv) cur qs → (∀ q ∈ cur :: qs, (s.heap q).isSome) → qs.length < fuel →
    s.nodesFrom lv fuel cur = some qs := by
  intro qs
  induction qs with
  | nil =>
    intro cur fuel hpath hlive hfuel
    obtain ⟨fuel, rfl⟩ := Nat.exists_eq_succ_of_ne_zero (Nat.ne_zero_of_lt hfuel)
    obtain ⟨n, hn⟩ := Option.isSome_iff_exists.mp (hlive cur (by simp))
    have hnext : n.next lv = none := by simpa [next, hn] using hpath.head?
    simp [nodesFrom, hn, hnext]
  | cons q qs ih =>
    intro cur fuel hpath hlive hfuel
    obtain ⟨fuel, rfl⟩ := Nat.exists_eq_succ_of_ne_zero (Nat.ne_zero_of_lt hfuel)
    obtain ⟨n, hn⟩ := Option.isSome_iff_exists.mp (hlive cur (by simp))
    have hnext : n.next lv = some q := by simpa [next, hn] using hpath.head?
    have hrest := ih hpath.2 (fun p hp => hlive p (List.mem_cons_of_mem _ hp))
      (Nat.lt_of_succ_lt_succ hfuel)
    simp [nodesFrom, hn, hnext, hrest]

theorem Linked.nodesAt_eq (L : s.Linked chain b) (lv : Nat) : s.nodesAt lv = some (chain lv) :=
  nodesFrom_eq (L.path lv) (fun _ hq => (L.live_cons hq).2) (L.length_lt lv)

/-- **`to_sorted_vector`** copies the write buffer. -/
theorem Linked.toSortedVector_eq (L : s.Linked chain b) : s.toSortedVector = some b.entries := by
  have hmap : ∀ qs ⊆ chain 0, (qs.mapM fun p => (s.heap p).map (·.val)) = some (qs.map s.val) := by
    intro qs
    induction qs with
    | nil => exact fun _ => rfl
    | cons q qs ih =>
      intro hsub
      obtain ⟨hq, hqs⟩ := List.cons_subset.mp hsub
      obtain ⟨n, hn⟩ := Option.isSome_iff_exists.mp (L.live q (List.mem_cons_of_mem _ hq)).2
      rw [List.mapM_cons, hn, ih hqs]
      simp [val, hn]
  rw [toSortedVector, L.nodesAt_eq, Option.bind_eq_bind, Option.bind_some,
    hmap _ (List.Subset.refl _), L.vals]

/-- **`find_key`** is the lookup in the write buffer. -/
theorem Linked.findKey_eq (L : s.Linked chain b) (k : Bytes) : s.findKey k = some (b.findKey k) := by
  have hpath : Links.Path (s.next 0) head
      (s.below (probe k) (chain 0) ++ s.rest (probe k) (chain 0)) := by
    rw [below_append_rest]
    exact L.path 0
  obtain ⟨n, hn⟩ := Option.isSome_iff_exists.mp (L.live_pred (probe k) 0).2
  have hnext : n.next 0 = (s.rest (probe k) (chain 0)).head? := by
    rw [← hpath.drop.head?]
    show _ = s.next 0 (s.pred chain (probe k) 0)
    simp [next, hn]
  have hlook : b.findKey k = lookupSorted ((chain 0).map s.val) k := by rw [L.vals]; rfl
  have hdrop : ((chain 0).map s.val).dropWhile (· < probe k) = (s.rest (probe k) (chain 0)).map s.val :=
    List.dropWhile_map
  rw [pred] at hn
  rw [findKey, L.findPrev_eq, hlook, lookupSorted, hdrop]
  cases hrest : s.rest (probe k) (chain 0) with
  | nil =>
    rw [hrest] at hnext
    simp [hn, show n.next 0 = none from hnext]
  | cons q qs =>
    have hq : q ∈ chain 0 := (List.dropWhile_sublist _).subset
      (show q ∈ s.rest (probe k) (chain 0) from hrest ▸ List.mem_cons_self)
    obtain ⟨c, hc⟩ := Option.isSome_iff_exists.mp (L.live q (List.mem_cons_of_mem _ hq)).2
    rw [hrest] at hnext
    simp [hn, show n.next 0 = some q from hnext, hc, val]

end SkipList

/-! ## Runs -/

/-- What a change of the skip list does to the write buffer. -/
def WriteBuf.step (b : WriteBuf) : SkipOp → WriteBuf
  | .insert e _ => b.insert e
  | .clear => {}

namespace SkipList

variable {s : SkipList} {chain : Nat → List Ptr} {b : WriteBuf}

/-- **A step of the skip list is a step of the write buffer.** -/
theorem Linked.step (L : s.Linked chain b) (op : SkipOp) :
    ∃ s' chain', s.step op = some s' ∧ s'.Linked chain' (b.step op) := by
  cases op with
  | insert e h => exact ⟨_, _, L.insert_eq e h, L.insert e h.2.1 h.2.2⟩
  | clear =>
    obtain ⟨s', hs, L'⟩ := L.clear
    exact ⟨s', _, hs, L'⟩

theorem linked_new : new.Linked (fun _ => []) {} where
  low := le_rfl
  high := by decide
  path _ := by simp [Links.Path, next, new]
  above _ _ := rfl
  sub _ := .refl _
  nodup := by simp
  live p hp := by
    obtain rfl := List.mem_singleton.mp hp
    exact ⟨Nat.one_pos, by simp [new]⟩
  vals := rfl
  size := rfl
  bytes := rfl

/-- **Every run of the skip list simulates the write buffer.** -/
theorem linked_run (ops : List SkipOp) :
    ∃ s chain, run ops = some s ∧ s.Linked chain (ops.foldl WriteBuf.step {}) := by
  induction ops using List.reverseRecOn with
  | nil => exact ⟨new, _, rfl, linked_new⟩
  | append_singleton ops op ih =>
    obtain ⟨s, chain, hrun, L⟩ := ih
    obtain ⟨s', chain', hstep, L'⟩ := L.step op
    refine ⟨s', chain', ?_, ?_⟩
    · rw [run] at hrun
      rw [run, List.foldlM_append, hrun]
      simp [hstep]
    · rw [List.foldl_append]
      exact L'

end SkipList

/-- The write buffer holds what was inserted since the last `clear`. -/
theorem perm_inserted (ops : List SkipOp) :
    (ops.foldl WriteBuf.step {}).entries.Perm (inserted ops) := by
  induction ops using List.reverseRecOn with
  | nil => exact .refl _
  | append_singleton ops op ih =>
    rw [inserted, List.foldl_append, List.foldl_append]
    cases op with
    | insert e h => exact (List.perm_orderedInsert ..).trans (ih.cons e)
    | clear => exact .refl _

/-- What the skip list promises its users, when these entries were inserted. -/
structure SkipList.Holds (s : SkipList) (es : List Entry) : Prop where
  levels : ∃ chain : Nat → List Ptr,
    (∀ lv < kMaxHeight, s.nodesAt lv = some (chain lv) ∧ Sorted ((chain lv).map s.val)) ∧
      ∀ lv, lv + 1 < kMaxHeight → (chain (lv + 1)).Sublist (chain lv)
  vector : ∃ v, s.toSortedVector = some v ∧ Sorted v ∧ v.Perm es
  size : s.size = es.length
  bytes : s.bytes = (es.map Entry.sizeBytes).sum
  find : ∀ k, ∃ r, s.findKey k = some r ∧ (r = none ↔ ∀ e ∈ es, e.key ≠ k) ∧
    ∀ e ∈ r, e ∈ es ∧ e.key = k ∧ ∀ x ∈ es, x.key = k → x.seqNo ≤ e.seqNo

/-- **The skip list is correct for every choice of tower heights.** -/
theorem holds_inserted (ops : List SkipOp) :
    ∃ s, SkipList.run ops = some s ∧ s.Holds (inserted ops) := by
  obtain ⟨s, chain, hrun, L⟩ := SkipList.linked_run ops
  have hperm := perm_inserted ops
  refine ⟨s, hrun, ?_, ?_, ?_, ?_, fun k => ⟨_, L.findKey_eq k, ?_, fun e he => ?_⟩⟩
  · exact ⟨chain, fun lv _ => ⟨L.nodesAt_eq lv, L.sorted lv⟩, fun lv _ => L.sub lv⟩
  · exact ⟨_, L.toSortedVector_eq, WriteBuf.sorted _, hperm⟩
  · rw [L.size, hperm.length_eq]
  · rw [L.bytes, WriteBuf.sizeBytes, (hperm.map _).sum_eq]
  · rw [WriteBuf.findKey, lookupSorted_eq_none (WriteBuf.sorted _)]
    exact ⟨fun h e he => h e (hperm.mem_iff.mpr he), fun h e he => h e (hperm.mem_iff.mp he)⟩
  · obtain ⟨hmem, hkey, hnew⟩ := lookupSorted_eq_some (WriteBuf.sorted _) he
    exact ⟨hperm.mem_iff.mp hmem, hkey, fun x hx => hnew x (hperm.mem_iff.mpr hx)⟩

/-- Towers of different heights, a repeated pair of key and sequence number, and a `clear`. -/
example : ((SkipList.run [.insert { key := .byte 2 } ⟨3, by decide⟩, .clear,
    .insert { key := .byte 1, seqNo := 4 } ⟨2, by decide⟩,
    .insert { key := .byte 1, seqNo := 4 } ⟨12, by decide⟩,
    .insert { key := .byte 1, seqNo := 7 } ⟨1, by decide⟩]).bind (·.nodesAt 1)) = some [3, 2] := by
  decide

end GravTree
