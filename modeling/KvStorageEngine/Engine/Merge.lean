import KvStorageEngine.Engine.SSTable

/-!
# `Engine.Merge` — the k-way merge of compaction

The merge loop `compactL0toL1` and `compactlevelN` share (`engine/src/engine.cpp`): one iterator per input
table, a priority queue holding the current entry of every valid iterator, and a round that takes the
smallest key off the queue, keeps its highest sequence number, and advances every iterator that stood on
that key. A key whose winner is a tombstone is left out of the result.

The invariant of the loop is `QueueInv`: the queue is sorted and holds exactly the current entries. From
it, one round (`mergeRound_spec`) picks the newest entry of the smallest key left, and the run lemma
(`mergeLoop_spec`) says the loop keeps the newest entry of every key.
-/

namespace KvStorageEngine

/-- What the queue holds: the current entry of iterator `idx`, without its value. -/
structure HeapElement where
  key : Bytes
  seq : Nat
  type : EntryType
  idx : Nat

namespace HeapElement

/-- `a` is served no later than `b`: smaller keys first, then higher sequence numbers (`!cmp(a, b)`). -/
def Before (a b : HeapElement) : Prop := a.key < b.key ∨ (a.key = b.key ∧ b.seq ≤ a.seq)

instance : DecidableRel Before := fun a b =>
  inferInstanceAs (Decidable (a.key < b.key ∨ (a.key = b.key ∧ b.seq ≤ a.seq)))

instance : Std.Total Before where
  total a b := by
    rcases lt_trichotomy a.key b.key with h | h | h
    · exact Or.inl (Or.inl h)
    · rcases Nat.le_total a.seq b.seq with hs | hs
      · exact Or.inr (Or.inr ⟨h.symm, hs⟩)
      · exact Or.inl (Or.inr ⟨h, hs⟩)
    · exact Or.inr (Or.inl h)

instance : IsTrans HeapElement Before where
  trans a b c := by
    rintro (h | ⟨h, hs⟩) (h' | ⟨h', hs'⟩)
    · exact Or.inl (h.trans h')
    · exact Or.inl (h' ▸ h)
    · exact Or.inl (h ▸ h')
    · exact Or.inr ⟨h.trans h', hs'.trans hs⟩

end HeapElement

/-- The entries `SSTable::Iterator` yields for a table, in file order. -/
def SSTable.iterate [Platform] (t : SSTable) : List SSTableEntry :=
  t.records.entries.map fun (k, e) => ⟨k, e.value, e.seq, e.type⟩

/-- An iterator is the entries it has not passed yet; it is valid while there is one. -/
abbrev Iterators := List (List SSTableEntry)

/-- `iters[i].entry()`, where the iterator is valid. -/
def currentEntry (iters : Iterators) (i : Nat) : Option SSTableEntry :=
  iters[i]?.bind List.head?

/-- `pq.emplace` of the current entry of iterator `i`, if that iterator is valid. -/
def pushCurrent (iters : Iterators) (pq : List HeapElement) (i : Nat) : List HeapElement :=
  match currentEntry iters i with
  | some e => pq.orderedInsert HeapElement.Before ⟨e.key, e.seq, e.type, i⟩
  | none => pq

/-- The value the current entry of iterator `i` carries. -/
def currentValue (iters : Iterators) (i : Nat) : Bytes :=
  ((currentEntry iters i).map (·.value)).getD []

/-- The inner loop: pop everything with the same key, keep the highest sequence number. -/
def popSameKey (iters : Iterators) (key : Bytes) :
    List HeapElement → Entry → List Nat → Entry × List Nat × List HeapElement
  | [], best, sameKeyIndices => (best, sameKeyIndices, [])
  | h :: pq, best, sameKeyIndices =>
    if h.key = key then
      popSameKey iters key pq
        (if best.seq < h.seq then ⟨currentValue iters h.idx, h.seq, h.type⟩ else best)
        (sameKeyIndices ++ [h.idx])
    else (best, sameKeyIndices, h :: pq)

/-- `iters[i].next()` and the push that follows it. -/
def advance (st : Iterators × List HeapElement) (i : Nat) : Iterators × List HeapElement :=
  (st.1.modify i List.tail, pushCurrent (st.1.modify i List.tail) st.2 i)

/-- The outer loop. Every round passes at least one entry, so the number of entries left is enough fuel. -/
def mergeLoop : Nat → Iterators → List HeapElement → SortedMap Bytes Entry → SortedMap Bytes Entry
  | 0, _, _, mergedData => mergedData
  | _ + 1, _, [], mergedData => mergedData
  | fuel + 1, iters, top :: pq, mergedData =>
    match popSameKey iters top.key pq ⟨currentValue iters top.idx, top.seq, top.type⟩ [top.idx] with
    | (best, sameKeyIndices, pq) =>
      let st := sameKeyIndices.foldl advance (iters, pq)
      mergeLoop fuel st.1 st.2
        (if best.type = .put then mergedData.insert top.key best else mergedData)

/-- What a round of the outer loop works on. -/
structure MergeState where
  iters : Iterators
  queue : List HeapElement
  mergedData : SortedMap Bytes Entry

/-- One round of the outer loop; there is none when the queue is empty. -/
def mergeRound (s : MergeState) : Option MergeState :=
  match s.queue with
  | [] => none
  | top :: pq =>
    match popSameKey s.iters top.key pq ⟨currentValue s.iters top.idx, top.seq, top.type⟩ [top.idx] with
    | (best, sameKeyIndices, pq) =>
      let st := sameKeyIndices.foldl advance (s.iters, pq)
      some ⟨st.1, st.2, if best.type = .put then s.mergedData.insert top.key best else s.mergedData⟩

/-- The number of entries the iterators have left. -/
def remaining (iters : Iterators) : Nat := (iters.map List.length).sum

/-- The queue before the first round: the current entry of every valid iterator. -/
def initialQueue (iters : Iterators) : List HeapElement :=
  (List.range iters.length).foldl (pushCurrent iters) []

/-- `merged_data` of a compaction whose inputs are the tables `ts`. -/
def mergeTables [Platform] (ts : List SSTable) : SortedMap Bytes Entry :=
  let iters := ts.map SSTable.iterate
  mergeLoop (remaining iters) iters (initialQueue iters) SortedMap.empty

/-! ## The queue invariant -/

/-- An element describes the current entry of its iterator. -/
def HeapElement.Describes (iters : Iterators) (h : HeapElement) : Prop :=
  ∃ e, currentEntry iters h.idx = some e ∧ h.key = e.key ∧ h.seq = e.seq ∧ h.type = e.type

/-- The queue is sorted and holds the current entries of all iterators but the `pending` ones, whose
    elements have been popped and not pushed again. -/
structure QueueInv (iters : Iterators) (pq : List HeapElement) (pending : List Nat) : Prop where
  sorted : pq.Pairwise HeapElement.Before
  nodup : (pq.map (·.idx)).Nodup
  mem_iff : ∀ h, h ∈ pq ↔ h.idx ∉ pending ∧ h.Describes iters

theorem QueueInv.start (iters : Iterators) : QueueInv iters [] (List.range iters.length) := by
  refine ⟨List.Pairwise.nil, List.nodup_nil, ?_⟩
  intro h
  simp only [List.not_mem_nil, List.mem_range, not_lt, false_iff, not_and]
  rintro hlen ⟨e, he, -⟩
  simp [currentEntry, List.getElem?_eq_none hlen] at he

/-- Pushing the current entry of a pending iterator. -/
theorem QueueInv.push {iters : Iterators} {pq : List HeapElement} {i : Nat} {pending : List Nat}
    (hinv : QueueInv iters pq (i :: pending)) (hi : i ∉ pending) :
    QueueInv iters (pushCurrent iters pq i) pending := by
  unfold pushCurrent
  cases hc : currentEntry iters i with
  | none =>
      refine ⟨hinv.sorted, hinv.nodup, ?_⟩
      intro h
      rw [hinv.mem_iff]
      constructor
      · rintro ⟨hn, hd⟩
        exact ⟨fun hm => hn (List.mem_cons_of_mem _ hm), hd⟩
      · rintro ⟨hn, e, he, hd⟩
        refine ⟨?_, e, he, hd⟩
        intro hm
        rcases List.mem_cons.mp hm with rfl | hm
        · rw [hc] at he; exact absurd he (by simp)
        · exact hn hm
  | some e =>
      -- a pending iterator has no element on the queue
      have hnew : i ∉ pq.map (·.idx) := by
        intro hm
        obtain ⟨h, hh, rfl⟩ := List.mem_map.mp hm
        exact ((hinv.mem_iff h).mp hh).1 List.mem_cons_self
      refine ⟨hinv.sorted.orderedInsert _ _, ?_, fun h => ?_⟩
      · have hperm := (List.perm_orderedInsert HeapElement.Before
          ⟨e.key, e.seq, e.type, i⟩ pq).map (·.idx)
        exact hperm.nodup_iff.mpr (List.nodup_cons.mpr ⟨hnew, hinv.nodup⟩)
      rw [List.mem_orderedInsert, hinv.mem_iff]
      constructor
      · rintro (rfl | ⟨hn, hd⟩)
        · exact ⟨hi, e, hc, rfl, rfl, rfl⟩
        · exact ⟨fun hm => hn (List.mem_cons_of_mem _ hm), hd⟩
      · rintro ⟨hn, e', he', hd⟩
        -- an element that describes iterator `i` is the one that is pushed
        by_cases hidx : h.idx = i
        · left
          rw [hidx, hc] at he'
          obtain rfl := Option.some.inj he'
          obtain ⟨hk, hs, ht⟩ := hd
          cases h
          simp_all
        · exact Or.inr ⟨fun hm => (List.mem_cons.mp hm).elim hidx hn, e', he', hd⟩

theorem QueueInv.foldl_push {iters : Iterators} {pending : List Nat} (hnd : pending.Nodup) :
    ∀ {pq : List HeapElement}, QueueInv iters pq pending →
      QueueInv iters (pending.foldl (pushCurrent iters) pq) [] := by
  induction pending with
  | nil => intro pq h; exact h
  | cons i pending ih =>
      intro pq h
      obtain ⟨hi, hnd⟩ := List.nodup_cons.mp hnd
      exact ih hnd (h.push hi)

theorem initialQueue_inv (iters : Iterators) : QueueInv iters (initialQueue iters) [] :=
  QueueInv.foldl_push List.nodup_range (QueueInv.start iters)

theorem currentEntry_modify_ne (iters : Iterators) {i j : Nat} (h : i ≠ j) :
    currentEntry (iters.modify i List.tail) j = currentEntry iters j := by
  simp [currentEntry, List.getElem?_modify_ne _ _ h]

/-- Moving a pending iterator does not touch the queue. -/
theorem QueueInv.next {iters : Iterators} {pq : List HeapElement} {i : Nat} {pending : List Nat}
    (hinv : QueueInv iters pq pending) (hi : i ∈ pending) :
    QueueInv (iters.modify i List.tail) pq pending := by
  refine ⟨hinv.sorted, hinv.nodup, ?_⟩
  intro h
  rw [hinv.mem_iff]
  apply and_congr_right
  intro hn
  have hne : i ≠ h.idx := fun he => hn (he ▸ hi)
  simp only [HeapElement.Describes, currentEntry_modify_ne iters hne]

/-- Advancing every pending iterator restores the full queue. -/
theorem QueueInv.foldl_advance {pending : List Nat} (hnd : pending.Nodup) :
    ∀ {st : Iterators × List HeapElement}, QueueInv st.1 st.2 pending →
      QueueInv (pending.foldl advance st).1 (pending.foldl advance st).2 [] := by
  induction pending with
  | nil => intro st h; exact h
  | cons i pending ih =>
      intro st h
      obtain ⟨hi, hnd⟩ := List.nodup_cons.mp hnd
      exact ih hnd ((h.next List.mem_cons_self).push hi)

/-! ## One round -/

/-- Record `e` of key `k` is among the entries left. -/
def Occurs (iters : Iterators) (k : Bytes) (e : Entry) : Prop :=
  ∃ l ∈ iters, ∃ x ∈ l, x.key = k ∧ x.entry = e

/-- Every iterator runs through strictly increasing keys. -/
def KeySorted (iters : Iterators) : Prop := ∀ l ∈ iters, l.Pairwise (·.key < ·.key)

/-- With nothing better left on the queue, the inner loop keeps `best` and splits off the key's elements. -/
theorem popSameKey_eq {iters : Iterators} {key : Bytes} {pq : List HeapElement} {best : Entry}
    (h : ∀ x ∈ pq, x.key = key → x.seq ≤ best.seq) (is : List Nat) :
    popSameKey iters key pq best is
      = (best, is ++ (pq.takeWhile (·.key = key)).map (·.idx), pq.dropWhile (·.key = key)) := by
  induction pq generalizing is with
  | nil => simp [popSameKey]
  | cons x pq ih =>
      rw [popSameKey]
      by_cases hk : x.key = key
      · have hle : x.seq ≤ best.seq := h x List.mem_cons_self hk
        rw [if_pos hk, if_neg (by omega), ih (fun y hy => h y (List.mem_cons_of_mem _ hy))]
        simp [hk]
      · rw [if_neg hk]
        simp [hk]

/-- On a sorted queue the elements of the smallest key form a prefix. -/
theorem lt_key_of_mem_dropWhile {key : Bytes} {pq : List HeapElement}
    (hs : pq.Pairwise HeapElement.Before) (hle : ∀ x ∈ pq, key ≤ x.key) :
    ∀ x ∈ pq.dropWhile (·.key = key), key < x.key := by
  induction pq with
  | nil => simp
  | cons y pq ih =>
      obtain ⟨hhd, htl⟩ := List.pairwise_cons.mp hs
      intro x hx
      by_cases hk : y.key = key
      · rw [List.dropWhile_cons_of_pos (by simpa using hk)] at hx
        exact ih htl (fun z hz => hle z (List.mem_cons_of_mem _ hz)) x hx
      · rw [List.dropWhile_cons_of_neg (by simpa using hk)] at hx
        have hy : key < y.key := lt_of_le_of_ne (hle y List.mem_cons_self) (Ne.symm hk)
        rcases List.mem_cons.mp hx with rfl | hx
        · exact hy
        · rcases hhd x hx with h | ⟨h, -⟩
          · exact hy.trans h
          · exact h ▸ hy

/-- The entries left after the iterators `is` have moved on by one. -/
def stepped (iters : Iterators) (is : List Nat) : Iterators :=
  is.foldl (fun iters i => iters.modify i List.tail) iters

theorem foldl_advance_fst (is : List Nat) (st : Iterators × List HeapElement) :
    (is.foldl advance st).1 = stepped st.1 is := by
  induction is generalizing st with
  | nil => rfl
  | cons i is ih => exact ih (advance st i)

theorem getElem?_stepped {is : List Nat} (hnd : is.Nodup) (iters : Iterators) (j : Nat) :
    (stepped iters is)[j]? = if j ∈ is then iters[j]?.map List.tail else iters[j]? := by
  induction is generalizing iters with
  | nil => simp [stepped]
  | cons i is ih =>
      obtain ⟨hi, hnd⟩ := List.nodup_cons.mp hnd
      show (stepped (iters.modify i List.tail) is)[j]? = _
      rw [ih hnd]
      by_cases hij : i = j
      · subst hij
        simp [hi]
      · simp [List.getElem?_modify_ne _ _ hij, Ne.symm hij]

theorem remaining_modify_le (iters : Iterators) (i : Nat) :
    remaining (iters.modify i List.tail) ≤ remaining iters := by
  induction iters generalizing i with
  | nil => simp [remaining]
  | cons l iters ih =>
      cases i with
      | zero => simp [remaining]
      | succ i =>
          have := ih i
          simp only [remaining, List.modify_succ_cons, List.map_cons, List.sum_cons] at this ⊢
          omega

theorem remaining_modify_lt {iters : Iterators} {i : Nat} {e : SSTableEntry}
    (h : currentEntry iters i = some e) :
    remaining (iters.modify i List.tail) < remaining iters := by
  induction iters generalizing i with
  | nil => simp [currentEntry] at h
  | cons l iters ih =>
      cases i with
      | zero =>
          cases l with
          | nil => simp [currentEntry] at h
          | cons x l => simp [remaining]
      | succ i =>
          have hlt : remaining (iters.modify i List.tail) < remaining iters :=
            ih (by simpa [currentEntry] using h)
          simp only [remaining, List.modify_succ_cons, List.map_cons, List.sum_cons] at hlt ⊢
          omega

theorem remaining_stepped_le (iters : Iterators) (is : List Nat) :
    remaining (stepped iters is) ≤ remaining iters := by
  induction is generalizing iters with
  | nil => exact Nat.le_refl _
  | cons i is ih => exact (ih (iters.modify i List.tail)).trans (remaining_modify_le iters i)

/-- A round that moves a valid iterator leaves fewer entries. -/
theorem remaining_stepped_lt {iters : Iterators} {i : Nat} {e : SSTableEntry}
    (h : currentEntry iters i = some e) (is : List Nat) :
    remaining (stepped iters (i :: is)) < remaining iters :=
  Nat.lt_of_le_of_lt (remaining_stepped_le (iters.modify i List.tail) is) (remaining_modify_lt h)

theorem KeySorted.stepped {iters : Iterators} (h : KeySorted iters) {is : List Nat} (hnd : is.Nodup) :
    KeySorted (stepped iters is) := by
  intro l hl
  obtain ⟨j, hj⟩ := List.mem_iff_getElem?.mp hl
  rw [getElem?_stepped hnd] at hj
  split_ifs at hj with hm
  · obtain ⟨l', hl', rfl⟩ := Option.map_eq_some_iff.mp hj
    exact (h l' (List.mem_of_getElem? hl')).tail
  · exact h l (List.mem_of_getElem? hj)

/-- What a queue with top `top` says about the entries left: they are no smaller than `top.key`, and
    those with that key are current entries, no newer than `top`. -/
theorem QueueInv.top_le {iters : Iterators} {top : HeapElement} {pq : List HeapElement}
    (hinv : QueueInv iters (top :: pq) []) (hs : KeySorted iters) {l : List SSTableEntry}
    (hl : l ∈ iters) {x : SSTableEntry} (hx : x ∈ l) :
    top.key ≤ x.key ∧ (x.key = top.key → l.head? = some x ∧ x.seq ≤ top.seq) := by
  obtain ⟨j, hj⟩ := List.mem_iff_getElem?.mp hl
  cases l with
  | nil => exact absurd hx (by simp)
  | cons y l =>
      have hcur : currentEntry iters j = some y := by simp [currentEntry, hj]
      have hmem : (⟨y.key, y.seq, y.type, j⟩ : HeapElement) ∈ top :: pq :=
        (hinv.mem_iff _).mpr ⟨List.not_mem_nil, y, hcur, rfl, rfl, rfl⟩
      -- the iterator's current entry is on the queue, not before its top
      have htop : top.key ≤ y.key ∧ (y.key = top.key → y.seq ≤ top.seq) := by
        rcases List.mem_cons.mp hmem with rfl | hm
        · exact ⟨le_rfl, fun _ => Nat.le_refl _⟩
        · rcases (List.pairwise_cons.mp hinv.sorted).1 _ hm with h | ⟨h, hseq⟩
          · exact ⟨h.le, fun he => absurd he (ne_of_gt h)⟩
          · exact ⟨h.le, fun _ => hseq⟩
      rcases List.mem_cons.mp hx with rfl | hx
      · exact ⟨htop.1, fun he => ⟨rfl, htop.2 he⟩⟩
      · have hlt : y.key < x.key := (List.pairwise_cons.mp (hs _ hl)).1 x hx
        exact ⟨htop.1.trans hlt.le, fun he => absurd (htop.1.trans_lt hlt) (he ▸ lt_irrefl _)⟩

/-- The iterators a round advances: those whose current entry has the smallest key. -/
def sameKeyIndices (top : HeapElement) (pq : List HeapElement) : List Nat :=
  top.idx :: (pq.takeWhile (·.key = top.key)).map (·.idx)

theorem sameKeyIndices_nodup {iters : Iterators} {top : HeapElement} {pq : List HeapElement}
    (hinv : QueueInv iters (top :: pq) []) : (sameKeyIndices top pq).Nodup := by
  refine hinv.nodup.sublist ?_
  exact ((List.takeWhile_sublist _).map _).cons_cons _

/-- What is left of the queue after the inner loop misses exactly the round's iterators. -/
theorem QueueInv.pop {iters : Iterators} {top : HeapElement} {pq : List HeapElement}
    (hinv : QueueInv iters (top :: pq) []) :
    QueueInv iters (pq.dropWhile (·.key = top.key)) (sameKeyIndices top pq) := by
  obtain ⟨hhd, htl⟩ := List.pairwise_cons.mp hinv.sorted
  have hle : ∀ x ∈ pq, top.key ≤ x.key := by
    intro x hx
    rcases hhd x hx with h | ⟨h, -⟩
    · exact h.le
    · exact h.le
  have hsub : (pq.dropWhile (·.key = top.key)).Sublist pq := List.dropWhile_sublist _
  have hnd : (pq.map (·.idx)).Nodup := (List.nodup_cons.mp hinv.nodup).2
  refine ⟨htl.sublist hsub, hnd.sublist (hsub.map _), ?_⟩
  intro h
  have hsplit : ∀ h, h ∈ top :: pq ↔
      (h = top ∨ h ∈ pq.takeWhile (·.key = top.key)) ∨ h ∈ pq.dropWhile (·.key = top.key) := by
    intro h
    conv_lhs => rw [← List.takeWhile_append_dropWhile (p := (·.key = top.key)) (l := pq)]
    rw [List.mem_cons, List.mem_append, or_assoc]
  constructor
  · intro hm
    have hmem : h ∈ top :: pq := (hsplit _).mpr (Or.inr hm)
    refine ⟨?_, ((hinv.mem_iff h).mp hmem).2⟩
    intro hidx
    -- an iterator of the round has one element only, and it carries the round's key
    obtain ⟨g, hg, hgi⟩ := List.mem_map.mp
      (show h.idx ∈ (top :: pq.takeWhile (·.key = top.key)).map (·.idx) from hidx)
    have hgk : g.key = top.key := by
      rcases List.mem_cons.mp hg with rfl | hg
      · rfl
      · simpa using List.all_eq_true.mp (List.all_takeWhile) g hg
    have hgm : g ∈ top :: pq := (hsplit _).mpr (Or.inl (List.mem_cons.mp hg))
    obtain ⟨-, e, he, hek, -⟩ := (hinv.mem_iff h).mp hmem
    obtain ⟨-, e', he', hek', -⟩ := (hinv.mem_iff g).mp hgm
    rw [hgi] at he'
    obtain rfl := Option.some.inj (he.symm.trans he')
    have hlt := lt_key_of_mem_dropWhile htl hle h hm
    rw [hek, ← hek', hgk] at hlt
    exact lt_irrefl _ hlt
  · rintro ⟨hidx, hd⟩
    rcases (hsplit _).mp ((hinv.mem_iff h).mpr ⟨List.not_mem_nil, hd⟩) with (rfl | hm) | hm
    · exact absurd List.mem_cons_self hidx
    · exact absurd (List.mem_cons_of_mem _ (List.mem_map_of_mem hm)) hidx
    · exact hm

/-- An iterator is advanced exactly if its current entry has the smallest key. -/
theorem mem_sameKeyIndices_iff {iters : Iterators} {top : HeapElement} {pq : List HeapElement}
    (hinv : QueueInv iters (top :: pq) []) {j : Nat} {y : SSTableEntry} {l : List SSTableEntry}
    (hj : iters[j]? = some (y :: l)) : j ∈ sameKeyIndices top pq ↔ y.key = top.key := by
  have hd : HeapElement.Describes iters ⟨y.key, y.seq, y.type, j⟩ :=
    ⟨y, by simp [currentEntry, hj], rfl, rfl, rfl⟩
  constructor
  · intro hm
    by_contra hne
    have hdrop := (hinv.pop.mem_iff ⟨y.key, y.seq, y.type, j⟩)
    have hmem := (hinv.mem_iff _).mpr ⟨List.not_mem_nil, hd⟩
    rcases List.mem_cons.mp hmem with rfl | hm'
    · exact hne rfl
    · rw [← List.takeWhile_append_dropWhile (p := (·.key = top.key)) (l := pq)] at hm'
      rcases List.mem_append.mp hm' with hm' | hm'
      · exact hne (by simpa using List.all_eq_true.mp (List.all_takeWhile) _ hm')
      · exact (hdrop.mp hm').1 hm
  · intro hk
    by_contra hn
    have hm := (hinv.pop.mem_iff _).mpr ⟨hn, hd⟩
    obtain ⟨hhd, htl⟩ := List.pairwise_cons.mp hinv.sorted
    have hlt := lt_key_of_mem_dropWhile htl
      (fun x hx => (hhd x hx).elim (fun h => h.le) (fun h => h.1.le)) _ hm
    exact lt_irrefl _ (hk ▸ hlt)

/-- **One round.** After it, the entries left are those of the other keys. -/
theorem round_occurs {iters : Iterators} {top : HeapElement} {pq : List HeapElement}
    (hinv : QueueInv iters (top :: pq) []) (hs : KeySorted iters) (k : Bytes) (e : Entry) :
    Occurs (stepped iters (sameKeyIndices top pq)) k e ↔ k ≠ top.key ∧ Occurs iters k e := by
  have hnd := sameKeyIndices_nodup hinv
  have hget := getElem?_stepped hnd iters
  constructor
  · rintro ⟨l, hl, x, hx, rfl, rfl⟩
    obtain ⟨j, hj⟩ := List.mem_iff_getElem?.mp hl
    rw [hget] at hj
    by_cases hm : j ∈ sameKeyIndices top pq
    · rw [if_pos hm] at hj
      obtain ⟨l', hl', rfl⟩ := Option.map_eq_some_iff.mp hj
      have hl'mem := List.mem_of_getElem? hl'
      refine ⟨?_, l', hl'mem, x, List.mem_of_mem_tail hx, rfl, rfl⟩
      intro hk
      -- the entries behind the current one have larger keys
      have hhead := ((hinv.top_le hs hl'mem (List.mem_of_mem_tail hx)).2 hk).1
      cases l' with
      | nil => exact absurd hx (by simp)
      | cons y l' =>
          obtain rfl : y = x := Option.some.inj hhead
          exact lt_irrefl _ ((List.pairwise_cons.mp (hs _ hl'mem)).1 y hx)
    · rw [if_neg hm] at hj
      have hlmem := List.mem_of_getElem? hj
      refine ⟨fun hk => hm ?_, l, hlmem, x, hx, rfl, rfl⟩
      have hhead := ((hinv.top_le hs hlmem hx).2 hk).1
      cases l with
      | nil => exact absurd hx (by simp)
      | cons y l =>
          obtain rfl : y = x := Option.some.inj hhead
          exact (mem_sameKeyIndices_iff hinv hj).mpr hk
  · rintro ⟨hk, l, hl, x, hx, rfl, rfl⟩
    obtain ⟨j, hj⟩ := List.mem_iff_getElem?.mp hl
    by_cases hm : j ∈ sameKeyIndices top pq
    · refine ⟨l.tail, List.mem_of_getElem? (i := j) (by rw [hget, if_pos hm, hj]; rfl), x, ?_, rfl, rfl⟩
      cases l with
      | nil => exact absurd hx (by simp)
      | cons y l =>
          rcases List.mem_cons.mp hx with rfl | hx
          · exact absurd ((mem_sameKeyIndices_iff hinv hj).mp hm) hk
          · exact hx
    · exact ⟨l, List.mem_of_getElem? (i := j) (by rw [hget, if_neg hm, hj]), x, hx, rfl, rfl⟩

/-! ## The whole merge -/

/-- `e` is the newest record of `k` among the entries left. -/
def NewestLeft (iters : Iterators) (k : Bytes) (e : Entry) : Prop :=
  Occurs iters k e ∧ ∀ e', Occurs iters k e' → e'.seq ≤ e.seq

/-- No key occurs twice with the same sequence number. -/
def NoTies (iters : Iterators) : Prop :=
  ∀ k e e', Occurs iters k e → Occurs iters k e' → e.seq = e'.seq → e = e'

/-- The element on top of the queue carries the newest record of its key. -/
theorem QueueInv.top_newest {iters : Iterators} {top : HeapElement} {pq : List HeapElement}
    (hinv : QueueInv iters (top :: pq) []) (hs : KeySorted iters) :
    NewestLeft iters top.key ⟨currentValue iters top.idx, top.seq, top.type⟩ := by
  obtain ⟨-, x, hx, hk, hseq, ht⟩ := (hinv.mem_iff top).mp List.mem_cons_self
  obtain ⟨l, hl, hhead⟩ := Option.bind_eq_some_iff.mp hx
  refine ⟨⟨l, List.mem_of_getElem? hl, x, List.mem_of_mem_head? hhead, hk.symm, ?_⟩, ?_⟩
  · simp [currentValue, hx, SSTableEntry.entry, hseq, ht]
  · rintro e' ⟨l', hl', y, hy, hyk, rfl⟩
    exact ((hinv.top_le hs hl' hy).2 hyk).2

theorem no_occurs_of_queue_nil {iters : Iterators} (hinv : QueueInv iters [] []) (k : Bytes)
    (e : Entry) : ¬ Occurs iters k e := by
  rintro ⟨l, hl, x, hx, -, -⟩
  obtain ⟨j, hj⟩ := List.mem_iff_getElem?.mp hl
  cases l with
  | nil => exact absurd hx (by simp)
  | cons y l =>
      have hmem := (hinv.mem_iff ⟨y.key, y.seq, y.type, j⟩).mpr
        ⟨List.not_mem_nil, y, by simp [currentEntry, hj], rfl, rfl, rfl⟩
      exact absurd hmem (by simp)

theorem no_occurs_of_remaining_zero {iters : Iterators} (h : remaining iters = 0) (k : Bytes)
    (e : Entry) : ¬ Occurs iters k e := by
  rintro ⟨l, hl, x, hx, -, -⟩
  have hlen : l.length = 0 :=
    List.sum_eq_zero_iff_forall_eq_nat.mp h _ (List.mem_map_of_mem hl)
  rw [List.length_eq_zero_iff.mp hlen] at hx
  exact absurd hx (by simp)

theorem mergeLoop_cons (fuel : Nat) (iters : Iterators) (top : HeapElement) (pq : List HeapElement)
    (mergedData : SortedMap Bytes Entry) : mergeLoop (fuel + 1) iters (top :: pq) mergedData =
      match mergeRound ⟨iters, top :: pq, mergedData⟩ with
      | none => mergedData
      | some s => mergeLoop fuel s.iters s.queue s.mergedData := rfl

/-- **A round of the merge loop.** It settles the key on top of the queue with the newest record of it, and moves
    the iterators past that key. -/
theorem mergeRound_spec {iters : Iterators} {top : HeapElement} {pq : List HeapElement}
    (hinv : QueueInv iters (top :: pq) []) (hs : KeySorted iters) :
    ∃ best iters' pq', NewestLeft iters top.key best ∧ QueueInv iters' pq' [] ∧ KeySorted iters' ∧
      remaining iters' < remaining iters ∧
      (∀ k e, Occurs iters' k e ↔ k ≠ top.key ∧ Occurs iters k e) ∧
      ∀ mergedData, mergeRound ⟨iters, top :: pq, mergedData⟩ = some ⟨iters', pq',
        if best.type = .put then mergedData.insert top.key best else mergedData⟩ := by
  have hnd := sameKeyIndices_nodup hinv
  have hinv' := @QueueInv.foldl_advance _ hnd (iters, pq.dropWhile (·.key = top.key)) hinv.pop
  rw [foldl_advance_fst] at hinv'
  refine ⟨⟨currentValue iters top.idx, top.seq, top.type⟩, _, _, hinv.top_newest hs, hinv', hs.stepped hnd,
    ?_, round_occurs hinv hs, ?_⟩
  · obtain ⟨-, x, hx, -⟩ := (hinv.mem_iff top).mp List.mem_cons_self
    exact remaining_stepped_lt hx ((pq.takeWhile (·.key = top.key)).map (·.idx))
  · intro mergedData
    have hpop : popSameKey iters top.key pq ⟨currentValue iters top.idx, top.seq, top.type⟩ [top.idx]
        = (⟨currentValue iters top.idx, top.seq, top.type⟩, sameKeyIndices top pq,
            pq.dropWhile (·.key = top.key)) := by
      rw [popSameKey_eq]
      · rfl
      · intro x hx hxk
        rcases (List.pairwise_cons.mp hinv.sorted).1 x hx with h | ⟨-, h⟩
        · exact absurd hxk (ne_of_gt h)
        · exact h
    unfold mergeRound
    dsimp only
    rw [hpop]
    dsimp only
    rw [foldl_advance_fst]

/-- **The run lemma of the merge loop.** Started on a full queue with enough fuel, the loop adds to
    `mergedData` the newest record of every key left, if that is a put, and nothing else. -/
theorem mergeLoop_spec (fuel : Nat) : ∀ {iters : Iterators} {pq : List HeapElement}
    {mergedData : SortedMap Bytes Entry}, remaining iters ≤ fuel → QueueInv iters pq [] →
    KeySorted iters → NoTies iters →
    (∀ k e, Occurs iters k e → mergedData.find? k = none) → ∀ k e,
    (mergeLoop fuel iters pq mergedData).find? k = some e ↔
      (NewestLeft iters k e ∧ e.type = .put) ∨
        ((∀ e', ¬ Occurs iters k e') ∧ mergedData.find? k = some e) := by
  induction fuel with
  | zero =>
      intro iters pq mergedData hfuel _ _ _ _ k e
      have hno := no_occurs_of_remaining_zero (Nat.le_zero.mp hfuel) k
      simp only [mergeLoop]
      exact ⟨fun h => Or.inr ⟨hno, h⟩, fun h => h.elim (fun h => absurd h.1.1 (hno e)) (·.2)⟩
  | succ fuel ih =>
      intro iters pq mergedData hfuel hinv hs hties hfresh k e
      cases pq with
      | nil =>
          have hno := no_occurs_of_queue_nil hinv k
          simp only [mergeLoop]
          exact ⟨fun h => Or.inr ⟨hno, h⟩, fun h => h.elim (fun h => absurd h.1.1 (hno e)) (·.2)⟩
      | cons top pq =>
          obtain ⟨best, iters', pq', ⟨hocc, hmax⟩, hinv', hs', hlt, hround, hloop⟩ := mergeRound_spec hinv hs
          rw [mergeLoop_cons, hloop]
          dsimp only
          rw [ih (by omega) hinv' hs'
            (fun k e e' h h' => hties k e e' ((hround k e).mp h).2 ((hround k e').mp h').2)]
          · by_cases hk : k = top.key
            · -- the round's own key: gone from the iterators, decided by `best`
              subst hk
              have hgone : ∀ e', ¬ Occurs iters' top.key e' := fun e' h => ((hround _ e').mp h).1 rfl
              have hnew : NewestLeft iters top.key e ↔ e = best := by
                constructor
                · rintro ⟨ho, hm⟩
                  exact hties _ _ _ ho hocc (Nat.le_antisymm (hmax e ho) (hm best hocc))
                · rintro rfl
                  exact ⟨hocc, hmax⟩
              rw [hnew]
              constructor
              · rintro (⟨⟨ho, -⟩, -⟩ | ⟨-, h⟩)
                · exact absurd ho (hgone e)
                · split_ifs at h with ht
                  · rw [SortedMap.find?_insert_self] at h
                    obtain rfl := Option.some.inj h
                    exact Or.inl ⟨rfl, ht⟩
                  · rw [hfresh _ _ hocc] at h
                    exact absurd h (by simp)
              · rintro (⟨rfl, ht⟩ | ⟨hno, -⟩)
                · right
                  refine ⟨hgone, ?_⟩
                  rw [if_pos ht, SortedMap.find?_insert_self]
                · exact absurd hocc (hno best)
            · -- any other key: nothing changes
              have hsame : ∀ e', Occurs iters' k e' ↔ Occurs iters k e' := fun e' => by simp [hround, hk]
              have hfind : (if best.type = .put then mergedData.insert top.key best
                  else mergedData).find? k = mergedData.find? k := by
                split_ifs
                · exact SortedMap.find?_insert_ne _ _ hk
                · rfl
              simp only [NewestLeft, hsame, hfind]
          · intro k e ho
            obtain ⟨hk, ho⟩ := (hround k e).mp ho
            split_ifs
            · rw [SortedMap.find?_insert_ne _ _ hk]
              exact hfresh k e ho
            · exact hfresh k e ho

/-- Ties or not, what the loop adds are puts that the iterators have left. -/
theorem mergeLoop_adds (fuel : Nat) : ∀ {iters : Iterators} {pq : List HeapElement}
    {mergedData : SortedMap Bytes Entry}, QueueInv iters pq [] → KeySorted iters → ∀ {k : Bytes} {e : Entry},
    (mergeLoop fuel iters pq mergedData).find? k = some e →
      (Occurs iters k e ∧ e.type = .put) ∨ mergedData.find? k = some e := by
  induction fuel with
  | zero => exact fun _ _ _ _ h => Or.inr h
  | succ fuel ih =>
      intro iters pq mergedData hinv hs k e h
      cases pq with
      | nil => exact Or.inr h
      | cons top pq =>
          obtain ⟨best, iters', pq', ⟨hocc, -⟩, hinv', hs', -, hround, hloop⟩ := mergeRound_spec hinv hs
          rw [mergeLoop_cons, hloop] at h
          dsimp only at h
          rcases ih hinv' hs' h with ⟨ho, ht⟩ | h
          · exact Or.inl ⟨((hround k e).mp ho).2, ht⟩
          · split_ifs at h with ht
            · rw [SortedMap.find?_insert] at h
              split_ifs at h with hk
              · obtain rfl := Option.some.inj h
                exact Or.inl ⟨hk ▸ hocc, ht⟩
              · exact Or.inr h
            · exact Or.inr h

section Tables

variable [Platform]

theorem iterate_sorted (t : SSTable) : t.iterate.Pairwise (·.key < ·.key) :=
  List.pairwise_map.mpr t.records.sorted

theorem occurs_iterate (ts : List SSTable) (k : Bytes) (e : Entry) :
    Occurs (ts.map SSTable.iterate) k e ↔ ∃ t ∈ ts, t.records.find? k = some e := by
  constructor
  · rintro ⟨l, hl, x, hx, rfl, rfl⟩
    obtain ⟨t, ht, rfl⟩ := List.mem_map.mp hl
    obtain ⟨⟨k, e⟩, hp, rfl⟩ := List.mem_map.mp hx
    exact ⟨t, ht, SortedMap.find?_eq_some.mpr hp⟩
  · rintro ⟨t, ht, h⟩
    exact ⟨_, List.mem_map_of_mem ht, ⟨k, e.value, e.seq, e.type⟩,
      List.mem_map.mpr ⟨(k, e), SortedMap.find?_eq_some.mp h, rfl⟩, rfl, rfl⟩

theorem keySorted_iterate (ts : List SSTable) : KeySorted (ts.map SSTable.iterate) := by
  intro l hl
  obtain ⟨t, -, rfl⟩ := List.mem_map.mp hl
  exact iterate_sorted t

/-- **What a merge of tables holds**: for every key, the record with the highest sequence number over the
    inputs, when that record is a put. -/
theorem mergeTables_spec {ts : List SSTable}
    (hties : ∀ k e e', (∃ t ∈ ts, t.records.find? k = some e) →
      (∃ t ∈ ts, t.records.find? k = some e') → e.seq = e'.seq → e = e') (k : Bytes) (e : Entry) :
    (mergeTables ts).find? k = some e ↔
      ((∃ t ∈ ts, t.records.find? k = some e) ∧
        ∀ e', (∃ t ∈ ts, t.records.find? k = some e') → e'.seq ≤ e.seq) ∧ e.type = .put := by
  rw [mergeTables, mergeLoop_spec _ (Nat.le_refl _) (initialQueue_inv _) (keySorted_iterate ts)
    (fun k e e' h h' => hties k e e' ((occurs_iterate ts k e).mp h) ((occurs_iterate ts k e').mp h'))
    (fun _ _ _ => SortedMap.find?_empty _)]
  simp [NewestLeft, occurs_iterate]

/-- Ties or not, a merge holds puts of its inputs only. -/
theorem mem_inputs_of_mergeTables {ts : List SSTable} {k : Bytes} {e : Entry}
    (h : (mergeTables ts).find? k = some e) : (∃ t ∈ ts, t.records.find? k = some e) ∧ e.type = .put := by
  rcases mergeLoop_adds _ (initialQueue_inv _) (keySorted_iterate ts) h with ⟨ho, ht⟩ | h
  · exact ⟨(occurs_iterate ts k e).mp ho, ht⟩
  · rw [SortedMap.find?_empty] at h
    exact absurd h (by simp)

end Tables

end KvStorageEngine
