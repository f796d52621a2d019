import KvStorageEngine.Engine.WriterBatch

/-!
# `Engine.Correctness.BatchErrors` — which requests hear of an exception

The loop over a batch goes through it in order and stops at the first call that throws (`applyAll_spec`). The promises
set then are those of the requests in front of it, to `false` though each of them is in the memtable and in the log;
the request at which it threw and all behind it are dropped with the batch, and their promises with them
(`completions_run_of_throws`). So the round keeps what it promises exactly if nothing throws (`errorPath_iff`).
-/

namespace KvStorageEngine

variable [Platform]

/-! ## A. The property and the condition

The batch hears of an exception as it should if every promise is set once, and none to `false` whose request took
effect. The condition says that nothing throws. -/

/-- Every request is completed exactly once, and one that is completed with `false` has changed nothing. -/
def WriterBatch.ErrorPath (batch : List WriteRequest) (s : WriterBatch) : Prop :=
  (∀ i < batch.length, (s.completions.map Prod.fst).count i = 1) ∧
    ∀ i, (i, false) ∈ s.completions → i ∉ s.updated ∧ i ∉ s.logged

/-- The calls for a request return. -/
def Calls.Applies (calls : Calls) (i : Nat) : Prop := calls.update i = none ∧ calls.append i = none

/-- No call throws on a batch of `n` requests. -/
def Calls.Return (calls : Calls) (n : Nat) : Prop :=
  (∀ i < n, calls.Applies i) ∧ calls.flush = false ∧ calls.checkFlush ≠ none

namespace WriterBatch

/-! ## B. The loop

By induction on the batch: the requests in front of the one that throws are done, that one is done in part, and the
ones behind are not touched. -/

variable [Zlib] {calls : Calls} {s : WriterBatch}

/-- What `k` requests that are done, from request `i` on, leave. -/
structure Done (i k : Nat) (s s' : WriterBatch) : Prop where
  results : s'.results = s.results ++ (List.range' i k).map (·, true)
  updated : ∀ j, j ∈ s.updated ∨ i ≤ j ∧ j < i + k → j ∈ s'.updated
  logged : ∀ j, j ∈ s.logged ∨ i ≤ j ∧ j < i + k → j ∈ s'.logged

omit [Zlib] in
/-- One request done, and then the rest. -/
theorem Done.cons {i k : Nat} {s s₁ s' : WriterBatch} (h : Done i 1 s s₁) (h' : Done (i + 1) k s₁ s') :
    Done i (k + 1) s s' := by
  refine ⟨?_, fun j hj => h'.updated j ?_, fun j hj => h'.logged j ?_⟩
  · rw [h'.results, h.results, List.append_assoc, List.range'_succ]
    rfl
  · by_cases hlt : i + 1 ≤ j ∧ j < i + 1 + k
    · exact Or.inr hlt
    · exact Or.inl (h.updated j (hj.imp_right fun hj => by omega))
  · by_cases hlt : i + 1 ≤ j ∧ j < i + 1 + k
    · exact Or.inr hlt
    · exact Or.inl (h.logged j (hj.imp_right fun hj => by omega))

/-- A request whose calls return is done. -/
theorem applyRequest_of_applies {i : Nat} (h : calls.Applies i) (request : WriteRequest) :
    ∃ s', s.applyRequest calls i request = (s', false) ∧ Done i 1 s s' := by
  unfold applyRequest
  rw [h.1, h.2]
  refine ⟨_, rfl, rfl, fun j hj => ?_, fun j hj => ?_⟩
  · show j ∈ s.updated ++ [i]
    rw [List.mem_append, List.mem_singleton]
    exact hj.imp_right fun hj => by omega
  · unfold advance append
    dsimp only
    rw [if_neg (List.ne_nil_of_length_pos (WalRecord.length_bytes_pos _))]
    show j ∈ s.logged ++ [i]
    rw [List.mem_append, List.mem_singleton]
    exact hj.imp_right fun hj => by omega

/-- One whose calls do not return has no result. -/
theorem applyRequest_of_throws {i : Nat} (h : ¬ calls.Applies i) (request : WriteRequest) :
    ∃ s', s.applyRequest calls i request = (s', true) ∧ Done i 0 s s' := by
  have hin : ∀ {j : Nat} {old : List Nat}, j ∈ old ∨ i ≤ j ∧ j < i + 0 → j ∈ old := by
    intro j old hj
    exact hj.resolve_right (by omega)
  unfold applyRequest
  cases hu : calls.update i with
  | some changed =>
      refine ⟨_, rfl, ?_⟩
      cases changed with
      | false => exact ⟨(List.append_nil _).symm, fun _ hj => hin hj, fun _ hj => hin hj⟩
      | true =>
          exact ⟨(List.append_nil _).symm, fun _ hj => List.mem_append_left _ (hin hj), fun _ hj => hin hj⟩
  | none =>
      cases ha : calls.append i with
      | none => exact absurd ⟨hu, ha⟩ h
      | some n =>
          refine ⟨_, rfl, (List.append_nil _).symm, fun _ hj => List.mem_append_left _ (hin hj), fun j hj => ?_⟩
          unfold append
          dsimp only
          split_ifs
          · exact hin hj
          · exact List.mem_append_left _ (hin hj)

/-- **The loop** over the requests from `i` on: all are done, or those in front of one whose calls do not return. -/
theorem applyAll_spec (calls : Calls) (i : Nat) (batch : List WriteRequest) (s : WriterBatch) :
    ∃ k s' threw, applyAll calls i batch s = (s', threw) ∧ Done i k s s' ∧ (∀ j < k, calls.Applies (i + j)) ∧
      (threw = false ∧ k = batch.length ∨ threw = true ∧ k < batch.length ∧ ¬ calls.Applies (i + k)) := by
  induction batch generalizing i s with
  | nil =>
      refine ⟨0, s, false, rfl, ⟨(List.append_nil _).symm, ?_, ?_⟩, ?_, Or.inl ⟨rfl, rfl⟩⟩
      · exact fun j hj => hj.resolve_right (by omega)
      · exact fun j hj => hj.resolve_right (by omega)
      · exact fun j hj => absurd hj (Nat.not_lt_zero j)
  | cons request batch ih =>
      by_cases happlies : calls.Applies i
      · obtain ⟨s₁, hrequest, hdone⟩ := applyRequest_of_applies (s := s) happlies request
        obtain ⟨k, s', threw, hall, hrest, hbefore, hend⟩ := ih (i + 1) s₁
        refine ⟨k + 1, s', threw, ?_, hdone.cons hrest, ?_, ?_⟩
        · rw [applyAll, hrequest]
          exact hall
        · intro j hj
          cases j with
          | zero => exact happlies
          | succ j =>
              rw [show i + (j + 1) = i + 1 + j by omega]
              exact hbefore j (by omega)
        · rw [show i + (k + 1) = i + 1 + k by omega]
          exact hend.imp (fun h => ⟨h.1, congrArg Nat.succ h.2⟩) fun h => ⟨h.1, Nat.succ_lt_succ h.2.1, h.2.2⟩
      · -- the loop ends here
        obtain ⟨s₁, hrequest, hdone⟩ := applyRequest_of_throws (s := s) happlies request
        refine ⟨0, s₁, true, ?_, hdone, fun j hj => absurd hj (Nat.not_lt_zero j), ?_⟩
        · rw [applyAll, hrequest]
          rfl
        · exact Or.inr ⟨rfl, Nat.succ_pos _, happlies⟩

/-- Where nothing throws all are done. -/
theorem applyAll_of_applies {batch : List WriteRequest} (h : ∀ j < batch.length, calls.Applies j) (s : WriterBatch) :
    ∃ s', applyAll calls 0 batch s = (s', false) ∧ Done 0 batch.length s s' := by
  obtain ⟨k, s', threw, hall, hdone, -, ⟨rfl, rfl⟩ | ⟨-, hk, hnot⟩⟩ := applyAll_spec calls 0 batch s
  · exact ⟨s', hall, hdone⟩
  · rw [Nat.zero_add] at hnot
    exact absurd (h k hk) hnot

/-! ## C. The promises

Behind the loop the promises are set: to `true` if the calls after the loop return, to `false` by the `catch`, and in
both cases only those in `results`. -/

variable {engine : StorageEngine} {log : Bytes} {batch : List WriteRequest}

/-- A round in which nothing throws completes every request with `true`. -/
theorem completions_run_of_return (h : calls.Return batch.length) :
    (run calls batch (start engine log)).completions = (List.range batch.length).map (·, true) := by
  obtain ⟨happlies, hflush, hcheck⟩ := h
  obtain ⟨s', hall, hdone⟩ := applyAll_of_applies happlies (start engine log)
  obtain ⟨rotate, hrotate⟩ := Option.ne_none_iff_exists'.mp hcheck
  unfold run tryBlock
  simp only [hall, hflush, hrotate, Bool.false_eq_true, if_false]
  rw [hdone.results, List.range_eq_range']
  rfl

/-- **A round in which something throws** completes with `false` some of the first requests, which have changed the
    memtable and the log; if it is a call for a request, none from that one on is completed. -/
theorem completions_run_of_throws (engine : StorageEngine) (log : Bytes) (h : ¬ calls.Return batch.length) :
    ∃ k ≤ batch.length, (run calls batch (start engine log)).completions = (List.range k).map (·, false) ∧
      (∀ i < k, calls.Applies i ∧ i ∈ (run calls batch (start engine log)).updated ∧
        i ∈ (run calls batch (start engine log)).logged) ∧ (k < batch.length → ¬ calls.Applies k) := by
  obtain ⟨k, s', threw, hall, hdone, hbefore, hend⟩ := applyAll_spec calls 0 batch (start engine log)
  -- either way the `catch` is run on what the loop has collected
  have hrun : run calls batch (start engine log) = { s' with
      results := s'.results.map fun result => (result.1, false)
      completions := s'.results.map fun result => (result.1, false) } := by
    unfold run tryBlock
    rcases hend with ⟨rfl, rfl⟩ | ⟨rfl, -, -⟩
    · simp only [hall, Bool.false_eq_true, if_false]
      by_cases hflush : calls.flush = true
      · simp only [hflush, if_true]
      · cases hcheck : calls.checkFlush with
        | none => simp only [hflush, Bool.false_eq_true, if_false, if_true]
        | some rotate =>
            refine absurd ⟨fun i hi => ?_, by simpa using hflush, by simp [hcheck]⟩ h
            rw [← Nat.zero_add i]
            exact hbefore i hi
    · simp only [hall, if_true]
  refine ⟨k, ?_, ?_, ?_, ?_⟩
  · exact hend.elim (fun h => h.2.le) fun h => h.2.1.le
  · rw [hrun]
    show s'.results.map _ = _
    rw [hdone.results, List.range_eq_range']
    simp [start]
  · intro i hi
    rw [hrun]
    refine ⟨by simpa using hbefore i hi, hdone.updated i (Or.inr ⟨Nat.zero_le i, by omega⟩),
      hdone.logged i (Or.inr ⟨Nat.zero_le i, by omega⟩)⟩
  · intro hk
    obtain ⟨-, -, hnot⟩ := hend.resolve_left fun h => by omega
    rwa [Nat.zero_add] at hnot

/-- A loop in which no call throws carries out the batch. -/
theorem engine_applyAll (i : Nat) (batch : List WriteRequest) (s : WriterBatch)
    (h : ∀ j < batch.length, calls.Applies (i + j)) :
    (applyAll calls i batch s).1.engine = batch.foldl StorageEngine.write s.engine := by
  induction batch generalizing i s with
  | nil => rfl
  | cons request batch ih =>
      obtain ⟨hupdate, happend⟩ := h 0 (Nat.succ_pos _)
      rw [Nat.add_zero] at hupdate happend
      have hrest : ∀ j < batch.length, calls.Applies (i + 1 + j) := by
        intro j hj
        have hnext := h (j + 1) (Nat.succ_lt_succ hj)
        rwa [show i + (j + 1) = i + 1 + j by omega] at hnext
      rw [applyAll]
      simp only [applyRequest, hupdate, happend, Bool.false_eq_true, if_false]
      rw [ih (i + 1) _ hrest, List.foldl_cons]
      congr 1
      cases request <;> rfl

/-- **A round in which nothing throws** does to the engine what its requests do one by one, and then `checkFlush`. -/
theorem engine_run_of_return {rotate : StorageEngine → StorageEngine} (h : ∀ i < batch.length, calls.Applies i)
    (hflush : calls.flush = false) (hcheck : calls.checkFlush = some rotate) :
    (run calls batch (start engine log)).engine = rotate (batch.foldl StorageEngine.write engine) := by
  obtain ⟨s', hall, -⟩ := applyAll_of_applies h (start engine log)
  have hengine := engine_applyAll 0 batch (start engine log) (by simpa using h)
  rw [hall] at hengine
  unfold run tryBlock
  simp only [hall, hflush, hcheck, Bool.false_eq_true, if_false]
  exact congrArg rotate hengine

/-- **The error path of a batch** keeps its promise exactly if it is not taken. -/
theorem errorPath_iff (hne : batch ≠ []) :
    ErrorPath batch (run calls batch (start engine log)) ↔ calls.Return batch.length := by
  constructor
  · rintro ⟨honce, hfalse⟩
    by_contra h
    obtain ⟨k, hk, hcompletions, hchanged, -⟩ := completions_run_of_throws engine log h
    rw [hcompletions] at honce hfalse
    by_cases hzero : k = 0
    · have hcount := honce 0 (List.length_pos_iff.mpr hne)
      rw [hzero] at hcount
      exact absurd hcount (by decide)
    · have hmem : (0, false) ∈ (List.range k).map (·, false) :=
        List.mem_map_of_mem (List.mem_range.mpr (Nat.pos_of_ne_zero hzero))
      exact (hfalse 0 hmem).1 (hchanged 0 (Nat.pos_of_ne_zero hzero)).2.1
  · intro h
    unfold ErrorPath
    rw [completions_run_of_return h]
    constructor
    · intro i hi
      have hfst : ((List.range batch.length).map (·, true)).map Prod.fst = List.range batch.length := by
        rw [List.map_map]
        exact List.map_id _
      rw [hfst]
      exact List.count_eq_one_of_mem List.nodup_range (List.mem_range.mpr hi)
    · intro i hi
      obtain ⟨j, -, hj⟩ := List.mem_map.mp hi
      exact absurd (Prod.mk.inj hj).2 (by decide)

/-- Three requests. -/
def threeRequests : List WriteRequest :=
  [.put (Bytes.ascii "a") (Bytes.ascii "1"), .delete (Bytes.ascii "b"), .put (Bytes.ascii "c") []]

/-- Nothing throws. -/
def quietCalls : Calls := ⟨fun _ => none, fun _ => none, false, some id⟩

omit [Platform] [Zlib] in
theorem errorPath_threeRequests : letI := Platform.sample; letI := Zlib.bitwise
    ErrorPath threeRequests (run quietCalls threeRequests (start (StorageEngine.init [] 0) [])) := by
  let := Platform.sample
  let := Zlib.bitwise
  refine (errorPath_iff (by decide)).mpr ⟨fun i _ => ⟨rfl, rfl⟩, rfl, ?_⟩
  simp [quietCalls]

/-- The second `wal_.append` throws before it has added anything. -/
def secondAppendThrows : Calls := ⟨fun _ => none, fun i => if i = 1 then some 0 else none, false, some id⟩

omit [Platform] [Zlib] in
/-- The first request is completed with `false` and stays in the memtable and in the log; the second stays in the
    memtable and is never completed, and neither is the third. -/
theorem not_errorPath_secondAppendThrows : letI := Platform.sample; letI := Zlib.bitwise
    ∃ s, s = run secondAppendThrows threeRequests (start (StorageEngine.init [] 0) []) ∧
      s.completions = [(0, false)] ∧ s.updated = [0, 1] ∧ s.logged = [0] ∧
        s.engine.memtable.get (Bytes.ascii "a") = some ⟨Bytes.ascii "1", 1, .put⟩ ∧ ¬ ErrorPath threeRequests s := by
  let := Platform.sample
  let := Zlib.bitwise
  refine ⟨_, rfl, by decide, by decide, by decide +kernel, by decide, ?_⟩
  intro h
  exact absurd (h.1 1 (by decide)) (by decide)

end WriterBatch

end KvStorageEngine
