import KvStorageEngine.Engine.Handover
import KvStorageEngine.Engine.Correctness.EngineInvariant

/-!
# `Engine.Correctness.TornRead` — a read across a hand-over

A `get` visits the active memtable, the immutable one and the version, in the direction records travel. It
misses a record that leaves the memtable before it looks there and has not arrived where it looks next: the
rotation clears before it publishes. `read_answers_iff` says when that changes the answer.

For one key the store is three places: the memtable, the record *in transit* (in the rotation's copy after
the clear, or in an immutable memtable whose table is not installed), and the version. The moves never
change what the three hold together, and earlier places hold newer records (`KeyInv`). The reader's
candidate, once it has one, is the newest record (`ReaderInv`).
-/

namespace KvStorageEngine

open Layered Run

variable [Platform]

namespace Reading

/-! ## A. The three places of a key

The newest record of the key is in the active memtable, in transit (in the hands of the rotation, or in the immutable
memtable), or in the version, and it moves on only in this direction. Nobody writes the key while the reader is under
way. -/

/-- The record of `key` on its way from the memtable to a table. -/
def InTransit (s : Handover) (key : Bytes) (e : Entry) : Prop :=
  (∃ imm, s.rotation = .cleared imm ∧ imm.get key = some e) ∨
    (s.flush = .idle ∧ s.engine.immutableMemtable.bind (·.get key) = some e)

/-- Some place has the record `e` of `key`. -/
def Somewhere (s : Handover) (key : Bytes) (e : Entry) : Prop :=
  s.engine.memtable.get key = some e ∨ InTransit s key e ∨ ∃ l, s.engine.version.Holds l key e

/-- The step does not search the version empty-handed while the record it missed, or the one it finds
    instead, is a put. -/
def Safe (key : Bytes) (s : Reading) : ReadingOp → Prop
  | .readVersion => s.reader = .gotImmutable none → ∀ r, InTransit s.handover key r →
      r.type = .delete ∧ ∀ e, Newest Entry.seq s.handover.engine.version.Holds key e → e.type = .delete
  | .move _ | .readActive | .readImmutable => True

/-- The three places of a key throughout the moves from `s₀`. -/
structure KeyInv (s₀ : StorageEngine) (key : Bytes) (s : Handover) : Prop where
  dataDir : s.engine.dataDir = s₀.dataDir
  wf : s.engine.version.Wf s.engine.dataDir s.engine.flushCounter
  same : ∀ e, Somewhere s key e ↔ s₀.HasRecord key e
  version_newer : ∀ i j e e', i < j → s.engine.version.Holds i key e →
    s.engine.version.Holds j key e' → e'.seq < e.seq
  transit_newer : ∀ e e' l, InTransit s key e → s.engine.version.Holds l key e' → e'.seq < e.seq
  memtable_newer : ∀ e e', s.engine.memtable.get key = some e →
    (InTransit s key e' ∨ ∃ l, s.engine.version.Holds l key e') → e'.seq < e.seq
  /-- A rotation runs while there is no immutable memtable. -/
  alone : s.rotation ≠ .idle → s.engine.immutableMemtable = none
  /-- The rotation's copy is up to date for the key. -/
  copied : ∀ imm, s.rotation = .copied imm → imm.get key = s.engine.memtable.get key
  /-- An immutable memtable whose table is installed is in the version, newest. -/
  installed : s.flush = .installed → ∃ imm, s.engine.immutableMemtable = some imm ∧
    ∀ e, imm.get key = some e →
      s.engine.version.Holds 0 key e ∧ ∀ l e', s.engine.version.Holds l key e' → e'.seq ≤ e.seq

section Moves

variable {s₀ : StorageEngine} {key : Bytes} {s s' : Handover}

/-- The key's record is in transit at one place only. -/
theorem KeyInv.transit_unique (h : KeyInv s₀ key s) {e e' : Entry} (he : InTransit s key e)
    (he' : InTransit s key e') : e = e' := by
  rcases he with ⟨imm, hr, he⟩ | ⟨-, he⟩ <;> rcases he' with ⟨imm', hr', he'⟩ | ⟨-, he'⟩
  · obtain rfl := RotationPc.cleared.inj (hr.symm.trans hr')
    exact Option.some.inj (he.symm.trans he')
  · rw [h.alone (by rw [hr]; simp)] at he'
    exact absurd he' (by simp)
  · rw [h.alone (by rw [hr']; simp)] at he
    exact absurd he (by simp)
  · exact Option.some.inj (he.symm.trans he')

/-- While there is an immutable memtable no rotation runs, -/
theorem KeyInv.rotation_idle (h : KeyInv s₀ key s) {imm : MemTable}
    (himm : s.engine.immutableMemtable = some imm) : s.rotation = .idle := by
  by_contra hne
  rw [h.alone hne] at himm
  exact absurd himm (by simp)

/-- and while there is none the flush thread has nothing to reset. -/
theorem KeyInv.flush_idle (h : KeyInv s₀ key s) (himm : s.engine.immutableMemtable = none) :
    s.flush = .idle := by
  cases hflush : s.flush with
  | idle => rfl
  | installed =>
      obtain ⟨imm, himm', -⟩ := h.installed hflush
      rw [himm] at himm'
      exact absurd himm' (by simp)

/-- Before anything moves. -/
theorem keyInv_start (h : StorageEngine.Inv s₀) (key : Bytes) : KeyInv s₀ key (Handover.start s₀) := by
  have htransit : ∀ e, InTransit (Handover.start s₀) key e ↔
      s₀.immutableMemtable.bind (·.get key) = some e := fun e => by
    simp [InTransit, Handover.start]
  refine ⟨rfl, h.wf, ?_, ?_, ?_,
    ?_, fun hr => absurd rfl hr, ?_, ?_⟩
  · intro e
    rw [Somewhere, htransit]
    exact StorageEngine.hasRecord_iff.symm
  · intro i j e e' hij hi hj
    exact h.toOrdered.version_aged.newer i j key e e' hij hi hj
  · intro e e' l he he'
    exact h.aged.newer 1 (l + 2) key e e' (by omega) ((htransit e).mp he) he'
  · intro e e' he he'
    rcases he' with he' | ⟨l, he'⟩
    · exact h.aged.newer 0 1 key e e' (by omega) he ((htransit e').mp he')
    · exact h.aged.newer 0 (l + 2) key e e' (by omega) he he'
  · intro imm hr
    exact absurd hr (by simp [Handover.start])
  · intro hf
    exact absurd hf (by simp [Handover.start])

/-- A write to another key changes none of the three places. -/
theorem KeyInv.write (h : KeyInv s₀ key s) {k' : Bytes} {m' : MemTable}
    (hm : m'.get key = s.engine.memtable.get key) :
    KeyInv s₀ key { s with engine := s.engine.stored k' m' } := by
  have htransit : ∀ e, InTransit { s with engine := s.engine.stored k' m' } key e ↔ InTransit s key e :=
    fun e => Iff.rfl
  have hmem : (s.engine.stored k' m').memtable.get key = s.engine.memtable.get key := hm
  refine ⟨h.dataDir, h.wf, ?_, h.version_newer, h.transit_newer, ?_, h.alone,
    ?_, h.installed⟩
  · intro e
    rw [Somewhere, hmem]
    exact h.same e
  · intro e e' he
    rw [hmem] at he
    exact h.memtable_newer e e' he
  · intro imm hr
    rw [hmem]
    exact h.copied imm hr

/-- Copying the memtable moves no record. -/
theorem KeyInv.rotateCopy (h : KeyInv s₀ key s) (hs : s.step .rotateCopy = some s') :
    KeyInv s₀ key s' ∧ s'.engine = s.engine := by
  cases Handover.Effect.of_step hs with
  | rotateCopy hr hi =>
      have htransit : ∀ e, InTransit { s with
          rotation := .copied (MemTable.copyOf s.engine.memtable.snapshot) } key e ↔
          InTransit s key e := fun e => by simp [InTransit, hr]
      refine ⟨⟨h.dataDir, h.wf, ?_, h.version_newer, ?_, ?_, fun _ => hi, ?_, h.installed⟩, rfl⟩
      · intro e
        rw [Somewhere, htransit]
        exact h.same e
      · intro e e' l he
        exact h.transit_newer e e' l ((htransit e).mp he)
      · intro e e' he he'
        exact h.memtable_newer e e' he (he'.imp_left (htransit e').mp)
      · intro imm himm
        rw [← RotationPc.copied.inj himm, MemTable.copyOf_snapshot]

/-- The clear moves the key's record from the memtable into transit. -/
theorem KeyInv.rotateClear (h : KeyInv s₀ key s) (hs : s.step .rotateClear = some s') :
    KeyInv s₀ key s' ∧ s'.engine.memtable.get key = none := by
  cases Handover.Effect.of_step hs with
  | @rotateClear imm hr =>
      have hi := h.alone (by rw [hr]; simp)
      have hcopy := h.copied imm hr
      have hbefore : ∀ e, ¬ InTransit s key e := fun e he => by simp [InTransit, hr, hi] at he
      have htransit : ∀ e, InTransit { s with
          engine := { s.engine with memtable := s.engine.memtable.clear }
          rotation := .cleared imm } key e ↔ s.engine.memtable.get key = some e := fun e => by
        simp [InTransit, hi, hcopy]
      refine ⟨⟨h.dataDir, h.wf, ?_, h.version_newer, ?_, ?_, fun _ => hi, ?_,
        ?_⟩, rfl⟩
      · intro e
        rw [← h.same e, Somewhere, Somewhere, htransit]
        simp [hbefore e]
      · intro e e' l he he'
        exact h.memtable_newer e e' ((htransit e).mp he) (Or.inr ⟨l, he'⟩)
      · intro e e' he
        exact absurd he (by simp)
      · intro imm' hr'
        exact absurd hr' (by simp)
      · intro hf
        exact absurd (hf.symm.trans (h.flush_idle hi)) (by simp)

/-- The copy that is published was in transit before. -/
theorem KeyInv.rotatePublish (h : KeyInv s₀ key s) (hs : s.step .rotatePublish = some s') :
    KeyInv s₀ key s' ∧ s'.engine.memtable = s.engine.memtable := by
  cases Handover.Effect.of_step hs with
  | @rotatePublish imm hr =>
      have hi := h.alone (by rw [hr]; simp)
      have hidle := h.flush_idle hi
      have htransit : ∀ e, InTransit { s with
          engine := { s.engine with immutableMemtable := some imm }
          rotation := .idle } key e ↔ InTransit s key e := fun e => by
        simp [InTransit, hr, hi, hidle]
      refine ⟨⟨h.dataDir, h.wf, ?_, h.version_newer, ?_, ?_, fun hne => absurd rfl hne, ?_,
        ?_⟩, rfl⟩
      · intro e
        rw [Somewhere, htransit]
        exact h.same e
      · intro e e' l he
        exact h.transit_newer e e' l ((htransit e).mp he)
      · intro e e' he he'
        exact h.memtable_newer e e' he (he'.imp_left (htransit e').mp)
      · intro imm' hr'
        exact absurd hr' (by simp)
      · intro hf
        exact absurd (hf.symm.trans hidle) (by simp)

/-- The installation moves the record in transit into the version. -/
theorem KeyInv.flushInstall (h : KeyInv s₀ key s) (hdir : ExactIds s₀.dataDir)
    (hs : s.step .flushInstall = some s') :
    KeyInv s₀ key s' ∧ s'.engine.memtable = s.engine.memtable := by
  cases Handover.Effect.of_step hs with
  | @flushInstall imm hf hi =>
      have hr := h.rotation_idle hi
      have hbefore : ∀ e, InTransit s key e ↔ imm.get key = some e := by
        intro e
        simp [InTransit, hr, hf, hi]
      have hdir' : ExactIds s.engine.dataDir := h.dataDir.symm ▸ hdir
      have hholds : ∀ l e, (s.engine.flushTable imm).version.Holds l key e ↔
          (l = 0 ∧ imm.get key = some e) ∨ s.engine.version.Holds l key e := by
        intro l e
        unfold StorageEngine.flushTable
        split_ifs with hemp
        · have hno : imm.get key = none := SortedMap.isEmpty_iff.mp hemp key
          simp [hno]
        · exact StorageEngine.holds_flushed h.wf hdir' imm l key e
      have hengine : (s.engine.flushTable imm).memtable = s.engine.memtable ∧
          (s.engine.flushTable imm).immutableMemtable = some imm ∧
          (s.engine.flushTable imm).dataDir = s.engine.dataDir := by
        unfold StorageEngine.flushTable
        split_ifs <;> exact ⟨rfl, hi, rfl⟩
      have hafter : ∀ e, ¬ InTransit { s with
          engine := s.engine.flushTable imm, flush := .installed } key e := fun e he => by
        simp [InTransit, hr] at he
      have hsome : ∀ e, (∃ l, (s.engine.flushTable imm).version.Holds l key e) ↔
          imm.get key = some e ∨ ∃ l, s.engine.version.Holds l key e := by
        intro e
        constructor
        · rintro ⟨l, he⟩
          exact ((hholds l e).mp he).imp And.right fun he => ⟨l, he⟩
        · rintro (he | ⟨l, he⟩)
          · exact ⟨0, (hholds 0 e).mpr (Or.inl ⟨rfl, he⟩)⟩
          · exact ⟨l, (hholds l e).mpr (Or.inr he)⟩
      refine ⟨⟨hengine.2.2.trans h.dataDir, ?_, ?_, ?_, ?_,
        ?_, fun hne => absurd hr hne, ?_, ?_⟩, hengine.1⟩
      · have hwf := h.wf
        show (s.engine.flushTable imm).version.Wf (s.engine.flushTable imm).dataDir
          (s.engine.flushTable imm).flushCounter
        unfold StorageEngine.flushTable
        split_ifs with hemp
        · exact hwf
        · exact StorageEngine.flushed_wf hwf (by simpa using hemp)
      · intro e
        rw [← h.same e, Somewhere, Somewhere, hbefore, hsome, hengine.1]
        simp [hafter e]
      · intro i j e e' hij hi' hj
        rcases (hholds j e').mp hj with ⟨rfl, -⟩ | hj
        · exact absurd hij (by omega)
        · rcases (hholds i e).mp hi' with ⟨-, he⟩ | hi'
          · exact h.transit_newer e e' j ((hbefore e).mpr he) hj
          · exact h.version_newer i j e e' hij hi' hj
      · intro e e' l he
        exact absurd he (hafter e)
      · intro e e' he he'
        apply h.memtable_newer e e' (hengine.1 ▸ he)
        rcases he' with he' | he'
        · exact absurd he' (hafter e')
        · exact ((hsome e').mp he').imp_left (hbefore e').mpr
      · intro imm' hr'
        rw [show s.rotation = .copied imm' from hr'] at hr
        exact absurd hr (by simp)
      · intro _
        refine ⟨imm, hengine.2.1, fun e he => ⟨(hholds 0 e).mpr (Or.inl ⟨rfl, he⟩), ?_⟩⟩
        intro l e' he'
        rcases (hholds l e').mp he' with ⟨-, he'⟩ | he'
        · rw [Option.some.inj (he.symm.trans he')]
        · exact (h.transit_newer e e' l ((hbefore e).mpr he) he').le

/-- The immutable memtable may go when the version has its records. -/
theorem KeyInv.flushReset (h : KeyInv s₀ key s) (hs : s.step .flushReset = some s') :
    KeyInv s₀ key s' ∧ s'.engine.memtable = s.engine.memtable := by
  cases Handover.Effect.of_step hs with
  | flushReset hf =>
      obtain ⟨imm, hi, -⟩ := h.installed hf
      have hr := h.rotation_idle hi
      have hbefore : ∀ e, ¬ InTransit s key e := fun e he => by simp [InTransit, hr, hf] at he
      have hafter : ∀ e, ¬ InTransit { s with engine := s.engine.resetImmutable, flush := .idle } key e :=
        fun e he => by simp [InTransit, hr, StorageEngine.resetImmutable] at he
      refine ⟨⟨h.dataDir, h.wf, ?_, h.version_newer, fun e e' l he => absurd he (hafter e),
        ?_, fun _ => rfl, h.copied, fun hf' => absurd hf' (by simp)⟩, rfl⟩
      · intro e
        rw [← h.same e, Somewhere, Somewhere]
        simp only [hbefore e, hafter e, false_or]
        exact Iff.rfl
      · intro e e' he he'
        exact h.memtable_newer e e' he (Or.inr (he'.resolve_left (hafter e')))

/-- **Every move that does not write the key** keeps the three places, and does not fill the memtable. -/
theorem KeyInv.move (h : KeyInv s₀ key s) (hdir : ExactIds s₀.dataDir) {op : HandoverOp}
    (hs : s.step op = some s') (hop : op.key? ≠ some key) :
    KeyInv s₀ key s' ∧ (s.engine.memtable.get key = none → s'.engine.memtable.get key = none) := by
  cases op with
  | put k' value =>
      obtain rfl := Option.some.inj hs
      have hne : key ≠ k' := fun he => hop (congrArg some he.symm)
      have hm : (s.engine.memtable.put k' value s.engine.seqNumber).get key = s.engine.memtable.get key := by
        rw [MemTable.get_put, if_neg hne]
      exact ⟨h.write hm, fun hnone => hm.trans hnone⟩
  | del k' =>
      obtain rfl := Option.some.inj hs
      have hne : key ≠ k' := fun he => hop (congrArg some he.symm)
      have hm : (s.engine.memtable.del k' s.engine.seqNumber).get key = s.engine.memtable.get key := by
        rw [MemTable.get_del, if_neg hne]
      exact ⟨h.write hm, fun hnone => hm.trans hnone⟩
  | rotateCopy =>
      obtain ⟨h', he⟩ := h.rotateCopy hs
      exact ⟨h', fun hnone => by rwa [he]⟩
  | rotateClear =>
      obtain ⟨h', he⟩ := h.rotateClear hs
      exact ⟨h', fun _ => he⟩
  | rotatePublish =>
      obtain ⟨h', he⟩ := h.rotatePublish hs
      exact ⟨h', fun hnone => by rwa [he]⟩
  | flushInstall =>
      obtain ⟨h', he⟩ := h.flushInstall hdir hs
      exact ⟨h', fun hnone => by rwa [he]⟩
  | flushReset =>
      obtain ⟨h', he⟩ := h.flushReset hs
      exact ⟨h', fun hnone => by rwa [he]⟩

end Moves

/-! ## B. The reader

The reader looks at the three places one after the other. It misses the record only where the record passes it, from a
place the reader has still to look at to one it has been at. -/

/-- What the reader knows: a candidate is the newest record of the key, and without one the memtable is
    empty by now. -/
def ReaderInv (s₀ : StorageEngine) (key : Bytes) (s : Reading) : Prop :=
  match s.reader with
  | .start | .done _ => True
  | .gotActive c | .gotImmutable c => (∀ e, c = some e → s₀.lookup key = some e) ∧
      (c = none → s.handover.engine.memtable.get key = none)

/-- The reader is done with the answer a read at the start would have given. -/
def Answered (s₀ : StorageEngine) (key : Bytes) (s : Reading) : Prop :=
  ∀ out, s.reader = .done out → out = answer (s₀.lookup key)

section Reader

variable {s₀ : StorageEngine} {key : Bytes} {s s' : Reading}

/-- A record of the key that is somewhere, and newest, is what a read at the start finds. -/
theorem KeyInv.lookup_eq (h : KeyInv s₀ key s.handover) (hinv : StorageEngine.Inv s₀)
    (hdir : ExactIds s₀.dataDir) {e : Entry} (he : Somewhere s.handover key e)
    (hmax : ∀ e', Somewhere s.handover key e' → e'.seq ≤ e.seq) : s₀.lookup key = some e := by
  rw [hinv.toOrdered.lookup_eq_some hdir]
  exact ⟨(h.same e).mp he, fun i e' he' => hmax e' ((h.same e').mpr ⟨i, he'⟩)⟩

/-- A record somewhere is no newer than what a read at the start finds. -/
theorem KeyInv.seq_le (h : KeyInv s₀ key s.handover) (hinv : StorageEngine.Inv s₀)
    (hdir : ExactIds s₀.dataDir) {e e' : Entry} (he : s₀.lookup key = some e)
    (he' : Somewhere s.handover key e') : e'.seq ≤ e.seq := by
  obtain ⟨i, hi⟩ := (h.same e').mp he'
  exact ((hinv.toOrdered.lookup_eq_some hdir).mp he).2 i e' hi

/-- Without a record in the memtable, one in transit is the newest. -/
theorem KeyInv.lookup_eq_transit (h : KeyInv s₀ key s.handover) (hinv : StorageEngine.Inv s₀)
    (hdir : ExactIds s₀.dataDir) (hmem : s.handover.engine.memtable.get key = none) {r : Entry}
    (hr : InTransit s.handover key r) : s₀.lookup key = some r := by
  apply h.lookup_eq hinv hdir (Or.inr (Or.inl hr))
  rintro e' (he' | he' | ⟨l, he'⟩)
  · rw [hmem] at he'
    exact absurd he' (by simp)
  · rw [h.transit_unique he' hr]
  · exact (h.transit_newer r e' l hr he').le

/-- The reader at the active memtable, -/
theorem readActive_inv (h : KeyInv s₀ key s.handover) (hinv : StorageEngine.Inv s₀)
    (hdir : ExactIds s₀.dataDir) (hs : s.step key .readActive = some s') :
    ReaderInv s₀ key s' ∧ s'.handover = s.handover ∧ ∀ out, s'.reader ≠ .done out := by
  cases hr : s.reader <;> simp only [step, hr] at hs <;> try contradiction
  obtain rfl := Option.some.inj hs
  refine ⟨⟨fun e he => h.lookup_eq hinv hdir (Or.inl he) ?_, id⟩, rfl, by simp⟩
  rintro e' (he' | he')
  · rw [Option.some.inj (he.symm.trans he')]
  · exact (h.memtable_newer e e' he he').le

/-- and at the immutable one. -/
theorem readImmutable_inv (h : KeyInv s₀ key s.handover) (hinv : StorageEngine.Inv s₀)
    (hdir : ExactIds s₀.dataDir) (hread : ReaderInv s₀ key s)
    (hs : s.step key .readImmutable = some s') :
    ReaderInv s₀ key s' ∧ s'.handover = s.handover ∧ ∀ out, s'.reader ≠ .done out := by
  cases hr : s.reader <;> simp only [step, hr] at hs <;> try contradiction
  rename_i c
  obtain rfl := Option.some.inj hs
  unfold ReaderInv at hread
  rw [hr] at hread
  obtain ⟨hsome, hnone⟩ := hread
  -- the immutable memtable's record is in transit, or in the version already and newest there
  have himm : ∀ r, s.handover.engine.immutableMemtable.bind (·.get key) = some r →
      Somewhere s.handover key r ∧ (s.handover.engine.memtable.get key = none →
        s₀.lookup key = some r) := by
    intro r hget
    cases hf : s.handover.flush with
    | idle =>
        have htransit : InTransit s.handover key r := Or.inr ⟨hf, hget⟩
        exact ⟨Or.inr (Or.inl htransit), fun hmem => h.lookup_eq_transit hinv hdir hmem htransit⟩
    | installed =>
        obtain ⟨imm, hi, hnewest⟩ := h.installed hf
        rw [hi] at hget
        obtain ⟨hin, hmax⟩ := hnewest r hget
        have hr' := h.rotation_idle hi
        refine ⟨Or.inr (Or.inr ⟨0, hin⟩), fun hmem => h.lookup_eq hinv hdir (Or.inr (Or.inr ⟨0, hin⟩)) ?_⟩
        rintro e' (he' | he' | ⟨l, he'⟩)
        · rw [hmem] at he'
          exact absurd he' (by simp)
        · simp [InTransit, hr', hf] at he'
        · exact hmax l e' he'
  refine ⟨?_, rfl, by simp⟩
  show (∀ e, considerRecord c _ = some e → _) ∧ (considerRecord c _ = none → _)
  cases hget : s.handover.engine.immutableMemtable.bind (·.get key) with
  | none =>
      rw [considerRecord_none]
      exact ⟨hsome, hnone⟩
  | some r =>
      obtain ⟨hin, hnewest⟩ := himm r hget
      cases c with
      | none =>
          refine ⟨?_, fun he => absurd he (by simp [considerRecord])⟩
          intro e he
          rw [← Option.some.inj (he : some r = some e)]
          exact hnewest (hnone rfl)
      | some e =>
          -- the candidate is the newest record already
          have hle := h.seq_le hinv hdir (hsome e rfl) hin
          have hkeep : considerRecord (some e) (some r) = some e := by
            unfold considerRecord
            exact if_neg (by omega)
          rw [hkeep]
          exact ⟨hsome, hnone⟩

/-- With the newest record as its candidate, the search of the version settles on it. -/
theorem KeyInv.search_candidate (h : KeyInv s₀ key s.handover) (hinv : StorageEngine.Inv s₀)
    (hdir : ExactIds s₀.dataDir) {e : Entry} (hl : s₀.lookup key = some e) :
    searchVersion s.handover.engine.version key (some e) = some e := by
  have hold : ∀ e₁ e' j, e₁ = e → s.handover.engine.version.Holds j key e' → e'.seq ≤ e₁.seq := by
    rintro e₁ e' j rfl he'
    exact h.seq_le hinv hdir hl (Or.inr (Or.inr ⟨j, he'⟩))
  have hcand : Picks Entry.seq (fun e' => e' = e) (some e) :=
    ⟨rfl, fun e' he' => he' ▸ Nat.le_refl _⟩
  have hpicks := searchVersion_picks h.wf (h.dataDir.symm ▸ hdir) h.version_newer hold hcand
  cases hsearch : searchVersion s.handover.engine.version key (some e) with
  | none =>
      rw [hsearch] at hpicks
      exact absurd (Or.inl rfl) (hpicks e)
  | some r =>
      rw [hsearch] at hpicks
      rcases hpicks.1 with rfl | ⟨l, hin⟩
      · rfl
      · obtain ⟨i, hi⟩ := (h.same r).mp (Or.inr (Or.inr ⟨l, hin⟩))
        obtain ⟨⟨j, hj⟩, hmax⟩ := (hinv.toOrdered.lookup_eq_some hdir).mp hl
        have hseq := Nat.le_antisymm (hmax i r hi) (hpicks.2 e (Or.inl rfl))
        rw [hinv.aged.eq_of_seq_eq hi hj hseq]

/-- Without a candidate, it settles on the newest record of the version. -/
theorem KeyInv.search_picks (h : KeyInv s₀ key s.handover) (hdir : ExactIds s₀.dataDir) :
    Picks Entry.seq (fun e => ∃ l, s.handover.engine.version.Holds l key e)
      (searchVersion s.handover.engine.version key none) := by
  have hcand : Picks Entry.seq (fun _ => False) none := fun _ => id
  exact (searchVersion_picks h.wf (h.dataDir.symm ▸ hdir) h.version_newer
    (fun _ _ _ hf => absurd hf id) hcand).congr fun e => or_iff_right id

/-- Two newest records of the version are one. -/
theorem KeyInv.newest_unique (h : KeyInv s₀ key s.handover) (hinv : StorageEngine.Inv s₀) {e e' : Entry}
    (he : Newest Entry.seq s.handover.engine.version.Holds key e)
    (he' : Newest Entry.seq s.handover.engine.version.Holds key e') : e' = e := by
  obtain ⟨⟨l, hin⟩, hmax⟩ := he
  obtain ⟨⟨l', hin'⟩, hmax'⟩ := he'
  obtain ⟨i, hi⟩ := (h.same e).mp (Or.inr (Or.inr ⟨l, hin⟩))
  obtain ⟨j, hj⟩ := (h.same e').mp (Or.inr (Or.inr ⟨l', hin'⟩))
  exact hinv.aged.eq_of_seq_eq hj hi (Nat.le_antisymm (hmax l' e' hin') (hmax' l e hin))

/-- With the newest record on its way, the version answers like it only when both are tombstones: what the version
    has is older. -/
theorem KeyInv.answer_transit_iff (h : KeyInv s₀ key s.handover) (hinv : StorageEngine.Inv s₀)
    (hdir : ExactIds s₀.dataDir) {r : Entry} (hrt : InTransit s.handover key r) :
    answer (searchVersion s.handover.engine.version key none) = answer (some r) ↔ r.type = .delete ∧
      ∀ e, Newest Entry.seq s.handover.engine.version.Holds key e → e.type = .delete := by
  have hpicks := h.search_picks hdir
  cases hsearch : searchVersion s.handover.engine.version key none with
  | none =>
      rw [hsearch] at hpicks
      rw [answer_none, eq_comm, answer_eq_none_iff]
      exact ⟨fun hdel => ⟨hdel, fun e he => absurd he.1 (hpicks e)⟩, fun hdel => hdel.1⟩
  | some e =>
      rw [hsearch] at hpicks
      obtain ⟨⟨l, hin⟩, hmax⟩ := hpicks
      have hnewest : Newest Entry.seq s.handover.engine.version.Holds key e :=
        ⟨⟨l, hin⟩, fun l' e' he' => hmax e' ⟨l', he'⟩⟩
      have hne : e ≠ r := by
        rintro rfl
        exact absurd (h.transit_newer e e l hrt hin) (Nat.lt_irrefl _)
      rw [answer_eq_answer_iff hne]
      constructor
      · rintro ⟨hedel, hrdel⟩
        refine ⟨hrdel, ?_⟩
        intro e' he'
        rw [h.newest_unique hinv hnewest he', hedel]
      · rintro ⟨hrdel, hall⟩
        exact ⟨hall e hnewest, hrdel⟩

/-- With nothing in the memtable and nothing on its way, everything there is of the key is in the version. -/
theorem KeyInv.search_eq_lookup (h : KeyInv s₀ key s.handover) (hinv : StorageEngine.Inv s₀)
    (hdir : ExactIds s₀.dataDir) (hmem : s.handover.engine.memtable.get key = none)
    (htransit : ¬ ∃ r, InTransit s.handover key r) :
    searchVersion s.handover.engine.version key none = s₀.lookup key := by
  have hall : ∀ e, (∃ l, s.handover.engine.version.Holds l key e) ↔ ∃ i, s₀.Holds i key e := by
    intro e
    refine Iff.trans ?_ (h.same e)
    rw [Somewhere, hmem]
    simp [not_exists.mp htransit e]
  apply Option.ext
  intro e
  rw [picks_iff_newest hinv.aged ((h.search_picks hdir).congr hall), hinv.toOrdered.lookup_eq_some hdir]

/-- The last step answers as a read at the start exactly when it is `Safe`. -/
theorem readVersion_iff (h : KeyInv s₀ key s.handover) (hinv : StorageEngine.Inv s₀)
    (hdir : ExactIds s₀.dataDir) (hread : ReaderInv s₀ key s)
    (hs : s.step key .readVersion = some s') : Answered s₀ key s' ↔ s.Safe key .readVersion := by
  cases hr : s.reader <;> simp only [step, hr] at hs <;> try contradiction
  rename_i c
  obtain rfl := Option.some.inj hs
  unfold ReaderInv at hread
  rw [hr] at hread
  obtain ⟨hsome, hnone⟩ := hread
  have hanswered : Answered s₀ key { s with
      reader := .done (answer (searchVersion s.handover.engine.version key c)) } ↔
      answer (searchVersion s.handover.engine.version key c) = answer (s₀.lookup key) := by
    constructor
    · intro ha
      exact ha _ rfl
    · intro ha out hout
      rw [← ReaderPc.done.inj hout, ha]
  rw [hanswered]
  show _ ↔ (s.reader = .gotImmutable none → _)
  rw [hr]
  cases c with
  | some e =>
      -- nothing in the version is newer than the candidate
      rw [h.search_candidate hinv hdir (hsome e rfl), hsome e rfl]
      exact ⟨fun _ hc => absurd hc (by simp), fun _ => rfl⟩
  | none =>
      have hmem := hnone rfl
      by_cases htransit : ∃ r, InTransit s.handover key r
      · obtain ⟨r, hrt⟩ := htransit
        rw [h.lookup_eq_transit hinv hdir hmem hrt, h.answer_transit_iff hinv hdir hrt]
        constructor
        · rintro hdel - r' hr'
          rwa [h.transit_unique hr' hrt]
        · intro hsafe
          exact hsafe rfl r hrt
      · rw [h.search_eq_lookup hinv hdir hmem htransit]
        exact ⟨fun _ _ r hr => absurd ⟨r, hr⟩ htransit, fun _ => rfl⟩

end Reader

/-! ## C. Whole runs

The two invariants together, for any interleaving of the reader with the rotation and the flush thread. -/

/-- The two invariants together. -/
def Inv (s₀ : StorageEngine) (key : Bytes) (s : Reading) : Prop :=
  KeyInv s₀ key s.handover ∧ ReaderInv s₀ key s

/-- Steps of others move the record, steps of the reader move the reader; no step writes the key. -/
theorem Inv.step {s₀ : StorageEngine} {key : Bytes} {s s' : Reading} (h : Inv s₀ key s)
    (hinv : StorageEngine.Inv s₀) (hdir : ExactIds s₀.dataDir) {op : ReadingOp}
    (hs : s.step key op = some s') (hop : ∀ m, op = .move m → m.key? ≠ some key) :
    Inv s₀ key s' := by
  cases op with
  | move m =>
      obtain ⟨t, ht, rfl⟩ := Option.map_eq_some_iff.mp hs
      obtain ⟨hkey, hmem⟩ := h.1.move hdir ht (hop m rfl)
      refine ⟨hkey, ?_⟩
      have hread := h.2
      unfold ReaderInv at hread ⊢
      cases hr : s.reader with
      | start => trivial
      | done out => trivial
      | gotActive c => rw [hr] at hread; exact ⟨hread.1, fun hc => hmem (hread.2 hc)⟩
      | gotImmutable c => rw [hr] at hread; exact ⟨hread.1, fun hc => hmem (hread.2 hc)⟩
  | readActive =>
      obtain ⟨hread, he, -⟩ := readActive_inv h.1 hinv hdir hs
      exact ⟨he ▸ h.1, hread⟩
  | readImmutable =>
      obtain ⟨hread, he, -⟩ := readImmutable_inv h.1 hinv hdir h.2 hs
      exact ⟨he ▸ h.1, hread⟩
  | readVersion =>
      cases hr : s.reader <;> simp only [Reading.step, hr] at hs <;> try contradiction
      obtain rfl := Option.some.inj hs
      exact ⟨h.1, trivial⟩

/-- **A read across the hand-over answers as before it exactly along the safe runs.** From any reachable
    state, for any interleaving of one `get` with the writer (on other keys), the rotation and the flush
    thread. -/
theorem read_answers_iff {dataDir : Bytes} (hdir : ExactIds dataDir) {cacheSize : Nat}
    {ops₀ : List EngineOp} {s₀ : StorageEngine}
    (h₀ : exec StorageEngine.step (StorageEngine.init dataDir cacheSize) ops₀ = some s₀) {key : Bytes}
    {ops : List ReadingOp} {s : Reading} (h : exec (step key) (start s₀) ops = some s)
    (hkey : ∀ m, .move m ∈ ops → m.key? ≠ some key) :
    Along (step key) (fun _ => Answered s₀ key) (start s₀) ops ↔
      Meets (step key) (Safe key) (start s₀) ops := by
  obtain ⟨hinv, hd⟩ := StorageEngine.inv_of_exec hdir h₀
  have hdir : ExactIds s₀.dataDir := hd.symm ▸ hdir
  have hreach : ∀ {pre t}, pre <+: ops → exec (step key) (start s₀) pre = some t → Inv s₀ key t := by
    intro pre
    induction pre using List.reverseRecOn with
    | nil =>
        intro t _ ht
        exact Option.some.inj ht ▸ ⟨keyInv_start hinv key, trivial⟩
    | append_singleton pre op ih =>
        intro t hpre ht
        obtain ⟨u, hu, hs⟩ := exec_concat_eq_some ht
        apply (ih ((List.prefix_append _ _).trans hpre) hu).step hinv hdir hs
        rintro m rfl
        exact hkey m (hpre.subset (by simp))
  refine along_iff_meets (fun out hout => absurd hout (by simp [start])) ?_ h
  intro pre op t v hpre ht hv _ hP
  obtain ⟨hkeyInv, hread⟩ := hreach ((List.prefix_append _ _).trans hpre) ht
  cases op with
  | move m =>
      obtain ⟨u, -, rfl⟩ := Option.map_eq_some_iff.mp hv
      exact ⟨fun _ => trivial, fun _ => hP⟩
  | readActive =>
      obtain ⟨-, -, hnot⟩ := readActive_inv hkeyInv hinv hdir hv
      exact ⟨fun _ => trivial, fun _ out hout => absurd hout (hnot out)⟩
  | readImmutable =>
      obtain ⟨-, -, hnot⟩ := readImmutable_inv hkeyInv hinv hdir hread hv
      exact ⟨fun _ => trivial, fun _ out hout => absurd hout (hnot out)⟩
  | readVersion => exact readVersion_iff hkeyInv hinv hdir hread hv

/-- The store with one record, and a `get` that runs between the clear and the publication. -/
def tornRun : List ReadingOp :=
  [.move .rotateCopy, .move .rotateClear, .readActive, .readImmutable, .readVersion]

omit [Platform] in
theorem read_answers_iff_tornRun : letI := Platform.sample
    let s₀ := (StorageEngine.init (Bytes.ascii "data") 0).put (Bytes.ascii "a") (Bytes.ascii "1")
    Along (step (Bytes.ascii "a")) (fun _ => Answered s₀ (Bytes.ascii "a")) (start s₀) tornRun ↔
      Meets (step (Bytes.ascii "a")) (Safe (Bytes.ascii "a")) (start s₀) tornRun := by
  let := Platform.sample
  intro s₀
  have h₀ : exec StorageEngine.step (StorageEngine.init (Bytes.ascii "data") 0)
      [.put (Bytes.ascii "a") (Bytes.ascii "1")] = some s₀ := rfl
  have hrun : (exec (step (Bytes.ascii "a")) (start s₀) tornRun).isSome := by decide +kernel
  obtain ⟨s, hs⟩ := Option.isSome_iff_exists.mp hrun
  apply read_answers_iff exactIds_data h₀ hs
  intro m hm
  obtain rfl | rfl : m = .rotateCopy ∨ m = .rotateClear := by simpa [tornRun] using hm
  · simp [HandoverOp.key?]
  · simp [HandoverOp.key?]

omit [Platform] in
/-- The read finds nothing, before and after its start the key reads as `1`. -/
theorem torn_read_misses : letI := Platform.sample
    let s₀ := (StorageEngine.init (Bytes.ascii "data") 0).put (Bytes.ascii "a") (Bytes.ascii "1")
    ∃ s, exec (step (Bytes.ascii "a")) (start s₀) tornRun = some s ∧ s.reader = .done none ∧
      (s₀.get (Bytes.ascii "a")).1 = some ⟨Bytes.ascii "1", 1, .put⟩ ∧
      ¬ Answered s₀ (Bytes.ascii "a") s := by
  let := Platform.sample
  intro s₀
  have hread : (exec (step (Bytes.ascii "a")) (start s₀) tornRun).map (·.reader)
      = some (.done none) := by decide +kernel
  have hget : answer (s₀.lookup (Bytes.ascii "a")) = some ⟨Bytes.ascii "1", 1, .put⟩ := by decide +kernel
  obtain ⟨s, hs, hdone⟩ := Option.map_eq_some_iff.mp hread
  refine ⟨s, hs, hdone, by decide +kernel, ?_⟩
  intro ha
  have := ha none hdone
  rw [hget] at this
  exact absurd this (by simp)

end Reading

end KvStorageEngine
