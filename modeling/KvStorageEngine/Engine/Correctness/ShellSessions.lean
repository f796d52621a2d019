import KvStorageEngine.Engine.Shell
import KvStorageEngine.Engine.Correctness.MapRefinement

/-!
# `Engine.Correctness.ShellSessions` — what the interactive program answers

A session is a map: where no compaction drops a tombstone that still hides something, and no `clear` comes while a
memtable waits to be flushed, every `get` prints what the last `put` or `delete` of its key left, and of what `ls` lists
under a key the record with the highest number says the same (`session_answers`).

What a command prints is read off the engine before it (`session_line`), and one event keeps the engine on the
map (`Session.of_step`).
-/

namespace KvStorageEngine

open Layered Run CommandParser

/-! ## The listing

`ls` prints the memtables and the tables section by section. What it prints of a key are all the records the engine
has of it, so the newest is the one a lookup finds. -/

/-- The last place of a pattern. -/
theorem CommandParser.rfind_append {front tail pattern : Bytes} {c : UInt8} (hat : pattern <+: c :: tail)
    (hlast : ∀ n, ¬ pattern <+: tail.drop n) : rfind (front ++ c :: tail) pattern = some front.length := by
  have hsplit : List.range ((front ++ c :: tail).length + 1) =
      List.range' 0 front.length ++ front.length :: List.range' (front.length + 1) (tail.length + 1) := by
    rw [List.length_append, List.length_cons, List.range_eq_range', Nat.add_assoc, ← List.range'_append_1,
      Nat.zero_add, List.range'_succ]
  have hkeep : pattern.isPrefixOf ((front ++ c :: tail).drop front.length) = true := by
    rw [List.drop_left]
    exact List.isPrefixOf_iff_prefix.mpr hat
  have hbehind : (List.range' (front.length + 1) (tail.length + 1)).filter
      (fun pos => pattern.isPrefixOf ((front ++ c :: tail).drop pos)) = [] := by
    rw [List.filter_eq_nil_iff]
    intro pos hpos
    obtain ⟨n, rfl⟩ := Nat.exists_eq_add_of_le (List.mem_range'_1.mp hpos).1
    rw [List.isPrefixOf_iff_prefix, Nat.add_assoc, List.drop_length_add_append, Nat.add_comm 1 n, List.drop_succ_cons]
    exact hlast n
  unfold rfind
  rw [hsplit, List.filter_append, List.filter_cons, if_pos hkeep, hbehind, List.getLast?_concat]

/-- What `ls` cuts out of a table's path is the table's number. -/
theorem StorageEngine.tableNumber_sstablePath (dataDir : Bytes) (id : Nat) :
    tableNumber (sstablePath (sstableDir dataDir) id) = some (Bytes.toDecimal id) := by
  let front := sstableDir dataDir ++ Bytes.ascii "sstable"
  let digits := Bytes.toDecimal id
  have hpath : sstablePath (sstableDir dataDir) id = front ++ 95 :: (digits ++ Bytes.ascii ".bin") := by
    show _ ++ Bytes.ascii "sstable_" ++ _ ++ _ = _
    simp [front, digits, show Bytes.ascii "sstable_" = Bytes.ascii "sstable" ++ [95] from by decide]
  have hunderscore : rfind (sstablePath (sstableDir dataDir) id) (Bytes.ascii "_") = some front.length := by
    rw [hpath]
    refine rfind_append ⟨_, rfl⟩ ?_
    rintro n ⟨rest, hrest⟩
    have hmem : (95 : UInt8) ∈ digits ++ Bytes.ascii ".bin" := by
      have hhead : (95 : UInt8) ∈ Bytes.ascii "_" ++ rest := List.mem_append_left rest (by decide)
      exact List.mem_of_mem_drop (hrest ▸ hhead)
    rcases List.mem_append.mp hmem with hmem | hmem
    · exact absurd (Bytes.mem_toDecimal hmem).2 (by decide)
    · exact absurd hmem (by decide)
  have hdot : rfind (sstablePath (sstableDir dataDir) id) (Bytes.ascii ".bin") =
      some (front.length + 1 + digits.length) := by
    have hpath' : sstablePath (sstableDir dataDir) id = (front ++ 95 :: digits) ++ 46 :: Bytes.ascii "bin" := by
      rw [hpath, List.append_assoc front]
      rfl
    have hlen : (front ++ 95 :: digits).length = front.length + 1 + digits.length := by
      rw [List.length_append, List.length_cons]
      omega
    rw [hpath', ← hlen]
    refine rfind_append ⟨[], rfl⟩ ?_
    intro n hat
    have hle := hat.length_le
    rw [List.length_drop] at hle
    exact absurd (hle.trans (Nat.sub_le _ n)) (by decide)
  unfold tableNumber
  rw [hunderscore, hdot]
  dsimp only
  have hcut : front.length + 1 + digits.length - front.length - 1 = digits.length := by omega
  have hdrop : (front ++ 95 :: (digits ++ Bytes.ascii ".bin")).drop (front.length + 1) =
      digits ++ Bytes.ascii ".bin" := by
    rw [List.drop_length_add_append, List.drop_succ_cons, List.drop_zero]
  rw [if_neg (by omega), hpath, hcut]
  unfold substr
  rw [hdrop, List.take_left]

variable [Platform]

namespace StorageEngine

/-- Of the records that `ls` lists under a key, the one with the highest number. -/
def newestListed (sections : List Section) (key : Bytes) : Option Entry :=
  (sections.flatMap fun sec => (sec.records.filter fun r => r.1 = key).map (·.2)).argmax Entry.seq

/-- `ls` lists exactly the records of the engine. -/
theorem mem_listing {s : StorageEngine} (h : Ordered s) {key : Bytes} {e : Entry} :
    (∃ sec ∈ s.listing, (key, e) ∈ sec.records) ↔ e ∈ s.records key := by
  have hmemtable : ∀ (m : MemTable) (title : Bytes),
      (∃ sec ∈ (if m.snapshot.isEmpty then [] else [Section.mk title m.snapshot.entries true]),
        (key, e) ∈ sec.records) ↔ m.get key = some e := by
    intro m title
    rw [MemTable.get, SortedMap.find?_eq_some]
    split
    · next hempty =>
        have hnil : m.snapshot.entries = [] := List.isEmpty_iff.mp hempty
        rw [← MemTable.snapshot, hnil]
        simp
    · simp [MemTable.snapshot]
  have htables : (∃ sec ∈ s.version.sstables.reverse.filterMap (fun sst =>
        (tableNumber sst.filename).map fun number =>
          Section.mk (Bytes.ascii "SSTable " ++ number) sst.records.entries false),
        (key, e) ∈ sec.records) ↔ e ∈ s.version.sstables.filterMap (·.records.find? key) := by
    rw [List.mem_filterMap]
    constructor
    · rintro ⟨sec, hsec, he⟩
      obtain ⟨sst, hsst, hsec⟩ := List.mem_filterMap.mp hsec
      obtain ⟨number, -, rfl⟩ := Option.map_eq_some_iff.mp hsec
      exact ⟨sst, List.mem_reverse.mp hsst, SortedMap.find?_eq_some.mpr he⟩
    · rintro ⟨sst, hsst, he⟩
      obtain ⟨m, -, hpath⟩ := h.wf.exists_id hsst
      refine ⟨⟨Bytes.ascii "SSTable " ++ Bytes.toDecimal m.id, sst.records.entries, false⟩,
        List.mem_filterMap.mpr ⟨sst, List.mem_reverse.mpr hsst, ?_⟩, SortedMap.find?_eq_some.mp he⟩
      rw [SSTable.filename, hpath, tableNumber_sstablePath]
      rfl
  have happend : ∀ a b : List Section, (∃ sec ∈ a ++ b, (key, e) ∈ sec.records) ↔
      (∃ sec ∈ a, (key, e) ∈ sec.records) ∨ ∃ sec ∈ b, (key, e) ∈ sec.records := by
    intro a b
    simp only [List.mem_append, or_and_right, exists_or]
  unfold listing records
  rw [List.mem_append, List.mem_append, Option.mem_toList, Option.mem_toList, happend, happend]
  refine or_congr (or_congr (hmemtable s.memtable _) ?_) htables
  cases s.immutableMemtable with
  | none => simp
  | some immutable => exact hmemtable immutable _

/-- **The listing and the read agree** on every key. -/
theorem Inv.newestListed_eq {s : StorageEngine} (h : Inv s) (hdir : ExactIds s.dataDir) (key : Bytes) :
    answer (newestListed s.listing key) = (s.get key).1 := by
  rw [h.get_eq]
  refine congrArg answer (Option.ext ?_)
  intro e
  rw [h.toOrdered.lookup_eq_some hdir]
  refine (newest_iff_argmax h.aged ?_).symm
  intro e'
  rw [← HasRecord, ← h.toOrdered.mem_records hdir, ← mem_listing h.toOrdered, List.mem_flatMap]
  refine exists_congr fun sec => and_congr_right fun _ => ?_
  simp

/-- A `clear` with nothing on its way leaves an empty engine. -/
theorem inv_clearData {s : StorageEngine} (hdir : ExactIds s.dataDir) (himmutable : s.immutableMemtable = none) :
    Inv s.clearData ∧ Refines [] s.clearData := by
  have hno : ∀ k e, ¬ s.clearData.HasRecord k e := by
    intro k e
    rw [hasRecord_iff]
    rintro (h | h | ⟨l, h⟩)
    · exact absurd h (by simp [StorageEngine.clearData, clearCache])
    · exact absurd h (by simp [StorageEngine.clearData, clearCache, himmutable])
    · exact TableVersion.not_holds_initial l k e h
  have hordered : Ordered s.clearData :=
    ⟨TableVersion.wf_initial s.dataDir 0, fun i j k e e' _ hi => absurd ⟨i, hi⟩ (hno k e),
      fun i k e e' hi => absurd ⟨i, hi⟩ (hno k e)⟩
  have hinv : Inv s.clearData := by
    refine ⟨hordered, fun k e he => absurd he (hno k e),
      fun l k e _ he => absurd he (TableVersion.not_holds_initial l k e), ?_⟩
    intro c hc k e he
    obtain ⟨c₀, -, rfl⟩ := Option.map_eq_some_iff.mp hc
    rw [LRUCache.find?_clear] at he
    exact absurd he (by simp)
  refine ⟨hinv, ?_⟩
  intro k
  rw [hinv.get_eq, (hordered.lookup_eq_none hdir).mpr (hno k)]
  rfl

end StorageEngine

/-! ## The map of a session

The session is compared with a map that puts and deletes write and `clear` empties. Background events leave the map
alone, and `Safe` is what this takes: a compaction that drops a tombstone too early would bring an old value back, and
a `clear` does not reach a memtable that is on its way to disk. -/

/-- What an event does to the map. -/
def MapState.told (m : MapState) : ShellEvent → MapState
  | .line input =>
    match parseCommand input with
    | (.put, key, value) => m.step (.put key value)
    | (.delete, key, _) => m.step (.del key)
    | (.clear, _, _) => fun _ => none
    | _ => m
  | _ => m

/-- The map after a session. -/
def toldBy (events : List ShellEvent) : MapState := events.foldl MapState.told fun _ => none

omit [Platform] in
theorem toldBy_concat (events : List ShellEvent) (event : ShellEvent) :
    toldBy (events ++ [event]) = (toldBy events).told event := by
  unfold toldBy
  rw [List.foldl_append]
  rfl

namespace ShellEvent

/-- A line of the user. -/
def isLine : ShellEvent → Bool
  | .line _ => true
  | _ => false

end ShellEvent

namespace Shell

/-- What a line prints on an engine that stands for the map. -/
def Answers (s : StorageEngine) (m : MapState) (input : Bytes) (printed : Printed) : Prop :=
  match parseCommand input with
  | (.get, key, _) => printed = ⟨(m key).getD [] ++ Bytes.ascii "\n", []⟩
  | (.ls, _, _) => printed = ⟨s.ls, []⟩ ∧
      ∀ key, (answer (StorageEngine.newestListed s.listing key)).map (·.value) = m key
  | (.error, _, _) => printed = ⟨[], Bytes.ascii "Invalid command\n"⟩
  | _ => printed = .nothing

/-- The event loses nothing: a compaction drops no tombstone that still hides something, and at a `clear` no memtable
    waits to be flushed. -/
def Safe (s : Shell) : ShellEvent → Prop
  | .line input => (parseCommand input).1 = .clear → s.engine.immutableMemtable = none
  | event => ∀ op, background event = some op → s.engine.TombstoneSafe op

/-- What holds between a session and the program after it. -/
structure Session (events : List ShellEvent) (s : Shell) : Prop where
  inv : s.engine.Inv
  dataDir : s.engine.dataDir = Bytes.ascii "data"
  told : ∃ ops, s.engine.Refines ops ∧ lastWrites ops = toldBy events
  lines : s.printed.length = events.countP (·.isLine)

namespace Session

variable {events : List ShellEvent} {s : Shell}

/-- A session that has not begun. -/
theorem start (cacheSize : Nat) : Session [] (start cacheSize) := by
  have hinv := StorageEngine.inv_init (Bytes.ascii "data") cacheSize
  refine ⟨hinv, rfl, ⟨[], ?_, rfl⟩, rfl⟩
  intro k
  show ((StorageEngine.init (Bytes.ascii "data") cacheSize).get k).1.map _ = none
  have hnone : (StorageEngine.init (Bytes.ascii "data") cacheSize).lookup k = none :=
    (hinv.toOrdered.lookup_eq_none exactIds_data).mpr (StorageEngine.not_hasRecord_init _ cacheSize k)
  rw [hinv.get_eq, hnone]
  rfl

theorem exactIds (h : Session events s) : ExactIds s.engine.dataDir := h.dataDir ▸ exactIds_data

/-- Every key reads as the map says. -/
theorem get_eq (h : Session events s) (key : Bytes) : (s.engine.get key).1.map (·.value) = toldBy events key := by
  obtain ⟨ops, hrefines, htold⟩ := h.told
  rw [hrefines key, htold]

/-- An event that is a step of the engine. -/
theorem of_op (h : Session events s) {event : ShellEvent} (op : EngineOp) {engine : StorageEngine}
    {printed : List Printed} (hs : s.engine.step op = some engine) (hsafe : s.engine.TombstoneSafe op)
    (htold : (toldBy events).told event = (toldBy events).step op)
    (hlines : printed.length = (events ++ [event]).countP (·.isLine)) :
    Session (events ++ [event]) ⟨engine, printed⟩ := by
  obtain ⟨hinv, hdata⟩ := h.inv.step h.exactIds hs
  obtain ⟨ops, hrefines, hops⟩ := h.told
  refine ⟨hinv, hdata.trans h.dataDir, ⟨ops ++ [op], ?_, ?_⟩, hlines⟩
  · exact (StorageEngine.refines_step h.inv h.exactIds hs hrefines).mpr hsafe
  · rw [lastWrites_concat, hops, toldBy_concat, htold]

/-- An event that leaves the engine alone. -/
theorem of_same (h : Session events s) {event : ShellEvent} {printed : List Printed}
    (htold : (toldBy events).told event = toldBy events)
    (hlines : printed.length = (events ++ [event]).countP (·.isLine)) :
    Session (events ++ [event]) ⟨s.engine, printed⟩ := by
  obtain ⟨ops, hrefines, hops⟩ := h.told
  exact ⟨h.inv, h.dataDir, ⟨ops, hrefines, by rw [hops, toldBy_concat, htold]⟩, hlines⟩

/-- A `clear` empties the engine and the map. -/
theorem of_clear (h : Session events s) {event : ShellEvent} {printed : List Printed}
    (himmutable : s.engine.immutableMemtable = none) (htold : (toldBy events).told event = fun _ => none)
    (hlines : printed.length = (events ++ [event]).countP (·.isLine)) :
    Session (events ++ [event]) ⟨s.engine.clearData, printed⟩ := by
  obtain ⟨hinv, hrefines⟩ := StorageEngine.inv_clearData h.exactIds himmutable
  exact ⟨hinv, h.dataDir, ⟨[], hrefines, by rw [toldBy_concat, htold]; rfl⟩, hlines⟩

end Session

/-- A line: what it prints, and where it leaves the engine. -/
theorem session_line {events : List ShellEvent} {s s' : Shell} (h : Session events s) {input : Bytes}
    (hsafe : s.Safe (.line input)) (hs : s.step (.line input) = some s') :
    Session (events ++ [.line input]) s' ∧
      ∃ printed, s'.printed = s.printed ++ [printed] ∧ Answers s.engine (toldBy events) input printed := by
  have hlines : ∀ p : Printed, (s.printed ++ [p]).length = (events ++ [ShellEvent.line input]).countP (·.isLine) := by
    intro p
    rw [List.length_append, h.lines, List.countP_append]
    rfl
  obtain ⟨⟨engine, printed⟩, hcommand, rfl⟩ := Option.map_eq_some_iff.mp hs
  refine ⟨?_, printed, rfl, ?_⟩
  all_goals
    unfold StorageEngine.handleCommand at hcommand
    rcases hparse : parseCommand input with ⟨op, key, value⟩
    rw [hparse] at hcommand
  · -- the map
    cases op with
    | put =>
        cases hcommand
        exact h.of_op (.put key value) rfl trivial (by simp only [MapState.told, hparse]) (hlines _)
    | get =>
        cases hcommand
        exact h.of_op (.get key) rfl trivial (by simp only [MapState.told, hparse, MapState.step]) (hlines _)
    | delete =>
        cases hcommand
        exact h.of_op (.del key) rfl trivial (by simp only [MapState.told, hparse]) (hlines _)
    | ls =>
        cases hcommand
        exact h.of_same (by simp only [MapState.told, hparse]) (hlines _)
    | flush =>
        obtain ⟨engine, hflush, heq⟩ := Option.map_eq_some_iff.mp hcommand
        cases heq
        exact h.of_op (.checkFlush true) hflush trivial
          (by simp only [MapState.told, hparse, MapState.step]) (hlines _)
    | clear =>
        cases hcommand
        exact h.of_clear (hsafe (by rw [hparse])) (by simp only [MapState.told, hparse]) (hlines _)
    | error =>
        cases hcommand
        exact h.of_same (by simp only [MapState.told, hparse]) (hlines _)
  · -- what is printed
    unfold Answers
    rw [hparse]
    cases op with
    | get =>
        obtain ⟨-, rfl⟩ := Prod.mk.inj (Option.some.inj hcommand)
        exact congrArg (fun value : Option Bytes => Printed.mk (value.getD [] ++ Bytes.ascii "\n") []) (h.get_eq key)
    | ls =>
        cases hcommand
        refine ⟨rfl, ?_⟩
        intro key
        rw [h.inv.newestListed_eq h.exactIds, h.get_eq]
    | flush =>
        obtain ⟨engine, -, heq⟩ := Option.map_eq_some_iff.mp hcommand
        cases heq
        rfl
    | put | delete | clear | error =>
        cases hcommand
        rfl

/-- What the engine does in the background. -/
theorem session_background {events : List ShellEvent} {s s' : Shell} (h : Session events s) {event : ShellEvent}
    {op : EngineOp} (hop : background event = some op) (hsafe : s.Safe event) (hs : s.step event = some s') :
    Session (events ++ [event]) s' ∧ s'.printed = s.printed := by
  have hquiet : s.engine.TombstoneSafe op ∧ (∃ engine, s.engine.step op = some engine ∧ ⟨engine, s.printed⟩ = s') ∧
      (∀ m : MapState, m.told event = m.step op) ∧ event.isLine = false := by
    cases event with
    | line input => exact absurd hop (by simp [background])
    | autoFlush | flushInstall | compactL0toL1 | compactlevelN level =>
        cases hop
        exact ⟨hsafe _ rfl, Option.map_eq_some_iff.mp hs, fun _ => rfl, rfl⟩
  obtain ⟨hsafe, ⟨engine, hstep, rfl⟩, htold, hline⟩ := hquiet
  refine ⟨h.of_op op hstep hsafe (htold _) ?_, rfl⟩
  rw [h.lines, List.countP_append, List.countP_cons_of_neg (by rw [hline]; decide), List.countP_nil, Nat.add_zero]

/-- One event keeps the program on the map. What has been printed stays. -/
theorem Session.of_step {events : List ShellEvent} {s s' : Shell} (h : Session events s) {event : ShellEvent}
    (hsafe : s.Safe event) (hs : s.step event = some s') :
    Session (events ++ [event]) s' ∧ ∃ more, s'.printed = s.printed ++ more := by
  cases hop : background event with
  | some op =>
      obtain ⟨hsession, hprinted⟩ := session_background h hop hsafe hs
      exact ⟨hsession, [], by rw [hprinted, List.append_nil]⟩
  | none =>
      cases event with
      | line input =>
          obtain ⟨hsession, printed, hprinted, -⟩ := session_line h hsafe hs
          exact ⟨hsession, [printed], hprinted⟩
      | autoFlush | flushInstall | compactL0toL1 | compactlevelN level => exact absurd hop (by simp [background])

/-- A session from any state that stands for a map. -/
theorem Session.of_exec {events : List ShellEvent} {s : Shell} (h : Session events s) {rest : List ShellEvent}
    {s' : Shell} (hsafe : Meets step Safe s rest) (hrun : exec step s rest = some s') :
    Session (events ++ rest) s' ∧ ∃ more, s'.printed = s.printed ++ more := by
  induction rest generalizing events s with
  | nil =>
      cases hrun
      exact ⟨by rwa [List.append_nil], [], (List.append_nil _).symm⟩
  | cons event rest ih =>
      rw [exec_cons] at hrun
      obtain ⟨t, ht, hrun⟩ := Option.bind_eq_some_iff.mp hrun
      obtain ⟨hsession, printed, hprinted⟩ := h.of_step hsafe.1 ht
      obtain ⟨hsession, more, hmore⟩ := ih hsession (hsafe.2 t ht) hrun
      rw [List.append_assoc] at hsession
      exact ⟨hsession, printed ++ more, by rw [hmore, hprinted, List.append_assoc]⟩

/-- **A session of the interactive program is a session on a map.** The answer to every line is its place in what is
    printed: a `get` prints the last value put under its key and nothing for a key that was deleted or never put, an
    `ls` lists, under every key, that value as the newest, and a line that is no command is refused. -/
theorem session_answers {cacheSize : Nat} {events : List ShellEvent} {s : Shell}
    (hrun : exec step (start cacheSize) events = some s) (hsafe : Meets step Safe (start cacheSize) events)
    {before after : List ShellEvent} {input : Bytes} (hline : events = before ++ .line input :: after) :
    ∃ t printed, exec step (start cacheSize) before = some t ∧
      s.printed[before.countP (·.isLine)]? = some printed ∧
      Answers t.engine (toldBy before) input printed := by
  subst hline
  obtain ⟨t, ht, hafter⟩ := exec_append_eq_some hrun
  obtain ⟨hbefore, hrest⟩ := meets_append.mp hsafe
  obtain ⟨hsession, -⟩ := (Session.start cacheSize).of_exec hbefore ht
  rw [List.nil_append] at hsession
  rw [exec_cons] at hafter
  obtain ⟨u, hu, hafter⟩ := Option.bind_eq_some_iff.mp hafter
  have hsafe' := hrest t ht
  obtain ⟨hsession', printed, hprinted, hanswer⟩ := session_line hsession hsafe'.1 hu
  obtain ⟨-, more, hmore⟩ := hsession'.of_exec (hsafe'.2 u hu) hafter
  refine ⟨t, printed, ht, ?_, hanswer⟩
  rw [hmore, hprinted, ← hsession.lines, List.append_assoc, List.getElem?_append_right (Nat.le_refl _), Nat.sub_self]
  rfl

/-- A level-0 compaction is safe while nothing is below level 1. -/
def Shallow (s : Shell) : ShellEvent → Prop
  | .line input => (parseCommand input).1 = .clear → s.engine.immutableMemtable.isNone
  | .compactL0toL1 => (s.engine.version.levels.drop 2).flatten.isEmpty
  | _ => True

instance (s : Shell) : ∀ event, Decidable (s.Shallow event)
  | .line _ => inferInstanceAs (Decidable (_ → _))
  | .compactL0toL1 => inferInstanceAs (Decidable (_ = _))
  | .autoFlush | .flushInstall | .compactlevelN _ => isTrue trivial

/-- An event that is shallow loses nothing. -/
theorem Shallow.safe {s : Shell} {event : ShellEvent} (h : s.Shallow event) : s.Safe event := by
  cases event with
  | line input => exact fun hclear => Option.isNone_iff_eq_none.mp (h hclear)
  | autoFlush | flushInstall | compactlevelN level =>
      rintro op ⟨rfl⟩
      trivial
  | compactL0toL1 =>
      rintro op ⟨rfl⟩ - k e - - - l e' hl ⟨m, hm, -⟩
      have hnil : (s.engine.version.levels.drop 2).flatten = [] := List.isEmpty_iff.mp h
      rw [TableVersion.level, List.getD_eq_getElem?_getD] at hm
      cases hlevel : s.engine.version.levels[l]? with
      | none =>
          rw [hlevel] at hm
          exact absurd hm List.not_mem_nil
      | some files =>
          rw [hlevel] at hm
          have hfiles : files ∈ s.engine.version.levels.drop 2 := by
            refine List.mem_of_getElem? (i := l - 2) ?_
            rw [List.getElem?_drop, Nat.add_sub_cancel' hl, hlevel]
          exact absurd (List.mem_flatten_of_mem hfiles hm) (by rw [hnil]; exact List.not_mem_nil)

/-- A key is put, flushed, moved down, overwritten, read, and read again after a `clear`. -/
def readAndClear : List ShellEvent :=
  [.line (Bytes.ascii "put(\"a\", \"1\")"), .line (Bytes.ascii "flush"), .flushInstall, .compactL0toL1,
    .line (Bytes.ascii "put(\"a\", \"2\")"), .line (Bytes.ascii "get(\"a\")"), .line (Bytes.ascii "clear"),
    .line (Bytes.ascii "get(\"a\")")]

omit [Platform] in
theorem session_answers_readAndClear : letI := Platform.sample
    ∃ s, exec step (start 8) readAndClear = some s ∧ ∃ t printed,
      exec step (start 8) (readAndClear.take 5) = some t ∧ s.printed[3]? = some printed ∧
      Answers t.engine (toldBy (readAndClear.take 5)) (Bytes.ascii "get(\"a\")") printed := by
  have hshallow : letI := Platform.sample; Meets step Shallow (start 8) readAndClear := by decide +kernel
  let := Platform.sample
  have hrun : (exec step (start 8) readAndClear).isSome := by decide +kernel
  obtain ⟨s, hs⟩ := Option.isSome_iff_exists.mp hrun
  have hsafe := hshallow.imp (I := fun _ => True) trivial (fun _ _ _ _ _ _ => trivial) fun _ _ _ h => h.safe
  have hline : readAndClear = readAndClear.take 5 ++ .line (Bytes.ascii "get(\"a\")") :: readAndClear.drop 6 := rfl
  exact ⟨s, hs, session_answers hs hsafe hline⟩

end Shell

end KvStorageEngine
