import KvStorageEngine.Distributed.WireFormat

/-!
# `Distributed.Correctness.WireRoundTrip` — what the follower makes of the stream

Three formats inside each other are read back: the fields of an entry (`deserialize_serialize_entry`), the entries of a
message (`deserialize_serialize`), and the lines of the stream (`handleConnection_flatMap`). A field is either a number,
which has no bar in it, or stands behind its length, so bars in keys and values do no harm; only the newline does, since
the line framing does not count.

Proofs follow the reader's position: `At data pos rest` says what is left of the text there.
-/

namespace KvStorageEngine.Distributed.Wire

open TextStream LineFraming

/-! ## A. Positions

A token ends at the next bar, a text at its declared length; both leave the reader behind what they read. -/

/-- What is left of a text at a position. -/
def At (data : Bytes) (pos : Nat) (rest : Bytes) : Prop := pos ≤ data.length ∧ data.drop pos = rest

theorem at_zero (data : Bytes) : At data 0 data := ⟨Nat.zero_le _, rfl⟩

section At

variable {data tok rest : Bytes} {pos n : Nat}

theorem At.length_le (h : At data pos rest) : pos + rest.length ≤ data.length := by
  obtain ⟨hpos, rfl⟩ := h
  rw [List.length_drop]
  omega

theorem At.skip (h : At data pos (tok ++ rest)) : At data (pos + tok.length) rest := by
  have hle := h.length_le
  rw [List.length_append] at hle
  refine ⟨by omega, ?_⟩
  rw [← List.drop_drop, h.2, List.drop_left]

/-- A token without a bar is read up to its bar. -/
theorem At.token (h : At data pos (tok ++ 124 :: rest)) (htok : (124 : UInt8) ∉ tok) :
    nextToken data pos = some (tok, pos + tok.length + 1) ∧ At data (pos + tok.length + 1) rest := by
  have hfind : (tok ++ 124 :: rest).findIdx? (· = 124) = some tok.length := by
    have hnone : tok.findIdx? (· = 124) = none := by
      rw [List.findIdx?_eq_none_iff]
      intro b hb
      have hne : b ≠ 124 := fun he => htok (he ▸ hb)
      simpa using hne
    rw [List.findIdx?_append, hnone]
    simp [List.findIdx?_cons]
  refine ⟨?_, ?_⟩
  · unfold nextToken
    rw [h.2, hfind, Option.map_some, List.take_left]
  · have hskip := h.skip
    rw [← List.singleton_append] at hskip
    exact hskip.skip

theorem bar_notMem_toDecimal (n : Nat) : (124 : UInt8) ∉ Bytes.toDecimal n := notMem_toDecimal (by decide) n

/-- A number and the bar behind it. -/
theorem At.number (h : At data pos (Bytes.toDecimal n ++ 124 :: rest)) (hn : n < 2 ^ 64) :
    ∃ tok pos', nextToken data pos = some (tok, pos') ∧ stoull tok = some n ∧ At data pos' rest := by
  obtain ⟨htok, hat⟩ := h.token (bar_notMem_toDecimal n)
  exact ⟨_, _, htok, stoull_toDecimal hn, hat⟩

/-- A text behind its length. -/
theorem At.text (h : At data pos (tok ++ rest)) : substr data pos tok.length = some tok := by
  unfold substr
  rw [if_pos h.1, h.2, List.take_left]

/-- The reader goes on behind a text. -/
theorem At.past (h : At data pos (tok ++ 124 :: rest)) (hdata : data.length < 2 ^ 64) :
    At data (advance pos tok.length) rest := by
  have hle := h.length_le
  rw [List.length_append, List.length_cons] at hle
  unfold advance
  rw [Nat.mod_eq_of_lt (by omega), ← Nat.add_assoc]
  have hskip := h.skip
  rw [← List.singleton_append] at hskip
  exact hskip.skip

end At

/-! ## B. Entries and messages

The reader goes through the fields in the order in which they were written. An empty list of entries is the one that
does not come back, for no bar follows the number of entries. -/

theorem ascii_bar : Bytes.ascii "|" = [124] := rfl

/-- The cast back to the enumeration. -/
theorem cast_op (op : UInt8) : UInt8.ofNat (((op.toNat : Int) % 256).toNat) = op := by
  have h : ((op.toNat : Int) % 256).toNat = op.toNat := by
    have := op.toNat_lt
    omega
  rw [h, UInt8.ofNat_toNat]

/-- What stands in front of an entry's value. -/
def LogEntry.front (e : LogEntry) : Bytes :=
  Bytes.toDecimal e.term.toNat ++ Bytes.ascii "|" ++ (Bytes.toDecimal e.index.toNat ++ Bytes.ascii "|" ++
    (Bytes.toDecimal e.op.toNat ++ Bytes.ascii "|" ++ (Bytes.toDecimal e.key.length ++ Bytes.ascii "|" ++
      (e.key ++ Bytes.ascii "|" ++ (Bytes.toDecimal e.value.length ++ Bytes.ascii "|")))))

theorem LogEntry.serialize_eq (e : LogEntry) : e.serialize = e.front ++ e.value := by
  unfold serialize front
  simp only [List.append_assoc]

theorem LogEntry.front_append (e : LogEntry) (v : Bytes) : e.front ++ v =
    Bytes.toDecimal e.term.toNat ++ 124 :: (Bytes.toDecimal e.index.toNat ++ 124 :: (Bytes.toDecimal e.op.toNat ++
      124 :: (Bytes.toDecimal e.key.length ++ 124 :: (e.key ++ 124 :: (Bytes.toDecimal e.value.length ++ 124 :: v))))) := by
  unfold front
  simp only [ascii_bar, List.append_assoc, List.cons_append, List.nil_append]

theorem LogEntry.lengths_lt {e : LogEntry} (h : e.serialize.length < 2 ^ 64) :
    e.key.length < 2 ^ 64 ∧ e.value.length < 2 ^ 64 := by
  unfold serialize at h
  simp only [List.length_append] at h
  omega

/-- An entry comes back with as much of its value as there is. -/
theorem deserialize_front_append {e : LogEntry} {v : Bytes} (h : e.serialize.length < 2 ^ 64) (hv : v <+: e.value) :
    LogEntry.deserialize (e.front ++ v) = some { e with value := v } := by
  obtain ⟨hkey, hvalue⟩ := e.lengths_lt h
  have hdata : (e.front ++ v).length < 2 ^ 64 := by
    rw [e.serialize_eq, List.length_append] at h
    have := hv.length_le
    rw [List.length_append]
    omega
  generalize hd : e.front ++ v = data at hdata ⊢
  have hat := at_zero data
  conv at hat => arg 3; rw [← hd, e.front_append]
  obtain ⟨termStr, p₁, hterm, hterm', hat⟩ := hat.number e.term.toNat_lt
  obtain ⟨indexStr, p₂, hindex, hindex', hat⟩ := hat.number e.index.toNat_lt
  obtain ⟨hop, hat⟩ := hat.token (bar_notMem_toDecimal _)
  have hop' := stoi_toDecimal (n := e.op.toNat) (by have := e.op.toNat_lt; omega)
  obtain ⟨keyLenStr, p₄, hkeyLen, hkeyLen', hat⟩ := hat.number hkey
  have hsubstr := hat.text
  obtain ⟨valueLenStr, p₅, hvalueLen, hvalueLen', hat⟩ := (hat.past hdata).number hvalue
  have hlast : substr data p₅ e.value.length = some v := by
    unfold substr
    rw [if_pos hat.1, hat.2, List.take_of_length_le hv.length_le]
  unfold LogEntry.deserialize
  simp only [hterm, hindex, hop, hterm', hindex', hop', hkeyLen, hkeyLen', hsubstr, hvalueLen, hvalueLen', hlast,
    Option.bind_eq_bind, Option.bind_some, cast_op, UInt64.ofNat_toNat]

/-- **An entry comes back.** -/
theorem deserialize_serialize_entry {e : LogEntry} (h : e.serialize.length < 2 ^ 64) :
    LogEntry.deserialize e.serialize = some e := by
  rw [e.serialize_eq, deserialize_front_append h (List.prefix_refl _)]

/-- The entries of a message, without the bar in front of the first. -/
def entriesText : List LogEntry → Bytes
  | [] => []
  | e :: es => entryText e ++ es.flatMap fun e => Bytes.ascii "|" ++ entryText e

/-- The entries come back one after the other. -/
theorem deserializeEntries_of_at {data : Bytes} (hdata : data.length < 2 ^ 64) {entries : List LogEntry} {pos : Nat}
    (h : At data pos (entriesText entries)) : deserializeEntries data entries.length pos = some entries := by
  induction entries generalizing pos with
  | nil => rfl
  | cons e es ih =>
      rw [entriesText, entryText, ascii_bar, List.append_assoc, List.append_assoc, List.singleton_append] at h
      have hlen : e.serialize.length < 2 ^ 64 := by
        have hle := h.length_le
        simp only [List.length_append, List.length_cons] at hle
        omega
      obtain ⟨tok, pos', htok, htok', hat⟩ := h.number hlen
      have htext := hat.text
      have hrest : deserializeEntries data es.length (advance pos' e.serialize.length) = some es := by
        cases es with
        | nil => rfl
        | cons e' es' =>
            apply ih
            rw [List.flatMap_cons, List.append_assoc, List.singleton_append] at hat
            exact hat.past hdata
      rw [List.length_cons]
      simp only [deserializeEntries, htok, htok', htext, deserialize_serialize_entry hlen, hrest,
        Option.bind_eq_bind, Option.bind_some]

/-- A message has no more entries than bytes. -/
theorem length_entries_le (m : ReplicationMessage) : m.entries.length ≤ m.serialize.length := by
  have hle : ∀ es : List LogEntry,
      es.length ≤ (es.flatMap fun e => Bytes.ascii "|" ++ entryText e).length := by
    intro es
    induction es with
    | nil => exact Nat.zero_le _
    | cons e es ih =>
        rw [List.flatMap_cons, List.length_append, List.length_append, ascii_bar, List.length_cons,
          List.length_singleton]
        rw [ascii_bar] at ih
        omega
  have := hle m.entries
  unfold ReplicationMessage.serialize
  simp only [List.length_append]
  omega

/-- **A message comes back**, if it has an entry. -/
theorem deserialize_serialize {m : ReplicationMessage} (hne : m.entries ≠ []) (h : m.serialize.length < 2 ^ 64) :
    ReplicationMessage.deserialize m.serialize = some m := by
  have hnum := lt_of_le_of_lt (length_entries_le m) h
  obtain ⟨term, leaderCommit, entries⟩ := m
  cases entries with
  | nil => exact absurd rfl hne
  | cons e es =>
      generalize hdata : ReplicationMessage.serialize ⟨term, leaderCommit, e :: es⟩ = data at h ⊢
      have hat := at_zero data
      conv at hat => arg 3; rw [← hdata]; unfold ReplicationMessage.serialize
      simp only [ascii_bar, List.flatMap_cons, List.append_assoc, List.singleton_append] at hat
      obtain ⟨termStr, p₁, hterm, hterm', hat⟩ := hat.number term.toNat_lt
      obtain ⟨commitStr, p₂, hcommit, hcommit', hat⟩ := hat.number leaderCommit.toNat_lt
      obtain ⟨numStr, p₃, hnumStr, hnumStr', hat⟩ := hat.number hnum
      have hentries : deserializeEntries data (e :: es).length p₃ = some (e :: es) :=
        deserializeEntries_of_at h hat
      unfold ReplicationMessage.deserialize
      simp only [hterm, hterm', hcommit, hcommit', hnumStr, hnumStr', hentries, Option.bind_eq_bind, Option.bind_some,
        UInt64.ofNat_toNat]

/-- Without an entry, the bar behind the number of entries is missing. -/
theorem deserialize_serialize_nil {m : ReplicationMessage} (hnil : m.entries = []) :
    ReplicationMessage.deserialize m.serialize = none := by
  obtain ⟨term, leaderCommit, entries⟩ := m
  obtain rfl : entries = [] := hnil
  generalize hdata : ReplicationMessage.serialize ⟨term, leaderCommit, []⟩ = data
  have hat := at_zero data
  conv at hat => arg 3; rw [← hdata]; unfold ReplicationMessage.serialize
  simp only [ascii_bar, List.flatMap_nil, List.append_assoc, List.singleton_append, List.append_nil] at hat
  obtain ⟨termStr, p₁, hterm, hterm', hat⟩ := hat.number term.toNat_lt
  obtain ⟨commitStr, p₂, hcommit, hcommit', hat⟩ := hat.number leaderCommit.toNat_lt
  have hnone : nextToken data p₂ = none := by
    unfold nextToken
    rw [hat.2, Option.map_eq_none_iff, List.findIdx?_eq_none_iff]
    intro b hb
    have hne : b ≠ 124 := fun he => bar_notMem_toDecimal _ (he ▸ hb)
    simpa using hne
  unfold ReplicationMessage.deserialize
  simp only [hterm, hterm', hcommit, hcommit', hnone, Option.bind_eq_bind, Option.bind_some, Option.bind_none]

/-- **A message comes back exactly if it has an entry.** -/
theorem deserialize_serialize_iff {m : ReplicationMessage} (h : m.serialize.length < 2 ^ 64) :
    ReplicationMessage.deserialize m.serialize = some m ↔ m.entries ≠ [] := by
  constructor
  · intro hsome hnil
    rw [deserialize_serialize_nil hnil] at hsome
    exact absurd hsome (by simp)
  · intro hne
    exact deserialize_serialize hne h

/-- A value of bars, digits, a newline and a zero, next to an entry without key and value. -/
theorem deserialize_serialize_iff_two :
    let m : ReplicationMessage :=
      ⟨18446744073709551615, 3, [⟨1, 1, 1, Bytes.ascii "k|", [124, 49, 10, 0]⟩, ⟨1, 2, 2, [], []⟩]⟩
    ReplicationMessage.deserialize m.serialize = some m ↔ m.entries ≠ [] :=
  deserialize_serialize_iff (by decide)

/-- A heartbeat is refused. -/
theorem heartbeat_not_deserialized :
    let m : ReplicationMessage := ⟨1, 0, []⟩
    ReplicationMessage.deserialize m.serialize ≠ some m := by
  decide

/-! ## C. The stream

A message without newlines is a line, and the line framing is that of `Lib.LineFraming`, which does not depend on how
the stream is cut. -/

/-- The keys and values of a message contain no newline. -/
def ReplicationMessage.OneLine (m : ReplicationMessage) : Prop :=
  ∀ e ∈ m.entries, (10 : UInt8) ∉ e.key ∧ (10 : UInt8) ∉ e.value

instance (m : ReplicationMessage) : Decidable m.OneLine :=
  inferInstanceAs (Decidable (∀ e ∈ m.entries, (10 : UInt8) ∉ e.key ∧ (10 : UInt8) ∉ e.value))

/-- Nothing but keys and values can put a newline into a message. -/
theorem newline_notMem_serialize {m : ReplicationMessage} (h : m.OneLine) : (10 : UInt8) ∉ m.serialize := by
  have hentry : ∀ e ∈ m.entries, (10 : UInt8) ∉ Bytes.ascii "|" ++ entryText e := by
    intro e he
    obtain ⟨hkey, hvalue⟩ := h e he
    unfold entryText LogEntry.serialize
    simp only [ascii_bar, List.mem_append, List.mem_singleton, newline_notMem_toDecimal, hkey, hvalue]
    decide
  unfold ReplicationMessage.serialize
  simp only [ascii_bar, List.mem_append, List.mem_singleton, newline_notMem_toDecimal, List.mem_flatMap]
  rintro ((h | h) | (h | h) | h | ⟨e, he, h⟩)
  · exact h
  · exact absurd h (by decide)
  · exact h
  · exact absurd h (by decide)
  · exact h
  · apply hentry e he
    simpa [ascii_bar] using h

/-- The line of a message. -/
def line (m : ReplicationMessage) : Bytes := m.serialize ++ Bytes.ascii "\n"

/-- What the follower does with a line that is a message. -/
def eventsOf (m : ReplicationMessage) : List FollowerEvent := [.handleReplication m, .sendAck]

theorem serialize_ne_nil (m : ReplicationMessage) : m.serialize ≠ [] := by
  unfold ReplicationMessage.serialize
  simp [toDecimal_ne_nil]

/-- The line of a message is handled as that message. -/
theorem handleLine_serialize {m : ReplicationMessage} (hne : m.entries ≠ [])
    (h : m.serialize.length < 2 ^ 64) : handleLine m.serialize = eventsOf m := by
  unfold handleLine
  rw [if_neg (by simpa using serialize_ne_nil m), deserialize_serialize hne h]
  rfl

/-- The rounds of `handleConnection`, in terms of the lines. -/
theorem foldl_receive (chunks : List Bytes) (s : List Bytes × Bytes) :
    chunks.foldl FollowerConnection.receive ⟨s.2, s.1.flatMap handleLine⟩ =
      ⟨(chunks.foldl (feed isNewline) s).2, (chunks.foldl (feed isNewline) s).1.flatMap handleLine⟩ := by
  induction chunks generalizing s with
  | nil => rfl
  | cons chunk chunks ih =>
      rw [List.foldl_cons, List.foldl_cons, ← ih]
      unfold feed FollowerConnection.receive
      rw [List.flatMap_append]

/-- However a stream is cut, the follower sees its lines. -/
theorem handleConnection_eq (chunks : List Bytes) :
    handleConnection chunks = ⟨(split isNewline chunks.flatten).2,
      (split isNewline chunks.flatten).1.flatMap handleLine⟩ := by
  have h := foldl_receive chunks ([], [])
  rw [foldl_feed (by simp)] at h
  unfold handleConnection
  simpa [feed] using h

/-- **The stream comes back.** Messages with entries and without newlines, each followed by a newline, are handled one by
    one and in order, and each is acknowledged once, in whatever pieces the stream arrives. -/
theorem handleConnection_flatMap {msgs : List ReplicationMessage} (hne : ∀ m ∈ msgs, m.entries ≠ [])
    (hline : ∀ m ∈ msgs, m.OneLine) (hlen : ∀ m ∈ msgs, m.serialize.length < 2 ^ 64) {chunks : List Bytes}
    (hchunks : chunks.flatten = msgs.flatMap line) :
    handleConnection chunks = ⟨[], msgs.flatMap eventsOf⟩ := by
  have hsplit : split isNewline (msgs.flatMap line) = (msgs.map ReplicationMessage.serialize, []) := by
    have h : split isNewline ((msgs.map ReplicationMessage.serialize).flatMap fun l => l ++ [10]) =
        (msgs.map ReplicationMessage.serialize, []) := split_flatMap (fun l hl b hb => ?_) rfl
    · rwa [List.flatMap_map] at h
    · obtain ⟨m, hm, rfl⟩ := List.mem_map.mp hl
      have hb' : b ≠ 10 := fun he => newline_notMem_serialize (hline m hm) (he ▸ hb)
      simpa [isNewline] using hb'
  rw [handleConnection_eq, hchunks, hsplit, List.flatMap_map]
  congr 1
  apply List.flatMap_congr
  intro m hm
  exact handleLine_serialize (hne m hm) (hlen m hm)

/-- Two messages, the first with a bar and a value of length zero, cut in a length and right at the newline. -/
theorem handleConnection_flatMap_two :
    let msgs : List ReplicationMessage :=
      [⟨1, 0, [⟨1, 1, 1, Bytes.ascii "a|b", []⟩]⟩, ⟨1, 1, [⟨1, 2, 2, Bytes.ascii "a", []⟩]⟩]
    let stream := msgs.flatMap line
    handleConnection [stream.take 7, (stream.drop 7).take 17, stream.drop 24] = ⟨[], msgs.flatMap eventsOf⟩ :=
  handleConnection_flatMap (by decide) (by decide) (by decide) (by decide)

end KvStorageEngine.Distributed.Wire
