import KvStorageEngine.Distributed.Connection
import KvStorageEngine.Distributed.Correctness.WireRoundTrip

/-!
# `Distributed.Correctness.WholeLines` — which lines the follower receives

`sendToPeer` takes any positive result of `send` for success. After a short one the rest of the message is never sent,
and the next message goes out behind what was, so that the two share a line. `wholeLines_iff` says which runs keep the
lines whole: each `send` that lets a newline through is of a message without newlines of its own, and finds no cut
message in front of it.

The follower has no say in this, so the proof is about the forward stream alone (`stream`), which only `send` changes.
-/

namespace KvStorageEngine.Distributed.Wire.Connection

open LineFraming

/-- All that was put on the wire, received or not. -/
def stream (s : Connection) : Stream := s.received ++ s.wire

/-- The complete lines of a stream. -/
def lines (st : Stream) : List Stream := (split endsLine st).1

/-- The line that the `i`-th message should be. -/
def lineOf (m : ReplicationMessage × Nat) : Stream := tag m.2 m.1.serialize

/-- The lines are those of some of the messages, in the order of sending. -/
def AreWhole (sent : List ReplicationMessage) (ls : List Stream) : Prop :=
  ∃ ms : List (ReplicationMessage × Nat), ms.Sublist sent.zipIdx ∧ ls = ms.map lineOf

/-- The complete lines the follower has received are whole messages, also if it receives some more of the wire. -/
def WholeLines (s : Connection) : Prop :=
  ∀ got, s.received <+: got → got <+: s.stream → AreWhole s.sent (lines got)

/-- If a newline goes out with this `send`, it is the one behind the message, and no cut message is in front of it. -/
def CleanSend (s : Connection) : ConnectionOp → Prop
  | .send msg k =>
    (∃ b ∈ s.written msg k, endsLine b = true) → (split endsLine s.stream).2 = [] ∧ (10 : UInt8) ∉ msg.serialize
  | _ => True

instance (s : Connection) (op : ConnectionOp) : Decidable (s.CleanSend op) := by
  cases op <;> unfold CleanSend <;> infer_instance

/-! ## A. The forward stream

Every byte carries the number of the message it is from, so that a line can be compared with the messages. `receive`
moves bytes along the stream and changes nothing in it. -/

theorem mem_tag {i : Nat} {data : Bytes} {b : Nat × UInt8} : b ∈ tag i data ↔ b.1 = i ∧ b.2 ∈ data := by
  obtain ⟨j, c⟩ := b
  simp [tag, eq_comm, and_comm]

/-- What a step adds to the stream. -/
def added (s : Connection) : ConnectionOp → Stream
  | .send msg k => s.written msg k
  | _ => []

/-- The messages a step adds. -/
def asked : ConnectionOp → List ReplicationMessage
  | .send msg _ => [msg]
  | _ => []

/-- Only a `send` adds to the stream. -/
theorem stream_of_step {s s' : Connection} {op : ConnectionOp} (h : s.step op = some s') :
    s'.stream = s.stream ++ s.added op ∧ s'.sent = s.sent ++ asked op := by
  cases Effect.of_step h with
  | @notSent msg k _ _ hwritten =>
      refine ⟨?_, rfl⟩
      have hnil : s.written msg k = [] := by
        unfold written
        split_ifs with hconn
        · rw [hwritten hconn, List.take_zero]
          rfl
        · rfl
      rw [added, hnil, List.append_nil]
      rfl
  | @sent msg k _ hconn =>
      refine ⟨?_, rfl⟩
      have hwritten : s.written msg k = tag s.sent.length ((data msg).take k) := if_pos hconn
      rw [added, hwritten]
      exact (List.append_assoc _ _ _).symm
  | recvAck => exact ⟨(List.append_nil _).symm, (List.append_nil _).symm⟩
  | recvTimeout => exact ⟨(List.append_nil _).symm, (List.append_nil _).symm⟩
  | deliver =>
      refine ⟨?_, (List.append_nil _).symm⟩
      unfold stream added
      rw [List.append_assoc, List.take_append_drop, List.append_nil]
  | skip => exact ⟨(List.append_nil _).symm, (List.append_nil _).symm⟩
  | handle => exact ⟨(List.append_nil _).symm, (List.append_nil _).symm⟩
  | sendAck => exact ⟨(List.append_nil _).symm, (List.append_nil _).symm⟩

/-- The bytes of a stream are of messages that were sent. -/
def Tagged (s : Connection) : Prop := ∀ b ∈ s.stream, b.1 < s.sent.length

/-- Every byte carries the number of a message that was sent. -/
theorem tagged_of_step {s s' : Connection} {op : ConnectionOp} (h : s.step op = some s') (ht : s.Tagged) :
    s'.Tagged := by
  obtain ⟨hstream, hsent⟩ := stream_of_step h
  unfold Tagged
  rw [hstream, hsent, List.length_append]
  intro b hb
  rcases List.mem_append.mp hb with hb | hb
  · have := ht b hb
    omega
  · cases op with
    | send msg k =>
        unfold added written at hb
        split_ifs at hb with hconn
        · rw [(mem_tag.mp hb).1]
          exact Nat.lt_succ_self _
        · exact absurd hb List.not_mem_nil
    | _ => exact absurd hb List.not_mem_nil

/-- The lines of a part of the stream come first. -/
theorem prefix_lines {a b : Stream} (h : a <+: b) : lines a <+: lines b := by
  obtain ⟨c, rfl⟩ := h
  unfold lines
  rw [split_append]
  exact List.prefix_append _ _

theorem AreWhole.of_prefix {sent : List ReplicationMessage} {ls ls' : List Stream} (h : AreWhole sent ls')
    (hpre : ls <+: ls') : AreWhole sent ls := by
  obtain ⟨ms, hms, rfl⟩ := h
  obtain ⟨n, rfl⟩ : ∃ n, ls = (ms.map lineOf).take n := ⟨_, List.prefix_iff_eq_take.mp hpre⟩
  exact ⟨ms.take n, (List.take_sublist n ms).trans hms, (List.map_take).symm⟩

theorem wholeLines_iff_stream {s : Connection} : s.WholeLines ↔ AreWhole s.sent (lines s.stream) := by
  constructor
  · intro h
    exact h _ (List.prefix_append _ _) (List.prefix_refl _)
  · intro h got _ hgot
    exact h.of_prefix (prefix_lines hgot)

/-! ## B. One `send`

What is written is a beginning of the message and its newline. A line is whole if it has all of one message, so
whether a `send` keeps the lines whole depends on what is in front of it on its first line. -/

theorem zipIdx_concat (sent : List ReplicationMessage) (msg : ReplicationMessage) :
    (sent ++ [msg]).zipIdx = sent.zipIdx ++ [(msg, sent.length)] := by
  rw [List.zipIdx_append]
  simp

theorem bytes_tag (i : Nat) (data : Bytes) : bytes (tag i data) = data := by
  unfold bytes tag
  rw [List.map_map]
  exact List.map_id data

theorem not_endsLine_of_notMem {i : Nat} {data : Bytes} (h : (10 : UInt8) ∉ data) :
    ∀ b ∈ tag i data, endsLine b = false := by
  intro b hb
  have hne : b.2 ≠ 10 := fun he => h (he ▸ (mem_tag.mp hb).2)
  simpa [endsLine, isNewline] using hne

/-- A message does not begin with a newline. -/
theorem data_ne_newline_cons (msg : ReplicationMessage) (l : Bytes) : data msg ≠ 10 :: l := by
  unfold data ReplicationMessage.serialize
  rcases htext : Bytes.toDecimal msg.term.toNat with _ | ⟨b, text⟩
  · exact absurd htext (TextStream.toDecimal_ne_nil _)
  · have hb : b ≠ 10 := fun he => TextStream.newline_notMem_toDecimal _ (by rw [htext, he]; exact List.mem_cons_self)
    simp [hb]

/-- What goes out up to the first newline, if there is one. -/
theorem split_written {i k : Nat} {msg : ReplicationMessage} (h : ∃ b ∈ tag i ((data msg).take k), endsLine b = true) :
    ∃ front e tail, tag i ((data msg).take k) = tag i front ++ e :: tail ∧ (10 : UInt8) ∉ front ∧ endsLine e = true ∧
      front ≠ [] ∧ ((10 : UInt8) ∉ msg.serialize → front = msg.serialize ∧ tail = []) := by
  obtain ⟨b, hb, he⟩ := h
  have hmem : (10 : UInt8) ∈ (data msg).take k := by
    have : b.2 = 10 := by simpa [endsLine, isNewline] using he
    exact this ▸ (mem_tag.mp hb).2
  obtain ⟨front, tail, htake, hfront⟩ := List.eq_append_cons_of_mem hmem
  have hdata : data msg = front ++ 10 :: (tail ++ (data msg).drop k) := by
    conv_lhs => rw [← List.take_append_drop k (data msg), htake]
    rw [List.append_assoc, List.cons_append]
  refine ⟨front, (i, 10), tag i tail, ?_, hfront, rfl, ?_, ?_⟩
  · rw [htake]
    simp [tag]
  · rintro rfl
    exact data_ne_newline_cons msg _ hdata
  · intro hline
    have hnot : ∀ {l : Bytes}, (10 : UInt8) ∉ l → ∀ b ∈ l, isNewline b = false := fun hl b hb => by
      have hne : b ≠ 10 := fun he => hl (he ▸ hb)
      simpa [isNewline] using hne
    have hdata' : msg.serialize ++ 10 :: [] = front ++ 10 :: (tail ++ (data msg).drop k) := hdata
    have hfirst := congrArg (fun l => (split isNewline l).1) hdata'
    rw [split_line (hnot hline) rfl, split_line (hnot hfront) rfl] at hfirst
    obtain rfl : msg.serialize = front := (List.cons.inj hfirst).1
    refine ⟨rfl, ?_⟩
    have htail : [] = tail ++ (data msg).drop k := (List.cons.inj (List.append_cancel_left hdata')).2
    rw [(List.append_eq_nil_iff.mp htail.symm).1]
    rfl

/-- A line with a byte of the last message in it that is a message is that message, and nothing else. -/
theorem whole_of_mem {sent : List ReplicationMessage} {msg : ReplicationMessage} {ms : List (ReplicationMessage × Nat)}
    (hms : ms.Sublist (sent ++ [msg]).zipIdx) {begun : Stream} (hbegun : ∀ b ∈ begun, b.1 < sent.length)
    {front : Bytes} (hne : front ≠ []) (hmem : begun ++ tag sent.length front ∈ ms.map lineOf) :
    begun = [] ∧ front = msg.serialize := by
  obtain ⟨⟨m, j⟩, hmj, hl⟩ := List.mem_map.mp hmem
  have hget : (sent ++ [msg])[j]? = some m := List.mem_zipIdx_iff_getElem?.mp (hms.subset hmj)
  have hall : ∀ b ∈ begun ++ tag sent.length front, b.1 = j := by
    intro b hb
    rw [← hl] at hb
    exact (mem_tag.mp hb).1
  obtain ⟨c, front', rfl⟩ := List.exists_cons_of_ne_nil hne
  obtain rfl : sent.length = j :=
    hall (sent.length, c) (List.mem_append_right _ (mem_tag.mpr ⟨rfl, List.mem_cons_self⟩))
  have hempty : begun = [] := by
    rw [List.eq_nil_iff_forall_not_mem]
    intro b hb
    have hlt := hbegun b hb
    have heq := hall b (List.mem_append_left _ hb)
    omega
  obtain rfl : msg = m := by simpa using hget
  rw [hempty, List.nil_append] at hl
  have hbytes := congrArg bytes hl
  rw [lineOf, bytes_tag, bytes_tag] at hbytes
  exact ⟨hempty, hbytes.symm⟩

/-- **One `send`** keeps the lines whole exactly if it is clean. -/
theorem areWhole_send_iff {s : Connection} {msg : ReplicationMessage} {k : Nat} (htag : s.Tagged)
    (hwhole : AreWhole s.sent (lines s.stream)) :
    AreWhole (s.sent ++ [msg]) (lines (s.stream ++ s.written msg k)) ↔ s.CleanSend (.send msg k) := by
  obtain ⟨ms, hms, hlines⟩ := hwhole
  have hrest : ∀ b ∈ (split endsLine s.stream).2, endsLine b = false := not_sep_of_mem_rest s.stream
  have happend : lines (s.stream ++ s.written msg k) =
      ms.map lineOf ++ (split endsLine ((split endsLine s.stream).2 ++ s.written msg k)).1 := by
    rw [← hlines]
    unfold lines
    rw [split_append]
  by_cases hnew : ∃ b ∈ s.written msg k, endsLine b = true
  · have hconn : s.connected = true := by
      by_contra hconn
      simp [written, hconn] at hnew
    have hwritten : s.written msg k = tag s.sent.length ((data msg).take k) := if_pos hconn
    rw [hwritten] at hnew
    obtain ⟨front, e, tail, htake, hfront, he, hne, hline⟩ := split_written hnew
    rw [← hwritten] at htake hnew
    have hfirst : ∃ more, (split endsLine ((split endsLine s.stream).2 ++ s.written msg k)).1 =
        ((split endsLine s.stream).2 ++ tag s.sent.length front) :: more ∧ (tail = [] → more = []) := by
      refine ⟨(split endsLine tail).1, ?_, fun h => by rw [h]; rfl⟩
      rw [htake, ← List.append_assoc, split_line (fun b hb => ?_) he]
      rcases List.mem_append.mp hb with hb | hb
      · exact hrest b hb
      · exact not_endsLine_of_notMem hfront b hb
    obtain ⟨more, hmore, hnil⟩ := hfirst
    rw [happend, hmore]
    constructor
    · rintro ⟨ms', hms', heq⟩ -
      have hmem : (split endsLine s.stream).2 ++ tag s.sent.length front ∈ ms'.map lineOf := by
        rw [← heq]
        simp
      obtain ⟨hempty, rfl⟩ := whole_of_mem hms'
        (fun b hb => htag b ((rest_suffix s.stream).subset hb)) hne hmem
      exact ⟨hempty, hfront⟩
    · intro hclean
      obtain ⟨hempty, hone⟩ := hclean hnew
      obtain ⟨rfl, htail⟩ := hline hone
      refine ⟨ms ++ [(msg, s.sent.length)], ?_, ?_⟩
      · rw [zipIdx_concat]
        exact hms.append_right _
      · rw [hnil htail, hempty, List.nil_append, List.map_append]
        rfl
  · have hnone : (split endsLine ((split endsLine s.stream).2 ++ s.written msg k)).1 = [] := by
      rw [split_of_not fun b hb => ?_]
      rcases List.mem_append.mp hb with hb | hb
      · exact hrest b hb
      · by_contra he
        exact hnew ⟨b, hb, by simpa using he⟩
    rw [happend, hnone, List.append_nil]
    refine iff_of_true ⟨ms, ?_, rfl⟩ fun h => absurd h hnew
    rw [zipIdx_concat]
    exact hms.trans (List.sublist_append_left _ _)

/-! ## C. Runs -/

/-- A step keeps the lines whole exactly if it is a clean `send`. -/
theorem wholeLines_step_iff {s s' : Connection} {op : ConnectionOp} (htag : s.Tagged) (hwhole : s.WholeLines)
    (h : s.step op = some s') : s'.WholeLines ↔ s.CleanSend op := by
  obtain ⟨hstream, hsent⟩ := stream_of_step h
  rw [wholeLines_iff_stream] at hwhole ⊢
  rw [hstream, hsent]
  cases op with
  | send msg k => exact areWhole_send_iff htag hwhole
  | _ =>
      refine iff_of_true (show AreWhole (s.sent ++ []) (lines (s.stream ++ [])) from ?_) trivial
      rwa [List.append_nil, List.append_nil]

/-- **Which runs keep the lines whole.** The lines the follower receives are whole messages throughout a run if and only
    if each `send` that lets a newline through is of a message without newlines of its own, and finds no cut message in
    front of it. -/
theorem wholeLines_iff {as : List ConnectionOp} {s : Connection} (h : Run.exec step init as = some s) :
    Run.Along step (fun _ => WholeLines) init as ↔ Run.Meets step CleanSend init as := by
  have hinit : AreWhole [] (lines (stream init)) := ⟨[], List.Sublist.refl _, rfl⟩
  apply Run.along_iff_meets (wholeLines_iff_stream.mpr hinit) _ h
  intro pre op t u hpre ht hu _ hwhole
  have htag : t.Tagged := Run.exec_invariant (I := Tagged) (by simp [Tagged, stream, init])
    (fun s op s' hs hstep => tagged_of_step hstep hs) ht
  exact wholeLines_step_iff htag hwhole hu

/-- A message with a bar in its key, sent whole; and one without, of which only the first three bytes are. -/
theorem wholeLines_iff_cutLast :
    let first : ReplicationMessage := ⟨1, 1, [⟨1, 1, 1, Bytes.ascii "a|", Bytes.ascii "v"⟩]⟩
    let second : ReplicationMessage := ⟨1, 2, [⟨1, 2, 2, Bytes.ascii "b", []⟩]⟩
    let as : List ConnectionOp := [.send first 24, .recvTimeout, .send second 3, .deliver 26]
    Run.Along step (fun _ => WholeLines) init as ∧ Run.Meets step CleanSend init as := by
  intro first second as
  have hrun : ∃ s, Run.exec step init as = some s := Option.isSome_iff_exists.mp (by decide)
  obtain ⟨s, hs⟩ := hrun
  have hmeets : Run.Meets step CleanSend init as := by decide
  exact ⟨(wholeLines_iff hs).mpr hmeets, hmeets⟩

/-- Whole lines are messages byte by byte. -/
theorem AreWhole.exists_serialize {sent : List ReplicationMessage} {ls : List Stream} (h : AreWhole sent ls) :
    ∀ l ∈ ls, ∃ m ∈ sent, bytes l = m.serialize := by
  obtain ⟨ms, hms, rfl⟩ := h
  intro l hl
  obtain ⟨m, hm, rfl⟩ := List.mem_map.mp hl
  exact ⟨m.1, List.fst_mem_of_mem_zipIdx (hms.subset hm), bytes_tag _ _⟩

/-- A `send` that stops inside of a value: the next message completes the line, and the follower handles a message that
    nobody sent, with the value `he1|2` in place of `hello`. -/
theorem cutMessage_altered :
    let hello : ReplicationMessage := ⟨1, 1, [⟨1, 1, 1, Bytes.ascii "a", Bytes.ascii "hello"⟩]⟩
    let hi : ReplicationMessage := ⟨1, 2, [⟨1, 2, 1, Bytes.ascii "b", Bytes.ascii "hi"⟩]⟩
    ∃ s, Run.exec step init [.send hello 23, .recvTimeout, .send hi 24, .deliver 47, .handleLine] = some s ∧
      ¬ s.WholeLines ∧
      s.handled.map Prod.snd = [⟨1, 1, [⟨1, 1, 1, Bytes.ascii "a", Bytes.ascii "he1|2"⟩]⟩] := by
  refine ⟨_, rfl, ?_, by decide⟩
  intro h
  have hwhole := (wholeLines_iff_stream.mp h).exists_serialize
  revert hwhole
  decide

/-! ## D. What the follower handles

The follower cuts the stream as `lines` does, and parses each line. Where the lines are whole, it handles messages
that were sent, as they were. -/

/-- The lines that were taken off the buffer are those in front of what is in it. -/
def Framed (s : Connection) : Prop :=
  ∃ taken, split endsLine s.received = (taken ++ (split endsLine s.buffer).1, (split endsLine s.buffer).2) ∧
    ∀ h ∈ s.handled, h.1 ∈ taken ∧ ReplicationMessage.deserialize (bytes h.1) = some h.2

theorem split_of_takeLine {l line rest : Stream} (h : takeLine endsLine l = some (line, rest)) :
    split endsLine l = (line :: (split endsLine rest).1, (split endsLine rest).2) := by
  obtain ⟨e, rfl, hline, he⟩ := takeLine_eq_some h
  exact split_line hline he rest

/-- The follower's lines are those of the stream. -/
theorem framed_of_step {s s' : Connection} {op : ConnectionOp} (h : s.step op = some s') (hf : s.Framed) :
    s'.Framed := by
  obtain ⟨taken, hsplit, hhandled⟩ := hf
  cases Effect.of_step h with
  | notSent => exact ⟨taken, hsplit, hhandled⟩
  | sent => exact ⟨taken, hsplit, hhandled⟩
  | recvAck => exact ⟨taken, hsplit, hhandled⟩
  | recvTimeout => exact ⟨taken, hsplit, hhandled⟩
  | @deliver n _ hbuffer =>
      refine ⟨taken, ?_, hhandled⟩
      have hnil : split endsLine s.buffer = ([], s.buffer) := split_of_not (takeLine_eq_none hbuffer)
      rw [hnil] at hsplit
      dsimp only
      rw [split_append, hsplit, List.append_nil]
  | @skip line rest _ htake =>
      refine ⟨taken ++ [line], ?_, fun h hh => ⟨List.mem_append_left _ (hhandled h hh).1, (hhandled h hh).2⟩⟩
      rw [hsplit, split_of_takeLine htake, List.append_assoc]
      rfl
  | @handle line rest msg _ htake _ hmsg =>
      refine ⟨taken ++ [line], ?_, ?_⟩
      · rw [hsplit, split_of_takeLine htake, List.append_assoc]
        rfl
      · intro h hh
        rcases List.mem_append.mp hh with hh | hh
        · exact ⟨List.mem_append_left _ (hhandled h hh).1, (hhandled h hh).2⟩
        · obtain rfl := List.mem_singleton.mp hh
          exact ⟨List.mem_append_right _ List.mem_cons_self, hmsg⟩
  | sendAck => exact ⟨taken, hsplit, hhandled⟩

/-- The messages fit into a string. -/
def Fits (s : Connection) : Prop := ∀ m ∈ s.sent, (data m).length < 2 ^ 64

theorem fits_of_step {s s' : Connection} {op : ConnectionOp} (h : s.step op = some s') (hf : s.Fits) : s'.Fits := by
  have hconcat : ∀ msg, (data msg).length < 2 ^ 64 → ∀ m ∈ s.sent ++ [msg], (data m).length < 2 ^ 64 := by
    intro msg hmsg m hm
    rcases List.mem_append.mp hm with hm | hm
    · exact hf m hm
    · rwa [List.mem_singleton.mp hm]
  cases Effect.of_step h with
  | notSent _ _ hlen => exact hconcat _ hlen
  | sent _ _ _ _ hlen => exact hconcat _ hlen
  | recvAck => exact hf
  | recvTimeout => exact hf
  | deliver => exact hf
  | skip => exact hf
  | handle => exact hf
  | sendAck => exact hf

/-- A line that is a message is taken for that message, if it is taken for any. -/
theorem eq_of_deserialize_serialize {m m' : ReplicationMessage} (hlen : (data m).length < 2 ^ 64)
    (h : ReplicationMessage.deserialize m.serialize = some m') : m' = m := by
  by_cases hne : m.entries = []
  · rw [deserialize_serialize_nil hne] at h
    exact absurd h (by simp)
  · have hlen' : m.serialize.length < 2 ^ 64 := by
      unfold data at hlen
      rw [List.length_append] at hlen
      omega
    rw [deserialize_serialize hne hlen'] at h
    exact (Option.some.inj h).symm

/-- Where the lines are whole, the follower handles nothing but messages that were sent. -/
theorem handled_sent {as : List ConnectionOp} {s : Connection} (h : Run.exec step init as = some s)
    (hmeets : Run.Meets step CleanSend init as) : ∀ got ∈ s.handled, ∃ i, s.sent[i]? = some got.2 ∧
      got.1 = lineOf (got.2, i) := by
  have hwhole : s.WholeLines := (wholeLines_iff h).mpr hmeets as s (List.prefix_refl _) h
  obtain ⟨taken, hsplit, hhandled⟩ : s.Framed := Run.exec_invariant (I := Framed) ⟨[], rfl, by simp [init]⟩
    (fun _ _ _ hs hstep => framed_of_step hstep hs) h
  have hfits : s.Fits := Run.exec_invariant (I := Fits) (by simp [Fits, init])
    (fun _ _ _ hs hstep => fits_of_step hstep hs) h
  obtain ⟨ms, hms, hlines⟩ := hwhole s.received (List.prefix_refl _) (List.prefix_append _ _)
  intro got hgot
  obtain ⟨htaken, hmsg⟩ := hhandled got hgot
  have hline : got.1 ∈ ms.map lineOf := by
    rw [← hlines, lines, hsplit]
    exact List.mem_append_left _ htaken
  obtain ⟨⟨m, i⟩, hm, hl⟩ := List.mem_map.mp hline
  have hget : s.sent[i]? = some m := List.mem_zipIdx_iff_getElem?.mp (hms.subset hm)
  rw [← hl, lineOf, bytes_tag] at hmsg
  obtain rfl := eq_of_deserialize_serialize (hfits m (List.mem_of_getElem? hget)) hmsg
  exact ⟨i, hget, hl.symm⟩

end KvStorageEngine.Distributed.Wire.Connection
