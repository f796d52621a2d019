import KvStorageEngine.Distributed.Correctness.WholeLines

/-!
# `Distributed.Correctness.AckMatching` — what an ack stands for

An ack is `+OK`, whichever message it is for, and `sendToPeer` keeps the connection when it has waited in vain for one.
The ack may then still come, and the next call takes it for its own.

A call is answered correctly if no ack can get in front of its own (`OwnAck`): either a byte is left over that spoils the
next answer anyway, or there is none, and of the lines the follower has yet to read it handles at most the message that
is being sent. `Answerable` is what remains of this while the call waits.
-/

namespace KvStorageEngine.Distributed.Wire.Connection

open LineFraming

/-- The follower has handled the `i`-th message, from the very bytes that were sent for it. -/
def Replicated (s : Connection) (i : Nat) : Prop :=
  ∃ m, s.sent[i]? = some m ∧ (lineOf (m, i), m) ∈ s.handled

/-- `sendToPeer` has returned `true` only for messages the follower had handled. -/
def AcksMatch (s : Connection) : Prop := ∀ i, (i, true) ∈ s.returns → s.Replicated i

/-- What the follower has yet to read. -/
def unread (s : Connection) : Stream := s.buffer ++ s.wire

/-- The first unread byte of the acks, if there is one, cannot begin an ack. -/
def Spoiled (acks : Bytes) : Prop := ∃ b, acks.head? = some b ∧ b ≠ 43

instance (acks : Bytes) : Decidable (Spoiled acks) :=
  match acks with
  | [] => isFalse (by simp [Spoiled])
  | b :: _ => decidable_of_iff (b ≠ 43) (by simp [Spoiled])

/-- Before a `send` that goes out: no ack can be read before the one for this message. -/
def OwnAck (s : Connection) : ConnectionOp → Prop
  | .send msg k => s.connected = true → 0 < k → Spoiled s.acks ∨ (s.acks = [] ∧ s.follower = .reading ∧
      ∀ l ∈ lines (s.unread ++ s.written msg k), Handles l → l = lineOf (msg, s.sent.length))
  | _ => True

instance (s : Connection) (op : ConnectionOp) : Decidable (s.OwnAck op) :=
  match op with
  | .send _ _ => @instDecidableForall _ _ inferInstance (@instDecidableForall _ _ inferInstance
      (@instDecidableOr _ _ inferInstance (@instDecidableAnd _ _ inferInstance (@instDecidableAnd _ _ inferInstance
        (@List.decidableBAll _ _ (fun _ => @instDecidableForall _ _ inferInstance inferInstance) _)))))
  | .recvAck _ _ | .recvTimeout | .deliver _ | .handleLine | .sendAck _ => isTrue trivial

/-- While the call for the `i`-th message waits: its answer will be no ack, or the follower has handled the message, or
    no other line can bring an ack. -/
def Answerable (s : Connection) (i : Nat) : Prop :=
  Spoiled s.acks ∨ s.Replicated i ∨ (s.acks = [] ∧ s.follower = .reading ∧
    ∃ m, s.sent[i]? = some m ∧ ∀ l ∈ lines s.unread, Handles l → l = lineOf (m, i))

/-- What is true between two steps. -/
structure Matching (s : Connection) : Prop where
  acksMatch : s.AcksMatch
  answerable : ∀ i, s.shipper = .awaiting i → s.Answerable i
  fits : s.Fits

theorem Spoiled.append {acks : Bytes} (h : Spoiled acks) (more : Bytes) : Spoiled (acks ++ more) := by
  obtain ⟨b, hb, hne⟩ := h
  exact ⟨b, by simp [List.head?_append, hb], hne⟩

/-- A spoiled answer is not taken for an ack. -/
theorem Spoiled.not_isAck {acks junk : Bytes} {n : Nat} (h : Spoiled acks) (hn : 0 < n) :
    isAck (acks.take n ++ junk) = false := by
  obtain ⟨b, hb, hne⟩ := h
  obtain ⟨n, rfl⟩ := Nat.exists_eq_succ_of_ne_zero hn.ne'
  cases acks with
  | nil => exact absurd hb (by simp)
  | cons c acks =>
      obtain rfl : c = b := Option.some.inj hb
      have hhead : ¬ c = Bytes.ofChar '+' := hne
      simp [isAck, Bytes.ascii, hhead]

/-! ## A. One step

A call waits for one answer. It is its own if the follower has nothing else to answer, or if a byte in front spoils
whatever comes. -/

theorem Replicated.mono {s s' : Connection} {i : Nat} (h : s.Replicated i) (hsent : s.sent <+: s'.sent)
    (hhandled : ∀ got ∈ s.handled, got ∈ s'.handled) : s'.Replicated i := by
  obtain ⟨m, hm, hgot⟩ := h
  obtain ⟨more, hmore⟩ := hsent
  refine ⟨m, ?_, hhandled _ hgot⟩
  rw [← hmore, List.getElem?_append_left (List.getElem?_eq_some_iff.mp hm).1, hm]

theorem lines_unread_of_takeLine {s : Connection} {line rest : Stream}
    (h : takeLine endsLine s.buffer = some (line, rest)) : lines s.unread = line :: lines (rest ++ s.wire) := by
  obtain ⟨e, hbuffer, hline, he⟩ := takeLine_eq_some h
  unfold lines unread
  rw [hbuffer, List.append_assoc, List.cons_append, split_line hline he]

/-- A call that returns keeps what is known, if its answer is right. -/
theorem matching_finish {s : Connection} {i : Nat} {ok : Bool} (hm : s.Matching)
    (hok : ok = true → s.Replicated i) : (s.finish i ok).Matching where
  acksMatch := by
    intro j hj
    rcases List.mem_append.mp hj with hj | hj
    · exact hm.acksMatch j hj
    · obtain ⟨rfl, rfl⟩ := Prod.mk.inj (List.mem_singleton.mp hj)
      exact hok rfl
  answerable := fun j hj => absurd hj (by simp [finish])
  fits := hm.fits

/-- Every step of a connection whose calls find no ack in front keeps the acks matched. -/
theorem matching_of_step {s s' : Connection} {op : ConnectionOp} (hm : s.Matching) (hown : s.OwnAck op)
    (h : s.step op = some s') : s'.Matching := by
  have hfits : s'.Fits := fits_of_step h hm.fits
  cases Effect.of_step h with
  | @notSent msg k connected hidle hwritten hlen =>
      refine ⟨?_, ?_, hfits⟩
      · intro i hi
        have hi : (i, true) ∈ s.returns := by simpa using hi
        exact (hm.acksMatch i hi).mono (List.prefix_append _ _) fun _ => id
      · intro i hi
        exact absurd (hidle.symm.trans hi) (by simp)
  | @sent msg k hidle hconn hk hle hlen =>
      refine ⟨fun i hi => (hm.acksMatch i hi).mono (List.prefix_append _ _) fun _ => id, ?_, hfits⟩
      intro i hi
      obtain rfl : s.sent.length = i := ShipperPc.awaiting.inj hi
      have hwritten : s.written msg k = tag s.sent.length ((data msg).take k) := if_pos hconn
      rcases hown hconn hk with hspoiled | ⟨hacks, hreading, hlines⟩
      · exact .inl hspoiled
      · refine .inr (.inr ⟨hacks, hreading, msg, by simp, ?_⟩)
        rw [hwritten, unread, List.append_assoc] at hlines
        exact hlines
  | @recvAck i n junk hpc hn hle =>
      have hm' : Matching { s with acks := s.acks.drop n, shipper := .idle } :=
        ⟨hm.acksMatch, fun j hj => absurd hj (by simp), hm.fits⟩
      apply matching_finish (s := { s with acks := s.acks.drop n, shipper := .idle }) hm'
      intro hok
      rcases hm.answerable i hpc with hspoiled | hreplicated | ⟨hacks, -⟩
      · rw [hspoiled.not_isAck hn] at hok
        exact absurd hok (by simp)
      · exact hreplicated
      · rw [hacks, List.length_nil] at hle
        omega
  | @recvTimeout i hpc => exact matching_finish hm (by simp)
  | @deliver n hpc hbuffer =>
      refine ⟨hm.acksMatch, ?_, hfits⟩
      intro i hi
      rcases hm.answerable i hi with hspoiled | hreplicated | ⟨hacks, hreading, m, hget, hlines⟩
      · exact .inl hspoiled
      · exact .inr (.inl hreplicated)
      · refine .inr (.inr ⟨hacks, hreading, m, hget, ?_⟩)
        unfold unread
        dsimp only
        rw [List.append_assoc, List.take_append_drop]
        exact hlines
  | @skip line rest hpc htake hskip =>
      refine ⟨hm.acksMatch, ?_, hfits⟩
      intro i hi
      rcases hm.answerable i hi with hspoiled | hreplicated | ⟨hacks, hreading, m, hget, hlines⟩
      · exact .inl hspoiled
      · exact .inr (.inl hreplicated)
      · rw [lines_unread_of_takeLine htake] at hlines
        exact .inr (.inr ⟨hacks, hreading, m, hget, fun l hl => hlines l (List.mem_cons_of_mem _ hl)⟩)
  | @handle line rest msg hpc htake hne hmsg =>
      have hmono : ∀ i, s.Replicated i → Replicated
          { s with buffer := rest, handled := s.handled ++ [(line, msg)], follower := .acking } i :=
        fun i hi => hi.mono (List.prefix_refl _) fun got hgot => List.mem_append_left _ hgot
      refine ⟨fun i hi => hmono i (hm.acksMatch i hi), ?_, hfits⟩
      intro i hi
      rcases hm.answerable i hi with hspoiled | hreplicated | ⟨hacks, hreading, m, hget, hlines⟩
      · exact .inl hspoiled
      · exact .inr (.inl (hmono i hreplicated))
      · -- the only line that can be handled is the message the call waits for
        rw [lines_unread_of_takeLine htake] at hlines
        obtain rfl := hlines line List.mem_cons_self ⟨hne, by simp [hmsg]⟩
        rw [lineOf, bytes_tag] at hmsg
        obtain rfl := eq_of_deserialize_serialize (hm.fits m (List.mem_of_getElem? hget)) hmsg
        exact .inr (.inl ⟨msg, hget, List.mem_append_right _ List.mem_cons_self⟩)
  | @sendAck k hpc =>
      refine ⟨hm.acksMatch, ?_, hfits⟩
      intro i hi
      rcases hm.answerable i hi with hspoiled | hreplicated | ⟨-, hreading, -⟩
      · exact .inl (hspoiled.append _)
      · exact .inr (.inl hreplicated)
      · rw [hpc] at hreading
        exact absurd hreading (by simp)

/-! ## B. Runs -/

theorem matching_init : Matching init :=
  ⟨by simp [AcksMatch, init], by simp [init], by simp [Fits, init]⟩

/-- **Whose ack it is.** In a run in which each message is sent when no ack can get in front of its own, `sendToPeer`
    returns `true` only for messages that the follower had handled by then. -/
theorem acksMatch_of_ownAck {as : List ConnectionOp} {s : Connection} (hown : Run.Meets step OwnAck init as)
    (h : Run.exec step init as = some s) : s.AcksMatch :=
  (Run.exec_invariant_of_meets matching_init (fun _ _ _ hm hown h => matching_of_step hm hown h) hown h).acksMatch

/-- Two messages, one after the other, and acks that come in time. -/
theorem acksMatch_of_ownAck_two :
    let first : ReplicationMessage := ⟨1, 1, [⟨1, 1, 1, Bytes.ascii "a", Bytes.ascii "v"⟩]⟩
    let second : ReplicationMessage := ⟨1, 2, [⟨1, 2, 2, Bytes.ascii "a", []⟩]⟩
    let call (m : ReplicationMessage) : List ConnectionOp :=
      [.send m (data m).length, .deliver (data m).length, .handleLine, .sendAck 4, .recvAck 4 []]
    ∃ s, Run.exec step init (call first ++ call second) = some s ∧ s.returns = [(0, true), (1, true)] ∧
      s.AcksMatch := by
  intro first second call
  have hown : Run.Meets step OwnAck init (call first ++ call second) := by decide
  obtain ⟨s, hs⟩ : ∃ s, Run.exec step init (call first ++ call second) = some s :=
    Option.isSome_iff_exists.mp (by decide)
  have hreturns : (Run.exec step init (call first ++ call second)).map returns = some [(0, true), (1, true)] := by
    decide
  rw [hs] at hreturns
  exact ⟨s, hs, Option.some.inj hreturns, acksMatch_of_ownAck hown hs⟩

/-- An ack that comes late is taken for that of the next message, which is still on the wire. -/
theorem lateAck_mismatched :
    let first : ReplicationMessage := ⟨1, 1, [⟨1, 1, 1, Bytes.ascii "a", Bytes.ascii "v"⟩]⟩
    let second : ReplicationMessage := ⟨1, 2, [⟨1, 2, 2, Bytes.ascii "a", []⟩]⟩
    let as : List ConnectionOp := [.send first (data first).length, .recvTimeout, .deliver (data first).length,
      .handleLine, .sendAck 4, .send second (data second).length, .recvAck 4 []]
    ∃ s, Run.exec step init as = some s ∧ (1, true) ∈ s.returns ∧ s.handled.map Prod.snd = [first] ∧
      ¬ s.AcksMatch := by
  intro first second as
  obtain ⟨s, hs⟩ : ∃ s, Run.exec step init as = some s := Option.isSome_iff_exists.mp (by decide)
  have hend : (Run.exec step init as).map (fun s => (s.returns, s.handled.map Prod.snd, s.sent)) =
      some ([(0, false), (1, true)], [first], [first, second]) := by
    decide
  rw [hs] at hend
  obtain ⟨hreturns, hhandled, hsent⟩ : s.returns = [(0, false), (1, true)] ∧ s.handled.map Prod.snd = [first] ∧
      s.sent = [first, second] := by
    simpa using hend
  have htrue : (1, true) ∈ s.returns := by simp [hreturns]
  refine ⟨s, hs, htrue, hhandled, ?_⟩
  intro hmatch
  obtain ⟨m, hm, hgot⟩ := hmatch 1 htrue
  obtain rfl : second = m := by simpa [hsent] using hm
  have hmem := List.mem_map_of_mem (f := Prod.snd) hgot
  rw [hhandled] at hmem
  revert hmem
  decide

end KvStorageEngine.Distributed.Wire.Connection
