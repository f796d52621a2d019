import KvStorageEngine.Distributed.Correctness.AppliedPrefix

/-!
# `Distributed.Correctness.SkippedEntries` — entries a follower passes over

A follower looks entries up by index alone and never forgets one. Within one life of the leader an index names
one entry, and as long as the callbacks read in time nothing can be passed over (`skipsNothing_of_exec`). A restarted
leader numbers from 1 again: what it sends under an index that the follower has applied is logged, acknowledged and
never looked at (`skips_secondLife`). `skipsNothing_iff_repeats` says which steps are harmless.
-/

namespace KvStorageEngine.Distributed

open NumberedLog Run

/-- The two entries ask for the same operation. -/
def LogEntry.SameRequest (a e : LogEntry) : Prop := a.op = e.op ∧ a.key = e.key ∧ a.value = e.value

instance (a e : LogEntry) : Decidable (a.SameRequest e) :=
  inferInstanceAs (Decidable (a.op = e.op ∧ a.key = e.key ∧ a.value = e.value))

theorem LogEntry.SameRequest.symm {a e : LogEntry} (h : a.SameRequest e) : e.SameRequest a :=
  ⟨h.1.symm, h.2.1.symm, h.2.2.symm⟩

theorem LogEntry.SameRequest.trans {a b e : LogEntry} (h : a.SameRequest b) (h' : b.SameRequest e) : a.SameRequest e :=
  ⟨h.1.trans h'.1, h.2.1.trans h'.2.1, h.2.2.trans h'.2.2⟩

/-! ## One follower

What the follower received first under an index is what its loop finds there, then and ever after. -/

namespace Follower

variable {f f' : Follower}

/-- The entry that a search by index finds. -/
def firstUnder (f : Follower) (i : Nat) : Option LogEntry := f.log.find? (fun e => e.index == i)

/-- No entry that was received under an applied index differs from the one that was passed to the callback there. -/
def SkipsNothing (f : Follower) : Prop :=
  ∀ e ∈ f.log, 0 < e.index → e.index ≤ f.lastApplied → ∀ a ∈ f.passed[e.index - 1]?, a.SameRequest e

instance (f : Follower) : Decidable f.SkipsNothing :=
  inferInstanceAs (Decidable (∀ e ∈ f.log, 0 < e.index → e.index ≤ f.lastApplied → ∀ a ∈ f.passed[e.index - 1]?,
    a.SameRequest e))

/-- At the applied indices the message asks for the same as what was received there first. -/
def Repeated (f : Follower) (msg : ReplicationMessage) : Prop :=
  ∀ e ∈ msg.entries, 0 < e.index → e.index ≤ f.lastApplied → ∀ b ∈ f.firstUnder e.index, b.SameRequest e

/-- All that was received under the index of the running callback asks for the same, and the callback has read that. -/
def Unanimous (f : Follower) : Prop :=
  ∀ i a, f.applying = .called i a → ∀ b ∈ f.firstUnder i, a.SameRequest b ∧ ∀ e ∈ f.log, e.index = i → b.SameRequest e

/-- One entry is passed on for each of the indices 1, 2, 3, …, and each of them was found in the log. -/
structure Serial (f : Follower) : Prop where
  length : f.passed.length = f.lastApplied + f.applying.entry?.toList.length
  last : ∀ a, f.applying.entry? = some a → f.passed.getLast? = some a
  next : ∀ i, f.applying.nextIndex? = some i → i = f.lastApplied + 1 ∧ (f.firstUnder i).isSome
  found : ∀ i, 0 < i → i ≤ f.lastApplied → (f.firstUnder i).isSome

theorem serial_new : Serial Replica.new :=
  ⟨rfl, fun a h => absurd h (by simp [Replica.new, CallbackPc.entry?]),
    fun i h => absurd h (by simp [Replica.new, CallbackPc.nextIndex?]),
    fun i hpos hle => absurd hle (Nat.not_le.mpr hpos)⟩

/-- The log grows at its end, so a search finds what it found before. -/
theorem firstUnder_handleReplication {i : Nat} (h : (f.firstUnder i).isSome) (msg : ReplicationMessage) :
    (f.handleReplication msg).firstUnder i = f.firstUnder i := by
  obtain ⟨b, hb⟩ := Option.isSome_iff_exists.mp h
  unfold firstUnder at hb ⊢
  show (msg.entries.foldl Replica.pushBack f).log.find? _ = _
  rw [(f.appended_foldl msg.entries).log, List.find?_append, hb]
  rfl

theorem Serial.handleReplication (h : f.Serial) (msg : ReplicationMessage) : (f.handleReplication msg).Serial := by
  have happended := f.appended_foldl msg.entries
  have hlast : (f.handleReplication msg).lastApplied = f.lastApplied := happended.lastApplied
  have hentry : (f.handleReplication msg).applying.entry? = f.applying.entry? := happended.entry?
  have hnext : (f.handleReplication msg).applying.nextIndex? = f.applying.nextIndex? := happended.nextIndex?
  have hpassed : (f.handleReplication msg).passed = f.passed := happended.passed
  refine ⟨?_, ?_, ?_, ?_⟩
  · rw [hpassed, hlast, hentry]
    exact h.length
  · rw [hpassed, hentry]
    exact h.last
  · intro i hi
    obtain ⟨hidx, hsome⟩ := h.next i (hnext ▸ hi)
    rw [hlast, firstUnder_handleReplication hsome]
    exact ⟨hidx, hsome⟩
  · intro i hpos hle
    have hsome := h.found i hpos (hlast ▸ hle)
    rw [firstUnder_handleReplication hsome]
    exact hsome

theorem Serial.beginApply (h : f.Serial) (hf : f.beginApply = some f') : f'.Serial := by
  obtain ⟨hidle, -, a, hfind, rfl⟩ := Replica.beginApply_eq_some.mp hf
  have hlen := h.length
  rw [hidle] at hlen
  refine ⟨hlen, fun b hb => absurd hb (by simp [CallbackPc.entry?]), ?_, h.found⟩
  intro i hi
  obtain rfl : f.lastApplied + 1 = i := Option.some.inj hi
  exact ⟨rfl, Option.isSome_iff_exists.mpr ⟨a, hfind⟩⟩

theorem Serial.callApply (h : f.Serial) {memory : LogEntry} (hf : f.callApply memory = some f') : f'.Serial := by
  obtain ⟨i, it, happ, rfl⟩ := Replica.callApply_eq_some.mp hf
  have hlen := h.length
  rw [happ] at hlen
  refine ⟨?_, ?_, ?_, h.found⟩
  · show (f.passed ++ [_]).length = f.lastApplied + 1
    rw [List.length_append, hlen]
    rfl
  · intro a ha
    obtain rfl := Option.some.inj ha
    exact List.getLast?_concat
  · intro j hj
    exact h.next j (by rw [happ]; exact hj)

theorem Serial.endApply (h : f.Serial) (hf : f.endApply = some f') : f'.Serial := by
  obtain ⟨i, a, happ, rfl⟩ := Replica.endApply_eq_some.mp hf
  obtain ⟨rfl, hsome⟩ := h.next i (by rw [happ]; rfl)
  have hlen := h.length
  rw [happ] at hlen
  refine ⟨hlen, fun b hb => absurd hb (by simp [CallbackPc.entry?]),
    fun j hj => absurd hj (by simp [CallbackPc.nextIndex?]), ?_⟩
  intro j hpos hle
  rcases Nat.lt_or_ge f.lastApplied j with hlt | hge
  · have hle : j ≤ f.lastApplied + 1 := hle
    obtain rfl : j = f.lastApplied + 1 := by omega
    exact hsome
  · exact h.found j hpos hge

/-- At an applied index, what was passed on asks for the same as what was received first. -/
theorem SkipsNothing.passed_first (h : f.SkipsNothing) {i : Nat} (hpos : 0 < i) (hle : i ≤ f.lastApplied) {a b : LogEntry}
    (ha : f.passed[i - 1]? = some a) (hb : f.firstUnder i = some b) : a.SameRequest b := by
  have hidx : b.index = i := by simpa using List.find?_some hb
  subst hidx
  exact h b (List.mem_of_find?_eq_some hb) hpos hle a ha

/-- A message keeps the follower from skipping exactly if it repeats what was passed. -/
theorem skipsNothing_handleReplication (hf : f.SkipsNothing) (hser : f.Serial) (msg : ReplicationMessage) :
    (f.handleReplication msg).SkipsNothing ↔ f.Repeated msg := by
  have happended := f.appended_foldl msg.entries
  have hlast : (f.handleReplication msg).lastApplied = f.lastApplied := happended.lastApplied
  have hpassed : (f.handleReplication msg).passed = f.passed := happended.passed
  have hlog : (f.handleReplication msg).log = f.log ++ msg.entries := happended.log
  have hthere : ∀ {i}, 0 < i → i ≤ f.lastApplied → ∃ a, f.passed[i - 1]? = some a := by
    intro i hpos hle
    have hlen := hser.length
    have hlt : i - 1 < f.passed.length := by omega
    exact ⟨_, List.getElem?_eq_getElem hlt⟩
  unfold SkipsNothing
  rw [hlast, hpassed, hlog]
  constructor
  · intro h e he hpos hle b hb
    obtain ⟨a, ha⟩ := hthere hpos hle
    exact (hf.passed_first hpos hle ha hb).symm.trans (h e (List.mem_append_right _ he) hpos hle a ha)
  · intro h e he hpos hle a ha
    rcases List.mem_append.mp he with he | he
    · exact hf e he hpos hle a ha
    · obtain ⟨b, hb⟩ := Option.isSome_iff_exists.mp (hser.found _ hpos hle)
      exact (hf.passed_first hpos hle ha hb).trans (h e he hpos hle b hb)

theorem skipsNothing_callApply (hf : f.SkipsNothing) (hser : f.Serial) {memory : LogEntry}
    (h : f.callApply memory = some f') : f'.SkipsNothing := by
  obtain ⟨i, it, happ, rfl⟩ := Replica.callApply_eq_some.mp h
  have hlen := hser.length
  rw [happ] at hlen
  intro e he hpos hle a ha
  change a ∈ (f.passed ++ [it.getD memory])[e.index - 1]? at ha
  have hle : e.index ≤ f.lastApplied := hle
  have hlt : e.index - 1 < f.passed.length := by
    simp only [CallbackPc.entry?, Option.toList_none, List.length_nil] at hlen
    omega
  rw [List.getElem?_append_left hlt] at ha
  exact hf e he hpos hle a ha

/-- At the end of a callback an index is passed, and nothing is skipped exactly if the log says one thing about it. -/
theorem skipsNothing_endApply (hf : f.SkipsNothing) (hser : f.Serial) (h : f.endApply = some f') :
    f'.SkipsNothing ↔ f.Unanimous := by
  obtain ⟨i, a, happ, rfl⟩ := Replica.endApply_eq_some.mp h
  obtain ⟨rfl, hsome⟩ := hser.next i (by rw [happ]; rfl)
  obtain ⟨b, hb⟩ := Option.isSome_iff_exists.mp hsome
  have hidx : b.index = f.lastApplied + 1 := by simpa using List.find?_some hb
  have hlast : f.passed[f.lastApplied]? = some a := by
    have hlen := hser.length
    have hget := hser.last a (by rw [happ]; rfl)
    rw [happ] at hlen
    rw [List.getLast?_eq_getElem?, hlen] at hget
    exact hget
  constructor
  · intro h' i' a' happ' b' hb'
    obtain ⟨rfl, rfl⟩ := CallbackPc.called.inj (happ.symm.trans happ')
    obtain rfl : b = b' := Option.some.inj (hb.symm.trans hb')
    have hall : ∀ e ∈ f.log, e.index = f.lastApplied + 1 → a.SameRequest e := by
      intro e he heq
      refine h' e he (by omega) heq.le a ?_
      show f.passed[e.index - 1]? = some a
      rw [heq, Nat.add_sub_cancel]
      exact hlast
    have hab := hall b (List.mem_of_find?_eq_some hb) hidx
    exact ⟨hab, fun e he heq => hab.symm.trans (hall e he heq)⟩
  · intro h' e he hpos hle a' ha'
    have hle : e.index ≤ f.lastApplied + 1 := hle
    have ha' : f.passed[e.index - 1]? = some a' := ha'
    rcases Nat.lt_or_ge f.lastApplied e.index with hlt | hge
    · -- the index that has just become applied
      have heq : e.index = f.lastApplied + 1 := by omega
      rw [heq, Nat.add_sub_cancel, hlast] at ha'
      obtain rfl := Option.some.inj ha'
      obtain ⟨hab, hall⟩ := h' _ _ happ b hb
      exact hab.trans (hall e he heq)
    · exact hf e he hpos hge a' ha'

end Follower

/-! ## One life

Within one life the log of the leader is in its order, and by `Distributed.Correctness.AppliedPrefix` the follower
passes on what stands there. -/

namespace Cluster

variable {n : Nat} {c c' : Cluster n}

/-- Within one life of the leader an index names one entry. -/
theorem skipsNothing_of_exec {ops : List (ClusterOp n)} (h : exec Cluster.step (init n) ops = some c) {p : Fin n}
    (hC : Meets Cluster.step (InTime (some p)) (init n) ops) : (c.peers p).follower.SkipsNothing := by
  have hinv := inv_of_exec h
  have hpassed : (c.peers p).follower.Applies c.leader.log := applies_of_inTime h hC
  intro e he hpos hle a ha
  obtain ⟨i, hi⟩ : ∃ i, e.index = i + 1 := ⟨e.index - 1, by omega⟩
  have hget := hinv.numbered.getElem?_of_mem ((hinv.followers p).copy e he) hi
  have hlen : i < (c.leader.log.take (c.peers p).follower.lastApplied).length := by
    have hlt := (List.getElem?_eq_some_iff.mp hget).1
    rw [List.length_take]
    omega
  change (c.peers p).follower.passed[e.index - 1]? = some a at ha
  rw [hi, Nat.add_sub_cancel, hpassed.passed, List.getElem?_append_left hlen, List.getElem?_take_of_lt (by omega), hget]
    at ha
  obtain rfl := Option.some.inj ha
  exact ⟨rfl, rfl, rfl⟩

/-! ## Many lives

A restarted leader begins at 1 again, while the follower's `last_applied_` stays. What it logs under an index that it
has passed is harmless only if it repeats what was passed there. -/

/-- At the indices it has applied, the follower `p` receives nothing but what asks for the same as the first entry it
    received there; and it accounts for an entry only if all it has received under that index asks for the same, and
    its callback has read that. -/
def Repeats (p : Fin n) (c : Cluster n) : LivesOp n → Prop
  | .act (.deliver q i _) => q = p → ∀ msg, (c.peers p).sent[i]? = some msg → (c.peers p).follower.Repeated msg
  | .act (.followerApplied q) => q = p → (c.peers p).follower.Unanimous
  | .act _ | .restart => True

theorem repeats_of_elsewhere {p : Fin n} {op : ClusterOp n} (h : elsewhere p op = true) : c.Repeats p (.act op) := by
  cases op with
  | deliver q i answered =>
      intro hqp
      exact absurd hqp (by simpa [elsewhere] using h)
  | followerApplied q =>
      intro hqp
      exact absurd hqp (by simpa [elsewhere] using h)
  | _ => trivial

theorem serial_livesStep {op : LivesOp n} (hs : c.livesStep op = some c') {p : Fin n}
    (h : (c.peers p).follower.Serial) : (c'.peers p).follower.Serial := by
  cases op with
  | restart =>
      obtain rfl := Option.some.inj hs
      exact h
  | act op =>
      cases followerStep_of_step hs p with
      | handle hmsg hf => exact hf ▸ h.handleReplication _
      | begin hf => exact h.beginApply hf
      | call hf => exact h.callApply hf
      | applied hf => exact h.endApply hf
      | rest hop hf => exact hf ▸ h

/-- One step keeps the property exactly when it meets the condition. -/
theorem skipsNothing_livesStep {op : LivesOp n} (hs : c.livesStep op = some c') {p : Fin n}
    (hser : (c.peers p).follower.Serial) (hskip : (c.peers p).follower.SkipsNothing) :
    (c'.peers p).follower.SkipsNothing ↔ c.Repeats p op := by
  cases op with
  | restart =>
      obtain rfl := Option.some.inj hs
      exact iff_of_true hskip trivial
  | act op =>
      cases followerStep_of_step hs p with
      | @handle i answered msg hmsg hf =>
          rw [hf, Follower.skipsNothing_handleReplication hskip hser]
          constructor
          · intro h _ msg' hmsg'
            obtain rfl := Option.some.inj (hmsg.symm.trans hmsg')
            exact h
          · exact fun h => h rfl msg hmsg
      | begin hf =>
          obtain ⟨-, -, e, -, heq⟩ := Replica.beginApply_eq_some.mp hf
          rw [heq]
          exact iff_of_true hskip trivial
      | call hf => exact iff_of_true (Follower.skipsNothing_callApply hskip hser hf) trivial
      | applied hf =>
          rw [Follower.skipsNothing_endApply hskip hser hf]
          exact ⟨fun h _ => h, fun h => h rfl⟩
      | rest hop hf =>
          rw [hf]
          exact iff_of_true hskip (repeats_of_elsewhere hop)

/-- Every follower passes its entries on in the order of their indexes. -/
theorem serial_of_exec {ops : List (LivesOp n)} (h : exec livesStep (init n) ops = some c) (p : Fin n) :
    (c.peers p).follower.Serial :=
  exec_invariant (I := fun c : Cluster n => (c.peers p).follower.Serial) Follower.serial_new
    (fun _ _ _ hi hs => serial_livesStep hs hi) h

/-- **When a follower passes nothing over.** In every state of a run of any number of leader lives, no entry
    that the follower holds under an applied index differs from the one passed to its callback there, if and only if
    every delivery repeats what was received at its applied indices and every entry is accounted for only while all that
    was received under its index asks for the same as what the callback has read. -/
theorem skipsNothing_iff_repeats {ops : List (LivesOp n)} (h : exec livesStep (init n) ops = some c)
    (p : Fin n) :
    Along livesStep (fun _ c => (c.peers p).follower.SkipsNothing) (init n) ops ↔
      Meets livesStep (Repeats p) (init n) ops := by
  refine along_iff_meets ?_ (fun pre op c c' _ hc hs _ hskip => ?_) h
  · exact fun e he => absurd he (by simp [init, Replica.new])
  · exact skipsNothing_livesStep hs (serial_of_exec hc p) hskip

/-- One write in each of two lives. -/
def secondLifeRun : List (LivesOp 1) :=
  let life (key : String) (i : Nat) : List (LivesOp 1) :=
    [.act (.connect onlyPeer), .act (.append 0 ⟨0, 0, .put, Bytes.ascii key, Bytes.ascii "1"⟩), .act (.commit 0),
      .act (.stamp 0), .act (.build 0), .act (.ship 0), .act (.send 0 true), .act (.deliver onlyPeer i true),
      .act (.recv 0 1), .act (.finish 0)]
  life "a" 0 ++ ([.act (.followerApply onlyPeer), .act (.followerCall onlyPeer ⟨0, 0, .put, [], []⟩),
    .act (.followerApplied onlyPeer), .restart] : List (LivesOp 1)) ++ life "b" 1

theorem skipsNothing_iff_secondLifeRun :
    Along livesStep (fun _ c => (c.peers 0).follower.SkipsNothing) (init 1) secondLifeRun ↔
      Meets livesStep (Repeats 0) (init 1) secondLifeRun := by
  have hrun : (exec livesStep (init 1) secondLifeRun).isSome := by decide +kernel
  obtain ⟨c, hc⟩ := Option.isSome_iff_exists.mp hrun
  exact skipsNothing_iff_repeats hc 0

/-- The write of the second life is acknowledged, logged under index 1 and never applied. -/
theorem skips_secondLife : ∃ c, exec livesStep (init 1) secondLifeRun = some c ∧
    (c.calls 0).map (·.pc) = some (.returned true) ∧
    (c.peers 0).follower.log.map (fun e => (e.index, e.key)) = [(1, Bytes.ascii "a"), (1, Bytes.ascii "b")] ∧
    (c.peers 0).follower.passed.map (·.key) = [Bytes.ascii "a"] ∧
    ¬ (c.peers 0).follower.SkipsNothing := by
  have hrun : (exec livesStep (init 1) secondLifeRun).map (fun c => decide
      ((c.calls 0).map (·.pc) = some (.returned true) ∧
        (c.peers 0).follower.log.map (fun e => (e.index, e.key)) =
          [(1, Bytes.ascii "a"), (1, Bytes.ascii "b")] ∧
        (c.peers 0).follower.passed.map (·.key) = [Bytes.ascii "a"] ∧
        ¬ (c.peers 0).follower.SkipsNothing)) = some true := by decide +kernel
  obtain ⟨c, hc, hval⟩ := Option.map_eq_some_iff.mp hrun
  exact ⟨c, hc, of_decide_eq_true hval⟩

end Cluster

end KvStorageEngine.Distributed
