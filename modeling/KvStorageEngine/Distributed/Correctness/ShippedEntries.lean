import KvStorageEngine.Distributed.Correctness.AppliedPrefix

/-!
# `Distributed.Correctness.ShippedEntries` — which entries reach a message

A call of `replicate` does not keep the entry it appended; it reads `log_.back()` again later, without the
lock. An entry can therefore get into a message only while it is the last one. Two calls that both append
before either of them builds its message ship the second entry twice and the first one never.

So nothing is lost exactly when every append finds the last entry already in some message
(`allShipped_iff_builtBeforeAppend`). One direction is an invariant of such runs (`Covered`), the other a trap:
once an entry is overtaken it stays `Overtaken`.
-/

namespace KvStorageEngine.Distributed

open NumberedLog Run

/-- The call has still to read `log_.back()`. -/
def ReplicatePc.WillBuild {n : Nat} : ReplicatePc n → Prop
  | .appended | .committed | .stamped _ _ => True
  | .built _ | .shipping _ _ _ | .awaiting _ _ _ _ | .returned _ => False

namespace Cluster

variable {n : Nat} {c c' : Cluster n}

/-- The entry is in a message that some call has built, handed over or not. -/
def Built (c : Cluster n) (e : LogEntry) : Prop :=
  (∃ msg ∈ c.shipped, e ∈ msg.entries) ∨
    ∃ t own msg, c.calls t = some ⟨own, .built msg⟩ ∧ e ∈ msg.entries

/-- Some call has still to read `log_.back()`. -/
def Pending (c : Cluster n) : Prop := ∃ t own pc, c.calls t = some ⟨own, pc⟩ ∧ pc.WillBuild

/-- All calls have returned. -/
def AllReturned (c : Cluster n) : Prop := ∀ t call, c.calls t = some call → ∃ ok, call.pc = .returned ok

/-- Every entry has been handed to `shipEntries`. -/
def AllShipped (c : Cluster n) : Prop := ∀ e ∈ c.leader.log, ∃ msg ∈ c.shipped, e ∈ msg.entries

instance (c : Cluster n) : Decidable c.AllShipped :=
  inferInstanceAs (Decidable (∀ e ∈ c.leader.log, ∃ msg ∈ c.shipped, e ∈ msg.entries))

/-- When an entry is appended, some call has already put the last entry into a message. -/
def BuiltBeforeAppend (c : Cluster n) : ClusterOp n → Prop
  | .append _ _ => ∀ last, c.leader.log.getLast? = some last → c.Built last
  | _ => True

/-! ## What the steps build

A message is made by the step that reads `log_.back()`. From then on it is in the call, in the hands of the log
shipper, or sent. -/

section Steps

variable {t : Nat} {own e : LogEntry} {pc : ReplicatePc n}

/-- A call that neither had a message to hand over nor has one now changes nothing. -/
theorem built_setPc (hold : ∀ own msg, c.calls t ≠ some ⟨own, .built msg⟩) (hnew : ∀ msg, pc ≠ .built msg) :
    (c.setPc t own pc).Built e ↔ c.Built e := by
  refine or_congr_right ⟨?_, ?_⟩
  · rintro ⟨u, own', msg, hu, he⟩
    by_cases hut : u = t
    · subst hut
      rw [calls_setPc_self] at hu
      exact absurd (congrArg ReplicateCall.pc (Option.some.inj hu)) (hnew msg)
    · rw [calls_setPc_ne c hut] at hu
      exact ⟨u, own', msg, hu, he⟩
  · rintro ⟨u, own', msg, hu, he⟩
    have hut : u ≠ t := by
      rintro rfl
      exact hold own' msg hu
    exact ⟨u, own', msg, (calls_setPc_ne c hut own pc).trans hu, he⟩

/-- Reading `log_.back()` adds the last entry. -/
theorem built_setPc_built (hold : ∀ own msg, c.calls t ≠ some ⟨own, .built msg⟩) {last : LogEntry}
    {term leaderCommit : Nat} :
    (c.setPc t own (.built ⟨term, leaderCommit, [last]⟩)).Built e ↔ c.Built e ∨ last = e := by
  constructor
  · rintro (h | ⟨u, own', msg, hu, he⟩)
    · exact Or.inl (Or.inl h)
    · by_cases hut : u = t
      · subst hut
        rw [calls_setPc_self] at hu
        have hmsg := congrArg ReplicateCall.pc (Option.some.inj hu)
        obtain rfl := ReplicatePc.built.inj hmsg
        exact Or.inr (List.mem_singleton.mp he).symm
      · rw [calls_setPc_ne c hut] at hu
        exact Or.inl (Or.inr ⟨u, own', msg, hu, he⟩)
  · rintro ((h | ⟨u, own', msg, hu, he⟩) | rfl)
    · exact Or.inl h
    · have hut : u ≠ t := by
        rintro rfl
        exact hold own' msg hu
      exact Or.inr ⟨u, own', msg, (calls_setPc_ne c hut own _).trans hu, he⟩
    · exact Or.inr ⟨t, own, _, calls_setPc_self .., List.mem_singleton_self _⟩

/-- Handing a message over moves its entries from the call to the history. -/
theorem built_ship {msg : ReplicationMessage} (hpc : c.calls t = some ⟨own, .built msg⟩)
    (hnew : ∀ msg, pc ≠ .built msg) (held : Bool) :
    ({ c with peersMutex := held, shipped := c.shipped ++ [msg] }.setPc t own pc).Built e ↔ c.Built e := by
  constructor
  · rintro (⟨m, hm, he⟩ | ⟨u, own', m, hu, he⟩)
    · rcases List.mem_append.mp hm with hm | hm
      · exact Or.inl ⟨m, hm, he⟩
      · rw [List.mem_singleton.mp hm] at he
        exact Or.inr ⟨t, own, msg, hpc, he⟩
    · by_cases hut : u = t
      · subst hut
        rw [calls_setPc_self] at hu
        exact absurd (congrArg ReplicateCall.pc (Option.some.inj hu)) (hnew m)
      · rw [calls_setPc_ne _ hut] at hu
        exact Or.inr ⟨u, own', m, hu, he⟩
  · rintro (⟨m, hm, he⟩ | ⟨u, own', m, hu, he⟩)
    · exact Or.inl ⟨m, List.mem_append_left _ hm, he⟩
    · by_cases hut : u = t
      · subst hut
        have hmsg := congrArg ReplicateCall.pc (Option.some.inj (hpc.symm.trans hu))
        obtain rfl := ReplicatePc.built.inj hmsg
        exact Or.inl ⟨msg, List.mem_append_right _ List.mem_cons_self, he⟩
      · exact Or.inr ⟨u, own', m, (calls_setPc_ne _ hut own pc).trans hu, he⟩

/-- **What a step builds**: nothing, except that `build` puts the last entry into a message. -/
theorem built_step {op : ClusterOp n} (hs : c.step op = some c') :
    c'.Built e ↔ c.Built e ∨ (∃ t, op = .build t) ∧ c.leader.log.getLast? = some e := by
  have hquiet {c' : Cluster n} (hop : ∀ t, op ≠ .build t) (h : c'.Built e ↔ c.Built e) :
      c'.Built e ↔ c.Built e ∨ (∃ t, op = .build t) ∧ c.leader.log.getLast? = some e := by
    rw [h]
    refine ⟨Or.inl, fun h => h.resolve_right ?_⟩
    rintro ⟨⟨t, rfl⟩, -⟩
    exact hop t rfl
  cases Effect.of_step hs with
  | append entry hpc =>
      apply hquiet (by simp)
      exact built_setPc (c := { c with leader := _ }) (by simp [hpc]) (by simp)
  | commit hpc hlast =>
      apply hquiet (by simp)
      exact built_setPc (c := { c with leader := _ }) (by simp [hpc]) (by simp)
  | stamp hpc => exact hquiet (by simp) (built_setPc (by simp [hpc]) (by simp))
  | @build t own last term leaderCommit hpc hlast =>
      rw [built_setPc_built (by simp [hpc]), hlast, Option.some.injEq]
      simp
  | ship hpc hmutex => exact hquiet (by simp) (built_ship hpc (by simp) true)
  | @sent t own msg p left k hpc hconn =>
      apply hquiet (by simp)
      exact built_setPc (c := c.setPeer p _) (by simp [setPeer, hpc]) (by simp)
  | @sendFailed t own msg p left k hpc hconn =>
      apply hquiet (by simp)
      exact built_setPc (c := c.setPeer p _) (by simp [setPeer, hpc]) (by simp)
  | passedOver hpc hconn => exact hquiet (by simp) (built_setPc (by simp [hpc]) (by simp))
  | noAnswer hpc => exact hquiet (by simp) (built_setPc (by simp [hpc]) (by simp))
  | @answered t answers own msg p left k hpc hpos hacks =>
      apply hquiet (by simp)
      exact built_setPc (c := c.setPeer p _) (by simp [setPeer, hpc]) (by simp)
  | finish hpc =>
      apply hquiet (by simp)
      exact built_setPc (c := { c with peersMutex := false }) (by simp [hpc]) (by simp)
  | connect hmutex hconn => exact hquiet (by simp) Iff.rfl
  | leaderApply hl => exact hquiet (by simp) Iff.rfl
  | leaderCall hl => exact hquiet (by simp) Iff.rfl
  | leaderApplied hl => exact hquiet (by simp) Iff.rfl
  | deliver hmsg => exact hquiet (by simp) Iff.rfl
  | followerApply hf => exact hquiet (by simp) Iff.rfl
  | followerCall hf => exact hquiet (by simp) Iff.rfl
  | followerApplied hf => exact hquiet (by simp) Iff.rfl

/-- A call that has still to read `log_.back()` stays one, unless it is the one that moves on. -/
theorem pending_setPc (h : c.Pending)
    (hkeep : ∀ own' pc', c.calls t = some ⟨own', pc'⟩ → pc'.WillBuild → pc.WillBuild) :
    (c.setPc t own pc).Pending := by
  obtain ⟨u, own', pc', hu, hw⟩ := h
  by_cases hut : u = t
  · subst hut
    exact ⟨u, own, pc, calls_setPc_self .., hkeep own' pc' hu hw⟩
  · exact ⟨u, own', pc', (calls_setPc_ne c hut own pc).trans hu, hw⟩

/-- A call that is still to build stays so until it builds. -/
theorem pending_step {op : ClusterOp n} (hs : c.step op = some c') (hop : ∀ t, op ≠ .build t)
    (h : c.Pending) : c'.Pending := by
  have hpast {t : Nat} {own : LogEntry} {pc pc' : ReplicatePc n} (hpc : c.calls t = some ⟨own, pc⟩)
      (hdone : ¬ pc.WillBuild) (own' : LogEntry) (pc'' : ReplicatePc n)
      (hpc' : c.calls t = some ⟨own', pc''⟩) (hw : pc''.WillBuild) : pc'.WillBuild := by
    obtain rfl := congrArg ReplicateCall.pc (Option.some.inj (hpc.symm.trans hpc'))
    exact absurd hw hdone
  cases Effect.of_step hs with
  | append entry hpc => exact pending_setPc (c := { c with leader := _ }) h (fun _ _ _ _ => trivial)
  | commit hpc hlast => exact pending_setPc (c := { c with leader := _ }) h (fun _ _ _ _ => trivial)
  | stamp hpc => exact pending_setPc h (fun _ _ _ _ => trivial)
  | build hpc hlast => exact absurd rfl (hop _)
  | ship hpc hmutex =>
      exact pending_setPc (c := { c with peersMutex := _, shipped := _ }) h (hpast hpc id)
  | @sent t own msg p left k hpc hconn => exact pending_setPc (c := c.setPeer p _) h (hpast hpc id)
  | @sendFailed t own msg p left k hpc hconn => exact pending_setPc (c := c.setPeer p _) h (hpast hpc id)
  | passedOver hpc hconn => exact pending_setPc h (hpast hpc id)
  | noAnswer hpc => exact pending_setPc h (hpast hpc id)
  | @answered t answers own msg p left k hpc hpos hacks =>
      exact pending_setPc (c := c.setPeer p _) h (hpast hpc id)
  | finish hpc => exact pending_setPc (c := { c with peersMutex := _ }) h (hpast hpc id)
  | _ => exact h

end Steps

/-! ## Nothing is lost

While every append finds the last entry in a message, all entries but the last are in one, and the last has a call
that is still to build. -/

/-- Every entry before the last one is in a message, and so is the last one unless some call has still to
    look at it. -/
structure Covered (c : Cluster n) : Prop where
  before : ∀ e ∈ c.leader.log.dropLast, c.Built e
  last : ∀ e, c.leader.log.getLast? = some e → c.Built e ∨ c.Pending

theorem covered_init (n : Nat) : (init n).Covered :=
  ⟨fun e he => absurd he (by simp [init, Replica.new]), fun e he => absurd he (by simp [init, Replica.new])⟩

/-- A step that builds before the next append keeps every entry covered. -/
theorem Covered.step (h : c.Covered) {op : ClusterOp n} (hC : c.BuiltBeforeAppend op)
    (hs : c.step op = some c') : c'.Covered := by
  have hkeep : ∀ e, c.Built e → c'.Built e := fun e he => (built_step hs).mpr (Or.inl he)
  rcases log_step hs with ⟨t, entry, rfl, hlog⟩ | ⟨hop, hlog⟩
  · refine ⟨?_, fun e he => Or.inr ?_⟩
    · intro e he
      rw [hlog, List.dropLast_concat] at he
      rcases mem_dropLast_or_getLast? he with he | he
      · exact hkeep e (h.before e he)
      · exact hkeep e (hC e he)
    · -- the call that appended it has still to come to `log_.back()`
      cases Effect.of_step hs with
      | append entry hpc => exact ⟨t, _, .appended, calls_setPc_self .., trivial⟩
  · refine ⟨fun e he => hkeep e (h.before e (hlog ▸ he)), ?_⟩
    intro e he
    rw [hlog] at he
    by_cases hbuild : ∃ t, op = .build t
    · exact Or.inl ((built_step hs).mpr (Or.inr ⟨hbuild, he⟩))
    · have hbuild : ∀ t, op ≠ .build t := fun t ht => hbuild ⟨t, ht⟩
      exact (h.last e he).imp (hkeep e) (pending_step hs hbuild)

/-- When all calls have returned, what was built has been handed over. -/
theorem Covered.allShipped (h : c.Covered) (hret : c.AllReturned) : c.AllShipped := by
  have hshipped : ∀ e, c.Built e → ∃ msg ∈ c.shipped, e ∈ msg.entries := by
    rintro e (he | ⟨t, own, msg, hpc, -⟩)
    · exact he
    · obtain ⟨ok, hok⟩ := hret t _ hpc
      exact absurd hok (by simp)
  have hdone : ¬ c.Pending := by
    rintro ⟨t, own, pc, hpc, hw⟩
    obtain ⟨ok, rfl⟩ := hret t _ hpc
    exact hw
  intro e he
  rcases mem_dropLast_or_getLast? he with he | he
  · exact hshipped e (h.before e he)
  · exact hshipped e ((h.last e he).resolve_right hdone)

/-! ## Something is lost

An entry that is no longer the last, and in no message, is in none ever after. -/

/-- An entry that is in no message and no longer the last one. -/
def Overtaken (c : Cluster n) : Prop := ∃ e ∈ c.leader.log.dropLast, ¬ c.Built e

/-- An append over an entry in no message overtakes it. -/
theorem overtaken_of_not_builtBeforeAppend {op : ClusterOp n} (hs : c.step op = some c')
    (hC : ¬ c.BuiltBeforeAppend op) : c'.Overtaken := by
  rcases log_step hs with ⟨t, entry, rfl, hlog⟩ | ⟨hop, -⟩
  · simp only [BuiltBeforeAppend, not_forall] at hC
    obtain ⟨e, he, hnot⟩ := hC
    refine ⟨e, ?_, ?_⟩
    · rw [hlog, List.dropLast_concat]
      exact List.mem_of_getLast? he
    · intro hb
      rcases (built_step hs).mp hb with hb | ⟨⟨u, hu⟩, -⟩
      · exact hnot hb
      · exact absurd hu (by simp)
  · -- only `append` has a condition
    cases op with
    | append t entry => exact absurd rfl (hop t entry)
    | _ => exact absurd trivial hC

/-- It stays so: the steps read the last entry only. -/
theorem Overtaken.step (h : c.Overtaken) (hinv : c.Inv) {op : ClusterOp n} (hs : c.step op = some c') :
    c'.Overtaken := by
  obtain ⟨e, he, hnot⟩ := h
  refine ⟨e, ?_, ?_⟩
  · rcases log_step hs with ⟨t, entry, -, hlog⟩ | ⟨-, hlog⟩
    · rw [hlog, List.dropLast_concat]
      exact List.mem_of_mem_dropLast he
    · exact hlog ▸ he
  · intro hb
    rcases (built_step hs).mp hb with hb | ⟨-, hlast⟩
    · exact hnot hb
    · exact hinv.numbered.ne_getLast? he hlast

/-! ## Whole runs

When all calls have returned nobody is still to build, so the last entry is in a message as well. -/

/-- **Which runs ship every entry.** When all calls have returned, every entry has been handed to
    `shipEntries` if and only if every append found the last entry already in a message. -/
theorem allShipped_iff_builtBeforeAppend {ops : List (ClusterOp n)}
    (h : exec Cluster.step (init n) ops = some c) (hret : c.AllReturned) :
    c.AllShipped ↔ Meets Cluster.step BuiltBeforeAppend (init n) ops := by
  constructor
  · intro hall
    refine meets_of_trap (T := Overtaken) (inv_init n) (fun _ _ _ hi hs => hi.step hs)
      (fun _ _ _ _ hs hC => overtaken_of_not_builtBeforeAppend hs hC)
      (fun _ _ _ hi ht hs => ht.step hi hs) h ?_
    rintro ⟨e, he, hnot⟩
    exact hnot (Or.inl (hall e (List.mem_of_mem_dropLast he)))
  · intro hC
    have hcov : c.Covered :=
      exec_invariant_of_meets (covered_init n) (fun _ _ _ hi hC hs => hi.step hC hs) hC h
    exact hcov.allShipped hret

/-- A number that no `append` of the run has used is still free. -/
theorem calls_eq_none {ops : List (ClusterOp n)} {t : Nat} (h : exec Cluster.step (init n) ops = some c)
    (ht : ∀ op ∈ ops, ∀ entry, op ≠ .append t entry) : c.calls t = none := by
  have hfree : ∀ (c c' : Cluster n) op, c.calls t = none → (∀ entry, op ≠ .append t entry) →
      c.step op = some c' → c'.calls t = none := by
    intro c c' op hnone hop hs
    have hne {u : Nat} {call : ReplicateCall n} (hu : c.calls u = some call) : t ≠ u := by
      rintro rfl
      exact absurd (hnone.symm.trans hu) (by simp)
    cases Effect.of_step hs with
    | @append u entry hpc =>
        have hut : t ≠ u := by
          rintro rfl
          exact hop entry rfl
        exact (calls_setPc_ne _ hut _ _).trans hnone
    | commit hpc _ => exact (calls_setPc_ne _ (hne hpc) _ _).trans hnone
    | stamp hpc => exact (calls_setPc_ne _ (hne hpc) _ _).trans hnone
    | build hpc _ => exact (calls_setPc_ne _ (hne hpc) _ _).trans hnone
    | ship hpc _ => exact (calls_setPc_ne _ (hne hpc) _ _).trans hnone
    | sent hpc _ => exact (calls_setPc_ne _ (hne hpc) _ _).trans hnone
    | sendFailed hpc _ => exact (calls_setPc_ne _ (hne hpc) _ _).trans hnone
    | passedOver hpc _ => exact (calls_setPc_ne _ (hne hpc) _ _).trans hnone
    | noAnswer hpc => exact (calls_setPc_ne _ (hne hpc) _ _).trans hnone
    | answered hpc _ _ => exact (calls_setPc_ne _ (hne hpc) _ _).trans hnone
    | finish hpc => exact (calls_setPc_ne _ (hne hpc) _ _).trans hnone
    | _ => exact hnone
  refine exec_invariant_of_meets (I := fun c => c.calls t = none)
    (C := fun _ op => ∀ entry, op ≠ .append t entry) rfl ?_ (meets_of_forall (fun op hop _ => ht op hop) _) h
  intro c op c' hnone hop hs
  exact hfree c c' op hnone hop hs

/-- Both calls append before either of them reads `log_.back()`. -/
def overlappingRun : List (ClusterOp 1) :=
  [.connect onlyPeer, .append 0 ⟨0, 0, .put, Bytes.ascii "a", Bytes.ascii "1"⟩,
    .append 1 ⟨0, 0, .put, Bytes.ascii "b", Bytes.ascii "2"⟩,
    .commit 0, .commit 1, .stamp 0, .stamp 1, .build 0, .build 1,
    .ship 0, .send 0 true, .deliver onlyPeer 0 true, .recv 0 1, .finish 0,
    .ship 1, .send 1 true, .deliver onlyPeer 1 true, .recv 1 1, .finish 1]

theorem allReturned_overlappingRun {c : Cluster 1}
    (h : exec Cluster.step (init 1) overlappingRun = some c) : c.AllReturned := by
  intro t call ht
  match t with
  | 0 | 1 =>
    have hrun : (exec Cluster.step (init 1) overlappingRun).map
        (fun c => [c.calls 0, c.calls 1].map (Option.map (·.pc))) =
          some [some (.returned true), some (.returned true)] := by decide +kernel
    rw [h] at hrun
    have hpc := Option.some.inj hrun
    simp only [List.map_cons, List.map_nil, List.cons.injEq, and_true] at hpc
    simp only [ht, Option.map_some, Option.some.injEq] at hpc
    exact ⟨true, by tauto⟩
  | t + 2 =>
    rw [calls_eq_none h (by simp [overlappingRun])] at ht
    exact absurd ht (by simp)

theorem allShipped_iff_overlappingRun : ∃ c, exec Cluster.step (init 1) overlappingRun = some c ∧
    (c.AllShipped ↔ Meets Cluster.step BuiltBeforeAppend (init 1) overlappingRun) := by
  have hrun : (exec Cluster.step (init 1) overlappingRun).isSome := by decide +kernel
  obtain ⟨c, hc⟩ := Option.isSome_iff_exists.mp hrun
  exact ⟨c, hc, allShipped_iff_builtBeforeAppend hc (allReturned_overlappingRun hc)⟩

/-- Both calls have returned and were acknowledged, both messages carry the second entry, and the follower
    has been told to apply an entry that it will never receive. -/
theorem not_allShipped_overlappingRun : ∃ c, exec Cluster.step (init 1) overlappingRun = some c ∧
    c.AllReturned ∧ c.shipped.map (·.entries.map (·.index)) = [[2], [2]] ∧
    (c.peers 0).follower.commitIndex = 2 ∧ ¬ c.AllShipped := by
  have hrun : (exec Cluster.step (init 1) overlappingRun).map (fun c =>
      (c.shipped.map (·.entries.map (·.index)), (c.peers 0).follower.commitIndex,
        decide c.AllShipped)) = some ([[2], [2]], 2, false) := by
    decide +kernel
  obtain ⟨c, hc, hval⟩ := Option.map_eq_some_iff.mp hrun
  obtain ⟨hshipped, hval⟩ := Prod.mk.inj hval
  obtain ⟨hcommit, hnot⟩ := Prod.mk.inj hval
  exact ⟨c, hc, allReturned_overlappingRun hc, hshipped, hcommit, of_decide_eq_false hnot⟩

end Cluster

end KvStorageEngine.Distributed
