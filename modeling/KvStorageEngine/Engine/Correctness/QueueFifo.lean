import KvStorageEngine.Engine.WriteQueue

/-!
# `Engine.Correctness.QueueFifo` — the write queue loses nothing

What was taken out, followed by what is in the queue, is what was accepted, in order (`QueueInv.fifo`), and the queue
never outgrows its bound. A request that was refused is not one that was accepted, which takes that no two requests
share a promise: `QueueInv` keeps the ids of waiting pushers apart from each other and from all that is decided.

After `shutdown` nothing is accepted any more (`accepted_of_shutdown`), and what was is still handed out
(`popLock_of_cons`, `exec_drain`). `lossless` puts it together.
-/

namespace KvStorageEngine

open Run

namespace WriteQueue

variable {ι : Type} [DecidableEq ι]

/-- What holds in every reachable state. -/
structure QueueInv (maxSize : Nat) (s : WriteQueue ι) : Prop where
  maxSize_eq : s.maxSize = maxSize
  fifo : s.removed ++ s.queue = s.accepted
  bound : s.queue.length ≤ maxSize
  below : ∀ r ∈ s.accepted ++ s.refused, r.id < s.nextId
  waiting : ∀ i r, s.threads i = .pushing r → r.id < s.nextId ∧ ∀ x ∈ s.accepted ++ s.refused, x.id ≠ r.id
  apart : ∀ i j r r', s.threads i = .pushing r → s.threads j = .pushing r' → r.id = r'.id → i = j
  refused : ∀ r ∈ s.refused, s.completions r.id = some false ∧ ∀ x ∈ s.accepted, x.id ≠ r.id

theorem threads_setPc (s : WriteQueue ι) (i j : ι) (pc : QueuePc) :
    (s.setPc i pc).threads j = if j = i then pc else s.threads j := Function.update_apply ..

/-- A pusher that waits after a thread has moved on waited before, unless it is that thread. -/
theorem pushing_setPc {s : WriteQueue ι} {i j : ι} {pc : QueuePc} {r : QueuedRequest}
    (h : (s.setPc i pc).threads j = .pushing r) (hpc : ∀ r, pc ≠ .pushing r) :
    j ≠ i ∧ s.threads j = .pushing r := by
  rw [threads_setPc] at h
  split_ifs at h with hj
  · exact absurd h (hpc r)
  · exact ⟨hj, h⟩

namespace QueueInv

variable {maxSize : Nat} {s s' : WriteQueue ι} {i : ι} {r : QueuedRequest}

theorem init (ι : Type) [DecidableEq ι] (maxSize : Nat) : QueueInv maxSize (WriteQueue.init ι maxSize) where
  maxSize_eq := rfl
  fifo := rfl
  bound := Nat.zero_le _
  below := by simp [WriteQueue.init]
  waiting := by simp [WriteQueue.init]
  apart := by simp [WriteQueue.init]
  refused := by simp [WriteQueue.init]

/-! ## A. The steps

A push gets a new id, which keeps its request apart from all others; the other steps move a request from one place to
the next. -/

/-- A new request has an id of its own. -/
theorem push (h : QueueInv maxSize s) (i : ι) (request : WriteRequest) :
    QueueInv maxSize ({ s with nextId := s.nextId + 1 }.setPc i (.pushing ⟨s.nextId, request⟩)) := by
  have hold : ∀ j r, ({ s with nextId := s.nextId + 1 }.setPc i (.pushing ⟨s.nextId, request⟩)).threads j
      = .pushing r → (j = i ∧ r.id = s.nextId) ∨ s.threads j = .pushing r := by
    intro j r hj
    rw [threads_setPc] at hj
    split_ifs at hj with he
    · obtain rfl := QueuePc.pushing.inj hj
      exact Or.inl ⟨he, rfl⟩
    · exact Or.inr hj
  refine ⟨h.maxSize_eq, h.fifo, h.bound, fun r hr => Nat.lt_succ_of_lt (h.below r hr), ?_,
    ?_, h.refused⟩
  · intro j r hj
    rcases hold j r hj with ⟨-, hr⟩ | hj
    · refine ⟨hr ▸ Nat.lt_succ_self _, ?_⟩
      intro x hx
      have := h.below x hx
      omega
    · obtain ⟨hlt, hne⟩ := h.waiting j r hj
      exact ⟨Nat.lt_succ_of_lt hlt, hne⟩
  · intro j k r r' hj hk hid
    rcases hold j r hj with ⟨hji, hr⟩ | hj' <;> rcases hold k r' hk with ⟨hki, hr'⟩ | hk'
    · exact hji.trans hki.symm
    · have := (h.waiting k r' hk').1
      omega
    · have := (h.waiting j r hj').1
      omega
    · exact h.apart j k r r' hj' hk' hid

/-- A pusher that finds room puts its request at the end. -/
theorem enqueue (h : QueueInv maxSize s) (hpc : s.threads i = .pushing r)
    (hroom : s.queue.length < s.maxSize) : QueueInv maxSize (s.enqueue i r) := by
  obtain ⟨hlt, hne⟩ := h.waiting i r hpc
  have hdecided : ∀ x ∈ (s.accepted ++ [r]) ++ s.refused, x = r ∨ x ∈ s.accepted ++ s.refused := by
    intro x hx
    simp only [List.mem_append, List.mem_singleton] at hx ⊢
    tauto
  refine ⟨h.maxSize_eq, ?_, ?_, ?_, ?_, ?_, ?_⟩
  · show s.removed ++ (s.queue ++ [r]) = s.accepted ++ [r]
    rw [← List.append_assoc, h.fifo]
  · show (s.queue ++ [r]).length ≤ maxSize
    rw [List.length_append, List.length_singleton, ← h.maxSize_eq]
    exact hroom
  · intro x hx
    rcases hdecided x hx with rfl | hx
    · exact hlt
    · exact h.below x hx
  · intro j x hj
    obtain ⟨hji, hj⟩ := pushing_setPc hj (by simp)
    obtain ⟨hlt', hne'⟩ := h.waiting j x hj
    refine ⟨hlt', ?_⟩
    intro y hy
    rcases hdecided y hy with rfl | hy
    · intro he
      exact hji (h.apart j i x y hj hpc he.symm)
    · exact hne' y hy
  · intro j k x y hj hk
    exact h.apart j k x y (pushing_setPc hj (by simp)).2 (pushing_setPc hk (by simp)).2
  · intro x hx
    obtain ⟨hfalse, hacc⟩ := h.refused x hx
    refine ⟨hfalse, ?_⟩
    intro y hy
    rcases List.mem_append.mp hy with hy | hy
    · exact hacc y hy
    · rw [List.mem_singleton.mp hy]
      exact (hne x (List.mem_append_right _ hx)).symm

/-- A pusher that finds the queue shut down gives its promise `false`. -/
theorem refuse (h : QueueInv maxSize s) (hpc : s.threads i = .pushing r) : QueueInv maxSize (s.refuse i r) := by
  obtain ⟨hlt, hne⟩ := h.waiting i r hpc
  have hdecided : ∀ x ∈ s.accepted ++ (s.refused ++ [r]), x = r ∨ x ∈ s.accepted ++ s.refused := by
    intro x hx
    simp only [List.mem_append, List.mem_singleton] at hx ⊢
    tauto
  refine ⟨h.maxSize_eq, h.fifo, h.bound, ?_, ?_, ?_,
    ?_⟩
  · intro x hx
    rcases hdecided x hx with rfl | hx
    · exact hlt
    · exact h.below x hx
  · intro j x hj
    obtain ⟨hji, hj⟩ := pushing_setPc hj (by simp)
    obtain ⟨hlt', hne'⟩ := h.waiting j x hj
    refine ⟨hlt', ?_⟩
    intro y hy
    rcases hdecided y hy with rfl | hy
    · intro he
      exact hji (h.apart j i x y hj hpc he.symm)
    · exact hne' y hy
  · intro j k x y hj hk
    exact h.apart j k x y (pushing_setPc hj (by simp)).2 (pushing_setPc hk (by simp)).2
  · intro x hx
    show Function.update s.completions r.id (some false) x.id = some false ∧ _
    rcases List.mem_append.mp hx with hx | hx
    · obtain ⟨hfalse, hacc⟩ := h.refused x hx
      refine ⟨?_, hacc⟩
      rw [Function.update_of_ne (hne x (List.mem_append_right _ hx))]
      exact hfalse
    · rw [List.mem_singleton.mp hx]
      exact ⟨Function.update_self .., fun y hy => hne y (List.mem_append_left _ hy)⟩

theorem setPc (h : QueueInv maxSize s) {pc : QueuePc} (hpc : ∀ r, pc ≠ .pushing r) :
    QueueInv maxSize (s.setPc i pc) :=
  ⟨h.maxSize_eq, h.fifo, h.bound, h.below, fun j x hj => h.waiting j x (pushing_setPc hj hpc).2,
    fun j k x y hj hk => h.apart j k x y (pushing_setPc hj hpc).2 (pushing_setPc hk hpc).2, h.refused⟩

/-- A consumer takes requests off the front. -/
theorem take (h : QueueInv maxSize s) (i : ι) (n : Nat) : QueueInv maxSize (s.take i n) := by
  have hset : QueueInv maxSize (s.setPc i (.returned (s.queue.take n))) := h.setPc (by simp)
  refine ⟨hset.maxSize_eq, ?_, ?_, hset.below, hset.waiting, hset.apart, hset.refused⟩
  · show s.removed ++ s.queue.take n ++ s.queue.drop n = s.accepted
    rw [List.append_assoc, List.take_append_drop, h.fifo]
  · show (s.queue.drop n).length ≤ maxSize
    rw [List.length_drop]
    exact (Nat.sub_le _ _).trans h.bound

/-- Every step keeps the queue in order. -/
theorem step {op : QueueOp ι} (h : QueueInv maxSize s) (hs : s.step op = some s') : QueueInv maxSize s' := by
  cases Effect.of_step hs with
  | push request _ => exact h.push _ request
  | enqueue hpc _ hroom => exact h.enqueue hpc hroom
  | refuse hpc _ => exact h.refuse hpc
  | call hpc _ => exact h.setPc hpc
  | take n _ => exact h.take _ n
  | shutdown => exact ⟨h.maxSize_eq, h.fifo, h.bound, h.below, h.waiting, h.apart, h.refused⟩

end QueueInv

/-! ## B. Whole runs

After `shutdown` a pusher's next step refuses its request and a consumer's takes what is there, so the queue can be
drained by as many calls of `pop` as it holds requests. -/

/-- The queue is in order in every reachable state. -/
theorem inv_of_exec {maxSize : Nat} {ops : List (QueueOp ι)} {s : WriteQueue ι}
    (h : exec step (init ι maxSize) ops = some s) : QueueInv maxSize s :=
  exec_invariant (QueueInv.init ι maxSize) (fun _ _ _ hinv hs => hinv.step hs) h

/-- A request that was refused stays so. -/
theorem refused_of_exec {s t : WriteQueue ι} {ops : List (QueueOp ι)} (h : exec step s ops = some t)
    {r : QueuedRequest} (hr : r ∈ s.refused) : r ∈ t.refused := by
  refine exec_invariant (I := fun t => r ∈ t.refused) hr (?_) h
  intro u op v hu hs
  cases Effect.of_step hs with
  | push | enqueue | call | take | shutdown => exact hu
  | refuse => exact List.mem_append_left _ hu

/-- **Nothing is accepted after a shutdown.** -/
theorem accepted_of_shutdown {s t : WriteQueue ι} {ops : List (QueueOp ι)} (h : exec step s ops = some t)
    (hs : s.shutdown = true) : t.shutdown = true ∧ t.accepted = s.accepted := by
  refine exec_invariant (I := fun t => t.shutdown = true ∧ t.accepted = s.accepted) ⟨hs, rfl⟩
    (fun u op v hu hstep => ?_) h
  cases Effect.of_step hstep with
  | push | call | take | refuse => exact hu
  | shutdown => exact ⟨rfl, hu.2⟩
  | enqueue _ hopen _ =>
      rw [hu.1] at hopen
      exact absurd hopen (by decide)

/-- **A pusher that gets the lock after a shutdown** is refused. -/
theorem pushLock_of_shutdown {s : WriteQueue ι} (hs : s.shutdown = true) {i : ι} {r : QueuedRequest}
    (hpc : s.threads i = .pushing r) : s.step (.pushLock i) = some (s.refuse i r) := by
  simp [step, hpc, hs]

/-- **A consumer that finds a request** gets the oldest one, shut down or not. -/
theorem popLock_of_cons {s : WriteQueue ι} {i : ι} (hpc : s.threads i = .popping) {r : QueuedRequest}
    {rest : List QueuedRequest} (hq : s.queue = r :: rest) :
    ∃ s', s.step (.popLock i) = some s' ∧ s'.threads i = .returned [r] ∧ s'.removed = s.removed ++ [r] ∧
      s'.queue = rest := by
  refine ⟨s.take i 1, by simp [step, hpc, hq], ?_, ?_, ?_⟩
  · show Function.update s.threads i _ i = _
    rw [Function.update_self, hq]
    rfl
  · show s.removed ++ s.queue.take 1 = _
    rw [hq]
    rfl
  · show s.queue.drop 1 = rest
    rw [hq]
    rfl

/-- As many calls of `pop` as there are requests take them all, in order. -/
theorem exec_drain {s : WriteQueue ι} {i : ι} {taken : List QueuedRequest}
    (hpc : s.threads i = .returned taken) :
    ∃ t, exec step s (List.replicate s.queue.length [.pop i, .popLock i]).flatten = some t ∧
      t.queue = [] ∧ t.removed = s.removed ++ s.queue := by
  generalize hq : s.queue = queue
  induction queue generalizing s taken with
  | nil => exact ⟨s, rfl, hq, (List.append_nil _).symm⟩
  | cons r rest ih =>
      have hpop : s.step (.pop i) = some (s.setPc i .popping) := by simp [step, hpc]
      have hpc' : (s.setPc i .popping).threads i = .popping := Function.update_self ..
      have hq' : (s.setPc i .popping).queue = r :: rest := hq
      obtain ⟨s', hlock, hret, hrem, hrest⟩ := popLock_of_cons hpc' hq'
      obtain ⟨t, ht, hnil, hall⟩ := ih hret hrest
      refine ⟨t, ?_, hnil, ?_⟩
      · rw [List.length_cons, List.replicate_succ, List.flatten_cons, exec_append, exec_cons, hpop,
          Option.bind_some, exec_cons, hlock, Option.bind_some, exec_nil, Option.bind_some, ht]
      · rw [hall, hrem]
        show s.removed ++ [r] ++ rest = _
        rw [List.append_assoc, List.singleton_append]

/-- What the queue promises of a state. What was taken out and what is still queued is what was accepted, in order; the
    queue is within its bound; a pusher that gets the lock after a shutdown is turned away for good; and after a shutdown
    consumers still get the oldest request first, until nothing of what was accepted is left. -/
structure Lossless (maxSize : Nat) (s : WriteQueue ι) : Prop where
  fifo : s.removed ++ s.queue = s.accepted
  bound : s.size ≤ maxSize
  refuses : s.shutdown = true → ∀ i r, s.threads i = .pushing r → ∃ s', s.step (.pushLock i) = some s' ∧
    ∀ more t, exec step s' more = some t → r ∉ t.accepted ∧ r ∉ t.queue ∧ t.completions r.id = some false
  delivers : s.shutdown = true → ∀ more t, exec step s more = some t → t.removed ++ t.queue = s.accepted ∧
    (∀ i r rest, t.threads i = .popping → t.queue = r :: rest → ∃ t', t.step (.popLock i) = some t' ∧
      t'.threads i = .returned [r] ∧ t'.removed = t.removed ++ [r] ∧ t'.queue = rest) ∧
    ∀ i taken, t.threads i = .returned taken →
      ∃ u, exec step t (List.replicate t.queue.length [.pop i, .popLock i]).flatten = some u ∧
        u.queue = [] ∧ u.removed = s.accepted

/-- **The queue is a bounded FIFO that loses nothing**, in every reachable state. -/
theorem lossless {maxSize : Nat} {ops : List (QueueOp ι)} {s : WriteQueue ι}
    (h : exec step (init ι maxSize) ops = some s) : Lossless maxSize s := by
  have hinv := inv_of_exec h
  refine ⟨hinv.fifo, hinv.bound, ?_, ?_⟩
  · intro hshut i r hpc
    refine ⟨s.refuse i r, pushLock_of_shutdown hshut hpc, ?_⟩
    intro more t ht
    have hinv' : QueueInv maxSize t :=
      exec_invariant (hinv.refuse hpc) (fun _ _ _ hi hs => hi.step hs) ht
    have hr : r ∈ t.refused := refused_of_exec ht (List.mem_append_right _ (List.mem_singleton.mpr rfl))
    obtain ⟨hfalse, hacc⟩ := hinv'.refused r hr
    have hnot : r ∉ t.accepted := fun hmem => hacc r hmem rfl
    refine ⟨hnot, fun hmem => hnot ?_, hfalse⟩
    rw [← hinv'.fifo]
    exact List.mem_append_right _ hmem
  · intro hshut more t ht
    have hinv' : QueueInv maxSize t := exec_invariant hinv (fun _ _ _ hi hs => hi.step hs) ht
    have hacc := (accepted_of_shutdown ht hshut).2
    refine ⟨hinv'.fifo.trans hacc, fun i r rest hpc hq => popLock_of_cons hpc hq, ?_⟩
    intro i taken hpc
    obtain ⟨u, hu, hnil, hall⟩ := exec_drain hpc
    exact ⟨u, hu, hnil, hall.trans (hinv'.fifo.trans hacc)⟩

/-- Two pushers and a queue for one request, shut down while the second waits. -/
def overtakenPush : List (QueueOp Bool) :=
  [.push true (.delete []), .pushLock true, .push false (.delete [1]), .shutdown]

theorem lossless_overtakenPush :
    ∃ s, exec step (init Bool 1) overtakenPush = some s ∧ Lossless 1 s := by
  have hrun : (exec step (init Bool 1) overtakenPush).isSome := by decide
  obtain ⟨s, hs⟩ := Option.isSome_iff_exists.mp hrun
  exact ⟨s, hs, lossless hs⟩

end WriteQueue

end KvStorageEngine
