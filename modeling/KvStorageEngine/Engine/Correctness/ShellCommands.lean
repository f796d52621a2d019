import KvStorageEngine.Engine.Shell

/-!
# `Engine.Correctness.ShellCommands` — what the interactive program understands

The parser looks for a word and for quotes only: whatever stands before a key, between the key and the value, or behind
them is passed over. So a key or a value with a quote in it cannot be written, and everything else can.
-/

namespace KvStorageEngine.CommandParser

/-- The lines that are commands, with their key and value. -/
inductive Reads : Bytes → Operation → Bytes → Bytes → Prop where
  | put {pre key mid value rest : Bytes} (hpre : 34 ∉ pre) (hkey : 34 ∉ key) (hmid : 34 ∉ mid) (hvalue : 34 ∉ value) :
      Reads (Bytes.ascii "put(" ++ pre ++ 34 :: (key ++ 34 :: (mid ++ 34 :: (value ++ 34 :: rest)))) .put key value
  | get {pre key rest : Bytes} (hpre : 34 ∉ pre) (hkey : 34 ∉ key) :
      Reads (Bytes.ascii "get(" ++ pre ++ 34 :: (key ++ 34 :: rest)) .get key []
  | delete {pre key rest : Bytes} (hpre : 34 ∉ pre) (hkey : 34 ∉ key) :
      Reads (Bytes.ascii "delete(" ++ pre ++ 34 :: (key ++ 34 :: rest)) .delete key []
  | ls : Reads (Bytes.ascii "ls") .ls [] []
  | flush : Reads (Bytes.ascii "flush") .flush [] []
  | clear : Reads (Bytes.ascii "clear") .clear [] []

theorem idxOf?_eq_some_iff {l : Bytes} {c : UInt8} {i : Nat} :
    l.idxOf? c = some i ↔ ∃ pre rest, l = pre ++ c :: rest ∧ c ∉ pre ∧ i = pre.length := by
  induction l generalizing i with
  | nil => simp
  | cons b l ih =>
      rw [List.idxOf?_cons]
      by_cases hb : b = c
      · subst hb
        rw [if_pos (beq_self_eq_true b), Option.some.injEq]
        constructor
        · rintro rfl
          exact ⟨[], l, rfl, List.not_mem_nil, rfl⟩
        · rintro ⟨pre, rest, heq, hpre, rfl⟩
          cases pre with
          | nil => rfl
          | cons a pre => exact absurd (List.mem_cons.mpr (Or.inl (List.cons.inj heq).1)) hpre
      · rw [if_neg (by simpa using hb), Option.map_eq_some_iff]
        constructor
        · rintro ⟨j, hj, rfl⟩
          obtain ⟨pre, rest, rfl, hpre, rfl⟩ := ih.mp hj
          exact ⟨b :: pre, rest, rfl, by simp [hpre, Ne.symm hb], rfl⟩
        · rintro ⟨pre, rest, heq, hpre, rfl⟩
          cases pre with
          | nil => exact absurd (List.cons.inj heq).1 hb
          | cons a pre =>
              obtain ⟨rfl, rfl⟩ := List.cons.inj heq
              exact ⟨pre.length, ih.mpr ⟨pre, rest, rfl, fun hmem => hpre (List.mem_cons_of_mem _ hmem), rfl⟩, rfl⟩

theorem find_eq_some_iff {s : Bytes} {c : UInt8} {pos i : Nat} :
    find s c pos = some i ↔ ∃ pre rest, s.drop pos = pre ++ c :: rest ∧ c ∉ pre ∧ i = pos + pre.length := by
  unfold find
  rw [Option.map_eq_some_iff]
  constructor
  · rintro ⟨j, hj, rfl⟩
    obtain ⟨pre, rest, heq, hpre, rfl⟩ := idxOf?_eq_some_iff.mp hj
    exact ⟨pre, rest, heq, hpre, rfl⟩
  · rintro ⟨pre, rest, heq, hpre, rfl⟩
    exact ⟨pre.length, idxOf?_eq_some_iff.mpr ⟨pre, rest, heq, hpre, rfl⟩, rfl⟩

theorem drop_of_drop {input a b : Bytes} {pos : Nat} (h : input.drop pos = a ++ b) :
    input.drop (pos + a.length) = b := by
  rw [← List.drop_drop, h, List.drop_left]

/-- Two quotes and the text between them. -/
theorem findQuotes_eq_some_iff {input : Bytes} {pos : Nat} {quotes : Nat × Nat} :
    findQuotes input pos = some quotes ↔ ∃ pre text rest, input.drop pos = pre ++ 34 :: (text ++ 34 :: rest) ∧
      34 ∉ pre ∧ 34 ∉ text ∧ quotes = (pos + pre.length, pos + pre.length + 1 + text.length) := by
  have hbehind : ∀ {pre r : Bytes}, input.drop pos = pre ++ 34 :: r → input.drop (pos + pre.length + 1) = r := by
    intro pre r h
    have h' : input.drop pos = (pre ++ [34]) ++ r := by rw [h, List.append_assoc]; rfl
    have hdrop := drop_of_drop h'
    rwa [List.length_append, List.length_singleton, ← Nat.add_assoc] at hdrop
  unfold findQuotes
  constructor
  · intro h
    split at h <;> try contradiction
    next start hstart =>
      split at h <;> try contradiction
      next stop hstop =>
        obtain ⟨pre, r, hpos, hpre, rfl⟩ := find_eq_some_iff.mp hstart
        obtain ⟨text, rest, hr, htext, rfl⟩ := find_eq_some_iff.mp hstop
        rw [hbehind hpos] at hr
        exact ⟨pre, text, rest, by rw [hpos, hr], hpre, htext, (Option.some.inj h).symm⟩
  · rintro ⟨pre, text, rest, hpos, hpre, htext, rfl⟩
    have hstart : find input 34 pos = some (pos + pre.length) := find_eq_some_iff.mpr ⟨pre, _, hpos, hpre, rfl⟩
    have hstop : find input 34 (pos + pre.length + 1) = some (pos + pre.length + 1 + text.length) :=
      find_eq_some_iff.mpr ⟨text, rest, hbehind hpos, htext, rfl⟩
    rw [hstart]
    dsimp only
    rw [hstop]

/-- What is between them, and what is behind them. -/
theorem between_eq {input pre text rest : Bytes} {pos : Nat}
    (h : input.drop pos = pre ++ 34 :: (text ++ 34 :: rest)) :
    between input (pos + pre.length, pos + pre.length + 1 + text.length) = text ∧
      input.drop (pos + pre.length + 1 + text.length + 1) = rest := by
  have htext : input.drop (pos + pre.length + 1) = text ++ 34 :: rest := by
    have h' : input.drop pos = (pre ++ [34]) ++ (text ++ 34 :: rest) := by rw [h, List.append_assoc]; rfl
    have hdrop := drop_of_drop h'
    rwa [List.length_append, List.length_singleton, ← Nat.add_assoc] at hdrop
  constructor
  · unfold between substr
    rw [htext]
    have hlen : pos + pre.length + 1 + text.length - (pos + pre.length) - 1 = text.length := by omega
    rw [hlen, List.take_left]
  · have h' : input.drop (pos + pre.length + 1) = (text ++ [34]) ++ rest := by rw [htext, List.append_assoc]; rfl
    have hdrop := drop_of_drop h'
    rwa [List.length_append, List.length_singleton, ← Nat.add_assoc] at hdrop

/-- The text between the next two quotes, and what is behind them. -/
theorem findQuotes_spec {input : Bytes} {pos : Nat} {quotes : Nat × Nat} (h : findQuotes input pos = some quotes) :
    ∃ pre rest, input.drop pos = pre ++ 34 :: (between input quotes ++ 34 :: rest) ∧ 34 ∉ pre ∧
      34 ∉ between input quotes ∧ input.drop (quotes.2 + 1) = rest := by
  obtain ⟨pre, text, rest, hpos, hpre, htext, rfl⟩ := findQuotes_eq_some_iff.mp h
  obtain ⟨hbetween, hbehind⟩ := between_eq hpos
  rw [hbetween]
  exact ⟨pre, rest, hpos, hpre, htext, hbehind⟩

theorem findQuotes_of_drop {input pre text rest : Bytes} {pos : Nat}
    (h : input.drop pos = pre ++ 34 :: (text ++ 34 :: rest)) (hpre : 34 ∉ pre) (htext : 34 ∉ text) :
    ∃ quotes, findQuotes input pos = some quotes ∧ between input quotes = text ∧ input.drop (quotes.2 + 1) = rest := by
  obtain ⟨hbetween, hbehind⟩ := between_eq h
  exact ⟨_, findQuotes_eq_some_iff.mpr ⟨pre, text, rest, h, hpre, htext, rfl⟩, hbetween, hbehind⟩

theorem substr_eq_iff (input word : Bytes) {len : Nat} (hlen : word.length = len) :
    substr input 0 len = word ↔ ∃ rest, input = word ++ rest := by
  unfold substr
  subst hlen
  rw [List.drop_zero]
  constructor
  · intro h
    obtain ⟨rest, hrest⟩ := List.prefix_iff_eq_take.mpr h.symm
    exact ⟨rest, hrest.symm⟩
  · rintro ⟨rest, rfl⟩
    exact List.take_left

theorem substr_append {word rest : Bytes} {len : Nat} (h : len ≤ word.length) :
    substr (word ++ rest) 0 len = word.take len := by
  unfold substr
  rw [List.drop_zero, List.take_append_of_le_length h]

/-- The first quote of a line is behind its command word. -/
theorem quote_behind_word {word rest pre tail : Bytes} (hword : 34 ∉ word) (h : word ++ rest = pre ++ 34 :: tail) :
    ∃ behind, pre = word ++ behind ∧ rest = behind ++ 34 :: tail := by
  rcases List.append_eq_append_iff.mp h with ⟨behind, hpre, hrest⟩ | ⟨mid, hw, htail⟩
  · exact ⟨behind, hpre, hrest⟩
  · cases mid with
    | nil => exact ⟨[], by simpa using hw.symm, htail.symm⟩
    | cons b mid =>
        obtain ⟨rfl, -⟩ := List.cons.inj htail
        exact absurd (hw ▸ List.mem_append_right pre List.mem_cons_self) hword

theorem keyCommand_iff {op r : Operation} (hop : op ≠ .error) {word input key value : Bytes} (hword : 34 ∉ word)
    (hinput : ∃ rest, input = word ++ rest) :
    (keyCommand op input = (r, key, value) ∧ r ≠ .error) ↔ (r = op ∧ value = [] ∧
      ∃ pre rest, input = word ++ pre ++ 34 :: (key ++ 34 :: rest) ∧ 34 ∉ pre ∧ 34 ∉ key) := by
  unfold keyCommand
  constructor
  · rintro ⟨h, hr⟩
    cases hq : findQuotes input 0 with
    | none =>
        rw [hq] at h
        cases h
        exact absurd rfl hr
    | some quotes =>
        rw [hq] at h
        cases h
        obtain ⟨front, rest, heq, hfront, hkey, -⟩ := findQuotes_spec hq
        obtain ⟨r, hr⟩ := hinput
        rw [List.drop_zero] at heq
        obtain ⟨pre, rfl, -⟩ := quote_behind_word hword (hr.symm.trans heq)
        exact ⟨rfl, rfl, pre, rest, heq, fun hmem => hfront (List.mem_append_right word hmem), hkey⟩
  · rintro ⟨rfl, rfl, pre, rest, heq, hpre, hkey⟩
    have hdrop : input.drop 0 = (word ++ pre) ++ 34 :: (key ++ 34 :: rest) := heq
    obtain ⟨quotes, hq, hbetween, -⟩ := findQuotes_of_drop hdrop (by simp [hword, hpre]) hkey
    rw [hq]
    dsimp only
    rw [hbetween]
    exact ⟨rfl, hop⟩

theorem putCommand_iff {r : Operation} {word input key value : Bytes} (hword : 34 ∉ word)
    (hinput : ∃ rest, input = word ++ rest) :
    (putCommand input = (r, key, value) ∧ r ≠ .error) ↔ (r = .put ∧ ∃ pre mid rest,
      input = word ++ pre ++ 34 :: (key ++ 34 :: (mid ++ 34 :: (value ++ 34 :: rest))) ∧
        34 ∉ pre ∧ 34 ∉ key ∧ 34 ∉ mid ∧ 34 ∉ value) := by
  unfold putCommand
  constructor
  · rintro ⟨h, hr⟩
    cases hq : findQuotes input 0 with
    | none =>
        rw [hq] at h
        cases h
        exact absurd rfl hr
    | some quotes =>
        rw [hq] at h
        dsimp only at h
        cases hv : findQuotes input (quotes.2 + 1) with
        | none =>
            rw [hv] at h
            cases h
            exact absurd rfl hr
        | some valueQuotes =>
            rw [hv] at h
            cases h
            obtain ⟨front, behind, heq, hfront, hkey, hbehind⟩ := findQuotes_spec hq
            obtain ⟨mid, rest, hmidEq, hmid, hvalue, -⟩ := findQuotes_spec hv
            obtain ⟨r, hr⟩ := hinput
            rw [List.drop_zero] at heq
            obtain ⟨pre, rfl, -⟩ := quote_behind_word hword (hr.symm.trans heq)
            rw [← hbehind, hmidEq] at heq
            exact ⟨rfl, pre, mid, rest, heq, fun hmem => hfront (List.mem_append_right word hmem), hkey, hmid, hvalue⟩
  · rintro ⟨rfl, pre, mid, rest, heq, hpre, hkey, hmid, hvalue⟩
    have hdrop : input.drop 0 = (word ++ pre) ++ 34 :: (key ++ 34 :: (mid ++ 34 :: (value ++ 34 :: rest))) := heq
    obtain ⟨quotes, hq, hbetween, hbehind⟩ := findQuotes_of_drop hdrop (by simp [hword, hpre]) hkey
    obtain ⟨valueQuotes, hv, hvalueEq, -⟩ := findQuotes_of_drop hbehind hmid hvalue
    rw [hq]
    dsimp only
    rw [hv]
    dsimp only
    rw [hbetween, hvalueEq]
    exact ⟨rfl, by decide⟩

theorem plainCommand_iff {op r : Operation} (hop : op ≠ .error) {word input key value : Bytes}
    (hinput : ∃ rest, input = word ++ rest) :
    (plainCommand op word.length input = (r, key, value) ∧ r ≠ .error) ↔
      (input = word ∧ r = op ∧ key = [] ∧ value = []) := by
  obtain ⟨rest, rfl⟩ := hinput
  unfold plainCommand
  constructor
  · rintro ⟨h, hr⟩
    split at h
    · cases h
      exact absurd rfl hr
    · next hlen =>
        cases h
        have hrest : rest = [] := List.eq_nil_of_length_eq_zero (by simpa using hlen)
        exact ⟨by rw [hrest, List.append_nil], rfl, rfl, rfl⟩
  · rintro ⟨heq, rfl, rfl, rfl⟩
    rw [heq, if_neg (by simp)]
    exact ⟨rfl, hop⟩

/-- **The language of the interactive program**: a line is a command with a key and a value exactly where it begins with
    the command's word and has the quotes that the command needs; `ls`, `flush` and `clear` stand alone. -/
theorem parseCommand_iff {input : Bytes} {op : Operation} {key value : Bytes} :
    (parseCommand input = (op, key, value) ∧ op ≠ .error) ↔ Reads input op key value := by
  have hput : substr input 0 4 = Bytes.ascii "put(" ↔ _ := substr_eq_iff input (Bytes.ascii "put(") (by decide)
  have hget : substr input 0 4 = Bytes.ascii "get(" ↔ _ := substr_eq_iff input (Bytes.ascii "get(") (by decide)
  have hdel : substr input 0 7 = Bytes.ascii "delete(" ↔ _ := substr_eq_iff input (Bytes.ascii "delete(") (by decide)
  have hls : substr input 0 2 = Bytes.ascii "ls" ↔ _ := substr_eq_iff input (Bytes.ascii "ls") (by decide)
  have hflush : substr input 0 5 = Bytes.ascii "flush" ↔ _ := substr_eq_iff input (Bytes.ascii "flush") (by decide)
  have hclear : substr input 0 5 = Bytes.ascii "clear" ↔ _ := substr_eq_iff input (Bytes.ascii "clear") (by decide)
  constructor
  · intro h
    unfold parseCommand at h
    split at h
    · next hw =>
        obtain ⟨rfl, pre, mid, rest, rfl, hpre, hkey, hmid, hvalue⟩ := (putCommand_iff (by decide) (hput.mp hw)).mp h
        exact .put hpre hkey hmid hvalue
    split at h
    · next hw =>
        obtain ⟨rfl, rfl, pre, rest, rfl, hpre, hkey⟩ :=
          (keyCommand_iff (by decide) (by decide) (hget.mp hw)).mp h
        exact .get hpre hkey
    split at h
    · next hw =>
        obtain ⟨rfl, rfl, pre, rest, rfl, hpre, hkey⟩ :=
          (keyCommand_iff (by decide) (by decide) (hdel.mp hw)).mp h
        exact .delete hpre hkey
    split at h
    · next hw =>
        obtain ⟨rfl, rfl, rfl, rfl⟩ := (plainCommand_iff (by decide) (hls.mp hw)).mp h
        exact .ls
    split at h
    · next hw =>
        obtain ⟨rfl, rfl, rfl, rfl⟩ := (plainCommand_iff (by decide) (hflush.mp hw)).mp h
        exact .flush
    split at h
    · next hw =>
        obtain ⟨rfl, rfl, rfl, rfl⟩ := (plainCommand_iff (by decide) (hclear.mp hw)).mp h
        exact .clear
    · obtain ⟨h, hop⟩ := h
      cases h
      exact absurd rfl hop
  · intro h
    unfold parseCommand
    cases h with
    | @put pre key mid value rest hpre hkey hmid hvalue =>
        rw [if_pos (hput.mpr ⟨_, List.append_assoc ..⟩)]
        exact (putCommand_iff (by decide) ⟨_, List.append_assoc ..⟩).mpr
          ⟨rfl, pre, mid, rest, rfl, hpre, hkey, hmid, hvalue⟩
    | @get pre key rest hpre hkey =>
        rw [List.append_assoc, if_neg (by rw [substr_append (by decide)]; decide), ← List.append_assoc,
          if_pos (hget.mpr ⟨_, List.append_assoc ..⟩)]
        exact (keyCommand_iff (by decide) (by decide) ⟨_, List.append_assoc ..⟩).mpr
          ⟨rfl, rfl, pre, rest, rfl, hpre, hkey⟩
    | @delete pre key rest hpre hkey =>
        rw [List.append_assoc, if_neg (by rw [substr_append (by decide)]; decide),
          if_neg (by rw [substr_append (by decide)]; decide), ← List.append_assoc,
          if_pos (hdel.mpr ⟨_, List.append_assoc ..⟩)]
        exact (keyCommand_iff (by decide) (by decide) ⟨_, List.append_assoc ..⟩).mpr
          ⟨rfl, rfl, pre, rest, rfl, hpre, hkey⟩
    | ls => exact ⟨by decide, by decide⟩
    | flush => exact ⟨by decide, by decide⟩
    | clear => exact ⟨by decide, by decide⟩

end KvStorageEngine.CommandParser
