import KvStorageEngine.Distributed.Correctness.WireRoundTrip

/-!
# `Distributed.Correctness.CutMessages` — messages that end too early

The reader of a cut text does what the reader of the whole text does, until it wants a bar that is behind the cut
(`nextToken_of_cut`). Every field but one is followed by a bar that is looked for later. The exception is the value of the
last entry: `substr` takes what there is of it, and nothing compares that with the length in front.
-/

namespace KvStorageEngine.Distributed.Wire

open TextStream

/-! ## A. Reading a cut text -/

/-- The next token of a cut text: the one of the whole text, or none when its bar is behind the cut. -/
theorem nextToken_of_cut {data whole tok : Bytes} {pos next : Nat} (hcut : data <+: whole)
    (h : nextToken whole pos = some (tok, next)) :
    (next ≤ data.length ∧ nextToken data pos = some (tok, next)) ∨
      (data.length < next ∧ nextToken data pos = none) := by
  obtain ⟨behind, rfl⟩ := hcut
  unfold nextToken at h ⊢
  obtain ⟨n, hfind, heq⟩ := Option.map_eq_some_iff.mp h
  obtain ⟨htok, hnext⟩ := Prod.mk.inj heq
  obtain ⟨hlt, hbar, hfirst⟩ := List.findIdx?_eq_some_iff_getElem.mp hfind
  rw [List.drop_append] at hfind htok
  by_cases hle : n < (data.drop pos).length
  · -- the bar is in front of the cut
    left
    have hdrop : (data.drop pos).findIdx? (· = 124) = some n := by
      rw [List.findIdx?_append] at hfind
      cases hin : (data.drop pos).findIdx? (· = 124) with
      | some k =>
          rw [hin] at hfind
          exact hfind
      | none =>
          rw [hin, Option.none_or] at hfind
          obtain ⟨k, -, hk⟩ := Option.map_eq_some_iff.mp hfind
          omega
    rw [List.take_append_of_le_length hle.le] at htok
    rw [List.length_drop] at hle
    refine ⟨by omega, ?_⟩
    rw [hdrop, Option.map_some, htok, hnext]
  · right
    have hnone : (data.drop pos).findIdx? (· = 124) = none := by
      rw [List.findIdx?_append] at hfind
      cases hin : (data.drop pos).findIdx? (· = 124) with
      | none => rfl
      | some k =>
          rw [hin, Option.some_or] at hfind
          obtain ⟨hk, -⟩ := List.findIdx?_eq_some_iff_getElem.mp hin
          cases hfind
          exact absurd hk hle
    rw [List.length_drop] at hle
    refine ⟨by omega, ?_⟩
    rw [hnone, Option.map_none]

/-- A text is read as far as it is there. -/
theorem substr_of_cut {data whole rest tok : Bytes} {pos : Nat} (hcut : data <+: whole) (hpos : pos ≤ data.length)
    (h : At whole pos (tok ++ rest)) : ∃ t, substr data pos tok.length = some t ∧ t <+: tok ∧
      t.length = min tok.length (data.length - pos) := by
  obtain ⟨behind, rfl⟩ := hcut
  have hrest := h.2
  rw [List.drop_append_of_le_length hpos] at hrest
  have hpre : (data.drop pos).take tok.length <+: tok := by
    rcases List.append_eq_append_iff.mp hrest with ⟨t, ht, -⟩ | ⟨t, ht, -⟩
    · rw [List.take_of_length_le (by rw [ht, List.length_append]; omega)]
      exact ⟨t, ht.symm⟩
    · rw [ht, List.take_left]
  refine ⟨(data.drop pos).take tok.length, if_pos hpos, hpre, ?_⟩
  rw [List.length_take, List.length_drop]

/-! ## B. Entries

An entry whose front is cut has a field without its bar. One that is cut in its value is read with a shorter value. -/

/-- An entry that is cut in front of its value is refused. -/
theorem deserialize_cut_front {e : LogEntry} {q : Bytes} (h : e.serialize.length < 2 ^ 64) (hq : q <+: e.serialize)
    (hlt : q.length < e.front.length) : LogEntry.deserialize q = none := by
  obtain ⟨hkey, hvalue⟩ := e.lengths_lt h
  have hat := at_zero e.serialize
  conv at hat => arg 3; rw [e.serialize_eq, e.front_append]
  obtain ⟨termStr, p₁, hterm, hterm', hat⟩ := hat.number e.term.toNat_lt
  obtain ⟨indexStr, p₂, hindex, hindex', hat⟩ := hat.number e.index.toNat_lt
  obtain ⟨hop, hat⟩ := hat.token (bar_notMem_toDecimal _)
  have hop' := stoi_toDecimal (n := e.op.toNat) (by have := e.op.toNat_lt; omega)
  obtain ⟨keyLenStr, p₄, hkeyLen, hkeyLen', hat⟩ := hat.number hkey
  have hkeyAt := hat
  obtain ⟨valueLenStr, p₅, hvalueLen, hvalueLen', hat⟩ := (hat.past h).number hvalue
  have hbehind : q.length < p₅ := by
    have hle := congrArg List.length hat.2
    have hserialize := congrArg List.length e.serialize_eq
    rw [List.length_drop] at hle
    rw [List.length_append] at hserialize
    omega
  unfold LogEntry.deserialize
  rcases nextToken_of_cut hq hterm with ⟨-, htoken⟩ | ⟨-, htoken⟩
  case inr => simp only [htoken, Option.bind_eq_bind, Option.bind_none]
  simp only [htoken, Option.bind_eq_bind, Option.bind_some]
  rcases nextToken_of_cut hq hindex with ⟨-, htoken⟩ | ⟨-, htoken⟩
  case inr => simp only [htoken, Option.bind_none]
  simp only [htoken, Option.bind_some]
  rcases nextToken_of_cut hq hop with ⟨-, htoken⟩ | ⟨-, htoken⟩
  case inr => simp only [htoken, Option.bind_none]
  simp only [htoken, hterm', hindex', hop', Option.bind_some]
  rcases nextToken_of_cut hq hkeyLen with ⟨hle, htoken⟩ | ⟨-, htoken⟩
  case inr => simp only [htoken, Option.bind_none]
  obtain ⟨key, hsubstr, -, -⟩ := substr_of_cut hq hle hkeyAt
  rcases nextToken_of_cut hq hvalueLen with ⟨hle, -⟩ | ⟨-, htoken'⟩
  · omega
  · simp only [htoken, hkeyLen', hsubstr, htoken', Option.bind_some, Option.bind_none]

/-- A cut entry: refused if the cut is in front of the value; otherwise read with what there is of the value. -/
theorem deserialize_entry_of_cut {e : LogEntry} {q : Bytes} (h : e.serialize.length < 2 ^ 64) (hq : q <+: e.serialize) :
    (q.length < e.front.length ∧ LogEntry.deserialize q = none) ∨
      ∃ v, v <+: e.value ∧ q.length = e.front.length + v.length ∧
        LogEntry.deserialize q = some { e with value := v } := by
  by_cases hlt : q.length < e.front.length
  · exact Or.inl ⟨hlt, deserialize_cut_front h hq hlt⟩
  · right
    obtain ⟨v, rfl⟩ : e.front <+: q :=
      List.prefix_of_prefix_length_le ⟨e.value, e.serialize_eq.symm⟩ hq (Nat.le_of_not_lt hlt)
    rw [e.serialize_eq, List.prefix_append_right_inj] at hq
    exact ⟨v, hq, List.length_append, deserialize_front_append h hq⟩

/-! ## C. Messages -/

/-- The entries, the last with another value. -/
def withLastValue (v : Bytes) : List LogEntry → List LogEntry
  | [] => []
  | [e] => [{ e with value := v }]
  | e :: es => e :: withLastValue v es

theorem value_length_le (e : LogEntry) : e.value.length ≤ (entryText e).length := by
  unfold entryText
  rw [List.length_append, e.serialize_eq, List.length_append, List.length_append]
  omega

theorem lastValue_length_le {entries : List LogEntry} (hne : entries ≠ []) :
    (entries.getLast hne).value.length ≤ (entriesText entries).length := by
  obtain ⟨e, es, rfl⟩ := List.exists_cons_of_ne_nil hne
  rw [entriesText, List.length_append]
  by_cases hes : es = []
  · subst hes
    exact (value_length_le e).trans (Nat.le_add_right _ _)
  · rw [List.getLast_cons hes]
    obtain ⟨init, hinit⟩ : ∃ init, es = init ++ [es.getLast hes] := ⟨_, (List.dropLast_append_getLast hes).symm⟩
    have hle := value_length_le (es.getLast hes)
    conv_rhs => rw [hinit]
    rw [List.flatMap_append, List.length_append, List.flatMap_singleton, List.length_append]
    omega

/-- The entries of a cut text: refused if the cut is in front of the last value; otherwise they are read, with what there
    is of that value. -/
theorem deserializeEntries_of_cut {data whole : Bytes} (hwhole : whole.length < 2 ^ 64) (hcut : data <+: whole)
    {entries : List LogEntry} (hne : entries ≠ []) {pos : Nat} (h : At whole pos (entriesText entries)) :
    (data.length + (entries.getLast hne).value.length < whole.length ∧
        deserializeEntries data entries.length pos = none) ∨
      (whole.length ≤ data.length + (entries.getLast hne).value.length ∧
        ∃ v, v <+: (entries.getLast hne).value ∧
          deserializeEntries data entries.length pos = some (withLastValue v entries)) := by
  induction entries generalizing pos with
  | nil => exact absurd rfl hne
  | cons e es ih =>
      rw [entriesText, entryText, ascii_bar, List.append_assoc, List.append_assoc, List.singleton_append] at h
      have hlen : e.serialize.length < 2 ^ 64 := by
        have hle := h.length_le
        simp only [List.length_append, List.length_cons] at hle
        omega
      obtain ⟨tok, pos', htok, htok', hat⟩ := h.number hlen
      have hend := congrArg List.length hat.2
      rw [List.length_drop, List.length_append] at hend
      have hvalue := congrArg List.length e.serialize_eq
      rw [List.length_append] at hvalue
      have hpos := hat.1
      cases es with
      | nil =>
          rw [List.flatMap_nil, List.length_nil] at hend
          rw [List.getLast_singleton, List.length_singleton, deserializeEntries]
          rcases nextToken_of_cut hcut htok with ⟨hle, htoken⟩ | ⟨hbehind, htoken⟩
          · obtain ⟨t, hsubstr, ht, htlen⟩ := substr_of_cut hcut hle hat
            rcases deserialize_entry_of_cut hlen ht with ⟨hlt, hentry⟩ | ⟨v, hv, hvlen, hentry⟩
            · left
              refine ⟨by omega, ?_⟩
              simp only [htoken, htok', hsubstr, hentry, Option.bind_eq_bind, Option.bind_some, Option.bind_none]
            · right
              refine ⟨by omega, v, hv, ?_⟩
              simp only [htoken, htok', hsubstr, hentry, deserializeEntries, Option.bind_eq_bind, Option.bind_some,
                withLastValue]
          · left
            refine ⟨by omega, ?_⟩
            simp only [htoken, Option.bind_eq_bind, Option.bind_none]
      | cons e' es' =>
          have hbars : At whole pos' (e.serialize ++ 124 :: entriesText (e' :: es')) := by
            rw [List.flatMap_cons, List.append_assoc, List.singleton_append] at hat
            exact hat
          have hlast := lastValue_length_le (List.cons_ne_nil e' es')
          have hbarsLength := hbars.length_le
          rw [List.length_append, List.length_cons] at hbarsLength
          rw [List.getLast_cons (by simp), @List.length_cons _ e (e' :: es'), deserializeEntries]
          rcases ih (by simp) (hbars.past hwhole) with ⟨hlt, hnone⟩ | ⟨hle, v, hv, hsome⟩
          · -- whatever the first entry is, the rest is refused
            refine Or.inl ⟨hlt, ?_⟩
            rcases nextToken_of_cut hcut htok with ⟨hle, htoken⟩ | ⟨-, htoken⟩
            · obtain ⟨t, hsubstr, -, -⟩ := substr_of_cut hcut hle hat
              cases hentry : LogEntry.deserialize t <;>
                simp only [htoken, htok', hsubstr, hentry, hnone, Option.bind_eq_bind, Option.bind_some,
                  Option.bind_none]
            · simp only [htoken, Option.bind_eq_bind, Option.bind_none]
          · refine Or.inr ⟨hle, v, hv, ?_⟩
            rcases nextToken_of_cut hcut htok with ⟨hle', htoken⟩ | ⟨hbehind, -⟩
            · obtain ⟨t, hsubstr, ht, htlen⟩ := substr_of_cut hcut hle' hat
              obtain rfl : t = e.serialize := ht.eq_of_length (by omega)
              simp only [htoken, htok', hsubstr, deserialize_serialize_entry hlen, hsome, Option.bind_eq_bind,
                Option.bind_some, withLastValue]
            · omega

/-- A cut message: refused if the cut is in front of the last value; otherwise it is accepted, with what there is of that
    value. -/
theorem deserialize_of_cut {m : ReplicationMessage} (hne : m.entries ≠ []) (h : m.serialize.length < 2 ^ 64) {p : Bytes}
    (hp : p <+: m.serialize) :
    (p.length + (m.entries.getLast hne).value.length < m.serialize.length ∧ ReplicationMessage.deserialize p = none) ∨
      (m.serialize.length ≤ p.length + (m.entries.getLast hne).value.length ∧
        ∃ v, v <+: (m.entries.getLast hne).value ∧
          ReplicationMessage.deserialize p = some { m with entries := withLastValue v m.entries }) := by
  have hnum := lt_of_le_of_lt (length_entries_le m) h
  have hat := at_zero m.serialize
  have htext : m.serialize = Bytes.toDecimal m.term.toNat ++ 124 :: (Bytes.toDecimal m.leaderCommit.toNat ++
      124 :: (Bytes.toDecimal m.entries.length ++ 124 :: entriesText m.entries)) := by
    obtain ⟨term, leaderCommit, entries⟩ := m
    obtain ⟨e, es, rfl⟩ := List.exists_cons_of_ne_nil hne
    unfold ReplicationMessage.serialize
    simp only [ascii_bar, List.flatMap_cons, entriesText, List.append_assoc, List.cons_append, List.nil_append]
  conv at hat => arg 3; rw [htext]
  obtain ⟨termStr, p₁, hterm, hterm', hat₁⟩ := hat.number m.term.toNat_lt
  obtain ⟨commitStr, p₂, hcommit, hcommit', hat₂⟩ := hat₁.number m.leaderCommit.toNat_lt
  obtain ⟨numStr, p₃, hnumStr, hnumStr', hat₃⟩ := hat₂.number hnum
  unfold ReplicationMessage.deserialize
  rcases deserializeEntries_of_cut h hp hne hat₃ with ⟨hlt, hentries⟩ | ⟨hle, v, hv, hentries⟩
  · refine Or.inl ⟨hlt, ?_⟩
    rcases nextToken_of_cut hp hterm with ⟨-, htoken⟩ | ⟨-, htoken⟩
    case inr => simp only [htoken, Option.bind_eq_bind, Option.bind_none]
    simp only [htoken, hterm', Option.bind_eq_bind, Option.bind_some]
    rcases nextToken_of_cut hp hcommit with ⟨-, htoken⟩ | ⟨-, htoken⟩
    case inr => simp only [htoken, Option.bind_none]
    simp only [htoken, hcommit', Option.bind_some]
    rcases nextToken_of_cut hp hnumStr with ⟨-, htoken⟩ | ⟨-, htoken⟩
    case inr => simp only [htoken, Option.bind_none]
    simp only [htoken, hnumStr', hentries, Option.bind_some, Option.bind_none]
  · refine Or.inr ⟨hle, v, hv, ?_⟩
    have hlast := lastValue_length_le hne
    have hle₁ := hat₁.length_le
    have hle₂ := hat₂.length_le
    have hle₃ := hat₃.length_le
    simp only [List.length_append, List.length_cons] at hle₁ hle₂
    rcases nextToken_of_cut hp hterm with ⟨-, hterm⟩ | ⟨hbehind, -⟩
    case inr => omega
    rcases nextToken_of_cut hp hcommit with ⟨-, hcommit⟩ | ⟨hbehind, -⟩
    case inr => omega
    rcases nextToken_of_cut hp hnumStr with ⟨-, hnumStr⟩ | ⟨hbehind, -⟩
    case inr => omega
    simp only [hterm, hterm', hcommit, hcommit', hnumStr, hnumStr', hentries, Option.bind_eq_bind, Option.bind_some,
      UInt64.ofNat_toNat]

/-- **A cut message is refused exactly if the cut is in front of the last value.** -/
theorem deserialize_cut_eq_none_iff {m : ReplicationMessage} (hne : m.entries ≠ []) (h : m.serialize.length < 2 ^ 64)
    {p : Bytes} (hp : p <+: m.serialize) : ReplicationMessage.deserialize p = none ↔
      p.length + (m.entries.getLast hne).value.length < m.serialize.length := by
  rcases deserialize_of_cut hne h hp with ⟨hlt, hnone⟩ | ⟨hle, v, -, hsome⟩
  · exact iff_of_true hnone hlt
  · rw [hsome]
    exact iff_of_false (by simp) (Nat.not_lt.mpr hle)

/-- The value of `a` is `x|`; what is left of the text ends in front of it. -/
theorem deserialize_cut_eq_none_iff_front :
    let m : ReplicationMessage := ⟨1, 0, [⟨1, 1, 1, Bytes.ascii "a", Bytes.ascii "x|"⟩]⟩
    ReplicationMessage.deserialize (m.serialize.take 16) = none ↔ (m.serialize.take 16).length + 2 < m.serialize.length :=
  deserialize_cut_eq_none_iff (m := ⟨1, 0, [⟨1, 1, 1, Bytes.ascii "a", Bytes.ascii "x|"⟩]⟩) (by decide) (by decide)
    (List.take_prefix _ _)

/-- A message that lost three bytes is taken for another one. -/
theorem cut_value_deserialized :
    let m : ReplicationMessage := ⟨1, 0, [⟨1, 1, 1, Bytes.ascii "a", Bytes.ascii "hello"⟩]⟩
    let p := Bytes.ascii "1|0|1|17|1|1|1|1|a|5|he"
    (p <+: m.serialize ∧ p ≠ m.serialize) ∧
      ReplicationMessage.deserialize p = some ⟨1, 0, [⟨1, 1, 1, Bytes.ascii "a", Bytes.ascii "he"⟩]⟩ := by
  decide

end KvStorageEngine.Distributed.Wire
