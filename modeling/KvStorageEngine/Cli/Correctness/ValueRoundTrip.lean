import KvStorageEngine.Cli.Client
import KvStorageEngine.Server.Correctness.TextCommands

/-!
# `Cli.Correctness.ValueRoundTrip` — the answer to a GET

The server writes a value between `+VALUE ` and a line end, and the client trims the line before it takes the value out
of it. The server itself trims four characters off the values it is given; the client trims all of Unicode's white space.
So a value comes back exactly if it ends in none of it, and is on one line, as every value from `readLine` is
(`decodes_iff`).

Where it does not come back the line is too short for it: the value and `+VALUE ` must fit into what is left of the line
(`length_value_le`).
-/

namespace KvStorageEngine.Cli

open Cutting Server

/-- The client takes the answer for a success with this value. -/
def Decodes (v : Bytes) : Prop :=
  ∃ message, readResponse (Server.Response.okWithValue v).serialize = .ok ⟨true, message, v⟩

/-- The value ends in Unicode white space. -/
def EndsInSpace (v : Bytes) : Prop := ∃ w ∈ whiteSpace, w <:+ v

instance (v : Bytes) : Decidable (EndsInSpace v) := inferInstanceAs (Decidable (∃ w ∈ whiteSpace, _))

/-! ## A. Trimming a line

White space at the end of a line is the line end and whatever white space the value ends in. -/

theorem whiteSpace_ne_nil : ∀ w ∈ whiteSpace, w ≠ [] := by decide

/-- No white space begins with a plus, and nothing but the character itself ends in a line end. -/
theorem head?_whiteSpace : ∀ w ∈ whiteSpace, w.head? ≠ some 43 := by decide

theorem eq_of_getLast?_whiteSpace {b : UInt8} (hb : b = 10 ∨ b = 13) :
    ∀ w ∈ whiteSpace, w.getLast? = some b → w = [b] := by
  rcases hb with rfl | rfl <;> decide

/-- A line end is trimmed. -/
theorem trimRight_lineEnd {b : UInt8} (hb : b = 10 ∨ b = 13) (l : Bytes) :
    trimRight whiteSpace (l ++ [b]) = trimRight whiteSpace l := by
  apply trimRight_append whiteSpace_ne_nil (by rcases hb with rfl | rfl <;> decide)
  intro v hv hsuffix
  apply eq_of_getLast?_whiteSpace hb v hv
  have hlast : (l ++ [b]).getLast? = some b := by simp
  obtain ⟨r, hr⟩ := hsuffix
  rwa [← hr, List.getLast?_append_of_ne_nil _ (whiteSpace_ne_nil v hv)] at hlast

/-- An answer that begins with a plus is trimmed at its end only. -/
theorem trimSpace_answer (l : Bytes) : trimSpace (43 :: l) = trimRight whiteSpace (43 :: l) := by
  have hleft : trimLeft whiteSpace (43 :: l) = 43 :: l := by
    rw [trimLeft_eq_self_iff whiteSpace_ne_nil]
    rintro w hw ⟨r, hr⟩
    apply head?_whiteSpace w hw
    cases w with
    | nil => exact absurd rfl (whiteSpace_ne_nil _ hw)
    | cons a w => rw [(List.cons.inj hr).1]; rfl
  rw [trimSpace, trimWords, hleft]

/-! ## B. Reading the answer -/

/-- A line is read up to its newline. -/
theorem readString_append {l : Bytes} (h : (10 : UInt8) ∉ l) (rest : Bytes) :
    readString (l ++ 10 :: rest) = some (l ++ [10], rest) := by
  rw [readString, cut_append h]
  rfl

/-- A value and what is in front of it fit into the trimmed line. -/
theorem length_value_le {line message v : Bytes} (h : parseResponse line = .ok ⟨true, message, v⟩) (hv : v ≠ []) :
    v.length + 7 ≤ (trimSpace line).length := by
  unfold parseResponse at h
  generalize trimSpace line = text at h ⊢
  dsimp only at h
  split at h
  · exact absurd h (by simp)
  next rest =>
    split at h
    next status data hsplit =>
      split_ifs at h with hstatus
      · obtain ⟨-, rfl⟩ : _ ∧ data = v := by simpa using h
        have hcut : cut 32 rest = some (status, data) := by
          unfold splitN2 at hsplit
          split at hsplit <;> simp_all
        rw [cut_eq_some_iff] at hcut
        rw [hcut.1, hstatus]
        simp [Bytes.ascii]
      · exact absurd (by simpa using h : _ ∧ v = []).2 hv
    next => exact absurd (by simpa using h : _ ∧ v = []).2 hv
    · exact absurd h (by simp)
  next rest =>
    split at h <;> simp at h
  · exact absurd h (by simp)

/-- What the server sends, up to the line end. -/
theorem serialize_okWithValue (v : Bytes) :
    (Server.Response.okWithValue v).serialize = (Bytes.ascii "+VALUE " ++ v ++ [13]) ++ 10 :: [] := by
  simp [Server.Response.serialize, Server.Response.okWithValue, Bytes.ascii, Bytes.ofChar]

/-- The line of an answer, trimmed. -/
theorem trimSpace_valueLine {end_ : Bytes} (hend : ∀ b ∈ end_, b = 10 ∨ b = 13) (v : Bytes) :
    trimSpace (Bytes.ascii "+VALUE " ++ v ++ end_) = trimRight whiteSpace (Bytes.ascii "+VALUE " ++ v) := by
  have hplus : Bytes.ascii "+VALUE " ++ v ++ end_ = 43 :: (Bytes.ascii "VALUE " ++ v ++ end_) := rfl
  rw [hplus, trimSpace_answer, ← hplus]
  induction end_ using List.reverseRecOn with
  | nil => rw [List.append_nil]
  | append_singleton end_ b ih =>
      rw [← List.append_assoc, trimRight_lineEnd (hend b (by simp))]
      exact ih (fun b hb => hend b (List.mem_append_left _ hb)) rfl

/-- Only a blank contains a blank. -/
theorem eq_of_blank_mem_whiteSpace : ∀ w ∈ whiteSpace, (32 : UInt8) ∈ w → w = [32] := by decide

/-- White space behind the value is white space at the end of it, if it is not empty. -/
theorem not_suffix_of_not_endsInSpace {v : Bytes} (hne : v ≠ []) (hend : ¬ EndsInSpace v) :
    ∀ w ∈ whiteSpace, ¬ w <:+ Bytes.ascii "+VALUE " ++ v := by
  intro w hw hsuffix
  rcases List.suffix_or_suffix_of_suffix hsuffix (List.suffix_append (Bytes.ascii "+VALUE ") v) with h | ⟨x, rfl⟩
  · exact hend ⟨w, hw, h⟩
  · -- the white space would contain the blank in front of the value
    obtain ⟨y, hy⟩ := List.suffix_append_self_iff.mp hsuffix
    rcases List.eq_nil_or_concat x with rfl | ⟨x, b, rfl⟩
    · exact hend ⟨[] ++ v, hw, List.suffix_refl _⟩
    · rw [List.concat_eq_append, ← List.append_assoc] at hy
      obtain rfl : b = 32 := by
        have := congrArg List.getLast? hy
        rw [List.getLast?_concat] at this
        exact Option.some.inj this
      have hblank := eq_of_blank_mem_whiteSpace _ hw (by simp)
      have hlen := congrArg List.length hblank
      have hpos := List.length_pos_iff.mpr hne
      simp at hlen
      omega

/-- A value that is on one line and not followed by white space comes back. -/
theorem decodes_of_not_endsInSpace {v : Bytes} (hne : v ≠ []) (hline : (10 : UInt8) ∉ v) (hend : ¬ EndsInSpace v) :
    Decodes v := by
  refine ⟨Bytes.ascii "OK", ?_⟩
  have hnot : (10 : UInt8) ∉ Bytes.ascii "+VALUE " ++ v ++ [13] := by
    simp only [List.mem_append, hline]
    decide
  have htrim : trimSpace (Bytes.ascii "+VALUE " ++ v ++ [13] ++ [10]) = Bytes.ascii "+VALUE " ++ v := by
    rw [List.append_assoc, trimSpace_valueLine (by simp), trimRight_eq_self_iff whiteSpace_ne_nil]
    exact not_suffix_of_not_endsInSpace hne hend
  have hblank : (32 : UInt8) ∉ Bytes.ascii "VALUE" := by decide
  have hcut : cut 32 (Bytes.ascii "VALUE " ++ v) = some (Bytes.ascii "VALUE", v) := cut_append hblank v
  have hplus : Bytes.ascii "+VALUE " ++ v = 43 :: (Bytes.ascii "VALUE " ++ v) := rfl
  rw [readResponse, serialize_okWithValue, readString_append hnot]
  dsimp only
  unfold parseResponse
  rw [htrim, hplus]
  simp only [splitN2, hcut, if_true]

/-- The trimmed line of an answer is not longer than the answer without its end. -/
theorem length_le_of_readResponse {l end_ rest message v : Bytes} (hline : (10 : UInt8) ∉ l ++ end_)
    (hend : ∀ b ∈ end_, b = 10 ∨ b = 13) (hv : v ≠ [])
    (h : readResponse (Bytes.ascii "+VALUE " ++ l ++ end_ ++ 10 :: rest) = .ok ⟨true, message, v⟩) :
    v.length + 7 ≤ (trimRight whiteSpace (Bytes.ascii "+VALUE " ++ l)).length := by
  have hnot : (10 : UInt8) ∉ Bytes.ascii "+VALUE " ++ l ++ end_ := by
    rw [List.append_assoc, List.mem_append]
    simp only [hline]
    decide
  rw [readResponse, readString_append hnot] at h
  have hle := length_value_le h hv
  rwa [List.append_assoc, trimSpace_valueLine (by simpa [or_imp, forall_and] using hend)] at hle

/-- A value with a line end or white space behind it comes back shorter. -/
theorem not_decodes {v : Bytes} (hne : v ≠ []) (h : (10 : UInt8) ∈ v ∨ EndsInSpace v) : ¬ Decodes v := by
  rintro ⟨message, hresponse⟩
  rw [serialize_okWithValue] at hresponse
  by_cases hline : (10 : UInt8) ∈ v
  · -- only the first line is read
    obtain ⟨a, b, rfl, ha⟩ := List.eq_append_cons_of_mem hline
    have hsplit : Bytes.ascii "+VALUE " ++ (a ++ 10 :: b) ++ [13] ++ 10 :: [] =
        Bytes.ascii "+VALUE " ++ a ++ [] ++ 10 :: (b ++ [13, 10]) := by simp
    rw [hsplit] at hresponse
    have hle := length_le_of_readResponse (by simpa using ha) (by simp) hne hresponse
    have hpre : trimRight whiteSpace (Bytes.ascii "+VALUE " ++ a) <+: Bytes.ascii "+VALUE " ++ a := trimRight_prefix _
    have hlen := hpre.length_le
    simp [Bytes.ascii] at hle hlen
    omega
  · obtain ⟨w, hw, hsuffix⟩ := h.resolve_left hline
    have hle := length_le_of_readResponse (by simpa using hline) (by simp) hne hresponse
    have hpre : trimRight whiteSpace (Bytes.ascii "+VALUE " ++ v) <+: Bytes.ascii "+VALUE " ++ v := trimRight_prefix _
    have hself := hpre.eq_of_length_le (by rw [List.length_append]; exact Nat.add_comm _ _ ▸ hle)
    exact (trimRight_eq_self_iff whiteSpace_ne_nil).mp hself w hw (hsuffix.trans (List.suffix_append _ _))

/-- **When a value comes back.** The client takes the answer to a GET for a success with exactly the value a PUT line
    had, if and only if the value is on one line and does not end in white space. -/
theorem decodes_iff {line : Bytes} {req : Request} (hparse : ProtocolParser.parse line = some req)
    (hput : req.type = .put) : Decodes req.value ↔ (10 : UInt8) ∉ req.value ∧ ¬ EndsInSpace req.value := by
  have hne := (of_parse_put hparse hput).1
  constructor
  · intro h
    exact ⟨fun hline => not_decodes hne (Or.inl hline) h, fun hend => not_decodes hne (Or.inr hend) h⟩
  · rintro ⟨hline, hend⟩
    exact decodes_of_not_endsInSpace hne hline hend

/-- A value with blanks inside. -/
theorem decodes_iff_blanks :
    let req : Request := ⟨.put, Bytes.ascii "k", Bytes.ascii "a  b"⟩
    ProtocolParser.parse (Bytes.ascii "put  k a  b ") = some req ∧
      (Decodes req.value ↔ (10 : UInt8) ∉ req.value ∧ ¬ EndsInSpace req.value) := by
  intro req
  have hparse : ProtocolParser.parse (Bytes.ascii "put  k a  b ") = some req := by decide
  exact ⟨hparse, decodes_iff hparse rfl⟩

/-- A value that ends in a no-break space: the server keeps it, and the client loses it. -/
theorem noBreakSpace_lost :
    let line := Bytes.ascii "PUT k 10" ++ [0xC2, 0xA0]
    let req : Request := ⟨.put, Bytes.ascii "k", Bytes.ascii "10" ++ [0xC2, 0xA0]⟩
    ProtocolParser.parse line = some req ∧
      readResponse (Server.Response.okWithValue req.value).serialize =
        .ok ⟨true, Bytes.ascii "OK", Bytes.ascii "10"⟩ ∧ ¬ Decodes req.value := by
  intro line req
  have hread : readResponse (Server.Response.okWithValue req.value).serialize =
      .ok ⟨true, Bytes.ascii "OK", Bytes.ascii "10"⟩ := by decide
  refine ⟨by decide, hread, ?_⟩
  intro h
  obtain ⟨message, h⟩ := h
  rw [hread] at h
  exact absurd (by simpa using h : _ ∧ Bytes.ascii "10" = req.value).2 (by decide)

end KvStorageEngine.Cli
