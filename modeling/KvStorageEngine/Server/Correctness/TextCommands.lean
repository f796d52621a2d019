import KvStorageEngine.Server.ConnectionHandler

/-!
# `Server.Correctness.TextCommands` — what the server makes of a line

`parse` trims the line, cuts it at its first blank and trims the rest, so of a command and what is behind it only the
trimmed rest counts (`splitCommand_trim`). `parse_put` and `parse_get` say what becomes of that, and `of_parse_put` what
can be said of a PUT whatever the line was.

A line reaches `parse` if the buffer has not become too long when its end comes (`Fits`). Then what the server says to it
comes first (`run_of_fits`), and if not, the connection is given up without a word (`run_of_not_fits`).
-/

namespace KvStorageEngine.Server

open Cutting ProtocolParser

/-! ## A. One line -/

/-- The command and the rest of a line. -/
theorem splitCommand_trim {cmd : Bytes} (hbare : Bare isTrimmed cmd) (hne : cmd ≠ []) (hblank : (32 : UInt8) ∉ cmd)
    (rest : Bytes) :
    trim (cmd ++ 32 :: rest) ≠ [] ∧ splitCommand (trim (cmd ++ 32 :: rest)) = (cmd, trim rest) := by
  by_cases hrest : trim rest = []
  · have hall : ∀ b ∈ 32 :: rest, isTrimmed b = true := by
      rw [List.forall_mem_cons]
      exact ⟨rfl, strip_eq_nil_iff.mp hrest⟩
    have htrim : trim (cmd ++ 32 :: rest) = cmd := by
      rw [trim, strip_append_right hall, strip_of_bare hbare]
    rw [htrim, hrest]
    refine ⟨hne, ?_⟩
    rw [splitCommand, cut_eq_none_iff.mpr hblank]
  · have hrest' : strip isTrimmed (32 :: rest) ≠ [] := by
      rw [strip_cons_of_pos rfl]
      exact hrest
    have htrim : trim (cmd ++ 32 :: rest) = cmd ++ 32 :: rest.rdropWhile isTrimmed := by
      rw [trim, strip_append hbare hne hrest']
      exact congrArg _ (rdropWhile_append hrest [32])
    rw [htrim]
    refine ⟨by simp, ?_⟩
    rw [splitCommand, cut_append hblank]
    dsimp only
    rw [trim, strip_rdropWhile, trim]

/-- What is in front of a blank and behind it, in a trimmed text. -/
theorem ne_nil_of_bare {key value : Bytes} (h : Bare isTrimmed (key ++ 32 :: value)) : key ≠ [] ∧ trim value ≠ [] := by
  constructor
  · rintro rfl
    exact absurd (h.1 32 rfl) (by decide)
  · intro hnil
    have hall : ∀ b ∈ 32 :: value, isTrimmed b = true := by
      rw [List.forall_mem_cons]
      exact ⟨rfl, strip_eq_nil_iff.mp hnil⟩
    have hlast : (key ++ 32 :: value).getLast? = some ((32 :: value).getLast (by simp)) := by
      rw [List.getLast?_append_of_ne_nil _ (by simp), List.getLast?_eq_some_getLast (by simp)]
    have hfalse := h.2 _ hlast
    rw [hall _ (List.getLast_mem _)] at hfalse
    exact absurd hfalse (by simp)

/-- A PUT has a key up to the first blank of what is behind the command. -/
theorem parse_put (rest : Bytes) : parse (Bytes.ascii "PUT" ++ 32 :: rest) =
    (cut 32 (trim rest)).map fun (key, value) => ⟨.put, key, trim value⟩ := by
  have hcmd : Bare isTrimmed (Bytes.ascii "PUT") ∧ Bytes.ascii "PUT" ≠ [] ∧ (32 : UInt8) ∉ Bytes.ascii "PUT" := by
    decide
  obtain ⟨hne, hsplit⟩ := splitCommand_trim hcmd.1 hcmd.2.1 hcmd.2.2 rest
  have htype : parseCommand (Bytes.ascii "PUT") = .put := by decide
  unfold parse
  dsimp only
  rw [if_neg hne, hsplit]
  dsimp only
  rw [htype]
  dsimp only
  cases hcut : cut 32 (trim rest) with
  | none => rfl
  | some p =>
      obtain ⟨key, value⟩ := p
      obtain ⟨hrest, -⟩ := cut_eq_some_iff.mp hcut
      have hbare : Bare isTrimmed (trim rest) := bare_strip rest
      rw [hrest] at hbare
      obtain ⟨hkey, hvalue⟩ := ne_nil_of_bare hbare
      exact if_neg (by simp [hkey, hvalue])

/-- A GET has all of it for a key. -/
theorem parse_get (rest : Bytes) : parse (Bytes.ascii "GET" ++ 32 :: rest) =
    if trim rest = [] then none else some ⟨.get, trim rest, []⟩ := by
  have hcmd : Bare isTrimmed (Bytes.ascii "GET") ∧ Bytes.ascii "GET" ≠ [] ∧ (32 : UInt8) ∉ Bytes.ascii "GET" := by
    decide
  obtain ⟨hne, hsplit⟩ := splitCommand_trim hcmd.1 hcmd.2.1 hcmd.2.2 rest
  have htype : parseCommand (Bytes.ascii "GET") = .get := by decide
  unfold parse
  dsimp only
  rw [if_neg hne, hsplit]
  dsimp only
  rw [htype]

theorem mem_of_mem_cut {l a r : Bytes} (h : cut 32 l = some (a, r)) {b : UInt8} (hb : b ∈ r) : b ∈ l := by
  rw [(cut_eq_some_iff.mp h).1]
  exact List.mem_append_right _ (List.mem_cons_of_mem _ hb)

theorem mem_of_mem_splitCommand {trimmed : Bytes} {b : UInt8} (hb : b ∈ (splitCommand trimmed).2) : b ∈ trimmed := by
  unfold splitCommand at hb
  split at hb
  · exact absurd hb List.not_mem_nil
  next hcut => exact mem_of_mem_cut hcut (mem_of_mem_strip hb)

/-- The type of a request is that of its command word. -/
theorem type_of_parse {line : Bytes} {req : Request} (h : parse line = some req) :
    parseCommand (splitCommand (trim line)).1 = req.type := by
  have hne : ¬ trim line = [] := fun hnil => by simp [parse, hnil] at h
  unfold parse at h
  dsimp only at h
  rw [if_neg hne] at h
  generalize parseCommand (splitCommand (trim line)).1 = type at h ⊢
  cases type with
  | put =>
      dsimp only at h
      split at h
      · exact absurd h (by simp)
      · split_ifs at h
        exact congrArg Request.type (Option.some.inj h)
  | get | delete =>
      dsimp only at h
      split_ifs at h
      exact congrArg Request.type (Option.some.inj h)
  | ping | quit | status | unknown => exact congrArg Request.type (Option.some.inj h)

/-- The value of a PUT is not empty, and it is trimmed, and on one line if the command was. -/
theorem of_parse_put {line : Bytes} {req : Request} (h : parse line = some req) (hput : req.type = .put) :
    req.value ≠ [] ∧ Bare isTrimmed req.value ∧ ((10 : UInt8) ∉ line → (10 : UInt8) ∉ req.value) := by
  have htype := (type_of_parse h).trans hput
  have hne : ¬ trim line = [] := fun hnil => by simp [parse, hnil] at h
  unfold parse at h
  dsimp only at h
  rw [if_neg hne, htype] at h
  dsimp only at h
  split at h
  · exact absurd h (by simp)
  next key value hcut =>
    split_ifs at h with hempty
    obtain rfl := Option.some.inj h
    refine ⟨fun hnil => hempty (Or.inr hnil), bare_strip value, fun hline hb => hline ?_⟩
    exact mem_of_mem_strip (mem_of_mem_splitCommand (mem_of_mem_cut hcut (mem_of_mem_strip hb)))

/-! ## B. The end of a line

A line ends in a newline, perhaps with a carriage return in front, and both are gone before the line is trimmed. -/

namespace ConnectionHandler

theorem popReturn_append {a : Bytes} (ha : a.getLast? ≠ some 13) (l : Bytes) : popReturn (a ++ l) = a ++ popReturn l := by
  unfold popReturn
  cases l with
  | nil => simp [ha]
  | cons b l =>
      rw [List.getLast?_append_of_ne_nil _ (by simp)]
      split
      · exact List.dropLast_append_of_ne_nil (by simp)
      · rfl

/-- Whether a carriage return at the end is taken off makes no difference to a command. -/
theorem trim_popReturn (l : Bytes) : trim (popReturn l) = trim l := by
  unfold popReturn
  split
  next hlast =>
    have hne : l ≠ [] := fun hnil => by simp [hnil] at hlast
    have hget : l.getLast hne = 13 := by
      rw [List.getLast?_eq_some_getLast hne] at hlast
      exact Option.some.inj hlast
    conv_rhs => rw [← List.dropLast_append_getLast hne, hget]
    exact (strip_append_right (by simp [isTrimmed])).symm
  next => rfl

/-! ## C. A connection

What a connection has answered it does not take back (`Extends`), so the answer to the first line is the first thing
that the client reads. -/

/-- What has been done stays done. -/
structure Extends (h h' : ConnectionHandler) : Prop where
  requests : h.requests <+: h'.requests
  output : h.output <+: h'.output

theorem Extends.refl (h : ConnectionHandler) : Extends h h := ⟨List.prefix_refl _, List.prefix_refl _⟩

theorem Extends.trans {h₁ h₂ h₃ : ConnectionHandler} (h : Extends h₁ h₂) (h' : Extends h₂ h₃) : Extends h₁ h₃ :=
  ⟨h.requests.trans h'.requests, h.output.trans h'.output⟩

theorem extends_foldl {β : Type*} {f : ConnectionHandler → β → ConnectionHandler} (hf : ∀ h b, Extends h (f h b))
    (bs : List β) (h : ConnectionHandler) : Extends h (bs.foldl f h) := by
  induction bs generalizing h with
  | nil => exact Extends.refl h
  | cons b bs ih => exact (hf h b).trans (ih (f h b))

theorem extends_handleLine (h : ConnectionHandler) (line : Bytes) : Extends h (h.handleLine line) := by
  unfold handleLine
  split
  · exact Extends.refl h
  · dsimp only
    split <;> exact ⟨List.prefix_append _ _, List.prefix_append _ _⟩

/-- A chunk adds answers. -/
theorem extends_receive (h : ConnectionHandler) (chunk : Bytes) : Extends h (h.receive chunk) := by
  unfold receive
  split
  · exact Extends.refl h
  · dsimp only
    split
    · exact ⟨List.prefix_refl _, List.prefix_refl _⟩
    · have hbuffer : ∀ rest, Extends h { h with readBuffer := rest } :=
        fun _ => ⟨List.prefix_refl _, List.prefix_refl _⟩
      exact (hbuffer _).trans (extends_foldl extends_handleLine _ _)

theorem receive_of_closed {h : ConnectionHandler} (hclosed : h.closed = true) (chunks : List Bytes) :
    chunks.foldl receive h = h := by
  induction chunks with
  | nil => rfl
  | cons chunk chunks ih =>
      rw [List.foldl_cons]
      unfold receive
      rw [if_pos hclosed]
      exact ih

/-- When the first line end comes, the buffer has not become too long. -/
def Fits (chunks : List Bytes) : Prop :=
  ∃ pre, pre <+: chunks ∧ (10 : UInt8) ∈ pre.flatten ∧ pre.flatten.length ≤ maxBufferSize

/-- What the server does with one command, and what it says. -/
def reply (server : Standalone) : Option Request → Standalone × Response
  | none => (server, Response.error "INVALID_COMMAND")
  | some req => server.executeCommand req

/-- The first line of a connection. -/
theorem handleLine_first (server : Standalone) (buffer line : Bytes) :
    let h := { init server with readBuffer := buffer }.handleLine line
    let reqOpt := parse (popReturn line)
    h.requests = [reqOpt] ∧ h.server = (reply server reqOpt).1 ∧
      h.output = (init server).output ++ (reply server reqOpt).2.serialize := by
  intro h reqOpt
  have hh : h = { init server with readBuffer := buffer }.handleLine line := rfl
  unfold handleLine at hh
  dsimp only [init] at hh
  cases hreq : parse (popReturn line) with
  | none =>
      rw [hreq] at hh
      rw [hh, show reqOpt = none from hreq]
      exact ⟨rfl, rfl, rfl⟩
  | some req =>
      rw [hreq] at hh
      rw [hh, show reqOpt = some req from hreq]
      exact ⟨rfl, rfl, rfl⟩

theorem not_isNewline {l : Bytes} (h : (10 : UInt8) ∉ l) : ∀ b ∈ l, isNewline b = false := by
  intro b hb
  have hne : b ≠ 10 := fun he => h (he ▸ hb)
  simpa [isNewline] using hne

/-- The chunk that the first line ends in. -/
theorem exists_first_chunk {chunks : List Bytes} (h : (10 : UInt8) ∈ chunks.flatten) :
    ∃ pre chunk post, chunks = pre ++ chunk :: post ∧ (10 : UInt8) ∉ pre.flatten ∧ (10 : UInt8) ∈ chunk := by
  induction chunks with
  | nil => exact absurd h (by simp)
  | cons chunk chunks ih =>
      by_cases hchunk : (10 : UInt8) ∈ chunk
      · exact ⟨[], chunk, chunks, rfl, by simp, hchunk⟩
      · rw [List.flatten_cons, List.mem_append] at h
        obtain ⟨pre, chunk', post, rfl, hpre, hchunk'⟩ := ih (h.resolve_left hchunk)
        exact ⟨chunk :: pre, chunk', post, rfl, by simp [hchunk] at hpre ⊢; exact hpre, hchunk'⟩

/-- A chunk that fits is cut into lines. -/
theorem receive_of_length_le {h : ConnectionHandler} (hopen : h.closed = false) {chunk : Bytes}
    (hlen : (h.readBuffer ++ chunk).length ≤ maxBufferSize) :
    h.receive chunk = (LineFraming.split isNewline (h.readBuffer ++ chunk)).1.foldl handleLine
      { h with readBuffer := (LineFraming.split isNewline (h.readBuffer ++ chunk)).2 } := by
  unfold receive
  rw [hopen]
  dsimp only
  rw [if_neg (by simp), if_neg (Nat.not_lt.mpr hlen)]

/-- Chunks without a line end are gathered. -/
theorem receive_of_no_line {h : ConnectionHandler} (hopen : h.closed = false) {chunk : Bytes}
    (hline : (10 : UInt8) ∉ h.readBuffer ++ chunk) (hlen : (h.readBuffer ++ chunk).length ≤ maxBufferSize) :
    h.receive chunk = { h with readBuffer := h.readBuffer ++ chunk } := by
  rw [receive_of_length_le hopen hlen, LineFraming.split_of_not (not_isNewline hline)]
  rfl

theorem foldl_receive_of_no_line {chunks : List Bytes} {h : ConnectionHandler} (hopen : h.closed = false)
    (hline : (10 : UInt8) ∉ h.readBuffer ++ chunks.flatten)
    (hlen : (h.readBuffer ++ chunks.flatten).length ≤ maxBufferSize) :
    chunks.foldl receive h = { h with readBuffer := h.readBuffer ++ chunks.flatten } := by
  induction chunks generalizing h with
  | nil => simp
  | cons chunk chunks ih =>
      rw [List.flatten_cons, ← List.append_assoc] at hline hlen ⊢
      have hfirst : (10 : UInt8) ∉ h.readBuffer ++ chunk := fun hb => hline (List.mem_append_left _ hb)
      have hfirst' : (h.readBuffer ++ chunk).length ≤ maxBufferSize := by
        rw [List.length_append] at hlen
        omega
      rw [List.foldl_cons, receive_of_no_line hopen hfirst hfirst']
      exact ih hopen hline hlen

/-- **The first line is handled**, if it fits: before any other, on the server as it is. -/
theorem run_of_fits (server : Standalone) {chunks : List Bytes} (hfits : Fits chunks) {line rest : Bytes}
    (hline : (10 : UInt8) ∉ line) (hflat : chunks.flatten = line ++ 10 :: rest) :
    ∃ tail post, run server chunks = post.foldl receive ((LineFraming.split isNewline tail).1.foldl handleLine
      ({ init server with readBuffer := (LineFraming.split isNewline tail).2 }.handleLine line)) ∧
      tail ++ post.flatten = rest ∧ post <:+ chunks := by
  obtain ⟨pre, chunk, post, rfl, hpre, hchunk⟩ :=
    exists_first_chunk (show (10 : UInt8) ∈ chunks.flatten by rw [hflat]; simp)
  obtain ⟨front, tail, rfl, hfront⟩ := List.eq_append_cons_of_mem hchunk
  have hlen : (pre.flatten ++ (front ++ 10 :: tail)).length ≤ maxBufferSize := by
    obtain ⟨got, hgot, hmem, hle⟩ := hfits
    have hpost : pre ++ [front ++ 10 :: tail] <+: pre ++ (front ++ 10 :: tail) :: post := by simp
    have hcover : pre ++ [front ++ 10 :: tail] <+: got := by
      rcases List.prefix_or_prefix_of_prefix hgot hpost with h | h
      · rcases List.prefix_concat_iff.mp h with rfl | h
        · exact List.prefix_refl _
        · exact absurd (h.flatten.subset hmem) hpre
      · exact h
    have := hcover.flatten.length_le
    rw [List.flatten_append, List.flatten_singleton] at this
    exact this.trans hle
  have hfirst : (10 : UInt8) ∉ pre.flatten ++ front := by simp [hpre, hfront]
  have hcut : pre.flatten ++ front = line ∧ tail ++ post.flatten = rest := by
    have h := congrArg (cut 10) hflat
    rw [List.flatten_append, List.flatten_cons, List.append_assoc, ← List.append_assoc, List.cons_append,
      cut_append hfirst, cut_append hline] at h
    exact Prod.mk.inj (Option.some.inj h)
  obtain ⟨rfl, rfl⟩ := hcut
  refine ⟨tail, post, ?_, rfl, (List.suffix_cons _ _).trans (List.suffix_append _ _)⟩
  have hgather : pre.foldl receive (init server) = { init server with readBuffer := pre.flatten } := by
    apply foldl_receive_of_no_line rfl
    · exact hpre
    · rw [List.length_append] at hlen
      exact (Nat.le_add_right _ _).trans hlen
  have hsplit : LineFraming.split isNewline (pre.flatten ++ (front ++ 10 :: tail)) =
      ((pre.flatten ++ front) :: (LineFraming.split isNewline tail).1, (LineFraming.split isNewline tail).2) := by
    rw [← List.append_assoc, LineFraming.split_line (not_isNewline hfirst) rfl]
  have hreceive := receive_of_length_le (h := { init server with readBuffer := pre.flatten }) rfl hlen
  dsimp only at hreceive
  rw [hsplit, List.foldl_cons] at hreceive
  rw [run, List.foldl_append, List.foldl_cons, hgather, hreceive]

/-- A connection whose first line does not fit is given up. -/
theorem run_of_not_fits {server : Standalone} {chunks : List Bytes} (hfits : ¬ Fits chunks) :
    (run server chunks).requests = [] ∧ (run server chunks).output = (init server).output := by
  suffices h : ∀ h : ConnectionHandler, (h.closed = false → (10 : UInt8) ∉ h.readBuffer) →
      (∀ pre, pre <+: chunks → (10 : UInt8) ∈ h.readBuffer ++ pre.flatten →
        maxBufferSize < (h.readBuffer ++ pre.flatten).length) →
      (chunks.foldl receive h).requests = h.requests ∧ (chunks.foldl receive h).output = h.output by
    apply h (init server) (fun _ => by simp [init])
    intro pre hpre hmem
    by_contra hlen
    exact hfits ⟨pre, hpre, hmem, Nat.not_lt.mp hlen⟩
  clear hfits
  induction chunks with
  | nil => exact fun _ _ _ => ⟨rfl, rfl⟩
  | cons chunk chunks ih =>
      intro h hopen hlong
      cases hclosed : h.closed with
      | true => simp [receive_of_closed hclosed]
      | false =>
          rw [List.foldl_cons]
          by_cases hlen : maxBufferSize < (h.readBuffer ++ chunk).length
          · have hgive : h.receive chunk = { h with readBuffer := h.readBuffer ++ chunk, closed := true } := by
              unfold receive
              rw [hclosed]
              dsimp only
              rw [if_neg (by simp), if_pos hlen]
            rw [hgive, receive_of_closed rfl]
            exact ⟨rfl, rfl⟩
          · have hline : (10 : UInt8) ∉ h.readBuffer ++ chunk := fun hmem =>
              hlen (by simpa using hlong [chunk] (List.prefix_append [chunk] chunks) (by simpa using hmem))
            rw [receive_of_no_line hclosed hline (Nat.not_lt.mp hlen)]
            apply ih _ (fun _ => hline)
            intro pre hpre hmem
            have := hlong (chunk :: pre) (List.prefix_cons_inj chunk |>.mpr hpre)
            rw [List.flatten_cons, ← List.append_assoc] at this
            exact this hmem

end ConnectionHandler

end KvStorageEngine.Server
