import KvStorageEngine.Cli.Correctness.ValueRoundTrip

/-!
# `Cli.Correctness.SetThenGet` — a SET, and a GET of the same key

The client sends key and value as they are, one blank between them. What the server stores is what it finds on the first
line when it has trimmed it and cut it at its first blank. So a SET that succeeds may be of another key and another
value, unless the key has no blank in it, and neither of them has a newline or something at its ends that is trimmed
(`Clean`). A GET cuts the line differently, and the answer to it is trimmed once more.

`setThenGet_iff` also says when the SET does not succeed at all, whatever the chunks the line comes in: the engine is shut
down, the line is too long, or nothing that looks like a value is left on it.
-/

namespace KvStorageEngine.Cli

open Cutting Server Server.ProtocolParser Server.ConnectionHandler

/-- What `recv` may make of a text. -/
def Chunks (data : Bytes) (chunks : List Bytes) : Prop :=
  chunks.flatten = data ∧ ∀ c ∈ chunks, c ≠ [] ∧ c.length ≤ 4096

/-- If the client takes the answer to a SET for a success, then the server parsed exactly this key and value; and a GET of
    the key that follows asks for the key and finds the value. -/
def SetThenGet (server : Standalone) (key value : Bytes) : Prop :=
  ∀ chunks getChunks, Chunks (formatCommand (setCommand key value)) chunks →
    Chunks (formatCommand (getCommand key)) getChunks →
    ∀ answer, exchange (run server chunks).output = .ok answer → answer.success = true →
      (run server chunks).requests = [some ⟨.put, key, value⟩] ∧
      (run (run server chunks).server getChunks).requests = [some ⟨.get, key, []⟩] ∧
      ∃ message, exchange (run (run server chunks).server getChunks).output = .ok ⟨true, message, value⟩

/-- The first line of a text. -/
def firstLine (data : Bytes) : Bytes := data.takeWhile (!isNewline ·)

/-- The line of a SET does not fit into the server's buffer. -/
def TooLong (key value : Bytes) : Prop :=
  maxBufferSize ≤ (firstLine (formatCommand (setCommand key value))).length

/-- No blank is left when the first line is trimmed. -/
def Rejected (key value : Bytes) : Prop := (32 : UInt8) ∉ trim (firstLine (key ++ 32 :: value))

/-- Key and value that survive the way to the server and back. -/
structure Clean (key value : Bytes) : Prop where
  key_ne_nil : key ≠ []
  key_noBlank : (32 : UInt8) ∉ key
  key_noNewline : (10 : UInt8) ∉ key
  key_bare : Bare isTrimmed key
  value_ne_nil : value ≠ []
  value_noNewline : (10 : UInt8) ∉ value
  value_bare : Bare isTrimmed value
  value_end : ¬ EndsInSpace value

/-! ## A. One exchange

The client writes a command, and reads the welcome and one answer. If the server gives up, the client reads to the end
of the stream. -/

theorem exists_firstLine {data : Bytes} (h : (10 : UInt8) ∈ data) :
    ∃ rest, data = firstLine data ++ 10 :: rest ∧ (10 : UInt8) ∉ firstLine data := by
  obtain ⟨front, rest, rfl, hfront⟩ := List.eq_append_cons_of_mem h
  have hfirst : firstLine (front ++ 10 :: rest) = front := by
    unfold firstLine
    rw [List.takeWhile_append_of_pos fun b hb => by simp [not_isNewline hfront b hb]]
    simp [isNewline]
  rw [hfirst]
  exact ⟨rest, rfl, hfront⟩

theorem newline_notMem_firstLine (data : Bytes) : (10 : UInt8) ∉ firstLine data := fun h =>
  absurd (List.mem_takeWhile_imp h) (by decide)

theorem firstLine_of_notMem {data : Bytes} (h : (10 : UInt8) ∉ data) : firstLine data = data := by
  unfold firstLine
  rw [List.takeWhile_eq_self_iff]
  intro b hb
  simp [not_isNewline h b hb]

/-- The client reads the first line behind the welcome. -/
theorem exchange_welcome (server : Standalone) (answers : Bytes) :
    exchange ((init server).output ++ answers) = readResponse answers := by
  have hwelcome : (init server).output = Bytes.ascii "+OK KV-Storage-Engine ready\r" ++ [10] := by
    simp [init, Bytes.ascii, Bytes.ofChar]
  have hnot : (10 : UInt8) ∉ Bytes.ascii "+OK KV-Storage-Engine ready\r" := by decide
  unfold exchange connect
  rw [hwelcome, List.append_assoc, List.singleton_append, readString_append hnot]
  rfl

/-- Nothing behind the first line is read. -/
theorem readResponse_append {answer : Bytes} (h : (10 : UInt8) ∈ answer) (more : Bytes) :
    readResponse (answer ++ more) = readResponse answer := by
  obtain ⟨front, rest, rfl, hfront⟩ := List.eq_append_cons_of_mem h
  unfold readResponse
  rw [List.append_assoc, List.cons_append, readString_append hfront, readString_append hfront]

theorem newline_mem_serialize (r : Server.Response) : (10 : UInt8) ∈ r.serialize := by
  have hend : (10 : UInt8) ∈ Bytes.ascii "\r\n" := by decide
  unfold Server.Response.serialize
  split
  · exact List.mem_append_right _ hend
  · split <;> exact List.mem_append_right _ hend

/-- A connection whose first line fits: what the client makes of the answer. -/
theorem exchange_of_fits (server : Standalone) {chunks : List Bytes} (hfits : Fits chunks) {line rest : Bytes}
    (hline : (10 : UInt8) ∉ line) (hflat : chunks.flatten = line ++ 10 :: rest) :
    exchange (run server chunks).output = readResponse (reply server (parse (popReturn line))).2.serialize ∧
      (run server chunks).requests.head? = some (parse (popReturn line)) := by
  obtain ⟨tail, post, hrun, -, -⟩ := run_of_fits server hfits hline hflat
  obtain ⟨hrequests, -, houtput⟩ := handleLine_first server (LineFraming.split isNewline tail).2 line
  have hextends := (extends_foldl extends_handleLine (LineFraming.split isNewline tail).1
    ({ init server with readBuffer := (LineFraming.split isNewline tail).2 }.handleLine line)).trans
      (extends_foldl extends_receive post _)
  rw [← hrun] at hextends
  obtain ⟨more, hmore⟩ := hextends.output
  obtain ⟨later, hlater⟩ := hextends.requests
  rw [houtput] at hmore
  rw [hrequests] at hlater
  rw [← hmore, ← hlater, List.append_assoc, exchange_welcome, readResponse_append (newline_mem_serialize _)]
  exact ⟨rfl, rfl⟩

/-- A connection that is given up: the client gets no answer. -/
theorem exchange_of_not_fits {server : Standalone} {chunks : List Bytes} (hfits : ¬ Fits chunks) {answer : Response} :
    exchange (run server chunks).output ≠ .ok answer := by
  rw [(run_of_not_fits hfits).2, ← List.append_nil (init server).output, exchange_welcome]
  simp [readResponse, readString, cut, LineFraming.takeLine]

/-! ## B. The lines of a SET and a GET

A key or a value with a newline makes two lines of a SET, and the server answers the first one. How the line is cut
into chunks matters only at the limit of the buffer. -/

theorem firstLine_append {front : Bytes} (h : (10 : UInt8) ∉ front) (l : Bytes) :
    firstLine (front ++ l) = front ++ firstLine l := by
  unfold firstLine
  exact List.takeWhile_append_of_pos fun b hb => by simp [not_isNewline h b hb]

/-- The line end makes no difference. -/
theorem trim_firstLine (l : Bytes) : trim (firstLine (l ++ Bytes.ascii "\r\n")) = trim (firstLine l) := by
  by_cases h : (10 : UInt8) ∈ l
  · obtain ⟨rest, hl, hfirst⟩ := exists_firstLine h
    conv_lhs => rw [hl, List.append_assoc, firstLine_append hfirst]
    simp [firstLine, isNewline]
  · rw [firstLine_append h, firstLine_of_notMem h]
    exact strip_append_right (by decide +kernel)

theorem formatCommand_set (key value : Bytes) : formatCommand (setCommand key value) =
    Bytes.ascii "PUT " ++ ((key ++ 32 :: value) ++ Bytes.ascii "\r\n") := by
  have hblank : Bytes.ascii " " = [32] := rfl
  have hput : Bytes.ascii "PUT " = Bytes.ascii "PUT" ++ [32] := rfl
  unfold formatCommand setCommand
  rw [hput, hblank]
  simp only [List.append_assoc, List.cons_append, List.nil_append]

theorem formatCommand_get (key : Bytes) : formatCommand (getCommand key) =
    Bytes.ascii "GET " ++ (key ++ Bytes.ascii "\r\n") := by
  have hget : Bytes.ascii "GET " = Bytes.ascii "GET" ++ Bytes.ascii " " := rfl
  unfold formatCommand getCommand
  rw [hget]
  simp only [List.append_assoc]

theorem newline_notMem_setCommand {key value : Bytes} (hkey : (10 : UInt8) ∉ key) (hvalue : (10 : UInt8) ∉ value) :
    (10 : UInt8) ∉ setCommand key value := by
  have hblank : (10 : UInt8) ∉ Bytes.ascii " " := by decide
  have hput : (10 : UInt8) ∉ Bytes.ascii "PUT" := by decide
  simp [setCommand, hput, hblank, hkey, hvalue]

theorem newline_notMem_getCommand {key : Bytes} (hkey : (10 : UInt8) ∉ key) : (10 : UInt8) ∉ getCommand key := by
  have hblank : (10 : UInt8) ∉ Bytes.ascii " " := by decide
  have hget : (10 : UInt8) ∉ Bytes.ascii "GET" := by decide
  simp [getCommand, hget, hblank, hkey]

/-- What is parsed of a command and what is behind it. -/
theorem popReturn_firstLine {cmd : Bytes} (hline : (10 : UInt8) ∉ cmd) (hlast : cmd.getLast? ≠ some 13) (l : Bytes) :
    ∃ rest, popReturn (firstLine (cmd ++ (l ++ Bytes.ascii "\r\n"))) = cmd ++ rest ∧ trim rest = trim (firstLine l) := by
  refine ⟨popReturn (firstLine (l ++ Bytes.ascii "\r\n")), ?_, ?_⟩
  · rw [firstLine_append hline, popReturn_append hlast]
  · rw [trim_popReturn, trim_firstLine]

/-- What the server makes of the first line of a SET. -/
theorem parse_setLine (key value : Bytes) :
    parse (popReturn (firstLine (formatCommand (setCommand key value)))) =
      (cut 32 (trim (firstLine (key ++ 32 :: value)))).map fun (k, v) => ⟨.put, k, trim v⟩ := by
  have hcmd : (10 : UInt8) ∉ Bytes.ascii "PUT " ∧ (Bytes.ascii "PUT ").getLast? ≠ some 13 := by decide
  obtain ⟨rest, hpop, htrim⟩ := popReturn_firstLine hcmd.1 hcmd.2 (key ++ 32 :: value)
  have hput : Bytes.ascii "PUT " ++ rest = Bytes.ascii "PUT" ++ 32 :: rest := rfl
  rw [formatCommand_set, hpop, hput, parse_put, htrim]

/-- What the server makes of the first line of a GET. -/
theorem parse_getLine (key : Bytes) : parse (popReturn (firstLine (formatCommand (getCommand key)))) =
    if trim (firstLine key) = [] then none else some ⟨.get, trim (firstLine key), []⟩ := by
  have hcmd : (10 : UInt8) ∉ Bytes.ascii "GET " ∧ (Bytes.ascii "GET ").getLast? ≠ some 13 := by decide
  obtain ⟨rest, hpop, htrim⟩ := popReturn_firstLine hcmd.1 hcmd.2 key
  have hget : Bytes.ascii "GET " ++ rest = Bytes.ascii "GET" ++ 32 :: rest := rfl
  rw [formatCommand_get, hpop, hget, parse_get, htrim]

theorem newline_mem_formatCommand (cmd : Bytes) : (10 : UInt8) ∈ formatCommand cmd :=
  List.mem_append_right _ (by decide)

/-- One byte at a time. -/
def singles (data : Bytes) : List Bytes := data.map ([·])

theorem flatten_singles (data : Bytes) : (singles data).flatten = data := by
  unfold singles
  rw [← List.flatMap_def, List.flatMap_singleton']

theorem chunks_singles (data : Bytes) : Chunks data (singles data) := by
  refine ⟨flatten_singles data, ?_⟩
  intro c hc
  obtain ⟨b, -, rfl⟩ := List.mem_map.mp hc
  exact ⟨by simp, by simp⟩

/-- One byte at a time, a command fits if its first line does. -/
theorem fits_singles {cmd : Bytes} (h : (firstLine (formatCommand cmd)).length < maxBufferSize) :
    Fits (singles (formatCommand cmd)) := by
  obtain ⟨rest, hdata, -⟩ := exists_firstLine (newline_mem_formatCommand cmd)
  refine ⟨singles (firstLine (formatCommand cmd) ++ [10]), ?_, ?_, ?_⟩
  · conv_rhs => rw [hdata]
    unfold singles
    rw [List.map_append, List.map_append, List.map_cons]
    simp
  · rw [flatten_singles]
    simp
  · rw [flatten_singles, List.length_append]
    exact h

/-- Nothing helps a first line that is too long. -/
theorem not_fits {data : Bytes} (hlong : maxBufferSize ≤ (firstLine data).length) {chunks : List Bytes}
    (h : Chunks data chunks) : ¬ Fits chunks := by
  rintro ⟨pre, hpre, hmem, hle⟩
  obtain ⟨rest, hpre', hline⟩ := exists_firstLine hmem
  obtain ⟨more, hmore⟩ := hpre.flatten
  have hfirst : firstLine data = firstLine pre.flatten := by
    conv_lhs => rw [← h.1, ← hmore, hpre', List.append_assoc, firstLine_append hline]
    simp [firstLine, isNewline]
  have hlen := congrArg List.length hpre'
  rw [List.length_append, List.length_cons] at hlen
  rw [hfirst] at hlong
  omega

theorem firstLine_oneLine {cmd : Bytes} (hline : (10 : UInt8) ∉ cmd) :
    formatCommand cmd = firstLine (formatCommand cmd) ++ 10 :: [] ∧ firstLine (formatCommand cmd) = cmd ++ [13] := by
  have hnot : (10 : UInt8) ∉ cmd ++ [13] := by simp [hline]
  have hdata : formatCommand cmd = (cmd ++ [13]) ++ 10 :: [] := by simp [formatCommand, Bytes.ascii, Bytes.ofChar]
  have hfirst : firstLine (formatCommand cmd) = cmd ++ [13] := by
    rw [hdata, firstLine_append hnot]
    simp [firstLine, isNewline]
  rw [hfirst]
  exact ⟨hdata, rfl⟩

/-- A command on one line fits exactly if the buffer has room for it. -/
theorem fits_oneLine_iff {cmd : Bytes} (hline : (10 : UInt8) ∉ cmd) {chunks : List Bytes}
    (h : Chunks (formatCommand cmd) chunks) : Fits chunks ↔ (formatCommand cmd).length ≤ maxBufferSize := by
  have hlen := congrArg List.length (firstLine_oneLine hline).1
  rw [List.length_append, List.length_singleton] at hlen
  constructor
  · intro hfits
    by_contra hlong
    exact not_fits (by omega) h hfits
  · intro hle
    refine ⟨chunks, List.prefix_refl _, ?_, ?_⟩
    · rw [h.1]
      exact newline_mem_formatCommand cmd
    · rwa [h.1]

/-- A command on one line is all that its connection handles. -/
theorem run_oneLine (server : Standalone) {cmd : Bytes} (hline : (10 : UInt8) ∉ cmd) {chunks : List Bytes}
    (h : Chunks (formatCommand cmd) chunks) (hfits : Fits chunks) :
    let reqOpt := parse (popReturn (firstLine (formatCommand cmd)))
    (run server chunks).requests = [reqOpt] ∧ (run server chunks).server = (reply server reqOpt).1 ∧
      exchange (run server chunks).output = readResponse (reply server reqOpt).2.serialize := by
  intro reqOpt
  have hnot : (10 : UInt8) ∉ cmd ++ [13] := by simp [hline]
  obtain ⟨hdata, hfirst⟩ := firstLine_oneLine hline
  rw [hfirst] at hdata
  obtain ⟨tail, post, hrun, hrest, hpost⟩ := run_of_fits server hfits hnot (h.1.trans hdata)
  obtain ⟨rfl, hflat⟩ := List.append_eq_nil_iff.mp hrest
  obtain rfl : post = [] := by
    by_contra hne
    obtain ⟨c, post, rfl⟩ := List.exists_cons_of_ne_nil hne
    rw [List.flatten_cons] at hflat
    exact (h.2 c (hpost.subset List.mem_cons_self)).1 (List.append_eq_nil_iff.mp hflat).1
  obtain ⟨hrequests, hserver, houtput⟩ := handleLine_first server [] (cmd ++ [13])
  have hreq : parse (popReturn (cmd ++ [13])) = reqOpt := by rw [← hfirst]
  rw [hreq] at hrequests hserver houtput
  have hrun' : run server chunks = { init server with readBuffer := [] }.handleLine (cmd ++ [13]) := hrun
  rw [hrun', hrequests, hserver, houtput, exchange_welcome]
  exact ⟨rfl, rfl, rfl⟩

/-! ## C. SETs that do not succeed -/

theorem readResponse_stored : readResponse (Server.Response.ok "STORED").serialize =
    .ok ⟨true, Bytes.ascii "STORED", []⟩ := by decide

/-- The client does not take an error for a success. -/
theorem not_success_error {message : String} (hmessage : message = "INVALID_COMMAND" ∨ message = "STORE_FAILED" ∨
    message = "NOT_FOUND") {answer : Response}
    (h : readResponse (Server.Response.error message).serialize = .ok answer) : answer.success = false := by
  have hread : readResponse (Server.Response.error message).serialize = .ok ⟨false, Bytes.ascii message, []⟩ := by
    rcases hmessage with rfl | rfl | rfl <;> decide
  rw [hread] at h
  rw [← Except.ok.inj h]

/-- What the server does with a PUT. -/
theorem reply_put (server : Standalone) (k v : Bytes) : reply server (some ⟨.put, k, v⟩) =
    (server.write (putWrite k v),
      if server.accepting then Server.Response.ok "STORED" else Server.Response.error "STORE_FAILED") := rfl

/-- A SET is no success if its line does not fit, if there is no value on it, or if the engine is shut down. -/
theorem not_success {server : Standalone} {key value : Bytes}
    (h : server.accepting = false ∨ TooLong key value ∨ Rejected key value) {chunks : List Bytes}
    (hchunks : Chunks (formatCommand (setCommand key value)) chunks) {answer : Response}
    (hanswer : exchange (run server chunks).output = .ok answer) : answer.success = false := by
  by_cases hfits : Fits chunks
  · obtain ⟨rest, hdata, hline⟩ := exists_firstLine (newline_mem_formatCommand (setCommand key value))
    obtain ⟨hexchange, -⟩ := exchange_of_fits server hfits hline (hchunks.1.trans hdata)
    rw [hexchange, parse_setLine] at hanswer
    cases hcut : cut 32 (trim (firstLine (key ++ 32 :: value))) with
    | none =>
        rw [hcut] at hanswer
        exact not_success_error (Or.inl rfl) hanswer
    | some p =>
        obtain ⟨k, v⟩ := p
        rcases h with haccept | hlong | hrejected
        · rw [hcut, Option.map_some, reply_put, haccept] at hanswer
          exact not_success_error (Or.inr (Or.inl rfl)) hanswer
        · exact absurd hfits (not_fits hlong hchunks)
        · rw [cut_eq_none_iff.mpr hrejected] at hcut
          exact absurd hcut (by simp)
  · exact absurd hanswer (exchange_of_not_fits hfits)

/-! ## D. SETs that do

The server has stored some key and value, and the GET asks for what is left of the client's key. Both are what was
sent exactly if key and value are `Clean`. -/

/-- What is known of a PUT that was parsed from a line. -/
theorem of_cut_trim {l k v : Bytes} (h : cut 32 (trim l) = some (k, v)) (hline : (10 : UInt8) ∉ l) :
    k ≠ [] ∧ (32 : UInt8) ∉ k ∧ (10 : UInt8) ∉ k ∧ trim v ≠ [] ∧ (10 : UInt8) ∉ trim v := by
  obtain ⟨htrim, hblank⟩ := cut_eq_some_iff.mp h
  have hbare : Bare isTrimmed (k ++ 32 :: v) := htrim ▸ bare_strip l
  have hmem : ∀ b ∈ k ++ 32 :: v, b ∈ l := fun b hb => mem_of_mem_strip (htrim.symm ▸ hb)
  obtain ⟨hk, hv⟩ := ne_nil_of_bare hbare
  refine ⟨hk, hblank, fun h10 => hline (hmem 10 ?_), hv, fun h10 => hline (hmem 10 ?_)⟩
  · exact List.mem_append_left _ h10
  · exact List.mem_append_right _ (List.mem_cons_of_mem _ (mem_of_mem_strip h10))

/-- A clean key and a clean value are what the server finds on the line. -/
theorem Clean.cut_trim {key value : Bytes} (h : Clean key value) :
    cut 32 (trim (firstLine (key ++ 32 :: value))) = some (key, value) := by
  have hline : (10 : UInt8) ∉ key ++ 32 :: value := by simp [h.key_noNewline, h.value_noNewline]
  have hbare : Bare isTrimmed (key ++ 32 :: value) := by
    constructor
    · intro a ha
      rw [List.head?_append_of_ne_nil _ h.key_ne_nil] at ha
      exact h.key_bare.1 a ha
    · intro a ha
      have hcons : key ++ 32 :: value = (key ++ [32]) ++ value := by simp
      rw [hcons, List.getLast?_append_of_ne_nil _ h.value_ne_nil] at ha
      exact h.value_bare.2 a ha
  rw [firstLine_of_notMem hline, trim, strip_of_bare hbare, cut_append h.key_noBlank]

/-- The engine finds what was put into it. -/
theorem engine_put {server : Standalone} (haccept : server.accepting = true) (k v : Bytes) :
    (server.write (putWrite k v)).engine k = some v := by
  simp [Standalone.write, haccept, putWrite, KeyedWrites.Write.apply]

/-- A GET is answered with what the engine has. -/
theorem reply_get {server : Standalone} {k v : Bytes} (h : server.engine k = some v) :
    reply server (some ⟨.get, k, []⟩) = (server, Server.Response.okWithValue v) := by
  simp [reply, Standalone.executeCommand, h, getResponse]

/-- A clean SET that is answered with success is followed by a GET that finds the value. -/
theorem setThenGet_of_clean {server : Standalone} {key value : Bytes} (haccept : server.accepting = true)
    (hclean : Clean key value) : SetThenGet server key value := by
  intro chunks getChunks hchunks hgetChunks answer hanswer hsuccess
  have hset := newline_notMem_setCommand hclean.key_noNewline hclean.value_noNewline
  have hgetLine := newline_notMem_getCommand hclean.key_noNewline
  have hfits : Fits chunks := by
    by_contra hfits
    exact exchange_of_not_fits hfits hanswer
  have hgetFits : Fits getChunks := by
    have hle := (fits_oneLine_iff hset hchunks).mp hfits
    rw [formatCommand_set] at hle
    rw [fits_oneLine_iff hgetLine hgetChunks, formatCommand_get]
    simp [Bytes.ascii] at hle ⊢
    omega
  obtain ⟨hrequests, hserver, -⟩ := run_oneLine server hset hchunks hfits
  rw [parse_setLine, hclean.cut_trim, Option.map_some] at hrequests hserver
  have hvalue : trim value = value := strip_of_bare hclean.value_bare
  have hkey : trim (firstLine key) = key := by
    rw [firstLine_of_notMem hclean.key_noNewline]
    exact strip_of_bare hclean.key_bare
  dsimp only at hrequests hserver
  rw [hvalue] at hrequests hserver
  obtain ⟨hgetRequests, -, hgetExchange⟩ :=
    run_oneLine (run server chunks).server hgetLine hgetChunks hgetFits
  have hengine : (run server chunks).server.engine key = some value := by
    rw [hserver, reply_put]
    exact engine_put haccept key value
  rw [parse_getLine, hkey, if_neg hclean.key_ne_nil] at hgetRequests hgetExchange
  rw [reply_get hengine] at hgetExchange
  refine ⟨hrequests, hgetRequests, ?_⟩
  rw [hgetExchange]
  exact decodes_of_not_endsInSpace hclean.value_ne_nil hclean.value_noNewline hclean.value_end

/-- A SET that can succeed, and is answered as it should be, is clean. -/
theorem clean_of_setThenGet {server : Standalone} {key value : Bytes} (haccept : server.accepting = true)
    (hlong : ¬ TooLong key value) (hrejected : ¬ Rejected key value) (h : SetThenGet server key value) :
    Clean key value := by
  have hfits := fits_singles (Nat.not_le.mp hlong)
  have hchunks := chunks_singles (formatCommand (setCommand key value))
  have hgetChunks := chunks_singles (formatCommand (getCommand key))
  -- the PUT that the server finds on the first line
  obtain ⟨⟨k, v⟩, hcut⟩ : ∃ p, cut 32 (trim (firstLine (key ++ 32 :: value))) = some p := by
    rw [← Option.ne_none_iff_exists', ne_eq, cut_eq_none_iff]
    exact hrejected
  obtain ⟨rest, hdata, hline⟩ := exists_firstLine (newline_mem_formatCommand (setCommand key value))
  obtain ⟨hexchange, hhead⟩ := exchange_of_fits server hfits hline (hchunks.1.trans hdata)
  rw [parse_setLine, hcut, Option.map_some] at hexchange hhead
  rw [reply_put, haccept] at hexchange
  obtain ⟨hrequests, hgetRequests, message, hgetExchange⟩ :=
    h _ _ hchunks hgetChunks _ (hexchange.trans readResponse_stored) rfl
  rw [hrequests] at hhead
  obtain ⟨rfl, rfl⟩ : key = k ∧ value = trim v := by simpa using hhead
  obtain ⟨hkey, hblank, hkeyLine, hvalue, hvalueLine⟩ := of_cut_trim hcut (newline_notMem_firstLine _)
  have hset := newline_notMem_setCommand hkeyLine hvalueLine
  have hgetFits : Fits (singles (formatCommand (getCommand key))) := by
    by_contra hfits
    rw [(run_of_not_fits hfits).1] at hgetRequests
    exact absurd hgetRequests (by simp)
  obtain ⟨-, hserver, -⟩ := run_oneLine server hset hchunks hfits
  rw [parse_setLine, hcut, Option.map_some] at hserver
  generalize hrun : (run server (singles (formatCommand (setCommand key (trim v))))).server = server' at *
  have hengine : server'.engine key = some (trim v) := by
    rw [hserver, reply_put]
    exact engine_put haccept key (trim v)
  obtain ⟨hget, -, hread⟩ :=
    run_oneLine server' (newline_notMem_getCommand hkeyLine) hgetChunks hgetFits
  rw [hgetRequests] at hget
  rw [hgetExchange] at hread
  have hparse := List.singleton_inj.mp hget
  rw [← hparse, reply_get hengine] at hread
  have hdecodes : Decodes (trim v) := ⟨message, hread.symm⟩
  have hbare : trim key = key := by
    rw [parse_getLine, firstLine_of_notMem hkeyLine] at hparse
    split_ifs at hparse with hnil
    simpa using hparse.symm
  refine ⟨hkey, hblank, hkeyLine, strip_eq_self_iff.mp hbare, hvalue, hvalueLine, bare_strip v, ?_⟩
  intro hend
  exact not_decodes hvalue (Or.inr hend) hdecodes

/-- **When a SET is kept.** A SET that is answered with success is of exactly this key and value, and a GET that follows
    finds the value, if and only if the SET cannot succeed, or key and value are clean. -/
theorem setThenGet_iff (server : Standalone) (key value : Bytes) : SetThenGet server key value ↔
    server.accepting = false ∨ TooLong key value ∨ Rejected key value ∨ Clean key value := by
  constructor
  · intro h
    by_cases haccept : server.accepting = false
    · exact Or.inl haccept
    by_cases hlong : TooLong key value
    · exact Or.inr (Or.inl hlong)
    by_cases hrejected : Rejected key value
    · exact Or.inr (Or.inr (Or.inl hrejected))
    · exact Or.inr (Or.inr (Or.inr (clean_of_setThenGet (by simpa using haccept) hlong hrejected h)))
  · intro h
    by_cases hfail : server.accepting = false ∨ TooLong key value ∨ Rejected key value
    · intro chunks getChunks hchunks _ answer hanswer hsuccess
      rw [not_success hfail hchunks hanswer] at hsuccess
      exact absurd hsuccess (by simp)
    · obtain ⟨haccept, hlong, hrejected⟩ : ¬ server.accepting = false ∧ ¬ TooLong key value ∧ ¬ Rejected key value := by
        simpa [not_or] using hfail
      exact setThenGet_of_clean (by simpa using haccept)
        (((h.resolve_left haccept).resolve_left hlong).resolve_left hrejected)

/-- The help of the CLI has a key with blanks in it. A SET of it is answered with success, and stores something else under
    the first word of the key. -/
theorem blanksInKey_misread :
    let server : Standalone := ⟨0, 0, true, fun _ => none⟩
    let key := Bytes.ascii "my key with spaces"
    let value := Bytes.ascii "v"
    let set := run server [formatCommand (setCommand key value)]
    exchange set.output = .ok ⟨true, Bytes.ascii "STORED", []⟩ ∧
      set.requests = [some ⟨.put, Bytes.ascii "my", Bytes.ascii "key with spaces v"⟩] ∧
      exchange (run set.server [formatCommand (getCommand key)]).output = .ok ⟨false, Bytes.ascii "NOT_FOUND", []⟩ ∧
      ¬ SetThenGet server key value := by
  intro server key value set
  have hanswer : exchange set.output = .ok ⟨true, Bytes.ascii "STORED", []⟩ := by decide
  have hrequests : set.requests = [some ⟨.put, Bytes.ascii "my", Bytes.ascii "key with spaces v"⟩] := by decide
  refine ⟨hanswer, hrequests, by decide, ?_⟩
  intro h
  have hkept := (h [formatCommand (setCommand key value)] [formatCommand (getCommand key)] ⟨by simp, by decide⟩
    ⟨by simp, by decide⟩ _ hanswer rfl).1
  rw [hrequests] at hkept
  exact absurd hkept (by decide)

end KvStorageEngine.Cli
