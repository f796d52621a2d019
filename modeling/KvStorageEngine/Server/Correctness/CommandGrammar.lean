import KvStorageEngine.Server.ConnectionHandler

/-!
# `Server.Correctness.CommandGrammar` — the documented commands

The README and the client list the commands that a server takes: `PUT`, `GET`, `DELETE`, `PING`, `STATUS` and `QUIT`;
`SET`, `DEL` and `EXIT` are other names for three of them. `Documented` says which request a line stands for, in terms
of how the line is put together.

`parse` makes just this of a line (`parse_eq_some_iff`), but for the table of command words: `parseCommand` does not
know `STATUS`, though the type is there and `executeCommand` answers it (`parseCommand_eq_iff`).
-/

namespace KvStorageEngine.Server

open Cutting ProtocolParser

/-! ## A. The grammar

The grammar is written down from the README and the client's help, as relations on byte strings that say how a line is
put together. -/

/-- The command words. -/
def documentedCommands : List (Bytes × CommandType) :=
  [(Bytes.ascii "PUT", .put), (Bytes.ascii "SET", .put), (Bytes.ascii "GET", .get), (Bytes.ascii "DELETE", .delete),
    (Bytes.ascii "DEL", .delete), (Bytes.ascii "PING", .ping), (Bytes.ascii "STATUS", .status),
    (Bytes.ascii "QUIT", .quit), (Bytes.ascii "EXIT", .quit)]

/-- The command that a word stands for, in upper case or lower. -/
def documentedCommand (word : Bytes) : CommandType := (documentedCommands.lookup (word.map toUpper)).getD .unknown

/-- `t` is what is left of a text without the blanks, tabs and line ends around it. -/
def Trims (text t : Bytes) : Prop :=
  ∃ lead trail, text = lead ++ t ++ trail ∧ (∀ b ∈ lead, isTrimmed b = true) ∧ (∀ b ∈ trail, isTrimmed b = true) ∧
    Bare isTrimmed t

/-- The command word of a line, up to its first blank, and the rest. -/
inductive Splits (line : Bytes) : Bytes → Bytes → Prop where
  | alone {word : Bytes} (htrims : Trims line word) (hne : word ≠ []) (hblank : (32 : UInt8) ∉ word) :
      Splits line word []
  | followed {word behind rest : Bytes} (htrims : Trims line (word ++ 32 :: behind)) (hblank : (32 : UInt8) ∉ word)
      (hrest : Trims behind rest) : Splits line word rest

/-- The request that a command and the rest of its line make. -/
inductive Reads (type : CommandType) (rest : Bytes) : Request → Prop where
  | put {key behind value : Bytes} (htype : type = .put) (hrest : rest = key ++ 32 :: behind)
      (hblank : (32 : UInt8) ∉ key) (htrims : Trims behind value) (hkey : key ≠ []) (hvalue : value ≠ []) :
      Reads type rest ⟨type, key, value⟩
  | keyed (htype : type = .get ∨ type = .delete) (hrest : rest ≠ []) : Reads type rest ⟨type, rest, []⟩
  | plain (htype : type = .ping ∨ type = .status ∨ type = .quit ∨ type = .unknown) : Reads type rest ⟨type, [], []⟩

/-- The request that a line stands for, with `command` to name the words. -/
def StandsFor (command : Bytes → CommandType) (line : Bytes) (req : Request) : Prop :=
  ∃ word rest, Splits line word rest ∧ Reads (command word) rest req

/-- The documented one. -/
def Documented (line : Bytes) (req : Request) : Prop := StandsFor documentedCommand line req

/-! ## B. How a line is cut up -/

theorem trims_iff {text t : Bytes} : Trims text t ↔ trim text = t := strip_eq_iff.symm

/-- A line is cut up as `splitCommand` cuts it. -/
theorem splits_iff {line word rest : Bytes} :
    Splits line word rest ↔ trim line ≠ [] ∧ splitCommand (trim line) = (word, rest) := by
  constructor
  · intro h
    cases h with
    | alone htrims hne hblank =>
        rw [trims_iff.mp htrims, splitCommand, cut_eq_none_iff.mpr hblank]
        exact ⟨hne, rfl⟩
    | followed htrims hblank hrest =>
        rw [trims_iff.mp htrims, splitCommand, cut_append hblank]
        exact ⟨by simp, congrArg _ (trims_iff.mp hrest)⟩
  · rintro ⟨hne, hsplit⟩
    unfold splitCommand at hsplit
    cases hcut : cut 32 (trim line) with
    | none =>
        rw [hcut] at hsplit
        obtain ⟨rfl, rfl⟩ := Prod.mk.inj hsplit
        exact .alone (trims_iff.mpr rfl) hne (cut_eq_none_iff.mp hcut)
    | some p =>
        obtain ⟨cmdStr, behind⟩ := p
        rw [hcut] at hsplit
        obtain ⟨rfl, rfl⟩ := Prod.mk.inj hsplit
        obtain ⟨hline, hblank⟩ := cut_eq_some_iff.mp hcut
        exact .followed (trims_iff.mpr hline) hblank (trims_iff.mpr rfl)

/-- A line is cut up in one way. -/
theorem Splits.unique {line word rest word' rest' : Bytes} (h : Splits line word rest) (h' : Splits line word' rest') :
    word = word' ∧ rest = rest' :=
  Prod.mk.inj ((splits_iff.mp h).2.symm.trans (splits_iff.mp h').2)

/-- What a line stands for is decided by its word and its rest. -/
theorem standsFor_iff {command : Bytes → CommandType} {line word rest : Bytes} (h : Splits line word rest)
    {req : Request} : StandsFor command line req ↔ Reads (command word) rest req := by
  constructor
  · rintro ⟨word', rest', h', hreads⟩
    obtain ⟨rfl, rfl⟩ := h.unique h'
    exact hreads
  · exact fun hreads => ⟨word, rest, h, hreads⟩

/-- An empty line is no command. -/
theorem not_standsFor_of_trim {command : Bytes → CommandType} {line : Bytes} (h : trim line = []) (req : Request) :
    ¬ StandsFor command line req := by
  rintro ⟨word, rest, hsplit, -⟩
  exact (splits_iff.mp hsplit).1 h

/-! ## C. What `parse` makes of it

Case by case over the commands, since a PUT takes the rest apart, a GET and a DELETE take it as it is, and the others
ignore it. -/

variable {type : CommandType} {rest : Bytes} {req : Request}

/-- A PUT has a key and a value. -/
theorem reads_put_iff : Reads .put rest req ↔
    ∃ key behind, cut 32 rest = some (key, behind) ∧ (key ≠ [] ∧ trim behind ≠ []) ∧
      req = ⟨.put, key, trim behind⟩ := by
  constructor
  · intro h
    cases h with
    | put htype hrest hblank htrims hkey hvalue =>
        obtain rfl := trims_iff.mp htrims
        exact ⟨_, _, cut_eq_some_iff.mpr ⟨hrest, hblank⟩, ⟨hkey, hvalue⟩, rfl⟩
    | keyed htype hrest => exact absurd htype (by simp)
    | plain htype => exact absurd htype (by simp)
  · rintro ⟨key, behind, hcut, ⟨hkey, hvalue⟩, rfl⟩
    obtain ⟨hrest, hblank⟩ := cut_eq_some_iff.mp hcut
    exact .put rfl hrest hblank (trims_iff.mpr rfl) hkey hvalue

/-- A GET or a DELETE has a key. -/
theorem reads_keyed_iff (htype : type = .get ∨ type = .delete) :
    Reads type rest req ↔ rest ≠ [] ∧ req = ⟨type, rest, []⟩ := by
  constructor
  · intro h
    cases h with
    | put hput => exact absurd htype (by simp [hput])
    | keyed _ hrest => exact ⟨hrest, rfl⟩
    | plain hplain => rcases htype with rfl | rfl <;> exact absurd hplain (by simp)
  · rintro ⟨hrest, rfl⟩
    exact .keyed htype hrest

/-- The others have neither. -/
theorem reads_plain_iff (htype : type = .ping ∨ type = .status ∨ type = .quit ∨ type = .unknown) :
    Reads type rest req ↔ req = ⟨type, [], []⟩ := by
  constructor
  · intro h
    cases h with
    | put hput => exact absurd htype (by simp [hput])
    | keyed hkeyed => rcases hkeyed with rfl | rfl <;> exact absurd htype (by simp)
    | plain => rfl
  · rintro rfl
    exact .plain htype

/-- **What `parse` accepts**, by its own table of command words. -/
theorem parse_eq_some_iff {line : Bytes} {req : Request} : parse line = some req ↔ StandsFor parseCommand line req := by
  by_cases hnil : trim line = []
  · have hnone : parse line = none := if_pos hnil
    rw [hnone]
    exact iff_of_false (by simp) (not_standsFor_of_trim hnil req)
  · obtain ⟨word, rest, hsplit⟩ : ∃ word rest, splitCommand (trim line) = (word, rest) := ⟨_, _, rfl⟩
    rw [standsFor_iff (splits_iff.mpr ⟨hnil, hsplit⟩)]
    unfold parse
    dsimp only
    rw [if_neg hnil, hsplit]
    dsimp only
    generalize parseCommand word = type
    cases type with
    | put =>
        rw [reads_put_iff]
        cases hcut : cut 32 rest with
        | none => simp
        | some p =>
            obtain ⟨key, behind⟩ := p
            by_cases hempty : key = [] ∨ trim behind = []
            · have hempty' : ¬ (key ≠ [] ∧ trim behind ≠ []) := by tauto
              simp [hempty, hempty']
            · have hboth : key ≠ [] ∧ trim behind ≠ [] := by tauto
              dsimp only
              rw [if_neg hempty]
              constructor
              · intro h
                exact ⟨key, behind, rfl, hboth, (Option.some.inj h).symm⟩
              · rintro ⟨key', behind', hsame, -, rfl⟩
                obtain ⟨rfl, rfl⟩ := Prod.mk.inj (Option.some.inj hsame)
                rfl
    | get =>
        rw [reads_keyed_iff (Or.inl rfl)]
        split_ifs with hrest <;> simp [hrest, eq_comm]
    | delete =>
        rw [reads_keyed_iff (Or.inr rfl)]
        split_ifs with hrest <;> simp [hrest, eq_comm]
    | ping | quit | status | unknown =>
        rw [reads_plain_iff (by simp)]
        simp [eq_comm]

/-! ## D. The command words -/

/-- **The table of `parseCommand`** is the documented one, without `STATUS`. -/
theorem parseCommand_eq_iff (word : Bytes) :
    parseCommand word = documentedCommand word ↔ word.map toUpper ≠ Bytes.ascii "STATUS" := by
  unfold parseCommand documentedCommand
  generalize word.map toUpper = upper
  by_cases hmem : upper ∈ documentedCommands.map Prod.fst
  · simp only [documentedCommands, List.map_cons, List.map_nil, List.mem_cons, List.not_mem_nil, or_false] at hmem
    rcases hmem with rfl | rfl | rfl | rfl | rfl | rfl | rfl | rfl | rfl <;> decide
  · have hlookup : documentedCommands.lookup upper = none := by
      rw [List.lookup_eq_none_iff]
      intro p hp
      have hne : upper ≠ p.1 := fun he => hmem (he ▸ List.mem_map_of_mem hp)
      simpa using hne
    rw [hlookup]
    simp only [documentedCommands, List.map_cons, List.map_nil, List.mem_cons, List.not_mem_nil, or_false,
      not_or] at hmem
    simp [hmem]

/-- The command word of a line is `STATUS`, in upper case or lower. -/
def IsStatus (line : Bytes) : Prop := ∃ word rest, Splits line word rest ∧ word.map toUpper = Bytes.ascii "STATUS"

/-- **The documented grammar** is what `parse` accepts on every line but those with the command word `STATUS`. -/
theorem documented_iff (line : Bytes) : (∀ req, parse line = some req ↔ Documented line req) ↔ ¬ IsStatus line := by
  by_cases hnil : trim line = []
  · -- neither makes anything of it
    refine iff_of_true ?_ ?_
    · intro req
      rw [parse_eq_some_iff]
      exact iff_of_false (not_standsFor_of_trim hnil req) (not_standsFor_of_trim hnil req)
    · rintro ⟨word, rest, hsplit, -⟩
      exact (splits_iff.mp hsplit).1 hnil
  · obtain ⟨word, rest, hsplit⟩ : ∃ word rest, splitCommand (trim line) = (word, rest) := ⟨_, _, rfl⟩
    have hsplits : Splits line word rest := splits_iff.mpr ⟨hnil, hsplit⟩
    have hstatus : IsStatus line ↔ word.map toUpper = Bytes.ascii "STATUS" := by
      constructor
      · rintro ⟨word', rest', h', hword⟩
        rw [(hsplits.unique h').1]
        exact hword
      · exact fun hword => ⟨word, rest, hsplits, hword⟩
    rw [hstatus, ← Ne, ← parseCommand_eq_iff]
    simp only [parse_eq_some_iff, Documented, standsFor_iff hsplits]
    constructor
    · intro h
      by_contra hne
      have hupper : word.map toUpper = Bytes.ascii "STATUS" :=
        not_ne_iff.mp fun h => hne ((parseCommand_eq_iff word).mpr h)
      have hunknown : parseCommand word = .unknown := by
        unfold parseCommand
        rw [hupper]
        decide
      have hdocumented : documentedCommand word = .status := by
        unfold documentedCommand
        rw [hupper]
        decide
      have hreads := (h ⟨.unknown, [], []⟩).mp (by rw [hunknown]; exact .plain (by simp))
      rw [hdocumented, reads_plain_iff (by simp)] at hreads
      exact absurd hreads (by decide)
    · intro hsame req
      rw [hsame]

/-- The line that the client sends to ask for the status. -/
theorem not_documented_status :
    ¬ (∀ req, parse (Bytes.ascii "STATUS") = some req ↔ Documented (Bytes.ascii "STATUS") req) := by
  intro h
  have hparse : parse (Bytes.ascii "STATUS") = some ⟨.unknown, [], []⟩ := by decide
  have hsplits : Splits (Bytes.ascii "STATUS") (Bytes.ascii "STATUS") [] := splits_iff.mpr (by decide)
  have hreads := (standsFor_iff hsplits).mp ((h _).mp hparse)
  have hdocumented : documentedCommand (Bytes.ascii "STATUS") = .status := by decide
  rw [hdocumented, reads_plain_iff (by simp)] at hreads
  exact absurd hreads (by decide)

end KvStorageEngine.Server
