import KvStorageEngine.Server.Startup

/-!
# `Server.Correctness.StartupArguments` — "config file first, then CLI args override"

A server starts exactly on a sequence of options, each with its value, whose numbers can be read. Its configuration then
has, field by field, the last value given for it, and what the file says where none is given (`main_eq_server_iff`).

The file is the one that the last `-f` names (`configFile_words`). The first pass does not know the other options,
though: it goes through their values as well, and a value that reads `-f` makes it take the argument behind it.
-/

namespace KvStorageEngine.Server.Startup

open TextStream

/-! ## Options with their values

The command line is a list of pairs here, and the last value of an option is the one that counts. -/

/-- Options with their values, as arguments. -/
def words (options : List (Bytes × Bytes)) : List Bytes := options.flatMap fun p => [p.1, p.2]

theorem words_cons (p : Bytes × Bytes) (options : List (Bytes × Bytes)) :
    words (p :: options) = p.1 :: p.2 :: words options := rfl

/-- The last value given for a setting. -/
def lastOf (setting : Setting) (options : List (Bytes × Bytes)) : Option Bytes :=
  ((options.filter fun p => Setting.ofArg p.1 = some setting).getLast?).map (·.2)

theorem lastOf_cons (setting : Setting) (p : Bytes × Bytes) (options : List (Bytes × Bytes)) :
    lastOf setting (p :: options) =
      (lastOf setting options).or (if Setting.ofArg p.1 = some setting then some p.2 else none) := by
  unfold lastOf
  by_cases h : Setting.ofArg p.1 = some setting
  · rw [List.filter_cons_of_pos (by simpa using h), List.getLast?_cons, if_pos h]
    cases (options.filter fun p => Setting.ofArg p.1 = some setting).getLast? <;> rfl
  · rw [List.filter_cons_of_neg (by simpa using h), if_neg h, Option.or_none]

/-- The setting takes a number. -/
def Setting.IsNumber : Setting → Prop
  | .port | .threads | .cache | .nodeId => True
  | .config | .host | .data | .role => False

/-- The options are known, and their numbers can be read. -/
def Readable (options : List (Bytes × Bytes)) : Prop :=
  ∀ p ∈ options, ∃ setting, Setting.ofArg p.1 = some setting ∧ (setting.IsNumber → (stoi p.2).isSome)

/-- The number given last for a setting, as the type of its field has it. -/
def numberOf {α : Type} (setting : Setting) (options : List (Bytes × Bytes)) (cast : Int → α) (default : α) : α :=
  (((lastOf setting options).bind stoi).map cast).getD default

/-- The configuration with the last value of each setting. -/
def overridden (options : List (Bytes × Bytes)) (base : ServerConfig) : ServerConfig :=
  { base with
    port := numberOf .port options (ConfigParser.toUnsigned 16) base.port
    host := (lastOf .host options).getD base.host
    numThreads := numberOf .threads options Setting.toThreads base.numThreads
    cacheSize := numberOf .cache options (ConfigParser.toUnsigned 64) base.cacheSize
    dataDir := (lastOf .data options).getD base.dataDir
    nodeId := numberOf .nodeId options (ConfigParser.toUnsigned 32) base.nodeId
    role := (lastOf .role options).getD base.role }

theorem lastOf_singleton {p : Bytes × Bytes} {given : Setting} (h : Setting.ofArg p.1 = some given)
    (setting : Setting) : lastOf setting [p] = if given = setting then some p.2 else none := by
  rw [lastOf_cons, h]
  simp [lastOf]

theorem getD_lastOf_cons (setting : Setting) (p : Bytes × Bytes) (options : List (Bytes × Bytes)) (default : Bytes) :
    (lastOf setting (p :: options)).getD default =
      (lastOf setting options).getD ((lastOf setting [p]).getD default) := by
  rw [lastOf_cons, lastOf_cons setting p []]
  cases lastOf setting options <;> rfl

/-- The number given last for a setting can be read. -/
theorem Readable.stoi_lastOf {options : List (Bytes × Bytes)} (h : Readable options) {setting : Setting}
    (hnumber : setting.IsNumber) {value : Bytes} (hvalue : lastOf setting options = some value) :
    (stoi value).isSome := by
  obtain ⟨p, hp, rfl⟩ := Option.map_eq_some_iff.mp hvalue
  obtain ⟨hmem, hsetting⟩ := List.mem_filter.mp (List.mem_of_getLast? hp)
  obtain ⟨given, hgiven, hread⟩ := h p hmem
  rw [decide_eq_true_eq, hgiven, Option.some.injEq] at hsetting
  subst hsetting
  exact hread hnumber

theorem numberOf_cons {α : Type} (setting : Setting) (hnumber : setting.IsNumber) (p : Bytes × Bytes)
    {options : List (Bytes × Bytes)} (h : Readable options) (cast : Int → α) (default : α) :
    numberOf setting (p :: options) cast default =
      numberOf setting options cast (numberOf setting [p] cast default) := by
  unfold numberOf
  rw [lastOf_cons]
  cases hvalue : lastOf setting options with
  | none =>
      rw [lastOf_cons]
      rfl
  | some value =>
      obtain ⟨i, hi⟩ := Option.isSome_iff_exists.mp (h.stoi_lastOf hnumber hvalue)
      show ((stoi value).map cast).getD default = ((stoi value).map cast).getD _
      rw [hi]
      rfl

theorem numberOf_self {α : Type} {setting : Setting} {p : Bytes × Bytes} (h : Setting.ofArg p.1 = some setting)
    {i : Int} (hi : stoi p.2 = some i) (cast : Int → α) (default : α) : numberOf setting [p] cast default = cast i := by
  unfold numberOf
  rw [lastOf_singleton h, if_pos rfl, Option.bind_some, hi]
  rfl

theorem numberOf_other {α : Type} {setting given : Setting} {p : Bytes × Bytes} (h : Setting.ofArg p.1 = some given)
    (hne : given ≠ setting) (cast : Int → α) (default : α) : numberOf setting [p] cast default = default := by
  unfold numberOf
  rw [lastOf_singleton h, if_neg hne]
  rfl

/-- The first option overrides first. -/
theorem overridden_cons (p : Bytes × Bytes) {options : List (Bytes × Bytes)} (h : Readable options)
    (base : ServerConfig) : overridden (p :: options) base = overridden options (overridden [p] base) := by
  unfold overridden
  simp only [getD_lastOf_cons _ p options, numberOf_cons .port trivial p h,
    numberOf_cons .threads trivial p h, numberOf_cons .cache trivial p h,
    numberOf_cons .nodeId trivial p h]

/-! ## The second pass

The second pass takes option and value together, and stops at the first thing that it does not know or cannot read. -/

/-- One option. -/
def assignOption (config : ServerConfig) (p : Bytes × Bytes) : Option ServerConfig :=
  (Setting.ofArg p.1).bind fun setting => setting.assign p.2 config

/-- The second pass goes through options with values, and takes one after the other. -/
theorem secondPass_eq_server_iff {args : List Bytes} {base config : ServerConfig} :
    secondPass args base = .server config ↔ ∃ options, args = words options ∧
      Run.exec assignOption base options = some config := by
  constructor
  · fun_induction secondPass args base with
    | case1 base =>
        rintro ⟨⟩
        exact ⟨[], rfl, rfl⟩
    | case2 rest base => exact nofun
    | case3 arg base harg setting value rest hsetting hassign => exact nofun
    | case4 arg base harg setting value rest hsetting base' hassign ih =>
        intro h
        obtain ⟨options, rfl, hexec⟩ := ih h
        refine ⟨(arg, value) :: options, rfl, ?_⟩
        rw [Run.exec_cons, assignOption, hsetting, Option.bind_some, hassign]
        exact hexec
    | case5 arg rest base harg hno => exact nofun
  · rintro ⟨options, rfl, hexec⟩
    induction options generalizing base with
    | nil =>
        cases hexec
        rfl
    | cons p options ih =>
        rw [Run.exec_cons] at hexec
        obtain ⟨base', hassign, hexec⟩ := Option.bind_eq_some_iff.mp hexec
        obtain ⟨setting, hsetting, hassign⟩ := Option.bind_eq_some_iff.mp hassign
        have hhelp : p.1 ≠ Bytes.ascii "--help" := by
          intro heq
          have hnone : Setting.ofArg (Bytes.ascii "--help") = none := by decide
          rw [heq, hnone] at hsetting
          exact nomatch hsetting
        rw [words_cons]
        unfold secondPass
        rw [if_neg hhelp, hsetting]
        dsimp only
        rw [hassign]
        exact ih hexec

/-- A value that can be read takes the place of what was there. -/
theorem assign_of_readable {p : Bytes × Bytes} {setting : Setting} (hsetting : Setting.ofArg p.1 = some setting)
    (hread : setting.IsNumber → (stoi p.2).isSome) (base : ServerConfig) :
    setting.assign p.2 base = some (overridden [p] base) := by
  have hlast := lastOf_singleton hsetting
  cases setting with
  | config | host | data | role =>
      unfold overridden
      simp only [hlast, numberOf_other hsetting, ne_eq, reduceCtorEq, not_false_eq_true, if_true, if_false]
      rfl
  | port | threads | cache | nodeId =>
      obtain ⟨i, hi⟩ := Option.isSome_iff_exists.mp (hread trivial)
      unfold overridden Setting.assign
      simp only [hlast, hi, numberOf_self hsetting hi, numberOf_other hsetting, ne_eq, reduceCtorEq, not_false_eq_true,
        if_false, Option.map_some, Option.getD_none]

theorem readable_of_assign {setting : Setting} {value : Bytes} {base config : ServerConfig}
    (h : setting.assign value base = some config) : setting.IsNumber → (stoi value).isSome := by
  cases setting with
  | config | host | data | role => exact nofun
  | port | threads | cache | nodeId =>
      intro _
      obtain ⟨i, hi, -⟩ := Option.map_eq_some_iff.mp h
      exact Option.isSome_of_eq_some hi

/-- An option is assigned exactly if it is known and its number can be read. -/
theorem assignOption_eq_some_iff {p : Bytes × Bytes} {base config : ServerConfig} :
    assignOption base p = some config ↔ (∃ setting, Setting.ofArg p.1 = some setting ∧
      (setting.IsNumber → (stoi p.2).isSome)) ∧ config = overridden [p] base := by
  unfold assignOption
  rw [Option.bind_eq_some_iff]
  constructor
  · rintro ⟨setting, hsetting, hassign⟩
    have hread := readable_of_assign hassign
    rw [assign_of_readable hsetting hread] at hassign
    exact ⟨⟨setting, hsetting, hread⟩, (Option.some.inj hassign).symm⟩
  · rintro ⟨⟨setting, hsetting, hread⟩, rfl⟩
    exact ⟨setting, hsetting, assign_of_readable hsetting hread base⟩

/-- The options one after the other. -/
theorem exec_assignOption {options : List (Bytes × Bytes)} {base config : ServerConfig} :
    Run.exec assignOption base options = some config ↔ Readable options ∧ config = overridden options base := by
  induction options generalizing base with
  | nil =>
      rw [Run.exec_nil, Option.some.injEq]
      constructor
      · rintro rfl
        exact ⟨nofun, rfl⟩
      · rintro ⟨-, rfl⟩
        rfl
  | cons p options ih =>
      rw [Run.exec_cons, Option.bind_eq_some_iff]
      constructor
      · rintro ⟨base', hassign, hexec⟩
        obtain ⟨hp, rfl⟩ := assignOption_eq_some_iff.mp hassign
        obtain ⟨hoptions, rfl⟩ := ih.mp hexec
        exact ⟨List.forall_mem_cons.mpr ⟨hp, hoptions⟩, (overridden_cons p hoptions base).symm⟩
      · rintro ⟨hread, rfl⟩
        obtain ⟨hp, hoptions⟩ := List.forall_mem_cons.mp hread
        exact ⟨_, assignOption_eq_some_iff.mpr ⟨hp, rfl⟩, ih.mpr ⟨hoptions, overridden_cons p hoptions base⟩⟩

/-- **A server starts exactly on options with their values**, once the file has been read and where every number can be
    read; then each setting has the last value given for it, and the file's where none is given. -/
theorem main_eq_server_iff {files : FileSystem} {args : List Bytes} {config : ServerConfig} :
    main files args = .server config ↔ ∃ options base, args = words options ∧ Readable options ∧
      fileConfig files (configFile files args) = some base ∧ config = overridden options base := by
  unfold main
  cases hfile : fileConfig files (configFile files args) with
  | none => simp
  | some base =>
      simp only [secondPass_eq_server_iff, exec_assignOption, Option.some.injEq]
      constructor
      · rintro ⟨options, hargs, hread, rfl⟩
        exact ⟨options, base, hargs, hread, rfl, rfl⟩
      · rintro ⟨options, -, hargs, hread, rfl, rfl⟩
        exact ⟨options, hargs, hread, rfl⟩

/-! ## The first pass

The first pass looks at every word for `-f`, the values of the other options included. -/

/-- The first pass finds the last `-f`, unless a value looks like one. -/
theorem firstPass_words {options : List (Bytes × Bytes)} (hvalues : ∀ p ∈ options, Setting.ofArg p.2 ≠ some .config)
    (named : Bytes) : firstPass (words options) named = (lastOf .config options).getD named := by
  induction options generalizing named with
  | nil => rfl
  | cons p options ih =>
      obtain ⟨hp, hoptions⟩ := List.forall_mem_cons.mp hvalues
      rw [words_cons, firstPass, getD_lastOf_cons, lastOf_cons]
      by_cases hconfig : Setting.ofArg p.1 = some .config
      · rw [if_pos hconfig, if_pos hconfig, ih hoptions]
        rfl
      · rw [if_neg hconfig, if_neg hconfig]
        have hskip : firstPass (p.2 :: words options) named = firstPass (words options) named := by
          cases hwords : words options with
          | nil => rfl
          | cons arg rest => rw [firstPass, if_neg hp]
        rw [hskip, ih hoptions]
        rfl

/-- **The two passes agree on the configuration file** where no value reads like the option that names it: it is the
    file that the last `-f` names, and without one the first of the usual places that there is. -/
theorem configFile_words {files : FileSystem} {options : List (Bytes × Bytes)}
    (hvalues : ∀ p ∈ options, Setting.ofArg p.2 ≠ some .config) :
    configFile files (words options) = chosen files ((lastOf .config options).getD []) := by
  unfold configFile
  rw [firstPass_words hvalues]

/-- Two files, two ports, and a directory. -/
def repeatedOptions : List (Bytes × Bytes) :=
  [(Bytes.ascii "-f", Bytes.ascii "a.yaml"), (Bytes.ascii "-p", Bytes.ascii "9001"),
    (Bytes.ascii "--config", Bytes.ascii "b.yaml"), (Bytes.ascii "--port", Bytes.ascii "9002"),
    (Bytes.ascii "-d", Bytes.ascii "store")]

theorem configFile_words_repeatedOptions :
    configFile (fun _ => none) (words repeatedOptions) =
        chosen (fun _ => none) ((lastOf .config repeatedOptions).getD []) ∧
      lastOf .config repeatedOptions = some (Bytes.ascii "b.yaml") :=
  ⟨configFile_words (by decide), by decide⟩

/-- The value of `-d` is not an option, but the first pass takes it for one. -/
example : configFile (fun _ => none) [Bytes.ascii "-d", Bytes.ascii "-f", Bytes.ascii "-p", Bytes.ascii "9001"] =
    Bytes.ascii "-p" := by decide

end KvStorageEngine.Server.Startup
