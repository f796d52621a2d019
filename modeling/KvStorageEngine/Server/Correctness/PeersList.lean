import KvStorageEngine.Server.ConfigParser

/-!
# `Server.Correctness.PeersList` — the peers of a configuration file

A configuration file names the peers of a node in a list: every item has a line with a dash and a line that is indented
further, one for the host and one for the port. `PeersFile` says what such a file looks like, with comments, blank lines
and other sections around the list.

In the list, `load` keeps the host of an item until the port comes (`exec_item`). A port that comes first is kept too,
but the line with the host sets it back to zero. So the list is read back just when every item names its host first
(`load_peers_iff`). The places where `load` saves a pending peer that has both of its fields are never used, since no
line leaves one behind (`handleLine_not_complete`).
-/

namespace KvStorageEngine.Server

open Cutting TextStream ConfigParser ProtocolParser Run

/-! ## A. The file

The files are described from the outside, as the lines of their sections, with an item of the list as two lines and
what may stand between them. -/

/-- A blank line or a comment. -/
def Skipped (line : Bytes) : Prop := ConfigParser.trim line = [] ∨ (ConfigParser.trim line).head? = some 35

instance (line : Bytes) : Decidable (Skipped line) :=
  inferInstanceAs (Decidable (ConfigParser.trim line = [] ∨ (ConfigParser.trim line).head? = some 35))

/-- The line opens a section with this name. -/
def Opens (name line : Bytes) : Prop := ∃ l, ConfigLine.ofLine line = some l ∧ l.OpensSection ∧ l.key = name

/-- The values that are numbers. -/
def numberKeys : List Bytes :=
  ["server.port", "server.threads", "storage.cache_size", "node.id", "replication.port"].map Bytes.ascii

/-- Lines of other sections, where the first ones still belong to `currentSection`: a value that is to be a number is
    one. -/
inductive Sections : Bytes → List Bytes → Prop where
  | nil {currentSection : Bytes} : Sections currentSection []
  | skipped {currentSection line : Bytes} {lines : List Bytes} (hline : ConfigLine.ofLine line = none)
      (hrest : Sections currentSection lines) : Sections currentSection (line :: lines)
  | header {currentSection line name : Bytes} {lines : List Bytes} (hopens : Opens name line)
      (hname : name ≠ Bytes.ascii "peers") (hrest : Sections name lines) : Sections currentSection (line :: lines)
  | field {currentSection line : Bytes} {l : ConfigLine} {lines : List Bytes}
      (hline : ConfigLine.ofLine line = some l) (hopens : ¬ l.OpensSection)
      (hnumber : State.fullKey currentSection l.key ∈ numberKeys → (stoi l.value).isSome = true)
      (hrest : Sections currentSection lines) : Sections currentSection (line :: lines)

/-- An item of the list of peers, as it is written. -/
structure PeerItem where
  host : Bytes
  port : Nat
  /-- Whether the host is in quotes. -/
  quoted : Bool
  /-- Whether the host is on the first of the two lines. -/
  hostFirst : Bool
  /-- Comments and blank lines between the two lines, and behind them. -/
  between : List Bytes
  behind : List Bytes
  host_ne_nil : host ≠ []
  host_plain : ∀ b ∈ host, isTrimmed b = false ∧ b ≠ 34
  port_pos : 1 ≤ port
  port_le : port ≤ 65535
  between_skipped : ∀ line ∈ between, Skipped line
  behind_skipped : ∀ line ∈ behind, Skipped line

namespace PeerItem

def peer (item : PeerItem) : Bytes × Nat := (item.host, item.port)

def hostField (item : PeerItem) : Bytes :=
  Bytes.ascii "host" ++ Bytes.ascii ": " ++ if item.quoted then 34 :: item.host ++ [34] else item.host

def portField (item : PeerItem) : Bytes := Bytes.ascii "port" ++ Bytes.ascii ": " ++ Bytes.toDecimal item.port

/-- The lines of the item, indented as in the files of the servers. -/
def lines (item : PeerItem) : List Bytes :=
  let (first, second) := if item.hostFirst then (item.hostField, item.portField) else (item.portField, item.hostField)
  (Bytes.ascii "  - " ++ first) :: item.between ++ (Bytes.ascii "    " ++ second) :: item.behind

end PeerItem

/-- A file with a list of peers. -/
structure PeersFile where
  before : List Bytes
  header : Bytes
  /-- Comments and blank lines in front of the list. -/
  comments : List Bytes
  items : List PeerItem
  after : List Bytes
  sections_before : Sections [] before
  opens_peers : Opens (Bytes.ascii "peers") header
  comments_skipped : ∀ line ∈ comments, Skipped line
  /-- Behind the list, a section starts or the file ends. -/
  opens_after : ∀ line, after.head? = some line → ∃ name, Opens name line
  sections_after : Sections [] after

def PeersFile.lines (file : PeersFile) : List Bytes :=
  file.before ++ file.header :: file.comments ++ file.items.flatMap PeerItem.lines ++ file.after

/-! ## B. Written lines

What `ConfigLine.ofLine` reads off a line that was written as the description says. -/

theorem trim_indented (lead : Bytes) {text : Bytes} (hlead : ∀ b ∈ lead, isTrimmed b = true)
    (hbare : Bare isTrimmed text) : ConfigParser.trim (lead ++ text) = text :=
  strip_eq_iff.mpr ⟨lead, [], by simp, hlead, by simp, hbare⟩

/-- The name of a field of a peer. -/
def IsFieldName (name : Bytes) : Prop := name = Bytes.ascii "host" ∨ name = Bytes.ascii "port"

section field

variable {name value : Bytes}

/-- A field is cut at its colon. -/
theorem splitField_field (hname : IsFieldName name) (hbare : Bare isTrimmed value) :
    splitField (name ++ Bytes.ascii ": " ++ value) = (name, value) := by
  have htrim : ConfigParser.trim (32 :: value) = value := trim_indented [32] (List.all_eq_true.mp rfl) hbare
  have hcut : cut 58 (name ++ 58 :: 32 :: value) = some (name, 32 :: value) := by
    apply cut_append
    rcases hname with rfl | rfl <;> decide
  have hkey : ConfigParser.trim name = name := by
    rcases hname with rfl | rfl <;> decide
  have hshape : name ++ Bytes.ascii ": " ++ value = name ++ 58 :: 32 :: value := by simp [Bytes.ascii, Bytes.ofChar]
  rw [hshape, splitField, hcut]
  exact Prod.ext hkey htrim

theorem bare_field (hname : IsFieldName name) (hbare : Bare isTrimmed value) (hne : value ≠ []) :
    Bare isTrimmed (name ++ Bytes.ascii ": " ++ value) := by
  apply hbare.append_left hne
  · rcases hname with rfl | rfl <;> decide
  · rcases hname with rfl | rfl <;> rintro b ⟨⟩ <;> rfl

theorem mem_field (name value : Bytes) : (58 : UInt8) ∈ name ++ Bytes.ascii ": " ++ value :=
  List.mem_append_left _ (List.mem_append_right _ (by decide))

/-- The first line of an item. -/
theorem ofLine_first (hname : IsFieldName name) (hbare : Bare isTrimmed value) (hne : value ≠ []) :
    ConfigLine.ofLine (Bytes.ascii "  - " ++ (name ++ Bytes.ascii ": " ++ value)) =
      some ⟨2, true, name, unquote value⟩ := by
  have hfield := bare_field hname hbare hne
  have hdash : Bare isTrimmed (Bytes.ascii "- " ++ (name ++ Bytes.ascii ": " ++ value)) := by
    apply hfield.append_left (by simp [hne]) (by decide)
    rintro b ⟨⟩
    rfl
  have htrim : ConfigParser.trim (Bytes.ascii "  - " ++ (name ++ Bytes.ascii ": " ++ value)) =
      Bytes.ascii "- " ++ (name ++ Bytes.ascii ": " ++ value) :=
    trim_indented (Bytes.ascii "  ") (List.all_eq_true.mp rfl) hdash
  have hcolon : (58 : UInt8) ∈ Bytes.ascii "- " ++ (name ++ Bytes.ascii ": " ++ value) :=
    List.mem_append_right _ (mem_field name value)
  have hwithout : ConfigParser.trim ((Bytes.ascii "- " ++ (name ++ Bytes.ascii ": " ++ value)).drop 1) =
      name ++ Bytes.ascii ": " ++ value := trim_indented [32] (List.all_eq_true.mp rfl) hfield
  have hhead : decide ((Bytes.ascii "- " ++ (name ++ Bytes.ascii ": " ++ value)).head? = some 45) = true := rfl
  have hskip : ¬ (Bytes.ascii "- " ++ (name ++ Bytes.ascii ": " ++ value) = [] ∨
      (Bytes.ascii "- " ++ (name ++ Bytes.ascii ": " ++ value)).head? = some 35) := by
    rintro (h | h) <;> cases h
  unfold ConfigLine.ofLine
  dsimp only
  rw [htrim, if_neg hskip, if_neg (not_not.mpr hcolon), hhead, if_pos rfl, hwithout, splitField_field hname hbare]
  rfl

/-- The second line of an item. -/
theorem ofLine_second (hname : IsFieldName name) (hbare : Bare isTrimmed value) (hne : value ≠ []) :
    ConfigLine.ofLine (Bytes.ascii "    " ++ (name ++ Bytes.ascii ": " ++ value)) =
      some ⟨4, false, name, unquote value⟩ := by
  have htrim : ConfigParser.trim (Bytes.ascii "    " ++ (name ++ Bytes.ascii ": " ++ value)) =
      name ++ Bytes.ascii ": " ++ value :=
    trim_indented (Bytes.ascii "    ") (List.all_eq_true.mp rfl) (bare_field hname hbare hne)
  have hskip : ¬ (name ++ Bytes.ascii ": " ++ value = [] ∨ (name ++ Bytes.ascii ": " ++ value).head? = some 35) := by
    rcases hname with rfl | rfl <;> rintro (h | h) <;> cases h
  have hhead : decide ((name ++ Bytes.ascii ": " ++ value).head? = some 45) = false := by
    rcases hname with rfl | rfl <;> rfl
  have hindent : ((Bytes.ascii "    " ++ (name ++ Bytes.ascii ": " ++ value)).takeWhile isIndent).length = 4 := by
    rcases hname with rfl | rfl <;> rfl
  unfold ConfigLine.ofLine
  dsimp only
  rw [htrim, if_neg hskip, if_neg (not_not.mpr (mem_field name value)), hhead, if_neg Bool.false_ne_true,
    splitField_field hname hbare, hindent]

end field

/-! ### The values of an item -/

theorem unquote_of_notMem {value : Bytes} (h : (34 : UInt8) ∉ value) : unquote value = value := by
  apply if_neg
  rintro ⟨-, hhead, -⟩
  exact h (List.mem_of_mem_head? hhead)

theorem unquote_quoted (value : Bytes) : unquote (34 :: value ++ [34]) = value := by
  have hquotes : 2 ≤ (34 :: value ++ [34]).length ∧ (34 :: value ++ [34]).head? = some 34 ∧
      (34 :: value ++ [34]).getLast? = some 34 := by
    refine ⟨by simp, rfl, ?_⟩
    rw [List.getLast?_append_of_ne_nil _ (by simp)]
    rfl
  unfold unquote
  rw [if_pos hquotes]
  simp

theorem bare_of_forall {value : Bytes} (h : ∀ b ∈ value, isTrimmed b = false) : Bare isTrimmed value :=
  ⟨fun b hb => h b (List.mem_of_mem_head? hb), fun b hb => h b (List.mem_of_mem_getLast? hb)⟩

theorem bare_toDecimal (n : Nat) : Bare isTrimmed (Bytes.toDecimal n) := by
  apply bare_of_forall
  intro b hb
  by_contra htrimmed
  simp only [isTrimmed, Bool.not_eq_false, Bool.or_eq_true, decide_eq_true_eq, or_assoc] at htrimmed
  rcases htrimmed with rfl | rfl | rfl | rfl <;> exact notMem_toDecimal (by decide) n hb

namespace PeerItem

variable (item : PeerItem)

/-- The host as it stands in the file. -/
theorem bare_quoted : Bare isTrimmed (if item.quoted then 34 :: item.host ++ [34] else item.host) := by
  split_ifs
  · apply bare_of_forall
    intro b hb
    simp only [List.cons_append, List.mem_cons, List.mem_append, List.not_mem_nil, or_false] at hb
    rcases hb with rfl | hb | rfl
    · rfl
    · exact (item.host_plain b hb).1
    · rfl
  · exact bare_of_forall fun b hb => (item.host_plain b hb).1

theorem unquote_host : unquote (if item.quoted then 34 :: item.host ++ [34] else item.host) = item.host := by
  split_ifs
  · exact unquote_quoted item.host
  · exact unquote_of_notMem fun h => (item.host_plain 34 h).2 rfl

theorem quoted_ne_nil : (if item.quoted then 34 :: item.host ++ [34] else item.host) ≠ [] := by
  split_ifs
  · simp
  · exact item.host_ne_nil

theorem unquote_port : unquote (Bytes.toDecimal item.port) = Bytes.toDecimal item.port :=
  unquote_of_notMem (notMem_toDecimal (by decide) item.port)

/-! The lines of the item, as `load` takes them apart. -/

theorem ofLine_host_first : ConfigLine.ofLine (Bytes.ascii "  - " ++ item.hostField) =
    some ⟨2, true, Bytes.ascii "host", item.host⟩ := by
  rw [hostField, ofLine_first (Or.inl rfl) item.bare_quoted item.quoted_ne_nil, unquote_host]

theorem ofLine_host_second : ConfigLine.ofLine (Bytes.ascii "    " ++ item.hostField) =
    some ⟨4, false, Bytes.ascii "host", item.host⟩ := by
  rw [hostField, ofLine_second (Or.inl rfl) item.bare_quoted item.quoted_ne_nil, unquote_host]

theorem ofLine_port_first : ConfigLine.ofLine (Bytes.ascii "  - " ++ item.portField) =
    some ⟨2, true, Bytes.ascii "port", Bytes.toDecimal item.port⟩ := by
  rw [portField, ofLine_first (Or.inr rfl) (bare_toDecimal item.port) (toDecimal_ne_nil item.port), unquote_port]

theorem ofLine_port_second : ConfigLine.ofLine (Bytes.ascii "    " ++ item.portField) =
    some ⟨4, false, Bytes.ascii "port", Bytes.toDecimal item.port⟩ := by
  rw [portField, ofLine_second (Or.inr rfl) (bare_toDecimal item.port) (toDecimal_ne_nil item.port), unquote_port]

theorem lines_of_hostFirst (h : item.hostFirst = true) : item.lines =
    (Bytes.ascii "  - " ++ item.hostField) :: item.between ++
      (Bytes.ascii "    " ++ item.portField) :: item.behind := by
  unfold lines
  rw [if_pos h]

theorem lines_of_portFirst (h : item.hostFirst = false) : item.lines =
    (Bytes.ascii "  - " ++ item.portField) :: item.between ++
      (Bytes.ascii "    " ++ item.hostField) :: item.behind := by
  unfold lines
  rw [h, if_neg Bool.false_ne_true]

end PeerItem

/-! ## C. One line -/

namespace ConfigParser.State

variable {s t : State} {line : Bytes} {l : ConfigLine}

theorem ofLine_of_skipped (h : Skipped line) : ConfigLine.ofLine line = none := if_pos h

theorem handleLine_none (hline : ConfigLine.ofLine line = none) : s.handleLine line = some s := by
  unfold handleLine
  rw [hline]

theorem clearPeer_not_complete (s : State) : ¬ s.clearPeer.Complete := fun h => h.1 rfl

/-- A section starts: there is no peer to save. -/
theorem openSection_eq (hs : ¬ s.Complete) (key : Bytes) : s.openSection key =
    { s with currentSection := key, inPeersSection := decide (key = Bytes.ascii "peers"), inListItem := false } := by
  unfold openSection
  rw [if_neg (fun h => hs h.2)]

theorem handleLine_opens {name : Bytes} (hopens : Opens name line) (hs : ¬ s.Complete) : s.handleLine line =
    some { s with
      currentSection := name, inPeersSection := decide (name = Bytes.ascii "peers"), inListItem := false } := by
  obtain ⟨l, hline, hl, rfl⟩ := hopens
  unfold handleLine
  rw [hline]
  dsimp only
  rw [if_neg hl.1, if_pos hl, openSection_eq hs]

/-! ### Fields of a peer -/

/-- A host is kept, and the port set back. -/
theorem peerField_host (hs : ¬ s.Complete) (value : Bytes) :
    s.peerField (Bytes.ascii "host") value = some { s with peerHost := value, peerPort := 0 } := by
  unfold peerField
  rw [if_pos rfl, if_neg hs]

/-- A port saves the peer if there is a host. -/
theorem peerField_port (s : State) {port : Nat} (h : port ≤ 65535) :
    s.peerField (Bytes.ascii "port") (Bytes.toDecimal port) =
      some (if s.peerHost ≠ [] then
        { s with peers := s.peers ++ [(s.peerHost, port)], peerHost := [], peerPort := 0 }
      else { s with peerPort := port }) := by
  have hport : toUnsigned 16 (port : Int) = port := by
    unfold toUnsigned
    omega
  unfold peerField
  rw [if_neg (by decide), if_pos rfl, stoi_toDecimal (by omega), Option.map_some, hport]
  rfl

theorem peerField_not_complete {key value : Bytes} (hs : ¬ s.Complete) (h : s.peerField key value = some t) :
    ¬ t.Complete := by
  unfold peerField at h
  split_ifs at h
  · obtain rfl := Option.some.inj h
    exact fun hc => hc.2 rfl
  · obtain ⟨i, -, rfl⟩ := Option.map_eq_some_iff.mp h
    dsimp only
    split_ifs with hhost
    · exact clearPeer_not_complete _
    · exact fun hc => hhost hc.1
  · exact Option.some.inj h ▸ hs

/-- The first line of an item. -/
theorem handleLine_first (hline : ConfigLine.ofLine line = some l) (hdash : l.startsWithDash = true)
    (hin : s.inPeersSection = true) :
    s.handleLine line = { s with inListItem := true }.peerField l.key l.value := by
  unfold handleLine
  rw [hline]
  dsimp only
  rw [if_pos hdash, if_neg (fun hopens => hopens.1 hdash), if_pos ⟨hin, Or.inl hdash⟩]

/-- The second line of an item. -/
theorem handleLine_second (hline : ConfigLine.ofLine line = some l) (hdash : l.startsWithDash = false)
    (hindent : 2 < l.indent) (hin : s.inPeersSection = true) (hitem : s.inListItem = true) :
    s.handleLine line = s.peerField l.key l.value := by
  unfold handleLine
  rw [hline]
  dsimp only
  rw [if_neg (ne_true_of_eq_false hdash), if_neg (fun hopens => absurd hopens.2.2 (by omega)),
    if_pos ⟨hin, Or.inr ⟨hitem, hindent⟩⟩]

/-! ### Values -/

/-- Nothing happens to the peers. -/
def SamePeers (s t : State) : Prop := t.peers = s.peers ∧ t.peerHost = s.peerHost ∧ t.peerPort = s.peerPort

theorem SamePeers.trans {u : State} (h : SamePeers s t) (h' : SamePeers t u) : SamePeers s u :=
  ⟨h'.1.trans h.1, h'.2.1.trans h.2.1, h'.2.2.trans h.2.2⟩

theorem SamePeers.not_complete (h : SamePeers s t) (hs : ¬ s.Complete) : ¬ t.Complete := by
  unfold Complete
  rw [h.2.1, h.2.2]
  exact hs

/-- The values that are to be numbers are numbers. -/
def Numbers (values : SortedMap Bytes Bytes) : Prop :=
  ∀ key ∈ numberKeys, ∀ value, values.find? key = some value → (stoi value).isSome = true

/-- A value leaves the peers alone. -/
theorem setValue_samePeers (s : State) (key value : Bytes) : SamePeers s (s.setValue key value) ∧
    (s.setValue key value).currentSection = s.currentSection ∧
    (s.setValue key value).inPeersSection = s.inPeersSection := by
  unfold setValue
  split_ifs <;> exact ⟨⟨rfl, rfl, rfl⟩, rfl, rfl⟩

theorem setValue_numbers {key value : Bytes} (hs : Numbers s.values)
    (hnumber : fullKey s.currentSection key ∈ numberKeys → (stoi value).isSome = true) :
    Numbers (s.setValue key value).values := by
  unfold setValue
  split_ifs
  · intro key' hkey' value' hfind
    rw [SortedMap.find?_insert] at hfind
    split_ifs at hfind with hsame
    · obtain rfl := Option.some.inj hfind
      exact hnumber (hsame ▸ hkey')
    · exact hs key' hkey' value' hfind
  · exact hs

/-- A line that is neither the start of a section nor about a peer. -/
theorem handleLine_value (hline : ConfigLine.ofLine line = some l) (hopens : ¬ l.OpensSection)
    (hfield : ¬ (s.inPeersSection = true ∧ (l.startsWithDash = true ∨ s.inListItem = true ∧ 2 < l.indent))) :
    ∃ inListItem, s.handleLine line = some { s.setValue l.key l.value with inListItem } := by
  have hset : ∀ inListItem, { s with inListItem }.setValue l.key l.value =
      { s.setValue l.key l.value with inListItem } := by
    intro inListItem
    unfold setValue
    dsimp only
    split_ifs <;> rfl
  unfold handleLine
  rw [hline]
  dsimp only
  rw [if_neg hopens]
  by_cases hdash : l.startsWithDash = true
  · have hout : ¬ s.inPeersSection = true := fun hin => hfield ⟨hin, Or.inl hdash⟩
    rw [if_pos hdash, if_neg (fun h => hout h.1), hset, if_neg (fun h => h.2 hdash)]
    exact ⟨true, rfl⟩
  · rw [if_neg hdash, if_neg hfield]
    split_ifs
    · exact ⟨false, rfl⟩
    · exact ⟨(s.setValue l.key l.value).inListItem, rfl⟩

/-- **No line leaves a peer behind that has a host and a port**: the peers that `load` saves at the next host, at the
    next section and at the end of the file are never there. -/
theorem handleLine_not_complete (hs : ¬ s.Complete) (h : s.handleLine line = some t) : ¬ t.Complete := by
  cases hline : ConfigLine.ofLine line with
  | none =>
      rw [handleLine_none hline] at h
      exact Option.some.inj h ▸ hs
  | some l =>
      by_cases hopens : l.OpensSection
      · rw [handleLine_opens ⟨l, hline, hopens, rfl⟩ hs] at h
        obtain rfl := Option.some.inj h
        exact hs
      · by_cases hfield : s.inPeersSection = true ∧ (l.startsWithDash = true ∨ s.inListItem = true ∧ 2 < l.indent)
        · by_cases hdash : l.startsWithDash = true
          · rw [handleLine_first hline hdash hfield.1] at h
            exact peerField_not_complete (s := { s with inListItem := true }) hs h
          · obtain ⟨hitem, hindent⟩ := hfield.2.resolve_left hdash
            rw [handleLine_second hline (eq_false_of_ne_true hdash) hindent hfield.1 hitem] at h
            exact peerField_not_complete hs h
        · obtain ⟨inListItem, heq⟩ := handleLine_value hline hopens hfield
          obtain rfl := Option.some.inj (heq.symm.trans h)
          exact (setValue_samePeers s l.key l.value).1.not_complete hs

/-! ## D. Runs -/

theorem exec_not_complete {lines : List Bytes} (hs : ¬ s.Complete) (h : exec handleLine s lines = some t) :
    ¬ t.Complete :=
  exec_invariant (I := fun s => ¬ s.Complete) hs (fun _ _ _ => handleLine_not_complete) h

theorem exec_skipped {lines : List Bytes} (h : ∀ line ∈ lines, Skipped line) (s : State) :
    exec handleLine s lines = some s := by
  induction lines with
  | nil => rfl
  | cons line lines ih =>
      obtain ⟨hline, hlines⟩ := List.forall_mem_cons.mp h
      rw [exec_cons, handleLine_none (ofLine_of_skipped hline), Option.bind_some, ih hlines]

/-- Other sections change values only. -/
theorem exec_sections {currentSection : Bytes} {lines : List Bytes} (h : Sections currentSection lines) {s : State}
    (hsection : s.currentSection = currentSection) (hout : s.inPeersSection = false) (hs : ¬ s.Complete)
    (hnum : Numbers s.values) : ∃ t, exec handleLine s lines = some t ∧ SamePeers s t ∧ Numbers t.values := by
  induction h generalizing s with
  | nil => exact ⟨s, rfl, ⟨rfl, rfl, rfl⟩, hnum⟩
  | skipped hline _ ih =>
      rw [exec_cons, handleLine_none hline, Option.bind_some]
      exact ih hsection hout hs hnum
  | @header _ line name lines hopens hname _ ih =>
      rw [exec_cons, handleLine_opens hopens hs, Option.bind_some]
      exact ih rfl (decide_eq_false hname) hs hnum
  | @field currentSection line l lines hline hopens hnumber _ ih =>
      subst hsection
      obtain ⟨inListItem, heq⟩ := handleLine_value (s := s) hline hopens (fun h => absurd h.1 (by simp [hout]))
      obtain ⟨hsame, hsection, hin⟩ := setValue_samePeers s l.key l.value
      rw [exec_cons, heq, Option.bind_some]
      obtain ⟨t, ht, hsame', hnum'⟩ := ih (s := { s.setValue l.key l.value with inListItem }) hsection (hin.trans hout)
        (hsame.not_complete hs) (setValue_numbers hnum hnumber)
      exact ⟨t, ht, hsame.trans hsame', hnum'⟩

/-! ### The list -/

end ConfigParser.State

/-- What `load` makes of an item, with the peers so far and the host that is pending: the host of an item whose port
    came first stays, for the next port. -/
def PeerItem.read (item : PeerItem) : List (Bytes × Nat) × Bytes → List (Bytes × Nat) × Bytes
  | (peers, pending) =>
    if item.hostFirst then (peers ++ [item.peer], [])
    else if pending ≠ [] then (peers ++ [(pending, item.port)], item.host)
    else (peers, item.host)

namespace ConfigParser.State

variable {s t : State}

/-! The lines of an item, in the list. -/

section item

variable (item : PeerItem) (hin : s.inPeersSection = true)

include hin

theorem handleLine_host_first (hs : ¬ s.Complete) : s.handleLine (Bytes.ascii "  - " ++ item.hostField) =
    some { s with inListItem := true, peerHost := item.host, peerPort := 0 } := by
  rw [handleLine_first item.ofLine_host_first rfl hin, peerField_host (by exact hs)]

theorem handleLine_host_second (hitem : s.inListItem = true) (hs : ¬ s.Complete) :
    s.handleLine (Bytes.ascii "    " ++ item.hostField) = some { s with peerHost := item.host, peerPort := 0 } := by
  rw [handleLine_second item.ofLine_host_second rfl (by simp) hin hitem, peerField_host hs]

theorem handleLine_port_first : s.handleLine (Bytes.ascii "  - " ++ item.portField) =
    some (if s.peerHost ≠ [] then
      { s with inListItem := true, peers := s.peers ++ [(s.peerHost, item.port)], peerHost := [], peerPort := 0 }
    else { s with inListItem := true, peerPort := item.port }) := by
  rw [handleLine_first item.ofLine_port_first rfl hin, peerField_port _ item.port_le]

theorem handleLine_port_second (hitem : s.inListItem = true) (hhost : s.peerHost ≠ []) :
    s.handleLine (Bytes.ascii "    " ++ item.portField) =
      some { s with peers := s.peers ++ [(s.peerHost, item.port)], peerHost := [], peerPort := 0 } := by
  rw [handleLine_second item.ofLine_port_second rfl (by simp) hin hitem, peerField_port _ item.port_le, if_pos hhost]

omit hin in
/-- What is skipped between the two lines and behind them does not matter. -/
theorem exec_two {first second : Bytes} {u : State} (hfirst : s.handleLine first = some t)
    (hsecond : t.handleLine second = some u) :
    exec handleLine s (first :: item.between ++ second :: item.behind) = some u := by
  rw [List.cons_append, exec_cons, hfirst, Option.bind_some, exec_append, exec_skipped item.between_skipped,
    Option.bind_some, exec_cons, hsecond, Option.bind_some, exec_skipped item.behind_skipped]

/-- **An item.** -/
theorem exec_item (hs : ¬ s.Complete) :
    ∃ t, exec handleLine s item.lines = some t ∧ (t.peers, t.peerHost) = item.read (s.peers, s.peerHost) ∧
      t.inPeersSection = true ∧ t.values = s.values := by
  rw [PeerItem.read]
  cases horder : item.hostFirst with
  | true =>
      have hhost := handleLine_host_first item hin hs
      have hport := handleLine_port_second (s := { s with inListItem := true, peerHost := item.host, peerPort := 0 })
        item hin rfl item.host_ne_nil
      rw [item.lines_of_hostFirst horder, if_pos rfl]
      exact ⟨_, exec_two item hhost hport, rfl, hin, rfl⟩
  | false =>
      have hport := handleLine_port_first item hin
      rw [item.lines_of_portFirst horder, if_neg Bool.false_ne_true]
      by_cases hpending : s.peerHost = []
      · -- the port is kept, and the line with the host takes it away
        rw [if_neg (not_not.mpr hpending)] at hport ⊢
        have hhost := handleLine_host_second (s := { s with inListItem := true, peerPort := item.port })
          item hin rfl (fun h => h.1 hpending)
        exact ⟨_, exec_two item hport hhost, rfl, hin, rfl⟩
      · -- the port goes to the host of the item before
        rw [if_pos hpending] at hport ⊢
        have hhost := handleLine_host_second
          (s := { s with
            inListItem := true, peers := s.peers ++ [(s.peerHost, item.port)], peerHost := [], peerPort := 0 })
          item hin rfl (fun h => h.1 rfl)
        exact ⟨_, exec_two item hport hhost, rfl, hin, rfl⟩

end item

/-- The items one after the other. -/
theorem exec_items (items : List PeerItem) {s : State} (hin : s.inPeersSection = true) (hs : ¬ s.Complete) :
    ∃ t, exec handleLine s (items.flatMap PeerItem.lines) = some t ∧
      (t.peers, t.peerHost) = items.foldl (fun p item => item.read p) (s.peers, s.peerHost) ∧ t.values = s.values := by
  induction items generalizing s with
  | nil => exact ⟨s, rfl, rfl, rfl⟩
  | cons item items ih =>
      obtain ⟨t, ht, hread, htin, hvalues⟩ := exec_item item hin hs
      obtain ⟨u, hu, hread', hvalues'⟩ := ih htin (exec_not_complete hs ht)
      refine ⟨u, ?_, ?_, hvalues'.trans hvalues⟩
      · rw [List.flatMap_cons, exec_append, ht, Option.bind_some, hu]
      · rw [List.foldl_cons, ← hread, hread']

/-! ## E. The whole file -/

theorem init_not_complete : ¬ init.Complete := fun h => h.1 rfl

theorem init_numbers : Numbers init.values := by
  intro key _ value hfind
  rw [init, SortedMap.find?_empty] at hfind
  exact absurd hfind (by simp)

/-- Behind the list, nothing happens to the peers. -/
theorem exec_after (file : PeersFile) {s : State} (hs : ¬ s.Complete) (hnum : Numbers s.values) :
    ∃ t, exec handleLine s file.after = some t ∧ SamePeers s t ∧ Numbers t.values := by
  have hopens := file.opens_after
  have hsections := file.sections_after
  cases hafter : file.after with
  | nil => exact ⟨s, rfl, ⟨rfl, rfl, rfl⟩, hnum⟩
  | cons line lines =>
      rw [hafter] at hopens hsections
      obtain ⟨name, l, hline, hl, rfl⟩ := hopens line rfl
      cases hsections with
      | skipped hnone => exact absurd (hline.symm.trans hnone) (by simp)
      | field hline' hopens' =>
          obtain rfl := Option.some.inj (hline.symm.trans hline')
          exact absurd hl hopens'
      | header hopens' hname hrest =>
          rw [exec_cons, handleLine_opens hopens' hs, Option.bind_some]
          exact exec_sections hrest rfl (decide_eq_false hname) hs hnum

/-- **The lines of a file** leave the peers that its items are read as. -/
theorem exec_lines (file : PeersFile) : ∃ t, exec handleLine init file.lines = some t ∧
    t.finalPeers = (file.items.foldl (fun p item => item.read p) ([], [])).1 ∧ Numbers t.values := by
  obtain ⟨s, hs, hsame, hnum⟩ := exec_sections file.sections_before (s := init) rfl rfl init_not_complete init_numbers
  have hidle := hsame.not_complete init_not_complete
  have hheader := handleLine_opens file.opens_peers hidle
  obtain ⟨t, ht, hread, hvalues⟩ := exec_items file.items
    (s := { s with
      currentSection := Bytes.ascii "peers", inPeersSection := decide (Bytes.ascii "peers" = Bytes.ascii "peers"),
      inListItem := false }) (by simp) hidle
  have htidle : ¬ t.Complete := exec_not_complete (by exact hidle) ht
  obtain ⟨u, hu, hsame', hnum'⟩ := exec_after file htidle (hvalues ▸ hnum)
  refine ⟨u, ?_, ?_, hnum'⟩
  · rw [PeersFile.lines, exec_append, exec_append, exec_append, hs, Option.bind_some, exec_cons, hheader,
      Option.bind_some, exec_skipped file.comments_skipped, Option.bind_some, ht, Option.bind_some, hu]
  · have hstart : (s.peers, s.peerHost) = (([], []) : List (Bytes × Nat) × Bytes) := Prod.ext hsame.1 hsame.2.1
    rw [finalPeers, if_neg (hsame'.not_complete htidle), hsame'.1, ← hstart, ← hread]

end ConfigParser.State

theorem numberValue_isSome {values : SortedMap Bytes Bytes} (h : State.Numbers values) (key : String)
    (hkey : Bytes.ascii key ∈ numberKeys) (default : Int) : ∃ i, numberValue values key default = some i := by
  unfold numberValue
  cases hfind : values.find? (Bytes.ascii key) with
  | none => exact ⟨default, rfl⟩
  | some value => exact Option.isSome_iff_exists.mp (h _ hkey value hfind)

/-- The values of the file do not touch the list. -/
theorem parseValues_peers {values : SortedMap Bytes Bytes} (h : State.Numbers values) (peers : List (Bytes × Nat)) :
    ∃ config, parseValues values peers = some config ∧ config.peers = peers := by
  obtain ⟨port, hport⟩ := numberValue_isSome h "server.port" (by decide) (9000 : Nat)
  obtain ⟨numThreads, hthreads⟩ := numberValue_isSome h "server.threads" (by decide) 4
  obtain ⟨cacheSize, hcache⟩ := numberValue_isSome h "storage.cache_size" (by decide) (1000 : Nat)
  obtain ⟨nodeId, hid⟩ := numberValue_isSome h "node.id" (by decide) (0 : Nat)
  obtain ⟨replicationPort, hreplication⟩ := numberValue_isSome h "replication.port" (by decide) (0 : Nat)
  unfold parseValues
  dsimp only
  rw [hport, hthreads, hcache, hid, hreplication]
  exact ⟨_, rfl, rfl⟩

/-- `load` finds the peers that the items are read as. -/
theorem load_peers (file : PeersFile) {text : Bytes} (htext : getLines text = file.lines) :
    ∃ config, load (some text) = some (some config) ∧
      config.peers = (file.items.foldl (fun p item => item.read p) ([], [])).1 := by
  obtain ⟨s, hs, hpeers, hnum⟩ := State.exec_lines file
  obtain ⟨config, hconfig, hsame⟩ := parseValues_peers hnum s.finalPeers
  refine ⟨config, ?_, hsame.trans hpeers⟩
  unfold load
  dsimp only
  rw [htext, hs, Option.bind_eq_bind, Option.bind_some, hconfig]
  rfl

/-! ## F. When the list is read back

An item that names its port first loses it, or gives it to the host that the item in front has left behind. -/

/-- An item adds one peer at most. -/
theorem length_foldl_read_le (items : List PeerItem) (p : List (Bytes × Nat) × Bytes) :
    (items.foldl (fun p item => item.read p) p).1.length ≤ p.1.length + items.length := by
  induction items generalizing p with
  | nil => simp
  | cons item items ih =>
      have hstep : (item.read p).1.length ≤ p.1.length + 1 := by
        unfold PeerItem.read
        split
        split_ifs <;> simp
      have hrest := ih (item.read p)
      rw [List.foldl_cons, List.length_cons]
      omega

/-- With no host pending, the peers come out as they are written just when every item names its host first: the first
    item that does not adds none. -/
theorem foldl_read_eq_iff (items : List PeerItem) (peers : List (Bytes × Nat)) :
    (items.foldl (fun p item => item.read p) (peers, [])).1 = peers ++ items.map PeerItem.peer ↔
      ∀ item ∈ items, item.hostFirst = true := by
  induction items generalizing peers with
  | nil => simp
  | cons item items ih =>
      rw [List.foldl_cons, List.map_cons, List.forall_mem_cons, PeerItem.read]
      cases horder : item.hostFirst with
      | true =>
          rw [if_pos rfl, List.append_cons peers item.peer (items.map PeerItem.peer), ih]
          exact ⟨fun h => ⟨rfl, h⟩, And.right⟩
      | false =>
          rw [if_neg Bool.false_ne_true, if_neg (not_not.mpr rfl)]
          refine iff_of_false ?_ (fun h => absurd h.1 Bool.false_ne_true)
          intro heq
          have hle := length_foldl_read_le items (peers, item.host)
          rw [heq] at hle
          simp only [List.length_append, List.length_cons, List.length_map] at hle
          omega

/-- **The list of peers is read back** just when every item names its host before its port. -/
theorem load_peers_iff (file : PeersFile) {text : Bytes} (htext : getLines text = file.lines) :
    (∃ config, load (some text) = some (some config) ∧ config.peers = file.items.map PeerItem.peer) ↔
      ∀ item ∈ file.items, item.hostFirst = true := by
  obtain ⟨config, hload, hpeers⟩ := load_peers file htext
  have hiff := foldl_read_eq_iff file.items []
  rw [List.nil_append, ← hpeers] at hiff
  rw [← hiff]
  constructor
  · rintro ⟨config', hload', hpeers'⟩
    obtain rfl := Option.some.inj (Option.some.inj (hload.symm.trans hload'))
    exact hpeers'
  · exact fun h => ⟨config, hload, h⟩

/-- Two peers between other sections. -/
def twoPeers : PeersFile where
  before := [Bytes.ascii "node:", Bytes.ascii "  id: 1", []]
  header := Bytes.ascii "peers:"
  comments := [Bytes.ascii "# the others"]
  items :=
    [⟨Bytes.ascii "a", 9001, true, true, [], [], by decide,
        List.forall_mem_singleton.mpr (by decide), by decide, by decide, by decide, by decide⟩,
      ⟨Bytes.ascii "b", 9002, false, true, [[]], [], by decide,
        List.forall_mem_singleton.mpr (by decide), by decide, by decide, by decide, by decide⟩]
  after := [Bytes.ascii "logging:"]
  sections_before :=
    .header ⟨⟨0, false, Bytes.ascii "node", []⟩, by decide, by decide, rfl⟩ (by decide)
      (.field (l := ⟨2, false, Bytes.ascii "id", Bytes.ascii "1"⟩) (by decide) (by decide) (by decide)
        (.skipped (by decide) .nil))
  opens_peers := ⟨⟨0, false, Bytes.ascii "peers", []⟩, by decide, by decide, rfl⟩
  comments_skipped := by decide
  opens_after := by
    rintro line ⟨⟩
    exact ⟨_, ⟨0, false, Bytes.ascii "logging", []⟩, by decide, by decide, rfl⟩
  sections_after := .header ⟨⟨0, false, Bytes.ascii "logging", []⟩, by decide, by decide, rfl⟩ (by decide) .nil

theorem load_twoPeers : ∃ config, load (some (Bytes.ascii
      "node:\n  id: 1\n\npeers:\n# the others\n  - host: \"a\"\n    port: 9001\n  - host: b\n\n    port: 9002\nlogging:")) =
      some (some config) ∧ config.peers = [(Bytes.ascii "a", 9001), (Bytes.ascii "b", 9002)] :=
  (load_peers_iff twoPeers (by decide)).mpr (by decide)

/-- One peer, with its port first. -/
def portFirst : PeersFile where
  before := []
  header := Bytes.ascii "peers:"
  comments := []
  items :=
    [⟨Bytes.ascii "a", 9001, true, false, [], [], by decide,
        List.forall_mem_singleton.mpr (by decide), by decide, by decide, by decide, by decide⟩]
  after := []
  sections_before := .nil
  opens_peers := ⟨⟨0, false, Bytes.ascii "peers", []⟩, by decide, by decide, rfl⟩
  comments_skipped := by decide
  opens_after := by simp
  sections_after := .nil

def portFirstText : Bytes := Bytes.ascii "peers:\n  - port: 9001\n    host: \"a\"\n"

/-- The peer is lost. -/
theorem not_load_portFirst : getLines portFirstText = portFirst.lines ∧
    ¬ ∃ config, load (some portFirstText) = some (some config) ∧ config.peers = portFirst.items.map PeerItem.peer := by
  refine ⟨by decide, ?_⟩
  rintro ⟨config, hload, hpeers⟩
  have hnone : (load (some portFirstText)).map (·.map fun c => c.peers) = some (some []) := by decide
  rw [hload, Option.map_some, Option.map_some, hpeers] at hnone
  exact absurd hnone (by decide)

end KvStorageEngine.Server
