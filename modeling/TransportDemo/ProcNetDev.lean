import Mathlib.Algebra.Group.Nat.Defs
import Mathlib.Data.List.Nodup
import TransportDemo.SpacedText

/-!
# The traffic counters in `/proc/net/dev`

`TotalFlowByDevice` looks for the device by substring tests, in lines and in
the fields between colons, and carries the number of the column from one field
to the next. The counters it returns are those of the last interface whose name
has the device's name in it.
-/

namespace ProcNetDev

open SpacedText

/-! ### The library functions it uses -/

/-- `unicode.IsSpace`. -/
def isSpace (c : Char) : Bool :=
  let n := c.toNat
  (9 ≤ n && n ≤ 13) || n == 0x20 || n == 0x85 || n == 0xA0 || n == 0x1680 ||
    (0x2000 ≤ n && n ≤ 0x200A) || n == 0x2028 || n == 0x2029 || n == 0x202F || n == 0x205F ||
    n == 0x3000

/-- `strings.Contains`. -/
def contains (s substr : List Char) : Bool := decide (substr <:+: s)

def digit (c : Char) : Nat := c.toNat - '0'.toNat

/-- The loop of `ParseUint` for base 10 and 64 bits: `none` is a syntax error, a value out of range
is returned as the greatest one. -/
def parseDigits : List Char → Nat → Option Nat
  | [], n => some n
  | c :: rest, n =>
    if c.isDigit then
      if 2 ^ 64 ≤ 10 * n + digit c then some (2 ^ 64 - 1) else parseDigits rest (10 * n + digit c)
    else none

def parseUint (s : List Char) : Option Nat := if s = [] then none else parseDigits s 0

/-- The value that `ParseInt` for base 10 and 64 bits returns, with or without an error. -/
def parseInt (s : List Char) : Int :=
  let neg := s.head? = some '-'
  match parseUint (if neg ∨ s.head? = some '+' then s.tail else s) with
  | none => 0
  | some un => if neg then -(min un (2 ^ 63) : Nat) else (min un (2 ^ 63 - 1) : Nat)

/-! ### `TotalFlowByDevice` -/

/-- The columns, -1 until they are found, and the two counters. -/
structure Flow where
  receive : Int
  transmit : Int
  receiveBytes : UInt64
  transmitBytes : UInt64
  deriving DecidableEq

def unset : Flow := ⟨-1, -1, 0, 0⟩

/-- The loop body over the values of a field, with the column `i`. -/
def readValue (s : Flow × Int) (value : List Char) : Flow × Int :=
  (if s.1.receive = s.2 then { s.1 with receiveBytes := .ofInt (parseInt value) }
    else if s.1.transmit = s.2 then { s.1 with transmitBytes := .ofInt (parseInt value) }
    else s.1, s.2 + 1)

/-- The loop body over the fields of a line of the device. -/
def readField (dev : List Char) (s : Flow × Int) (field : List Char) : Flow × Int :=
  if contains field dev then (s.1, 1) else (fields isSpace field).foldl readValue s

def readDevice (dev : List Char) (flow : Flow) (line : List Char) : Flow :=
  ((line.splitOn ':').foldl (readField dev) (flow, 0)).1

/-- The columns, `index` and `tag`. -/
structure Scan where
  flow : Flow
  index : Int
  tag : Bool
  deriving DecidableEq

/-- The loop body over the words of a header field. -/
def readTitle (s : Scan) (value : List Char) : Scan :=
  if contains value "bytes".toList then
    if s.tag then { s with flow := { s.flow with transmit := s.index }, index := s.index + 1 }
    else ⟨{ s.flow with receive := s.index }, s.index + 1, true⟩
  else { s with index := s.index + 1 }

/-- The loop body over the fields of a header line. -/
def readTitles (s : Scan) (field : List Char) : Scan :=
  if contains field "face".toList then { s with index := 1 }
  else if contains field "bytes".toList then (fields isSpace field).foldl readTitle s
  else s

def readHeader (flow : Flow) (line : List Char) : Flow :=
  ((line.splitOn '|').foldl readTitles ⟨flow, 0, false⟩).flow

/-- The loop body over the lines. -/
def readLine (dev : List Char) (flow : Flow) (line : List Char) : Flow :=
  if contains line dev then readDevice dev flow line
  else if contains line "face".toList then readHeader flow line
  else flow

/-- `TotalFlowByDevice`; `devinfo` is what reading the file gives, if it succeeds. -/
def totalFlowByDevice (devinfo : Option (List Char)) (dev : List Char) : UInt64 :=
  match devinfo with
  | none => 0
  | some text =>
    let flow := (text.splitOn '\n').foldl (readLine dev) unset
    flow.receiveBytes + flow.transmitBytes

/-! ### The format of the file -/

abbrev Words := Spaced isSpace

/-- The number that decimal digits stand for. -/
def decimal (digits : List Char) : Nat := digits.foldl (fun n c => 10 * n + digit c) 0

/-- A header line: cells of the given words with bars between them. -/
structure Header (titles : List (List (List Char))) where
  cells : List Words
  content : cells.map Spaced.content = titles
  oneLine : ∀ cell ∈ cells, '\n' ∉ cell.text

def Header.line {titles : List (List (List Char))} (h : Header titles) : List Char :=
  ['|'].intercalate (h.cells.map Spaced.text)

/-- The first header line: `Inter-|   Receive   |  Transmit`. -/
def topTitles : List (List (List Char)) :=
  [["Inter-".toList], ["Receive".toList], ["Transmit".toList]]

/-- The second header line: ` face |bytes    packets ... multicast|bytes    packets ...`. -/
def columnTitles : List (List (List Char)) :=
  [["face".toList],
    ["bytes".toList, "packets".toList, "errs".toList, "drop".toList, "fifo".toList, "frame".toList,
      "compressed".toList, "multicast".toList],
    ["bytes".toList, "packets".toList, "errs".toList, "drop".toList, "fifo".toList, "colls".toList,
      "carrier".toList, "compressed".toList]]

/-- The line of an interface: its name, a colon and 16 counters below 2^63. The first counts the
bytes received, the ninth the bytes transmitted. The separators are not part of a name. -/
structure Interface where
  name : List Char
  received : List Char
  receivedRest : List (List Char)
  transmitted : List Char
  transmittedRest : List (List Char)
  label : Words
  counters : Words
  named : label.content = [name]
  counted : counters.content = received :: (receivedRest ++ transmitted :: transmittedRest)
  sixteen : receivedRest.length = 7 ∧ transmittedRest.length = 7
  plain : ':' ∉ name ∧ '|' ∉ name
  counts : ∀ c ∈ counters.content, (∀ d ∈ c, d.isDigit = true) ∧ decimal c < 2 ^ 63
  oneLine : '\n' ∉ label.text ∧ '\n' ∉ counters.text

def Interface.line (f : Interface) : List Char := f.label.text ++ ':' :: f.counters.text

/-- The bytes received and transmitted. -/
def Interface.total (f : Interface) : Nat := decimal f.received + decimal f.transmitted

/-- The contents of `/proc/net/dev`. -/
structure NetDev where
  top : Header topTitles
  columns : Header columnTitles
  interfaces : List Interface
  distinct : (interfaces.map Interface.name).Nodup

def NetDev.lines (net : NetDev) : List (List Char) :=
  net.top.line :: net.columns.line :: net.interfaces.map Interface.line

def NetDev.text (net : NetDev) : List Char := net.lines.flatMap fun line => line ++ ['\n']

/-- The interface's counters are read for the device: the device's name is part of the interface's
name and of none of the counters. -/
def Selected (dev : List Char) (f : Interface) : Prop :=
  dev <:+: f.name ∧ ∀ c ∈ f.counters.content, ¬ dev <:+: c

instance (dev : List Char) (f : Interface) : Decidable (Selected dev f) :=
  inferInstanceAs (Decidable (_ ∧ _))

/-- The interface whose counters are returned. -/
def NetDev.chosen (net : NetDev) (dev : List Char) : Option Interface :=
  (net.interfaces.filter fun f => decide (Selected dev f)).getLast?

/-! ### Counters -/

theorem foldl_digits_ge (digits : List Char) (n : Nat) :
    n ≤ digits.foldl (fun n c => 10 * n + digit c) n := by
  induction digits generalizing n with
  | nil => exact le_rfl
  | cons c rest ih =>
    have hrest := ih (10 * n + digit c)
    rw [List.foldl_cons]
    omega

theorem parseDigits_eq {digits : List Char} (hd : ∀ c ∈ digits, c.isDigit = true) (n : Nat)
    (hsmall : digits.foldl (fun n c => 10 * n + digit c) n < 2 ^ 64) :
    parseDigits digits n = some (digits.foldl (fun n c => 10 * n + digit c) n) := by
  induction digits generalizing n with
  | nil => rfl
  | cons c rest ih =>
    rw [List.forall_mem_cons] at hd
    rw [List.foldl_cons] at hsmall ⊢
    have hge := foldl_digits_ge rest (10 * n + digit c)
    rw [parseDigits, if_pos hd.1, if_neg (by omega), ih hd.2 _ hsmall]

/-- A counter is parsed to its value. -/
theorem parseInt_eq {digits : List Char} (hne : digits ≠ []) (hd : ∀ c ∈ digits, c.isDigit = true)
    (hsmall : decimal digits < 2 ^ 63) : UInt64.ofInt (parseInt digits) = .ofNat (decimal digits) := by
  cases digits with
  | nil => exact absurd rfl hne
  | cons c rest =>
    have hc := hd c List.mem_cons_self
    have hminus : c ≠ '-' := by
      rintro rfl
      cases hc
    have hplus : c ≠ '+' := by
      rintro rfl
      cases hc
    have hparse : parseUint (c :: rest) = some (decimal (c :: rest)) := by
      rw [parseUint, if_neg hne]
      exact parseDigits_eq hd 0 (hsmall.trans (by decide))
    have hvalue : parseInt (c :: rest) = (decimal (c :: rest) : Int) := by
      have hmin : min (decimal (c :: rest)) (2 ^ 63 - 1) = decimal (c :: rest) := by omega
      have hneg : ¬ (c :: rest).head? = some '-' := fun h => hminus (Option.some.inj h)
      have hsign : ¬ ((c :: rest).head? = some '-' ∨ (c :: rest).head? = some '+') := fun h =>
        h.elim hneg fun h => hplus (Option.some.inj h)
      simp only [parseInt, if_neg hsign, hparse, if_neg hneg, hmin]
    rw [hvalue, UInt64.ofInt]
    congr 1
    omega

/-! ### Lines -/

theorem not_space {w : List Char} (h : w.any isSpace = false) : ∀ c ∈ w, isSpace c = false :=
  fun c hc => Bool.eq_false_iff.mpr (List.any_eq_false.mp h c hc)

theorem contains_iff {s substr : List Char} : contains s substr = true ↔ substr <:+: s := by
  rw [contains, decide_eq_true_iff]

theorem not_contains_iff {s substr : List Char} : contains s substr = false ↔ ¬ substr <:+: s := by
  rw [contains, decide_eq_false_iff_not]

theorem Interface.name_solid (f : Interface) :
    f.name ≠ [] ∧ ∀ c ∈ f.name, isSpace c = false := by
  have hmem : f.name ∈ f.label.content := by
    rw [f.named]
    exact List.mem_singleton_self _
  obtain ⟨w, hw, hname⟩ := List.mem_map.mp hmem
  rw [← hname]
  exact f.label.solid w hw

theorem Interface.colon_not_mem (f : Interface) : ':' ∉ f.label.text ∧ ':' ∉ f.counters.text := by
  constructor
  · intro hmem
    obtain ⟨w, hw, hc⟩ := f.label.mem_text (by decide) hmem
    rw [f.named, List.mem_singleton] at hw
    exact f.plain.1 (hw ▸ hc)
  · intro hmem
    obtain ⟨w, hw, hc⟩ := f.counters.mem_text (by decide) hmem
    cases (f.counts w hw).1 ':' hc

theorem Interface.bar_not_mem (f : Interface) : '|' ∉ f.line := by
  intro hmem
  rw [Interface.line, List.mem_append, List.mem_cons] at hmem
  rcases hmem with hmem | hmem | hmem
  · obtain ⟨w, hw, hc⟩ := f.label.mem_text (by decide) hmem
    rw [f.named, List.mem_singleton] at hw
    exact f.plain.2 (hw ▸ hc)
  · cases hmem
  · obtain ⟨w, hw, hc⟩ := f.counters.mem_text (by decide) hmem
    cases (f.counts w hw).1 '|' hc

theorem Interface.split_line (f : Interface) :
    f.line.splitOn ':' = [f.label.text, f.counters.text] := by
  rw [Interface.line, List.splitOn_append_cons_self_of_not_mem f.colon_not_mem.1,
    List.splitOn_eq_singleton f.colon_not_mem.2]

/-- What can be the name of a device: not empty, no space, no colon. -/
structure Plain (dev : List Char) : Prop where
  ne : dev ≠ []
  solid : ∀ c ∈ dev, isSpace c = false
  colon : ':' ∉ dev

theorem Interface.name_plain (f : Interface) : Plain f.name :=
  ⟨f.name_solid.1, f.name_solid.2, f.plain.1⟩

section Line

variable {dev : List Char} (hdev : Plain dev) (f : Interface)
include hdev

theorem infix_label : dev <:+: f.label.text ↔ dev <:+: f.name := by
  rw [f.label.infix_text hdev.ne hdev.solid, f.named]
  simp

theorem infix_counters :
    dev <:+: f.counters.text ↔ ∃ c ∈ f.counters.content, dev <:+: c :=
  f.counters.infix_text hdev.ne hdev.solid

theorem infix_line :
    dev <:+: f.line ↔ dev <:+: f.name ∨ ∃ c ∈ f.counters.content, dev <:+: c := by
  rw [Interface.line, infix_append_cons hdev.colon, infix_label hdev f, infix_counters hdev f]

end Line

/-! ### The columns carried along -/

/-- Values in other columns are passed over. -/
theorem readValues_skip {flow : Flow} {i : Int} {values : List (List Char)}
    (h : ∀ j, i ≤ j → j < i + values.length → flow.receive ≠ j ∧ flow.transmit ≠ j) :
    values.foldl readValue (flow, i) = (flow, i + values.length) := by
  induction values generalizing i with
  | nil => simp
  | cons value rest ih =>
    rw [List.length_cons] at h
    obtain ⟨hr, ht⟩ := h i (by omega) (by omega)
    rw [List.foldl_cons, readValue, if_neg hr, if_neg ht, ih fun j hj hlt => h j (by omega) (by omega),
      List.length_cons]
    congr 1
    omega

/-- Once the columns are known, the first and the ninth counter are read. -/
theorem readValues_counters {flow : Flow} (hr : flow.receive = 1) (ht : flow.transmit = 9)
    (f : Interface) : (f.counters.content.foldl readValue (flow, 1)).1 =
      ⟨1, 9, .ofInt (parseInt f.received), .ofInt (parseInt f.transmitted)⟩ := by
  obtain ⟨hseven, hseven'⟩ := f.sixteen
  rw [f.counted, List.foldl_cons, List.foldl_append, List.foldl_cons]
  have hfirst : readValue (flow, 1) f.received =
      (⟨1, 9, .ofInt (parseInt f.received), flow.transmitBytes⟩, 2) := by
    simp [readValue, hr, ht]
  have hmiddle : ∀ bytes, f.receivedRest.foldl readValue (⟨1, 9, bytes, flow.transmitBytes⟩, 2) =
      (⟨1, 9, bytes, flow.transmitBytes⟩, 9) := by
    intro bytes
    rw [readValues_skip, hseven]
    · rfl
    · intro j hj hlt
      simp only
      omega
  have hninth : ∀ bytes, readValue (⟨1, 9, bytes, flow.transmitBytes⟩, 9) f.transmitted =
      (⟨1, 9, bytes, .ofInt (parseInt f.transmitted)⟩, 10) := by
    intro bytes
    simp [readValue]
  have hlast : ∀ bytes bytes', f.transmittedRest.foldl readValue (⟨1, 9, bytes, bytes'⟩, 10) =
      (⟨1, 9, bytes, bytes'⟩, 17) := by
    intro bytes bytes'
    rw [readValues_skip, hseven']
    · rfl
    · intro j hj hlt
      simp only
      omega
  rw [hfirst, hmiddle, hninth, hlast]

/-- The name, found or read as one word, moves the column to 1. -/
theorem readField_label {flow : Flow} (hr : flow.receive ≠ 0) (ht : flow.transmit ≠ 0)
    (dev : List Char) (f : Interface) : readField dev (flow, 0) f.label.text = (flow, 1) := by
  rw [readField]
  split
  · rfl
  · rw [f.label.fields_text, f.named, readValues_skip]
    · rfl
    · intro j hj hlt
      obtain rfl : j = 0 := by
        simp only [List.length_singleton] at hlt
        omega
      exact ⟨hr, ht⟩

/-- A line of an interface without the device is passed over, also if it looks like a header. -/
theorem readHeader_interface (flow : Flow) (f : Interface) (h : contains f.line "face".toList = true) :
    readHeader flow f.line = flow := by
  rw [readHeader, List.splitOn_eq_singleton f.bar_not_mem, List.foldl_cons, List.foldl_nil,
    readTitles, if_pos h]

theorem received_parsed (f : Interface) :
    UInt64.ofInt (parseInt f.received) = .ofNat (decimal f.received) ∧
      UInt64.ofInt (parseInt f.transmitted) = .ofNat (decimal f.transmitted) := by
  have hmem : f.received ∈ f.counters.content ∧ f.transmitted ∈ f.counters.content := by
    rw [f.counted]
    simp
  have hne : ∀ c ∈ f.counters.content, c ≠ [] := fun c hc => by
    obtain ⟨w, hw, rfl⟩ := List.mem_map.mp hc
    exact (f.counters.solid w hw).1
  exact ⟨parseInt_eq (hne _ hmem.1) (f.counts _ hmem.1).1 (f.counts _ hmem.1).2,
    parseInt_eq (hne _ hmem.2) (f.counts _ hmem.2).1 (f.counts _ hmem.2).2⟩

/-- The state after a line of the interface was read for the device. -/
def readFlow (f : Interface) : Flow :=
  ⟨1, 9, .ofNat (decimal f.received), .ofNat (decimal f.transmitted)⟩

theorem readLine_interface {dev : List Char} (hdev : Plain dev) {flow : Flow}
    (hr : flow.receive = 1) (ht : flow.transmit = 9) (f : Interface) :
    readLine dev flow f.line = if Selected dev f then readFlow f else flow := by
  rw [readLine]
  cases hline : contains f.line dev with
  | false =>
    rw [not_contains_iff, infix_line hdev, not_or] at hline
    have hnot : ¬ Selected dev f := fun hsel => hline.1 hsel.1
    rw [if_neg (by simp), if_neg hnot]
    split
    · next hface => exact readHeader_interface flow f hface
    · rfl
  | true =>
    rw [contains_iff, infix_line hdev] at hline
    rw [if_pos rfl, readDevice, f.split_line, List.foldl_cons, List.foldl_cons, List.foldl_nil,
      readField_label (by omega) (by omega), readField]
    cases hcount : contains f.counters.text dev with
    | true =>
      rw [contains_iff, infix_counters hdev] at hcount
      have hnot : ¬ Selected dev f := fun hsel => by
        obtain ⟨c, hc, hin⟩ := hcount
        exact hsel.2 c hc hin
      rw [if_pos rfl, if_neg hnot]
    | false =>
      rw [not_contains_iff, infix_counters hdev] at hcount
      have hsel : Selected dev f :=
        ⟨hline.resolve_right hcount, fun c hc hin => hcount ⟨c, hc, hin⟩⟩
      rw [if_neg (by simp), if_pos hsel, f.counters.fields_text, readValues_counters hr ht,
        (received_parsed f).1, (received_parsed f).2, readFlow]

/-! ### Without columns -/

/-- As long as the columns are unknown, no field is read. -/
theorem readField_unset (dev field : List Char) {i : Int} (hi : 0 ≤ i) :
    ∃ j, 0 ≤ j ∧ readField dev (unset, i) field = (unset, j) := by
  rw [readField]
  split
  · exact ⟨1, by omega, rfl⟩
  · refine ⟨i + (fields isSpace field).length, by omega, readValues_skip fun j hj _ => ?_⟩
    simp only [unset]
    omega

theorem readDevice_unset (dev line : List Char) : readDevice dev unset line = unset := by
  have hfields : ∀ (parts : List (List Char)) (i : Int), 0 ≤ i →
      (parts.foldl (readField dev) (unset, i)).1 = unset := by
    intro parts
    induction parts with
    | nil => exact fun _ _ => rfl
    | cons part rest ih =>
      intro i hi
      obtain ⟨j, hj, hread⟩ := readField_unset dev part hi
      rw [List.foldl_cons, hread]
      exact ih j hj
  exact hfields _ 0 (by omega)

theorem readLine_unset (dev : List Char) (f : Interface) : readLine dev unset f.line = unset := by
  rw [readLine]
  split
  · exact readDevice_unset dev f.line
  · split
    · next hface => exact readHeader_interface unset f hface
    · rfl

/-! ### The header lines -/

/-- `readTitles` on the words of a field. -/
def scanTitles (s : Scan) (words : List (List Char)) : Scan :=
  if words.any fun word => contains word "face".toList then { s with index := 1 }
  else if words.any fun word => contains word "bytes".toList then words.foldl readTitle s
  else s

section Header

variable {titles : List (List (List Char))} (h : Header titles)
include h

/-- A pattern without bars and spaces stands in one of the titles. -/
theorem contains_header {p : List Char} (hp : p ≠ []) (hsp : ∀ c ∈ p, isSpace c = false)
    (hbar : '|' ∉ p) :
    contains h.line p = titles.any fun words => words.any fun word => contains word p := by
  rw [Bool.eq_iff_iff, contains_iff, Header.line, infix_intercalate hp hbar]
  simp only [← h.content, List.any_map, List.any_eq_true, List.mem_map, exists_exists_and_eq_and,
    Function.comp, contains_iff]
  refine exists_congr fun cell => and_congr_right fun _ => ?_
  exact cell.infix_text hp hsp

/-- The scan of a header line depends on its words only. -/
theorem readHeader_titles (hne : titles ≠ [])
    (hbar : ∀ words ∈ titles, ∀ word ∈ words, '|' ∉ word) (flow : Flow) :
    readHeader flow h.line = (titles.foldl scanTitles ⟨flow, 0, false⟩).flow := by
  have hcells : h.cells.map Spaced.text ≠ [] := by
    intro hnil
    rw [List.map_eq_nil_iff] at hnil
    exact hne (by rw [← h.content, hnil, List.map_nil])
  have hsplit : h.line.splitOn '|' = h.cells.map Spaced.text := by
    refine List.splitOn_intercalate '|' (fun text htext hmem => ?_) hcells
    obtain ⟨cell, hcell, rfl⟩ := List.mem_map.mp htext
    obtain ⟨word, hword, hc⟩ := cell.mem_text (by decide) hmem
    refine hbar cell.content ?_ word hword hc
    rw [← h.content]
    exact List.mem_map_of_mem hcell
  have hcontains : ∀ (cell : Words) {p : List Char}, p ≠ [] → (∀ c ∈ p, isSpace c = false) →
      contains cell.text p = cell.content.any fun word => contains word p := by
    intro cell p hp hsp
    rw [Bool.eq_iff_iff, contains_iff, cell.infix_text hp hsp]
    simp only [List.any_eq_true, contains_iff]
  rw [readHeader, hsplit, List.foldl_map]
  conv_rhs => rw [← h.content, List.foldl_map]
  congr 2
  funext s cell
  rw [readTitles, scanTitles, hcontains cell (by decide) (not_space (by decide)),
    hcontains cell (by decide) (not_space (by decide)), cell.fields_text]

end Header

/-- The first header line is passed over. -/
theorem readLine_top (dev : List Char) (h : Header topTitles) :
    readLine dev unset h.line = unset := by
  rw [readLine]
  split
  · exact readDevice_unset dev h.line
  · rw [contains_header h (by decide) (not_space (by decide)) (by decide), if_neg (by decide)]

/-- The second header line sets the columns, unless the device's name is found in it. -/
theorem readLine_columns (dev : List Char) (h : Header columnTitles) :
    readLine dev unset h.line = if contains h.line dev then unset else ⟨1, 9, 0, 0⟩ := by
  rw [readLine]
  split
  · exact readDevice_unset dev h.line
  · rw [contains_header h (by decide) (not_space (by decide)) (by decide), if_pos (by decide),
      readHeader_titles h (by decide) (by decide)]
    decide

/-! ### The whole file -/

theorem foldl_unset (dev : List Char) (fs : List Interface) :
    (fs.map Interface.line).foldl (readLine dev) unset = unset := by
  induction fs with
  | nil => rfl
  | cons f rest ih => rw [List.map_cons, List.foldl_cons, readLine_unset, ih]

/-- With the columns set, what is left is the last line that was read for the device. -/
theorem foldl_interfaces {dev : List Char} (hdev : Plain dev) (fs : List Interface) :
    (fs.map Interface.line).foldl (readLine dev) ⟨1, 9, 0, 0⟩ =
      ((fs.filter fun f => decide (Selected dev f)).getLast?.elim ⟨1, 9, 0, 0⟩ readFlow) := by
  induction fs using List.reverseRecOn with
  | nil => rfl
  | append_singleton fs f ih =>
    have hcols : ∀ o : Option Interface, (o.elim (⟨1, 9, 0, 0⟩ : Flow) readFlow).receive = 1 ∧
        (o.elim (⟨1, 9, 0, 0⟩ : Flow) readFlow).transmit = 9 := by
      intro o
      cases o with
      | none => exact ⟨rfl, rfl⟩
      | some f => exact ⟨rfl, rfl⟩
    rw [List.map_append, List.foldl_append, ih, List.map_singleton, List.foldl_cons, List.foldl_nil,
      readLine_interface hdev (hcols _).1 (hcols _).2, List.filter_append]
    by_cases hsel : Selected dev f
    · simp [hsel]
    · simp [hsel]

theorem split_lines {lines : List (List Char)} (h : ∀ line ∈ lines, '
' ∉ line) :
    (lines.flatMap fun line => line ++ ['
']).splitOn '
' = lines ++ [[]] := by
  induction lines with
  | nil => rfl
  | cons line rest ih =>
    rw [List.forall_mem_cons] at h
    rw [List.flatMap_cons, List.append_assoc, List.singleton_append,
      List.splitOn_append_cons_self_of_not_mem h.1, ih h.2, List.cons_append]

theorem NetDev.one_line (net : NetDev) : ∀ line ∈ net.lines, '
' ∉ line := by
  have hheader : ∀ {titles : List (List (List Char))} (h : Header titles), '
' ∉ h.line := by
    intro titles h hmem
    rw [Header.line, ← List.singleton_infix_iff, infix_intercalate (by simp) (by decide)] at hmem
    obtain ⟨text, htext, hin⟩ := hmem
    obtain ⟨cell, hcell, rfl⟩ := List.mem_map.mp htext
    exact h.oneLine cell hcell ((List.singleton_infix_iff _ _).mp hin)
  intro line hline
  rw [NetDev.lines, List.mem_cons, List.mem_cons, List.mem_map] at hline
  rcases hline with rfl | rfl | ⟨f, -, rfl⟩
  · exact hheader net.top
  · exact hheader net.columns
  · intro hmem
    rw [Interface.line, List.mem_append, List.mem_cons] at hmem
    rcases hmem with hmem | hmem | hmem
    · exact f.oneLine.1 hmem
    · cases hmem
    · exact f.oneLine.2 hmem

theorem readLine_empty {dev : List Char} (hdev : dev ≠ []) (flow : Flow) :
    readLine dev flow [] = flow := by
  have hno : contains [] dev = false := by
    rw [not_contains_iff, List.infix_nil]
    exact hdev
  rw [readLine, hno]
  rfl

/-- The result for a device: nothing if its name is in the header, else the counters of the last
interface selected. -/
theorem total_eq (net : NetDev) {dev : List Char} (hdev : Plain dev) :
    (totalFlowByDevice (some net.text) dev).toNat =
      if contains net.columns.line dev then 0 else (net.chosen dev).elim 0 Interface.total := by
  have hflow : (net.text.splitOn '
').foldl (readLine dev) unset =
      if contains net.columns.line dev then unset
      else (net.chosen dev).elim ⟨1, 9, 0, 0⟩ readFlow := by
    rw [NetDev.text, split_lines net.one_line, List.foldl_append, List.foldl_cons, List.foldl_nil,
      readLine_empty hdev.ne, NetDev.lines, List.foldl_cons, List.foldl_cons, readLine_top,
      readLine_columns]
    split
    · exact foldl_unset dev net.interfaces
    · exact foldl_interfaces hdev net.interfaces
  rw [totalFlowByDevice, hflow]
  split
  · rfl
  · cases net.chosen dev with
    | none => rfl
    | some f =>
      have hsmall : decimal f.received < 2 ^ 63 ∧ decimal f.transmitted < 2 ^ 63 := by
        constructor
        · exact (f.counts _ (by rw [f.counted]; simp)).2
        · exact (f.counts _ (by rw [f.counted]; simp)).2
      simp only [Option.elim, readFlow, Interface.total, UInt64.toNat_add, UInt64.toNat_ofNat']
      omega

/-- Words with one space before each. -/
def joined (ws : List (List Char)) (h : ∀ w ∈ ws, w ≠ [] ∧ ∀ c ∈ w, isSpace c = false) : Words where
  words := ws.map fun w => ([' '], w)
  trail := []
  gaps w hw c hc := by
    obtain ⟨v, -, rfl⟩ := List.mem_map.mp hw
    rw [List.mem_singleton.mp hc]
    rfl
  solid w hw := by
    obtain ⟨v, hv, rfl⟩ := List.mem_map.mp hw
    exact h v hv
  apart w hw := by
    obtain ⟨v, -, rfl⟩ := List.mem_map.mp (List.mem_of_mem_tail hw)
    simp
  blank c hc := by cases hc

theorem words_solid {ws : List (List Char)}
    (h : ws.all (fun w => !w.isEmpty && !w.any isSpace) = true) :
    ∀ w ∈ ws, w ≠ [] ∧ ∀ c ∈ w, isSpace c = false := by
  intro w hw
  obtain ⟨hne, hsp⟩ := Bool.and_eq_true_iff.mp (List.all_eq_true.mp h w hw)
  exact ⟨by simpa using hne, not_space (by simpa using hsp)⟩

theorem counts_small {ws : List (List Char)}
    (h : ws.all (fun w => w.all (·.isDigit) && decide (decimal w < 2 ^ 63)) = true) :
    ∀ w ∈ ws, (∀ d ∈ w, d.isDigit = true) ∧ decimal w < 2 ^ 63 := by
  intro w hw
  obtain ⟨hdigits, hsmall⟩ := Bool.and_eq_true_iff.mp (List.all_eq_true.mp h w hw)
  exact ⟨List.all_eq_true.mp hdigits, of_decide_eq_true hsmall⟩

/-- `eth1` with 10 bytes received and 20 transmitted. -/
def eth1 : Interface where
  name := "eth1".toList
  received := "10".toList
  receivedRest := List.replicate 7 "0".toList
  transmitted := "20".toList
  transmittedRest := List.replicate 7 "0".toList
  label := joined ["eth1".toList] (words_solid (by decide))
  counters := joined ("10".toList :: (List.replicate 7 "0".toList ++
    "20".toList :: List.replicate 7 "0".toList)) (words_solid (by decide))
  named := rfl
  counted := rfl
  sixteen := ⟨rfl, rfl⟩
  plain := by decide
  counts := counts_small (by decide)
  oneLine := by decide +kernel

/-- `eth10` with 300 bytes received and 400 transmitted. -/
def eth10 : Interface where
  name := "eth10".toList
  received := "300".toList
  receivedRest := List.replicate 7 "0".toList
  transmitted := "400".toList
  transmittedRest := List.replicate 7 "0".toList
  label := joined ["eth10".toList] (words_solid (by decide))
  counters := joined ("300".toList :: (List.replicate 7 "0".toList ++
    "400".toList :: List.replicate 7 "0".toList)) (words_solid (by decide))
  named := rfl
  counted := rfl
  sixteen := ⟨rfl, rfl⟩
  plain := by decide
  counts := counts_small (by decide)
  oneLine := by decide +kernel

def twoInterfaces : NetDev where
  top :=
    { cells := [joined ["Inter-".toList] (words_solid (by decide)),
        joined ["Receive".toList] (words_solid (by decide)),
        joined ["Transmit".toList] (words_solid (by decide))]
      content := rfl
      oneLine := by decide }
  columns :=
    { cells := [joined columnTitles[0] (words_solid (by decide)),
        joined columnTitles[1] (words_solid (by decide)),
        joined columnTitles[2] (words_solid (by decide))]
      content := rfl
      oneLine := by decide }
  interfaces := [eth1, eth10]
  distinct := by decide

end ProcNetDev
