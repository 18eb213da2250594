/-
`ws_livox/check_lidar_data.sh`: the counters of section 2, taken from
`/proc/net/snmp`, and the multicast group of section 3.
-/
import LivoxScripts.Sockets
import LivoxScripts.Text.Context

namespace LivoxScripts

open TextTools

namespace CheckLidarData

/-- `^Udp:` -/
def udpPattern : Regex := .seq .bol (.lit "Udp:".toList)

/-- What `awk` prints about a line of these words. -/
def counterLine (fields : List Text) : Text :=
  "     接收数据包: ".toList ++ (fields.getD 1 [] ++
    (", 错误: ".toList ++ (fields.getD 2 [] ++
      (", 丢弃: ".toList ++ fields.getD 3 []))))

/-- `grep -A 1 "^Udp:" | tail -1 | awk` -/
def udpCounters (snmp : Text) : Text :=
  unlines ((lines (tail1 (grepA 1 udpPattern snmp))).map
    fun l => counterLine (words l))

def multicastIp : Text := "224.1.1.5".toList

inductive GroupReport where
  | joined (firstLine : Text)
  | missing
deriving DecidableEq

def groupReport (ipMaddrShow : Text) : GroupReport :=
  if grepQ (.dotted multicastIp) ipMaddrShow then
    .joined (head1 (grep (.dotted multicastIp) ipMaddrShow))
  else .missing

end CheckLidarData

abbrev TableName := { t : Text // t ≠ [] ∧ ∀ c ∈ t, c.isAlphanum = true }

/-- A name that begins with no digit. -/
abbrev ColumnName :=
  { t : Text // (∀ c ∈ t, c.isAlphanum = true) ∧ ∃ c ∈ t.head?, c.isDigit = false }

/-- A table with its columns, each with its value. -/
structure SnmpTable where
  name : TableName
  columns : List (ColumnName × Int)

def valueText : Int → Text
  | .ofNat n => Nat.toDigits 10 n
  | .negSucc n => '-' :: Nat.toDigits 10 (n + 1)

namespace SnmpTable

def label (t : SnmpTable) : Text := t.name.1 ++ [':']

/-- The words of the first line. -/
def heading (t : SnmpTable) : List Text := t.columns.map (·.1.1)

/-- The words of the second line. -/
def values (t : SnmpTable) : List Text := t.columns.map (valueText ·.2)

def lines (t : SnmpTable) : List Text :=
  [column t.label t.heading, column t.label t.values]

end SnmpTable

def udpName : Text := "Udp".toList

/-- The tables of the file, with the one of UDP among them. -/
structure Snmp where
  before : List SnmpTable
  udp : SnmpTable
  after : List SnmpTable
  udp_name : udp.name.1 = udpName
  others : ∀ t ∈ before ++ after, t.name.1 ≠ udpName
  counted : udp.columns ≠ []

namespace Snmp

def text (s : Snmp) : Text :=
  unlines ((s.before ++ s.udp :: s.after).flatMap SnmpTable.lines)

/-- The words of the line that `awk` sees: the values of the table, or the
heading of the table after it. -/
def shown (s : Snmp) : List Text :=
  match s.after with
  | [] => s.udp.label :: s.udp.values
  | t :: _ => t.label :: t.heading

end Snmp

variable {s : Snmp} {t : SnmpTable}

/-- The characters of the words in the file. -/
def isTableChar (c : Char) : Bool := c.isAlphanum || c == '-' || c == ':'

theorem ne_of_isTableChar {c d : Char} (hc : isTableChar c = true)
    (hd : isTableChar d = false) : c ≠ d := by
  rintro rfl
  simp [hc] at hd

theorem isTableChar_of_isAlphanum {c : Char} (hc : c.isAlphanum = true) :
    isTableChar c = true := by
  simp [isTableChar, hc]

/-- A number is a run of digits, with or without a minus sign before it. -/
theorem valueText_chars (v : Int) :
    valueText v ≠ [] ∧ ∀ c ∈ valueText v, c = '-' ∨ c.isDigit = true := by
  have hdigits : ∀ n, ∀ c ∈ Nat.toDigits 10 n, c = '-' ∨ c.isDigit = true :=
    fun n c hc => Or.inr
      (Nat.isDigit_of_mem_toDigits (by decide) (by decide) hc)
  cases v with
  | ofNat n => exact ⟨Nat.toDigits_ne_nil, hdigits n⟩
  | negSucc n =>
      refine ⟨List.cons_ne_nil _ _, fun c hc => ?_⟩
      rcases List.mem_cons.mp hc with hc | hc
      · exact Or.inl hc
      · exact hdigits _ c hc

/-- A name of a column is no number. -/
theorem columnName_ne_valueText (w : ColumnName) (v : Int) :
    w.1 ≠ valueText v := by
  intro h
  obtain ⟨hall, c, hc, hletter⟩ := w.2
  have hmem := List.mem_of_mem_head? hc
  rcases (valueText_chars v).2 c (h ▸ hmem) with rfl | hdigit
  · exact absurd (hall '-' hmem) (by decide)
  · exact absurd hdigit (by simp [hletter])

theorem mem_words {w : Text}
    (hw : w ∈ t.label :: t.heading ∨ w ∈ t.label :: t.values) :
    w ≠ [] ∧ ∀ c ∈ w, isTableChar c = true := by
  have hlabel : t.label ≠ [] ∧ ∀ c ∈ t.label, isTableChar c = true := by
    refine ⟨by simp [SnmpTable.label], fun c hc => ?_⟩
    rcases List.mem_append.mp hc with hc | hc
    · exact isTableChar_of_isAlphanum (t.name.2.2 c hc)
    · rw [List.mem_singleton.mp hc]
      rfl
  rcases hw with hw | hw
  · rcases List.mem_cons.mp hw with rfl | hw
    · exact hlabel
    · obtain ⟨⟨name, v⟩, -, rfl⟩ := List.mem_map.mp hw
      obtain ⟨hall, c, hc, -⟩ := name.2
      refine ⟨?_, fun d hd => isTableChar_of_isAlphanum (hall d hd)⟩
      exact List.ne_nil_of_mem (List.mem_of_mem_head? hc)
  · rcases List.mem_cons.mp hw with rfl | hw
    · exact hlabel
    · obtain ⟨⟨name, v⟩, -, rfl⟩ := List.mem_map.mp hw
      obtain ⟨hne, hchars⟩ := valueText_chars v
      refine ⟨hne, fun c hc => ?_⟩
      rcases hchars c hc with rfl | hdigit
      · rfl
      · exact isTableChar_of_isAlphanum (by simp [Char.isAlphanum, hdigit])

/-- A line of a table, as words and as text. -/
theorem column_label {rest : List Text}
    (hrest : ∀ w ∈ t.label :: rest, w ≠ [] ∧ ∀ c ∈ w, isTableChar c = true) :
    words (column t.label rest) = t.label :: rest ∧
      '\n' ∉ column t.label rest ∧
        ∃ more, column t.label rest = t.name.1 ++ ':' :: more := by
  have hblank : ∀ c, isTableChar c = true → isBlank c = false := by
    intro c hc
    have hspace := ne_of_isTableChar (d := ' ') hc (by decide)
    have htab := ne_of_isTableChar (d := '\t') hc (by decide)
    simp [isBlank, hspace, htab]
  have hnewline : ∀ w ∈ t.label :: rest, '\n' ∉ w := fun w hw hin =>
    ne_of_isTableChar (d := '\n') ((hrest w hw).2 _ hin) (by decide) rfl
  refine ⟨words_column fun w hw => ⟨(hrest w hw).1, fun c hc =>
    hblank c ((hrest w hw).2 c hc)⟩, fun hmem => ?_, rest.flatMap (' ' :: ·),
    by simp [column, SnmpTable.label]⟩
  rcases List.mem_append.mp hmem with hmem | hmem
  · exact hnewline _ List.mem_cons_self hmem
  · obtain ⟨w, hw, hmem⟩ := List.mem_flatMap.mp hmem
    rcases List.mem_cons.mp hmem with hmem | hmem
    · exact absurd hmem (by decide)
    · exact hnewline w (List.mem_cons_of_mem _ hw) hmem

theorem words_heading (t : SnmpTable) :
    words (column t.label t.heading) = t.label :: t.heading :=
  (column_label fun _ hw => mem_words (Or.inl hw)).1

theorem words_values (t : SnmpTable) :
    words (column t.label t.values) = t.label :: t.values :=
  (column_label fun _ hw => mem_words (Or.inr hw)).1

theorem line_of_table {l : Text} (hl : l ∈ t.lines) :
    '\n' ∉ l ∧ ∃ more, l = t.name.1 ++ ':' :: more := by
  rcases List.mem_cons.mp hl with rfl | hl
  · exact (column_label fun _ hw => mem_words (Or.inl hw)).2
  · obtain rfl := List.mem_singleton.mp hl
    exact (column_label fun _ hw => mem_words (Or.inr hw)).2

/-- The search finds the lines of the table of UDP. -/
theorem search_udp {l : Text} (hl : l ∈ t.lines) :
    CheckLidarData.udpPattern.search true l = true ↔ t.name.1 = udpName := by
  obtain ⟨-, more, rfl⟩ := line_of_table hl
  have hcolon : ∀ w : Text, (∀ c ∈ w, c.isAlphanum = true) → ':' ∉ w :=
    fun w hw hmem => absurd (hw ':' hmem) (by decide)
  have hname : ':' ∉ t.name.1 := hcolon _ t.name.2.2
  rw [CheckLidarData.udpPattern, Regex.search_bol_lit]
  constructor
  · rintro ⟨rest, hrest⟩
    have hsplit : udpName ++ ':' :: rest = t.name.1 ++ ':' :: more := hrest
    exact (eq_of_append_cons (by decide) hname hsplit).symm
  · intro hudp
    rw [hudp]
    exact ⟨more, rfl⟩

theorem lines_text (s : Snmp) : lines s.text =
    (s.before ++ s.udp :: s.after).flatMap SnmpTable.lines := by
  apply lines_unlines
  intro l hl
  obtain ⟨t, -, hl⟩ := List.mem_flatMap.mp hl
  exact (line_of_table hl).1

/-- `awk` sees one line: the first one after the table of UDP, or the last one
of the table if there is no other. -/
theorem udpCounters_text (s : Snmp) :
    CheckLidarData.udpCounters s.text =
      unlines [CheckLidarData.counterLine s.shown] := by
  have hlines : lines s.text =
      (s.before.flatMap SnmpTable.lines ++ [column s.udp.label s.udp.heading]) ++
        column s.udp.label s.udp.values :: s.after.flatMap SnmpTable.lines := by
    simp [lines_text, SnmpTable.lines]
  have hvalues : column s.udp.label s.udp.values ∈ s.udp.lines := by
    simp [SnmpTable.lines]
  have hafter : ∀ l ∈ s.after.flatMap SnmpTable.lines,
      CheckLidarData.udpPattern.search true l = false := by
    intro l hl
    obtain ⟨t, ht, hl⟩ := List.mem_flatMap.mp hl
    rw [Bool.eq_false_iff, ne_eq, search_udp hl]
    exact s.others t (List.mem_append_right _ ht)
  have hshown : (words (((s.after.flatMap SnmpTable.lines).take 1).getLast?.getD
      (column s.udp.label s.udp.values))) = s.shown := by
    rw [Snmp.shown]
    cases s.after with
    | nil => exact words_values s.udp
    | cons t ts => exact words_heading t
  rw [CheckLidarData.udpCounters, lines_tail1_grepA hlines
    ((search_udp hvalues).mpr s.udp_name) hafter, List.map_singleton, hshown]

/-- What is shown as the first counter stands before the first comma. -/
theorem firstCounter_eq {label label' w w' : Text} {rest rest' : List Text}
    (hw : ',' ∉ w) (hw' : ',' ∉ w')
    (h : CheckLidarData.counterLine (label :: w :: rest) =
      CheckLidarData.counterLine (label' :: w' :: rest')) : w = w' :=
  eq_of_append_cons hw hw' (List.append_cancel_left h)

/-- One line is shown: the counters of UDP exactly when their table is the last
one, else the names of columns of the table after it. -/
theorem udpCounters_shows (s : Snmp) :
    CheckLidarData.udpCounters s.text =
        unlines [CheckLidarData.counterLine s.shown] ∧
      (CheckLidarData.counterLine s.shown =
          CheckLidarData.counterLine (s.udp.label :: s.udp.values) ↔
        s.after = []) := by
  have hcomma : ∀ w : Text, (∀ c ∈ w, isTableChar c = true) → ',' ∉ w :=
    fun w hw hmem => ne_of_isTableChar (hw _ hmem) (by decide) rfl
  refine ⟨udpCounters_text s, fun hline => ?_, fun hlast => ?_⟩
  · cases hafter : s.after with
    | nil => rfl
    | cons t ts =>
        obtain ⟨⟨name, v⟩, rest, hcolumns⟩ :=
          List.exists_cons_of_ne_nil s.counted
        have hvalues : s.udp.values =
            valueText v :: rest.map (valueText ·.2) := by
          rw [SnmpTable.values, hcolumns]
          rfl
        have hvalue : ',' ∉ valueText v := hcomma _ (mem_words (t := s.udp)
          (Or.inr (by simp [hvalues]))).2
        rw [Snmp.shown, hafter, hvalues] at hline
        cases hheading : t.heading with
        | nil =>
            have hempty : CheckLidarData.counterLine (t.label :: t.heading) =
                CheckLidarData.counterLine [t.label, []] := by rw [hheading]; rfl
            have hfirst := firstCounter_eq List.not_mem_nil hvalue
              (hempty.symm.trans hline)
            exact absurd hfirst.symm (valueText_chars v).1
        | cons w ws =>
            have hmem : w ∈ t.heading := by simp [hheading]
            obtain ⟨column, -, rfl⟩ := List.mem_map.mp hmem
            have hword : ',' ∉ column.1.1 := hcomma _ (mem_words (t := t)
              (Or.inl (by simp [hheading]))).2
            simp only [hheading] at hline
            exact absurd (firstCounter_eq hword hvalue hline)
              (columnName_ne_valueText _ v)
  · rw [Snmp.shown, hlast]

theorem isTableName {t : Text} (hne : t ≠ []) (hall : t.all Char.isAlphanum) :
    t ≠ [] ∧ ∀ c ∈ t, c.isAlphanum = true :=
  ⟨hne, fun c hc => List.all_eq_true.mp hall c hc⟩

theorem isColumnName {t : Text} (hall : t.all Char.isAlphanum)
    (hhead : t.head?.any fun c => !c.isDigit) :
    (∀ c ∈ t, c.isAlphanum = true) ∧ ∃ c ∈ t.head?, c.isDigit = false :=
  ⟨fun c hc => List.all_eq_true.mp hall c hc, by
    simpa [Option.any_eq_true] using hhead⟩

/-- The first columns of a table of datagrams, with their values. -/
def datagramColumns (received noPorts errors : Int) :
    List (ColumnName × Int) :=
  [(⟨"InDatagrams".toList, isColumnName (by decide) (by decide)⟩, received),
    (⟨"NoPorts".toList, isColumnName (by decide) (by decide)⟩, noPorts),
    (⟨"InErrors".toList, isColumnName (by decide) (by decide)⟩, errors)]

def udpTable : SnmpTable where
  name := ⟨udpName, isTableName (by decide) (by decide)⟩
  columns := datagramColumns 5120 12 3

def udpLiteTable : SnmpTable where
  name := ⟨"UdpLite".toList, isTableName (by decide) (by decide)⟩
  columns := datagramColumns 0 0 0

theorem udpLiteTable_ne_udp : ∀ t ∈ [] ++ [udpLiteTable], t.name.1 ≠ udpName := by
  decide

/-- The last tables of `/proc/net/snmp`. -/
def udpSnmp : Snmp where
  before := []
  udp := udpTable
  after := [udpLiteTable]
  udp_name := rfl
  others := udpLiteTable_ne_udp
  counted := List.cons_ne_nil _ _

example : CheckLidarData.udpCounters udpSnmp.text =
    "     接收数据包: InDatagrams, 错误: NoPorts, 丢弃: InErrors\n".toList := by
  decide +kernel

end LivoxScripts
