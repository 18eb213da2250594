/-
The neighbour table as `arp -a` prints it, and what the scripts' patterns find
in its lines.
-/
import LivoxScripts.Address

namespace LivoxScripts

open TextTools

/-- The digits of a MAC address. -/
def hexDigits : List Char := "0123456789abcdef".toList

def isHexDigit (c : Char) : Bool := hexDigits.contains c

abbrev HexDigit := { c : Char // isHexDigit c = true }

abbrev HexByte := HexDigit × HexDigit

def HexByte.text (b : HexByte) : Text := [b.1.1, b.2.1]

/-- Bytes with a colon between any two of them. -/
def bytesText (bytes : List HexByte) : Text :=
  [':'].intercalate (bytes.map HexByte.text)

/-- A MAC address of six bytes. -/
abbrev Mac := { bytes : List HexByte // bytes.length = 6 }

def hexDigit (n : Fin 16) : HexDigit :=
  ⟨hexDigits.get n, by
    rw [isHexDigit, List.contains_iff_mem]
    exact List.get_mem hexDigits n⟩

def byteOf (n : Nat) : HexByte :=
  (hexDigit (Fin.ofNat 16 (n / 16)), hexDigit (Fin.ofNat 16 n))

def macOf (a b c d e f : Nat) : Mac := ⟨[a, b, c, d, e, f].map byteOf, rfl⟩

def Mac.text (m : Mac) : Text := bytesText m.1

/-- The first two bytes, which name the vendor to the scripts. -/
def Mac.vendor (m : Mac) : Text := bytesText (m.1.take 2)

def incompleteWord : Text := "incomplete".toList

/-- A character of a host or an interface name.  The backslash, which the kernel
allows in the name of an interface, is left out as a restriction: the loop over
the table reads its lines without `-r`, which drops backslashes. -/
def isNameByte (c : Char) : Bool := !" \t\n:\\".toList.contains c

/-- The name of a neighbour: `?`, or the one the resolver has for it. -/
abbrev HostName := { t : Text // (t ≠ [] ∧ ∀ c ∈ t, isNameByte c = true) ∧
  NoQuad t ∧ ¬ incompleteWord <:+: t }

abbrev InterfaceName :=
  { t : Text // t ≠ [] ∧ ∀ c ∈ t, isNameByte c = true }

/-- The host column of a neighbour without a name. -/
def unnamed : HostName :=
  ⟨['?'], ⟨by decide, by simp [isNameByte]⟩, noQuad_of_no_dot (by decide),
    fun h => absurd (h.subset (show 'i' ∈ incompleteWord by decide)) (by decide)⟩

def eth0 : InterfaceName :=
  ⟨"eth0".toList, by decide, by simp [isNameByte]⟩

structure Neighbor where
  host : HostName
  address : Quad
  iface : InterfaceName

/-- A neighbour whose MAC address is known. -/
structure Resolved extends Neighbor where
  mac : Mac

inductive ArpEntry where
  | complete (entry : Resolved)
  | incomplete (neighbor : Neighbor)

/-- `HOST (A) at` and, after what is known of the MAC, `on IFACE` -/
def Neighbor.line (n : Neighbor) (mac : Text) : Text :=
  n.host.1 ++ ' ' :: ("(".toList ++ (n.address.text ++ ')' ::
    (" at".toList ++ ' ' :: (mac ++ (" on".toList ++ ' ' :: n.iface.1)))))

def Resolved.line (e : Resolved) : Text :=
  e.toNeighbor.line (e.mac.text ++ " [ether]".toList)

def ArpEntry.line : ArpEntry → Text
  | complete entry => entry.line
  | incomplete neighbor => neighbor.line "<incomplete>".toList

/-- `arp -a` -/
def arp (table : List ArpEntry) : Text := unlines (table.map ArpEntry.line)

def ArpEntry.neighbor : ArpEntry → Neighbor
  | complete entry => entry.toNeighbor
  | incomplete neighbor => neighbor

def ArpEntry.resolved? : ArpEntry → Option Resolved
  | complete entry => some entry
  | incomplete _ => none

/-- The complete entries, in the order of the table. -/
def resolved (table : List ArpEntry) : List Resolved :=
  table.filterMap ArpEntry.resolved?

/-- The addresses that stand in a text. -/
def quadsIn (t : Text) : List Text := quadPattern.onlyMatching .perl t

/-- `[0-9a-f]{2}` -/
def hexByte : Regex := .seq (.cls isHexDigit) (.cls isHexDigit)

/-- `([0-9a-f]{2}:){n}[0-9a-f]{2}` -/
def hexBytes : Nat → Regex
  | 0 => hexByte
  | n + 1 => .seq hexByte (.seq (.lit [':']) (hexBytes n))

/-- `([0-9a-f]{2}:){5}[0-9a-f]{2}` -/
def macPattern : Regex := hexBytes 5

/-- `arp -a | grep "$ip" | grep -oP '([0-9a-f]{2}:){5}[0-9a-f]{2}' | head -1`,
captured -/
def macLookup (arpTable ip : Text) : Text :=
  commandSubst (head1 (grepO .perl macPattern (grep (.dotted ip) arpTable)))

theorem bytesText_cons (b : HexByte) (bytes : List HexByte)
    (hne : bytes ≠ []) :
    bytesText (b :: bytes) = b.text ++ ':' :: bytesText bytes := by
  obtain ⟨c, cs, rfl⟩ := List.exists_cons_of_ne_nil hne
  simp [bytesText, List.intercalate]

theorem splitOn_bytesText {bytes : List HexByte} (hne : bytes ≠ []) :
    (bytesText bytes).splitOn ':' = bytes.map HexByte.text := by
  apply List.splitOn_intercalate
  · intro t ht hmem
    obtain ⟨b, -, rfl⟩ := List.mem_map.mp ht
    have hcolon : ∀ d : HexDigit, ':' ≠ d.1 := by
      intro d hd
      exact absurd (hd ▸ d.2) (by decide)
    simp [HexByte.text, hcolon] at hmem
  · simpa using hne

theorem Mac.bytes_ne_nil (m : Mac) : m.1 ≠ [] :=
  List.ne_nil_of_length_eq_add_one m.2

theorem Mac.text_injective {m m' : Mac} (h : m.text = m'.text) : m = m' := by
  have hbytes : m.1.map HexByte.text = m'.1.map HexByte.text := by
    rw [← splitOn_bytesText m.bytes_ne_nil, ← splitOn_bytesText m'.bytes_ne_nil]
    exact congrArg (List.splitOn ':') h
  refine Subtype.ext (List.map_injective_iff.mpr ?_ hbytes)
  intro b b' hb
  simp only [HexByte.text, List.cons.injEq, and_true] at hb
  exact Prod.ext (Subtype.ext hb.1) (Subtype.ext hb.2)

theorem isHexDigit_or_colon_of_mem {bytes : List HexByte} {c : Char}
    (hc : c ∈ bytesText bytes) : isHexDigit c = true ∨ c = ':' := by
  have hbyte : ∀ b : HexByte, c ∈ b.text → isHexDigit c = true := by
    intro b hmem
    simp only [HexByte.text, List.mem_cons, List.not_mem_nil, or_false] at hmem
    rcases hmem with rfl | rfl
    · exact b.1.2
    · exact b.2.2
  induction bytes with
  | nil => simp [bytesText, List.intercalate] at hc
  | cons b bytes ih =>
      by_cases hne : bytes = []
      · subst hne
        exact Or.inl (hbyte b (by simpa [bytesText, List.intercalate] using hc))
      · rw [bytesText_cons b bytes hne, List.mem_append, List.mem_cons] at hc
        rcases hc with hc | rfl | hc
        · exact Or.inl (hbyte b hc)
        · exact Or.inr rfl
        · exact ih hc

theorem not_mem_mac {c : Char} (hc : isHexDigit c = false) (hcolon : c ≠ ':')
    (m : Mac) : c ∉ m.text := by
  intro hmem
  rcases isHexDigit_or_colon_of_mem hmem with h | h
  · simp [h] at hc
  · exact hcolon h

theorem not_mem_name {c : Char} {t : Text}
    (ht : ∀ d ∈ t, isNameByte d = true) (hc : isNameByte c = false) :
    c ∉ t := fun hmem => by
  simp [ht c hmem] at hc

/-- A character that neither names nor addresses hold. -/
theorem not_mem_line {c : Char} (hname : isNameByte c = false)
    (haddress : isAddressChar c = false)
    (hfixed : c ∉ " ()aton".toList) {mac : Text} (hmac : c ∉ mac)
    (n : Neighbor) : c ∉ n.line mac := by
  have hhost := not_mem_name n.host.2.1.2 hname
  have hiface := not_mem_name n.iface.2.2 hname
  have htext := not_mem_text haddress n.address
  simp only [String.reduceToList, List.mem_cons, List.not_mem_nil, or_false,
    not_or] at hfixed
  obtain ⟨hblank, hopen, hclose, ha, ht, ho, hn⟩ := hfixed
  simp [Neighbor.line, hhost, hiface, htext, hmac, hblank, hopen, hclose, ha,
    ht, ho, hn]

theorem not_mem_entry {c : Char} (hc : c ∈ "\n\\".toList)
    (entry : ArpEntry) : c ∉ entry.line := by
  have hall : isNameByte c = false ∧ isAddressChar c = false ∧
      c ∉ " ()aton".toList ∧ isHexDigit c = false ∧ c ≠ ':' ∧
      c ∉ " [ether]".toList ∧ c ∉ "<incomplete>".toList := by
    simp only [String.reduceToList, List.mem_cons, List.not_mem_nil,
      or_false] at hc
    rcases hc with rfl | rfl <;> decide
  obtain ⟨hname, haddress, hfixed, hhex, hcolon, hether, hword⟩ := hall
  cases entry with
  | complete entry =>
      refine not_mem_line hname haddress hfixed ?_ _
      rw [List.mem_append, not_or]
      exact ⟨not_mem_mac hhex hcolon _, hether⟩
  | incomplete neighbor => exact not_mem_line hname haddress hfixed hword _

@[simp] theorem lines_arp (table : List ArpEntry) :
    lines (arp table) = table.map ArpEntry.line := by
  apply lines_unlines
  intro l hl
  obtain ⟨entry, -, rfl⟩ := List.mem_map.mp hl
  exact not_mem_entry (by decide) entry

/-- A word without blanks stands in one of the columns. -/
theorem infix_line_iff {w mac : Text} (hblank : ' ' ∉ w) (n : Neighbor)
    (haddress : ¬ w <:+: "(".toList ++ (n.address.text ++ ")".toList))
    (hfixed : ¬ w <:+: "at".toList ∧ ¬ w <:+: "on".toList) :
    w <:+: n.line mac ↔
      w <:+: n.host.1 ∨ w <:+: mac ∨ w <:+: n.iface.1 := by
  have hline : n.line mac = n.host.1 ++ ' ' ::
      (("(".toList ++ (n.address.text ++ ")".toList)) ++ ' ' ::
        ("at".toList ++ ' ' :: (mac ++ ' ' ::
          ("on".toList ++ ' ' :: n.iface.1)))) := by
    simp [Neighbor.line]
  rw [hline]
  simp only [infix_append_cons_iff hblank, haddress, hfixed, false_or]

theorem mem_lang_hexByte {w : Text} :
    w ∈ hexByte.lang ↔ ∃ b : HexByte, w = b.text := by
  constructor
  · rintro ⟨_, ⟨c, hc, rfl⟩, _, ⟨d, hd, rfl⟩, rfl⟩
    exact ⟨(⟨c, hc⟩, ⟨d, hd⟩), rfl⟩
  · rintro ⟨b, rfl⟩
    exact ⟨_, ⟨_, b.1.2, rfl⟩, _, ⟨_, b.2.2, rfl⟩, rfl⟩

/-- Every match has a colon after two digits. -/
theorem mem_lang_macPattern {w : Text} (hw : w ∈ macPattern.lang) :
    ∃ (b : HexByte) (v : Text), w = b.text ++ ':' :: v := by
  obtain ⟨u, hu, v, ⟨x, hx, v', -, rfl⟩, rfl⟩ := hw
  obtain ⟨b, rfl⟩ := mem_lang_hexByte.mp hu
  rw [Regex.lang_lit] at hx
  obtain rfl : x = [':'] := hx
  exact ⟨b, v', rfl⟩

/-- Two digits and a colon do not begin at or before a blank that no colon
precedes. -/
theorem not_prefix_of_blank {s : Text} (hcolon : ':' ∉ s) (b : HexByte)
    (x more : Text) : ¬ b.text ++ ':' :: x <+: s ++ ' ' :: more := by
  have hblank : ∀ d : HexDigit, d.1 ≠ ' ' := by
    intro d hd
    exact absurd (hd ▸ d.2) (by decide)
  intro hpre
  cases s with
  | nil => exact hblank b.1 (List.cons_prefix_cons.mp hpre).1
  | cons c s =>
      have hpre := (List.cons_prefix_cons.mp hpre).2
      cases s with
      | nil => exact hblank b.2 (List.cons_prefix_cons.mp hpre).1
      | cons d s =>
          have hpre := (List.cons_prefix_cons.mp hpre).2
          cases s with
          | nil => exact absurd (List.cons_prefix_cons.mp hpre).1 (by decide)
          | cons e s =>
              obtain ⟨rfl, -⟩ := List.cons_prefix_cons.mp hpre
              exact hcolon (by simp)

theorem hexBytes_plain (n : Nat) : (hexBytes n).Plain := by
  induction n with
  | zero => exact ⟨trivial, trivial⟩
  | succ n ih => exact ⟨⟨trivial, trivial⟩, ⟨trivial, trivial⟩, ih⟩

theorem run_hexByte (b : HexByte) (atStart : Bool) (lead body rest : Text) :
    hexByte.run atStart ⟨lead, body, b.text ++ rest⟩ =
      [⟨lead, body ++ b.text, rest⟩] := by
  simp [hexByte, Regex.run, HexByte.text, b.1.2, b.2.2]

theorem run_hexBytes (n : Nat) {bytes : List HexByte}
    (hlength : bytes.length = n + 1) (atStart : Bool)
    (lead body rest : Text) :
    (hexBytes n).run atStart ⟨lead, body, bytesText bytes ++ rest⟩ =
      [⟨lead, body ++ bytesText bytes, rest⟩] := by
  induction n generalizing bytes body with
  | zero =>
      obtain ⟨b, rfl⟩ := List.length_eq_one_iff.mp hlength
      simpa [hexBytes, bytesText, List.intercalate] using
        run_hexByte b atStart lead body rest
  | succ n ih =>
      obtain ⟨b, tail, rfl⟩ := List.exists_cons_of_length_eq_add_one hlength
      have htail : tail.length = n + 1 := by simpa using hlength
      have hne : tail ≠ [] := List.ne_nil_of_length_eq_add_one htail
      have hcolon := Regex.run_lit_append [':'] atStart lead
        (body ++ b.text) (bytesText tail ++ rest)
      rw [List.singleton_append] at hcolon
      rw [bytesText_cons b tail hne, hexBytes, Regex.run, List.append_assoc,
        run_hexByte, List.flatMap_singleton, Regex.run, List.cons_append,
        hcolon, List.flatMap_singleton, ih htail]
      simp

theorem macPattern_plain : macPattern.Plain := hexBytes_plain 5

/-- Without a colon there is no MAC address. -/
theorem onlyMatching_mac_eq_nil {t : Text} (h : ':' ∉ t) (f : Flavor) :
    macPattern.onlyMatching f t = [] := by
  apply Regex.onlyMatching_eq_nil macPattern_plain
  intro w hw hin
  obtain ⟨b, v, rfl⟩ := mem_lang_macPattern hw
  exact h (hin.subset (by simp))

/-- A MAC address between texts without colons is found. -/
theorem onlyMatching_mac {u v : Text} (hu : ':' ∉ u) (hv : ':' ∉ v)
    (f : Flavor) (m : Mac) :
    macPattern.onlyMatching f ((u ++ [' ']) ++ (m.text ++ v)) = [m.text] := by
  have hrun := run_hexBytes 5 m.2 false [] [] v
  have hne : m.text ≠ [] := by
    obtain ⟨b, tail, hbytes⟩ := List.exists_cons_of_length_eq_add_one m.2
    cases tail with
    | nil => simp [Mac.text, hbytes, bytesText, HexByte.text]
    | cons c tail =>
        rw [Mac.text, hbytes, bytesText_cons b (c :: tail) (by simp)]
        simp
  have hmatch : macPattern.matchAt f false (m.text ++ v) =
      some ⟨[], m.text, v⟩ := Regex.matchAt_of_run_singleton hrun hne f
  have hrest := onlyMatching_mac_eq_nil hv f
  rw [Regex.onlyMatching, Regex.scan_plain macPattern_plain f true false]
    at hrest
  rw [Regex.onlyMatching, Regex.scan_plain macPattern_plain f true false,
    Regex.scan_passed, Regex.scan_of_matchAt hmatch]
  · simp [Piece.reported, hrest, Mac.text]
  · intro t ht hnil
    apply Regex.matchAt_eq_none macPattern_plain
    intro w hw hpre
    obtain ⟨b, x, rfl⟩ := mem_lang_macPattern hw
    rcases List.suffix_concat_iff.mp ht with rfl | ⟨s, rfl, hs⟩
    · exact hnil rfl
    · have hcolon : ':' ∉ s := fun hmem => hu (hs.subset hmem)
      apply not_prefix_of_blank hcolon b x (m.text ++ v)
      simpa using hpre

/-- The address of a line, then whatever the interface name holds. -/
theorem quadsIn_line {mac : Text} (hmac : '.' ∉ mac) (n : Neighbor) :
    quadsIn (n.line mac) = n.address.text :: quadsIn n.iface.1 := by
  have hopen : ∀ c ∈ "(".toList, isAddressChar c = false := by
    intro c hc
    obtain rfl : c = '(' := by simpa using hc
    decide
  have hmiddle : NoQuad (" at".toList ++ ' ' :: (mac ++ " on".toList)) :=
    noQuad_of_no_dot (by simp [hmac])
  have hrest : " at".toList ++ ' ' :: (mac ++ (" on".toList ++ ' ' ::
      n.iface.1)) =
      (" at".toList ++ ' ' :: (mac ++ " on".toList)) ++ ' ' :: n.iface.1 := by
    simp
  rw [quadsIn, quadsIn, Neighbor.line,
    onlyMatching_quad_append (by decide : isAddressChar ' ' = false),
    onlyMatching_of_noQuad n.host.2.2.1, List.nil_append,
    onlyMatching_quad_skip hopen,
    onlyMatching_quad_append (by decide : isAddressChar ')' = false),
    onlyMatching_quad, hrest,
    onlyMatching_quad_append (by decide : isAddressChar ' ' = false),
    onlyMatching_of_noQuad hmiddle]
  rfl

theorem quadsIn_resolved (e : Resolved) :
    quadsIn e.line = e.address.text :: quadsIn e.iface.1 := by
  apply quadsIn_line
  rw [List.mem_append, not_or]
  exact ⟨not_mem_mac (by decide) (by decide) _, by decide⟩

/-- The MAC address is all that is found of a complete entry, and nothing is
found of an incomplete one. -/
theorem onlyMatching_mac_entry (f : Flavor) (entry : ArpEntry) :
    macPattern.onlyMatching f entry.line =
      (entry.resolved?.map fun e => e.mac.text).toList := by
  have hname : ∀ n : Neighbor, ':' ∉ n.host.1 ∧ ':' ∉ n.iface.1 ∧
      ':' ∉ n.address.text := fun n =>
    ⟨not_mem_name n.host.2.1.2 (by decide),
      not_mem_name n.iface.2.2 (by decide), not_mem_text (by decide) _⟩
  cases entry with
  | complete e =>
      obtain ⟨hhost, hiface, haddress⟩ := hname e.toNeighbor
      have hline : e.line =
          ((e.host.1 ++ ' ' :: ("(".toList ++ (e.address.text ++
            ") at".toList))) ++ [' ']) ++ (e.mac.text ++
              (" [ether] on ".toList ++ e.iface.1)) := by
        simp [Resolved.line, Neighbor.line]
      rw [ArpEntry.line, hline, onlyMatching_mac]
      · rfl
      · simp [hhost, haddress]
      · simp [hiface]
  | incomplete n =>
      obtain ⟨hhost, hiface, haddress⟩ := hname n
      apply onlyMatching_mac_eq_nil
      simp [ArpEntry.line, Neighbor.line, hhost, hiface, haddress]

theorem not_incomplete_of_not_mem {t : Text} (h : 'i' ∉ t) :
    ¬ incompleteWord <:+: t := fun hin => h (hin.subset (by decide))

theorem incomplete_line_iff (n : Neighbor) (mac : Text) :
    incompleteWord <:+: n.line mac ↔
      incompleteWord <:+: mac ∨ incompleteWord <:+: n.iface.1 := by
  have haddress := not_mem_text (c := 'i') (by decide) n.address
  rw [infix_line_iff (by decide)]
  · simp only [n.host.2.2.2, false_or]
  · exact not_incomplete_of_not_mem (by simp [haddress])
  · exact ⟨not_incomplete_of_not_mem (by decide),
      not_incomplete_of_not_mem (by decide)⟩

/-- `grep -v incomplete` drops the incomplete entries, and the complete ones
with that word in the name of their interface. -/
theorem search_incomplete (entry : ArpEntry) :
    (Regex.lit incompleteWord).search true entry.line = true ↔
      ∀ e, entry = .complete e → incompleteWord <:+: e.iface.1 := by
  cases entry with
  | complete e =>
      have hmac : ¬ incompleteWord <:+: e.mac.text ++ " [ether]".toList := by
        apply not_incomplete_of_not_mem
        rw [List.mem_append, not_or]
        exact ⟨not_mem_mac (by decide) (by decide) _, by decide⟩
      refine Regex.search_lit.trans ((incomplete_line_iff _ _).trans ?_)
      constructor
      · rintro (h | h) e' he
        · exact absurd h hmac
        · obtain rfl := ArpEntry.complete.inj he
          exact h
      · intro h
        exact Or.inr (h e rfl)
  | incomplete n =>
      have hword : incompleteWord <:+: "<incomplete>".toList :=
        ⟨['<'], ['>'], rfl⟩
      refine Regex.search_lit.trans ((incomplete_line_iff _ _).trans ?_)
      exact iff_of_true (Or.inl hword) fun e he => by cases he

theorem mem_resolved {table : List ArpEntry} {e : Resolved} :
    e ∈ resolved table ↔ ArpEntry.complete e ∈ table := by
  simp only [resolved, List.mem_filterMap]
  constructor
  · rintro ⟨entry, hentry, he⟩
    cases entry with
    | complete e' =>
        obtain rfl : e' = e := Option.some.inj he
        exact hentry
    | incomplete n => cases he
  · intro he
    exact ⟨_, he, rfl⟩

/-- An entry is found by its own address. -/
theorem resembles_self (e : Resolved) : Resembles e.address e.line := by
  refine ⟨e.address.text, ?_,
    Regex.mem_lang_dotted.mp (Regex.self_mem_lang_dotted _)⟩
  refine ⟨e.host.1 ++ " (".toList, ")".toList ++ (" at ".toList ++
    (e.mac.text ++ (" [ether] on ".toList ++ e.iface.1))), ?_⟩
  simp [Resolved.line, Neighbor.line]

/-- An address that is looked up is found in some complete entry. -/
theorem exists_resembling {table : List ArpEntry} {e : Resolved}
    (he : e ∈ resolved table) :
    ∃ found, (resolved table).find? (Resembles e.address ·.line) =
      some found := by
  apply Option.isSome_iff_exists.mp
  rw [List.find?_isSome]
  exact ⟨e, he, by simpa using resembles_self e⟩

/-- A lookup gives the MAC address of the first complete entry whose line
resembles the address. -/
theorem macLookup_arp (table : List ArpEntry) (q : Quad) :
    macLookup (arp table) q.text =
      (((resolved table).find? (Resembles q ·.line)).map
        fun e => e.mac.text).getD [] := by
  rw [macLookup, commandSubst_head1, lines_grepO, lines_grep, lines_arp]
  induction table with
  | nil => rfl
  | cons entry table ih =>
      rw [List.map_cons, List.filter_cons]
      by_cases hfound : (Regex.dotted q.text).search true entry.line = true
      · rw [if_pos hfound, List.flatMap_cons, onlyMatching_mac_entry]
        cases entry with
        | complete e =>
            have hres : Resembles q e.line := search_dotted.mp hfound
            simp [resolved, ArpEntry.resolved?, hres]
        | incomplete n => simpa [resolved, ArpEntry.resolved?] using ih
      · rw [if_neg hfound]
        cases entry with
        | complete e =>
            have hres : ¬ Resembles q e.line := fun h =>
              hfound (search_dotted.mpr h)
            simpa [resolved, ArpEntry.resolved?, hres] using ih
        | incomplete n => simpa [resolved, ArpEntry.resolved?] using ih

end LivoxScripts
