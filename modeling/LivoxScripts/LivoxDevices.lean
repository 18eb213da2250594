/-
The devices that `fix_livox_ip.sh` and `find_livox_ip.sh` take for a Livox
lidar, and the tables on which the two scripts agree about them.
-/
import LivoxScripts.FindLivoxIp
import LivoxScripts.FixLivoxIp

namespace LivoxScripts

open TextTools FindLivoxIp FixLivoxIp

/-- The first two bytes of the MAC address are those of a Livox device. -/
def Resolved.IsLivox (e : Resolved) : Prop := e.mac.vendor ∈ livoxMacPrefixes

/-- These two bytes stand anywhere in the MAC address. -/
def Resolved.HoldsPrefix (e : Resolved) : Prop :=
  ∃ p ∈ livoxMacPrefixes, p <:+: e.mac.text

/-- The lookup finds a device exactly when there is one, and the address it
finds is that of a device for every other part of the two scripts. -/
structure PicksLivox (table : List ArpEntry) : Prop where
  found : arpLookup (arp table) ≠ [] ↔ ∃ e ∈ resolved table, e.IsLivox
  livox : arpLookup (arp table) ≠ [] → ∃ e ∈ resolved table,
    e.IsLivox ∧ arpLookup (arp table) = e.address.text
  listed : arpLookup (arp table) ≠ [] → ∃ mac,
    (arpLookup (arp table), mac) ∈ livoxDevices (arp table)
  accepted : arpLookup (arp table) ≠ [] →
    isLivox (arp table) (arpLookup (arp table)) = true

theorem search_livoxPattern {b : Bool} {t : Text} :
    livoxPattern.search b t = true ↔ ∃ p ∈ livoxMacPrefixes, p <:+: t := by
  simp only [livoxPattern, Regex.search_alt, Bool.or_eq_true,
    Regex.search_lit, livoxMacPrefixes, List.mem_cons, List.not_mem_nil,
    or_false, exists_eq_or_imp, exists_eq_left]

instance : DecidablePred Resolved.HoldsPrefix := fun e =>
  decidable_of_iff (livoxPattern.search true e.mac.text = true)
    search_livoxPattern

instance : DecidablePred Resolved.IsLivox := fun e =>
  inferInstanceAs (Decidable (e.mac.vendor ∈ livoxMacPrefixes))

/-- What agreement asks of a table: the first entry with a prefix anywhere in
its MAC address shares its address with a device that section [6] does not
skip, and the first entry its address is found in is a device. -/
def PrefixesLead (table : List ArpEntry) : Prop :=
  ∀ first, (resolved table).find? (·.HoldsPrefix) = some first →
    (∃ e ∈ resolved table, e.IsLivox ∧ ¬ incompleteWord <:+: e.iface.1 ∧
      e.address = first.address) ∧
    ∀ found, (resolved table).find? (Resembles first.address ·.line) =
      some found → found.IsLivox

theorem mac_text_eq (m : Mac) :
    ∃ rest, m.text = m.vendor ++ ':' :: rest ∧ m.vendor.length = 5 := by
  obtain ⟨b, tail, hm⟩ := List.exists_cons_of_length_eq_add_one m.2
  have htail : tail.length = 5 := by simpa [hm] using m.2
  obtain ⟨c, tail, rfl⟩ := List.exists_cons_of_length_eq_add_one htail
  have hne : tail ≠ [] := List.ne_nil_of_length_eq_add_one (n := 3)
    (by simpa using htail)
  have htwo : bytesText [b, c] = b.text ++ ':' :: c.text := by
    simp [bytesText]
  refine ⟨bytesText tail, ?_, ?_⟩
  · rw [Mac.text, Mac.vendor, hm, bytesText_cons b _ (by simp),
      bytesText_cons c _ hne]
    simp [htwo]
  · simp [Mac.vendor, hm, htwo, HexByte.text]

theorem prefix_mac_iff {p : Text} (hp : p ∈ livoxMacPrefixes) (m : Mac) :
    p <+: m.text ↔ m.vendor = p := by
  have hall : (livoxMacPrefixes.all fun p => p.length == 5) = true := by decide
  have hlength : p.length = 5 := by simpa using List.all_eq_true.mp hall p hp
  obtain ⟨rest, htext, hvendor⟩ := mac_text_eq m
  have hpre : m.vendor <+: m.text := ⟨_, htext.symm⟩
  constructor
  · intro h
    have hle := List.prefix_of_prefix_length_le hpre h (by omega)
    exact hle.eq_of_length (by omega)
  · rintro rfl
    exact hpre

theorem Resolved.IsLivox.holdsPrefix {e : Resolved} (h : e.IsLivox) :
    e.HoldsPrefix :=
  ⟨_, h, ((prefix_mac_iff h e.mac).mpr rfl).isInfix⟩

/-- The prefixes stand nowhere in a line but in its MAC address. -/
theorem search_livox_entry (entry : ArpEntry) :
    livoxPattern.search true entry.line = true ↔
      ∃ e, entry = .complete e ∧ e.HoldsPrefix := by
  have hchars : ∀ p ∈ livoxMacPrefixes, ' ' ∉ p ∧ ':' ∈ p := by
    intro p hp
    simp only [livoxMacPrefixes, List.mem_cons, List.not_mem_nil,
      or_false] at hp
    rcases hp with rfl | rfl | rfl <;> decide
  have hline : ∀ p ∈ livoxMacPrefixes, ∀ (n : Neighbor) (mac : Text),
      p <:+: n.line mac ↔ p <:+: mac := by
    intro p hp n mac
    have hcolon : ∀ t : Text, ':' ∉ t → ¬ p <:+: t := fun t ht h =>
      ht (h.subset (hchars p hp).2)
    have haddress := not_mem_text (c := ':') (by decide) n.address
    rw [infix_line_iff (hchars p hp).1 n (hcolon _ (by simp [haddress]))
      ⟨hcolon _ (by decide), hcolon _ (by decide)⟩]
    simp only [hcolon _ (not_mem_name n.host.2.1.2 (by decide)),
      hcolon _ (not_mem_name n.iface.2.2 (by decide)), false_or, or_false]
  rw [search_livoxPattern]
  cases entry with
  | complete e =>
      have hmac : ∀ p ∈ livoxMacPrefixes,
          (p <:+: e.mac.text ++ ' ' :: "[ether]".toList ↔
            p <:+: e.mac.text) := by
        intro p hp
        have hether : ¬ p <:+: "[ether]".toList := fun h =>
          absurd (h.subset (hchars p hp).2) (by decide)
        rw [infix_append_cons_iff (hchars p hp).1, or_iff_left hether]
      constructor
      · rintro ⟨p, hp, hin⟩
        exact ⟨e, rfl, p, hp, (hmac p hp).mp ((hline p hp _ _).mp hin)⟩
      · rintro ⟨e', he', p, hp, hin⟩
        obtain rfl := ArpEntry.complete.inj he'
        exact ⟨p, hp, (hline p hp _ _).mpr ((hmac p hp).mpr hin)⟩
  | incomplete n =>
      constructor
      · rintro ⟨p, hp, hin⟩
        have hword := (hline p hp n _).mp hin
        exact absurd (hword.subset (hchars p hp).2) (by decide)
      · rintro ⟨e, he, -⟩
        cases he

/-- The lookup gives the address of the first entry that holds a prefix. -/
theorem arpLookup_arp (table : List ArpEntry) :
    arpLookup (arp table) =
      (((resolved table).find? (·.HoldsPrefix)).map
        fun e => e.address.text).getD [] := by
  rw [arpLookup, commandSubst_head1, lines_grepO, lines_grep, lines_arp]
  induction table with
  | nil => rfl
  | cons entry table ih =>
      rw [List.map_cons, List.filter_cons]
      by_cases hfound : livoxPattern.search true entry.line = true
      · obtain ⟨e, rfl, he⟩ := (search_livox_entry entry).mp hfound
        have hquads : quadPattern.onlyMatching .perl
            (ArpEntry.complete e).line =
              e.address.text :: quadsIn e.iface.1 := quadsIn_resolved e
        rw [if_pos hfound, List.flatMap_cons, hquads]
        simp [resolved, ArpEntry.resolved?, he]
      · rw [if_neg hfound]
        cases entry with
        | complete e =>
            have hnot : ¬ e.HoldsPrefix := fun h =>
              hfound ((search_livox_entry _).mpr ⟨e, rfl, h⟩)
            simpa [resolved, ArpEntry.resolved?, hnot] using ih
        | incomplete n => simpa [resolved, ArpEntry.resolved?] using ih

theorem lines_echo_mac (m : Mac) : lines (echo m.text) = [m.text] := by
  obtain ⟨rest, htext, -⟩ := mac_text_eq m
  have hcolon : ':' ∈ m.text := by simp [htext]
  rw [echo_of_not_option (isEchoOption_of_mem hcolon (by decide)),
    lines_unlines]
  intro l hl
  obtain rfl := List.mem_singleton.mp hl
  exact not_mem_mac (by decide) (by decide) m

/-- The fallback scan accepts an address by the first entry it is found in. -/
theorem isLivox_arp (table : List ArpEntry) (q : Quad) :
    isLivox (arp table) q.text = true ↔
      ∃ found, (resolved table).find? (Resembles q ·.line) = some found ∧
        found.IsLivox := by
  rw [isLivox, macLookup_arp]
  cases hfound : (resolved table).find? (Resembles q ·.line) with
  | none =>
      have hempty : grepQ livoxPrefixPattern (echo []) = false := by decide
      simp [hempty]
  | some e =>
      have hsearch : livoxPrefixPattern.search true e.mac.text = true ↔
          ∃ p ∈ livoxMacPrefixes, p <+: e.mac.text := by
        simp only [livoxPrefixPattern, Regex.search_alt, Bool.or_eq_true,
          Regex.search_bol_lit, livoxMacPrefixes, List.mem_cons,
          List.not_mem_nil, or_false, exists_eq_or_imp, exists_eq_left]
      have hvendor : (∃ p ∈ livoxMacPrefixes, p <+: e.mac.text) ↔
          e.IsLivox := by
        constructor
        · rintro ⟨p, hp, hpre⟩
          obtain rfl := (prefix_mac_iff hp e.mac).mp hpre
          exact hp
        · intro h
          exact ⟨_, h, (prefix_mac_iff h e.mac).mpr rfl⟩
      simp only [Option.map_some, Option.getD_some, grepQ, lines_echo_mac,
        List.any_cons, List.any_nil, Bool.or_false, Option.some.injEq,
        exists_eq_left']
      exact hsearch.trans hvendor

theorem lines_echo_entry (entry : ArpEntry) :
    lines (echo entry.line) = [entry.line] := by
  have hblank : ' ' ∈ entry.line := by
    cases entry with
    | complete e => simp [ArpEntry.line, Resolved.line, Neighbor.line]
    | incomplete n => simp [ArpEntry.line, Neighbor.line]
  rw [echo_of_not_option (isEchoOption_of_mem hblank (by decide)),
    lines_unlines]
  intro l hl
  obtain rfl := List.mem_singleton.mp hl
  exact not_mem_entry (by decide) entry

/-- `cut -d: -f1-2` -/
theorem cut_mac (m : Mac) :
    commandSubst (cut ':' 2 (echo m.text)) = m.vendor := by
  have hcut : [':'].intercalate ((m.text.splitOn ':').take 2) = m.vendor := by
    rw [Mac.text, splitOn_bytesText m.bytes_ne_nil, ← List.map_take]
    rfl
  rw [cut, lines_echo_mac, List.map_cons, List.map_nil, hcut]
  apply commandSubst_singleton
  intro hmem
  rcases isHexDigit_or_colon_of_mem hmem with h | h
  · exact absurd h (by decide)
  · exact absurd h (by decide)

theorem livoxMacPrefixes_filter (v : Text) :
    livoxMacPrefixes.filter (v == ·) =
      if v ∈ livoxMacPrefixes then [v] else [] := by
  by_cases hv : v ∈ livoxMacPrefixes
  · rw [if_pos hv]
    simp only [livoxMacPrefixes, List.mem_cons, List.not_mem_nil,
      or_false] at hv
    rcases hv with rfl | rfl | rfl <;> decide
  · rw [if_neg hv, List.filter_eq_nil_iff]
    intro p hp heq
    exact hv ((beq_iff_eq.mp heq) ▸ hp)

/-- Section [6] reports a device once, unless it takes its line for one of an
incomplete entry. -/
theorem livoxReports_entry (entry : ArpEntry) :
    livoxReports entry.line =
      entry.resolved?.toList.flatMap fun e =>
        if e.IsLivox ∧ ¬ incompleteWord <:+: e.iface.1 then
          [(e.address.text, e.mac.text)]
        else [] := by
  have hword : grepQ (.lit incompleteWord) (echo entry.line) = true ↔
      ∀ e, entry = .complete e → incompleteWord <:+: e.iface.1 := by
    rw [grepQ, lines_echo_entry]
    simpa using search_incomplete entry
  rw [livoxReports]
  by_cases hskip : grepQ (.lit incompleteWord) (echo entry.line) = true
  · rw [if_pos hskip]
    cases entry with
    | complete e => simp [ArpEntry.resolved?, hword.mp hskip e rfl]
    | incomplete n => rfl
  · rw [if_neg hskip]
    cases entry with
    | complete e =>
        have hiface : ¬ incompleteWord <:+: e.iface.1 := fun h =>
          hskip (hword.mpr fun e' he' => by
            obtain rfl := ArpEntry.complete.inj he'
            exact h)
        have hmac : commandSubst (head1 (grepO .perl macPattern
            (echo (ArpEntry.complete e).line))) = e.mac.text := by
          rw [commandSubst_head1, lines_grepO, lines_echo_entry]
          simp [onlyMatching_mac_entry, ArpEntry.resolved?]
        have hip : commandSubst (head1 (grepO .perl quadPattern
            (echo (ArpEntry.complete e).line))) = e.address.text := by
          have hquads : quadPattern.onlyMatching .perl
              (ArpEntry.complete e).line =
                e.address.text :: quadsIn e.iface.1 := quadsIn_resolved e
          rw [commandSubst_head1, lines_grepO, lines_echo_entry]
          simp [hquads]
        obtain ⟨rest, htext, -⟩ := mac_text_eq e.mac
        have hne : e.mac.text ≠ [] := by simp [htext]
        simp only [hmac, hip, cut_mac, livoxMacPrefixes_filter]
        by_cases hlivox : e.IsLivox
        · have hmem : e.mac.vendor ∈ livoxMacPrefixes := hlivox
          simp [ArpEntry.resolved?, hlivox, hmem, hiface, hne,
            Quad.text_ne_nil]
        · have hmem : e.mac.vendor ∉ livoxMacPrefixes := hlivox
          simp [ArpEntry.resolved?, hlivox, hmem]
    | incomplete n => exact absurd (hword.mpr fun e he => by cases he) hskip

/-- A line of the table has no blank at its ends. -/
theorem readLine_entry (entry : ArpEntry) :
    readLine entry.line = entry.line := by
  have hends : ∀ (n : Neighbor) (mac : Text),
      (∀ c, (n.line mac).head? = some c → isNameByte c = true) ∧
        ∀ c, (n.line mac).getLast? = some c → isNameByte c = true := by
    intro n mac
    obtain ⟨d, ds, hhost⟩ := List.exists_cons_of_ne_nil n.host.2.1.1
    obtain ⟨init, last, hiface⟩ : ∃ init last, n.iface.1 = init ++ [last] :=
      ⟨_, _, (List.dropLast_append_getLast n.iface.2.1).symm⟩
    constructor
    · intro c hc
      obtain rfl : d = c := by simpa [Neighbor.line, hhost] using hc
      exact n.host.2.1.2 d (by simp [hhost])
    · intro c hc
      obtain rfl : last = c := by
        simpa [Neighbor.line, hiface, List.getLast?_append,
          List.getLast?_cons] using hc
      exact n.iface.2.2 last (by simp [hiface])
  have hblank : ∀ c, isNameByte c = true → isBlank c = false := by
    intro c hc
    have hspace : c ≠ ' ' := by
      rintro rfl
      exact absurd hc (by decide)
    have htab : c ≠ '\t' := by
      rintro rfl
      exact absurd hc (by decide)
    simp [isBlank, hspace, htab]
  have hline : ∃ (n : Neighbor) (mac : Text), entry.line = n.line mac := by
    cases entry with
    | complete e => exact ⟨_, _, rfl⟩
    | incomplete n => exact ⟨_, _, rfl⟩
  obtain ⟨n, mac, hline⟩ := hline
  have hescape := not_mem_entry (c := '\\') (by decide) entry
  rw [hline] at hescape ⊢
  exact readLine_of_trimmed hescape
    (fun c hc => hblank c ((hends n mac).1 c hc))
    (fun c hc => hblank c ((hends n mac).2 c hc))

theorem livoxDevices_arp (table : List ArpEntry) :
    livoxDevices (arp table) =
      (resolved table).flatMap fun e =>
        if e.IsLivox ∧ ¬ incompleteWord <:+: e.iface.1 then
          [(e.address.text, e.mac.text)]
        else [] := by
  rw [livoxDevices, arp, whileRead_unlines, resolved]
  · simp only [List.flatMap_map, livoxReports_entry]
    rw [List.filterMap_eq_flatMap_toList, List.flatMap_assoc]
  · intro l hl
    obtain ⟨entry, -, rfl⟩ := List.mem_map.mp hl
    exact ⟨not_mem_entry (by decide) entry, not_mem_entry (by decide) entry,
      readLine_entry entry⟩

theorem mem_livoxDevices {table : List ArpEntry} {ip mac : Text} :
    (ip, mac) ∈ livoxDevices (arp table) ↔
      ∃ e ∈ resolved table, (e.IsLivox ∧ ¬ incompleteWord <:+: e.iface.1) ∧
        ip = e.address.text ∧ mac = e.mac.text := by
  rw [livoxDevices_arp, List.mem_flatMap]
  refine exists_congr fun e => and_congr_right fun _ => ?_
  by_cases he : e.IsLivox ∧ ¬ incompleteWord <:+: e.iface.1
  · simp [he]
  · simp [he]

/-- The two scripts agree about the devices exactly when a prefix only leads
to addresses that are those of devices. -/
theorem picksLivox_iff (table : List ArpEntry) :
    PicksLivox table ↔ PrefixesLead table := by
  cases hfirst : (resolved table).find? (·.HoldsPrefix) with
  | none =>
      have hnone : arpLookup (arp table) = [] := by
        rw [arpLookup_arp, hfirst]
        rfl
      have hlivox : ¬ ∃ e ∈ resolved table, e.IsLivox := by
        rintro ⟨e, he, hlivox⟩
        have hnot := List.find?_eq_none.mp hfirst e he
        simp [hlivox.holdsPrefix] at hnot
      constructor
      · intro _ first hfirst'
        rw [hfirst] at hfirst'
        cases hfirst'
      · intro _
        exact ⟨iff_of_false (· hnone) hlivox, (absurd hnone ·),
          (absurd hnone ·), (absurd hnone ·)⟩
  | some first =>
      have hmem := List.mem_of_find?_eq_some hfirst
      have hlookup : arpLookup (arp table) = first.address.text := by
        rw [arpLookup_arp, hfirst]
        rfl
      have hne : arpLookup (arp table) ≠ [] := by
        rw [hlookup]
        exact Quad.text_ne_nil _
      constructor
      · intro h first' hfirst'
        obtain rfl := Option.some.inj (hfirst.symm.trans hfirst')
        constructor
        · obtain ⟨mac, hmac⟩ := h.listed hne
          rw [hlookup] at hmac
          obtain ⟨e, he, ⟨hlivox, hkept⟩, haddress, -⟩ :=
            mem_livoxDevices.mp hmac
          exact ⟨e, he, hlivox, hkept, Quad.text_injective haddress.symm⟩
        · intro found hfound
          have haccepted := h.accepted hne
          rw [hlookup, isLivox_arp] at haccepted
          obtain ⟨found', hfound', hlivox⟩ := haccepted
          obtain rfl := Option.some.inj (hfound.symm.trans hfound')
          exact hlivox
      · intro h
        obtain ⟨⟨e, he, hlivox, hkept, haddress⟩, hown⟩ := h first hfirst
        have htext : arpLookup (arp table) = e.address.text := by
          rw [hlookup, haddress]
        refine ⟨iff_of_true hne ⟨e, he, hlivox⟩,
          fun _ => ⟨e, he, hlivox, htext⟩,
          fun _ => ⟨e.mac.text, ?_⟩, fun _ => ?_⟩
        · exact mem_livoxDevices.mpr ⟨e, he, ⟨hlivox, hkept⟩, htext, rfl⟩
        · obtain ⟨found, hfound⟩ := exists_resembling hmem
          rw [hlookup, isLivox_arp]
          exact ⟨found, hfound, hown found hfound⟩

/-- Whatever the fallback scan returns answered and passed its test. -/
theorem scanNetwork_accepted {ping : Text → Bool} {arpAfter : Text → Text}
    {range : List Nat} (h : scanNetwork ping arpAfter range ≠ []) :
    ping (scanNetwork ping arpAfter range) = true ∧
      isLivox (arpAfter (scanNetwork ping arpAfter range))
        (scanNetwork ping arpAfter range) = true := by
  induction range with
  | nil => exact absurd rfl h
  | cons i is ih =>
      by_cases htest : (ping ("192.168.1.".toList ++ Nat.toDigits 10 i) &&
          isLivox (arpAfter ("192.168.1.".toList ++ Nat.toDigits 10 i))
            ("192.168.1.".toList ++ Nat.toDigits 10 i)) = true
      · have hvalue : scanNetwork ping arpAfter (i :: is) =
            "192.168.1.".toList ++ Nat.toDigits 10 i := if_pos htest
        rw [hvalue]
        exact Bool.and_eq_true_iff.mp htest
      · simp only [scanNetwork, htest, Bool.false_eq_true,
          ↓reduceIte] at h ⊢
        exact ih h

def strayMac : Mac := macOf 0xaa 0xbb 0x0c 0x9a 0x11 0x22

def strayTable : List ArpEntry :=
  [.complete ⟨⟨unnamed, quad 192 168 1 50, eth0⟩, strayMac⟩]

/-- The lookup picks a neighbour that no part of the scripts calls a Livox
device. -/
theorem not_picksLivox_stray : ¬ PicksLivox strayTable := by
  intro h
  have hne : arpLookup (arp strayTable) ≠ [] := by decide +kernel
  obtain ⟨e, he, hlivox, -⟩ := h.livox hne
  have hmac : e.mac = strayMac := by
    simp only [mem_resolved, strayTable, List.mem_singleton,
      ArpEntry.complete.injEq] at he
    rw [he]
  rw [Resolved.IsLivox, hmac] at hlivox
  exact absurd hlivox (by decide)

end LivoxScripts
