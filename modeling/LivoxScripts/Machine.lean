/-
The network interfaces of a machine as `ip addr show` lists them, and the
addresses the scripts' filters find in the listing.
-/
import LivoxScripts.Address

namespace LivoxScripts

open TextTools

/-- `inet ` -/
def inetWord : Text := ['i', 'n', 'e', 't', ' ']

/-- A text of the listing that is not about an IPv4 address. -/
abbrev OtherText := { t : Text // '\n' ∉ t ∧ ¬ inetWord <:+: t }

theorem isOtherText {t : Text} (hline : '\n' ∉ t)
    (hword : (Regex.lit inetWord).search true t = false) :
    '\n' ∉ t ∧ ¬ inetWord <:+: t :=
  ⟨hline, fun h => by simp [Regex.search_lit.mpr h] at hword⟩

/-- An IPv4 address with what `ip` prints about it: the rest of its line, which
tells primary from secondary addresses, and the line below. -/
structure InetAddress where
  address : Quad
  prefixLength : Octet
  broadcast : Option Quad
  scope : OtherText
  lifetime : OtherText

/-- An interface.  Its name is meant to be none that `ip` takes for an option or a
keyword of its own. -/
structure Interface where
  name : Text
  header : OtherText
  link : List OtherText
  addresses : List InetAddress
  inet6 : List OtherText

def loName : Text := "lo".toList

/-- A machine: the loopback interface and the others, in their order. -/
structure Machine where
  lo : Interface
  interfaces : List Interface
  lo_name : lo.name = loName
  lo_address : lo.addresses.map (fun a => (a.address, a.prefixLength)) =
    [(quad 127 0 0 1, octet 8)]
  distinct : (interfaces.map Interface.name).Nodup
  not_lo : ∀ i ∈ interfaces, i.name ≠ loName

/-- The address with its prefix length. -/
def InetAddress.cidr (a : InetAddress) : Text :=
  a.address.text ++ '/' :: a.prefixLength.1

def InetAddress.brd (a : InetAddress) : Text :=
  match a.broadcast with
  | some b => " brd ".toList ++ b.text
  | none => []

def InetAddress.line (a : InetAddress) : Text :=
  "    ".toList ++ (inetWord ++ (a.cidr ++ (a.brd ++
    (" scope ".toList ++ a.scope.1))))

def InetAddress.lines (a : InetAddress) : List Text := [a.line, a.lifetime.1]

/-- What `ip addr show` prints about an interface. -/
def Interface.listing (i : Interface) : List Text :=
  i.header.1 :: (i.link.map Subtype.val ++
    (i.addresses.flatMap InetAddress.lines ++ i.inet6.map Subtype.val))

/-- What `ip -4 addr show` prints about an interface. -/
def Interface.listing4 (i : Interface) : List Text :=
  if i.addresses.isEmpty then []
  else i.header.1 :: i.addresses.flatMap InetAddress.lines

/-- The texts of the listing in which an address may be found. -/
def InetAddress.texts (a : InetAddress) : List Text :=
  a.cidr :: ((a.broadcast.map Quad.text).toList ++ [a.scope.1, a.lifetime.1])

def Interface.texts (i : Interface) : List Text :=
  i.header.1 :: (i.link.map Subtype.val ++
    (i.addresses.flatMap InetAddress.texts ++ i.inet6.map Subtype.val))

/-- The pattern `*` leaves out names that begin with a dot. -/
def Interface.Globbed (i : Interface) : Prop := i.name.head? ≠ some '.'

instance : DecidablePred Interface.Globbed := fun _ =>
  inferInstanceAs (Decidable (_ ≠ _))

namespace Machine

def all (m : Machine) : List Interface := m.lo :: m.interfaces

/-- `ip addr show` -/
def ipAddrShow (m : Machine) : Text := unlines (m.all.flatMap Interface.listing)

/-- `ip addr show name` -/
def ipAddrShowDev (m : Machine) (name : Text) : Text :=
  unlines (((m.all.find? (·.name = name)).map Interface.listing).getD [])

/-- `ip -4 addr show name` -/
def ip4AddrShowDev (m : Machine) (name : Text) : Text :=
  unlines (((m.all.find? (·.name = name)).map Interface.listing4).getD [])

/-- The names in `/sys/class/net/*`. -/
def sysClassNet (m : Machine) : List Text :=
  ((m.all.filter (·.Globbed)).map Interface.name).mergeSort lineLe

end Machine

def Interface.Carries (address : Quad) (i : Interface) : Prop :=
  ∃ a ∈ i.addresses, a.address = address

def Machine.Carries (m : Machine) (address : Quad) : Prop :=
  ∃ i ∈ m.all, i.Carries address

def Interface.firstAddress? (i : Interface) : Option Quad :=
  (i.addresses.map (·.address)).head?

/-- `inet \K[0-9.]+` and `inet \K[\d.]+` -/
def inetPattern : Regex :=
  .seq (.lit inetWord) (.seq .keep (.many1 isAddressChar))

/-- A word that begins with `x` does not begin in a text without `x`. -/
theorem infix_append_of_not_mem {x : Char} {w u v : Text} (hx : x ∉ u)
    (h : x :: w <:+: u ++ v) : x :: w <:+: v := by
  induction u with
  | nil => exact h
  | cons c cs ih =>
      simp only [List.mem_cons, not_or] at hx
      rcases List.infix_cons_iff.mp h with hpre | hin
      · exact absurd (List.cons_prefix_cons.mp hpre).1 hx.1
      · exact ih hx.2 hin

theorem not_mem_octet {c : Char} (hc : c.isDigit = false) (o : Octet) :
    c ∉ o.1 := fun hmem => by
  simp [o.2.2 c hmem] at hc

theorem not_mem_cidr {c : Char} (hc : isAddressChar c = false)
    (hslash : c ≠ '/') (a : InetAddress) : c ∉ a.cidr := by
  have hdigit : c.isDigit = false := by
    simp only [isAddressChar, Bool.or_eq_false_iff] at hc
    exact hc.1
  simp [InetAddress.cidr, not_mem_text hc, not_mem_octet hdigit, hslash]

theorem not_mem_brd {c : Char} (hc : isAddressChar c = false)
    (hbrd : c ∉ " brd ".toList) (a : InetAddress) : c ∉ a.brd := by
  unfold InetAddress.brd
  split
  · rw [List.mem_append, not_or]
    exact ⟨hbrd, not_mem_text hc _⟩
  · simp

theorem newline_not_mem_line (a : InetAddress) : '\n' ∉ a.line := by
  have hcidr := not_mem_cidr (c := '\n') (by decide) (by decide) a
  have hbrd := not_mem_brd (c := '\n') (by decide) (by decide) a
  have hscope := a.scope.2.1
  simp only [InetAddress.line, List.mem_append, not_or]
  exact ⟨by decide, by decide, hcidr, hbrd, by decide, hscope⟩

theorem newline_not_mem_lines {a : InetAddress} {l : Text}
    (hl : l ∈ a.lines) : '\n' ∉ l := by
  simp only [InetAddress.lines, List.mem_cons, List.not_mem_nil,
    or_false] at hl
  rcases hl with rfl | rfl
  · exact newline_not_mem_line a
  · exact a.lifetime.2.1

theorem newline_not_mem_listing {i : Interface} {l : Text}
    (hl : l ∈ i.listing) : '\n' ∉ l := by
  simp only [Interface.listing, List.mem_cons, List.mem_append, List.mem_map,
    List.mem_flatMap] at hl
  rcases hl with rfl | ⟨t, -, rfl⟩ | ⟨a, -, ha⟩ | ⟨t, -, rfl⟩
  · exact i.header.2.1
  · exact t.2.1
  · exact newline_not_mem_lines ha
  · exact t.2.1

theorem newline_not_mem_listing4 {i : Interface} {l : Text}
    (hl : l ∈ i.listing4) : '\n' ∉ l := by
  unfold Interface.listing4 at hl
  split at hl
  · simp at hl
  · simp only [List.mem_cons, List.mem_flatMap] at hl
    rcases hl with rfl | ⟨a, -, ha⟩
    · exact i.header.2.1
    · exact newline_not_mem_lines ha

/-- What follows the address on its line. -/
def InetAddress.afterAddress (a : InetAddress) : Text :=
  '/' :: (a.prefixLength.1 ++ (a.brd ++ (" scope ".toList ++ a.scope.1)))

theorem line_eq (a : InetAddress) :
    a.line = "    ".toList ++ (inetWord ++
      (a.address.text ++ a.afterAddress)) := by
  simp [InetAddress.line, InetAddress.cidr, InetAddress.afterAddress]

theorem not_infix_afterAddress (a : InetAddress) :
    ¬ inetWord <:+: a.afterAddress := by
  intro h
  have hbefore : 'i' ∉ '/' :: (a.prefixLength.1 ++
      (a.brd ++ " scope ".toList)) := by
    have hbrd := not_mem_brd (c := 'i') (by decide) (by decide) a
    have hlength := not_mem_octet (c := 'i') (by decide) a.prefixLength
    simp only [List.mem_cons, List.mem_append, not_or]
    exact ⟨by decide, hlength, hbrd, by decide⟩
  apply a.scope.2.2
  apply infix_append_of_not_mem hbefore
  simpa [inetWord, InetAddress.afterAddress] using h

theorem inetPattern_plain : inetPattern.Plain :=
  ⟨Regex.lit_plain _, trivial, trivial, trivial⟩

theorem onlyMatching_other {t : Text} (h : ¬ inetWord <:+: t) (f : Flavor) :
    inetPattern.onlyMatching f t = [] := by
  apply Regex.onlyMatching_eq_nil inetPattern_plain
  rintro w ⟨u, hu, v, -, rfl⟩ hin
  rw [Regex.lang_lit] at hu
  obtain rfl : u = inetWord := hu
  exact h ((List.prefix_append inetWord v).isInfix.trans hin)

theorem matchAt_inet (f : Flavor) (b : Bool) (a : InetAddress) :
    inetPattern.matchAt f b (inetWord ++ (a.address.text ++ a.afterAddress)) =
      some ⟨inetWord, a.address.text, a.afterAddress⟩ := by
  obtain ⟨c, cs, hcs⟩ := List.exists_cons_of_ne_nil a.address.text_ne_nil
  have hall : ∀ d ∈ c :: cs, isAddressChar d = true := fun d hd =>
    isAddressChar_of_mem (q := a.address) (hcs ▸ hd)
  have hrun : inetPattern.run b
      (Cursor.start (inetWord ++ (a.address.text ++ a.afterAddress))) =
        manyFrom isAddressChar inetWord [c] (cs ++ a.afterAddress) := by
    simp only [inetPattern, Regex.run, Cursor.start, Regex.run_lit_append,
      List.flatMap_singleton]
    have hmany := Regex.run_many1_cons isAddressChar b inetWord [] c
      (cs ++ a.afterAddress)
    rw [if_pos (hall c List.mem_cons_self)] at hmany
    simpa [hcs] using hmany
  have hcs' : ∀ d ∈ cs, isAddressChar d = true := fun d hd =>
    hall d (List.mem_cons_of_mem c hd)
  rw [Regex.matchAt, hrun, Regex.pick_filter_manyFrom f _ (by simp)]
  simp [Cursor.skip, List.takeWhile_append_of_pos hcs',
    List.dropWhile_append_of_pos hcs', hcs, InetAddress.afterAddress,
    show isAddressChar '/' = false by decide]

/-- The address is what the pattern reports of its line. -/
theorem onlyMatching_line (f : Flavor) (a : InetAddress) :
    inetPattern.onlyMatching f a.line = [a.address.text] := by
  have hafter := onlyMatching_other (not_infix_afterAddress a) f
  rw [Regex.onlyMatching, Regex.scan_plain inetPattern_plain f true false]
    at hafter
  have hblank : inetPattern.scan f false 0 a.line =
      passed "    ".toList ++ inetPattern.scan f false 0
        (inetWord ++ (a.address.text ++ a.afterAddress)) := by
    rw [line_eq]
    apply Regex.scan_passed
    intro t ht hne
    obtain ⟨c, cs, rfl⟩ := List.exists_cons_of_ne_nil hne
    have hc : c = ' ' := by
      have hmem : c ∈ "    ".toList := ht.subset List.mem_cons_self
      simpa using hmem
    apply Regex.matchAt_eq_none inetPattern_plain
    rintro w ⟨u, hu, v, -, rfl⟩ hpre
    rw [Regex.lang_lit] at hu
    obtain rfl : u = inetWord := hu
    have hhead := (List.cons_prefix_cons.mp hpre).1
    exact absurd (hhead.trans hc) (by decide)
  rw [Regex.onlyMatching, Regex.scan_plain inetPattern_plain f true false,
    hblank, Regex.scan_of_matchAt (matchAt_inet f false a)]
  simp [hafter, Piece.reported]

theorem onlyMatching_lines (f : Flavor) (a : InetAddress) :
    a.lines.flatMap (inetPattern.onlyMatching f) = [a.address.text] := by
  simp [InetAddress.lines, onlyMatching_line,
    onlyMatching_other a.lifetime.2.2]

theorem onlyMatching_others (f : Flavor) (ts : List OtherText) :
    (ts.map Subtype.val).flatMap (inetPattern.onlyMatching f) = [] := by
  rw [List.flatMap_eq_nil_iff]
  intro t ht
  obtain ⟨t, -, rfl⟩ := List.mem_map.mp ht
  exact onlyMatching_other t.2.2 f

theorem onlyMatching_listing (f : Flavor) (i : Interface) :
    i.listing.flatMap (inetPattern.onlyMatching f) =
      i.addresses.map (·.address.text) := by
  have haddresses : (i.addresses.flatMap InetAddress.lines).flatMap
      (inetPattern.onlyMatching f) = i.addresses.map (·.address.text) := by
    rw [List.flatMap_assoc]
    simp only [onlyMatching_lines]
    exact List.map_eq_flatMap.symm
  simp only [Interface.listing, List.flatMap_cons, List.flatMap_append,
    onlyMatching_other i.header.2.2, onlyMatching_others, haddresses,
    List.nil_append, List.append_nil]

theorem onlyMatching_listing4 (f : Flavor) (i : Interface) :
    i.listing4.flatMap (inetPattern.onlyMatching f) =
      i.addresses.map (·.address.text) := by
  have hlisting := onlyMatching_listing f
    { i with link := [], inet6 := [] }
  unfold Interface.listing4
  split
  · next hempty => simp [List.isEmpty_iff.mp hempty]
  · simpa [Interface.listing] using hlisting

/-- Only the lines of addresses hold the word `inet`. -/
theorem filter_inet_listing (i : Interface) :
    i.listing.filter ((Regex.lit inetWord).search true) =
      i.addresses.map InetAddress.line := by
  have hother : ∀ t : OtherText,
      (Regex.lit inetWord).search true t.1 = false := fun t => by
    rw [Bool.eq_false_iff, ne_eq, Regex.search_lit]
    exact t.2.2
  have hline : ∀ a : InetAddress,
      (Regex.lit inetWord).search true a.line = true := fun a =>
    Regex.search_lit.mpr ⟨_, _, by rw [line_eq, List.append_assoc]⟩
  have hothers : ∀ ts : List OtherText, (ts.map Subtype.val).filter
      ((Regex.lit inetWord).search true) = [] := by
    intro ts
    rw [List.filter_eq_nil_iff]
    intro t ht
    obtain ⟨t, -, rfl⟩ := List.mem_map.mp ht
    simp [hother t]
  have haddresses : ∀ as : List InetAddress,
      (as.flatMap InetAddress.lines).filter
        ((Regex.lit inetWord).search true) = as.map InetAddress.line := by
    intro as
    induction as with
    | nil => rfl
    | cons a as ih =>
        simp [InetAddress.lines, hline a, hother a.lifetime, ih]
  simp only [Interface.listing, List.filter_cons, List.filter_append,
    hother i.header, hothers, haddresses, Bool.false_eq_true, ↓reduceIte,
    List.nil_append, List.append_nil]

variable {q : Quad}

theorem resembles_line (a : InetAddress) :
    Resembles q a.line ↔ Resembles q a.cidr ∨
      (∃ b, a.broadcast = some b ∧ Resembles q b.text) ∨
        Resembles q a.scope.1 := by
  have hbefore : a.line = "    ine".toList ++ 't' :: ' ' ::
      (a.cidr ++ (a.brd ++ (" scope ".toList ++ a.scope.1))) := rfl
  have hscope : " scope ".toList ++ a.scope.1 =
      ' ' :: 's' :: ("cop".toList ++ 'e' :: ' ' :: a.scope.1) := rfl
  have hnone : ∀ t : Text, (t.all fun c => !c.isDigit) = true →
      ¬ Resembles q t := fun t => not_resembles_of_no_digit
  rw [hbefore, hscope, resembles_gap_iff (by decide) (by decide)]
  cases hbroadcast : a.broadcast with
  | none =>
      have hbrd : a.brd = [] := by rw [InetAddress.brd, hbroadcast]
      rw [hbrd, List.nil_append, resembles_gap_iff (by decide) (by decide),
        resembles_gap_iff (by decide) (by decide)]
      simp only [hnone "    ine".toList (by decide),
        hnone "cop".toList (by decide), false_or, reduceCtorEq, false_and,
        exists_false]
  | some b =>
      have hbrd : ∀ t, a.brd ++ t =
          ' ' :: 'b' :: ("r".toList ++ 'd' :: ' ' :: (b.text ++ t)) := by
        intro t
        rw [InetAddress.brd, hbroadcast]
        rfl
      rw [hbrd, resembles_gap_iff (by decide) (by decide),
        resembles_gap_iff (by decide) (by decide),
        resembles_gap_iff (by decide) (by decide),
        resembles_gap_iff (by decide) (by decide)]
      simp only [hnone "    ine".toList (by decide),
        hnone "r".toList (by decide), hnone "cop".toList (by decide),
        false_or, Option.some.injEq, exists_eq_left']

theorem resembles_lines (a : InetAddress) :
    (∃ l ∈ a.lines, Resembles q l) ↔ ∃ t ∈ a.texts, Resembles q t := by
  have hbroadcast : (∃ t ∈ (a.broadcast.map Quad.text).toList,
      Resembles q t) ↔ ∃ b, a.broadcast = some b ∧ Resembles q b.text := by
    cases a.broadcast <;> simp
  simp only [InetAddress.lines, InetAddress.texts, List.exists_mem_cons_iff,
    List.mem_append, or_and_right, exists_or, hbroadcast, resembles_line,
    List.not_mem_nil,
    false_and, exists_false, or_false, or_assoc]

theorem resembles_listing (i : Interface) :
    (∃ l ∈ i.listing, Resembles q l) ↔ ∃ t ∈ i.texts, Resembles q t := by
  have haddresses : (∃ l ∈ i.addresses.flatMap InetAddress.lines,
      Resembles q l) ↔
        ∃ t ∈ i.addresses.flatMap InetAddress.texts, Resembles q t := by
    constructor
    · rintro ⟨l, hl, hres⟩
      obtain ⟨a, ha, hl⟩ := List.mem_flatMap.mp hl
      obtain ⟨t, ht, hres⟩ := (resembles_lines a).mp ⟨l, hl, hres⟩
      exact ⟨t, List.mem_flatMap.mpr ⟨a, ha, ht⟩, hres⟩
    · rintro ⟨t, ht, hres⟩
      obtain ⟨a, ha, ht⟩ := List.mem_flatMap.mp ht
      obtain ⟨l, hl, hres⟩ := (resembles_lines a).mpr ⟨t, ht, hres⟩
      exact ⟨l, List.mem_flatMap.mpr ⟨a, ha, hl⟩, hres⟩
  simp only [Interface.listing, Interface.texts, List.exists_mem_cons_iff,
    List.mem_append, or_and_right, exists_or, haddresses]

end LivoxScripts
