/-
The three scripts that check whether the machine carries the configured host
address, and the machines about which they decide it right.
-/
import LivoxScripts.CheckLidarConnection
import LivoxScripts.DiagnoseNoData
import LivoxScripts.DiagnoseLivoxRos2

namespace LivoxScripts

open TextTools

/-- Each script reports what the interfaces carry. -/
structure DecidesHost (m : Machine) (host : Quad) : Prop where
  connection : CheckLidarConnection.hostReport host.text m.ipAddrShow = .ok ↔
    m.Carries host
  noData : DiagnoseNoData.currentIp host.text m.ip4AddrShowDev m.sysClassNet ≠
    [] ↔ m.Carries host
  ros2 : ∀ i ∈ m.interfaces, i.name = DiagnoseLivoxRos2.eth0Name →
    i.addresses ≠ [] →
      (DiagnoseLivoxRos2.hostVerdict host.text
          (m.ipAddrShowDev DiagnoseLivoxRos2.eth0Name) = .pass ↔
        i.Carries host)

/-- What the checks need of a machine: an address it does not carry is found
nowhere in the listing, one it carries is the first of some interface that the
loop sees, and the only one if `eth0` carries it. -/
structure PlainHost (m : Machine) (host : Quad) : Prop where
  hidden : m.Carries host ∨
    ∀ i ∈ m.all, ∀ t ∈ i.texts, ¬ Resembles host t
  leading : m.Carries host →
    ∃ i ∈ m.interfaces, i.Globbed ∧ i.firstAddress? = some host
  single : ∀ i ∈ m.interfaces, i.name = DiagnoseLivoxRos2.eth0Name →
    i.Carries host → i.addresses.map (·.address) = [host]

variable {m : Machine} {host : Quad}

theorem lines_ipAddrShow (m : Machine) :
    lines m.ipAddrShow = m.all.flatMap Interface.listing := by
  apply lines_unlines
  intro l hl
  obtain ⟨i, -, hl⟩ := List.mem_flatMap.mp hl
  exact newline_not_mem_listing hl

theorem hostReport_eq_ok_iff :
    CheckLidarConnection.hostReport host.text m.ipAddrShow = .ok ↔
      ∃ i ∈ m.all, ∃ t ∈ i.texts, Resembles host t := by
  have hfound : grepQ (.dotted host.text) m.ipAddrShow = true ↔
      ∃ i ∈ m.all, ∃ t ∈ i.texts, Resembles host t := by
    rw [grepQ, lines_ipAddrShow, List.any_eq_true]
    simp only [List.mem_flatMap, search_dotted]
    constructor
    · rintro ⟨l, ⟨i, hi, hl⟩, hres⟩
      exact ⟨i, hi, (resembles_listing i).mp ⟨l, hl, hres⟩⟩
    · rintro ⟨i, hi, hres⟩
      obtain ⟨l, hl, hres⟩ := (resembles_listing i).mpr hres
      exact ⟨l, ⟨i, hi, hl⟩, hres⟩
  rw [CheckLidarConnection.hostReport, ← hfound]
  split
  · next h => exact iff_of_true rfl h
  · next h => exact iff_of_false (by simp) h

theorem resembles_cidr {a : InetAddress} (h : a.address = host) :
    Resembles host a.cidr := by
  subst h
  exact ⟨a.address.text, (List.prefix_append _ _).isInfix,
    Regex.mem_lang_dotted.mp (Regex.self_mem_lang_dotted _)⟩

theorem exists_resembling_of_carries (h : m.Carries host) :
    ∃ i ∈ m.all, ∃ t ∈ i.texts, Resembles host t := by
  obtain ⟨i, hi, a, ha, haddress⟩ := h
  refine ⟨i, hi, a.cidr, ?_, resembles_cidr haddress⟩
  have hcidr : a.cidr ∈ i.addresses.flatMap InetAddress.texts :=
    List.mem_flatMap.mpr ⟨a, ha, List.mem_cons_self⟩
  simp [Interface.texts, hcidr]

theorem connection_iff :
    (CheckLidarConnection.hostReport host.text m.ipAddrShow = .ok ↔
        m.Carries host) ↔
      m.Carries host ∨ ∀ i ∈ m.all, ∀ t ∈ i.texts, ¬ Resembles host t := by
  rw [hostReport_eq_ok_iff]
  by_cases hcarries : m.Carries host
  · exact iff_of_true
      (iff_of_true (exists_resembling_of_carries hcarries) hcarries)
      (Or.inl hcarries)
  · simp only [hcarries, iff_false, false_or]
    push Not
    rfl

theorem nodup_names (m : Machine) : (m.all.map Interface.name).Nodup := by
  refine List.nodup_cons.mpr ⟨fun hmem => ?_, m.distinct⟩
  obtain ⟨i, hi, hname⟩ := List.mem_map.mp hmem
  exact m.not_lo i hi (hname.trans m.lo_name)

theorem find?_name {i : Interface} (hi : i ∈ m.all) :
    m.all.find? (·.name = i.name) = some i := by
  have hsome : (m.all.find? (·.name = i.name)).isSome := by
    rw [List.find?_isSome]
    exact ⟨i, hi, by simp⟩
  obtain ⟨j, hj⟩ := Option.isSome_iff_exists.mp hsome
  have hname : j.name = i.name := by simpa using List.find?_some hj
  rw [hj, List.inj_on_of_nodup_map (nodup_names m)
    (List.mem_of_find?_eq_some hj) hi hname]

theorem ip4_capture {i : Interface} (hi : i ∈ m.all) :
    commandSubst (head1 (grepO .perl inetPattern (m.ip4AddrShowDev i.name))) =
      (i.firstAddress?.map Quad.text).getD [] := by
  have hlines : lines (m.ip4AddrShowDev i.name) = i.listing4 := by
    rw [Machine.ip4AddrShowDev, find?_name hi]
    exact lines_unlines fun l hl => newline_not_mem_listing4 hl
  rw [commandSubst_head1, lines_grepO, hlines, onlyMatching_listing4,
    Interface.firstAddress?]
  cases i.addresses with
  | nil => rfl
  | cons a as => rfl

/-- What one step of the loop does: it compares the first address. -/
theorem checkInterface_eq {i : Interface} (hi : i ∈ m.all) (current : Text) :
    DiagnoseNoData.checkInterface host.text m.ip4AddrShowDev current i.name =
      if i.name ≠ loName ∧ i.firstAddress? = some host then host.text
      else current := by
  rw [DiagnoseNoData.checkInterface, ip4_capture hi]
  by_cases hlo : i.name = loName
  · simp [hlo]
  · cases hfirst : i.firstAddress? with
    | none => simp [hlo]
    | some q =>
        by_cases hq : q = host
        · simp [hlo, hq, Quad.text_ne_nil]
        · have htext : q.text ≠ host.text := fun h =>
            hq (Quad.text_injective h)
          simp [hlo, hq, htext]

/-- What the whole loop leaves in `CURRENT_IP`. -/
theorem foldl_checkInterface {names : List Text}
    (hnames : ∀ name ∈ names, ∃ i ∈ m.all, i.name = name) (current : Text) :
    names.foldl (DiagnoseNoData.checkInterface host.text m.ip4AddrShowDev)
        current ≠ [] ↔
      current ≠ [] ∨ ∃ i ∈ m.all, i.name ∈ names ∧ i.name ≠ loName ∧
        i.firstAddress? = some host := by
  induction names generalizing current with
  | nil => simp
  | cons name names ih =>
      obtain ⟨i, hi, rfl⟩ := hnames name List.mem_cons_self
      have htail : ∀ name ∈ names, ∃ i ∈ m.all, i.name = name :=
        fun name hname => hnames name (List.mem_cons_of_mem _ hname)
      rw [List.foldl_cons, ih htail, checkInterface_eq hi]
      by_cases hfound : i.name ≠ loName ∧ i.firstAddress? = some host
      · rw [if_pos hfound]
        exact iff_of_true (Or.inl host.text_ne_nil)
          (Or.inr ⟨i, hi, List.mem_cons_self, hfound⟩)
      · rw [if_neg hfound]
        refine or_congr_right (exists_congr fun j =>
          and_congr_right fun hj => ?_)
        constructor
        · rintro ⟨hmem, hrest⟩
          exact ⟨List.mem_cons_of_mem _ hmem, hrest⟩
        · rintro ⟨hmem, hrest⟩
          rcases List.mem_cons.mp hmem with hname | hmem
          · obtain rfl := List.inj_on_of_nodup_map (nodup_names m) hj hi hname
            exact absurd hrest hfound
          · exact ⟨hmem, hrest⟩

theorem currentIp_ne_nil_iff :
    DiagnoseNoData.currentIp host.text m.ip4AddrShowDev m.sysClassNet ≠ [] ↔
      ∃ i ∈ m.interfaces, i.Globbed ∧ i.firstAddress? = some host := by
  have hmem : ∀ name, name ∈ m.sysClassNet ↔
      ∃ i ∈ m.all, i.Globbed ∧ i.name = name := by
    intro name
    simp [Machine.sysClassNet, and_assoc]
  have hnames : ∀ name ∈ m.sysClassNet, ∃ i ∈ m.all, i.name = name := by
    intro name hname
    obtain ⟨i, hi, -, rfl⟩ := (hmem name).mp hname
    exact ⟨i, hi, rfl⟩
  rw [DiagnoseNoData.currentIp, foldl_checkInterface hnames]
  constructor
  · rintro (hnil | ⟨i, hi, hname, hlo, hfirst⟩)
    · exact absurd rfl hnil
    · obtain ⟨j, hj, hglobbed, hsame⟩ := (hmem _).mp hname
      obtain rfl := List.inj_on_of_nodup_map (nodup_names m) hj hi hsame
      rcases List.mem_cons.mp hi with rfl | hi
      · exact absurd m.lo_name hlo
      · exact ⟨j, hi, hglobbed, hfirst⟩
  · rintro ⟨i, hi, hglobbed, hfirst⟩
    have hall : i ∈ m.all := List.mem_cons_of_mem _ hi
    exact Or.inr ⟨i, hall, (hmem _).mpr ⟨i, hall, hglobbed, rfl⟩,
      m.not_lo i hi, hfirst⟩

theorem carries_of_first {i : Interface} (hi : i ∈ m.interfaces)
    (hfirst : i.firstAddress? = some host) : m.Carries host := by
  have hmem := List.mem_of_head? hfirst
  obtain ⟨a, ha, haddress⟩ := List.mem_map.mp hmem
  exact ⟨i, List.mem_cons_of_mem _ hi, a, ha, haddress⟩

theorem noData_iff :
    (DiagnoseNoData.currentIp host.text m.ip4AddrShowDev m.sysClassNet ≠ [] ↔
        m.Carries host) ↔
      (m.Carries host → ∃ i ∈ m.interfaces,
        i.Globbed ∧ i.firstAddress? = some host) := by
  rw [currentIp_ne_nil_iff]
  constructor
  · exact Iff.mpr
  · intro h
    refine ⟨?_, h⟩
    rintro ⟨i, hi, -, hfirst⟩
    exact carries_of_first hi hfirst

theorem words_line (a : InetAddress) : (words a.line).getD 1 [] = a.cidr := by
  have hcidr : ∀ c ∈ a.cidr, isBlank c = false := by
    intro c hc
    have hspace := not_mem_cidr (c := ' ') (by decide) (by decide) a
    have htab := not_mem_cidr (c := '\t') (by decide) (by decide) a
    have hne : c ≠ ' ' ∧ c ≠ '\t' :=
      ⟨fun h => hspace (h ▸ hc), fun h => htab (h ▸ hc)⟩
    simp [isBlank, hne]
  have hnil : a.cidr ≠ [] := by simp [InetAddress.cidr]
  obtain ⟨rest, hrest⟩ : ∃ rest,
      a.brd ++ (" scope ".toList ++ a.scope.1) = ' ' :: rest := by
    unfold InetAddress.brd
    split
    · exact ⟨_, rfl⟩
    · exact ⟨_, rfl⟩
  have hline : a.line = ' ' :: ' ' :: ' ' :: ' ' ::
      ("inet".toList ++ ' ' :: (a.cidr ++ ' ' :: rest)) := by
    rw [InetAddress.line, hrest]
    rfl
  have hinet : ∀ c ∈ "inet".toList, isBlank c = false := by
    simp [isBlank]
  rw [hline, words, wordsBy_sep rfl, wordsBy_sep rfl, wordsBy_sep rfl,
    wordsBy_sep rfl, wordsBy_word (by decide) hinet rfl,
    wordsBy_word hnil hcidr rfl]
  rfl

theorem cut_cidr (a : InetAddress) :
    ['/'].intercalate ((a.cidr.splitOn '/').take 1) = a.address.text := by
  have hslash : '/' ∉ a.address.text := not_mem_text (by decide) _
  rw [InetAddress.cidr, List.splitOn_append_cons_self_of_not_mem hslash]
  simp

theorem actualIp_eq {i : Interface} (hi : i ∈ m.all)
    (hname : i.name = DiagnoseLivoxRos2.eth0Name) :
    DiagnoseLivoxRos2.actualIp
        (m.ipAddrShowDev DiagnoseLivoxRos2.eth0Name) =
      commandSubst (unlines (i.addresses.map (·.address.text))) := by
  have hlines : lines (m.ipAddrShowDev DiagnoseLivoxRos2.eth0Name) =
      i.listing := by
    rw [Machine.ipAddrShowDev, ← hname, find?_name hi]
    exact lines_unlines fun l hl => newline_not_mem_listing hl
  have hnewline : ∀ a : InetAddress, '\n' ∉ a.cidr := fun a =>
    not_mem_cidr (by decide) (by decide) a
  rw [DiagnoseLivoxRos2.actualIp, cut, awkPrint, lines_grep, hlines,
    filter_inet_listing, lines_unlines]
  · simp only [List.map_map, Function.comp_def, words_line, cut_cidr]
  · intro l hl
    simp only [List.map_map, List.mem_map, Function.comp_apply,
      words_line] at hl
    obtain ⟨a, -, rfl⟩ := hl
    exact hnewline a

/-- Several addresses are captured as several lines. -/
theorem hostVerdict_eq_pass_iff {i : Interface} (hi : i ∈ m.all)
    (hname : i.name = DiagnoseLivoxRos2.eth0Name) :
    DiagnoseLivoxRos2.hostVerdict host.text
        (m.ipAddrShowDev DiagnoseLivoxRos2.eth0Name) = .pass ↔
      i.addresses.map (·.address) = [host] := by
  have htexts : i.addresses.map (·.address.text) = [host.text] ↔
      i.addresses.map (·.address) = [host] := by
    have hmap : i.addresses.map (·.address.text) =
        (i.addresses.map (·.address)).map Quad.text := by simp
    rw [hmap]
    constructor
    · intro h
      exact List.map_injective_iff.mpr (fun _ _ => Quad.text_injective) h
    · intro h
      rw [h]
      rfl
  have hactual : DiagnoseLivoxRos2.actualIp
      (m.ipAddrShowDev DiagnoseLivoxRos2.eth0Name) = host.text ↔
        i.addresses.map (·.address) = [host] := by
    rw [actualIp_eq hi hname, ← htexts]
    apply commandSubst_unlines_eq_iff
    · intro l hl
      obtain ⟨a, -, rfl⟩ := List.mem_map.mp hl
      exact ⟨Quad.text_ne_nil _, not_mem_text (by decide) _⟩
    · exact host.text_ne_nil
    · exact not_mem_text (by decide) _
  rw [DiagnoseLivoxRos2.hostVerdict, ← hactual]
  by_cases hsame : DiagnoseLivoxRos2.actualIp
      (m.ipAddrShowDev DiagnoseLivoxRos2.eth0Name) = host.text
  · simp [hsame, Quad.text_ne_nil]
  · simp only [hsame, ↓reduceIte, iff_false]
    split <;> simp

theorem ros2_iff {i : Interface} (hi : i ∈ m.all)
    (hname : i.name = DiagnoseLivoxRos2.eth0Name) :
    (DiagnoseLivoxRos2.hostVerdict host.text
        (m.ipAddrShowDev DiagnoseLivoxRos2.eth0Name) = .pass ↔
          i.Carries host) ↔
      (i.Carries host → i.addresses.map (·.address) = [host]) := by
  rw [hostVerdict_eq_pass_iff hi hname]
  constructor
  · exact Iff.mpr
  · intro h
    refine ⟨fun hsingle => ?_, h⟩
    have hmem : host ∈ i.addresses.map (·.address) := by simp [hsingle]
    exact List.mem_map.mp hmem

/-- The scripts decide an address right exactly on the machines where nothing
resembles it and it hides behind no other address. -/
theorem decidesHost_iff (m : Machine) (host : Quad) :
    DecidesHost m host ↔ PlainHost m host := by
  constructor
  · rintro ⟨hconnection, hnoData, hros2⟩
    refine ⟨connection_iff.mp hconnection, noData_iff.mp hnoData,
      fun i hi hname hcarries => ?_⟩
    have hall : i ∈ m.all := List.mem_cons_of_mem _ hi
    obtain ⟨a, ha, haddress⟩ := hcarries
    exact (ros2_iff hall hname).mp
      (hros2 i hi hname (List.ne_nil_of_mem ha)) ⟨a, ha, haddress⟩
  · rintro ⟨hhidden, hleading, hsingle⟩
    refine ⟨connection_iff.mpr hhidden, noData_iff.mpr hleading,
      fun i hi hname _ => ?_⟩
    have hall : i ∈ m.all := List.mem_cons_of_mem _ hi
    exact (ros2_iff hall hname).mpr (hsingle i hi hname)

def loInterface : Interface where
  name := loName
  header := ⟨"1: lo: <LOOPBACK,UP,LOWER_UP> mtu 65536".toList,
    isOtherText (by decide) (by decide)⟩
  link := []
  addresses := [⟨quad 127 0 0 1, octet 8, none,
    ⟨"host lo".toList, isOtherText (by decide) (by decide)⟩,
    ⟨[], isOtherText (by simp) (by decide)⟩⟩]
  inet6 := []

/-- An address of `eth0` in the network `192.168.31.0/24`. -/
def eth0Address (n : Nat) : InetAddress :=
  ⟨quad 192 168 31 n, octet 24, some (quad 192 168 31 255),
    ⟨"global eth0".toList, isOtherText (by decide) (by decide)⟩,
    ⟨[], isOtherText (by simp) (by decide)⟩⟩

def eth0Interface (ns : List Nat) : Interface where
  name := DiagnoseLivoxRos2.eth0Name
  header := ⟨"2: eth0: <BROADCAST,MULTICAST,UP,LOWER_UP> mtu 1500".toList,
    isOtherText (by decide) (by decide)⟩
  link := []
  addresses := ns.map eth0Address
  inet6 := []

/-- A machine whose `eth0` carries these addresses. -/
def eth0Machine (ns : List Nat) : Machine where
  lo := loInterface
  interfaces := [eth0Interface ns]
  lo_name := rfl
  lo_address := rfl
  distinct := by simp
  not_lo := by
    intro i hi
    obtain rfl := List.mem_singleton.mp hi
    change DiagnoseLivoxRos2.eth0Name ≠ loName
    decide

/-- The second address of an interface is its own, but the loop over the
interfaces does not see it. -/
theorem not_decidesHost_second :
    ¬ DecidesHost (eth0Machine [10, 25]) (quad 192 168 31 25) := by
  intro h
  have hcarries : (eth0Machine [10, 25]).Carries (quad 192 168 31 25) :=
    ⟨eth0Interface [10, 25], List.mem_cons_of_mem _ List.mem_cons_self,
      eth0Address 25, by simp [eth0Interface], rfl⟩
  obtain ⟨i, hi, -, hfirst⟩ := currentIp_ne_nil_iff.mp (h.noData.mpr hcarries)
  obtain rfl := List.mem_singleton.mp hi
  exact absurd hfirst (by decide)

end LivoxScripts
