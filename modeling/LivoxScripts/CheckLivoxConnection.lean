/-
`check_livox_connection.sh`: the ports of section [4], and the addresses of the
configuration in section [5], which a second search takes apart before they are
compared with the address of `eth0`.
-/
import LivoxScripts.HostIpUpdate

namespace LivoxScripts.CheckLivoxConnection

open TextTools JsonText

def ports : List Nat := [56101, 56201, 56301, 56401, 56501]

/-- The ports, each with whether a socket listens there. -/
def portReports (netstat : Text) : List (Nat × Bool) :=
  LivoxScripts.portReports ports netstat

/-- `"lidar_ip"\s*:\s*\["[^"]*"` -/
def lidarIpPattern : Regex :=
  keyed isSpace lidarIpKey (enclosed notQuote ['[', '"'] [])

/-- `"host_ip"\s*:\s*"[^"]*"` -/
def hostIpPattern : Regex := keyed isSpace hostIpKey (enclosed notQuote ['"'] [])

/-- `"\K[^"]+` -/
def quotedPattern : Regex := captured notQuote

def lidarIpConfig (configFile : Text) : Text :=
  commandSubst (grepO .perl quotedPattern
    (grepO .perl lidarIpPattern configFile))

def hostIpConfig (configFile : Text) : Text :=
  commandSubst (grepO .perl quotedPattern
    (grepO .perl hostIpPattern configFile))

/-- `CURRENT_HOST_IP`, from what `ip addr show eth0` prints -/
def currentHostIp (ipAddrShowEth0 : Text) : Text :=
  commandSubst (head1 (grepO .perl inetPattern ipAddrShowEth0))

/-- What the section says, with the addresses it prints. -/
inductive ConfigReport where
  | noConfigFile
  | hostMatches (lidarIp hostIp : Text)
  | hostDiffers (lidarIp hostIp currentHostIp : Text)
deriving DecidableEq

def configReport (configFile : Option Text) (ipAddrShowEth0 : Text) :
    ConfigReport :=
  match configFile with
  | none => .noConfigFile
  | some configFile =>
      if currentHostIp ipAddrShowEth0 = hostIpConfig configFile then
        .hostMatches (lidarIpConfig configFile) (hostIpConfig configFile)
      else
        .hostDiffers (lidarIpConfig configFile) (hostIpConfig configFile)
          (currentHostIp ipAddrShowEth0)

/-- The section says that the host address is right. -/
def ConfigReport.isMatch : ConfigReport → Bool
  | hostMatches _ _ => true
  | noConfigFile | hostDiffers _ _ _ => false

end CheckLivoxConnection

open TextTools JsonText CheckLivoxConnection

/-- The first address of the interface of a name. -/
def Machine.devAddress? (m : Machine) (name : Text) : Option Quad :=
  (m.all.find? (·.name = name)).bind Interface.firstAddress?

variable {m : Machine} {doc : Document}

theorem lang_keyed_prefix {name m : Text} {value : Regex}
    (h : m ∈ (keyed isSpace name value).lang) :
    ∃ rest, m = '"' :: (name ++ '"' :: rest) := by
  obtain ⟨u, hu, v, -, rfl⟩ := h
  rw [Regex.lang_lit] at hu
  obtain rfl : u = '"' :: (name ++ ['"']) := hu
  exact ⟨v, by simp⟩

/-- Of a member the second search reports the key first. -/
theorem onlyMatching_quotedPattern (name : Text) (hne : name ≠ [])
    (hname : ∀ c ∈ name, notQuote c = true) (f : Flavor) (rest : Text) :
    ∃ more, quotedPattern.onlyMatching f ('"' :: (name ++ '"' :: rest)) =
      name :: more := by
  have htake : name.takeWhile notQuote = name :=
    List.takeWhile_eq_self_iff.mpr hname
  have hmatch : quotedPattern.matchAt f false ('"' :: (name ++ '"' :: rest)) =
      some ⟨['"'], name, name.dropWhile notQuote ++ '"' :: rest⟩ := by
    have hpick := pick_many1 (f := f) (p := notQuote) (by decide) ['"'] name rest
    rw [htake, if_neg hne] at hpick
    rw [Regex.matchAt, Cursor.start, quotedPattern, run_captured]
    exact hpick
  have hplain : quotedPattern.Plain := captured_plain notQuote
  rw [Regex.onlyMatching, Regex.scan_plain hplain f true false,
    Regex.scan_of_matchAt hmatch, List.flatMap_cons]
  exact ⟨_, rfl⟩

/-- A capture of several lines begins as the first of them. -/
theorem commandSubst_cons (c : Char) (cs : Text) (ls : List Text)
    (hc : c ≠ '\n') :
    ∃ rest, commandSubst (unlines ((c :: cs) :: ls)) = c :: rest := by
  have hcons : unlines ((c :: cs) :: ls) = c :: (cs ++ '\n' :: unlines ls) := by
    simp [unlines]
  obtain ⟨tail, htail⟩ := List.rdropWhile_prefix (· == '\n')
    (c :: (cs ++ '\n' :: unlines ls))
  rw [commandSubst, hcons]
  cases hkept : (c :: (cs ++ '\n' :: unlines ls)).rdropWhile (· == '\n') with
  | nil =>
      have hall := List.rdropWhile_eq_nil_iff.mp hkept c List.mem_cons_self
      exact absurd (by simpa using hall) hc
  | cons d ds =>
      rw [hkept, List.cons_append, List.cons.injEq] at htail
      exact ⟨ds, by rw [htail.1]⟩

/-- The text captured for the host address is empty or begins with the name of
the key. -/
theorem hostIpConfig_cases (configFile : Text) :
    (grepO .perl hostIpPattern configFile = [] ∧
        hostIpConfig configFile = []) ∨
      ∃ rest, grepO .perl hostIpPattern configFile ≠ [] ∧
        hostIpConfig configFile = 'h' :: rest := by
  have hlines := lines_grepO .perl hostIpPattern configFile
  cases hfound : (lines configFile).flatMap
      (hostIpPattern.onlyMatching .perl) with
  | nil =>
      have hnil : grepO .perl hostIpPattern configFile = [] := by
        rw [grepO, hfound]
        rfl
      refine Or.inl ⟨hnil, ?_⟩
      rw [hostIpConfig, hnil]
      rfl
  | cons m ms =>
      have hm : m ∈ (lines configFile).flatMap
          (hostIpPattern.onlyMatching .perl) := by simp [hfound]
      obtain ⟨l, -, hm⟩ := List.mem_flatMap.mp hm
      have hunkept : hostIpPattern.Unkept := by
        refine ⟨Regex.lit_unkept _, trivial, Regex.lit_unkept _, trivial, ?_⟩
        exact ⟨Regex.lit_unkept _, trivial, Regex.lit_unkept _⟩
      have hplain : hostIpPattern.Plain := by
        refine ⟨Regex.lit_plain _, trivial, Regex.lit_plain _, trivial, ?_⟩
        exact enclosed_plain _ _ _
      obtain ⟨rest, rfl⟩ := lang_keyed_prefix (hunkept.mem_lang hplain hm)
      obtain ⟨more, hmore⟩ := onlyMatching_quotedPattern hostIpKey
        (by decide) (List.all_eq_true.mp rfl) .perl rest
      refine Or.inr ?_
      have hcapture : hostIpConfig configFile = commandSubst (unlines
          (hostIpKey :: (more ++
            ms.flatMap (quotedPattern.onlyMatching .perl)))) := by
        rw [hostIpConfig, grepO, hlines, hfound, List.flatMap_cons, hmore,
          List.cons_append]
      obtain ⟨tail, htail⟩ := commandSubst_cons 'h' "ost_ip".toList _
        (by decide)
      refine ⟨tail, ?_, hcapture.trans htail⟩
      rw [grepO, hfound]
      simp [unlines]

theorem currentHostIp_eq_devAddress (m : Machine) (name : Text) :
    CheckLivoxConnection.currentHostIp (m.ipAddrShowDev name) =
      addressText (m.devAddress? name) := by
  rw [CheckLivoxConnection.currentHostIp, Machine.ipAddrShowDev,
    Machine.devAddress?, commandSubst_head1, lines_grepO]
  cases m.all.find? (·.name = name) with
  | none => rfl
  | some i =>
      have hlines : lines (unlines i.listing) = i.listing :=
        lines_unlines fun l hl => newline_not_mem_listing hl
      rw [Option.map_some, Option.getD_some, hlines, onlyMatching_listing,
        Option.bind_some, Interface.firstAddress?]
      cases i.addresses <;> rfl

theorem addressText_eq_nil_iff {q? : Option Quad} :
    addressText q? = [] ↔ q? = none := by
  cases q? with
  | none => simp [addressText]
  | some q => simp [addressText, q.text_ne_nil]

/-- For every text of the configuration: the section calls the host address
right only where `eth0` has no address and no line holds a host address. -/
theorem configReport_isMatch_iff (m : Machine) (configFile : Text) :
    (configReport (some configFile)
        (m.ipAddrShowDev DiagnoseLivoxRos2.eth0Name)).isMatch = true ↔
      m.devAddress? DiagnoseLivoxRos2.eth0Name = none ∧
        grepO .perl hostIpPattern configFile = [] := by
  have hmatch : (configReport (some configFile)
      (m.ipAddrShowDev DiagnoseLivoxRos2.eth0Name)).isMatch = true ↔
        addressText (m.devAddress? DiagnoseLivoxRos2.eth0Name) =
          hostIpConfig configFile := by
    rw [configReport, currentHostIp_eq_devAddress]
    split
    · next h => exact iff_of_true rfl h
    · next h => exact iff_of_false (by simp [ConfigReport.isMatch]) h
  rw [hmatch]
  obtain ⟨hnone, hcapture⟩ | ⟨rest, hsome, hcapture⟩ :=
    hostIpConfig_cases configFile
  · rw [hcapture, addressText_eq_nil_iff]
    exact ⟨fun h => ⟨h, hnone⟩, And.left⟩
  · refine iff_of_false (fun h => ?_) fun h => hsome h.2
    rw [hcapture] at h
    cases hq : m.devAddress? DiagnoseLivoxRos2.eth0Name with
    | none => simp [hq, addressText] at h
    | some q =>
        have hmem : 'h' ∈ q.text := by
          rw [hq] at h
          have htext : q.text = 'h' :: rest := h
          rw [htext]
          exact List.mem_cons_self
        exact not_mem_text (by decide) q hmem

/-- In JSON the first search finds the members that step 4 of
`setup_livox_driver.sh` rewrites. -/
theorem grepO_hostIpPattern_eq_nil_iff {config : Text}
    (hparse : parse config = some doc) :
    grepO .perl hostIpPattern config = [] ↔
      ∀ field ∈ doc.value.fields, ¬ HostRewritten field := by
  obtain rfl := text_of_parse hparse
  have hwithin := enclosed_within ['"'] [] (by decide) (by decide)
  have hlines : lines (grepO .perl hostIpPattern doc.text) =
      doc.value.fields.flatMap (keySite hostIpKey takeEnclosed).reported := by
    rw [hostIpPattern]
    apply capture_keyed (by decide) (enclosed_plain notQuote ['"'] [])
    · intro field _
      rw [hwithin]
      exact cuts_enclosed (by decide) field
    · intro field _
      exact keySite_leafy fun _ t ht => fields_of_takeEnclosed ht
  have hreported : ∀ field : Field,
      (keySite hostIpKey takeEnclosed).reported field = [] ↔
        ¬ HostRewritten field := by
    intro field
    rw [reported_keySite]
    by_cases hsite : ShowsKey hostIpKey field.head.key ∧ field.head.OneLine
    · simp [hsite, HostRewritten, Taken]
    · rw [if_neg hsite]
      exact iff_of_true rfl fun h => hsite ⟨h.1, h.2.1⟩
  have hnil : grepO .perl hostIpPattern doc.text = [] ↔
      lines (grepO .perl hostIpPattern doc.text) = [] := by
    rw [lines_grepO, grepO, unlines, List.flatMap_eq_nil_iff]
    constructor
    · intro h
      exact List.eq_nil_iff_forall_not_mem.mpr fun m hm => by simpa using h m hm
    · intro h
      simp [h]
  rw [hnil, hlines, List.flatMap_eq_nil_iff]
  exact forall₂_congr fun field _ => hreported field

end LivoxScripts
