/-
What the other scripts say about the host address once step 4 of
`setup_livox_driver.sh` has put it right.
-/
import LivoxScripts.CheckLivoxConnection
import LivoxScripts.ConfigReadBack

namespace LivoxScripts

open TextTools JsonText Store

/-- The verdicts about the host address of a configuration that names the first
address of the machine. -/
structure HostVerdicts (m : Machine) (config : Text) (host : Quad) : Prop where
  /-- Section [1] of `diagnose_no_data.sh` finds the address on a card. -/
  noData : DiagnoseNoData.currentIp (DiagnoseNoData.hostIp config)
      m.ip4AddrShowDev m.sysClassNet ≠ [] ↔
    ∃ i ∈ m.interfaces, i.Globbed ∧ i.firstAddress? = some host
  /-- Section [3] of `find_livox_ip.sh` warns. -/
  find : FindLivoxIp.hostDiffers (m.ipAddrShowDev DiagnoseLivoxRos2.eth0Name)
      m.ipAddrShow config = true ↔
    ∃ q, m.devAddress? DiagnoseLivoxRos2.eth0Name = some q ∧ q ≠ host
  /-- Section 4 of `diagnose_livox_ros2.sh` passes. -/
  ros2 : DiagnoseLivoxRos2.hostVerdict (DiagnoseLivoxRos2.hostIp config)
      (m.ipAddrShowDev DiagnoseLivoxRos2.eth0Name) = .pass ↔
    ∃ i ∈ m.all, i.name = DiagnoseLivoxRos2.eth0Name ∧
      i.addresses.map (·.address) = [host]
  /-- Section [5] of `check_livox_connection.sh` never finds a match. -/
  livoxConnection : (CheckLivoxConnection.configReport (some config)
    (m.ipAddrShowDev DiagnoseLivoxRos2.eth0Name)).isMatch = false

variable {m : Machine} {doc : Document} {host : Quad}

theorem currentHostIp_find_eq (m : Machine) :
    FindLivoxIp.currentHostIp (m.ipAddrShowDev DiagnoseLivoxRos2.eth0Name)
        m.ipAddrShow =
      addressText ((m.devAddress? DiagnoseLivoxRos2.eth0Name).or
        m.leadingAddress?) := by
  have heth0 := currentHostIp_eq_devAddress m DiagnoseLivoxRos2.eth0Name
  have hlist := currentHostIp_eq m
  rw [CheckLivoxConnection.currentHostIp] at heth0
  rw [SetupLivoxDriver.currentHostIp] at hlist
  rw [FindLivoxIp.currentHostIp, heth0, hlist]
  cases m.devAddress? DiagnoseLivoxRos2.eth0Name with
  | none => rfl
  | some q =>
      have hne : (addressText (some q)).isEmpty = false := by
        simp [addressText, q.text_ne_nil]
      simp only [hne, Bool.false_eq_true, ↓reduceIte, Option.some_or]

theorem addressText_some_inj {q : Quad} :
    addressText (some q) = host.text ↔ q = host :=
  ⟨Quad.text_injective, fun h => congrArg Quad.text h⟩

/-- What the three readers take from the file. -/
theorem readers_of_firstOf (hkeys : BareKeys doc)
    (hhosts : HoldsQuads hostIpKey doc)
    (hfirst : firstOf (OnLine hostIpKey) stringText doc = some host.text) :
    DiagnoseNoData.hostIp doc.text = host.text ∧
      FindLivoxIp.configHostIp doc.text = host.text ∧
        DiagnoseLivoxRos2.hostIp doc.text = host.text := by
  have hread : ∀ p : Char → Bool, p '"' = false →
      (∀ c, isAddressChar c = true → p c = true) →
        commandSubst (head1 (grepO .perl (keyed isSpace hostIpKey
          (captured p)) doc.text)) = host.text := by
    intro p hq hp
    rw [read_captured (by decide) hq hp hkeys hhosts, hfirst]
    rfl
  refine ⟨?_, ?_, ?_⟩
  · rw [DiagnoseNoData.hostIp, DiagnoseNoData.hostIpPattern,
      hread isAddressChar (by decide) fun _ hc => hc]
    exact orDefault_of_ne_nil host.text_ne_nil
  · rw [FindLivoxIp.configHostIp, FindLivoxIp.hostIpPattern,
      hread notQuote (by decide) fun _ =>
        IsHostConfig.notQuote_of_isAddressChar]
    exact orDefault_of_ne_nil host.text_ne_nil
  · rw [DiagnoseLivoxRos2.hostIp, DiagnoseLivoxRos2.hostIpPattern,
      read_enclosed (by decide) hkeys hhosts, hfirst]
    rfl

/-- The third check wants `eth0` to have this address and no other. -/
theorem ros2_pass_iff :
    DiagnoseLivoxRos2.hostVerdict host.text
        (m.ipAddrShowDev DiagnoseLivoxRos2.eth0Name) = .pass ↔
      ∃ i ∈ m.all, i.name = DiagnoseLivoxRos2.eth0Name ∧
        i.addresses.map (·.address) = [host] := by
  by_cases heth0 : ∃ i ∈ m.all, i.name = DiagnoseLivoxRos2.eth0Name
  · obtain ⟨i, hi, hname⟩ := heth0
    rw [hostVerdict_eq_pass_iff hi hname]
    constructor
    · exact fun hsingle => ⟨i, hi, hname, hsingle⟩
    · rintro ⟨j, hj, hjname, hsingle⟩
      obtain rfl := List.inj_on_of_nodup_map (nodup_names m) hi hj
        (hname.trans hjname.symm)
      exact hsingle
  · have hnone : m.all.find? (·.name = DiagnoseLivoxRos2.eth0Name) = none := by
      rw [List.find?_eq_none]
      intro i hi hname
      exact heth0 ⟨i, hi, by simpa using hname⟩
    have hshow : m.ipAddrShowDev DiagnoseLivoxRos2.eth0Name = [] := by
      rw [Machine.ipAddrShowDev, hnone]
      rfl
    have hwarn : DiagnoseLivoxRos2.hostVerdict host.text [] = .warn := rfl
    rw [hshow, hwarn]
    constructor
    · intro hpass
      exact absurd hpass (by decide)
    · rintro ⟨i, hi, hname, -⟩
      exact absurd ⟨i, hi, hname⟩ heth0

/-- The verdicts, from what the patterns read. -/
theorem hostVerdicts_of_firstOf (hkeys : BareKeys doc)
    (hhosts : HoldsQuads hostIpKey doc)
    (hleading : m.leadingAddress? = some host)
    (hfirst : firstOf (OnLine hostIpKey) stringText doc = some host.text) :
    HostVerdicts m doc.text host := by
  obtain ⟨hnoData, hfind, hros2⟩ := readers_of_firstOf hkeys hhosts hfirst
  refine ⟨?_, ?_, ?_, ?_⟩
  · rw [hnoData]
    exact currentIp_ne_nil_iff
  · rw [FindLivoxIp.hostDiffers, currentHostIp_find_eq, hfind, hleading,
      bne_iff_ne, ne_eq]
    cases m.devAddress? DiagnoseLivoxRos2.eth0Name with
    | none => simp [addressText]
    | some q =>
        rw [Option.some_or, addressText_some_inj]
        simp
  · rw [hros2]
    exact ros2_pass_iff
  · rw [Bool.eq_false_iff, ne_eq, configReport_isMatch_iff,
      grepO_hostIpPattern_eq_nil_iff (parse_text doc)]
    rintro ⟨-, hnone⟩
    obtain ⟨field, hfield, -⟩ := Option.map_eq_some_iff.mp hfirst
    have hmem := List.mem_of_find?_eq_some hfield
    have honline : OnLine hostIpKey field := by
      simpa using List.find?_some hfield
    obtain ⟨s, q, hs, -⟩ := hhosts field hmem honline.1
    exact hnone field hmem ⟨(showsKey_iff_named (hkeys field hmem)).mpr
      honline.1, honline.2, by simp [hs, takeEnclosed]⟩

/-- After any run of the system whose last host address is the first one of the
machine, every script gives the verdict that the cards of the machine call
for. -/
theorem Reaches.hostVerdicts {first s : System} {commands : List Command}
    {config config' : Text} (hparse : parse config = some doc)
    (hdoc : HoldsAddresses doc) (hdisk : first.disk.configFile = some config)
    (h : Reaches first commands s) (hleading : m.leadingAddress? = some host)
    (hlast : lastWrite Command.place? commands (some .hostIp) =
      some (.replaceHostIp (some host)))
    (honline : ∃ field ∈ doc.value.fields, OnLine hostIpKey field)
    (hdisk' : s.disk.configFile = some config') :
    HostVerdicts m config' host := by
  obtain rfl := text_of_parse hparse
  have haddress := hdoc.addressable
  have hconfig' : (patched doc commands).text = config' := by
    rw [h.disk_eq, haddress.configFile_foldl hdisk] at hdisk'
    exact Option.some.inj hdisk'
  have hhosts : HoldsQuads hostIpKey (patched doc commands) :=
    haddress.forall_patched hlast rfl (isQuad_quadValue host) hdoc.hostIps
  rw [← hconfig']
  exact hostVerdicts_of_firstOf (haddress.patched commands).bareKeys hhosts
    hleading ((hdoc.firstOf_hosts hlast).mpr honline)

theorem hostVerdicts_shared : ∃ config', sharedDisk.configFile = some config' ∧
    HostVerdicts (eth0Machine [10]) config' (quad 192 168 31 10) :=
  ⟨_, rfl, Reaches.hostVerdicts (parse_text _) (sampleConfig_holdsAddresses [])
    rfl reaches_shared rfl rfl ⟨⟨plainKey hostIpKey,
      quadValue (quad 192 168 1 100)⟩, List.mem_of_getLast? rfl, by decide⟩ rfl⟩

end LivoxScripts
