/-
What step 4 of `setup_livox_driver.sh` makes of the host address, and the
machines and layouts on which it leaves it right.
-/
import LivoxScripts.ConfigUpdate
import LivoxScripts.HostAddress
import LivoxScripts.SetupLivoxDriver
import LivoxScripts.Json.QuoteState

namespace LivoxScripts

open TextTools JsonText SetupLivoxDriver

def isObject : Value → Bool
  | .obj _ | .emptyObj _ => true
  | _ => false

/-- The objects under `host_net_info`, alone or in an array. -/
def hostNetObjects (doc : Document) : List Value :=
  (doc.value.fieldsNamed hostNetInfoKey).flatMap fun v =>
    (v :: v.elements).filter isObject

/-- Every object under `host_net_info` has this host address, under a key used
nowhere else. -/
structure IsHostNetConfig (doc : Document) (host : Quad) : Prop where
  hostIp : ∀ object ∈ hostNetObjects doc, ∃ v,
    object.lookup hostIpKey = [v] ∧ v.stringUnits = some (textUnits host.text)
  hostIpOnly : (doc.value.fieldsNamed hostIpKey).Perm
    ((hostNetObjects doc).flatMap (Value.lookup hostIpKey))

/-- The addresses in the `host_ip` fields. -/
def hostAddresses (doc : Document) : List (List Nat) :=
  (doc.value.fieldsNamed hostIpKey).filterMap Value.stringUnits

/-- A value that names an address of an interface other than `lo`. -/
def NamesOwnAddress (m : Machine) (v : Value) : Prop :=
  ∃ q : Quad, v.stringUnits = some (textUnits q.text) ∧
    ∃ i ∈ m.interfaces, i.Carries q

/-- The text is a configuration whose host addresses are the machine's own and
that differs from the old one in host addresses only. -/
def RepairedTo (m : Machine) (doc : Document) (config : Text) : Prop :=
  ∃ doc', parse config = some doc' ∧
    (∀ v ∈ doc'.value.fieldsNamed hostIpKey, NamesOwnAddress m v) ∧
    doc.AgreeOutside [hostIpKey] doc'

/-- The step is quiet about an address the machine carries, repairs the
configuration when the user agrees and leaves it alone when not. -/
structure LeavesHostRight (m : Machine) (doc : Document) (config : Text) :
    Prop where
  quiet : ∀ host : Quad, textUnits host.text ∈ hostAddresses doc →
    m.Carries host → ∀ response files, files.configFile = some config →
      (step4 m.ipAddrShow response files).1.isMismatch = false ∧
        (step4 m.ipAddrShow response files).2.configFile = some config
  repaired : ∀ line files, files.configFile = some config →
    (step4 m.ipAddrShow (some line) files).1.isMismatch → agrees line →
      ∃ config', (step4 m.ipAddrShow (some line) files).2.configFile =
        some config' ∧ RepairedTo m doc config'
  declined : ∀ response files, files.configFile = some config →
    response.any agrees = false →
      (step4 m.ipAddrShow response files).2.configFile = some config

/-- The first address of the listing in which `127.0.0.1` is not found. -/
def Machine.leadingAddress? (m : Machine) : Option Quad :=
  (m.all.flatMap fun i => i.addresses.map (·.address)).find? fun q =>
    ¬ Resembles (quad 127 0 0 1) q.text

/-- What a script captures of an address that may be missing. -/
def addressText (q? : Option Quad) : Text := (q?.map Quad.text).getD []

/-- The key of the member ends as `host_ip` does and a string stands on its
line. -/
def HostRewritten (field : Field) : Prop := Taken hostIpKey takeEnclosed field

instance : DecidablePred HostRewritten := fun _ =>
  inferInstanceAs (Decidable (Taken _ _ _))

/-- The string of such a member up to its first quote. -/
def shownHost? (field : Field) : Option Text :=
  if ShowsKey hostIpKey field.head.key ∧ field.head.OneLine then
    match field.value with
    | .str s => if upToQuote s = [] then none else some (upToQuote s)
    | _ => none
  else none

/-- The first such string is the first address of the machine. -/
def ShowsLeading (m : Machine) (doc : Document) : Prop :=
  doc.value.fields.findSome? shownHost? = m.leadingAddress?.map Quad.text

/-- What the step needs: an address that the machine carries is its first one
and stands where it is looked for; else every member that is rewritten is a
host address, or holds the new address already, and every host address is
rewritten, or is the machine's own already. -/
structure UpdatableHost (m : Machine) (doc : Document) : Prop where
  carried : ∀ host : Quad, textUnits host.text ∈ hostAddresses doc →
    m.Carries host → ShowsLeading m doc
  others : ¬ ShowsLeading m doc → ∀ field ∈ doc.value.fields,
    HostRewritten field → ¬ field.Named hostIpKey →
      field.value.stringUnits =
        some (textUnits (addressText m.leadingAddress?))
  hosts : ¬ ShowsLeading m doc → ∀ field ∈ doc.value.fields,
    field.Named hostIpKey →
      if HostRewritten field then m.leadingAddress?.isSome
      else NamesOwnAddress m field.value

variable {m : Machine} {doc : Document} {host : Quad} {field : Field}

theorem currentHostIp_eq (m : Machine) :
    currentHostIp m.ipAddrShow = addressText m.leadingAddress? := by
  have hlines : lines (grepO .perl inetPattern m.ipAddrShow) =
      (m.all.flatMap fun i => i.addresses.map (·.address)).map Quad.text := by
    rw [lines_grepO, lines_ipAddrShow, List.flatMap_assoc, List.map_flatMap]
    refine List.flatMap_congr fun i _ => ?_
    rw [onlyMatching_listing, List.map_map]
    rfl
  have hlo : "127.0.0.1".toList = (quad 127 0 0 1).text := by decide
  rw [currentHostIp, commandSubst_head1, lines_grepV, hlines, hlo,
    List.headD_eq_head?_getD, List.filter_map, List.head?_map,
    List.head?_filter, addressText, Machine.leadingAddress?]
  congr 3
  funext q
  rw [Function.comp_apply, Bool.eq_iff_iff, Bool.not_eq_true',
    ← Bool.not_eq_true, search_dotted, decide_eq_true_iff]

theorem reported_captured (field : Field) :
    (keySite hostIpKey (takeCaptured fun c => notQuote c && notNewline c)
      ).reported field = (shownHost? field).toList := by
  rw [reported_keySite, shownHost?]
  split
  · cases field.value with
    | str s =>
        have hall : (upToQuote s).takeWhile
            (fun c => notQuote c && notNewline c) = upToQuote s :=
          List.takeWhile_eq_self_iff.mpr fun c hc => mem_upToQuote hc
        by_cases hnil : upToQuote s = []
        · simp [takeCaptured, hnil]
        · simp [takeCaptured, hall, hnil, Take.cursor]
    | _ => rfl
  · rfl

theorem configHostIp_eq (doc : Document) :
    configHostIp doc.text =
      (doc.value.fields.findSome? shownHost?).getD [] := by
  rw [configHostIp, hostIpPattern, commandSubst_head1,
    capture_keyed (by decide) (captured_plain notQuote)
      (keySite hostIpKey (takeCaptured fun c => notQuote c && notNewline c)),
    List.flatMap_congr fun field _ => reported_captured field,
    List.headD_eq_head?_getD, List.head?_flatMap]
  · congr 2
    funext field
    cases shownHost? field <;> rfl
  · intro field _
    rw [captured_within]
    exact cuts_captured (by decide) (by decide) field
  · intro field _
    exact keySite_leafy fun _ t ht => fields_of_takeCaptured ht

theorem shownHost?_ne_nil {t : Text} (h : shownHost? field = some t) :
    t ≠ [] := by
  unfold shownHost? at h
  split at h
  · split at h
    · split at h
      · simp at h
      · next hne => exact Option.some.inj h ▸ hne
    · simp at h
  · simp at h

/-- The step is quiet exactly when the first address stands where it is looked
for. -/
theorem currentHostIp_eq_configHostIp_iff :
    currentHostIp m.ipAddrShow = configHostIp doc.text ↔
      ShowsLeading m doc := by
  have hshown : ∀ t ∈ doc.value.fields.findSome? shownHost?, t ≠ [] := by
    intro t ht
    obtain ⟨field, -, hfield⟩ := List.exists_of_findSome?_eq_some ht
    exact shownHost?_ne_nil hfield
  rw [currentHostIp_eq, configHostIp_eq, addressText, ShowsLeading]
  cases hfirst : doc.value.fields.findSome? shownHost? with
  | none => cases m.leadingAddress? <;> simp [Quad.text_ne_nil]
  | some t =>
      have hne := hshown t hfirst
      cases m.leadingAddress? with
      | none => simp [Ne.symm hne]
      | some q => simp [eq_comm]

/-- What has to be shown about the step. -/
theorem leavesHostRight_iff {config : Text} :
    LeavesHostRight m doc config ↔
      (∀ host : Quad, textUnits host.text ∈ hostAddresses doc →
        m.Carries host →
          currentHostIp m.ipAddrShow = configHostIp config) ∧
      (currentHostIp m.ipAddrShow ≠ configHostIp config →
        RepairedTo m doc
          (updateConfig (currentHostIp m.ipAddrShow) config)) := by
  constructor
  · rintro ⟨hquiet, hrepaired, -⟩
    have hfiles : (Files.mk (some config) none).configFile = some config := rfl
    refine ⟨fun host hhost hcarries => ?_, fun hdiffer => ?_⟩
    · have hstep := (hquiet host hhost hcarries none _ hfiles).1
      rwa [Bool.eq_false_iff, ne_eq, isMismatch_iff hfiles, not_not] at hstep
    · have hy : agrees ['y'] = true := by decide
      have hany : (some ['y']).any agrees = true := hy
      obtain ⟨config', hconfig', hright⟩ := hrepaired ['y'] _ hfiles
        ((isMismatch_iff hfiles).mpr hdiffer) hy
      rw [step4_files hfiles, if_pos ⟨hdiffer, hany⟩] at hconfig'
      exact Option.some.inj hconfig' ▸ hright
  · rintro ⟨hquiet, hrepaired⟩
    refine ⟨fun host hhost hcarries response files hfiles => ?_,
      fun line files hfiles hmismatch hline => ?_,
      fun response files hfiles hno => ?_⟩
    · have hsame := hquiet host hhost hcarries
      refine ⟨Bool.eq_false_iff.mpr fun h =>
        (isMismatch_iff hfiles).mp h hsame, ?_⟩
      rw [step4_files hfiles, if_neg fun h => h.1 hsame]
      exact hfiles
    · have hdiffer := (isMismatch_iff hfiles).mp hmismatch
      have hany : (some line).any agrees = true := hline
      rw [step4_files hfiles, if_pos ⟨hdiffer, hany⟩]
      exact ⟨_, rfl, hrepaired hdiffer⟩
    · rw [step4_files hfiles, if_neg fun h => by simp [hno] at h]
      exact hfiles

/-- The member value that names an address, or nothing when there is none. -/
def hostValue (q? : Option Quad) : Value := .str (spell (addressText q?))

def hostEdit (q? : Option Quad) : Edit :=
  replaceAt hostIpKey takeEnclosed (hostValue q?)

theorem raw_spell_addressText (q? : Option Quad) :
    raw (spell (addressText q?)) = addressText q? := by
  cases q? with
  | none => rfl
  | some q => exact raw_spell_quad q

theorem stringUnits_hostValue (q? : Option Quad) :
    (hostValue q?).stringUnits = some (textUnits (addressText q?)) := by
  rw [hostValue, Value.stringUnits, units_of_bare (bare_spell _),
    raw_spell_addressText]

theorem replacement_eq (q? : Option Quad) :
    "\"host_ip\": \"".toList ++ (addressText q? ++ "\"".toList) =
      memberText hostIpKey (hostValue q?) := by
  have hleft : "\"host_ip\": \"".toList =
      '"' :: (hostIpKey ++ ['"', ':', ' ', '"']) := by decide
  have hright : "\"".toList = ['"'] := by decide
  rw [hleft, hright]
  simp [memberText, Value.text, hostValue, quoted, raw_spell_addressText]

/-- A value that goes on after an escaped quote breaks the file. -/
theorem parse_updateConfig_eq_none (q? : Option Quad)
    (h : ∃ field ∈ doc.value.fields, Severed hostIpKey field) :
    parse (updateConfig (addressText q?) doc.text) = none := by
  rw [updateConfig, hostIpMember, replacement_eq]
  exact parse_sed_eq_none (by decide) ⟨'h', by decide, by decide⟩ h _

/-- Without such values the rewrite is an edit of the document. -/
theorem updateConfig_host_eq (q? : Option Quad)
    (h : ∀ field ∈ doc.value.fields, ¬ Severed hostIpKey field) :
    updateConfig (addressText q?) doc.text =
      (doc.patch (hostEdit q?)).text := by
  have hwithin := enclosed_within ['"'] [] (by decide) (by decide)
  rw [updateConfig, hostIpMember, replacement_eq]
  apply sed_keyed (by decide) (enclosed_plain _ _ _)
  · intro field _
    rw [hwithin]
    exact cuts_enclosed (by decide) field
  · intro field hfield hshow hline t ht
    cases hv : field.value with
    | str s =>
        have hs : quoteItem ∉ s := fun hmem => h field hfield
          ⟨⟨hshow, hline, by rw [ht]; rfl⟩, s, hv, hmem⟩
        rw [hv, takeEnclosed, Option.some.injEq] at ht
        rw [← ht]
        exact (upToQuote_of_not_mem hs).2
    | _ => simp [hv, takeEnclosed] at ht

theorem HostRewritten.exists_str (h : HostRewritten field) :
    ∃ s, field.value = .str s := by
  obtain ⟨-, -, htake⟩ := h
  cases hv : field.value with
  | str s => exact ⟨s, rfl⟩
  | _ => simp [hv, takeEnclosed] at htake

theorem HostRewritten.fields (h : HostRewritten field) :
    field.value.fields = [] := by
  obtain ⟨s, hs⟩ := h.exists_str
  rw [hs]
  rfl

/-- The value of an address has no quote in it. -/
theorem quoteItem_not_mem_of_units {s : JString} {q? : Option Quad}
    (h : units s = textUnits (addressText q?)) : quoteItem ∉ s := by
  intro hmem
  have hunit : 34 ∈ units s :=
    List.mem_flatMap.mpr ⟨quoteItem, hmem, by decide⟩
  rw [h] at hunit
  obtain ⟨c, hc, hunits⟩ := List.mem_flatMap.mp hunit
  have haddr : isAddressChar c = true := by
    cases q? with
    | none => simp [addressText] at hc
    | some q => exact isAddressChar_of_mem hc
  have hquote : c = '"' := by
    unfold charUnits at hunits
    split at hunits
    · exact Char.toNat_inj.mp (List.mem_singleton.mp hunits).symm
    · simp only [List.mem_cons, List.not_mem_nil, or_false] at hunits
      omega
  rw [hquote] at haddr
  exact absurd haddr (by decide)

theorem hostEdit_leafy (q? : Option Quad) (field : Field) :
    (hostEdit q?).Leafy field :=
  replaceAt_leafy rfl HostRewritten.fields

/-- A rewritten member names the new address; the others are left alone. -/
theorem apply_hostEdit_value (q? : Option Quad)
    (hnone : field.value.fields = []) :
    ((hostEdit q?).apply field).value =
      if HostRewritten field then hostValue q? else field.value :=
  apply_replaceAt_value hnone

theorem keepsValue_hostEdit_iff (q? : Option Quad) :
    KeepsValue [hostIpKey] (hostEdit q?) field ↔
      (HostRewritten field → ¬ field.Named hostIpKey →
        field.value.stringUnits = some (textUnits (addressText q?))) := by
  have hhidden : Hidden [hostIpKey] field ↔ field.Named hostIpKey := by
    simp [Hidden, Field.Named]
  rw [KeepsValue, hhidden, hostEdit, replaceAt_eq]
  by_cases hrewritten : HostRewritten field
  · obtain ⟨s, hs⟩ := hrewritten.exists_str
    have htaken : Taken hostIpKey takeEnclosed field := hrewritten
    have hunits := stringUnits_hostValue q?
    rw [hostValue, Value.stringUnits, Option.some.injEq] at hunits
    simp only [htaken, ↓reduceIte, Option.mem_def, Option.some.injEq,
      forall_eq', hrewritten, forall_const, Field.withValue, hostValue, hs,
      Value.denote, hunits, Json.str.injEq, Value.stringUnits,
      Classical.or_iff_not_imp_left]
    exact imp_congr_right fun _ => eq_comm
  · have htaken : ¬ Taken hostIpKey takeEnclosed field := hrewritten
    simp [htaken, hrewritten]

theorem IsHostNetConfig.stringUnits (h : IsHostNetConfig doc host)
    (hfield : field ∈ doc.value.fields) (hnamed : field.Named hostIpKey) :
    field.value.stringUnits = some (textUnits host.text) := by
  have hmem := h.hostIpOnly.subset
    (mem_fieldsNamed.mpr ⟨field, hfield, hnamed, rfl⟩)
  obtain ⟨object, hobject, hvalue⟩ := List.mem_flatMap.mp hmem
  obtain ⟨v, hv, hunits⟩ := h.hostIp object hobject
  rw [hv, List.mem_singleton] at hvalue
  exact hvalue ▸ hunits

theorem fields_of_stringUnits {v : Value} {units : List Nat}
    (h : v.stringUnits = some units) : v.fields = [] := by
  cases v with
  | str s => rfl
  | _ => simp [Value.stringUnits] at h

/-- The first address outside `lo` is carried by another interface. -/
theorem exists_carries_of_leadingAddress {q : Quad}
    (h : m.leadingAddress? = some q) : ∃ i ∈ m.interfaces, i.Carries q := by
  have hmem := List.mem_of_find?_eq_some h
  have hforeign := List.find?_some h
  obtain ⟨i, hi, hq⟩ := List.mem_flatMap.mp hmem
  obtain ⟨a, ha, haddress⟩ := List.mem_map.mp hq
  rcases List.mem_cons.mp hi with rfl | hi
  · have hpair : (a.address, a.prefixLength) ∈
        [(quad 127 0 0 1, octet 8)] :=
      m.lo_address ▸ List.mem_map_of_mem ha
    have hlo : q = quad 127 0 0 1 := by
      rw [← haddress]
      exact congrArg Prod.fst (List.mem_singleton.mp hpair)
    have hself : Resembles (quad 127 0 0 1) (quad 127 0 0 1).text := by decide
    simp [hlo, hself] at hforeign
  · exact ⟨i, hi, a, ha, haddress⟩

theorem namesOwnAddress_hostValue_iff :
    NamesOwnAddress m (hostValue m.leadingAddress?) ↔
      m.leadingAddress?.isSome = true := by
  rw [NamesOwnAddress, stringUnits_hostValue]
  cases hleading : m.leadingAddress? with
  | none =>
      refine iff_of_false ?_ (by simp)
      rintro ⟨q, hq, -⟩
      exact q.text_ne_nil (textUnits_injective (Option.some.inj hq)).symm
  | some q =>
      exact iff_of_true
        ⟨q, rfl, exists_carries_of_leadingAddress hleading⟩ rfl

theorem agreeOutside_hostEdit_iff (hdoc : IsHostNetConfig doc host)
    (q? : Option Quad) :
    doc.AgreeOutside [hostIpKey] (doc.patch (hostEdit q?)) ↔
      ∀ field ∈ doc.value.fields, HostRewritten field →
        ¬ field.Named hostIpKey → field.value.stringUnits =
          some (textUnits (addressText q?)) := by
  rw [agreeOutside_patch_iff]
  · exact forall₂_congr fun field _ => keepsValue_hostEdit_iff q?
  · intro field hfield
    refine keepsShape_replaceAt HostRewritten.fields fun hhidden => ?_
    have hnamed : field.Named hostIpKey := by
      simpa [Hidden, Field.Named] using hhidden
    exact fields_of_stringUnits (hdoc.stringUnits hfield hnamed)

theorem hosts_hostEdit_iff (hdoc : IsHostNetConfig doc host) :
    (∀ v ∈ (doc.patch (hostEdit m.leadingAddress?)).value.fieldsNamed hostIpKey,
        NamesOwnAddress m v) ↔
      ∀ field ∈ doc.value.fields, field.Named hostIpKey →
        if HostRewritten field then m.leadingAddress?.isSome
        else NamesOwnAddress m field.value := by
  have hfields : (doc.patch (hostEdit m.leadingAddress?)).value.fields =
      doc.value.fields.map (hostEdit m.leadingAddress?).apply :=
    fields_patch fun field _ => hostEdit_leafy m.leadingAddress? field
  have hvalue : ∀ field ∈ doc.value.fields, field.Named hostIpKey →
      (NamesOwnAddress m
          ((hostEdit m.leadingAddress?).apply field).value ↔
        if HostRewritten field then m.leadingAddress?.isSome = true
        else NamesOwnAddress m field.value) := by
    intro field hfield hnamed
    rw [apply_hostEdit_value _
      (fields_of_stringUnits (hdoc.stringUnits hfield hnamed))]
    split
    · exact namesOwnAddress_hostValue_iff
    · rfl
  constructor
  · intro h field hfield hnamed
    rw [← hvalue field hfield hnamed]
    refine h _ (mem_fieldsNamed.mpr
      ⟨(hostEdit m.leadingAddress?).apply field, ?_, ?_, rfl⟩)
    · rw [hfields]
      exact List.mem_map_of_mem hfield
    · rwa [hostEdit, named_apply]
  · intro h v hv
    obtain ⟨field', hfield', hnamed, rfl⟩ := mem_fieldsNamed.mp hv
    rw [hfields] at hfield'
    obtain ⟨field, hfield, rfl⟩ := List.mem_map.mp hfield'
    rw [hostEdit, named_apply] at hnamed
    exact (hvalue field hfield hnamed).mpr (h field hfield hnamed)

theorem repairedTo_iff (hdoc : IsHostNetConfig doc host) :
    RepairedTo m doc (updateConfig (addressText m.leadingAddress?) doc.text) ↔
      (∀ field ∈ doc.value.fields, HostRewritten field →
        ¬ field.Named hostIpKey → field.value.stringUnits =
          some (textUnits (addressText m.leadingAddress?))) ∧
      ∀ field ∈ doc.value.fields, field.Named hostIpKey →
        if HostRewritten field then m.leadingAddress?.isSome
        else NamesOwnAddress m field.value := by
  by_cases hsevered : ∃ field ∈ doc.value.fields, Severed hostIpKey field
  · refine iff_of_false ?_ ?_
    · rintro ⟨doc', hparse, -⟩
      rw [parse_updateConfig_eq_none _ hsevered] at hparse
      exact absurd hparse (by simp)
    · rintro ⟨hothers, -⟩
      obtain ⟨field, hfield, hrewritten, s, hs, hquote⟩ := hsevered
      obtain ⟨q?, hunits⟩ : ∃ q?, field.value.stringUnits =
          some (textUnits (addressText q?)) := by
        by_cases hnamed : field.Named hostIpKey
        · exact ⟨some host, hdoc.stringUnits hfield hnamed⟩
        · exact ⟨_, hothers field hfield hrewritten hnamed⟩
      rw [hs, Value.stringUnits, Option.some.injEq] at hunits
      exact quoteItem_not_mem_of_units hunits hquote
  · have hkept : ∀ field ∈ doc.value.fields, ¬ Severed hostIpKey field :=
      fun field hfield h => hsevered ⟨field, hfield, h⟩
    rw [updateConfig_host_eq _ hkept, ← agreeOutside_hostEdit_iff hdoc,
      ← hosts_hostEdit_iff hdoc]
    constructor
    · rintro ⟨doc', hparse, hhosts, hagree⟩
      rw [parse_text, Option.some.injEq] at hparse
      exact hparse ▸ ⟨hagree, hhosts⟩
    · rintro ⟨hagree, hhosts⟩
      exact ⟨_, parse_text _, hhosts, hagree⟩

/-- The step leaves the host address right exactly on the machines and layouts
it can handle. -/
theorem leavesHostRight_iff_updatableHost {config : Text}
    (hparse : parse config = some doc) (hdoc : IsHostNetConfig doc host) :
    LeavesHostRight m doc config ↔ UpdatableHost m doc := by
  obtain rfl := text_of_parse hparse
  rw [leavesHostRight_iff, ne_eq, currentHostIp_eq_configHostIp_iff,
    currentHostIp_eq, repairedTo_iff hdoc]
  constructor
  · rintro ⟨hcarried, hrepair⟩
    exact ⟨hcarried, fun hdiffer => (hrepair hdiffer).1,
      fun hdiffer => (hrepair hdiffer).2⟩
  · rintro ⟨hcarried, hothers, hhosts⟩
    exact ⟨hcarried, fun hdiffer => ⟨hothers hdiffer, hhosts hdiffer⟩⟩

def wlan0Address : InetAddress :=
  ⟨quad 192 168 31 25, octet 24, some (quad 192 168 31 255),
    ⟨"global wlan0".toList, isOtherText (by decide) (by decide)⟩,
    (eth0Address 0).lifetime⟩

def wlan0Interface : Interface where
  name := "wlan0".toList
  header := ⟨"3: wlan0: <BROADCAST,MULTICAST,UP,LOWER_UP> mtu 1500".toList,
    isOtherText (by decide) (by decide)⟩
  link := []
  addresses := [wlan0Address]
  inet6 := []

/-- The lidar is at `eth0`; `wlan0` comes after it in the listing. -/
def twoCards : List Interface :=
  [{ eth0Interface [] with
      addresses := [{ eth0Address 0 with
        address := quad 192 168 1 100, broadcast := none }] },
    wlan0Interface]

theorem nodup_twoCards : (twoCards.map Interface.name).Nodup := by decide

theorem twoCards_ne_lo : ∀ i ∈ twoCards, i.name ≠ loName := by
  have hnames : ∀ name ∈ twoCards.map Interface.name, name ≠ loName := by
    decide
  exact fun i hi => hnames _ (List.mem_map_of_mem hi)

def twoCardMachine : Machine :=
  { eth0Machine [] with
    interfaces := twoCards, distinct := nodup_twoCards,
    not_lo := twoCards_ne_lo }

/-- One entry with this host address. -/
def hostNetConfig (host : Quad) : Document :=
  ⟨[], .obj (.last (plainKey hostNetInfoKey)
    (.arr (.last [] (.obj (.last (plainKey hostIpKey) (quadValue host) []))
      [])) []), []⟩

theorem hostNetConfig_isHostNetConfig (host : Quad) :
    IsHostNetConfig (hostNetConfig host) host := by
  have hobjects : hostNetObjects (hostNetConfig host) =
      [.obj (.last (plainKey hostIpKey) (quadValue host) [])] := rfl
  refine ⟨fun object hobject => ?_, ?_⟩
  · rw [hobjects, List.mem_singleton] at hobject
    exact ⟨quadValue host, hobject ▸ rfl, stringUnits_quadValue host⟩
  · rw [hobjects]
    exact List.Perm.refl _

theorem not_showsLeading_stranger : ¬ ShowsLeading twoCardMachine
    (hostNetConfig (quad 192 168 1 5)) := by
  rw [ShowsLeading]
  decide +kernel

/-- A host address that no card has stands where it is rewritten. -/
theorem updatableHost_stranger :
    UpdatableHost twoCardMachine (hostNetConfig (quad 192 168 1 5)) := by
  have hforeign : ¬ ∃ i ∈ twoCardMachine.all, ∃ a ∈ i.addresses,
      a.address = quad 192 168 1 5 := by decide +kernel
  have hhosts : hostAddresses (hostNetConfig (quad 192 168 1 5)) =
      [textUnits (quad 192 168 1 5).text] := by decide +kernel
  have hrewritten : ∀ field ∈ (hostNetConfig (quad 192 168 1 5)).value.fields,
      HostRewritten field → field.Named hostIpKey := by decide +kernel
  have hnamed : ∀ field ∈ (hostNetConfig (quad 192 168 1 5)).value.fields,
      field.Named hostIpKey → HostRewritten field := by decide +kernel
  have hleading : twoCardMachine.leadingAddress?.isSome = true := by
    decide +kernel
  refine ⟨fun host hhost hcarries => ?_,
    fun _ field hfield hrewrite hother =>
      absurd (hrewritten field hfield hrewrite) hother,
    fun _ field hfield hname => ?_⟩
  · rw [hhosts, List.mem_singleton] at hhost
    have hhost := Quad.text_injective (textUnits_injective hhost)
    exact absurd (hhost ▸ hcarries) hforeign
  · rw [if_pos (hnamed field hfield hname)]
    exact hleading

def strangerFiles : Files :=
  ⟨some (hostNetConfig (quad 192 168 1 5)).text, none⟩

/-- The address of the first card is found right, and an address that no card
has is replaced by it when the user agrees. -/
theorem leavesHostRight_twoCard :
    LeavesHostRight twoCardMachine (hostNetConfig (quad 192 168 1 100))
      (hostNetConfig (quad 192 168 1 100)).text ∧
    (step4 twoCardMachine.ipAddrShow (some ['y']) strangerFiles).1.isMismatch ∧
    ∃ config', (step4 twoCardMachine.ipAddrShow (some ['y'])
        strangerFiles).2.configFile = some config' ∧
      RepairedTo twoCardMachine (hostNetConfig (quad 192 168 1 5)) config' := by
  have hshows : ShowsLeading twoCardMachine
      (hostNetConfig (quad 192 168 1 100)) := by
    rw [ShowsLeading]
    decide +kernel
  have hquiet := (leavesHostRight_iff_updatableHost (parse_text _)
    (hostNetConfig_isHostNetConfig (quad 192 168 1 100))).mpr
      ⟨fun _ _ _ => hshows, fun h => absurd hshows h, fun h => absurd hshows h⟩
  have hupdate := (leavesHostRight_iff_updatableHost (parse_text _)
    (hostNetConfig_isHostNetConfig _)).mpr updatableHost_stranger
  have hmismatch : (step4 twoCardMachine.ipAddrShow (some ['y'])
      strangerFiles).1.isMismatch = true :=
    (isMismatch_iff rfl).mpr
      (currentHostIp_eq_configHostIp_iff.not.mpr not_showsLeading_stranger)
  exact ⟨hquiet, hmismatch, hupdate.repaired _ _ rfl hmismatch (by decide)⟩

/-- The address of the second card is the machine's own, but the step reports a
mismatch. -/
theorem not_leavesHostRight_twoCard :
    IsHostNetConfig (hostNetConfig (quad 192 168 31 25))
        (quad 192 168 31 25) ∧
      ¬ LeavesHostRight twoCardMachine (hostNetConfig (quad 192 168 31 25))
        (hostNetConfig (quad 192 168 31 25)).text := by
  refine ⟨hostNetConfig_isHostNetConfig _, fun h => ?_⟩
  have hcarries : twoCardMachine.Carries (quad 192 168 31 25) :=
    ⟨_, List.mem_cons_of_mem _ (List.mem_cons_of_mem _ List.mem_cons_self),
      wlan0Address, List.mem_cons_self, rfl⟩
  have hconfigured : textUnits (quad 192 168 31 25).text ∈
      hostAddresses (hostNetConfig (quad 192 168 31 25)) := by decide
  have hsame := (leavesHostRight_iff.mp h).1 _ hconfigured hcarries
  have hdiffer : ¬ ShowsLeading twoCardMachine
      (hostNetConfig (quad 192 168 31 25)) := by
    rw [ShowsLeading]
    decide +kernel
  exact hdiffer (currentHostIp_eq_configHostIp_iff.mp hsame)

end LivoxScripts
