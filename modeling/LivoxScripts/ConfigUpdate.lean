/-
What the two rewrites of `fix_livox_ip.sh` make of the configuration, and the
layouts on which they leave it consistent.
-/
import LivoxScripts.FixLivoxIp

namespace LivoxScripts

open TextTools JsonText

/-- The documented shape: lidar addresses in the objects of
`MID360.host_net_info`, one address in each object of `lidar_configs`, under
keys used nowhere else. -/
structure IsDriverConfig (doc : Document) (infos configs : List Value) :
    Prop where
  bareKeys : BareKeys doc
  infosAt : ∃ mid360 info, doc.value.lookup mid360Key = [mid360] ∧
    mid360.lookup hostNetInfoKey = [info] ∧ info.elements = infos
  someInfo : infos ≠ []
  configsAt : ∃ v, doc.value.lookup lidarConfigsKey = [v] ∧
    v.elements = configs
  someConfig : configs ≠ []
  lidarIp : ∀ object ∈ infos, ∃ v,
    object.lookup lidarIpKey = [v] ∧ IsQuadArray v
  ip : ∀ object ∈ configs, ∃ s, object.lookup ipKey = [.str s] ∧ Bare s
  lidarIpOnly : doc.value.fieldsNamed lidarIpKey =
    infos.flatMap (Value.lookup lidarIpKey)
  ipOnly : doc.value.fieldsNamed ipKey = configs.flatMap (Value.lookup ipKey)

/-- The strings in an array. -/
def arrayStrings (v : Value) : List (List Nat) :=
  v.elements.filterMap Value.stringUnits

/-- The addresses in the `lidar_ip` arrays. -/
def lidarAddresses (doc : Document) : List (List Nat) :=
  (doc.value.fieldsNamed lidarIpKey).flatMap arrayStrings

/-- The addresses in the `ip` fields. -/
def ipAddresses (doc : Document) : List (List Nat) :=
  (doc.value.fieldsNamed ipKey).filterMap Value.stringUnits

/-- Both places name the same addresses. -/
def SameAddresses (doc : Document) : Prop :=
  ∀ a, a ∈ lidarAddresses doc ↔ a ∈ ipAddresses doc

/-- The text is a configuration that names the address in both places and
differs from the old one in addresses only. -/
def UpdatedTo (livoxIp : Text) (doc : Document) (config : Text) : Prop :=
  ∃ doc', parse config = some doc' ∧ SameAddresses doc' ∧
    textUnits livoxIp ∈ lidarAddresses doc' ∧
    doc.AgreeOutside [lidarIpKey, ipKey] doc'

/-- An array of one address with no blank inside. -/
def isSingleton : Value → Bool
  | .arr (.last [] (.str _) []) => true
  | _ => false

/-- The array is on one line with its key and holds one address. -/
def ArrayRewritten (field : Field) : Prop :=
  OnLine lidarIpKey field ∧ isSingleton field.value = true

/-- The address is on one line with its key. -/
def IpRewritten (field : Field) : Prop := OnLine ipKey field

instance : DecidablePred ArrayRewritten := fun _ =>
  inferInstanceAs (Decidable (_ ∧ _))

instance : DecidablePred IpRewritten := fun field =>
  inferInstanceAs (Decidable (OnLine ipKey field))

/-- An array that is left as it is holds the address. -/
def LeftInArray (doc : Document) (a : List Nat) : Prop :=
  ∃ field ∈ doc.value.fields, field.Named lidarIpKey ∧
    ¬ ArrayRewritten field ∧ a ∈ arrayStrings field.value

/-- A field that is left as it is holds the address. -/
def LeftInIp (doc : Document) (a : List Nat) : Prop :=
  ∃ field ∈ doc.value.fields, field.Named ipKey ∧ ¬ IpRewritten field ∧
    field.value.stringUnits = some a

/-- The layouts the rewrites can handle: the address is written, or already
stands, on both sides, and every other address is left on both sides or on
none. -/
structure RewritableLayout (livoxIp : Text) (doc : Document) : Prop where
  array : (∃ field ∈ doc.value.fields, ArrayRewritten field) ∨
    LeftInArray doc (textUnits livoxIp)
  ip : (∃ field ∈ doc.value.fields, IpRewritten field) ∨
    LeftInIp doc (textUnits livoxIp)
  others : ∀ a, a ≠ textUnits livoxIp → (LeftInArray doc a ↔ LeftInIp doc a)

variable {doc : Document} {infos configs : List Value} {field : Field}

/-- What the rewrites rely on: keys without escapes, arrays of plain strings
under one key and plain strings under the other. -/
structure Rewritable (doc : Document) : Prop where
  bareKeys : BareKeys doc
  arrays : ∀ field ∈ doc.value.fields, field.Named lidarIpKey →
    BareStrings field.value
  strings : ∀ field ∈ doc.value.fields, field.Named ipKey →
    ∃ s, field.value = .str s ∧ Bare s

theorem IsDriverConfig.rewritable (h : IsDriverConfig doc infos configs) :
    Rewritable doc := by
  refine ⟨h.bareKeys, fun field hfield hnamed => ?_,
    fun field hfield hnamed => ?_⟩
  · have hmem := mem_fieldsNamed.mpr ⟨field, hfield, hnamed, rfl⟩
    rw [h.lidarIpOnly] at hmem
    obtain ⟨object, hobject, hvalue⟩ := List.mem_flatMap.mp hmem
    obtain ⟨v, hv, harray⟩ := h.lidarIp object hobject
    rw [hv, List.mem_singleton] at hvalue
    exact hvalue ▸ harray.bareStrings
  · have hmem := mem_fieldsNamed.mpr ⟨field, hfield, hnamed, rfl⟩
    rw [h.ipOnly] at hmem
    obtain ⟨object, hobject, hvalue⟩ := List.mem_flatMap.mp hmem
    obtain ⟨s, hs, hbare⟩ := h.ip object hobject
    rw [hs, List.mem_singleton] at hvalue
    exact ⟨s, hvalue, hbare⟩

/-- An array of this address alone. -/
def singleton (q : Quad) : Value := .arr (.last [] (quadValue q) [])

def arrayEdit (q : Quad) : Edit :=
  replaceAt lidarIpKey takeSingleton (singleton q)

def ipEdit (q : Quad) : Edit := replaceAt ipKey takeEnclosed (quadValue q)

theorem isSome_takeSingleton (v : Value) :
    (takeSingleton v).isSome = isSingleton v := by
  unfold takeSingleton
  split
  · rfl
  · next hother =>
      rw [isSingleton]
      · rfl
      · exact hother

theorem taken_array_iff (hkey : Bare field.head.key) :
    Taken lidarIpKey takeSingleton field ↔ ArrayRewritten field := by
  rw [Taken, showsKey_iff_named hkey, isSome_takeSingleton, ← and_assoc]
  rfl

theorem taken_ip_iff (hkey : Bare field.head.key)
    (hstring : field.Named ipKey → ∃ s, field.value = .str s ∧ Bare s) :
    Taken ipKey takeEnclosed field ↔ IpRewritten field := by
  rw [Taken, showsKey_iff_named hkey]
  constructor
  · rintro ⟨hnamed, hline, -⟩
    exact ⟨hnamed, hline⟩
  · rintro ⟨hnamed, hline⟩
    obtain ⟨s, hs, -⟩ := hstring hnamed
    exact ⟨hnamed, hline, by simp [hs, takeEnclosed]⟩

theorem sed_array (h : Rewritable doc) (q : Quad) :
    sed FixLivoxIp.lidarIpPattern
        ("\"lidar_ip\": [\"".toList ++ (q.text ++ "\"]".toList)) doc.text =
      (doc.patch (arrayEdit q)).text := by
  have hnew : "\"lidar_ip\": [\"".toList ++ (q.text ++ "\"]".toList) =
      memberText lidarIpKey (singleton q) := by
    have hleft : "\"lidar_ip\": [\"".toList =
        '"' :: (lidarIpKey ++ ['"', ':', ' ', '[', '"']) := by decide
    have hright : "\"]".toList = ['"', ']'] := by decide
    rw [hleft, hright]
    simp [memberText, singleton, Value.text, Elems.text, blankText, quadValue,
      quoted, raw_spell_quad]
  have hwithin := enclosed_within ['[', '"'] [']']
    (by decide) (by decide)
  rw [hnew]
  apply sed_keyed (by decide) (enclosed_plain _ _ _)
  · intro field hfield
    rw [hwithin]
    exact cuts_singleton (by decide) fun hshow => h.arrays field hfield
      ((showsKey_iff_named (h.bareKeys field hfield)).mp hshow)
  · intro field _ _ _ t ht
    unfold takeSingleton at ht
    split at ht
    · rw [← Option.some.inj ht]
    · simp at ht

theorem sed_ip (h : Rewritable doc) (q : Quad) :
    sed FixLivoxIp.ipPattern
        ("\"ip\": \"".toList ++ (q.text ++ "\"".toList)) doc.text =
      (doc.patch (ipEdit q)).text := by
  have hnew : "\"ip\": \"".toList ++ (q.text ++ "\"".toList) =
      memberText ipKey (quadValue q) := by
    have hleft : "\"ip\": \"".toList =
        '"' :: (ipKey ++ ['"', ':', ' ', '"']) := by decide
    have hright : "\"".toList = ['"'] := by decide
    rw [hleft, hright]
    simp [memberText, Value.text, quadValue, quoted, raw_spell_quad]
  have hwithin := enclosed_within ['"'] []
    (by decide) (by decide)
  rw [hnew]
  apply sed_keyed (by decide) (enclosed_plain _ _ _)
  · intro field hfield
    rw [hwithin]
    exact cuts_enclosed (by decide) field
  · intro field hfield hshow _ t ht
    obtain ⟨s, hs, hbare⟩ := h.strings field hfield
      ((showsKey_iff_named (h.bareKeys field hfield)).mp hshow)
    obtain ⟨-, hafter⟩ := upToQuote_of_not_mem
      (quoteItem_not_mem_of_bare hbare)
    rw [hs, takeEnclosed, Option.some.injEq] at ht
    rw [← ht, hafter]

theorem singleton_bareStrings (q : Quad) : BareStrings (singleton q) := by
  refine ⟨_, rfl, fun e he => ?_⟩
  obtain rfl := List.mem_singleton.mp he
  exact ⟨_, rfl, bare_spell _⟩

theorem Rewritable.fields_of_named (h : Rewritable doc)
    (hfield : field ∈ doc.value.fields)
    (hnamed : field.Named lidarIpKey ∨ field.Named ipKey) :
    field.value.fields = [] := by
  rcases hnamed with hlidar | hip
  · exact (h.arrays field hfield hlidar).fields
  · obtain ⟨s, hs, -⟩ := h.strings field hfield hip
    rw [hs]
    rfl

theorem Rewritable.taken_array (h : Rewritable doc)
    (hfield : field ∈ doc.value.fields) :
    Taken lidarIpKey takeSingleton field ↔ ArrayRewritten field :=
  taken_array_iff (h.bareKeys field hfield)

theorem Rewritable.taken_ip (h : Rewritable doc)
    (hfield : field ∈ doc.value.fields) :
    Taken ipKey takeEnclosed field ↔ IpRewritten field :=
  taken_ip_iff (h.bareKeys field hfield) (h.strings field hfield)

theorem arrayEdit_leafy (h : Rewritable doc) (q : Quad)
    (hfield : field ∈ doc.value.fields) : (arrayEdit q).Leafy field :=
  replaceAt_leafy (singleton_bareStrings q).fields fun htaken =>
    h.fields_of_named hfield (Or.inl ((h.taken_array hfield).mp htaken).1.1)

theorem ipEdit_leafy (h : Rewritable doc) (q : Quad)
    (hfield : field ∈ doc.value.fields) : (ipEdit q).Leafy field :=
  replaceAt_leafy rfl fun htaken =>
    h.fields_of_named hfield (Or.inr ((h.taken_ip hfield).mp htaken).1)

theorem named_apply {name name' : Text} {take : Value → Option Take}
    {v : Value} : ((replaceAt name take v).apply field).Named name' ↔
      field.Named name' := by
  rw [Field.Named, apply_replaceAt_key, Field.Named]

theorem not_named_both (hlidar : field.Named lidarIpKey) :
    ¬ field.Named ipKey := by
  intro hip
  have heq : textUnits lidarIpKey = textUnits ipKey := hlidar.symm.trans hip
  exact absurd (textUnits_injective heq) (by decide)

theorem Rewritable.patch_array (h : Rewritable doc) (q : Quad) :
    Rewritable (doc.patch (arrayEdit q)) := by
  have hfields := fields_patch fun _ hfield => arrayEdit_leafy h q hfield
  refine ⟨?_, ?_, ?_⟩
  · intro field' hfield'
    rw [hfields] at hfield'
    obtain ⟨field, hfield, rfl⟩ := List.mem_map.mp hfield'
    rw [arrayEdit, apply_replaceAt_key]
    exact h.bareKeys field hfield
  · intro field' hfield' hnamed
    rw [hfields] at hfield'
    obtain ⟨field, hfield, rfl⟩ := List.mem_map.mp hfield'
    have hold := named_apply.mp hnamed
    rw [arrayEdit, apply_replaceAt_value
      (h.fields_of_named hfield (Or.inl hold))]
    split
    · exact singleton_bareStrings q
    · exact h.arrays field hfield hold
  · intro field' hfield' hnamed
    rw [hfields] at hfield'
    obtain ⟨field, hfield, rfl⟩ := List.mem_map.mp hfield'
    have hold := named_apply.mp hnamed
    rw [arrayEdit, apply_replaceAt_value
      (h.fields_of_named hfield (Or.inr hold)), if_neg]
    · exact h.strings field hfield hold
    · intro htaken
      exact not_named_both ((h.taken_array hfield).mp htaken).1.1 hold

/-- The configuration after both rewrites. -/
def updated (q : Quad) (doc : Document) : Document :=
  (doc.patch (arrayEdit q)).patch (ipEdit q)

theorem updateConfig_eq (h : Rewritable doc) (q : Quad) :
    FixLivoxIp.updateConfig q.text doc.text = (updated q doc).text := by
  rw [FixLivoxIp.updateConfig, sed_array h q, sed_ip (h.patch_array q) q,
    updated]

theorem agreeOutside_updated (h : Rewritable doc) (q : Quad) :
    doc.AgreeOutside [lidarIpKey, ipKey] (updated q doc) := by
  have hhidden : ∀ field : Field, Hidden [lidarIpKey, ipKey] field ↔
      field.Named lidarIpKey ∨ field.Named ipKey := by
    intro field
    simp [Hidden, Field.Named]
  have hfirst : doc.AgreeOutside [lidarIpKey, ipKey]
      (doc.patch (arrayEdit q)) := by
    rw [arrayEdit, agreeOutside_patch_iff fun field hfield =>
      keepsShape_replaceAt
      (fun htaken => h.fields_of_named hfield
        (Or.inl ((h.taken_array hfield).mp htaken).1.1))
      (fun hhide => h.fields_of_named hfield ((hhidden field).mp hhide))]
    exact fun field hfield => keepsValue_replaceAt fun htaken =>
      (hhidden field).mpr (Or.inl ((h.taken_array hfield).mp htaken).1.1)
  have hsecond : (doc.patch (arrayEdit q)).AgreeOutside [lidarIpKey, ipKey]
      (updated q doc) := by
    have h' := h.patch_array q
    rw [updated, ipEdit, agreeOutside_patch_iff fun field hfield =>
      keepsShape_replaceAt
        (fun htaken => h'.fields_of_named hfield
          (Or.inr ((h'.taken_ip hfield).mp htaken).1))
        (fun hhide => h'.fields_of_named hfield ((hhidden field).mp hhide))]
    exact fun field hfield => keepsValue_replaceAt fun htaken =>
      (hhidden field).mpr (Or.inr ((h'.taken_ip hfield).mp htaken).1)
  exact hfirst.trans hsecond

theorem apply_arrayEdit_value (h : Rewritable doc) (q : Quad)
    (hfield : field ∈ doc.value.fields)
    (hnamed : field.Named lidarIpKey ∨ field.Named ipKey) :
    ((arrayEdit q).apply field).value =
      if ArrayRewritten field then singleton q else field.value := by
  rw [arrayEdit, apply_replaceAt_value (h.fields_of_named hfield hnamed)]
  exact if_congr (h.taken_array hfield) rfl rfl

theorem mem_fieldsNamed_updated (h : Rewritable doc) (q : Quad) {name : Text}
    {w : Value} :
    w ∈ (updated q doc).value.fieldsNamed name ↔
      ∃ field ∈ doc.value.fields, field.Named name ∧
        ((ipEdit q).apply ((arrayEdit q).apply field)).value = w := by
  have hfirst := fields_patch fun _ hfield => arrayEdit_leafy h q hfield
  have hsecond := fields_patch fun _ hfield =>
    ipEdit_leafy (h.patch_array q) q hfield
  rw [mem_fieldsNamed, updated, hsecond, hfirst]
  constructor
  · rintro ⟨field', hfield', hnamed, rfl⟩
    rw [List.map_map] at hfield'
    obtain ⟨field, hfield, rfl⟩ := List.mem_map.mp hfield'
    exact ⟨field, hfield, named_apply.mp (named_apply.mp hnamed), rfl⟩
  · rintro ⟨field, hfield, hnamed, rfl⟩
    exact ⟨_, List.mem_map_of_mem (List.mem_map_of_mem hfield),
      named_apply.mpr (named_apply.mpr hnamed), rfl⟩

theorem updated_array_value (h : Rewritable doc) (q : Quad)
    (hfield : field ∈ doc.value.fields) (hnamed : field.Named lidarIpKey) :
    ((ipEdit q).apply ((arrayEdit q).apply field)).value =
      if ArrayRewritten field then singleton q else field.value := by
  have hmem : (arrayEdit q).apply field ∈
      (doc.patch (arrayEdit q)).value.fields := by
    rw [fields_patch fun _ hfield => arrayEdit_leafy h q hfield]
    exact List.mem_map_of_mem hfield
  have hlidar : ((arrayEdit q).apply field).Named lidarIpKey :=
    named_apply.mpr hnamed
  have hleaf := (h.patch_array q).fields_of_named hmem (Or.inl hlidar)
  rw [ipEdit, apply_replaceAt_value hleaf, if_neg,
    apply_arrayEdit_value h q hfield (Or.inl hnamed)]
  intro htaken
  exact not_named_both hlidar
    (((h.patch_array q).taken_ip hmem).mp htaken).1

theorem updated_ip_value (h : Rewritable doc) (q : Quad)
    (hfield : field ∈ doc.value.fields) (hnamed : field.Named ipKey) :
    ((ipEdit q).apply ((arrayEdit q).apply field)).value =
      if IpRewritten field then quadValue q else field.value := by
  have hleaf := h.fields_of_named hfield (Or.inr hnamed)
  have hnot : ¬ Taken lidarIpKey takeSingleton field := fun htaken =>
    not_named_both ((h.taken_array hfield).mp htaken).1.1 hnamed
  have hsame : (arrayEdit q).apply field = field := by
    rw [arrayEdit, apply_replaceAt, if_neg hnot, patch_of_fields_nil _ hleaf]
  rw [hsame, ipEdit, apply_replaceAt_value hleaf]
  exact if_congr (h.taken_ip hfield) rfl rfl

theorem stringUnits_quadValue (q : Quad) :
    (quadValue q).stringUnits = some (textUnits q.text) := by
  rw [quadValue, Value.stringUnits, units_of_bare (bare_spell _),
    raw_spell_quad]

theorem mem_lidarAddresses_updated (h : Rewritable doc) (q : Quad)
    {a : List Nat} :
    a ∈ lidarAddresses (updated q doc) ↔
      (a = textUnits q.text ∧ ∃ field ∈ doc.value.fields,
        ArrayRewritten field) ∨ LeftInArray doc a := by
  have hsingleton : arrayStrings (singleton q) = [textUnits q.text] := by
    simp [arrayStrings, singleton, Value.elements, Elems.toList,
      stringUnits_quadValue]
  rw [lidarAddresses, List.mem_flatMap]
  simp only [mem_fieldsNamed_updated h q]
  constructor
  · rintro ⟨w, ⟨field, hfield, hnamed, rfl⟩, ha⟩
    rw [updated_array_value h q hfield hnamed] at ha
    split at ha
    · next hrewritten =>
        rw [hsingleton, List.mem_singleton] at ha
        exact Or.inl ⟨ha, field, hfield, hrewritten⟩
    · next hleft => exact Or.inr ⟨field, hfield, hnamed, hleft, ha⟩
  · rintro (⟨rfl, field, hfield, hrewritten⟩ | ⟨field, hfield, hnamed, hleft, ha⟩)
    · refine ⟨_, ⟨field, hfield, hrewritten.1.1, rfl⟩, ?_⟩
      rw [updated_array_value h q hfield hrewritten.1.1, if_pos hrewritten,
        hsingleton]
      exact List.mem_singleton_self _
    · refine ⟨_, ⟨field, hfield, hnamed, rfl⟩, ?_⟩
      rwa [updated_array_value h q hfield hnamed, if_neg hleft]

theorem mem_ipAddresses_updated (h : Rewritable doc) (q : Quad)
    {a : List Nat} :
    a ∈ ipAddresses (updated q doc) ↔
      (a = textUnits q.text ∧ ∃ field ∈ doc.value.fields,
        IpRewritten field) ∨ LeftInIp doc a := by
  rw [ipAddresses, List.mem_filterMap]
  simp only [mem_fieldsNamed_updated h q]
  constructor
  · rintro ⟨w, ⟨field, hfield, hnamed, rfl⟩, ha⟩
    rw [updated_ip_value h q hfield hnamed] at ha
    split at ha
    · next hrewritten =>
        rw [stringUnits_quadValue, Option.some.injEq] at ha
        exact Or.inl ⟨ha.symm, field, hfield, hrewritten⟩
    · next hleft => exact Or.inr ⟨field, hfield, hnamed, hleft, ha⟩
  · rintro (⟨rfl, field, hfield, hrewritten⟩ | ⟨field, hfield, hnamed, hleft, ha⟩)
    · refine ⟨_, ⟨field, hfield, hrewritten.1, rfl⟩, ?_⟩
      rw [updated_ip_value h q hfield hrewritten.1, if_pos hrewritten,
        stringUnits_quadValue]
    · refine ⟨_, ⟨field, hfield, hnamed, rfl⟩, ?_⟩
      rwa [updated_ip_value h q hfield hnamed, if_neg hleft]

/-- The rewrites leave a consistent configuration exactly on the layouts they
can handle. -/
theorem updatedTo_updateConfig_iff {config : Text} {doc : Document}
    {infos configs : List Value} (hparse : parse config = some doc)
    (hdoc : IsDriverConfig doc infos configs) (q : Quad) :
    UpdatedTo q.text doc (FixLivoxIp.updateConfig q.text config) ↔
      RewritableLayout q.text doc := by
  obtain rfl := text_of_parse hparse
  have h := hdoc.rewritable
  have hresult : UpdatedTo q.text doc
      (FixLivoxIp.updateConfig q.text doc.text) ↔
        SameAddresses (updated q doc) ∧
          textUnits q.text ∈ lidarAddresses (updated q doc) := by
    rw [updateConfig_eq h q]
    constructor
    · rintro ⟨doc', hdoc', hsame, hmem, -⟩
      rw [parse_text, Option.some.injEq] at hdoc'
      exact hdoc' ▸ ⟨hsame, hmem⟩
    · rintro ⟨hsame, hmem⟩
      exact ⟨_, parse_text _, hsame, hmem, agreeOutside_updated h q⟩
  rw [hresult]
  simp only [SameAddresses, mem_lidarAddresses_updated h q,
    mem_ipAddresses_updated h q, true_and]
  constructor
  · rintro ⟨hsame, harray⟩
    have hip := (hsame (textUnits q.text)).mp
      (harray.imp_left fun hex => ⟨rfl, hex⟩)
    refine ⟨harray, hip.imp_left And.right, fun a ha => ?_⟩
    simpa [ha] using hsame a
  · rintro ⟨harray, hip, hothers⟩
    refine ⟨fun a => ?_, harray⟩
    by_cases ha : a = textUnits q.text
    · subst ha
      simp only [true_and]
      exact iff_of_true harray hip
    · simpa [ha] using hothers a ha

def sampleLidar : Quad := quad 192 168 1 157

/-- An entry with these blanks after the bracket of its array. -/
def sampleInfo (gap : List Blank) : Value :=
  .obj (.last (plainKey lidarIpKey)
    (.arr (.last gap (quadValue sampleLidar) [])) [])

def sampleLidarConfig : Value :=
  .obj (.last (plainKey ipKey) (quadValue sampleLidar) [])

def sampleDriverConfig (gap : List Blank) : Document :=
  ⟨[], .obj (.more (plainKey mid360Key)
      (.obj (.last (plainKey hostNetInfoKey)
        (.arr (.last [] (sampleInfo gap) [])) [])) []
    (.last (plainKey lidarConfigsKey)
      (.arr (.last [] sampleLidarConfig [])) [])), []⟩

theorem sampleDriverConfig_isDriverConfig (gap : List Blank) :
    IsDriverConfig (sampleDriverConfig gap) [sampleInfo gap]
      [sampleLidarConfig] := by
  have harray : IsQuadArray (.arr (.last gap (quadValue sampleLidar) [])) := by
    refine ⟨_, rfl, fun e he => ?_⟩
    obtain rfl := List.mem_singleton.mp he
    exact isQuad_quadValue _
  refine ⟨?_, ⟨_, _, rfl, rfl, rfl⟩, by simp, ⟨_, rfl, rfl⟩, by simp, ?_, ?_,
    rfl, rfl⟩
  · intro field hfield
    have hkeys : ∀ field ∈ (sampleDriverConfig gap).value.fields,
        ∃ name, field.head = plainKey name := by
      simp [sampleDriverConfig, sampleInfo, sampleLidarConfig, Value.fields,
        Members.fields, Elems.fields, quadValue]
    obtain ⟨name, hname⟩ := hkeys field hfield
    exact hname ▸ bare_spell name
  · intro object hobject
    obtain rfl := List.mem_singleton.mp hobject
    exact ⟨_, rfl, harray⟩
  · intro object hobject
    obtain rfl := List.mem_singleton.mp hobject
    exact ⟨_, rfl, bare_spell _⟩

theorem updatedTo_updateConfig_sample :
    UpdatedTo (quad 192 168 1 100).text (sampleDriverConfig [])
      (FixLivoxIp.updateConfig (quad 192 168 1 100).text
        (sampleDriverConfig []).text) := by
  refine (updatedTo_updateConfig_iff (parse_text _)
    (sampleDriverConfig_isDriverConfig []) _).mpr ⟨?_, ?_, ?_⟩
  · exact Or.inl (by decide)
  · exact Or.inl (by decide)
  · intro a _
    have harrays : ∀ field ∈ (sampleDriverConfig []).value.fields,
        field.Named lidarIpKey → ArrayRewritten field := by decide
    have hips : ∀ field ∈ (sampleDriverConfig []).value.fields,
        field.Named ipKey → IpRewritten field := by decide
    refine iff_of_false ?_ ?_
    · rintro ⟨field, hfield, hnamed, hleft, -⟩
      exact hleft (harrays field hfield hnamed)
    · rintro ⟨field, hfield, hnamed, hleft, -⟩
      exact hleft (hips field hfield hnamed)

/-- One blank after the bracket: the array keeps the old address while the
field gets the new one. -/
theorem not_updatedTo_updateConfig_gap :
    IsDriverConfig (sampleDriverConfig [.space]) [sampleInfo [.space]]
        [sampleLidarConfig] ∧
      SameAddresses (sampleDriverConfig [.space]) ∧
      ¬ UpdatedTo (quad 192 168 1 100).text (sampleDriverConfig [.space])
        (FixLivoxIp.updateConfig (quad 192 168 1 100).text
          (sampleDriverConfig [.space]).text) := by
  have hdoc := sampleDriverConfig_isDriverConfig [.space]
  have hsame : lidarAddresses (sampleDriverConfig [.space]) =
      ipAddresses (sampleDriverConfig [.space]) := by decide
  refine ⟨hdoc, fun a => by rw [hsame], ?_⟩
  rintro ⟨doc', hdoc', -, hmem, -⟩
  rw [updateConfig_eq hdoc.rewritable, parse_text, Option.some.injEq] at hdoc'
  rw [← hdoc'] at hmem
  exact absurd hmem (by decide)

end LivoxScripts
