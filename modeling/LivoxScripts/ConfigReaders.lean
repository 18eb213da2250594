/-
The three scripts that read the addresses of the first network entry from
`MID360_config.json`, and the layouts on which they read them alike.
-/
import LivoxScripts.FindLivoxIp
import LivoxScripts.DiagnoseNoData
import LivoxScripts.DiagnoseLivoxRos2

namespace LivoxScripts

open TextTools JsonText

/-- The documented shape: the objects of `MID360.host_net_info`, each with an
array of lidar addresses and one host address, under keys used nowhere else. -/
structure IsHostConfig (doc : Document) (first : Value) (others : List Value) :
    Prop where
  bareKeys : BareKeys doc
  objects : ∃ mid360 info, doc.value.lookup mid360Key = [mid360] ∧
    mid360.lookup hostNetInfoKey = [info] ∧ info.elements = first :: others
  lidarIp : ∀ object ∈ first :: others, ∃ v,
    object.lookup lidarIpKey = [v] ∧ IsQuadArray v
  hostIp : ∀ object ∈ first :: others, ∃ v,
    object.lookup hostIpKey = [v] ∧ IsQuad v
  lidarIpOnly : doc.value.fieldsNamed lidarIpKey =
    (first :: others).flatMap (Value.lookup lidarIpKey)
  hostIpOnly : doc.value.fieldsNamed hostIpKey =
    (first :: others).flatMap (Value.lookup hostIpKey)

/-- The first lidar address and the host address of an object. -/
def configured (object : Value) : Text × Text :=
  (((object.lookup lidarIpKey).map firstAddress).headD [],
    ((object.lookup hostIpKey).map stringText).headD [])

/-- All three scripts read this pair. -/
def ReadAs (pair : Text × Text) (config : Text) : Prop :=
  (DiagnoseNoData.lidarIp config, DiagnoseNoData.hostIp config) = pair ∧
    (FindLivoxIp.configLidarIp config, FindLivoxIp.configHostIp config) =
      pair ∧
    (DiagnoseLivoxRos2.lidarIp config, DiagnoseLivoxRos2.hostIp config) = pair

/-- The first members each pattern can read hold the configured addresses. -/
structure ReadableLayout (doc : Document) (pair : Text × Text) : Prop where
  tight : firstOf (ArrayTight lidarIpKey) firstAddress doc = some pair.1
  onLine : firstOf (ArrayOnLine lidarIpKey) firstAddress doc = some pair.1
  host : firstOf (OnLine hostIpKey) stringText doc = some pair.2

variable {doc : Document} {first : Value} {others : List Value}

namespace IsHostConfig

theorem holdsQuadArrays (h : IsHostConfig doc first others) :
    HoldsQuadArrays lidarIpKey doc := by
  intro field hfield hnamed
  have hmem := mem_fieldsNamed.mpr ⟨field, hfield, hnamed, rfl⟩
  rw [h.lidarIpOnly] at hmem
  obtain ⟨object, hobject, hvalue⟩ := List.mem_flatMap.mp hmem
  obtain ⟨v, hv, harray⟩ := h.lidarIp object hobject
  rw [hv, List.mem_singleton] at hvalue
  exact hvalue ▸ harray

theorem holdsQuads (h : IsHostConfig doc first others) :
    HoldsQuads hostIpKey doc := by
  intro field hfield hnamed
  have hmem := mem_fieldsNamed.mpr ⟨field, hfield, hnamed, rfl⟩
  rw [h.hostIpOnly] at hmem
  obtain ⟨object, hobject, hvalue⟩ := List.mem_flatMap.mp hmem
  obtain ⟨v, hv, hquad⟩ := h.hostIp object hobject
  rw [hv, List.mem_singleton] at hvalue
  exact hvalue ▸ hquad

theorem configured_ne_nil (h : IsHostConfig doc first others) :
    (configured first).1 ≠ [] ∧ (configured first).2 ≠ [] := by
  obtain ⟨v, hv, harray⟩ := h.lidarIp first List.mem_cons_self
  obtain ⟨w, hw, hquad⟩ := h.hostIp first List.mem_cons_self
  obtain ⟨a, ha⟩ := harray.firstAddress
  obtain ⟨b, hb⟩ := hquad.stringText
  simp [configured, hv, hw, ha, hb, Quad.text_ne_nil]

/-- What each script reads, by the layout of the members. -/
theorem noData_eq (h : IsHostConfig doc first others) :
    DiagnoseNoData.lidarIp doc.text =
        orDefault ((firstOf (ArrayOnLine lidarIpKey) firstAddress doc).getD [])
          "192.168.1.157".toList ∧
      DiagnoseNoData.hostIp doc.text =
        orDefault ((firstOf (OnLine hostIpKey) stringText doc).getD [])
          "192.168.1.100".toList := by
  rw [DiagnoseNoData.lidarIp, DiagnoseNoData.hostIp,
    DiagnoseNoData.lidarIpPattern, DiagnoseNoData.hostIpPattern,
    read_capturedFirst (by decide) (by decide) (fun _ hc => hc) h.bareKeys
      h.holdsQuadArrays,
    read_captured (by decide) (by decide) (fun _ hc => hc) h.bareKeys
      h.holdsQuads]
  exact ⟨rfl, rfl⟩

theorem notQuote_of_isAddressChar {c : Char} (hc : isAddressChar c = true) :
    notQuote c = true := by
  rw [notQuote, bne_iff_ne]
  rintro rfl
  exact absurd hc (by decide)

theorem find_eq (h : IsHostConfig doc first others) :
    FindLivoxIp.configLidarIp doc.text =
        orDefault ((firstOf (ArrayOnLine lidarIpKey) firstAddress doc).getD [])
          "192.168.1.1".toList ∧
      FindLivoxIp.configHostIp doc.text =
        orDefault ((firstOf (OnLine hostIpKey) stringText doc).getD [])
          "192.168.1.100".toList := by
  rw [FindLivoxIp.configLidarIp, FindLivoxIp.configHostIp,
    FindLivoxIp.lidarIpPattern, FindLivoxIp.hostIpPattern,
    read_capturedFirst (by decide) (by decide)
      (fun _ => notQuote_of_isAddressChar) h.bareKeys h.holdsQuadArrays,
    read_captured (by decide) (by decide) (fun _ => notQuote_of_isAddressChar)
      h.bareKeys h.holdsQuads]
  exact ⟨rfl, rfl⟩

theorem ros2_eq (h : IsHostConfig doc first others) :
    DiagnoseLivoxRos2.lidarIp doc.text =
        (firstOf (ArrayTight lidarIpKey) firstAddress doc).getD [] ∧
      DiagnoseLivoxRos2.hostIp doc.text =
        (firstOf (OnLine hostIpKey) stringText doc).getD [] := by
  rw [DiagnoseLivoxRos2.lidarIp, DiagnoseLivoxRos2.hostIp,
    DiagnoseLivoxRos2.lidarIpPattern, DiagnoseLivoxRos2.hostIpPattern,
    read_firstEnclosed (by decide) h.bareKeys h.holdsQuadArrays,
    read_enclosed (by decide) h.bareKeys h.holdsQuads]
  exact ⟨rfl, rfl⟩

end IsHostConfig

theorem eq_some_of_getD {o : Option Text} {t : Text} (ht : t ≠ [])
    (h : o.getD [] = t) : o = some t := by
  cases o with
  | none => exact absurd h.symm ht
  | some u => exact congrArg some h

theorem orDefault_of_ne_nil {t default : Text} (ht : t ≠ []) :
    orDefault t default = t := by
  simp [orDefault, ht]

/-- Members that stay on one line are there when tight ones are. -/
theorem exists_onLine_of_tight (harrays : HoldsQuadArrays lidarIpKey doc)
    {t : Text} (h : firstOf (ArrayTight lidarIpKey) firstAddress doc = some t) :
    ∃ q : Quad,
      firstOf (ArrayOnLine lidarIpKey) firstAddress doc = some q.text := by
  obtain ⟨field, hfield, -⟩ := Option.map_eq_some_iff.mp h
  have hmem := List.mem_of_find?_eq_some hfield
  have htight : ArrayTight lidarIpKey field := by
    simpa using List.find?_some hfield
  have honline : ArrayOnLine lidarIpKey field :=
    ⟨htight.1, by simp [htight.2]⟩
  have hsome : (doc.value.fields.find? (ArrayOnLine lidarIpKey ·)).isSome := by
    rw [List.find?_isSome]
    exact ⟨field, hmem, by simpa using honline⟩
  obtain ⟨field', hfield'⟩ := Option.isSome_iff_exists.mp hsome
  have honline' : ArrayOnLine lidarIpKey field' := by
    simpa using List.find?_some hfield'
  obtain ⟨q, hq⟩ := (harrays field' (List.mem_of_find?_eq_some hfield')
    honline'.1.1).firstAddress
  exact ⟨q, by simp [firstOf, hfield', hq]⟩

/-- The scripts read the addresses of the first entry exactly when the first
members they can read hold them. -/
theorem readAs_configured_iff {config : Text} (hparse : parse config = some doc)
    (hdoc : IsHostConfig doc first others) :
    ReadAs (configured first) config ↔
      ReadableLayout doc (configured first) := by
  obtain rfl := text_of_parse hparse
  obtain ⟨hlidar, hhost⟩ := hdoc.configured_ne_nil
  obtain ⟨hno₁, hno₂⟩ := hdoc.noData_eq
  obtain ⟨hfind₁, hfind₂⟩ := hdoc.find_eq
  obtain ⟨hros₁, hros₂⟩ := hdoc.ros2_eq
  generalize configured first = pair at hlidar hhost ⊢
  obtain ⟨lidar, host⟩ := pair
  simp only at hlidar hhost
  simp only [ReadAs, Prod.mk.injEq, hno₁, hno₂, hfind₁, hfind₂, hros₁, hros₂]
  constructor
  · rintro ⟨⟨hno, -⟩, -, hros, hroshost⟩
    have htight := eq_some_of_getD hlidar hros
    obtain ⟨q, hq⟩ := exists_onLine_of_tight hdoc.holdsQuadArrays htight
    rw [hq, Option.getD_some, orDefault_of_ne_nil q.text_ne_nil] at hno
    exact ⟨htight, hq.trans (congrArg some hno), eq_some_of_getD hhost hroshost⟩
  · rintro ⟨htight, honline, hhostLine⟩
    rw [htight, honline, hhostLine]
    simp only [Option.getD_some, orDefault_of_ne_nil hlidar,
      orDefault_of_ne_nil hhost, and_self]

/-- An entry with these blanks after the bracket of its array. -/
def sampleEntry (gap : List Blank) : Value :=
  .obj (.more (plainKey lidarIpKey)
    (.arr (.last gap (quadValue (quad 192 168 1 157)) [])) []
    (.last (plainKey hostIpKey) (quadValue (quad 192 168 1 100)) []))

def sampleConfig (gap : List Blank) : Document :=
  ⟨[], .obj (.last (plainKey mid360Key)
    (.obj (.last (plainKey hostNetInfoKey)
      (.arr (.last [] (sampleEntry gap) [])) [])) []), []⟩

theorem sampleConfig_isHostConfig (gap : List Blank) :
    IsHostConfig (sampleConfig gap) (sampleEntry gap) [] := by
  have harray : IsQuadArray
      (.arr (.last gap (quadValue (quad 192 168 1 157)) [])) := by
    refine ⟨_, rfl, fun e he => ?_⟩
    obtain rfl : e = _ := List.mem_singleton.mp he
    exact isQuad_quadValue _
  refine ⟨?_, ⟨_, _, rfl, rfl, rfl⟩, ?_, ?_, rfl, rfl⟩
  · intro field hfield
    have hkeys : ∀ field ∈ (sampleConfig gap).value.fields,
        ∃ name, field.head = plainKey name := by
      simp [sampleConfig, sampleEntry, Value.fields, Members.fields,
        Elems.fields, quadValue]
    obtain ⟨name, hname⟩ := hkeys field hfield
    exact hname ▸ bare_spell name
  · intro object hobject
    obtain rfl := List.mem_singleton.mp hobject
    exact ⟨_, rfl, harray⟩
  · intro object hobject
    obtain rfl := List.mem_singleton.mp hobject
    exact ⟨_, rfl, isQuad_quadValue _⟩

theorem readAs_configured_sample :
    ReadAs (configured (sampleEntry [])) (sampleConfig []).text :=
  (readAs_configured_iff (parse_text _) (sampleConfig_isHostConfig [])).mpr
    ⟨by decide, by decide, by decide⟩

/-- One blank after the bracket: the third script finds no lidar address. -/
theorem not_readAs_configured_gap :
    IsHostConfig (sampleConfig [.space]) (sampleEntry [.space]) [] ∧
      ¬ ReadAs (configured (sampleEntry [.space]))
        (sampleConfig [.space]).text := by
  refine ⟨sampleConfig_isHostConfig _, fun h => ?_⟩
  have hlidar : DiagnoseLivoxRos2.lidarIp (sampleConfig [.space]).text = [] := by
    decide +kernel
  have hsome : (configured (sampleEntry [.space])).1 ≠ [] := by decide
  exact hsome ((congrArg Prod.fst h.2.2).symm.trans hlidar)

end LivoxScripts
