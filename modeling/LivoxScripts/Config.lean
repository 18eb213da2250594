/-
`MID360_config.json` as a document: the keys that hold addresses, how their
members may be laid out, and what the scripts' patterns find there.
-/
import LivoxScripts.Address
import LivoxScripts.Json.KeySearch

namespace LivoxScripts

open TextTools JsonText

def mid360Key : Text := "MID360".toList

def hostNetInfoKey : Text := "host_net_info".toList

def lidarConfigsKey : Text := "lidar_configs".toList

def lidarIpKey : Text := "lidar_ip".toList

def hostIpKey : Text := "host_ip".toList

def ipKey : Text := "ip".toList

/-- All keys are written without escapes. -/
def BareKeys (doc : Document) : Prop :=
  ∀ field ∈ doc.value.fields, Bare field.head.key

/-- An address written without escapes. -/
def IsQuad (v : Value) : Prop :=
  ∃ (s : JString) (q : Quad), v = .str s ∧ Bare s ∧ raw s = q.text

/-- An array of one or more addresses written without escapes. -/
def IsQuadArray (v : Value) : Prop :=
  ∃ es, v = .arr es ∧ ∀ e ∈ es.toList, IsQuad e

/-- The text between the quotes of a string. -/
def stringText : Value → Text
  | .str s => raw s
  | _ => []

/-- The blanks between the bracket of an array and its first element. -/
def firstGap : Value → List Blank
  | .arr es => es.first.1
  | _ => []

def firstAddress : Value → Text
  | .arr es => stringText es.first.2
  | _ => []

/-- The string value of an address. -/
def quadValue (q : Quad) : Value := .str (spell q.text)

theorem raw_spell_quad (q : Quad) : raw (spell q.text) = q.text := by
  apply raw_spell
  intro c hc
  have haddr := isAddressChar_of_mem hc
  simp only [isAddressChar, Bool.or_eq_true, beq_iff_eq] at haddr
  rcases haddr with hdigit | rfl
  · simp only [Char.isDigit, Bool.and_eq_true, decide_eq_true_eq,
      UInt32.le_iff_toNat_le] at hdigit
    change 48 ≤ c.toNat ∧ c.toNat ≤ 57 at hdigit
    have hquote : c ≠ '"' := by
      rintro rfl
      exact absurd hdigit.1 (by decide)
    have hescape : c ≠ '\\' := by
      rintro rfl
      exact absurd hdigit.2 (by decide)
    have hcontrol : 0x20 ≤ c.toNat := by omega
    simp [isPlain, hquote, hescape, hcontrol]
  · decide

theorem isQuad_quadValue (q : Quad) : IsQuad (quadValue q) :=
  ⟨spell q.text, q, rfl, bare_spell _, raw_spell_quad q⟩

/-- A key without blanks around it. -/
def plainKey (name : Text) : KeyHead := ⟨[], spell name, [], []⟩

/-- No line break between the key and its value. -/
def OnLine (name : Text) (field : Field) : Prop :=
  field.Named name ∧ field.head.OneLine

/-- No line break between the key and the first address of its array. -/
def ArrayOnLine (name : Text) (field : Field) : Prop :=
  OnLine name field ∧ Blank.newline ∉ firstGap field.value

/-- Nor any blank after the bracket. -/
def ArrayTight (name : Text) (field : Field) : Prop :=
  OnLine name field ∧ firstGap field.value = []

instance (name : Text) : DecidablePred (OnLine name) := fun field =>
  inferInstanceAs (Decidable (field.Named name ∧ field.head.OneLine))

instance (name : Text) : DecidablePred (ArrayOnLine name) := fun _ =>
  inferInstanceAs (Decidable (_ ∧ _))

instance (name : Text) : DecidablePred (ArrayTight name) := fun _ =>
  inferInstanceAs (Decidable (_ ∧ _))

/-- What `read` gives for the first member laid out like this. -/
def firstOf (layout : Field → Prop) [DecidablePred layout]
    (read : Value → Text) (doc : Document) : Option Text :=
  (doc.value.fields.find? (layout ·)).map fun field => read field.value

theorem showsKey_iff_named {name : Text} {field : Field}
    (hkey : Bare field.head.key) :
    ShowsKey name field.head.key ↔ field.Named name := by
  rw [showsKey_iff_of_bare hkey, Field.Named, units_of_bare hkey]
  exact ⟨fun h => by rw [h], textUnits_injective⟩

theorem IsQuadArray.bareStrings {v : Value} (h : IsQuadArray v) :
    BareStrings v := by
  obtain ⟨es, rfl, hes⟩ := h
  refine ⟨es, rfl, fun e he => ?_⟩
  obtain ⟨s, q, rfl, hs, -⟩ := hes e he
  exact ⟨s, rfl, hs⟩

theorem IsQuad.stringText {v : Value} (h : IsQuad v) :
    ∃ q : Quad, LivoxScripts.stringText v = q.text := by
  obtain ⟨s, q, rfl, -, hq⟩ := h
  exact ⟨q, hq⟩

theorem IsQuadArray.firstAddress {v : Value} (h : IsQuadArray v) :
    ∃ q : Quad, LivoxScripts.firstAddress v = q.text := by
  obtain ⟨es, rfl, hes⟩ := h
  exact (hes _ (first_mem_toList es)).stringText

variable {p : Char → Bool}

theorem taken_captured (hp : ∀ c, isAddressChar c = true → p c = true)
    {v : Value} (hv : IsQuad v) (front : Text) :
    (takeCaptured p v).map (fun t => (t.cursor front []).body) =
      some (stringText v) := by
  obtain ⟨s, q, rfl, hbare, hq⟩ := hv
  obtain ⟨hup, hafter⟩ := upToQuote_of_not_mem
    (quoteItem_not_mem_of_bare hbare)
  have hall : ∀ c ∈ q.text, p c = true := fun c hc =>
    hp c (isAddressChar_of_mem hc)
  simp [takeCaptured, hup, hafter, hq, List.takeWhile_eq_self_iff.mpr hall,
    q.text_ne_nil, stringText, Take.cursor]

theorem taken_enclosed {v : Value} (hv : IsQuad v) (front : Text) :
    (takeEnclosed v).map (fun t => (t.cursor front []).body) =
      some (front ++ (['"'] ++ (stringText v ++ ['"']))) := by
  obtain ⟨s, q, rfl, hbare, hq⟩ := hv
  obtain ⟨hup, hafter⟩ := upToQuote_of_not_mem
    (quoteItem_not_mem_of_bare hbare)
  simp [takeEnclosed, hup, hafter, stringText, Take.cursor]

theorem taken_firstCaptured (hp : ∀ c, isAddressChar c = true → p c = true)
    {v : Value} (hv : IsQuadArray v) (front : Text) :
    (takeFirstCaptured p v).map (fun t => (t.cursor front []).body) =
      if .newline ∈ firstGap v then none else some (firstAddress v) := by
  obtain ⟨es, rfl, hes⟩ := hv
  by_cases hline : Blank.newline ∈ es.first.1
  · simp [takeFirstCaptured, firstGap, hline]
  · have hfirst := taken_captured hp (hes _ (first_mem_toList es)) []
    obtain ⟨t, ht, hbody⟩ := Option.map_eq_some_iff.mp hfirst
    have hkept : (t.cursor [] []).body = t.body := by
      unfold Take.cursor
      split <;> simp
    rw [hkept] at hbody
    simp [takeFirstCaptured, firstGap, hline, ht, firstAddress, hbody,
      Take.cursor]

theorem taken_firstEnclosed {v : Value} (hv : IsQuadArray v) (front : Text) :
    (takeFirstEnclosed v).map (fun t => (t.cursor front []).body) =
      if firstGap v = [] then
        some (front ++ (['[', '"'] ++ (firstAddress v ++ ['"'])))
      else none := by
  obtain ⟨es, rfl, hes⟩ := hv
  obtain ⟨s, q, hs, hbare, hq⟩ := hes _ (first_mem_toList es)
  obtain ⟨hup, -⟩ := upToQuote_of_not_mem (quoteItem_not_mem_of_bare hbare)
  by_cases hgap : es.first.1 = []
  · have hfirst : es.first = ([], .str s) := Prod.ext hgap hs
    simp [takeFirstEnclosed, hfirst, firstGap, firstAddress, stringText, hup,
      Take.cursor]
  · have hnone : takeFirstEnclosed (.arr es) = none := by
      simp only [takeFirstEnclosed]
      split
      · next heq => simp [heq] at hgap
      · rfl
    simp [hnone, firstGap, hgap]

variable {name : Text} {doc : Document}

/-- The members under this key hold single addresses. -/
def HoldsQuads (name : Text) (doc : Document) : Prop :=
  ∀ field ∈ doc.value.fields, field.Named name → IsQuad field.value

/-- The members under this key hold arrays of addresses. -/
def HoldsQuadArrays (name : Text) (doc : Document) : Prop :=
  ∀ field ∈ doc.value.fields, field.Named name → IsQuadArray field.value

theorem headD_flatMap_ite {α : Type} (layout : α → Prop)
    [DecidablePred layout] (read : α → Text) (l : List α) :
    (l.flatMap fun x => if layout x then [read x] else []).headD [] =
      ((l.find? (layout ·)).map read).getD [] := by
  induction l with
  | nil => rfl
  | cons x xs ih =>
      by_cases hx : layout x
      · simp [hx]
      · simpa [hx] using ih

/-- Only the members laid out like this are reported. -/
theorem headD_reported {site : Site} (layout : Field → Prop)
    [DecidablePred layout] (read : Value → Text)
    (h : ∀ field ∈ doc.value.fields, site.reported field =
      if layout field then [read field.value] else []) :
    (doc.value.fields.flatMap site.reported).headD [] =
      (firstOf layout read doc).getD [] := by
  rw [List.flatMap_congr h, headD_flatMap_ite]
  rfl

/-- What a search reports in a member whose key has no escapes. -/
theorem reported_named {take : Value → Option Take} {field : Field}
    (hkey : Bare field.head.key) :
    (keySite name take).reported field =
      if OnLine name field then
        ((take field.value).map fun t =>
          (t.cursor (opening name field.head) []).body).toList
      else [] := by
  have hiff : ShowsKey name field.head.key ∧ field.head.OneLine ↔
      OnLine name field := and_congr_left' (showsKey_iff_named hkey)
  rw [reported_keySite]
  exact if_congr hiff rfl rfl

theorem not_addressChar_of_name (hname : IsName name) {c : Char}
    (hc : c ∈ name) : isAddressChar c = false := by
  have hall : (nameChars.all fun c => !isAddressChar c) = true := by decide
  have hmem : c ∈ nameChars := by
    simpa [isNameChar] using isNameChar_of_mem hname hc
  simpa using List.all_eq_true.mp hall c hmem

theorem not_addressChar_of_opening (hname : IsName name) {head : KeyHead}
    {c : Char} (hc : c ∈ opening name head) : isAddressChar c = false := by
  have hblank : ∀ blanks : List Blank, c ∈ blankText blanks →
      isAddressChar c = false := by
    intro blanks hmem
    obtain ⟨blank, -, rfl⟩ := List.mem_map.mp hmem
    cases blank <;> decide
  simp only [opening, List.mem_cons, List.mem_append] at hc
  rcases hc with rfl | hc | rfl | hc | rfl | hc
  · decide
  · exact not_addressChar_of_name hname hc
  · decide
  · exact hblank _ hc
  · decide
  · exact hblank _ hc

/-- A reported member holds one address between other characters. -/
theorem onlyMatching_member (hname : IsName name) (f : Flavor)
    {head : KeyHead} {left : Text}
    (hleft : (left.all fun c => !isAddressChar c) = true) (q : Quad) :
    quadPattern.onlyMatching f
      (opening name head ++ (left ++ (q.text ++ ['"']))) = [q.text] := by
  have hq := onlyMatching_quad_append (c := '"') (by decide) f q.text []
  rw [onlyMatching_quad_skip
      (fun c hc => not_addressChar_of_opening hname hc),
    onlyMatching_quad_skip fun c hc => by
      simpa using List.all_eq_true.mp hleft c hc,
    hq, onlyMatching_quad]
  simp

theorem addressChar_line (hp : ∀ c, isAddressChar c = true → p c = true)
    {c : Char} (hc : isAddressChar c = true) :
    (p c && notNewline c) = true := by
  have hne : c ≠ '\n' := by
    rintro rfl
    exact absurd hc (by decide)
  simp [hp c hc, notNewline, hne]

/-- `"name"\s*:\s*"\Kp+`, first line -/
theorem read_captured (hname : IsName name) (hq : p '"' = false)
    (hp : ∀ c, isAddressChar c = true → p c = true) (hkeys : BareKeys doc)
    (hquads : HoldsQuads name doc) (f : Flavor) :
    commandSubst (head1 (grepO f (keyed isSpace name (captured p)) doc.text)) =
      (firstOf (OnLine name) stringText doc).getD [] := by
  rw [commandSubst_head1, capture_keyed hname (captured_plain p)
    (keySite name (takeCaptured fun c => p c && notNewline c))]
  · apply headD_reported
    intro field hfield
    rw [reported_named (hkeys field hfield)]
    by_cases honline : OnLine name field
    · rw [if_pos honline, if_pos honline, taken_captured
        (fun c => addressChar_line hp) (hquads field hfield honline.1)]
      rfl
    · rw [if_neg honline, if_neg honline]
  · intro field _
    rw [captured_within]
    exact cuts_captured hname (by simp [hq]) field
  · intro field _
    exact keySite_leafy fun _ t ht => fields_of_takeCaptured ht

theorem harray_of_showsKey (hkeys : BareKeys doc)
    (harrays : HoldsQuadArrays name doc) {field : Field}
    (hfield : field ∈ doc.value.fields)
    (hshow : ShowsKey name field.head.key) : BareStrings field.value :=
  (harrays field hfield
    ((showsKey_iff_named (hkeys field hfield)).mp hshow)).bareStrings

/-- `"name"\s*:\s*\[\s*"\Kp+`, first line -/
theorem read_capturedFirst (hname : IsName name) (hq : p '"' = false)
    (hp : ∀ c, isAddressChar c = true → p c = true) (hkeys : BareKeys doc)
    (harrays : HoldsQuadArrays name doc) (f : Flavor) :
    commandSubst (head1
        (grepO f (keyed isSpace name (capturedFirst isSpace p)) doc.text)) =
      (firstOf (ArrayOnLine name) firstAddress doc).getD [] := by
  rw [commandSubst_head1, capture_keyed hname (capturedFirst_plain isSpace p)
    (keySite name (takeFirstCaptured fun c => p c && notNewline c))]
  · apply headD_reported
    intro field hfield
    rw [reported_named (hkeys field hfield)]
    by_cases honline : OnLine name field
    · rw [if_pos honline, taken_firstCaptured
        (fun c => addressChar_line hp) (harrays field hfield honline.1)]
      by_cases hgap : Blank.newline ∈ firstGap field.value
      · simp [ArrayOnLine, hgap]
      · simp [ArrayOnLine, honline, hgap]
    · simp [ArrayOnLine, honline]
  · intro field hfield
    rw [capturedFirst_within]
    exact cuts_firstCaptured hname (by simp [hq])
      (harray_of_showsKey hkeys harrays hfield)
  · intro field hfield
    exact keySite_leafy fun hshow _ _ =>
      (harray_of_showsKey hkeys harrays hfield hshow).fields

/-- The addresses in the matches of a first search. -/
theorem lines_grepO_grepO (f : Flavor) {r : Regex} {site : Site}
    (h : lines (grepO f r doc.text) =
      doc.value.fields.flatMap site.reported) :
    lines (grepO f quadPattern (grepO f r doc.text)) =
      doc.value.fields.flatMap fun field =>
        (site.reported field).flatMap (quadPattern.onlyMatching f) := by
  rw [lines_grepO, h, List.flatMap_assoc]

/-- `"name"\s*:\s*"[^"]*"`, then the first address in the matches -/
theorem read_enclosed (hname : IsName name) (hkeys : BareKeys doc)
    (hquads : HoldsQuads name doc) (f : Flavor) :
    commandSubst (head1 (grepO f quadPattern
        (grepO f (keyed isSpace name (enclosed notQuote ['"'] []))
          doc.text))) =
      (firstOf (OnLine name) stringText doc).getD [] := by
  have hwithin := enclosed_within ['"'] []
    (by decide) (by decide)
  rw [commandSubst_head1, lines_grepO_grepO f (capture_keyed hname
    (enclosed_plain notQuote ['"'] [])
    (keySite name takeEnclosed) ?_ ?_), firstOf, ← headD_flatMap_ite]
  · congr 1
    refine List.flatMap_congr fun field hfield => ?_
    rw [reported_named (hkeys field hfield)]
    by_cases honline : OnLine name field
    · have hquad := hquads field hfield honline.1
      obtain ⟨q, hq⟩ := hquad.stringText
      rw [if_pos honline, if_pos honline, taken_enclosed hquad, hq]
      simp only [Option.toList_some, List.flatMap_singleton]
      exact onlyMatching_member hname f (by decide) q
    · rw [if_neg honline, if_neg honline, List.flatMap_nil]
  · intro field _
    rw [hwithin]
    exact cuts_enclosed hname field
  · intro field _
    exact keySite_leafy fun _ t ht => fields_of_takeEnclosed ht

/-- `"name"\s*:\s*\["[^"]*"`, then the first address in the matches -/
theorem read_firstEnclosed (hname : IsName name) (hkeys : BareKeys doc)
    (harrays : HoldsQuadArrays name doc) (f : Flavor) :
    commandSubst (head1 (grepO f quadPattern
        (grepO f (keyed isSpace name (enclosed notQuote ['[', '"'] []))
          doc.text))) =
      (firstOf (ArrayTight name) firstAddress doc).getD [] := by
  have hwithin := enclosed_within ['[', '"'] []
    (by decide) (by decide)
  rw [commandSubst_head1, lines_grepO_grepO f (capture_keyed hname
    (enclosed_plain notQuote ['[', '"'] [])
    (keySite name takeFirstEnclosed) ?_ ?_), firstOf,
    ← headD_flatMap_ite]
  · congr 1
    refine List.flatMap_congr fun field hfield => ?_
    rw [reported_named (hkeys field hfield)]
    by_cases honline : OnLine name field
    · have harray := harrays field hfield honline.1
      obtain ⟨q, hq⟩ := harray.firstAddress
      rw [if_pos honline, taken_firstEnclosed harray, hq]
      by_cases hgap : firstGap field.value = []
      · rw [if_pos hgap, if_pos ⟨honline, hgap⟩]
        simp only [Option.toList_some, List.flatMap_singleton]
        exact onlyMatching_member hname f (by decide) q
      · have hlayout : ¬ ArrayTight name field := fun h => hgap h.2
        rw [if_neg hgap, if_neg hlayout]
        rfl
    · have hlayout : ¬ ArrayTight name field := fun h => honline h.1
      rw [if_neg honline, if_neg hlayout, List.flatMap_nil]
  · intro field hfield
    rw [hwithin]
    exact cuts_firstEnclosed hname
      (harray_of_showsKey hkeys harrays hfield)
  · intro field hfield
    exact keySite_leafy fun hshow _ _ =>
      (harray_of_showsKey hkeys harrays hfield hshow).fields

end LivoxScripts
