/-
Searching a document for a key, and replacing what is found.  Each pattern for
the value has its site; replacing a match puts a new value after the key.
-/
import LivoxScripts.Json.Patch
import LivoxScripts.Json.ValuePattern

namespace JsonText

open TextTools

variable {name : Text} {value : Regex} {f : Flavor} {p : Char → Bool}

theorem captured_plain (p : Char → Bool) : (captured p).Plain :=
  ⟨Regex.lit_plain _, trivial, trivial, trivial⟩

theorem capturedFirst_plain (space p : Char → Bool) :
    (capturedFirst space p).Plain :=
  ⟨Regex.lit_plain _, trivial, captured_plain p⟩

theorem cuts_captured (hname : IsName name) (hq : p '"' = false)
    (field : Field) :
    Cuts f (keyed isLineSpace name (captured p))
      (keySite name (takeCaptured p)) field := by
  have hplain := captured_plain p
  apply cuts_keyed hname hplain captured_solid
    fun _ => takes_captured hq field.value
  intro _ t ht tail htail
  have hr := memberPattern_keyed hname hplain f
  unfold takeCaptured at ht
  split at ht
  · next s _ =>
      split at ht
      · simp at ht
      · obtain rfl := Option.some.inj ht
        exact hr.scan_string (captured_suffix p s) htail
  · simp at ht

theorem enclosed_plain (p : Char → Bool) (left right : Text) :
    (enclosed p left right).Plain :=
  ⟨Regex.lit_plain _, trivial, Regex.lit_plain _⟩

theorem cuts_enclosed (hname : IsName name) (field : Field) :
    Cuts f (keyed isLineSpace name (enclosed notQuoteInLine ['"'] []))
      (keySite name takeEnclosed) field := by
  have hplain := enclosed_plain notQuoteInLine ['"'] []
  apply cuts_keyed hname hplain (enclosed_solid (by decide) _ _)
    fun _ => takes_enclosed field.value
  intro _ t ht tail htail
  have hr := memberPattern_keyed hname hplain f
  unfold takeEnclosed at ht
  split at ht
  · next s _ =>
      obtain rfl := Option.some.inj ht
      exact hr.scan_string (afterQuote_suffix s) htail
  · simp at ht

/-- No match begins in the strings of an array. -/
theorem scan_strings {r : Regex} (hr : MemberPattern f r) :
    ∀ (es : Elems) (tail : Text), (∀ e ∈ es.toList, ∃ s, e = .str s) →
      Closes tail →
        r.scan f false 0 (es.text ++ tail) =
          passed es.text ++ r.scan f false 0 tail
  | .last pre v post, tail, h, htail => by
      obtain ⟨s, rfl⟩ := h v List.mem_cons_self
      have hs := hr.scan_string (s := s) List.suffix_rfl
        (follows_blankText post htail)
      simp only [Elems.text, Value.text, List.append_assoc,
        hr.scan_blankText, hs, passed_append]
  | .more pre v post es, tail, h, htail => by
      obtain ⟨s, rfl⟩ := h v List.mem_cons_self
      have hcomma : Closes (',' :: (es.text ++ tail)) :=
        closes_cons (by simp) _
      have hs := hr.scan_string (s := s) List.suffix_rfl
        (follows_blankText post hcomma)
      have hes := scan_strings hr es tail
        (fun e he => h e (List.mem_cons_of_mem _ he)) htail
      simp only [Elems.text, Value.text, List.append_assoc, List.cons_append,
        hr.scan_blankText, hs, hr.scan_cons (c := ',') (by decide), hes,
        passed_append, passed_cons]

theorem scan_afterFirst {r : Regex} (hr : MemberPattern f r) {es : Elems}
    (h : ∀ e ∈ es.toList, ∃ s, e = .str s) (tail : Text) :
    r.scan f false 0 (es.afterFirst ++ ']' :: tail) =
      passed (es.afterFirst ++ [']']) ++ r.scan f false 0 tail := by
  have hclose : Closes (']' :: tail) := closes_cons (by simp) tail
  cases es with
  | last pre v post =>
      simp [Elems.afterFirst, hr.scan_blankText,
        hr.scan_cons (c := ']') (by decide)]
  | more pre v post rest =>
      have hrest := scan_strings hr rest (']' :: tail)
        (fun e he => h e (List.mem_cons_of_mem _ he)) hclose
      simp [Elems.afterFirst, hr.scan_blankText, hrest,
        hr.scan_cons (c := ',') (by decide),
        hr.scan_cons (c := ']') (by decide)]

/-- The rest of an array after a match that ended inside its first string. -/
theorem scan_rest_of_array {r : Regex} (hr : MemberPattern f r) {es : Elems}
    (hes : ∀ e ∈ es.toList, ∃ s, e = .str s ∧ Bare s) {s : JString} {u : Text}
    (hu : u <:+ quoted s) (tail : Text) :
    r.scan f false 0 (u ++ (es.afterFirst ++ [']']) ++ tail) =
      passed (u ++ (es.afterFirst ++ [']'])) ++ r.scan f false 0 tail := by
  have hstrings : ∀ e ∈ es.toList, ∃ s, e = .str s := fun e he =>
    (hes e he).imp fun _ h => h.1
  have hfollows := follows_afterFirst es tail
  have hline : u ++ (es.afterFirst ++ [']']) ++ tail =
      u ++ (es.afterFirst ++ ']' :: tail) := by simp
  rw [hline, hr.scan_string hu hfollows, scan_afterFirst hr hstrings]
  simp

theorem cuts_firstCaptured (hname : IsName name) (hq : p '"' = false)
    {field : Field} (hv : ShowsKey name field.head.key →
      BareStrings field.value) :
    Cuts f (keyed isLineSpace name (capturedFirst isLineSpace p))
      (keySite name (takeFirstCaptured p)) field := by
  have hplain := capturedFirst_plain isLineSpace p
  apply cuts_keyed hname hplain (capturedFirst_solid _)
    fun hshow => takes_firstCaptured hq (hv hshow)
  intro hshow t ht tail _
  obtain ⟨es, hvalue, hes⟩ := hv hshow
  obtain ⟨s, hs, -⟩ := hes _ (first_mem_toList es)
  rw [hvalue, takeFirstCaptured] at ht
  split at ht
  · simp at ht
  · rw [hs, takeCaptured] at ht
    split at ht
    · simp at ht
    · obtain rfl := Option.some.inj ht
      exact scan_rest_of_array (memberPattern_keyed hname hplain f) hes
        (captured_suffix p s) tail

theorem cuts_firstEnclosed (hname : IsName name) {field : Field}
    (hv : ShowsKey name field.head.key → BareStrings field.value) :
    Cuts f (keyed isLineSpace name (enclosed notQuoteInLine ['[', '"'] []))
      (keySite name takeFirstEnclosed) field := by
  have hplain := enclosed_plain notQuoteInLine ['[', '"'] []
  apply cuts_keyed hname hplain (enclosed_solid (by decide) _ _)
    fun hshow => takes_firstEnclosed (hv hshow)
  intro hshow t ht tail _
  obtain ⟨es, hvalue, hes⟩ := hv hshow
  rw [hvalue, takeFirstEnclosed] at ht
  split at ht
  · next s hfirst =>
      obtain rfl := Option.some.inj ht
      exact scan_rest_of_array (memberPattern_keyed hname hplain f) hes
        (afterQuote_suffix s) tail
  · simp at ht

theorem cuts_singleton (hname : IsName name) {field : Field}
    (hv : ShowsKey name field.head.key → BareStrings field.value) :
    Cuts f (keyed isLineSpace name (enclosed notQuoteInLine ['[', '"'] [']']))
      (keySite name takeSingleton) field := by
  apply cuts_keyed hname (enclosed_plain _ _ _)
    (enclosed_solid (by decide) _ _) fun hshow => takes_singleton (hv hshow)
  intro _ t ht tail _
  unfold takeSingleton at ht
  split at ht
  · obtain rfl := Option.some.inj ht
    rfl
  · simp at ht

variable {take : Value → Option Take}

theorem keySite_leafy {field : Field}
    (h : ShowsKey name field.head.key → ∀ t, take field.value = some t →
      field.value.fields = []) : (keySite name take).Leafy field := by
  intro hsome
  obtain ⟨pieces, hpieces⟩ := Option.isSome_iff_exists.mp hsome
  simp only [keySite, Option.ite_none_right_eq_some,
    Option.map_eq_some_iff] at hpieces
  obtain ⟨⟨hshow, -⟩, t, ht, -⟩ := hpieces
  exact h hshow t ht

theorem fields_of_takeCaptured {p : Char → Bool} {v : Value} {t : Take}
    (h : takeCaptured p v = some t) : v.fields = [] := by
  unfold takeCaptured at h
  split at h
  · rfl
  · simp at h

theorem fields_of_takeEnclosed {v : Value} {t : Take}
    (h : takeEnclosed v = some t) : v.fields = [] := by
  unfold takeEnclosed at h
  split at h
  · rfl
  · simp at h

theorem fields_of_strings : ∀ (es : Elems),
    (∀ e ∈ es.toList, ∃ s, e = .str s) → es.fields = []
  | .last pre v post, h => by
      obtain ⟨s, rfl⟩ := h v List.mem_cons_self
      rfl
  | .more pre v post es, h => by
      obtain ⟨s, rfl⟩ := h v List.mem_cons_self
      have hes := fields_of_strings es
        fun e he => h e (List.mem_cons_of_mem _ he)
      simp [Elems.fields, Value.fields, hes]

theorem BareStrings.fields {v : Value} (h : BareStrings v) : v.fields = [] := by
  obtain ⟨es, rfl, hes⟩ := h
  exact fields_of_strings es fun e he => (hes e he).imp fun _ h => h.1

/-- What the search reports in a member. -/
theorem reported_keySite (field : Field) :
    (keySite name take).reported field =
      if ShowsKey name field.head.key ∧ field.head.OneLine then
        ((take field.value).map fun t =>
          (t.cursor (opening name field.head) []).body).toList
      else [] := by
  unfold Site.reported keySite
  split
  · cases take field.value with
    | none => rfl
    | some t => simp [Take.piece, Piece.reported]
  · rfl

/-- A key written without escapes shows a name exactly when it is the name. -/
theorem showsKey_iff_of_bare {key : JString} (hkey : Bare key) :
    ShowsKey name key ↔ raw key = name := by
  constructor
  · rintro ⟨front, hfront⟩
    cases front with
    | nil => simpa using hfront.symm
    | cons c front =>
        simp only [List.cons_append, List.cons.injEq] at hfront
        obtain ⟨s₁, s₂, rfl, -⟩ := raw_before_quote hfront.2.symm
        exact absurd (by simp) (quoteItem_not_mem_of_bare hkey)
  · intro h
    rw [ShowsKey, h]

theorem captured_within (p : Char → Bool) :
    (captured p).within notNewline =
      captured fun c => p c && notNewline c := by
  have hquote : ∀ c ∈ ['"'], notNewline c = true := List.all_eq_true.mp rfl
  simp only [captured, Regex.many1, Regex.within, Regex.lit_within hquote]

theorem capturedFirst_within (p : Char → Bool) :
    (capturedFirst isSpace p).within notNewline =
      capturedFirst isLineSpace fun c => p c && notNewline c := by
  have hbracket : ∀ c ∈ ['['], notNewline c = true := List.all_eq_true.mp rfl
  simp only [capturedFirst, Regex.within, Regex.lit_within hbracket,
    captured_within]
  rfl

theorem enclosed_within (left right : Text)
    (hleft : left.all notNewline = true)
    (hright : ('"' :: right).all notNewline = true) :
    (enclosed notQuote left right).within notNewline =
      enclosed notQuoteInLine left right := by
  simp only [enclosed, Regex.within,
    Regex.lit_within (List.all_eq_true.mp hleft),
    Regex.lit_within (List.all_eq_true.mp hright)]
  rfl

/-- The first text a search for a key reports in a document. -/
theorem capture_keyed {name : Text} (hname : IsName name) {value : Regex}
    (hplain : value.Plain) (site : Site) {f : Flavor} {doc : Document}
    (hcuts : ∀ field ∈ doc.value.fields,
      Cuts f (keyed isLineSpace name (value.within notNewline)) site field)
    (hleaf : ∀ field ∈ doc.value.fields, site.Leafy field) :
    lines (grepO f (keyed isSpace name value) doc.text) =
      doc.value.fields.flatMap site.reported := by
  have hwithin := keyed_within hname value
  have hvalue : (value.within notNewline).Plain :=
    (Regex.within_newline_avoids hplain).plain
  exact grepO_document (keyed_plain hplain _ _)
    (hwithin ▸ memberPattern_keyed hname hvalue f) (hwithin ▸ hcuts) hleaf

/-- The spelling of a text without escapes. -/
def spell (t : Text) : JString :=
  t.filterMap fun c => (check? isPlain c).map .plain

theorem raw_spell {t : Text} (h : ∀ c ∈ t, isPlain c = true) :
    raw (spell t) = t := by
  induction t with
  | nil => rfl
  | cons c cs ih =>
      have hc := h c List.mem_cons_self
      have hcs := ih fun d hd => h d (List.mem_cons_of_mem c hd)
      have hcons : spell (c :: cs) = .plain ⟨c, hc⟩ :: spell cs := by
        simp [spell, check?, hc]
      rw [hcons, raw_cons, hcs]
      rfl

theorem bare_spell (t : Text) : Bare (spell t) := by
  intro item hitem
  obtain ⟨c, -, hc⟩ := List.mem_filterMap.mp hitem
  obtain ⟨d, -, rfl⟩ := Option.map_eq_some_iff.mp hc
  exact ⟨d, rfl⟩

/-- The value of a text written without escapes. -/
theorem units_of_bare {s : JString} (h : Bare s) : units s = textUnits (raw s) := by
  induction s with
  | nil => rfl
  | cons item s ih =>
      obtain ⟨c, rfl⟩ := h item List.mem_cons_self
      have hs := ih fun item hitem => h item (List.mem_cons_of_mem _ hitem)
      simp only [units, raw, textUnits, List.flatMap_cons] at hs ⊢
      rw [hs]
      simp [StrItem.units, StrItem.text]

theorem charUnits_injective {c d : Char} {s t : List Nat}
    (h : charUnits c ++ s = charUnits d ++ t) : c = d ∧ s = t := by
  have hvalid : ∀ x : Char, x.toNat < 0xD800 ∨ 0xDFFF < x.toNat ∧
      x.toNat < 0x110000 := fun x => x.valid
  have hc := hvalid c
  have hd := hvalid d
  unfold charUnits at h
  split at h <;> split at h <;>
    simp only [List.cons_append, List.nil_append, List.cons.injEq] at h
  · exact ⟨Char.toNat_inj.mp h.1, h.2⟩
  · omega
  · omega
  · exact ⟨Char.toNat_inj.mp (by omega), h.2.2⟩

theorem textUnits_injective {t u : Text} (h : textUnits t = textUnits u) :
    t = u := by
  induction t generalizing u with
  | nil =>
      cases u with
      | nil => rfl
      | cons d u =>
          simp only [textUnits, List.flatMap_nil, List.flatMap_cons] at h
          have hd : charUnits d ≠ [] := by unfold charUnits; split <;> simp
          exact absurd (List.append_eq_nil_iff.mp h.symm).1 hd
  | cons c t ih =>
      cases u with
      | nil =>
          simp only [textUnits, List.flatMap_nil, List.flatMap_cons] at h
          have hc : charUnits c ≠ [] := by unfold charUnits; split <;> simp
          exact absurd (List.append_eq_nil_iff.mp h).1 hc
      | cons d u =>
          simp only [textUnits, List.flatMap_cons] at h
          obtain ⟨rfl, hrest⟩ := charUnits_injective h
          rw [ih hrest]

/-- A member with its colon and its value written anew. -/
def Field.withValue (v : Value) (field : Field) : Field :=
  ⟨{ field.head with mid := [], gap := [.space] }, v⟩

/-- Put the value wherever the search takes one. -/
def replaceAt (name : Text) (take : Value → Option Take) (v : Value) : Edit :=
  fun field =>
    if ShowsKey name field.head.key ∧ field.head.OneLine ∧
        (take field.value).isSome then
      some (field.withValue v)
    else none

/-- What a script writes for a match: the quoted name, a colon, a space and the
value. -/
def memberText (name : Text) (v : Value) : Text :=
  '"' :: (name ++ '"' :: ':' :: ' ' :: v.text)

theorem rewrites_keyed {name : Text} {take : Value → Option Take} {v : Value}
    {field : Field} (hafter : ShowsKey name field.head.key →
      field.head.OneLine → ∀ t, take field.value = some t → t.after = []) :
    Rewrites (memberText name v) (keySite name take) (replaceAt name take v)
      field := by
  obtain ⟨head, w⟩ := field
  by_cases hsite : ShowsKey name head.key ∧ head.OneLine
  · cases ht : take w with
    | none => simp [Rewrites, keySite, replaceAt, ht]
    | some t =>
        have hnil := hafter hsite.1 hsite.2 t ht
        simp [Rewrites, keySite, replaceAt, ht, hsite, hnil, Take.piece,
          Piece.replaced, memberText, Field.withValue, Field.text,
          KeyHead.text, quoted_eq_keyLead hsite.1, blankText, Blank.char]
  · have hedit : ¬ (ShowsKey name head.key ∧ head.OneLine ∧
        (take w).isSome) := fun h => hsite ⟨h.1, h.2.1⟩
    simp [Rewrites, keySite, replaceAt, hsite, hedit]

/-- A global replacement of the values a key pattern takes. -/
theorem sed_keyed {name : Text} (hname : IsName name) {value : Regex}
    (hplain : value.Plain) {take : Value → Option Take} {doc : Document}
    (hcuts : ∀ field ∈ doc.value.fields, Cuts .posix
      (keyed isLineSpace name (value.within notNewline)) (keySite name take)
      field)
    (hafter : ∀ field ∈ doc.value.fields, ShowsKey name field.head.key →
      field.head.OneLine → ∀ t, take field.value = some t → t.after = [])
    (v : Value) :
    sed (keyed isSpace name value) (memberText name v) doc.text =
      (doc.patch (replaceAt name take v)).text := by
  have hwithin := keyed_within hname value
  have hvalue : (value.within notNewline).Plain :=
    (Regex.within_newline_avoids hplain).plain
  exact sed_document (keyed_plain hplain _ _)
    (hwithin ▸ memberPattern_keyed hname hvalue .posix) (hwithin ▸ hcuts)
    fun field hfield => rewrites_keyed (hafter field hfield)

variable {v : Value} {field : Field}

/-- The search takes the value of this member. -/
def Taken (name : Text) (take : Value → Option Take) (field : Field) : Prop :=
  ShowsKey name field.head.key ∧ field.head.OneLine ∧ (take field.value).isSome

instance (name : Text) (take : Value → Option Take) :
    DecidablePred (Taken name take) := fun _ =>
  inferInstanceAs (Decidable (_ ∧ _ ∧ _))

theorem replaceAt_eq :
    replaceAt name take v field =
      if Taken name take field then some (field.withValue v) else none := rfl

theorem apply_replaceAt :
    (replaceAt name take v).apply field =
      if Taken name take field then field.withValue v
      else ⟨field.head, field.value.patch (replaceAt name take v)⟩ := by
  rw [Edit.apply, Edit.at, replaceAt_eq]
  split <;> rfl

theorem apply_replaceAt_key :
    ((replaceAt name take v).apply field).head.key = field.head.key := by
  rw [apply_replaceAt]
  split <;> rfl

/-- The value of a member without members inside. -/
theorem apply_replaceAt_value (hnone : field.value.fields = []) :
    ((replaceAt name take v).apply field).value =
      if Taken name take field then v else field.value := by
  rw [apply_replaceAt]
  split
  · rfl
  · exact patch_of_fields_nil _ hnone

theorem replaceAt_leafy (hv : v.fields = [])
    (htaken : Taken name take field → field.value.fields = []) :
    (replaceAt name take v).Leafy field := by
  intro field' hfield'
  rw [replaceAt_eq] at hfield'
  split at hfield'
  · next h =>
      obtain rfl : field.withValue v = field' := by simpa using hfield'
      exact ⟨htaken h, hv⟩
  · simp at hfield'

theorem keepsShape_replaceAt {hide : List Text}
    (htaken : Taken name take field → field.value.fields = [])
    (hhidden : Hidden hide field → field.value.fields = []) :
    KeepsShape hide (replaceAt name take v) field := by
  constructor
  · intro field' hfield'
    rw [replaceAt_eq] at hfield'
    split at hfield'
    · obtain rfl : field.withValue v = field' := by simpa using hfield'
      rfl
    · simp at hfield'
  · rintro (hsome | hhide)
    · rw [replaceAt_eq] at hsome
      split at hsome
      · next h => exact htaken h
      · simp at hsome
    · exact hhidden hhide

/-- Replacing values that are not looked at. -/
theorem keepsValue_replaceAt {hide : List Text}
    (h : Taken name take field → Hidden hide field) :
    KeepsValue hide (replaceAt name take v) field := by
  intro field' hfield'
  rw [replaceAt_eq] at hfield'
  split at hfield'
  · next htaken => exact Or.inl (h htaken)
  · simp at hfield'

end JsonText
