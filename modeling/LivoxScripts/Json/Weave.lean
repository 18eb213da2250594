/-
What a search for members does to the text of a value.  A site says how the
text of a member is cut up when a match begins in it; every other character is
passed over.  Replacing the matches then edits members of the value.
-/
import LivoxScripts.Json.Parse
import LivoxScripts.Text.Filters

namespace JsonText

open TextTools

/-- How a search cuts up a member; `none` when no match begins in its head. -/
abbrev Site := Field → Option (List Piece)

/-- A member from its key to its value. -/
def Field.text (field : Field) : Text := field.head.text ++ field.value.text

/-- Nothing, a comma or a closing bracket. -/
def Closes (t : Text) : Prop := ∀ c ∈ t.head?, c = ',' ∨ c = ']' ∨ c = '}'

/-- What may follow a value. -/
def Follows (t : Text) : Prop :=
  ∃ blanks rest, t = blankText blanks ++ rest ∧ Closes rest

mutual

def Value.weave (site : Site) : Value → List Piece
  | .arr elems => .skip '[' :: (elems.weave site ++ [.skip ']'])
  | .obj members => .skip '{' :: (members.weave site ++ [.skip '}'])
  | v => passed v.text

def Elems.weave (site : Site) : Elems → List Piece
  | .last pre v post =>
      passed (blankText pre) ++ (v.weave site ++ passed (blankText post))
  | .more pre v post rest =>
      passed (blankText pre) ++
        (v.weave site ++ (passed (blankText post) ++ .skip ',' :: rest.weave site))

def Members.weave (site : Site) : Members → List Piece
  | .last head v post =>
      passed (blankText head.pre) ++
        ((site ⟨head, v⟩).getD (passed head.text ++ v.weave site) ++
          passed (blankText post))
  | .more head v post rest =>
      passed (blankText head.pre) ++
        ((site ⟨head, v⟩).getD (passed head.text ++ v.weave site) ++
          (passed (blankText post) ++ .skip ',' :: rest.weave site))

end

def Document.weave (site : Site) (doc : Document) : List Piece :=
  passed (blankText doc.pre) ++
    (doc.value.weave site ++ passed (blankText doc.post))

/-- A pattern that matches at most in the heads of members. -/
structure MemberPattern (f : Flavor) (r : Regex) : Prop where
  plain : r.Plain
  other : ∀ c cs, c ≠ '"' → r.matchAt f false (c :: cs) = none
  string : ∀ s t tail, t <:+ quoted s → t ≠ [] → Follows tail →
    r.matchAt f false (t ++ tail) = none

/-- The site describes what the search does to this member. -/
def Cuts (f : Flavor) (r : Regex) (site : Site) (field : Field) : Prop :=
  ∀ tail, Follows tail →
    r.scan f false 0 (field.text ++ tail) =
      match site field with
      | some pieces => pieces ++ r.scan f false 0 tail
      | none =>
          passed field.head.text ++
            r.scan f false 0 (field.value.text ++ tail)

theorem closes_cons {c : Char} (hc : c = ',' ∨ c = ']' ∨ c = '}') (cs : Text) :
    Closes (c :: cs) := by
  intro d hd
  obtain rfl : c = d := by simpa using hd
  exact hc

theorem follows_blankText (blanks : List Blank) {rest : Text}
    (h : Closes rest) : Follows (blankText blanks ++ rest) :=
  ⟨blanks, rest, rfl, h⟩

theorem blank_ne_quote (blank : Blank) : blank.char ≠ '"' := by
  cases blank <;> decide

theorem quote_not_mem_blankText (blanks : List Blank) :
    '"' ∉ blankText blanks := by
  intro hmem
  obtain ⟨blank, -, hblank⟩ := List.mem_map.mp hmem
  exact blank_ne_quote blank hblank

variable {f : Flavor} {r : Regex} {site : Site}

namespace MemberPattern

theorem scan_of_quote_not_mem (hr : MemberPattern f r) {u : Text}
    (hu : '"' ∉ u) (more : Text) :
    r.scan f false 0 (u ++ more) = passed u ++ r.scan f false 0 more := by
  apply Regex.scan_passed
  intro t ht hne
  obtain ⟨c, cs, rfl⟩ := List.exists_cons_of_ne_nil hne
  exact hr.other c _ fun hc => hu (ht.subset (hc ▸ List.mem_cons_self))

theorem scan_blankText (hr : MemberPattern f r) (blanks : List Blank)
    (more : Text) :
    r.scan f false 0 (blankText blanks ++ more) =
      passed (blankText blanks) ++ r.scan f false 0 more :=
  hr.scan_of_quote_not_mem (quote_not_mem_blankText blanks) more

theorem scan_cons (hr : MemberPattern f r) {c : Char} (hc : c ≠ '"')
    (more : Text) :
    r.scan f false 0 (c :: more) = .skip c :: r.scan f false 0 more := by
  simpa using hr.scan_of_quote_not_mem (u := [c]) (by simpa using hc.symm) more

/-- No match begins in a string that stands as a value. -/
theorem scan_string (hr : MemberPattern f r) {s : JString} {u : Text}
    (hu : u <:+ quoted s) {tail : Text} (htail : Follows tail) :
    r.scan f false 0 (u ++ tail) = passed u ++ r.scan f false 0 tail :=
  Regex.scan_passed fun t ht hne => hr.string s t tail (ht.trans hu) hne htail

theorem scan_member (hr : MemberPattern f r) {head : KeyHead} {v : Value}
    (hcuts : Cuts f r site ⟨head, v⟩) {tail : Text} (htail : Follows tail)
    (hv : r.scan f false 0 (v.text ++ tail) =
      v.weave site ++ r.scan f false 0 tail) :
    r.scan f false 0 (blankText head.pre ++ (head.text ++ (v.text ++ tail))) =
      passed (blankText head.pre) ++
        ((site ⟨head, v⟩).getD (passed head.text ++ v.weave site) ++
          r.scan f false 0 tail) := by
  have hfield := hcuts tail htail
  simp only [Field.text, List.append_assoc] at hfield
  rw [hr.scan_blankText, hfield]
  cases site ⟨head, v⟩ with
  | none => simp [hv]
  | some pieces => simp

end MemberPattern

mutual

theorem scan_value (hr : MemberPattern f r) : ∀ (v : Value) (tail : Text),
    (∀ field ∈ v.fields, Cuts f r site field) → Follows tail →
      r.scan f false 0 (v.text ++ tail) =
        v.weave site ++ r.scan f false 0 tail
  | .null, tail, _, _ => hr.scan_of_quote_not_mem (by decide) tail
  | .bool true, tail, _, _ => hr.scan_of_quote_not_mem (by decide) tail
  | .bool false, tail, _, _ => hr.scan_of_quote_not_mem (by decide) tail
  | .num n, tail, _, _ => by
      apply hr.scan_of_quote_not_mem
      intro hmem
      exact absurd (isNumberChar_of_mem hmem) (by decide)
  | .str s, tail, _, htail => hr.scan_string List.suffix_rfl htail
  | .emptyArr blanks, tail, _, _ => by
      apply hr.scan_of_quote_not_mem
      simp [Value.text, quote_not_mem_blankText]
  | .emptyObj blanks, tail, _, _ => by
      apply hr.scan_of_quote_not_mem
      simp [Value.text, quote_not_mem_blankText]
  | .arr elems, tail, hfields, _ => by
      have hclose : Closes (']' :: tail) := closes_cons (by simp) tail
      have helems := scan_elems hr elems (']' :: tail) hfields hclose
      simp only [Value.text, List.cons_append, List.append_assoc,
        List.nil_append, hr.scan_cons (c := '[') (by decide), helems,
        hr.scan_cons (c := ']') (by decide), Value.weave]
  | .obj members, tail, hfields, _ => by
      have hclose : Closes ('}' :: tail) := closes_cons (by simp) tail
      have hmembers := scan_members hr members ('}' :: tail) hfields hclose
      simp only [Value.text, List.cons_append, List.append_assoc,
        List.nil_append, hr.scan_cons (c := '{') (by decide), hmembers,
        hr.scan_cons (c := '}') (by decide), Value.weave]

theorem scan_elems (hr : MemberPattern f r) : ∀ (es : Elems) (tail : Text),
    (∀ field ∈ es.fields, Cuts f r site field) → Closes tail →
      r.scan f false 0 (es.text ++ tail) =
        es.weave site ++ r.scan f false 0 tail
  | .last pre v post, tail, hfields, htail => by
      have hv := scan_value hr v (blankText post ++ tail) hfields
        (follows_blankText post htail)
      simp only [Elems.text, List.append_assoc, hr.scan_blankText, hv,
        Elems.weave]
  | .more pre v post es, tail, hfields, htail => by
      have hcomma : Closes (',' :: (es.text ++ tail)) :=
        closes_cons (by simp) _
      have hv := scan_value hr v (blankText post ++ ',' :: (es.text ++ tail))
        (fun field h => hfields field (List.mem_append_left _ h))
        (follows_blankText post hcomma)
      have hes := scan_elems hr es tail
        (fun field h => hfields field (List.mem_append_right _ h)) htail
      simp only [Elems.text, List.append_assoc, List.cons_append,
        hr.scan_blankText, hv, hr.scan_cons (c := ',') (by decide), hes,
        Elems.weave]

theorem scan_members (hr : MemberPattern f r) : ∀ (ms : Members) (tail : Text),
    (∀ field ∈ ms.fields, Cuts f r site field) → Closes tail →
      r.scan f false 0 (ms.text ++ tail) =
        ms.weave site ++ r.scan f false 0 tail
  | .last head v post, tail, hfields, htail => by
      have hpost := follows_blankText post htail
      have hv := scan_value hr v (blankText post ++ tail)
        (fun field h => hfields field (List.mem_cons_of_mem _ h)) hpost
      have hmember := hr.scan_member
        (hfields ⟨head, v⟩ List.mem_cons_self) hpost hv
      simp only [Members.text, List.append_assoc, hmember, hr.scan_blankText,
        Members.weave]
  | .more head v post ms, tail, hfields, htail => by
      have hcomma : Closes (',' :: (ms.text ++ tail)) :=
        closes_cons (by simp) _
      have hpost := follows_blankText post hcomma
      have hv := scan_value hr v (blankText post ++ ',' :: (ms.text ++ tail))
        (fun field h => hfields field
          (List.mem_cons_of_mem _ (List.mem_append_left _ h))) hpost
      have hmember := hr.scan_member
        (hfields ⟨head, v⟩ List.mem_cons_self) hpost hv
      have hms := scan_members hr ms tail
        (fun field h => hfields field
          (List.mem_cons_of_mem _ (List.mem_append_right _ h))) htail
      simp only [Members.text, List.append_assoc, List.cons_append, hmember,
        hr.scan_blankText, hr.scan_cons (c := ',') (by decide), hms,
        Members.weave]

end

/-- A search through a document cuts it up as the sites of its members say. -/
theorem scan_document (hr : MemberPattern f r) {doc : Document}
    (hfields : ∀ field ∈ doc.value.fields, Cuts f r site field) :
    r.scan f true 0 doc.text = doc.weave site := by
  have hend : Closes [] := by simp [Closes]
  have hpost := follows_blankText doc.post hend
  have hvalue := scan_value hr doc.value _ hfields hpost
  have hnil : r.scan f false 0 [] = [] := by simp [Regex.scan]
  simp only [List.append_nil] at hvalue
  rw [Regex.scan_plain hr.plain f true false, Document.text, hr.scan_blankText,
    hvalue, Document.weave]
  have htail := hr.scan_blankText doc.post []
  rw [hnil, List.append_nil, List.append_nil] at htail
  rw [htail]

end JsonText
