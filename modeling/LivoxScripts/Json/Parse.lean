/-
A parser for JSON texts that keeps the layout, and its round trip: the parser
accepts exactly the texts of documents and returns the document of the text.
-/
import LivoxScripts.Json.Syntax

namespace JsonText

open TextTools (Text)

def Blank.ofChar? : Char → Option Blank
  | ' ' => some .space
  | '\t' => some .tab
  | '\n' => some .newline
  | '\r' => some .carriageReturn
  | _ => none

def check? (p : Char → Bool) (c : Char) : Option { c : Char // p c = true } :=
  if h : p c = true then some ⟨c, h⟩ else none

def parseBlanks : Text → List Blank × Text
  | [] => ([], [])
  | c :: cs =>
      match Blank.ofChar? c with
      | some blank => (blank :: (parseBlanks cs).1, (parseBlanks cs).2)
      | none => ([], c :: cs)

/-- The rest of a string after its opening quote. -/
def parseItems : Text → Option (JString × Text)
  | [] => none
  | '"' :: cs => some ([], cs)
  | '\\' :: 'u' :: c₁ :: c₂ :: c₃ :: c₄ :: cs =>
      match check? isHex c₁, check? isHex c₂, check? isHex c₃,
        check? isHex c₄, parseItems cs with
      | some d₁, some d₂, some d₃, some d₄, some (s, rest) =>
          some (.unicode d₁ d₂ d₃ d₄ :: s, rest)
      | _, _, _, _, _ => none
  | '\\' :: c :: cs =>
      match check? isEscape c, parseItems cs with
      | some c, some (s, rest) => some (.escape c :: s, rest)
      | _, _ => none
  | c :: cs =>
      match check? isPlain c, parseItems cs with
      | some c, some (s, rest) => some (.plain c :: s, rest)
      | _, _ => none

def parseNumber (cs : Text) : Option (Value × Text) :=
  if h : isNumber (cs.takeWhile isNumberChar) = true then
    some (.num ⟨cs.takeWhile isNumberChar, h⟩, cs.dropWhile isNumberChar)
  else none

/-- The head of a member, up to the blanks before its value. -/
def parseHead (cs : Text) : Option (KeyHead × Text) :=
  match parseBlanks cs with
  | (pre, '"' :: cs) =>
      match parseItems cs with
      | some (key, cs) =>
          match parseBlanks cs with
          | (mid, ':' :: cs) =>
              some (⟨pre, key, mid, (parseBlanks cs).1⟩, (parseBlanks cs).2)
          | _ => none
      | none => none
  | _ => none

mutual

/-- A value at the front of a text, and what follows it. -/
def parseValue : Nat → Text → Option (Value × Text)
  | 0, _ => none
  | _ + 1, 'n' :: 'u' :: 'l' :: 'l' :: cs => some (.null, cs)
  | _ + 1, 't' :: 'r' :: 'u' :: 'e' :: cs => some (.bool true, cs)
  | _ + 1, 'f' :: 'a' :: 'l' :: 's' :: 'e' :: cs => some (.bool false, cs)
  | _ + 1, '"' :: cs => (parseItems cs).map fun (s, rest) => (.str s, rest)
  | n + 1, '[' :: cs =>
      match parseBlanks cs with
      | (blanks, ']' :: rest) => some (.emptyArr blanks, rest)
      | _ => (parseElems n cs).map fun (es, rest) => (.arr es, rest)
  | n + 1, '{' :: cs =>
      match parseBlanks cs with
      | (blanks, '}' :: rest) => some (.emptyObj blanks, rest)
      | _ => (parseMembers n cs).map fun (ms, rest) => (.obj ms, rest)
  | _ + 1, cs => parseNumber cs

/-- The elements of an array through its closing bracket. -/
def parseElems : Nat → Text → Option (Elems × Text)
  | 0, _ => none
  | n + 1, cs =>
      match parseValue n (parseBlanks cs).2 with
      | none => none
      | some (v, rest) =>
          match parseBlanks rest with
          | (post, ']' :: rest) =>
              some (.last (parseBlanks cs).1 v post, rest)
          | (post, ',' :: rest) =>
              (parseElems n rest).map fun (es, rest) =>
                (.more (parseBlanks cs).1 v post es, rest)
          | _ => none

/-- The members of an object through its closing brace. -/
def parseMembers : Nat → Text → Option (Members × Text)
  | 0, _ => none
  | n + 1, cs =>
      match parseHead cs with
      | none => none
      | some (head, rest) =>
          match parseValue n rest with
          | none => none
          | some (v, rest) =>
              match parseBlanks rest with
              | (post, '}' :: rest) => some (.last head v post, rest)
              | (post, ',' :: rest) =>
                  (parseMembers n rest).map fun (ms, rest) =>
                    (.more head v post ms, rest)
              | _ => none

end

/-- The document of a text; `none` when the text is not valid JSON. -/
def parse (t : Text) : Option Document :=
  match parseValue (t.length + 1) (parseBlanks t).2 with
  | none => none
  | some (v, rest) =>
      match parseBlanks rest with
      | (post, []) => some ⟨(parseBlanks t).1, v, post⟩
      | _ => none

/-- The text does not begin with a character that satisfies `p`. -/
def HeadNot (p : Char → Bool) (t : Text) : Prop := ∀ c ∈ t.head?, p c = false

def isBlank (c : Char) : Bool := (Blank.ofChar? c).isSome

/-- What may follow a value: nothing, a blank, a comma or a closing bracket. -/
def isDelimiter (c : Char) : Bool :=
  isBlank c || c == ',' || c == ']' || c == '}'

def Delimited (t : Text) : Prop := ∀ c ∈ t.head?, isDelimiter c = true

@[simp] theorem check?_val {p : Char → Bool} (c : { c : Char // p c = true }) :
    check? p c.1 = some c := dif_pos c.2

@[simp] theorem Blank.ofChar?_char (blank : Blank) :
    Blank.ofChar? blank.char = some blank := by
  cases blank <;> rfl

theorem isBlank_char (blank : Blank) : isBlank blank.char = true := by
  cases blank <;> rfl

theorem parseBlanks_append (blanks : List Blank) {rest : Text}
    (h : HeadNot isBlank rest) :
    parseBlanks (blankText blanks ++ rest) = (blanks, rest) := by
  induction blanks with
  | nil =>
      cases rest with
      | nil => rfl
      | cons c cs =>
          have hc : Blank.ofChar? c = none := by
            simpa [isBlank] using h c (by simp)
          simp [blankText, parseBlanks, hc]
  | cons blank blanks ih =>
      simp only [blankText] at ih
      simp [blankText, parseBlanks, ih]

theorem parseItems_append (s : JString) (rest : Text) :
    parseItems (raw s ++ '"' :: rest) = some (s, rest) := by
  induction s with
  | nil => simp [raw, parseItems]
  | cons item s ih =>
      have hcons : raw (item :: s) ++ '"' :: rest =
          item.text ++ (raw s ++ '"' :: rest) := by simp [raw]
      rw [hcons]
      generalize raw s ++ '"' :: rest = more at ih
      cases item with
      | plain c =>
          obtain ⟨c, hc⟩ := c
          have hne : c ≠ '"' ∧ c ≠ '\\' := by
            simp only [isPlain, Bool.and_eq_true, bne_iff_ne] at hc
            exact ⟨hc.1.2, hc.2⟩
          simp [StrItem.text, parseItems, hne.1, hne.2, check?, hc, ih]
      | escape c =>
          obtain ⟨c, hc⟩ := c
          have hu : c ≠ 'u' := by
            rintro rfl
            exact absurd hc (by decide)
          simp [StrItem.text, parseItems, hu, check?, hc, ih]
      | unicode d₁ d₂ d₃ d₄ => simp [StrItem.text, parseItems, ih]

theorem isNumberChar_of_mem {n : { t : Text // isNumber t = true }} {c : Char}
    (hc : c ∈ n.1) : isNumberChar c = true := by
  have h := n.2
  rw [isNumber, Bool.and_eq_true, List.all_eq_true] at h
  exact h.1 c hc

theorem number_ne_nil (n : { t : Text // isNumber t = true }) : n.1 ≠ [] := by
  intro hnil
  have h := n.2
  rw [hnil] at h
  exact absurd h (by decide)

theorem isBlank_iff {c : Char} :
    isBlank c = true ↔ ∃ blank : Blank, c = blank.char := by
  constructor
  · intro h
    unfold isBlank Blank.ofChar? at h
    split at h
    · exact ⟨.space, rfl⟩
    · exact ⟨.tab, rfl⟩
    · exact ⟨.newline, rfl⟩
    · exact ⟨.carriageReturn, rfl⟩
    · simp at h
  · rintro ⟨blank, rfl⟩
    exact isBlank_char blank

theorem isNumberChar_of_isDelimiter {c : Char} (h : isDelimiter c = true) :
    isNumberChar c = false := by
  by_cases hblank : isBlank c = true
  · obtain ⟨blank, rfl⟩ := isBlank_iff.mp hblank
    cases blank <;> rfl
  · simp only [isDelimiter, hblank, Bool.false_or, Bool.or_eq_true,
      beq_iff_eq] at h
    rcases h with (rfl | rfl) | rfl <;> rfl

theorem parseNumber_append (n : { t : Text // isNumber t = true })
    {rest : Text} (h : Delimited rest) :
    parseNumber (n.1 ++ rest) = some (.num n, rest) := by
  have htake : (n.1 ++ rest).takeWhile isNumberChar = n.1 := by
    rw [List.takeWhile_append_of_pos fun _ => isNumberChar_of_mem]
    cases rest with
    | nil => simp
    | cons c cs =>
        simp [isNumberChar_of_isDelimiter (h c (by simp))]
  have hdrop : (n.1 ++ rest).dropWhile isNumberChar = rest := by
    rw [List.dropWhile_append_of_pos fun _ => isNumberChar_of_mem]
    cases rest with
    | nil => simp
    | cons c cs =>
        simp [isNumberChar_of_isDelimiter (h c (by simp))]
  simp only [parseNumber, htake, hdrop]
  exact dif_pos n.2

/-- The characters a value can begin with. -/
def isValueHead (c : Char) : Bool :=
  isNumberChar c || "ntf\"[\x7b".toList.contains c

theorem value_head (v : Value) : ∃ c cs, v.text = c :: cs ∧ isValueHead c = true := by
  cases v with
  | null => exact ⟨_, _, rfl, rfl⟩
  | bool b => cases b <;> exact ⟨_, _, rfl, rfl⟩
  | num n =>
      obtain ⟨c, cs, hcs⟩ := List.exists_cons_of_ne_nil (number_ne_nil n)
      have hc : isNumberChar c = true :=
        isNumberChar_of_mem (n := n) (by simp [hcs])
      exact ⟨c, cs, hcs, by simp [isValueHead, hc]⟩
  | str s => exact ⟨_, _, rfl, rfl⟩
  | emptyArr blanks => exact ⟨_, _, rfl, rfl⟩
  | arr elems => exact ⟨_, _, rfl, rfl⟩
  | emptyObj blanks => exact ⟨_, _, rfl, rfl⟩
  | obj members => exact ⟨_, _, rfl, rfl⟩

theorem isValueHead_of_isDelimiter {c : Char} (h : isDelimiter c = true) :
    isValueHead c = false := by
  have hnum := isNumberChar_of_isDelimiter h
  have hne : ("ntf\"[\x7b".toList.all fun d => !isDelimiter d) = true := by
    decide
  rw [isValueHead, hnum, Bool.false_or, Bool.eq_false_iff]
  intro hmem
  have hd := List.all_eq_true.mp hne c (by simpa using hmem)
  simp [h] at hd

theorem headNot_value (v : Value) (rest : Text) :
    HeadNot isDelimiter (v.text ++ rest) := by
  obtain ⟨c, cs, hcs, hc⟩ := value_head v
  intro d hd
  obtain rfl : c = d := by simpa [hcs] using hd
  by_contra hdel
  rw [Bool.not_eq_false] at hdel
  simp [isValueHead_of_isDelimiter hdel] at hc

theorem HeadNot.isBlank {t : Text} (h : HeadNot isDelimiter t) :
    HeadNot isBlank t := by
  intro c hc
  have hd := h c hc
  simp only [isDelimiter, Bool.or_eq_false_iff] at hd
  exact hd.1.1.1

theorem delimited_blankText (blanks : List Blank) {rest : Text}
    (h : Delimited rest) : Delimited (blankText blanks ++ rest) := by
  cases blanks with
  | nil => exact h
  | cons blank blanks =>
      intro c hc
      obtain rfl : blank.char = c := by simpa [blankText] using hc
      simp [isDelimiter, isBlank_char]

theorem parseHead_append (head : KeyHead) {rest : Text}
    (h : HeadNot isBlank rest) :
    parseHead (blankText head.pre ++ (head.text ++ rest)) =
      some (head, rest) := by
  have hquote : HeadNot isBlank (head.text ++ rest) := by
    intro c hc
    obtain rfl : '"' = c := by simpa [KeyHead.text, quoted] using hc
    rfl
  have hcolon : HeadNot isBlank (':' :: (blankText head.gap ++ rest)) := by
    intro c hc
    obtain rfl : ':' = c := by simpa using hc
    rfl
  have htext : head.text ++ rest = '"' :: (raw head.key ++ '"' ::
      (blankText head.mid ++ ':' :: (blankText head.gap ++ rest))) := by
    simp [KeyHead.text, quoted]
  rw [parseHead, parseBlanks_append head.pre hquote, htext]
  simp only [parseItems_append, parseBlanks_append head.mid hcolon,
    parseBlanks_append head.gap h]

theorem headNot_singleton {p : Char → Bool} {c : Char} (hc : p c = false)
    (cs : Text) : HeadNot p (c :: cs) := by
  intro d hd
  obtain rfl : c = d := by simpa using hd
  exact hc

theorem delimited_cons {c : Char} (hc : isDelimiter c = true) (cs : Text) :
    Delimited (c :: cs) := by
  intro d hd
  obtain rfl : c = d := by simpa using hd
  exact hc

/-- A bracket is not followed by its closing bracket when there are
elements. -/
theorem parseBlanks_elems (es : Elems) (rest : Text) :
    ∃ pre c cs, parseBlanks (es.text ++ rest) = (pre, c :: cs) ∧ c ≠ ']' := by
  have hvalue : ∀ (pre : List Blank) (v : Value) (more : Text),
      ∃ pre' c cs, parseBlanks (blankText pre ++ (v.text ++ more)) =
        (pre', c :: cs) ∧ c ≠ ']' := by
    intro pre v more
    have hhead := headNot_value v more
    rw [parseBlanks_append pre hhead.isBlank]
    obtain ⟨c, cs, hcs, -⟩ := value_head v
    refine ⟨pre, c, cs ++ more, by simp [hcs], ?_⟩
    rintro rfl
    have hc := hhead ']' (by simp [hcs])
    exact absurd hc (by decide)
  cases es with
  | last pre v post => simpa [Elems.text] using hvalue pre v _
  | more pre v post es => simpa [Elems.text] using hvalue pre v _

theorem parseBlanks_members (ms : Members) (rest : Text) :
    ∃ pre cs, parseBlanks (ms.text ++ rest) = (pre, '"' :: cs) := by
  have hmember : ∀ (head : KeyHead) (more : Text),
      ∃ pre cs, parseBlanks (blankText head.pre ++ (head.text ++ more)) =
        (pre, '"' :: cs) := by
    intro head more
    have hquote : HeadNot isBlank (head.text ++ more) := by
      rw [KeyHead.text, quoted, List.cons_append, List.cons_append]
      exact headNot_singleton rfl _
    exact ⟨head.pre, _, parseBlanks_append head.pre hquote⟩
  cases ms with
  | last head v post => simpa [Members.text] using hmember head _
  | more head v post ms => simpa [Members.text] using hmember head _

mutual

/-- The parser reads a value back from its text, whatever follows. -/
theorem parseValue_text : ∀ (v : Value) (n : Nat) (rest : Text),
    v.text.length < n → Delimited rest →
      parseValue n (v.text ++ rest) = some (v, rest)
  | _, 0, _, hn, _ => absurd hn (Nat.not_lt_zero _)
  | .null, n + 1, rest, _, _ => by simp [Value.text, parseValue]
  | .bool true, n + 1, rest, _, _ => by simp [Value.text, parseValue]
  | .bool false, n + 1, rest, _, _ => by simp [Value.text, parseValue]
  | .num m, n + 1, rest, _, hrest => by
      have hnum := parseNumber_append m hrest
      obtain ⟨c, cs, hcs⟩ := List.exists_cons_of_ne_nil (number_ne_nil m)
      have hc : isNumberChar c = true :=
        isNumberChar_of_mem (n := m) (by simp [hcs])
      have hne : ∀ d ∈ "ntf\"[\x7b".toList, c ≠ d := by
        have hheads :
            ("ntf\"[\x7b".toList.all fun d => !isNumberChar d) = true := by
          decide
        rintro d hd rfl
        have hnot := List.all_eq_true.mp hheads c hd
        simp [hc] at hnot
      simp only [Value.text, hcs, List.cons_append] at hnum ⊢
      rw [parseValue]
      · exact hnum
      all_goals intro _ h; exact hne _ (by decide) (List.cons.inj h).1
  | .str s, n + 1, rest, _, _ => by
      simp [Value.text, quoted, parseValue, parseItems_append]
  | .emptyArr blanks, n + 1, rest, _, _ => by
      have hclose := headNot_singleton (p := isBlank) (c := ']') rfl rest
      simp [Value.text, parseValue, parseBlanks_append blanks hclose]
  | .emptyObj blanks, n + 1, rest, _, _ => by
      have hclose := headNot_singleton (p := isBlank) (c := '}') rfl rest
      simp [Value.text, parseValue, parseBlanks_append blanks hclose]
  | .arr elems, n + 1, rest, hn, _ => by
      have hlen : elems.text.length + 1 < n := by
        simp only [Value.text, List.length_cons, List.length_append] at hn
        simp only [List.length_nil] at hn
        omega
      have hbody := parseElems_text elems n rest hlen
      obtain ⟨pre, c, cs, hpre, hc⟩ :=
        parseBlanks_elems elems (']' :: rest)
      simp only [Value.text, List.cons_append, List.append_assoc,
        List.nil_append, parseValue, hpre]
      split
      · simp_all
      · rw [hbody]
        rfl
  | .obj members, n + 1, rest, hn, _ => by
      have hlen : members.text.length + 1 < n := by
        simp only [Value.text, List.length_cons, List.length_append] at hn
        simp only [List.length_nil] at hn
        omega
      have hbody := parseMembers_text members n rest hlen
      obtain ⟨pre, cs, hpre⟩ := parseBlanks_members members ('}' :: rest)
      simp only [Value.text, List.cons_append, List.append_assoc,
        List.nil_append, parseValue, hpre]
      rw [hbody]
      rfl

theorem parseElems_text : ∀ (es : Elems) (n : Nat) (rest : Text),
    es.text.length + 1 < n →
      parseElems n (es.text ++ ']' :: rest) = some (es, rest)
  | _, 0, _, hn => absurd hn (Nat.not_lt_zero _)
  | .last pre v post, n + 1, rest, hn => by
      have hlen : v.text.length < n := by
        simp only [Elems.text, List.length_append] at hn
        omega
      have hclose := headNot_singleton (p := isBlank) (c := ']') rfl rest
      have hv := parseValue_text v n (blankText post ++ ']' :: rest) hlen
        (delimited_blankText post (delimited_cons rfl rest))
      have hhead := headNot_value v (blankText post ++ ']' :: rest)
      simp only [Elems.text, List.append_assoc, parseElems,
        parseBlanks_append pre hhead.isBlank, hv,
        parseBlanks_append post hclose]
  | .more pre v post es, n + 1, rest, hn => by
      simp only [Elems.text, List.length_append, List.length_cons] at hn
      have hcomma := headNot_singleton (p := isBlank) (c := ',') rfl
        (es.text ++ ']' :: rest)
      have hv := parseValue_text v n
        (blankText post ++ ',' :: (es.text ++ ']' :: rest)) (by omega)
        (delimited_blankText post (delimited_cons rfl _))
      have hhead := headNot_value v
        (blankText post ++ ',' :: (es.text ++ ']' :: rest))
      have hes := parseElems_text es n rest (by omega)
      simp only [Elems.text, List.append_assoc, List.cons_append, parseElems,
        parseBlanks_append pre hhead.isBlank, hv,
        parseBlanks_append post hcomma, hes, Option.map_some]

theorem parseMembers_text : ∀ (ms : Members) (n : Nat) (rest : Text),
    ms.text.length + 1 < n →
      parseMembers n (ms.text ++ '}' :: rest) = some (ms, rest)
  | _, 0, _, hn => absurd hn (Nat.not_lt_zero _)
  | .last head v post, n + 1, rest, hn => by
      have hlen : v.text.length < n := by
        simp only [Members.text, List.length_append] at hn
        omega
      have hclose := headNot_singleton (p := isBlank) (c := '}') rfl rest
      have hv := parseValue_text v n (blankText post ++ '}' :: rest) hlen
        (delimited_blankText post (delimited_cons rfl rest))
      have hhead := headNot_value v (blankText post ++ '}' :: rest)
      simp only [Members.text, List.append_assoc, parseMembers,
        parseHead_append head hhead.isBlank, hv,
        parseBlanks_append post hclose]
  | .more head v post ms, n + 1, rest, hn => by
      simp only [Members.text, List.length_append, List.length_cons] at hn
      have hcomma := headNot_singleton (p := isBlank) (c := ',') rfl
        (ms.text ++ '}' :: rest)
      have hv := parseValue_text v n
        (blankText post ++ ',' :: (ms.text ++ '}' :: rest)) (by omega)
        (delimited_blankText post (delimited_cons rfl _))
      have hhead := headNot_value v
        (blankText post ++ ',' :: (ms.text ++ '}' :: rest))
      have hms := parseMembers_text ms n rest (by omega)
      simp only [Members.text, List.append_assoc, List.cons_append,
        parseMembers, parseHead_append head hhead.isBlank, hv,
        parseBlanks_append post hcomma, hms, Option.map_some]

end

theorem parse_text (doc : Document) : parse doc.text = some doc := by
  obtain ⟨pre, v, post⟩ := doc
  have hend : HeadNot isBlank [] := by simp [HeadNot]
  have hv := parseValue_text v
    ((Document.mk pre v post).text.length + 1) (blankText post)
    (by simp only [Document.text, List.length_append]; omega)
    (List.append_nil (blankText post) ▸
      delimited_blankText post (by simp [Delimited]))
  have hhead := headNot_value v (blankText post)
  have hpost := parseBlanks_append post hend
  rw [List.append_nil] at hpost
  simp only [Document.text] at hv
  simp only [parse, Document.text, parseBlanks_append pre hhead.isBlank, hv,
    hpost]

theorem Blank.char_of_ofChar? {c : Char} {blank : Blank}
    (h : Blank.ofChar? c = some blank) : blank.char = c := by
  have hc : isBlank c = true := by simp [isBlank, h]
  obtain ⟨blank', rfl⟩ := isBlank_iff.mp hc
  rw [Blank.ofChar?_char, Option.some.injEq] at h
  rw [h]

theorem parseBlanks_sound (cs : Text) :
    blankText (parseBlanks cs).1 ++ (parseBlanks cs).2 = cs := by
  induction cs with
  | nil => rfl
  | cons c cs ih =>
      cases hc : Blank.ofChar? c with
      | none => simp [parseBlanks, hc, blankText]
      | some blank =>
          simp only [parseBlanks, hc, blankText, List.map_cons,
            List.cons_append, Blank.char_of_ofChar? hc, List.cons.injEq,
            true_and]
          exact ih

theorem parseBlanks_sound_of_eq {cs rest : Text} {blanks : List Blank}
    (h : parseBlanks cs = (blanks, rest)) : cs = blankText blanks ++ rest := by
  have hsound := parseBlanks_sound cs
  rw [h] at hsound
  exact hsound.symm

theorem check?_sound {p : Char → Bool} {c : Char}
    {d : { c : Char // p c = true }} (h : check? p c = some d) : c = d.1 := by
  unfold check? at h
  split at h
  · rw [← Option.some.inj h]
  · simp at h

theorem parseItems_sound {cs rest : Text} {s : JString}
    (h : parseItems cs = some (s, rest)) : cs = raw s ++ '"' :: rest := by
  fun_induction parseItems cs generalizing s rest with
  | case2 cs =>
      simp only [Option.some.injEq, Prod.mk.injEq] at h
      obtain ⟨rfl, rfl⟩ := h
      simp [raw]
  | case3 c₁ c₂ c₃ c₄ cs d₁ d₂ d₃ d₄ s' rest' hrest h₄ h₃ h₂ h₁ ih =>
      simp only [Option.some.injEq, Prod.mk.injEq] at h
      obtain ⟨rfl, rfl⟩ := h
      rw [ih hrest, check?_sound h₁, check?_sound h₂, check?_sound h₃,
        check?_sound h₄]
      simp [raw, StrItem.text]
  | case5 c cs hu d s' rest' hrest hd ih =>
      simp only [Option.some.injEq, Prod.mk.injEq] at h
      obtain ⟨rfl, rfl⟩ := h
      rw [ih hrest, check?_sound hd]
      simp [raw, StrItem.text]
  | case7 c cs hquote hu hescape d s' rest' hrest hd ih =>
      simp only [Option.some.injEq, Prod.mk.injEq] at h
      obtain ⟨rfl, rfl⟩ := h
      rw [ih hrest, check?_sound hd]
      simp [raw, StrItem.text]
  | case1 | case4 | case6 | case8 => simp at h

theorem parseNumber_sound {cs rest : Text} {v : Value}
    (h : parseNumber cs = some (v, rest)) : cs = v.text ++ rest := by
  unfold parseNumber at h
  split at h
  · simp only [Option.some.injEq, Prod.mk.injEq] at h
    obtain ⟨rfl, rfl⟩ := h
    exact (List.takeWhile_append_dropWhile).symm
  · simp at h

theorem parseHead_sound {cs rest : Text} {head : KeyHead}
    (h : parseHead cs = some (head, rest)) :
    cs = blankText head.pre ++ (head.text ++ rest) := by
  unfold parseHead at h
  split at h
  · next pre cs₁ hpre =>
      split at h
      · next key cs₂ hkey =>
          split at h
          · next mid cs₃ hmid =>
              simp only [Option.some.injEq, Prod.mk.injEq] at h
              obtain ⟨rfl, rfl⟩ := h
              rw [parseBlanks_sound_of_eq hpre, parseItems_sound hkey,
                parseBlanks_sound_of_eq hmid]
              nth_rewrite 1 [← parseBlanks_sound cs₃]
              simp [KeyHead.text, quoted]
          · simp at h
      · simp at h
  · simp at h

/-- The three parsers with this fuel return only what they have read. -/
structure SoundAt (n : Nat) : Prop where
  value : ∀ {cs rest : Text} {v : Value},
    parseValue n cs = some (v, rest) → cs = v.text ++ rest
  elems : ∀ {cs rest : Text} {es : Elems},
    parseElems n cs = some (es, rest) → cs = es.text ++ ']' :: rest
  members : ∀ {cs rest : Text} {ms : Members},
    parseMembers n cs = some (ms, rest) → cs = ms.text ++ '}' :: rest

theorem parseValue_sound_succ {n : Nat} (ih : SoundAt n) {cs rest : Text}
    {v : Value} (h : parseValue (n + 1) cs = some (v, rest)) :
    cs = v.text ++ rest := by
  unfold parseValue at h
  split at h
  · simp at h
  · simp only [Option.some.injEq, Prod.mk.injEq] at h
    obtain ⟨rfl, rfl⟩ := h
    rfl
  · simp only [Option.some.injEq, Prod.mk.injEq] at h
    obtain ⟨rfl, rfl⟩ := h
    rfl
  · simp only [Option.some.injEq, Prod.mk.injEq] at h
    obtain ⟨rfl, rfl⟩ := h
    rfl
  · next cs₁ =>
      simp only [Option.map_eq_some_iff, Prod.mk.injEq] at h
      obtain ⟨⟨s, rest'⟩, hs, rfl, rfl⟩ := h
      simp [Value.text, quoted, parseItems_sound hs]
  · next m cs₁ hm =>
      obtain rfl := Nat.succ.inj hm
      split at h
      · next blanks rest' hblanks =>
          simp only [Option.some.injEq, Prod.mk.injEq] at h
          obtain ⟨rfl, rfl⟩ := h
          simp [Value.text, parseBlanks_sound_of_eq hblanks]
      · simp only [Option.map_eq_some_iff, Prod.mk.injEq] at h
        obtain ⟨⟨es, rest'⟩, hes, rfl, rfl⟩ := h
        simp [Value.text, ih.elems hes]
  · next m cs₁ hm =>
      obtain rfl := Nat.succ.inj hm
      split at h
      · next blanks rest' hblanks =>
          simp only [Option.some.injEq, Prod.mk.injEq] at h
          obtain ⟨rfl, rfl⟩ := h
          simp [Value.text, parseBlanks_sound_of_eq hblanks]
      · simp only [Option.map_eq_some_iff, Prod.mk.injEq] at h
        obtain ⟨⟨ms, rest'⟩, hms, rfl, rfl⟩ := h
        simp [Value.text, ih.members hms]
  · exact parseNumber_sound h

theorem parseElems_sound_succ {n : Nat} (ih : SoundAt n) {cs rest : Text}
    {es : Elems} (h : parseElems (n + 1) cs = some (es, rest)) :
    cs = es.text ++ ']' :: rest := by
  rw [← parseBlanks_sound cs]
  unfold parseElems at h
  split at h
  · simp at h
  · next v rest₁ hv =>
      rw [ih.value hv]
      split at h
      · next post rest₂ hpost =>
          simp only [Option.some.injEq, Prod.mk.injEq] at h
          obtain ⟨rfl, rfl⟩ := h
          simp [Elems.text, parseBlanks_sound_of_eq hpost]
      · next post rest₂ hpost =>
          simp only [Option.map_eq_some_iff, Prod.mk.injEq] at h
          obtain ⟨⟨es', rest'⟩, hes, rfl, rfl⟩ := h
          simp [Elems.text, parseBlanks_sound_of_eq hpost, ih.elems hes]
      · simp at h

theorem parseMembers_sound_succ {n : Nat} (ih : SoundAt n) {cs rest : Text}
    {ms : Members} (h : parseMembers (n + 1) cs = some (ms, rest)) :
    cs = ms.text ++ '}' :: rest := by
  unfold parseMembers at h
  split at h
  · simp at h
  · next head rest₀ hhead =>
      rw [parseHead_sound hhead]
      split at h
      · simp at h
      · next v rest₁ hv =>
          rw [ih.value hv]
          split at h
          · next post rest₂ hpost =>
              simp only [Option.some.injEq, Prod.mk.injEq] at h
              obtain ⟨rfl, rfl⟩ := h
              simp [Members.text, parseBlanks_sound_of_eq hpost]
          · next post rest₂ hpost =>
              simp only [Option.map_eq_some_iff, Prod.mk.injEq] at h
              obtain ⟨⟨ms', rest'⟩, hms, rfl, rfl⟩ := h
              simp [Members.text, parseBlanks_sound_of_eq hpost,
                ih.members hms]
          · simp at h

theorem soundAt (n : Nat) : SoundAt n := by
  induction n with
  | zero =>
      constructor
      · intro cs rest v h
        simp [parseValue] at h
      · intro cs rest es h
        simp [parseElems] at h
      · intro cs rest ms h
        simp [parseMembers] at h
  | succ n ih =>
      exact ⟨parseValue_sound_succ ih, parseElems_sound_succ ih,
        parseMembers_sound_succ ih⟩

theorem text_of_parse {t : Text} {doc : Document} (h : parse t = some doc) :
    doc.text = t := by
  rw [← parseBlanks_sound t]
  unfold parse at h
  split at h
  · simp at h
  · next v rest hv =>
      rw [(soundAt _).value hv]
      split at h
      · next post hpost =>
          obtain rfl := Option.some.inj h
          simp [Document.text, parseBlanks_sound_of_eq hpost]
      · simp at h

/-- The parser accepts exactly the texts of documents. -/
theorem parse_eq_some_iff {t : Text} {doc : Document} :
    parse t = some doc ↔ doc.text = t :=
  ⟨text_of_parse, fun h => h ▸ parse_text doc⟩

theorem text_injective {doc doc' : Document} (h : doc.text = doc'.text) :
    doc = doc' := by
  have hparse := parse_text doc
  rw [h, parse_text] at hparse
  exact (Option.some.inj hparse).symm

end JsonText
