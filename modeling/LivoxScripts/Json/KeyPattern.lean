/-
Patterns that look for a key: the quoted name, a colon between white space, and
a pattern for the value.  They find the members whose key is written as the
name, and those whose key ends in an escaped quote and the name.
-/
import LivoxScripts.Json.Weave

namespace JsonText

open TextTools

/-- `\s` and `[[:space:]]` -/
def isSpace (c : Char) : Bool :=
  c == ' ' || c == '\t' || c == '\n' || c == '\x0b' || c == '\x0c' || c == '\r'

/-- `"name"`, a colon between white space, and what the value must match -/
def keyed (space : Char → Bool) (name : Text) (value : Regex) : Regex :=
  .seq (.lit ('"' :: (name ++ ['"'])))
    (.seq (.many space) (.seq (.lit [':']) (.seq (.many space) value)))

/-- White space inside a line. -/
def isLineSpace (c : Char) : Bool := isSpace c && notNewline c

def nameChars : Text := "abcdefghijklmnopqrstuvwxyz_".toList

def isNameChar (c : Char) : Bool := nameChars.contains c

/-- A name that a pattern can look for as it stands. -/
def IsName (name : Text) : Prop := name ≠ [] ∧ name.all isNameChar = true

instance (name : Text) : Decidable (IsName name) :=
  inferInstanceAs (Decidable (_ ∧ _))

/-- The key as it is written ends the way a search for the name looks for. -/
def ShowsKey (name : Text) (key : JString) : Prop :=
  '"' :: name <:+ '"' :: raw key

instance (name : Text) (key : JString) : Decidable (ShowsKey name key) :=
  inferInstanceAs (Decidable (_ <:+ _))

/-- What stands before the place where a search finds the name. -/
def keyLead (name : Text) (key : JString) : Text :=
  ('"' :: raw key).take ((raw key).length - name.length)

/-- No line break between the key and the value. -/
def KeyHead.OneLine (head : KeyHead) : Prop :=
  Blank.newline ∉ head.mid ∧ Blank.newline ∉ head.gap

instance (head : KeyHead) : Decidable head.OneLine :=
  inferInstanceAs (Decidable (_ ∧ _))

/-- From the opening quote of the name to just before the value. -/
def opening (name : Text) (head : KeyHead) : Text :=
  '"' :: (name ++ '"' :: (blankText head.mid ++ ':' :: blankText head.gap))

/-- What the pattern for the value takes of it: the text before a `\K` if the
pattern has one, the text it reports, and the text it leaves. -/
structure Take where
  kept : Option Text
  body : Text
  after : Text
deriving DecidableEq, Repr

/-- The end of a match whose text up to the value is `front`. -/
def Take.cursor (front tail : Text) (t : Take) : Cursor :=
  match t.kept with
  | some before => ⟨front ++ before, t.body, t.after ++ tail⟩
  | none => ⟨[], front ++ t.body, t.after ++ tail⟩

def Take.piece (front : Text) (t : Take) : Piece :=
  .hit (t.cursor front []).lead (t.cursor front []).body

/-- Where the value is taken from, the member is cut in three. -/
def keySite (name : Text) (take : Value → Option Take) : Site := fun field =>
  if ShowsKey name field.head.key ∧ field.head.OneLine then
    (take field.value).map fun t =>
      passed (keyLead name field.head.key) ++
        (t.piece (opening name field.head) :: passed t.after)
  else none

def quoteItem : StrItem := .escape ⟨'"', rfl⟩

theorem raw_cons (item : StrItem) (s : JString) :
    raw (item :: s) = item.text ++ raw s := rfl

@[simp] theorem raw_append (s s' : JString) :
    raw (s ++ s') = raw s ++ raw s' := List.flatMap_append

theorem item_before_quote {item : StrItem} {a b : Text}
    (h : item.text = a ++ '"' :: b) :
    item = quoteItem ∧ a = ['\\'] ∧ b = [] := by
  cases item with
  | plain c =>
      obtain ⟨c, hc⟩ := c
      have hmem : '"' ∈ [c] := by
        rw [show [c] = a ++ '"' :: b from h]
        simp
      obtain rfl : '"' = c := by simpa using hmem
      exact absurd hc (by decide)
  | escape c =>
      obtain ⟨c, hc⟩ := c
      cases a with
      | nil => simp [StrItem.text] at h
      | cons x a =>
          simp only [StrItem.text, List.cons_append, List.cons.injEq] at h
          obtain ⟨rfl, h⟩ := h
          cases a with
          | nil =>
              simp only [List.nil_append, List.cons.injEq] at h
              obtain ⟨rfl, rfl⟩ := h
              exact ⟨rfl, rfl, rfl⟩
          | cons y a => simp at h
  | unicode d₁ d₂ d₃ d₄ =>
      have hmem : '"' ∈ ['\\', 'u', d₁.1, d₂.1, d₃.1, d₄.1] := by
        rw [show ['\\', 'u', d₁.1, d₂.1, d₃.1, d₄.1] = a ++ '"' :: b from h]
        simp
      have hhex : ∀ d : { c : Char // isHex c = true }, '"' ≠ d.1 := by
        rintro ⟨d, hd⟩ rfl
        exact absurd hd (by decide)
      simp [hhex] at hmem

/-- A quote inside a string is the second character of its escape. -/
theorem raw_before_quote {s : JString} {a b : Text}
    (h : raw s = a ++ '"' :: b) :
    ∃ s₁ s₂, s = s₁ ++ quoteItem :: s₂ ∧ a = raw s₁ ++ ['\\'] ∧ b = raw s₂ := by
  induction s generalizing a with
  | nil => simp [raw] at h
  | cons item s ih =>
      rw [raw_cons, List.append_eq_append_iff] at h
      rcases h with ⟨a', rfl, h⟩ | ⟨c', hitem, h⟩
      · obtain ⟨s₁, s₂, rfl, rfl, rfl⟩ := ih h
        exact ⟨item :: s₁, s₂, by simp, by simp [raw_cons], rfl⟩
      · cases c' with
        | nil =>
            obtain ⟨s₁, s₂, rfl, hs₁, rfl⟩ := ih (a := []) h.symm
            simp at hs₁
        | cons c c' =>
            simp only [List.cons_append, List.cons.injEq] at h
            obtain ⟨rfl, rfl⟩ := h
            obtain ⟨rfl, rfl, rfl⟩ := item_before_quote hitem
            exact ⟨[], s, rfl, by simp [raw], by simp⟩

variable {name : Text}

theorem isNameChar_of_mem (hname : IsName name) {c : Char} (hc : c ∈ name) :
    isNameChar c = true := List.all_eq_true.mp hname.2 c hc

theorem not_mem_name (hname : IsName name) {c : Char}
    (hc : isNameChar c = false) : c ∉ name := fun hmem => by
  simp [isNameChar_of_mem hname hmem] at hc

/-- Inside a string followed by anything but more of the name, the quoted name
stands at the end. -/
theorem quoted_suffix_eq (hname : IsName name) {s : JString}
    {t tail : Text} (ht : t <:+ quoted s) (hne : t ≠ [])
    (htail : HeadNot isNameChar tail)
    (hpre : '"' :: (name ++ ['"']) <+: t ++ tail) :
    t = '"' :: (name ++ ['"']) := by
  have hquote := not_mem_name hname (c := '"') (by decide)
  have hescape := not_mem_name hname (c := '\\') (by decide)
  obtain ⟨front, hfront⟩ := ht
  obtain ⟨init, last, rfl⟩ : ∃ init last, t = init ++ [last] :=
    ⟨_, _, (List.dropLast_append_getLast hne).symm⟩
  have hparts : front ++ init = '"' :: raw s ∧ last = '"' := by
    rw [quoted, ← List.append_assoc, ← List.cons_append] at hfront
    simpa using List.append_inj' hfront rfl
  obtain ⟨hinit, rfl⟩ := hparts
  cases init with
  | nil =>
      -- only the closing quote: the name would have to go on after it
      obtain ⟨c, cs, rfl⟩ := List.exists_cons_of_ne_nil hname.1
      have hpre' : c :: (cs ++ ['"']) <+: tail := by
        simpa using (List.cons_prefix_cons.mp hpre).2
      obtain ⟨more, rfl⟩ := hpre'
      have hc := htail c (by simp)
      simp [isNameChar_of_mem hname List.mem_cons_self] at hc
  | cons q u =>
      simp only [List.cons_append, List.append_assoc, List.nil_append] at hpre
      obtain ⟨rfl, hrest⟩ := List.cons_prefix_cons.mp hpre
      have hu : u <:+ raw s := by
        cases front with
        | nil =>
            simp only [List.nil_append, List.cons.injEq, true_and] at hinit
            exact hinit ▸ List.suffix_rfl
        | cons y ys =>
            simp only [List.cons_append, List.cons.injEq] at hinit
            exact (List.suffix_cons '"' u).trans ⟨ys, hinit.2⟩
      have hnamepre : name <+: u := prefix_of_prefix_append_cons hquote
        ((List.prefix_append name ['"']).trans hrest)
      obtain ⟨w, rfl⟩ := hnamepre
      rw [List.append_assoc, List.prefix_append_right_inj] at hrest
      cases w with
      | nil => simp
      | cons y w =>
          -- a quote right after the name would not be escaped
          simp only [List.cons_append, List.cons_prefix_cons] at hrest
          obtain rfl := hrest.1
          obtain ⟨before, hbefore⟩ := hu
          rw [← List.append_assoc] at hbefore
          obtain ⟨s₁, s₂, -, hlast, -⟩ := raw_before_quote hbefore.symm
          have hmem : '\\' ∈ name := by
            have hgl := congrArg List.getLast? hlast
            rw [List.getLast?_append_of_ne_nil _ hname.1] at hgl
            exact List.mem_of_getLast? (by simpa using hgl)
          exact absurd hmem hescape

/-- A pattern that no match of begins with white space. -/
def Solid (r : Regex) : Prop :=
  ∀ b lead body c cs, isSpace c = true → r.run b ⟨lead, body, c :: cs⟩ = []

theorem solid_lit_seq {c : Char} {cs : Text} (hc : isSpace c = false)
    (next : Regex) : Solid (.seq (.lit (c :: cs)) next) := by
  intro b lead body x xs hx
  have hne : x ≠ c := by
    rintro rfl
    simp [hc] at hx
  simp [Regex.run, Regex.lit, hne]

theorem isSpace_of_isLineSpace {c : Char} (h : isLineSpace c = true) :
    isSpace c = true := by
  rw [isLineSpace, Bool.and_eq_true] at h
  exact h.1

theorem skip_cons {p : Char → Bool} {c : Char} (hc : p c = true)
    (lead body cs : Text) :
    Cursor.skip p ⟨lead, body, c :: cs⟩ =
      Cursor.skip p ⟨lead, body ++ [c], cs⟩ := by
  simp [Cursor.skip, hc]

theorem skip_of_headNot {p : Char → Bool} {rest : Text} (h : HeadNot p rest)
    (lead body : Text) :
    Cursor.skip p ⟨lead, body, rest⟩ = ⟨lead, body, rest⟩ := by
  cases rest with
  | nil => simp [Cursor.skip]
  | cons c cs => simp [Cursor.skip, h c (by simp)]

/-- White space up to the next token can be crossed when it holds no line
break. -/
theorem run_blanks {next : Regex} (hnext : Solid next) (b : Bool)
    (lead body : Text) (blanks : List Blank) {rest : Text}
    (hrest : HeadNot isLineSpace rest) :
    (Regex.seq (.many isLineSpace) next).run b
        ⟨lead, body, blankText blanks ++ rest⟩ =
      if .newline ∈ blanks then []
      else next.run b ⟨lead, body ++ blankText blanks, rest⟩ := by
  rw [Regex.run_many_seq isLineSpace next b fun lead body x xs hx =>
    hnext b lead body x xs (isSpace_of_isLineSpace hx)]
  induction blanks generalizing body with
  | nil => simp [blankText, skip_of_headNot hrest]
  | cons blank blanks ih =>
      have hcons : blankText (blank :: blanks) =
          blank.char :: blankText blanks := rfl
      by_cases hblank : blank = .newline
      · subst hblank
        have hskip : HeadNot isLineSpace
            ('\n' :: (blankText blanks ++ rest)) :=
          headNot_singleton (by decide) _
        rw [hcons, List.cons_append, Blank.char, skip_of_headNot hskip]
        simpa using hnext b lead body '\n' _ (by decide)
      · have hspace : isLineSpace blank.char = true := by
          cases blank <;> simp_all <;> decide
        have hmem : Blank.newline ∈ blank :: blanks ↔
            Blank.newline ∈ blanks := by
          simp [Ne.symm hblank]
        rw [hcons, List.cons_append, skip_cons hspace, ih]
        simp [hmem]

theorem headNot_of_closes {p : Char → Bool} {rest : Text} (h : Closes rest)
    (hp : p ',' = false ∧ p ']' = false ∧ p '}' = false) : HeadNot p rest := by
  intro c hc
  rcases h c hc with rfl | rfl | rfl
  · exact hp.1
  · exact hp.2.1
  · exact hp.2.2

theorem headNot_blankText {p : Char → Bool} (blanks : List Blank) {rest : Text}
    (hblank : ∀ blank : Blank, p blank.char = false) (h : HeadNot p rest) :
    HeadNot p (blankText blanks ++ rest) := by
  cases blanks with
  | nil => exact h
  | cons blank blanks => exact headNot_singleton (hblank blank) _

theorem Follows.headNot {p : Char → Bool} {tail : Text} (h : Follows tail)
    (hblank : ∀ blank : Blank, p blank.char = false)
    (hp : p ',' = false ∧ p ']' = false ∧ p '}' = false) :
    HeadNot p tail := by
  obtain ⟨blanks, rest, rfl, hrest⟩ := h
  exact headNot_blankText blanks hblank (headNot_of_closes hrest hp)

theorem isNameChar_blank (blank : Blank) : isNameChar blank.char = false := by
  cases blank <;> decide

variable {value : Regex}

/-- The pattern after the quoted name. -/
def afterName (value : Regex) : Regex :=
  .seq (.many isLineSpace)
    (.seq (.lit [':']) (.seq (.many isLineSpace) value))

theorem keyed_eq : keyed isLineSpace name value =
    .seq (.lit ('"' :: (name ++ ['"']))) (afterName value) := rfl

/-- Matching inside one line. -/
theorem keyed_within (hname : IsName name) (value : Regex) :
    (keyed isSpace name value).within notNewline =
      keyed isLineSpace name (value.within notNewline) := by
  have hnl : ∀ c ∈ '"' :: (name ++ ['"']), notNewline c = true := by
    intro c hc
    rw [notNewline, bne_iff_ne]
    rintro rfl
    exact not_mem_name hname (c := '\n') (by decide) (by simpa using hc)
  have hcolon : ∀ c ∈ [':'], notNewline c = true := List.all_eq_true.mp rfl
  simp only [keyed, Regex.within, Regex.lit_within hnl,
    Regex.lit_within hcolon]
  rfl

theorem keyed_plain (hplain : value.Plain) (space : Char → Bool)
    (name : Text) : (keyed space name value).Plain :=
  ⟨Regex.lit_plain _, trivial, Regex.lit_plain _, trivial, hplain⟩

theorem run_keyed_append (name : Text) (value : Regex) (b : Bool)
    (more : Text) :
    (keyed isLineSpace name value).run b
        (Cursor.start ('"' :: (name ++ '"' :: more))) =
      (afterName value).run b ⟨[], '"' :: (name ++ ['"']), more⟩ := by
  have happ := Regex.run_lit_append ('"' :: (name ++ ['"'])) b [] [] more
  simp only [List.cons_append, List.append_assoc, List.nil_append] at happ
  simp [keyed_eq, Regex.run, Cursor.start, happ]

theorem run_keyed_elsewhere {line : Text}
    (h : ¬ '"' :: (name ++ ['"']) <+: line) (b : Bool) :
    (keyed isLineSpace name value).run b (Cursor.start line) = [] := by
  simp [keyed_eq, Regex.run,
    Regex.run_lit_elsewhere (c := Cursor.start line) h]

/-- A value is not followed by a colon. -/
theorem run_afterName_follows {tail : Text} (htail : Follows tail) (b : Bool)
    (lead body : Text) :
    (afterName value).run b ⟨lead, body, tail⟩ = [] := by
  obtain ⟨blanks, rest, rfl, hrest⟩ := htail
  have hcolon : HeadNot (· == ':') rest :=
    headNot_of_closes hrest (by decide)
  have hnone : (Regex.seq (.lit [':']) (.seq (.many isLineSpace) value)).run b
      ⟨lead, body ++ blankText blanks, rest⟩ = [] := by
    have hpre : ¬ [':'] <+: rest := by
      rintro ⟨more, rfl⟩
      exact absurd (hcolon ':' (by simp)) (by decide)
    simp only [Regex.run, Regex.run_lit_elsewhere
      (c := ⟨lead, body ++ blankText blanks, rest⟩) hpre, List.flatMap_nil]
  rw [afterName, run_blanks (solid_lit_seq (by decide) _) b lead body blanks
    (headNot_of_closes hrest (by decide)), hnone, ite_self]

/-- Between a key and its value. -/
theorem run_afterName_head (hvalue : Solid value) (b : Bool)
    (lead body : Text) (head : KeyHead) {more : Text}
    (hmore : HeadNot isLineSpace more) :
    (afterName value).run b
        ⟨lead, body, blankText head.mid ++ ':' :: (blankText head.gap ++ more)⟩ =
      if head.OneLine then
        value.run b ⟨lead, body ++ (blankText head.mid ++
          ':' :: blankText head.gap), more⟩
      else [] := by
  have hcolon : HeadNot isLineSpace (':' :: (blankText head.gap ++ more)) :=
    headNot_singleton (by decide) _
  rw [afterName, run_blanks (solid_lit_seq (by decide) _) b lead body head.mid
    hcolon]
  have hlit := Regex.run_lit_append [':'] b lead (body ++ blankText head.mid)
    (blankText head.gap ++ more)
  simp only [List.cons_append, List.nil_append] at hlit
  have hgap : (Regex.seq (.lit [':']) (.seq (.many isLineSpace) value)).run b
      ⟨lead, body ++ blankText head.mid, ':' :: (blankText head.gap ++ more)⟩ =
      if .newline ∈ head.gap then []
      else value.run b ⟨lead, body ++ (blankText head.mid ++
        ':' :: blankText head.gap), more⟩ := by
    rw [Regex.run, hlit, List.flatMap_singleton,
      run_blanks hvalue b _ _ head.gap hmore]
    simp
  rw [hgap]
  by_cases hmid : Blank.newline ∈ head.mid
  · simp [KeyHead.OneLine, hmid]
  · by_cases hgap : Blank.newline ∈ head.gap
    · simp [KeyHead.OneLine, hgap]
    · simp [KeyHead.OneLine, hmid, hgap]

theorem isLineSpace_of_isValueHead {c : Char} (h : isValueHead c = true) :
    isLineSpace c = false := by
  rw [Bool.eq_false_iff]
  intro hspace
  simp only [isLineSpace, isSpace, Bool.and_eq_true, Bool.or_eq_true,
    beq_iff_eq] at hspace
  rcases hspace with ⟨((((rfl | rfl) | rfl) | rfl) | rfl) | rfl, -⟩ <;>
    exact absurd h (by decide)

theorem headNot_value_space (v : Value) (rest : Text) :
    HeadNot isLineSpace (v.text ++ rest) := by
  obtain ⟨c, cs, hcs, hc⟩ := value_head v
  rw [hcs, List.cons_append]
  exact headNot_singleton (isLineSpace_of_isValueHead hc) _

/-- A key pattern matches at most in the heads of members. -/
theorem memberPattern_keyed (hname : IsName name) (hplain : value.Plain)
    (f : Flavor) : MemberPattern f (keyed isLineSpace name value) := by
  refine ⟨keyed_plain hplain _ _, ?_, ?_⟩
  · intro c cs hc
    apply Regex.matchAt_of_run_nil
    apply run_keyed_elsewhere
    intro hpre
    exact hc (List.cons_prefix_cons.mp hpre).1.symm
  · intro s t tail ht hne htail
    apply Regex.matchAt_of_run_nil
    by_cases hpre : '"' :: (name ++ ['"']) <+: t ++ tail
    · obtain rfl := quoted_suffix_eq hname ht hne
        (htail.headNot isNameChar_blank (by decide)) hpre
      have hrun := run_keyed_append name value false tail
      rw [run_afterName_follows htail] at hrun
      simpa using hrun
    · exact run_keyed_elsewhere hpre false

variable {f : Flavor}

/-- The pattern takes this much of the value, whatever follows it. -/
def Takes (f : Flavor) (value : Regex) (v : Value) (taken : Option Take) :
    Prop :=
  ∀ front tail, front ≠ [] → Follows tail →
    f.pick ((value.run false ⟨[], front, v.text ++ tail⟩).filter
      fun d => !d.body.isEmpty) = taken.map (Take.cursor front tail)

theorem keyLead_append {key : JString} (h : ShowsKey name key) :
    '"' :: raw key = keyLead name key ++ '"' :: name := by
  obtain ⟨front, hfront⟩ := h
  have hlen := congrArg List.length hfront
  simp only [List.length_append, List.length_cons] at hlen
  have hfrontlen : (raw key).length - name.length = front.length := by omega
  rw [keyLead, hfrontlen, ← hfront, List.take_left]

theorem quoted_eq_keyLead {key : JString} (h : ShowsKey name key) :
    quoted key = keyLead name key ++ '"' :: (name ++ ['"']) := by
  rw [quoted, ← List.cons_append, keyLead_append h]
  simp

theorem matchAt_name (name : Text) (hvalue : Solid value) (head : KeyHead)
    {v : Value}
    {taken : Option Take} (htakes : Takes f value v taken) {tail : Text}
    (htail : Follows tail) :
    (keyed isLineSpace name value).matchAt f false ('"' :: (name ++ '"' ::
        (blankText head.mid ++ ':' ::
          (blankText head.gap ++ (v.text ++ tail))))) =
      if head.OneLine then taken.map (Take.cursor (opening name head) tail)
      else none := by
  rw [Regex.matchAt, run_keyed_append, run_afterName_head hvalue false _ _ head
    (headNot_value_space v tail)]
  by_cases hline : head.OneLine
  · have hfront : '"' :: (name ++ ['"']) ++
        (blankText head.mid ++ ':' :: blankText head.gap) =
          opening name head := by simp [opening]
    rw [if_pos hline, if_pos hline, hfront]
    exact htakes _ tail (by simp [opening]) htail
  · rw [if_neg hline, if_neg hline]
    simp

/-- No match begins in the string before the name. -/
theorem scan_keyLead (hname : IsName name) {key : JString}
    (hshow : ShowsKey name key) {more : Text}
    (hmore : HeadNot isNameChar more) :
    (keyed isLineSpace name value).scan f false 0 (quoted key ++ more) =
      passed (keyLead name key) ++
        (keyed isLineSpace name value).scan f false 0
          ('"' :: (name ++ '"' :: more)) := by
  have hquoted := quoted_eq_keyLead hshow
  have hline : quoted key ++ more =
      keyLead name key ++ '"' :: (name ++ '"' :: more) := by simp [hquoted]
  rw [hline]
  apply Regex.scan_passed
  intro t ht hne
  apply Regex.matchAt_of_run_nil
  apply run_keyed_elsewhere
  intro hpre
  obtain ⟨front, hfront⟩ := ht
  have hsuffix : t ++ '"' :: (name ++ ['"']) <:+ quoted key :=
    ⟨front, by rw [hquoted, ← hfront, List.append_assoc]⟩
  have hfull := quoted_suffix_eq hname hsuffix (by simp) hmore
    (by simpa using hpre)
  exact hne (by simpa using hfull)

/-- No match begins in a key that does not show the name. -/
theorem scan_other_key (hname : IsName name) {key : JString}
    (hshow : ¬ ShowsKey name key) {more : Text}
    (hmore : HeadNot isNameChar more) :
    (keyed isLineSpace name value).scan f false 0 (quoted key ++ more) =
      passed (quoted key) ++
        (keyed isLineSpace name value).scan f false 0 more := by
  apply Regex.scan_passed
  intro t ht hne
  apply Regex.matchAt_of_run_nil
  apply run_keyed_elsewhere
  intro hpre
  obtain rfl := quoted_suffix_eq hname ht hne hmore hpre
  obtain ⟨front, hfront⟩ := ht
  refine hshow ⟨front, ?_⟩
  rw [quoted, ← List.cons_append, ← List.cons_append, ← List.append_assoc]
    at hfront
  exact List.append_cancel_right hfront

/-- No match begins in the quoted name either. -/
theorem scan_name (hname : IsName name) {key : JString}
    (hshow : ShowsKey name key) {more : Text}
    (hmore : HeadNot isNameChar more)
    (hnone : (keyed isLineSpace name value).matchAt f false
      ('"' :: (name ++ '"' :: more)) = none) :
    (keyed isLineSpace name value).scan f false 0
        ('"' :: (name ++ '"' :: more)) =
      passed ('"' :: (name ++ ['"'])) ++
        (keyed isLineSpace name value).scan f false 0 more := by
  have hsuffix : '"' :: (name ++ ['"']) <:+ quoted key :=
    ⟨keyLead name key, (quoted_eq_keyLead hshow).symm⟩
  have hline : '"' :: (name ++ '"' :: more) =
      '"' :: (name ++ ['"']) ++ more := by simp
  rw [hline] at hnone ⊢
  apply Regex.scan_passed
  intro t ht hne
  by_cases hpre : '"' :: (name ++ ['"']) <+: t ++ more
  · obtain rfl := quoted_suffix_eq hname (ht.trans hsuffix) hne hmore
      hpre
    exact hnone
  · exact Regex.matchAt_of_run_nil (run_keyed_elsewhere hpre false) f

@[simp] theorem Take.cursor_rest (front tail : Text) (t : Take) :
    (t.cursor front tail).rest = t.after ++ tail := by
  unfold Take.cursor
  split <;> rfl

theorem Take.piece_eq (front tail : Text) (t : Take) :
    t.piece front =
      .hit (t.cursor front tail).lead (t.cursor front tail).body := by
  unfold Take.piece Take.cursor
  split <;> rfl

theorem cuts_keyed (hname : IsName name) (hplain : value.Plain)
    (hvalue : Solid value) {take : Value → Option Take} {field : Field}
    (htakes : ShowsKey name field.head.key →
      Takes f value field.value (take field.value))
    (hafter : ShowsKey name field.head.key → ∀ t, take field.value = some t →
      ∀ tail, Follows tail →
        (keyed isLineSpace name value).scan f false 0 (t.after ++ tail) =
          passed t.after ++
            (keyed isLineSpace name value).scan f false 0 tail) :
    Cuts f (keyed isLineSpace name value) (keySite name take) field := by
  obtain ⟨head, v⟩ := field
  intro tail htail
  have hr := memberPattern_keyed hname hplain f
  have hmid : HeadNot isNameChar (blankText head.mid ++
      ':' :: (blankText head.gap ++ (v.text ++ tail))) :=
    headNot_blankText _ isNameChar_blank (headNot_singleton (by decide) _)
  have htext : Field.text ⟨head, v⟩ ++ tail = quoted head.key ++
      (blankText head.mid ++ ':' ::
        (blankText head.gap ++ (v.text ++ tail))) := by
    simp [Field.text, KeyHead.text]
  have hcolon : ∀ more, (keyed isLineSpace name value).scan f false 0
      (blankText head.mid ++ ':' :: (blankText head.gap ++ more)) =
        passed (blankText head.mid ++ ':' :: blankText head.gap) ++
          (keyed isLineSpace name value).scan f false 0 more := by
    intro more
    have hquote : '"' ∉ blankText head.mid ++ ':' :: blankText head.gap := by
      simp [quote_not_mem_blankText]
    simpa using hr.scan_of_quote_not_mem hquote more
  by_cases hshow : ShowsKey name head.key
  · have hmatch := matchAt_name name hvalue head (htakes hshow) htail
    rw [htext, scan_keyLead hname hshow hmid]
    have hmiss : keySite name take ⟨head, v⟩ = none →
        (keyed isLineSpace name value).matchAt f false ('"' :: (name ++ '"' ::
          (blankText head.mid ++ ':' ::
            (blankText head.gap ++ (v.text ++ tail))))) = none := by
      intro hsite
      rw [hmatch]
      simpa [keySite, hshow] using hsite
    cases hsite : keySite name take ⟨head, v⟩ with
    | none =>
        rw [scan_name hname hshow hmid (hmiss hsite), hcolon]
        simp [KeyHead.text, quoted_eq_keyLead hshow]
    | some pieces =>
        simp only [keySite, hshow, true_and, Option.ite_none_right_eq_some,
          Option.map_eq_some_iff] at hsite
        obtain ⟨hline, t, ht, rfl⟩ := hsite
        rw [if_pos hline, ht, Option.map_some] at hmatch
        rw [Regex.scan_of_matchAt hmatch, Take.cursor_rest,
          hafter hshow t ht tail htail, Take.piece_eq _ tail]
        simp
  · have hsite : keySite name take ⟨head, v⟩ = none := by
      simp [keySite, hshow]
    rw [htext, scan_other_key hname hshow hmid, hcolon, hsite]
    simp [KeyHead.text]

end JsonText
