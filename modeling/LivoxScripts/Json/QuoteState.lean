/-
Inside and outside of strings.  The quotes of a JSON text leave a reader
outside again; a replacement that stops at an escaped quote leaves the reader
on the wrong side, and no JSON text comes out.
-/
import LivoxScripts.Json.KeySearch

namespace JsonText

open TextTools

/-- Where a reader of a text stands.  `lost` is the state after a character
that no JSON text has outside its strings. -/
inductive QuoteState where
  | outside
  | inside
  | escaped
  | lost
deriving DecidableEq, Repr

/-- The characters between the strings of a JSON text. -/
def isOutsideChar (c : Char) : Bool :=
  "[]\x7b\x7d:, \t\n\r".toList.contains c || isNumberChar c ||
    "nultrefas".toList.contains c

namespace QuoteState

def step : QuoteState → Char → QuoteState
  | outside, c =>
      if c = '"' then inside else if isOutsideChar c then outside else lost
  | inside, c =>
      if c = '"' then outside else if c = '\\' then escaped else inside
  | escaped, _ => inside
  | lost, _ => lost

def run (s : QuoteState) (t : Text) : QuoteState := t.foldl step s

/-- On the wrong side between two tokens. -/
def Off (s : QuoteState) : Prop := s = inside ∨ s = lost

@[simp] theorem run_nil (s : QuoteState) : s.run [] = s := rfl

@[simp] theorem run_cons (s : QuoteState) (c : Char) (cs : Text) :
    s.run (c :: cs) = (s.step c).run cs := rfl

@[simp] theorem run_append (s : QuoteState) (t u : Text) :
    s.run (t ++ u) = (s.run t).run u := List.foldl_append

@[simp] theorem run_lost (t : Text) : lost.run t = lost := by
  induction t with
  | nil => rfl
  | cons c cs ih => simpa [step] using ih

end QuoteState

open QuoteState

/-- What a piece of text does to the reader: from the right side it leads to
the wrong side if the piece is broken and back to the right side if not; the
wrong side is never left. -/
structure Steers (broken : Prop) (t : Text) : Prop where
  breaks : broken → (outside.run t).Off
  passes : ¬ broken → outside.run t = outside
  stays : ∀ s : QuoteState, s.Off → (s.run t).Off

variable {p q : Prop} {t u : Text}

theorem Steers.congr (h : Steers p t) (hiff : p ↔ q) : Steers q t :=
  ⟨fun hq => h.breaks (hiff.mpr hq), fun hq => h.passes fun hp =>
    hq (hiff.mp hp), h.stays⟩

theorem Steers.append (ht : Steers p t) (hu : Steers q u) :
    Steers (p ∨ q) (t ++ u) := by
  refine ⟨fun h => ?_, fun h => ?_, fun s hs => ?_⟩
  · rw [run_append]
    by_cases hp : p
    · exact hu.stays _ (ht.breaks hp)
    · rw [ht.passes hp]
      exact hu.breaks (h.resolve_left hp)
  · rw [not_or] at h
    rw [run_append, ht.passes h.1, hu.passes h.2]
  · rw [run_append]
    exact hu.stays _ (ht.stays s hs)

theorem Steers.append_sound (ht : Steers p t) (hu : Steers False u) :
    Steers p (t ++ u) := (ht.append hu).congr (or_false p).to_iff

theorem Steers.sound_append (ht : Steers False t) (hu : Steers q u) :
    Steers q (t ++ u) := (ht.append hu).congr (false_or q).to_iff

theorem isOutsideChar_ne {c : Char} (hc : isOutsideChar c = true) :
    c ≠ '"' ∧ c ≠ '\\' := by
  constructor
  · rintro rfl
    exact absurd hc (by decide)
  · rintro rfl
    exact absurd hc (by decide)

theorem steers_outside (ht : ∀ c ∈ t, isOutsideChar c = true) :
    Steers False t := by
  have hrun : outside.run t = outside ∧ inside.run t = inside := by
    induction t with
    | nil => exact ⟨rfl, rfl⟩
    | cons c cs ih =>
        have hc := ht c List.mem_cons_self
        obtain ⟨hquote, hescape⟩ := isOutsideChar_ne hc
        have htail := ih fun d hd => ht d (List.mem_cons_of_mem c hd)
        simpa [step, hc, hquote, hescape] using htail
  refine ⟨False.elim, fun _ => hrun.1, ?_⟩
  rintro s (rfl | rfl)
  · exact Or.inl hrun.2
  · exact Or.inr (run_lost t)

theorem isOutsideChar_blankText (blanks : List Blank) {c : Char}
    (hc : c ∈ blankText blanks) : isOutsideChar c = true := by
  obtain ⟨blank, -, rfl⟩ := List.mem_map.mp hc
  cases blank <;> decide

theorem steers_blankText (blanks : List Blank) :
    Steers False (blankText blanks) :=
  steers_outside fun _ => isOutsideChar_blankText blanks

theorem steers_char {c : Char} (hc : isOutsideChar c = true) :
    Steers False [c] :=
  steers_outside fun _ hd => (List.mem_singleton.mp hd) ▸ hc

theorem isPlain_ne {c : Char} (hc : isPlain c = true) :
    c ≠ '"' ∧ c ≠ '\\' := by
  constructor
  · rintro rfl
    exact absurd hc (by decide)
  · rintro rfl
    exact absurd hc (by decide)

theorem isHex_ne {c : Char} (hc : isHex c = true) : c ≠ '"' ∧ c ≠ '\\' := by
  constructor
  · rintro rfl
    exact absurd hc (by decide)
  · rintro rfl
    exact absurd hc (by decide)

theorem run_inside_raw (s : JString) : inside.run (raw s) = inside := by
  induction s with
  | nil => rfl
  | cons item s ih =>
      rw [raw_cons, run_append]
      cases item with
      | plain c =>
          obtain ⟨hquote, hescape⟩ := isPlain_ne c.2
          simpa [StrItem.text, step, hquote, hescape] using ih
      | escape c => simpa [StrItem.text, step] using ih
      | unicode d₁ d₂ d₃ d₄ =>
          obtain ⟨hq₁, he₁⟩ := isHex_ne d₁.2
          obtain ⟨hq₂, he₂⟩ := isHex_ne d₂.2
          obtain ⟨hq₃, he₃⟩ := isHex_ne d₃.2
          obtain ⟨hq₄, he₄⟩ := isHex_ne d₄.2
          simpa [StrItem.text, step, hq₁, he₁, hq₂, he₂, hq₃, he₃, hq₄, he₄]
            using ih

/-- On the wrong side, the content of a string is read as if it stood between
strings. -/
theorem run_outside_raw (s : JString) :
    outside.run (raw s) =
      if (raw s).all isOutsideChar then outside else lost := by
  induction s with
  | nil => rfl
  | cons item s ih =>
      rw [raw_cons, run_append, List.all_append]
      have hescape : isOutsideChar '\\' = false := by decide
      cases item with
      | plain c =>
          obtain ⟨hquote, -⟩ := isPlain_ne c.2
          by_cases hc : isOutsideChar c.1 = true
          · simpa [StrItem.text, step, hquote, hc] using ih
          · simp [StrItem.text, step, hquote, hc]
      | escape c => simp [StrItem.text, step, hescape]
      | unicode d₁ d₂ d₃ d₄ => simp [StrItem.text, step, hescape]

theorem off_after_raw (s : JString) :
    ((outside.run (raw s)).step '"').Off := by
  rw [run_outside_raw]
  split
  · exact Or.inl rfl
  · exact Or.inr rfl

theorem steers_quoted (s : JString) : Steers False (quoted s) := by
  refine ⟨False.elim, fun _ => ?_, ?_⟩
  · have hinside := run_inside_raw s
    simp only [quoted, run_cons, run_append, run_nil]
    rw [show outside.step '"' = inside from rfl, hinside]
    rfl
  · rintro _ (rfl | rfl)
    · simpa [quoted, step] using off_after_raw s
    · exact Or.inr (run_lost _)

/-- The rest of a string after its first escaped quote breaks the reader. -/
theorem off_afterQuote {s : JString} (h : quoteItem ∈ s) :
    (outside.run (afterQuote s)).Off := by
  induction s with
  | nil => simp at h
  | cons item s ih =>
      by_cases hitem : item = quoteItem
      · simpa [afterQuote, hitem] using off_after_raw s
      · have htail : quoteItem ∈ s :=
          (List.mem_cons.mp h).resolve_left (Ne.symm hitem)
        simpa [afterQuote, hitem] using ih htail

/-- A member whose value was replaced up to the first quote in it. -/
theorem steers_member {name : Text} (hstray : ∃ c ∈ name,
    isOutsideChar c = false ∧ c ≠ '"') {key : JString}
    (hshow : ShowsKey name key) (s new : JString) :
    Steers (quoteItem ∈ s)
      (quoted key ++ (':' :: ' ' :: quoted new ++ afterQuote s)) := by
  have hnew : Steers False (quoted key ++ (':' :: ' ' :: quoted new)) := by
    have hcolon : Steers False [':', ' '] := by
      apply steers_outside
      intro c hc
      simp only [List.mem_cons, List.not_mem_nil, or_false] at hc
      rcases hc with rfl | rfl <;> decide
    exact (steers_quoted key).append_sound
      (hcolon.append_sound (steers_quoted new))
  have hlost : inside.run (quoted key) = lost := by
    obtain ⟨c, hc, hstray, hquote⟩ := hstray
    have hmem : c ∈ raw key := by
      have hkey := hshow.subset (List.mem_cons_of_mem '"' hc)
      exact (List.mem_cons.mp hkey).resolve_left hquote
    have hall : (raw key).all isOutsideChar = false :=
      List.all_eq_false.mpr ⟨c, hmem, by simp [hstray]⟩
    have hraw := run_outside_raw key
    simp only [hall, Bool.false_eq_true, ↓reduceIte] at hraw
    simp only [quoted, run_cons, run_append, run_nil]
    rw [show inside.step '"' = outside from rfl, hraw]
    rfl
  refine ⟨fun hs => ?_, fun hs => ?_, ?_⟩
  · rw [List.cons_append, List.cons_append, ← List.cons_append,
      ← List.cons_append, ← List.append_assoc, run_append, hnew.passes id]
    exact off_afterQuote hs
  · rw [(upToQuote_of_not_mem hs).2, List.append_nil]
    exact hnew.passes id
  · rintro _ (rfl | rfl)
    · rw [run_append, hlost, run_lost]
      exact Or.inr rfl
    · exact Or.inr (run_lost _)

variable {site : Site} {new : Text} {broken : Field → Prop}

/-- What the replacement does to the reader in one member. -/
def MemberSteers (site : Site) (new : Text) (broken : Field → Prop)
    (field : Field) : Prop :=
  match site field with
  | none => ¬ broken field
  | some pieces => field.value.fields = [] ∧
      Steers (broken field) (pieces.flatMap (Piece.replaced new))

theorem steers_head (head : KeyHead) : Steers False head.text := by
  have hcolon : Steers False (':' :: blankText head.gap) :=
    (steers_char (c := ':') (by decide)).append_sound
      (steers_blankText head.gap)
  exact (steers_quoted head.key).append_sound
    ((steers_blankText head.mid).append_sound hcolon)

theorem steers_field {head : KeyHead} {v : Value}
    (hmember : MemberSteers site new broken ⟨head, v⟩)
    (hv : Steers (∃ field ∈ v.fields, broken field)
      ((v.weave site).flatMap (Piece.replaced new))) :
    Steers (∃ field ∈ ⟨head, v⟩ :: v.fields, broken field)
      (((site ⟨head, v⟩).getD (passed head.text ++ v.weave site)).flatMap
        (Piece.replaced new)) := by
  unfold MemberSteers at hmember
  cases hsite : site ⟨head, v⟩ with
  | none =>
      rw [hsite] at hmember
      have hiff : (∃ field ∈ v.fields, broken field) ↔
          ∃ field ∈ ⟨head, v⟩ :: v.fields, broken field := by
        simp [hmember]
      have hsound := (steers_head head).sound_append hv
      simpa using hsound.congr hiff
  | some pieces =>
      rw [hsite] at hmember
      obtain ⟨hnone, hsteers⟩ := hmember
      have hfields : v.fields = [] := hnone
      have hiff : broken ⟨head, v⟩ ↔
          ∃ field ∈ ⟨head, v⟩ :: v.fields, broken field := by
        simp [hfields]
      simpa using hsteers.congr hiff

theorem exists_mem_append_iff {l l' : List Field} :
    (∃ field ∈ l ++ l', broken field) ↔
      (∃ field ∈ l, broken field) ∨ ∃ field ∈ l', broken field := by
  simp only [List.mem_append, or_and_right, exists_or]

/-- A value without members is passed over. -/
theorem steers_leaf {t : Text} (ht : Steers False t) :
    Steers (∃ field ∈ ([] : List Field), broken field)
      ((passed t).flatMap (Piece.replaced new)) := by
  rw [flatMap_replaced_passed]
  exact ht.congr (by simp)

theorem steers_brackets (left right : Char)
    (hleft : isOutsideChar left = true) (hright : isOutsideChar right = true)
    (ht : Steers p t) :
    Steers p (left :: (t ++ [right])) :=
  (steers_char hleft).sound_append (ht.append_sound (steers_char hright))

mutual

theorem steers_value : ∀ (v : Value),
    (∀ field ∈ v.fields, MemberSteers site new broken field) →
      Steers (∃ field ∈ v.fields, broken field)
        ((v.weave site).flatMap (Piece.replaced new))
  | .null, _ => steers_leaf (steers_outside (List.all_eq_true.mp rfl))
  | .bool true, _ => steers_leaf (steers_outside (List.all_eq_true.mp rfl))
  | .bool false, _ => steers_leaf (steers_outside (List.all_eq_true.mp rfl))
  | .num n, _ => steers_leaf (steers_outside fun c hc => by
      simp [isOutsideChar, isNumberChar_of_mem hc])
  | .str s, _ => steers_leaf (steers_quoted s)
  | .emptyArr blanks, _ => steers_leaf (steers_brackets '[' ']' (by decide)
      (by decide) (steers_blankText blanks))
  | .emptyObj blanks, _ => steers_leaf (steers_brackets '\x7b' '\x7d'
      (by decide) (by decide) (steers_blankText blanks))
  | .arr elems, h => by
      have hsound := steers_brackets '[' ']' (by decide) (by decide)
        (steers_elems elems h)
      simpa [Value.weave, Value.fields] using hsound
  | .obj members, h => by
      have hsound := steers_brackets '\x7b' '\x7d' (by decide) (by decide)
        (steers_members members h)
      simpa [Value.weave, Value.fields] using hsound

theorem steers_elems : ∀ (es : Elems),
    (∀ field ∈ es.fields, MemberSteers site new broken field) →
      Steers (∃ field ∈ es.fields, broken field)
        ((es.weave site).flatMap (Piece.replaced new))
  | .last pre v post, h => by
      have hv := steers_value v h
      have hsound := (steers_blankText pre).sound_append
        (hv.append_sound (steers_blankText post))
      simpa [Elems.weave, Elems.fields] using hsound
  | .more pre v post es, h => by
      have hv := steers_value v fun field hf => h field
        (List.mem_append_left _ hf)
      have hes := steers_elems es fun field hf => h field
        (List.mem_append_right _ hf)
      have hcomma := (steers_blankText post).sound_append
        ((steers_char (c := ',') (by decide)).sound_append hes)
      have hsound := (steers_blankText pre).sound_append (hv.append hcomma)
      simpa [Elems.weave, Elems.fields] using
        hsound.congr exists_mem_append_iff.symm

theorem steers_members : ∀ (ms : Members),
    (∀ field ∈ ms.fields, MemberSteers site new broken field) →
      Steers (∃ field ∈ ms.fields, broken field)
        ((ms.weave site).flatMap (Piece.replaced new))
  | .last head v post, h => by
      have hv := steers_value v fun field hf => h field
        (List.mem_cons_of_mem _ hf)
      have hfield := steers_field (h _ List.mem_cons_self) hv
      have hsound := (steers_blankText head.pre).sound_append
        (hfield.append_sound (steers_blankText post))
      simpa [Members.weave, Members.fields] using hsound
  | .more head v post ms, h => by
      have hv := steers_value v fun field hf => h field
        (List.mem_cons_of_mem _ (List.mem_append_left _ hf))
      have hms := steers_members ms fun field hf => h field
        (List.mem_cons_of_mem _ (List.mem_append_right _ hf))
      have hfield := steers_field (h _ List.mem_cons_self) hv
      have hcomma := (steers_blankText post).sound_append
        ((steers_char (c := ',') (by decide)).sound_append hms)
      have hsound := (steers_blankText head.pre).sound_append
        (hfield.append hcomma)
      simpa [Members.weave, Members.fields] using
        hsound.congr exists_mem_append_iff.symm

end

theorem steers_document (site : Site) (new : Text) (broken : Field → Prop)
    {doc : Document}
    (h : ∀ field ∈ doc.value.fields, MemberSteers site new broken field) :
    Steers (∃ field ∈ doc.value.fields, broken field)
      ((doc.weave site).flatMap (Piece.replaced new)) := by
  have hsound := (steers_blankText doc.pre).sound_append
    ((steers_value doc.value h).append_sound (steers_blankText doc.post))
  simpa [Document.weave] using hsound

mutual

theorem weave_none_value : ∀ (v : Value),
    v.weave (fun _ => none) = passed v.text
  | .null => rfl
  | .bool _ => rfl
  | .num _ => rfl
  | .str _ => rfl
  | .emptyArr _ => rfl
  | .emptyObj _ => rfl
  | .arr elems => by
      simp [Value.weave, Value.text, weave_none_elems elems]
  | .obj members => by
      simp [Value.weave, Value.text, weave_none_members members]

theorem weave_none_elems : ∀ (es : Elems),
    es.weave (fun _ => none) = passed es.text
  | .last pre v post => by
      simp [Elems.weave, Elems.text, weave_none_value v]
  | .more pre v post es => by
      simp [Elems.weave, Elems.text, weave_none_value v, weave_none_elems es]

theorem weave_none_members : ∀ (ms : Members),
    ms.weave (fun _ => none) = passed ms.text
  | .last head v post => by
      simp [Members.weave, Members.text, weave_none_value v]
  | .more head v post ms => by
      simp [Members.weave, Members.text, weave_none_value v,
        weave_none_members ms]

end

/-- A JSON text ends outside its strings. -/
theorem run_outside_text (doc : Document) : outside.run doc.text = outside := by
  have hsteers : Steers (∃ field ∈ doc.value.fields, False)
      ((doc.weave fun _ => none).flatMap (Piece.replaced [])) :=
    steers_document (fun _ => none) [] (fun _ => False) fun _ _ => id
  have hweave : (doc.weave fun _ => none) = passed doc.text := by
    simp [Document.weave, Document.text, weave_none_value]
  rw [hweave, flatMap_replaced_passed] at hsteers
  exact hsteers.passes (by simp)

/-- The value that a search takes goes on after an escaped quote. -/
def Severed (name : Text) (field : Field) : Prop :=
  Taken name takeEnclosed field ∧ ∃ s, field.value = .str s ∧ quoteItem ∈ s

theorem memberSteers_keySite {name : Text} (hstray : ∃ c ∈ name,
    isOutsideChar c = false ∧ c ≠ '"') (new : JString) (field : Field) :
    MemberSteers (keySite name takeEnclosed) (memberText name (.str new))
      (Severed name) field := by
  obtain ⟨head, v⟩ := field
  have hnone : keySite name takeEnclosed ⟨head, v⟩ = none →
      MemberSteers (keySite name takeEnclosed) (memberText name (.str new))
        (Severed name) ⟨head, v⟩ := by
    intro hsite
    rw [MemberSteers, hsite]
    rintro ⟨⟨hshow, hline, htake⟩, -⟩
    obtain ⟨t, ht⟩ := Option.isSome_iff_exists.mp htake
    simp [keySite, hshow, hline, ht] at hsite
  by_cases hshow : ShowsKey name head.key ∧ head.OneLine
  · cases v with
    | str s =>
        have hsite : keySite name takeEnclosed ⟨head, .str s⟩ =
            some (passed (keyLead name head.key) ++
              (Take.piece (opening name head)
                ⟨none, '"' :: (upToQuote s ++ ['"']), afterQuote s⟩ ::
                  passed (afterQuote s))) := by
          simp [keySite, hshow, takeEnclosed]
        have hiff : quoteItem ∈ s ↔ Severed name ⟨head, .str s⟩ := by
          simp [Severed, Taken, hshow, takeEnclosed]
        have hmember := (steers_member hstray hshow.1 s new).congr hiff
        rw [MemberSteers, hsite]
        refine ⟨rfl, ?_⟩
        simpa [Take.piece, Piece.replaced, memberText, Value.text,
          quoted_eq_keyLead hshow.1] using hmember
    | _ => exact hnone (by simp [keySite, takeEnclosed])
  · exact hnone (by simp [keySite, hshow])

/-- Replacing a value up to an escaped quote in it leaves no JSON text. -/
theorem parse_sed_eq_none {name : Text} (hname : IsName name)
    (hstray : ∃ c ∈ name, isOutsideChar c = false ∧ c ≠ '"') {doc : Document}
    (hsevered : ∃ field ∈ doc.value.fields, Severed name field)
    (new : JString) :
    parse (sed (keyed isSpace name (enclosed notQuote ['"'] []))
      (memberText name (.str new)) doc.text) = none := by
  have hplain := enclosed_plain notQuote ['"'] []
  have hwithin := keyed_within hname (enclosed notQuote ['"'] [])
  rw [enclosed_within ['"'] [] (by decide) (by decide)] at hwithin
  have hpattern := memberPattern_keyed hname (f := .posix)
    (enclosed_plain notQuoteInLine ['"'] [])
  rw [sed_weave (keyed_plain hplain _ _) (hwithin ▸ hpattern)
    (hwithin ▸ fun field _ => cuts_enclosed hname field)]
  cases hparse : parse ((doc.weave (keySite name takeEnclosed)).flatMap
      (Piece.replaced (memberText name (.str new)))) with
  | none => rfl
  | some doc' =>
      have hsteers : Steers (∃ field ∈ doc.value.fields, Severed name field)
          ((doc.weave (keySite name takeEnclosed)).flatMap
            (Piece.replaced (memberText name (.str new)))) :=
        steers_document _ _ _ fun field _ =>
          memberSteers_keySite hstray new field
      have hoff := hsteers.breaks hsevered
      rw [← text_of_parse hparse, run_outside_text] at hoff
      rcases hoff with h | h <;> simp at h

end JsonText
