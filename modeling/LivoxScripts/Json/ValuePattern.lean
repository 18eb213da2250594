/-
Patterns for the value of a key: a quoted text, the beginning of a quoted text
after a `\K`, and both behind the opening bracket of an array.
-/
import LivoxScripts.Json.KeyPattern

namespace JsonText

open TextTools

/-- `[^"]` -/
def notQuote (c : Char) : Bool := c != '"'

/-- `left`, a run of the class, a quote and `right` -/
def enclosed (p : Char → Bool) (left right : Text) : Regex :=
  .seq (.lit left) (.seq (.many p) (.lit ('"' :: right)))

/-- A quote and, after a `\K`, a run of the class. -/
def captured (p : Char → Bool) : Regex :=
  .seq (.lit ['"']) (.seq .keep (.many1 p))

/-- `\[`, white space and a captured run -/
def capturedFirst (space p : Char → Bool) : Regex :=
  .seq (.lit ['[']) (.seq (.many space) (captured p))

/-- The text of a string up to its first quote: an escaped one if there is one,
else the closing one. -/
def upToQuote : JString → Text
  | [] => []
  | item :: s => if item = quoteItem then ['\\'] else item.text ++ upToQuote s

/-- The text of a string, with its closing quote, after that first quote. -/
def afterQuote : JString → Text
  | [] => []
  | item :: s => if item = quoteItem then raw s ++ ['"'] else afterQuote s

/-- The first element with the blanks before it. -/
def Elems.first : Elems → List Blank × Value
  | .last pre v _ => (pre, v)
  | .more pre v _ _ => (pre, v)

/-- What stands between the first element and the closing bracket. -/
def Elems.afterFirst : Elems → Text
  | .last _ _ post => blankText post
  | .more _ _ post rest => blankText post ++ ',' :: rest.text

def takeEnclosed : Value → Option Take
  | .str s => some ⟨none, '"' :: (upToQuote s ++ ['"']), afterQuote s⟩
  | _ => none

def takeCaptured (p : Char → Bool) : Value → Option Take
  | .str s =>
      if (upToQuote s).takeWhile p = [] then none
      else some ⟨some ['"'], (upToQuote s).takeWhile p,
        (upToQuote s).dropWhile p ++ '"' :: afterQuote s⟩
  | _ => none

/-- The array is one string right between its brackets. -/
def takeSingleton : Value → Option Take
  | .arr (.last [] (.str s) []) =>
      some ⟨none, '[' :: '"' :: (raw s ++ ['"', ']']), []⟩
  | _ => none

/-- The first element is a string right after the bracket. -/
def takeFirstEnclosed : Value → Option Take
  | .arr es =>
      match es.first with
      | ([], .str s) =>
          some ⟨none, '[' :: '"' :: (upToQuote s ++ ['"']),
            afterQuote s ++ (es.afterFirst ++ [']'])⟩
      | _ => none
  | _ => none

/-- The first element is a string on the line of the bracket. -/
def takeFirstCaptured (p : Char → Bool) : Value → Option Take
  | .arr es =>
      if .newline ∈ es.first.1 then none
      else
        (takeCaptured p es.first.2).map fun t =>
          ⟨some ('[' :: (blankText es.first.1 ++ ['"'])), t.body,
            t.after ++ (es.afterFirst ++ [']'])⟩
  | _ => none

theorem quote_not_mem_item {item : StrItem} (h : item ≠ quoteItem) :
    '"' ∉ item.text := by
  intro hmem
  obtain ⟨a, b, hitem⟩ := List.append_of_mem hmem
  exact h (item_before_quote hitem).1

theorem newline_not_mem_item (item : StrItem) : '\n' ∉ item.text := by
  cases item with
  | plain c =>
      obtain ⟨c, hc⟩ := c
      have hne : '\n' ≠ c := by
        rintro rfl
        exact absurd hc (by decide)
      simpa [StrItem.text] using hne
  | escape c =>
      obtain ⟨c, hc⟩ := c
      have hne : '\n' ≠ c := by
        rintro rfl
        exact absurd hc (by decide)
      simpa [StrItem.text] using hne
  | unicode d₁ d₂ d₃ d₄ =>
      have hhex : ∀ d : { c : Char // isHex c = true }, '\n' ≠ d.1 := by
        rintro ⟨d, hd⟩ rfl
        exact absurd hd (by decide)
      simp [StrItem.text, hhex]

theorem upToQuote_append_afterQuote (s : JString) (tail : Text) :
    upToQuote s ++ '"' :: (afterQuote s ++ tail) = raw s ++ '"' :: tail := by
  induction s with
  | nil => simp [upToQuote, afterQuote, raw]
  | cons item s ih =>
      by_cases hitem : item = quoteItem
      · subst hitem
        simp [upToQuote, afterQuote, raw_cons, quoteItem, StrItem.text]
      · simp [upToQuote, afterQuote, hitem, raw_cons, ih]

theorem mem_upToQuote {s : JString} {c : Char} (hc : c ∈ upToQuote s) :
    (notQuote c && notNewline c) = true := by
  induction s with
  | nil => simp [upToQuote] at hc
  | cons item s ih =>
      by_cases hitem : item = quoteItem
      · simp only [upToQuote, hitem, ↓reduceIte, List.mem_singleton] at hc
        subst hc
        decide
      · simp only [upToQuote, hitem, ↓reduceIte, List.mem_append] at hc
        rcases hc with hc | hc
        · have hq : c ≠ '"' := fun h => quote_not_mem_item hitem (h ▸ hc)
          have hn : c ≠ '\n' := fun h => newline_not_mem_item item (h ▸ hc)
          simp [notQuote, notNewline, hq, hn]
        · exact ih hc

theorem upToQuote_of_not_mem {s : JString} (h : quoteItem ∉ s) :
    upToQuote s = raw s ∧ afterQuote s = [] := by
  induction s with
  | nil => exact ⟨rfl, rfl⟩
  | cons item s ih =>
      simp only [List.mem_cons, not_or] at h
      have hitem : item ≠ quoteItem := Ne.symm h.1
      simp [upToQuote, afterQuote, hitem, ih h.2, raw_cons]

theorem quoteItem_not_mem_of_bare {s : JString} (h : Bare s) :
    quoteItem ∉ s := by
  intro hmem
  obtain ⟨c, hc⟩ := h _ hmem
  simp [quoteItem] at hc

theorem afterQuote_suffix (s : JString) : afterQuote s <:+ quoted s := by
  refine ⟨'"' :: (upToQuote s ++ ['"']), ?_⟩
  have h := upToQuote_append_afterQuote s []
  simp only [List.append_nil] at h
  simp [quoted, h]

theorem captured_suffix (p : Char → Bool) (s : JString) :
    (upToQuote s).dropWhile p ++ '"' :: afterQuote s <:+ quoted s := by
  refine ⟨'"' :: (upToQuote s).takeWhile p, ?_⟩
  have h := upToQuote_append_afterQuote s []
  simp only [List.append_nil] at h
  rw [quoted, ← h, List.cons_append, ← List.append_assoc,
    List.takeWhile_append_dropWhile]

variable {p : Char → Bool} {f : Flavor}

/-- `[^"]` inside a line. -/
def notQuoteInLine (c : Char) : Bool := notQuote c && notNewline c

theorem run_lit_of_headNot {c : Char} {cs rest : Text}
    (h : HeadNot (· == c) rest) (next : Regex) (b : Bool) (lead body : Text) :
    (Regex.seq (.lit (c :: cs)) next).run b ⟨lead, body, rest⟩ = [] := by
  have hpre : ¬ c :: cs <+: rest := by
    rintro ⟨more, rfl⟩
    simpa using h c (by simp)
  simp [Regex.run, Regex.run_lit_elsewhere (c := ⟨lead, body, rest⟩) hpre]

theorem run_captured (b : Bool) (lead body rest : Text) :
    (captured p).run b ⟨lead, body, '"' :: rest⟩ =
      (Regex.many1 p).run b ⟨lead ++ (body ++ ['"']), [], rest⟩ := by
  simp [captured, Regex.run, Regex.lit]

theorem takeWhile_append_quote (hq : p '"' = false) (u rest : Text) :
    (u ++ '"' :: rest).takeWhile p = u.takeWhile p ∧
      (u ++ '"' :: rest).dropWhile p = u.dropWhile p ++ '"' :: rest := by
  induction u with
  | nil => simp [hq]
  | cons c cs ih =>
      by_cases hc : p c = true
      · simp [hc, ih]
      · simp [hc]

/-- The captured run ends before the quote. -/
theorem pick_many1 (hq : p '"' = false) (lead u rest : Text) :
    f.pick (((Regex.many1 p).run false ⟨lead, [], u ++ '"' :: rest⟩).filter
        fun d => !d.body.isEmpty) =
      if u.takeWhile p = [] then none
      else some ⟨lead, u.takeWhile p, u.dropWhile p ++ '"' :: rest⟩ := by
  cases u with
  | nil => simp [Regex.run_many1_cons, hq]
  | cons c cs =>
      by_cases hc : p c = true
      · obtain ⟨htake, hdrop⟩ := takeWhile_append_quote hq cs rest
        simp [Regex.run_many1_cons, hc, Regex.pick_filter_manyFrom, Cursor.skip,
          htake, hdrop]
      · simp [Regex.run_many1_cons, hc]

theorem run_enclosed (hq : p '"' = false) {u : Text}
    (hu : ∀ c ∈ u, p c = true) (left right more : Text) (b : Bool)
    (lead body : Text) :
    (enclosed p left right).run b
        ⟨lead, body, left ++ (u ++ '"' :: more)⟩ =
      (Regex.lit right).run b ⟨lead, body ++ (left ++ (u ++ ['"'])), more⟩ := by
  have hnext : ∀ lead body x xs, p x = true →
      (Regex.lit ('"' :: right)).run b ⟨lead, body, x :: xs⟩ = [] := by
    intro lead body x xs hx
    have hne : x ≠ '"' := by
      rintro rfl
      simp [hq] at hx
    simp [Regex.lit, Regex.run, hne]
  have hskip : Cursor.skip p ⟨lead, body ++ left, u ++ '"' :: more⟩ =
      ⟨lead, body ++ left ++ u, '"' :: more⟩ := by
    simp [Cursor.skip, List.takeWhile_append_of_pos hu,
      List.dropWhile_append_of_pos hu, hq]
  rw [enclosed, Regex.run, Regex.run_lit_append, List.flatMap_singleton,
    Regex.run_many_seq p _ b hnext, hskip]
  simp [Regex.lit, Regex.run]

theorem headNot_quote {v : Value} (hv : ∀ s, v ≠ .str s) (tail : Text) :
    HeadNot (· == '"') (v.text ++ tail) := by
  cases v with
  | str s => exact absurd rfl (hv s)
  | num n =>
      obtain ⟨c, cs, hcs⟩ := List.exists_cons_of_ne_nil (number_ne_nil n)
      have hc : isNumberChar c = true :=
        isNumberChar_of_mem (n := n) (by simp [hcs])
      have hne : c ≠ '"' := by
        rintro rfl
        exact absurd hc (by decide)
      rw [Value.text, hcs, List.cons_append]
      exact headNot_singleton (by simpa using hne) _
  | bool b => cases b <;> exact headNot_singleton (by decide) _
  | null | emptyArr _ | arr _ | emptyObj _ | obj _ =>
      exact headNot_singleton (by decide) _

theorem text_str_append (s : JString) (tail : Text) :
    (Value.str s).text ++ tail =
      '"' :: (upToQuote s ++ '"' :: (afterQuote s ++ tail)) := by
  rw [upToQuote_append_afterQuote]
  simp [Value.text, quoted]

/-- `"\Kp+` at a value -/
theorem takes_captured (hq : p '"' = false) (v : Value) :
    Takes f (captured p) v (takeCaptured p v) := by
  intro front tail hfront htail
  by_cases hv : ∃ s, v = .str s
  · obtain ⟨s, rfl⟩ := hv
    rw [text_str_append, run_captured, pick_many1 hq, takeCaptured]
    split
    · rfl
    · simp [Take.cursor]
  · have hne : ∀ s, v ≠ .str s := fun s h => hv ⟨s, h⟩
    have hnone : takeCaptured p v = none := by
      unfold takeCaptured
      split
      · exact absurd rfl (hne _)
      · rfl
    rw [captured, run_lit_of_headNot (headNot_quote hne tail), hnone]
    simp

/-- `"[^"]*"` at a value -/
theorem takes_enclosed (v : Value) :
    Takes f (enclosed notQuoteInLine ['"'] []) v (takeEnclosed v) := by
  intro front tail hfront htail
  by_cases hv : ∃ s, v = .str s
  · obtain ⟨s, rfl⟩ := hv
    have hrun := run_enclosed (p := notQuoteInLine) (u := upToQuote s)
      (by decide) (fun c hc => mem_upToQuote hc) ['"'] []
      (afterQuote s ++ tail) false [] front
    rw [text_str_append]
    simp only [List.cons_append, List.nil_append] at hrun
    rw [hrun]
    simp [Regex.lit, Regex.run, takeEnclosed, Take.cursor]
  · have hne : ∀ s, v ≠ .str s := fun s h => hv ⟨s, h⟩
    have hnone : takeEnclosed v = none := by
      unfold takeEnclosed
      split
      · exact absurd rfl (hne _)
      · rfl
    rw [enclosed, run_lit_of_headNot (headNot_quote hne tail), hnone]
    simp

/-- An array whose elements are strings written without escapes. -/
def BareStrings (v : Value) : Prop :=
  ∃ es, v = .arr es ∧ ∀ e ∈ es.toList, ∃ s, e = .str s ∧ Bare s

theorem first_mem_toList (es : Elems) : es.first.2 ∈ es.toList := by
  cases es <;> exact List.mem_cons_self

theorem text_eq_first (es : Elems) :
    es.text = blankText es.first.1 ++ (es.first.2.text ++ es.afterFirst) := by
  cases es <;> rfl

theorem follows_afterFirst (es : Elems) (tail : Text) :
    Follows (es.afterFirst ++ ']' :: tail) := by
  cases es with
  | last pre v post =>
      exact follows_blankText post (closes_cons (by simp) tail)
  | more pre v post rest =>
      rw [Elems.afterFirst, List.append_assoc]
      exact follows_blankText post (closes_cons (by simp) _)

theorem captured_solid : Solid (captured p) := solid_lit_seq (by decide) _

theorem capturedFirst_solid (space : Char → Bool) :
    Solid (capturedFirst space p) := solid_lit_seq (by decide) _

theorem enclosed_solid {c : Char} (hc : isSpace c = false) (left right : Text) :
    Solid (enclosed p (c :: left) right) := solid_lit_seq hc _

/-- `\[\s*"\Kp+` at an array of strings -/
theorem takes_firstCaptured (hq : p '"' = false) {v : Value}
    (hv : BareStrings v) :
    Takes f (capturedFirst isLineSpace p) v (takeFirstCaptured p v) := by
  obtain ⟨es, rfl, hes⟩ := hv
  obtain ⟨s, hs, -⟩ := hes _ (first_mem_toList es)
  intro front tail hfront htail
  have htext : (Value.arr es).text ++ tail = '[' :: (blankText es.first.1 ++
      ((Value.str s).text ++ (es.afterFirst ++ ']' :: tail))) := by
    simp [Value.text, text_eq_first, hs]
  have hstr := takes_captured (f := f) hq (.str s)
    (front ++ '[' :: blankText es.first.1) (es.afterFirst ++ ']' :: tail)
    (by simp) (follows_afterFirst es tail)
  have hrun : (capturedFirst isLineSpace p).run false
      ⟨[], front, (Value.arr es).text ++ tail⟩ =
      if .newline ∈ es.first.1 then []
      else (captured p).run false ⟨[], front ++ '[' :: blankText es.first.1,
        (Value.str s).text ++ (es.afterFirst ++ ']' :: tail)⟩ := by
    have hlit := Regex.run_lit_append ['['] false [] front
      (blankText es.first.1 ++
        ((Value.str s).text ++ (es.afterFirst ++ ']' :: tail)))
    simp only [List.cons_append, List.nil_append] at hlit
    rw [htext, capturedFirst, Regex.run, hlit, List.flatMap_singleton,
      run_blanks captured_solid false [] _ es.first.1
        (headNot_value_space _ _)]
    simp
  rw [hrun]
  by_cases hline : Blank.newline ∈ es.first.1
  · simp [takeFirstCaptured, hline]
  · rw [if_neg hline, hstr, takeFirstCaptured, if_neg hline, hs]
    simp only [takeCaptured]
    split
    · rfl
    · simp [Take.cursor]

theorem text_first_singleton {es : Elems} {s : JString}
    (hs : es.first.2 = .str s) (hpre : es.first.1 = []) (tail : Text) :
    (Value.arr es).text ++ tail = '[' :: '"' :: (upToQuote s ++
      '"' :: (afterQuote s ++ (es.afterFirst ++ ']' :: tail))) := by
  have htext := text_str_append s (es.afterFirst ++ ']' :: tail)
  rw [← htext]
  simp [Value.text, text_eq_first, hs, hpre, blankText]

/-- A bracket that is not right before its string. -/
theorem run_enclosed_blank {es : Elems} (hpre : es.first.1 ≠ [])
    (right tail front : Text) :
    (enclosed p ['[', '"'] right).run false
      ⟨[], front, (Value.arr es).text ++ tail⟩ = [] := by
  obtain ⟨blank, blanks, hblanks⟩ := List.exists_cons_of_ne_nil hpre
  have hblank := blank_ne_quote blank
  simp [enclosed, Regex.run, Regex.lit, Value.text, text_eq_first, hblanks,
    blankText, hblank]

/-- `\["[^"]*"` at an array of strings -/
theorem takes_firstEnclosed {v : Value} (hv : BareStrings v) :
    Takes f (enclosed notQuoteInLine ['[', '"'] []) v (takeFirstEnclosed v) := by
  obtain ⟨es, rfl, hes⟩ := hv
  obtain ⟨s, hs, -⟩ := hes _ (first_mem_toList es)
  intro front tail hfront htail
  by_cases hpre : es.first.1 = []
  · have hrun := run_enclosed (p := notQuoteInLine) (u := upToQuote s)
      (by decide) (fun c hc => mem_upToQuote hc) ['[', '"'] []
      (afterQuote s ++ (es.afterFirst ++ ']' :: tail)) false [] front
    have hfirst : es.first = ([], .str s) := Prod.ext hpre hs
    simp only [List.cons_append, List.nil_append] at hrun
    rw [text_first_singleton hs hpre, hrun]
    simp [Regex.lit, Regex.run, takeFirstEnclosed, hfirst, Take.cursor]
  · have hnone : takeFirstEnclosed (.arr es) = none := by
      simp only [takeFirstEnclosed]
      split
      · next heq => simp [heq] at hpre
      · rfl
    rw [run_enclosed_blank hpre, hnone]
    simp

/-- `\["[^"]*"\]` at an array of strings -/
theorem takes_singleton {v : Value} (hv : BareStrings v) :
    Takes f (enclosed notQuoteInLine ['[', '"'] [']']) v (takeSingleton v) := by
  obtain ⟨es, rfl, hes⟩ := hv
  obtain ⟨s, hs, hbare⟩ := hes _ (first_mem_toList es)
  obtain ⟨hup, hafter⟩ := upToQuote_of_not_mem
    (quoteItem_not_mem_of_bare hbare)
  intro front tail hfront htail
  by_cases hpre : es.first.1 = []
  · have hrun := run_enclosed (p := notQuoteInLine) (u := upToQuote s)
      (by decide) (fun c hc => mem_upToQuote hc) ['[', '"'] [']']
      (afterQuote s ++ (es.afterFirst ++ ']' :: tail)) false [] front
    simp only [List.cons_append, List.nil_append] at hrun
    rw [text_first_singleton hs hpre, hrun, hafter, List.nil_append, hup]
    cases es with
    | last pre v post =>
        obtain rfl : v = .str s := hs
        obtain rfl : pre = [] := hpre
        cases post with
        | nil =>
            simp [Elems.afterFirst, blankText, Regex.lit, Regex.run,
              takeSingleton, Take.cursor]
        | cons blank post =>
            have hblank : blank.char ≠ ']' := by cases blank <;> decide
            simp [Elems.afterFirst, blankText, Regex.lit, Regex.run,
              takeSingleton, hblank]
    | more pre v post rest =>
        cases post with
        | nil =>
            simp [Elems.afterFirst, blankText, Regex.lit, Regex.run,
              takeSingleton]
        | cons blank post =>
            have hblank : blank.char ≠ ']' := by cases blank <;> decide
            simp [Elems.afterFirst, blankText, Regex.lit, Regex.run,
              takeSingleton, hblank]
  · have hnone : takeSingleton (.arr es) = none := by
      unfold takeSingleton
      split
      · next heq => simp_all [Elems.first]
      · rfl
    rw [run_enclosed_blank hpre, hnone]
    simp

end JsonText
