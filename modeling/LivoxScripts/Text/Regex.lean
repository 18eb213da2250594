/-
Regular expressions as the text tools of a shell script use them: one-character
classes, greedy repetition of a class, sequence, alternation, the two line
anchors and the `\K` of Perl patterns.  A pattern is run from a cursor and
returns every way it can match, in the order a backtracking matcher tries them.
-/
import Mathlib.Computability.Language

namespace TextTools

abbrev Text := List Char

/-- Patterns over the characters of one line. -/
inductive Regex where
  | eps
  | cls (accepts : Char → Bool)
  | many (accepts : Char → Bool)
  | seq (first second : Regex)
  | alt (left right : Regex)
  | keep
  | bol
  | eol

/-- The state of one match attempt.  `lead` was matched before a `\K` and is
not reported; `body` is what the match reports so far. -/
structure Cursor where
  lead : Text
  body : Text
  rest : Text
deriving DecidableEq, Repr

def Cursor.start (line : Text) : Cursor := ⟨[], [], line⟩

/-- Everything the attempt has consumed and everything still ahead of it. -/
def Cursor.whole (c : Cursor) : Text := c.lead ++ (c.body ++ c.rest)

/-- More text after the end of what the cursor sees. -/
def Cursor.extend (more : Text) (c : Cursor) : Cursor :=
  { c with rest := c.rest ++ more }

/-- The cursor after the longest run of accepted characters. -/
def Cursor.skip (accepts : Char → Bool) (c : Cursor) : Cursor :=
  ⟨c.lead, c.body ++ c.rest.takeWhile accepts, c.rest.dropWhile accepts⟩

/-- All cursors after a run of accepted characters, the longest run first. -/
def manyFrom (accepts : Char → Bool) (lead : Text) : Text → Text → List Cursor
  | body, [] => [⟨lead, body, []⟩]
  | body, x :: xs =>
      if accepts x then
        manyFrom accepts lead (body ++ [x]) xs ++ [⟨lead, body, x :: xs⟩]
      else [⟨lead, body, x :: xs⟩]

namespace Regex

/-- All ends of a match from the cursor, preferred ones first.  `atStart` says
that the attempt began at the beginning of its line. -/
def run : Regex → Bool → Cursor → List Cursor
  | eps, _, c => [c]
  | cls accepts, _, c =>
      match c.rest with
      | [] => []
      | x :: xs => if accepts x then [⟨c.lead, c.body ++ [x], xs⟩] else []
  | many accepts, _, c => manyFrom accepts c.lead c.body c.rest
  | seq first second, atStart, c =>
      (first.run atStart c).flatMap (second.run atStart)
  | alt left right, atStart, c => left.run atStart c ++ right.run atStart c
  | keep, _, c => [⟨c.lead ++ c.body, [], c.rest⟩]
  | bol, atStart, c =>
      if atStart && c.lead.isEmpty && c.body.isEmpty then [c] else []
  | eol, _, c => if c.rest.isEmpty then [c] else []

/-- The pattern that matches exactly the given text. -/
def lit : Text → Regex
  | [] => eps
  | c :: cs => seq (cls (· == c)) (lit cs)

/-- `p+` -/
def many1 (accepts : Char → Bool) : Regex := seq (cls accepts) (many accepts)

/-- The basic regular expression spelled by a text in which only `.` is
special. -/
def dotted : Text → Regex
  | [] => eps
  | c :: cs => seq (cls fun x => c == '.' || x == c) (dotted cs)

/-- The same pattern with every class cut down to `allowed`. -/
def within (allowed : Char → Bool) : Regex → Regex
  | cls accepts => cls fun x => accepts x && allowed x
  | many accepts => many fun x => accepts x && allowed x
  | seq first second => seq (first.within allowed) (second.within allowed)
  | alt left right => alt (left.within allowed) (right.within allowed)
  | r => r

/-- No anchors: the pattern does not look at the ends of the line. -/
def Plain : Regex → Prop
  | seq first second => first.Plain ∧ second.Plain
  | alt left right => left.Plain ∧ right.Plain
  | bol => False
  | eol => False
  | _ => True

/-- A plain pattern none of whose classes accepts `c`. -/
def Avoids (c : Char) : Regex → Prop
  | cls accepts => accepts c = false
  | many accepts => accepts c = false
  | seq first second => first.Avoids c ∧ second.Avoids c
  | alt left right => left.Avoids c ∧ right.Avoids c
  | bol => False
  | eol => False
  | _ => True

/-- The language of a plain pattern. -/
def lang : Regex → Language Char
  | eps => 1
  | cls accepts => { w | ∃ c, accepts c = true ∧ w = [c] }
  | many accepts => { w | ∀ c ∈ w, accepts c = true }
  | seq first second => first.lang * second.lang
  | alt left right => left.lang + right.lang
  | keep => 1
  | bol => 1
  | eol => 1

theorem Avoids.plain {r : Regex} {c : Char} (h : r.Avoids c) : r.Plain := by
  induction r with
  | seq first second ih₁ ih₂ => exact ⟨ih₁ h.1, ih₂ h.2⟩
  | alt left right ih₁ ih₂ => exact ⟨ih₁ h.1, ih₂ h.2⟩
  | bol => exact h
  | eol => exact h
  | _ => trivial

theorem within_avoids {r : Regex} (hplain : r.Plain) {allowed : Char → Bool}
    {c : Char} (hc : allowed c = false) : (r.within allowed).Avoids c := by
  induction r with
  | cls accepts => simp [within, Avoids, hc]
  | many accepts => simp [within, Avoids, hc]
  | seq first second ih₁ ih₂ => exact ⟨ih₁ hplain.1, ih₂ hplain.2⟩
  | alt left right ih₁ ih₂ => exact ⟨ih₁ hplain.1, ih₂ hplain.2⟩
  | bol => exact hplain
  | eol => exact hplain
  | _ => trivial

theorem run_plain {r : Regex} (hplain : r.Plain) (b b' : Bool) (c : Cursor) :
    r.run b c = r.run b' c := by
  induction r generalizing c with
  | seq first second ih₁ ih₂ =>
      simp only [run]
      rw [ih₁ hplain.1, funext (ih₂ hplain.2)]
  | alt left right ih₁ ih₂ => simp only [run, ih₁ hplain.1, ih₂ hplain.2]
  | bol => exact hplain.elim
  | eol => exact hplain.elim
  | _ => rfl

end Regex

theorem mem_manyFrom {accepts : Char → Bool} {lead body rest : Text}
    {d : Cursor} :
    d ∈ manyFrom accepts lead body rest ↔
      ∃ w, (∀ c ∈ w, accepts c = true) ∧ rest = w ++ d.rest ∧
        d.lead = lead ∧ d.body = body ++ w := by
  induction rest generalizing body with
  | nil =>
      obtain ⟨dlead, dbody, drest⟩ := d
      simp only [manyFrom, List.mem_singleton, Cursor.mk.injEq]
      constructor
      · rintro ⟨rfl, rfl, rfl⟩
        exact ⟨[], by simp⟩
      · rintro ⟨w, -, hrest, rfl, rfl⟩
        obtain ⟨rfl, rfl⟩ := List.append_eq_nil_iff.mp hrest.symm
        simp
  | cons x xs ih =>
      have hstop : d = ⟨lead, body, x :: xs⟩ ↔
          x :: xs = [] ++ d.rest ∧ d.lead = lead ∧ d.body = body ++ [] := by
        obtain ⟨dlead, dbody, drest⟩ := d
        simp only [Cursor.mk.injEq, List.nil_append, List.append_nil]
        constructor
        · rintro ⟨rfl, rfl, rfl⟩
          exact ⟨rfl, rfl, rfl⟩
        · rintro ⟨rfl, rfl, rfl⟩
          exact ⟨rfl, rfl, rfl⟩
      by_cases hx : accepts x = true
      · simp only [manyFrom, hx, ↓reduceIte, List.mem_append, ih,
          List.mem_singleton, hstop]
        constructor
        · rintro (⟨w, hw, hrest, hlead, hbody⟩ | h)
          · exact ⟨x :: w, by simpa [hx] using hw, by simp [hrest], hlead,
              by simp [hbody]⟩
          · exact ⟨[], by simp, h⟩
        · rintro ⟨w, hw, hrest, hlead, hbody⟩
          cases w with
          | nil => exact Or.inr ⟨hrest, hlead, hbody⟩
          | cons y w =>
              simp only [List.cons_append, List.cons.injEq] at hrest
              obtain ⟨rfl, hrest⟩ := hrest
              exact Or.inl ⟨w, fun c hc => hw c (List.mem_cons_of_mem _ hc),
                hrest, hlead, by simp [hbody]⟩
      · simp only [manyFrom, hx, Bool.false_eq_true, ↓reduceIte,
          List.mem_singleton, hstop]
        constructor
        · intro h
          exact ⟨[], by simp, h⟩
        · rintro ⟨w, hw, h⟩
          cases w with
          | nil => exact h
          | cons y w =>
              simp only [List.cons_append, List.cons.injEq] at h
              exact absurd (hw y List.mem_cons_self) (h.1.1 ▸ hx)

/-- If what follows a run fails on every accepted character, only the longest
run can lead to a match. -/
theorem manyFrom_flatMap {β : Type} (accepts : Char → Bool)
    (next : Cursor → List β)
    (hnext : ∀ lead body x xs, accepts x = true →
      next ⟨lead, body, x :: xs⟩ = []) (lead body rest : Text) :
    (manyFrom accepts lead body rest).flatMap next =
      next (Cursor.skip accepts ⟨lead, body, rest⟩) := by
  induction rest generalizing body with
  | nil => simp [manyFrom, Cursor.skip]
  | cons x xs ih =>
      by_cases hx : accepts x = true
      · simp only [manyFrom, hx, ↓reduceIte, List.flatMap_append, ih,
          List.flatMap_singleton, hnext lead body x xs hx, List.append_nil]
        simp [Cursor.skip, hx]
      · simp [manyFrom, Cursor.skip, hx]

theorem manyFrom_extend {accepts : Char → Bool} {x : Char}
    (hx : accepts x = false) (lead body rest more : Text) :
    manyFrom accepts lead body (rest ++ x :: more) =
      (manyFrom accepts lead body rest).map (Cursor.extend (x :: more)) := by
  induction rest generalizing body with
  | nil => simp [manyFrom, hx, Cursor.extend]
  | cons y ys ih =>
      by_cases hy : accepts y = true
      · simp [manyFrom, hy, ih, Cursor.extend]
      · simp [manyFrom, hy, Cursor.extend]

namespace Regex

theorem run_whole {r : Regex} {b : Bool} {c d : Cursor} (hd : d ∈ r.run b c) :
    d.whole = c.whole := by
  induction r generalizing c d with
  | eps => simp_all [run]
  | cls accepts =>
      obtain ⟨lead, body, rest⟩ := c
      cases rest with
      | nil => simp [run] at hd
      | cons x xs =>
          by_cases hx : accepts x = true
          · simp only [run, hx, ↓reduceIte, List.mem_singleton] at hd
            simp [hd, Cursor.whole]
          · simp [run, hx] at hd
  | many accepts =>
      obtain ⟨w, -, hrest, hlead, hbody⟩ := mem_manyFrom.mp hd
      simp [Cursor.whole, hrest, hlead, hbody]
  | seq first second ih₁ ih₂ =>
      obtain ⟨e, he, hde⟩ := List.mem_flatMap.mp hd
      exact (ih₂ hde).trans (ih₁ he)
  | alt left right ih₁ ih₂ =>
      rcases List.mem_append.mp hd with hleft | hright
      · exact ih₁ hleft
      · exact ih₂ hright
  | keep => simp_all [run, Cursor.whole]
  | bol =>
      simp only [run] at hd
      split at hd <;> simp_all
  | eol =>
      simp only [run] at hd
      split at hd <;> simp_all

/-- The ends a plain pattern reaches are those its language allows. -/
theorem run_reaches_iff {r : Regex} (hplain : r.Plain) {b : Bool} {c : Cursor}
    {after : Text} :
    (∃ d ∈ r.run b c, d.rest = after) ↔
      ∃ w ∈ r.lang, c.rest = w ++ after := by
  induction r generalizing c after with
  | eps => simp [run, lang, Language.mem_one, eq_comm]
  | cls accepts =>
      obtain ⟨lead, body, rest⟩ := c
      cases rest with
      | nil =>
          simp only [run, List.not_mem_nil, false_and, exists_false, false_iff]
          rintro ⟨w, ⟨x, -, rfl⟩, hrest⟩
          simp at hrest
      | cons x xs =>
          constructor
          · rintro ⟨d, hd, rfl⟩
            by_cases hx : accepts x = true
            · simp only [run, hx, ↓reduceIte, List.mem_singleton] at hd
              exact ⟨[x], ⟨x, hx, rfl⟩, by simp [hd]⟩
            · simp [run, hx] at hd
          · rintro ⟨w, ⟨y, hy, rfl⟩, hrest⟩
            simp only [List.cons_append, List.nil_append,
              List.cons.injEq] at hrest
            obtain ⟨rfl, rfl⟩ := hrest
            exact ⟨⟨lead, body ++ [x], xs⟩, by simp [run, hy], rfl⟩
  | many accepts =>
      constructor
      · rintro ⟨d, hd, rfl⟩
        obtain ⟨w, hw, hrest, -⟩ := mem_manyFrom.mp hd
        exact ⟨w, hw, hrest⟩
      · rintro ⟨w, hw, hrest⟩
        exact ⟨⟨c.lead, c.body ++ w, after⟩,
          mem_manyFrom.mpr ⟨w, hw, hrest, rfl, rfl⟩, rfl⟩
  | seq first second ih₁ ih₂ =>
      constructor
      · rintro ⟨d, hd, rfl⟩
        obtain ⟨e, he, hde⟩ := List.mem_flatMap.mp hd
        obtain ⟨w₁, hw₁, hc⟩ := (ih₁ hplain.1).mp ⟨e, he, rfl⟩
        obtain ⟨w₂, hw₂, hrest⟩ := (ih₂ hplain.2).mp ⟨d, hde, rfl⟩
        exact ⟨w₁ ++ w₂, Language.append_mem_mul hw₁ hw₂,
          by rw [hc, hrest, List.append_assoc]⟩
      · rintro ⟨w, hw, hrest⟩
        obtain ⟨w₁, hw₁, w₂, hw₂, rfl⟩ := Language.mem_mul.mp hw
        rw [List.append_assoc] at hrest
        obtain ⟨e, he, herest⟩ := (ih₁ hplain.1).mpr ⟨w₁, hw₁, hrest⟩
        obtain ⟨d, hd, hdrest⟩ := (ih₂ hplain.2).mpr ⟨w₂, hw₂, herest⟩
        exact ⟨d, List.mem_flatMap.mpr ⟨e, he, hd⟩, hdrest⟩
  | alt left right ih₁ ih₂ =>
      constructor
      · rintro ⟨d, hd, rfl⟩
        rcases List.mem_append.mp hd with hleft | hright
        · obtain ⟨w, hw, hrest⟩ := (ih₁ hplain.1).mp ⟨d, hleft, rfl⟩
          exact ⟨w, Or.inl hw, hrest⟩
        · obtain ⟨w, hw, hrest⟩ := (ih₂ hplain.2).mp ⟨d, hright, rfl⟩
          exact ⟨w, Or.inr hw, hrest⟩
      · rintro ⟨w, hleft | hright, hrest⟩
        · obtain ⟨d, hd, hdrest⟩ := (ih₁ hplain.1).mpr ⟨w, hleft, hrest⟩
          exact ⟨d, List.mem_append.mpr (Or.inl hd), hdrest⟩
        · obtain ⟨d, hd, hdrest⟩ := (ih₂ hplain.2).mpr ⟨w, hright, hrest⟩
          exact ⟨d, List.mem_append.mpr (Or.inr hd), hdrest⟩
  | keep => simp [run, lang, Language.mem_one, eq_comm]
  | bol => exact hplain.elim
  | eol => exact hplain.elim

/-- A separator that no class accepts hides what comes after it. -/
theorem run_extend {r : Regex} {x : Char} (havoid : r.Avoids x) (b : Bool)
    (c : Cursor) (more : Text) :
    r.run b (c.extend (x :: more)) =
      (r.run b c).map (Cursor.extend (x :: more)) := by
  induction r generalizing c with
  | eps => simp [run]
  | cls accepts =>
      obtain ⟨lead, body, rest⟩ := c
      cases rest with
      | nil =>
          have hx : accepts x = false := havoid
          simp [run, Cursor.extend, hx]
      | cons y ys =>
          by_cases hy : accepts y = true
          · simp [run, Cursor.extend, hy]
          · simp [run, Cursor.extend, hy]
  | many accepts => exact manyFrom_extend havoid c.lead c.body c.rest more
  | seq first second ih₁ ih₂ =>
      simp only [run, ih₁ havoid.1, List.flatMap_map, ih₂ havoid.2,
        List.map_flatMap]
  | alt left right ih₁ ih₂ =>
      simp only [run, ih₁ havoid.1, ih₂ havoid.2, List.map_append]
  | keep => simp [run, Cursor.extend]
  | bol => exact havoid.elim
  | eol => exact havoid.elim

theorem run_lit_append (l : Text) (b : Bool) (lead body rest : Text) :
    (lit l).run b ⟨lead, body, l ++ rest⟩ = [⟨lead, body ++ l, rest⟩] := by
  induction l generalizing body with
  | nil => simp [lit, run]
  | cons c cs ih => simp [lit, run, ih]

theorem run_lit_elsewhere {l : Text} {c : Cursor} (h : ¬ l <+: c.rest)
    (b : Bool) : (lit l).run b c = [] := by
  induction l generalizing c with
  | nil => exact absurd (List.nil_prefix) h
  | cons x xs ih =>
      obtain ⟨lead, body, rest⟩ := c
      cases rest with
      | nil => simp [lit, run]
      | cons y ys =>
          by_cases hy : y = x
          · subst hy
            have htail : ¬ xs <+: ys := fun hp =>
              h (List.cons_prefix_cons.mpr ⟨rfl, hp⟩)
            simpa [lit, run] using ih (c := ⟨lead, body ++ [y], ys⟩) htail
          · simp [lit, run, hy]

/-- A run of characters that the next pattern cannot begin with. -/
theorem run_many_seq (accepts : Char → Bool) (next : Regex) (b : Bool)
    (hnext : ∀ lead body x xs, accepts x = true →
      next.run b ⟨lead, body, x :: xs⟩ = []) (c : Cursor) :
    (seq (many accepts) next).run b c = next.run b (c.skip accepts) := by
  simpa [run] using
    manyFrom_flatMap accepts (next.run b) hnext c.lead c.body c.rest

theorem run_many1_cons (accepts : Char → Bool) (b : Bool) (lead body : Text)
    (c : Char) (cs : Text) :
    (many1 accepts).run b ⟨lead, body, c :: cs⟩ =
      if accepts c then manyFrom accepts lead (body ++ [c]) cs else [] := by
  by_cases hc : accepts c = true
  · simp [many1, run, hc]
  · simp [many1, run, hc]

/-- A nonempty run of characters that the next pattern cannot begin with. -/
theorem run_many1_seq (accepts : Char → Bool) (next : Regex) (b : Bool)
    (hnext : ∀ lead body x xs, accepts x = true →
      next.run b ⟨lead, body, x :: xs⟩ = []) {w more : Text} (hw : w ≠ [])
    (hall : ∀ c ∈ w, accepts c = true) {x : Char} (hx : accepts x = false)
    (lead body : Text) :
    (seq (many1 accepts) next).run b ⟨lead, body, w ++ x :: more⟩ =
      next.run b ⟨lead, body ++ w, x :: more⟩ := by
  obtain ⟨c, cs, rfl⟩ := List.exists_cons_of_ne_nil hw
  have hc := hall c List.mem_cons_self
  have hcs : ∀ d ∈ cs, accepts d = true := fun d hd =>
    hall d (List.mem_cons_of_mem c hd)
  rw [run, List.cons_append, run_many1_cons, if_pos hc,
    manyFrom_flatMap accepts (next.run b) hnext]
  simp [Cursor.skip, List.takeWhile_append_of_pos hcs,
    List.dropWhile_append_of_pos hcs, hx]

theorem lang_lit (l : Text) : (lit l).lang = {l} := by
  induction l with
  | nil => rfl
  | cons c cs ih =>
      ext w
      simp only [lit, lang, ih]
      constructor
      · rintro ⟨u, ⟨x, hx, rfl⟩, v, rfl, rfl⟩
        obtain rfl : x = c := by simpa using hx
        rfl
      · rintro rfl
        exact ⟨[c], ⟨c, by simp, rfl⟩, cs, rfl, rfl⟩

theorem lit_plain (l : Text) : (lit l).Plain := by
  induction l with
  | nil => trivial
  | cons c cs ih => exact ⟨trivial, ih⟩

theorem lit_within {l : Text} {allowed : Char → Bool}
    (hl : ∀ c ∈ l, allowed c = true) : (lit l).within allowed = lit l := by
  induction l with
  | nil => rfl
  | cons c cs ih =>
      have hc := hl c List.mem_cons_self
      have hcls : (fun x : Char => (x == c) && allowed x) = (· == c) := by
        funext x
        by_cases hx : x = c
        · simp [hx, hc]
        · simp [hx]
      simp only [lit, within, hcls,
        ih fun x hmem => hl x (List.mem_cons_of_mem _ hmem)]

theorem dotted_plain (l : Text) : (dotted l).Plain := by
  induction l with
  | nil => trivial
  | cons c cs ih => exact ⟨trivial, ih⟩

/-- A text read as a pattern matches the texts of its length that agree with
it away from the dots. -/
theorem mem_lang_dotted {l w : Text} :
    w ∈ (dotted l).lang ↔ List.Forall₂ (fun c x => c = '.' ∨ x = c) l w := by
  induction l generalizing w with
  | nil => simp [dotted, lang, Language.mem_one]
  | cons c cs ih =>
      simp only [dotted, lang]
      constructor
      · rintro ⟨u, ⟨x, hx, rfl⟩, v, hv, rfl⟩
        exact List.Forall₂.cons (by simpa using hx) (ih.mp hv)
      · intro h
        cases h with
        | @cons _ x _ xs hx hxs =>
            exact ⟨[x], ⟨x, by simpa using hx, rfl⟩, xs, ih.mpr hxs, rfl⟩

theorem self_mem_lang_dotted (l : Text) : l ∈ (dotted l).lang := by
  rw [mem_lang_dotted, List.forall₂_same]
  exact fun _ _ => Or.inr rfl

end Regex

end TextTools
