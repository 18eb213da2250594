/-
Dotted quads, and the pattern `\d+\.\d+\.\d+\.\d+` by which the scripts find
them in a line.
-/
import Mathlib.Data.List.Chain
import LivoxScripts.Text.Filters

namespace LivoxScripts

open TextTools

/-- A decimal field of an address, as it is written. -/
abbrev Octet := { t : Text // t ≠ [] ∧ ∀ c ∈ t, c.isDigit = true }

/-- A dotted quad.  The size of its fields plays no part in the scripts. -/
structure Quad where
  first : Octet
  second : Octet
  third : Octet
  fourth : Octet
deriving DecidableEq

/-- A field without leading zeros. -/
def octet (n : Nat) : Octet :=
  ⟨Nat.toDigits 10 n, Nat.toDigits_ne_nil, fun _ hc =>
    Nat.isDigit_of_mem_toDigits (by decide) (by decide) hc⟩

def quad (a b c d : Nat) : Quad := ⟨octet a, octet b, octet c, octet d⟩

def Quad.text (q : Quad) : Text :=
  q.first.1 ++ '.' :: (q.second.1 ++ '.' :: (q.third.1 ++ '.' :: q.fourth.1))

/-- `[0-9.]` and `[\d.]` -/
def isAddressChar (c : Char) : Bool := c.isDigit || c == '.'

/-- A field of digits and the dot after it. -/
def digitsDot (next : Regex) : Regex :=
  .seq (.many1 Char.isDigit) (.seq (.lit ['.']) next)

/-- `\d+\.\d+\.\d+\.\d+` -/
def quadPattern : Regex :=
  digitsDot (digitsDot (digitsDot (.many1 Char.isDigit)))

theorem isAddressChar_of_mem {q : Quad} {c : Char} (hc : c ∈ q.text) :
    isAddressChar c = true := by
  have hdigit : ∀ o : Octet, c ∈ o.1 → isAddressChar c = true := by
    intro o hmem
    simp [isAddressChar, o.2.2 c hmem]
  simp only [Quad.text, List.mem_append, List.mem_cons] at hc
  rcases hc with h | rfl | h | rfl | h | rfl | h
  · exact hdigit _ h
  · rfl
  · exact hdigit _ h
  · rfl
  · exact hdigit _ h
  · rfl
  · exact hdigit _ h

theorem not_mem_text {c : Char} (hc : isAddressChar c = false) (q : Quad) :
    c ∉ q.text := fun hmem => by
  simp [isAddressChar_of_mem hmem] at hc

theorem Quad.text_ne_nil (q : Quad) : q.text ≠ [] := by
  simp [Quad.text]

theorem dot_not_mem_octet (o : Octet) : '.' ∉ o.1 := fun hmem =>
  absurd (o.2.2 '.' hmem) (by decide)

/-- The first field ends at the first dot. -/
theorem octet_append_injective {o o' : Octet} {t t' : Text}
    (h : o.1 ++ '.' :: t = o'.1 ++ '.' :: t') : o = o' ∧ t = t' := by
  have hsplit : ∀ (o : Octet) (t : Text),
      (o.1 ++ '.' :: t).takeWhile Char.isDigit = o.1 ∧
        (o.1 ++ '.' :: t).dropWhile Char.isDigit = '.' :: t := by
    intro o t
    simp [List.takeWhile_append_of_pos o.2.2,
      List.dropWhile_append_of_pos o.2.2, show ('.').isDigit = false by decide]
  have htake := (hsplit o t).1.symm.trans (h ▸ (hsplit o' t').1)
  have hdrop := (hsplit o t).2.symm.trans (h ▸ (hsplit o' t').2)
  exact ⟨Subtype.ext htake, (List.cons.inj hdrop).2⟩

theorem Quad.text_injective {q q' : Quad} (h : q.text = q'.text) : q = q' := by
  obtain ⟨hfirst, h⟩ := octet_append_injective h
  obtain ⟨hsecond, h⟩ := octet_append_injective h
  obtain ⟨hthird, h⟩ := octet_append_injective h
  cases q
  cases q'
  simp only [Quad.mk.injEq]
  exact ⟨hfirst, hsecond, hthird, Subtype.ext h⟩

theorem quadPattern_avoids {c : Char} (hc : isAddressChar c = false) :
    quadPattern.Avoids c := by
  simp only [isAddressChar, Bool.or_eq_false_iff] at hc
  have hdot : ∀ next : Regex, next.Avoids c → (digitsDot next).Avoids c :=
    fun next hnext => ⟨⟨hc.1, hc.1⟩, ⟨hc.2, trivial⟩, hnext⟩
  exact hdot _ (hdot _ (hdot _ ⟨hc.1, hc.1⟩))

theorem quadPattern_plain : quadPattern.Plain :=
  (quadPattern_avoids (c := ' ') (by decide)).plain

theorem run_digitsDot (o : Octet) (next : Regex) (b : Bool)
    (lead body more : Text) :
    (digitsDot next).run b ⟨lead, body, o.1 ++ '.' :: more⟩ =
      next.run b ⟨lead, body ++ (o.1 ++ ['.']), more⟩ := by
  have hdot : ∀ lead body x xs, Char.isDigit x = true →
      (Regex.seq (.lit ['.']) next).run b ⟨lead, body, x :: xs⟩ = [] := by
    intro lead body x xs hx
    have hne : x ≠ '.' := by
      rintro rfl
      exact absurd hx (by decide)
    simp [Regex.run, Regex.lit, hne]
  rw [digitsDot, Regex.run_many1_seq Char.isDigit _ b hdot o.2.1 o.2.2
    (by decide)]
  simp [Regex.run, Regex.lit]

/-- At an address the pattern crosses the first three fields in one way. -/
theorem run_quadPattern (q : Quad) (b : Bool) (lead body more : Text) :
    quadPattern.run b ⟨lead, body, q.text ++ more⟩ =
      (Regex.many1 Char.isDigit).run b
        ⟨lead, body ++ (q.first.1 ++ '.' :: (q.second.1 ++ '.' ::
          (q.third.1 ++ ['.']))), q.fourth.1 ++ more⟩ := by
  simp only [quadPattern, Quad.text, List.append_assoc, List.cons_append,
    run_digitsDot, List.nil_append]

theorem matchAt_quad (f : Flavor) (q : Quad) (b : Bool) :
    quadPattern.matchAt f b q.text = some ⟨[], q.text, []⟩ := by
  obtain ⟨c, cs, hcs⟩ := List.exists_cons_of_ne_nil q.fourth.2.1
  have hdigits := hcs ▸ q.fourth.2.2
  have hc := hdigits c List.mem_cons_self
  have hall : ∀ d ∈ cs, d.isDigit = true := fun d hd =>
    hdigits d (List.mem_cons_of_mem c hd)
  have hrun := run_quadPattern q b [] [] []
  rw [List.append_nil, List.append_nil, hcs, Regex.run_many1_cons,
    if_pos hc] at hrun
  rw [Regex.matchAt, Cursor.start, hrun, Regex.pick_filter_manyFrom f _
    (by simp)]
  have htake : cs.takeWhile Char.isDigit = cs :=
    List.takeWhile_eq_self_iff.mpr hall
  have hdrop : cs.dropWhile Char.isDigit = [] :=
    List.dropWhile_eq_nil_iff.mpr hall
  simp [Cursor.skip, htake, hdrop, Quad.text, hcs]

/-- `grep -o` prints an address that stands alone whole. -/
theorem onlyMatching_quad (f : Flavor) (q : Quad) :
    quadPattern.onlyMatching f q.text = [q.text] := by
  rw [Regex.onlyMatching, Regex.scan_of_matchAt (matchAt_quad f q true)]
  simp [Regex.scan, Piece.reported]

/-- The pattern matches exactly the texts of addresses. -/
theorem mem_lang_quadPattern {w : Text} :
    w ∈ quadPattern.lang ↔ ∃ q : Quad, w = q.text := by
  have hdigits : ∀ w : Text, w ∈ (Regex.many1 Char.isDigit).lang ↔
      ∃ o : Octet, w = o.1 := by
    intro w
    constructor
    · rintro ⟨u, ⟨c, hc, rfl⟩, v, hv, rfl⟩
      refine ⟨⟨[c] ++ v, by simp, ?_⟩, rfl⟩
      intro d hd
      rcases List.mem_append.mp hd with hd | hd
      · exact (List.mem_singleton.mp hd) ▸ hc
      · exact hv d hd
    · rintro ⟨⟨w, hne, hall⟩, rfl⟩
      obtain ⟨c, cs, rfl⟩ := List.exists_cons_of_ne_nil hne
      exact ⟨[c], ⟨c, hall c List.mem_cons_self, rfl⟩, cs,
        fun d hd => hall d (List.mem_cons_of_mem c hd), rfl⟩
  have hdot : ∀ (next : Regex) (w : Text), w ∈ (digitsDot next).lang ↔
      ∃ (o : Octet) (v : Text), v ∈ next.lang ∧ w = o.1 ++ '.' :: v := by
    intro next w
    simp only [digitsDot, Regex.lang, Language.mem_mul, hdigits,
      Regex.lang_lit]
    constructor
    · rintro ⟨u, ⟨o, rfl⟩, v, ⟨d, rfl, v', hv', rfl⟩, rfl⟩
      exact ⟨o, v', hv', rfl⟩
    · rintro ⟨o, v, hv, rfl⟩
      exact ⟨o.1, ⟨o, rfl⟩, '.' :: v, ⟨['.'], rfl, v, hv, rfl⟩, rfl⟩
  simp only [quadPattern, hdot, hdigits]
  constructor
  · rintro ⟨a, _, ⟨b, _, ⟨c, _, ⟨d, rfl⟩, rfl⟩, rfl⟩, rfl⟩
    exact ⟨⟨a, b, c, d⟩, rfl⟩
  · rintro ⟨q, rfl⟩
    exact ⟨_, _, ⟨_, _, ⟨_, _, ⟨_, rfl⟩, rfl⟩, rfl⟩, rfl⟩

theorem quadPattern_unkept : quadPattern.Unkept := by
  have hdot : ∀ next : Regex, next.Unkept → (digitsDot next).Unkept :=
    fun next hnext => ⟨⟨trivial, trivial⟩, Regex.lit_unkept _, hnext⟩
  exact hdot _ (hdot _ (hdot _ ⟨trivial, trivial⟩))

/-- Whatever `grep -o` prints for the pattern is an address. -/
theorem exists_quad_of_mem_onlyMatching {f : Flavor} {line m : Text}
    (hm : m ∈ quadPattern.onlyMatching f line) : ∃ q : Quad, m = q.text :=
  mem_lang_quadPattern.mp (quadPattern_unkept.mem_lang quadPattern_plain hm)

def isOctet (t : Text) : Bool := !t.isEmpty && t.all Char.isDigit

theorem isOctet_iff {t : Text} :
    isOctet t = true ↔ t ≠ [] ∧ ∀ c ∈ t, c.isDigit = true := by
  simp [isOctet]

def octet? (t : Text) : Option Octet :=
  if h : isOctet t = true then some ⟨t, isOctet_iff.mp h⟩ else none

/-- The address a text spells, if it spells one. -/
def quad? (t : Text) : Option Quad :=
  match t.splitOn '.' with
  | [a, b, c, d] =>
      match octet? a, octet? b, octet? c, octet? d with
      | some a, some b, some c, some d => some ⟨a, b, c, d⟩
      | _, _, _, _ => none
  | _ => none

theorem octet?_val (o : Octet) : octet? o.1 = some o :=
  dif_pos (isOctet_iff.mpr o.2)

theorem quad?_text (q : Quad) : quad? q.text = some q := by
  have hsplit : q.text.splitOn '.' =
      [q.first.1, q.second.1, q.third.1, q.fourth.1] := by
    rw [Quad.text,
      List.splitOn_append_cons_self_of_not_mem (dot_not_mem_octet _),
      List.splitOn_append_cons_self_of_not_mem (dot_not_mem_octet _),
      List.splitOn_append_cons_self_of_not_mem (dot_not_mem_octet _),
      List.splitOn_eq_singleton (dot_not_mem_octet _)]
  rw [quad?, hsplit]
  simp only [octet?_val]

/-- The text contains no address. -/
def NoQuad (t : Text) : Prop := ∀ q : Quad, ¬ q.text <:+: t

theorem onlyMatching_of_noQuad {t : Text} (h : NoQuad t) (f : Flavor) :
    quadPattern.onlyMatching f t = [] := by
  apply Regex.onlyMatching_eq_nil quadPattern_plain
  intro w hw
  obtain ⟨q, rfl⟩ := mem_lang_quadPattern.mp hw
  exact h q

/-- Addresses do not reach over a character that is not theirs. -/
theorem onlyMatching_quad_append {c : Char} (hc : isAddressChar c = false)
    (f : Flavor) (t u : Text) :
    quadPattern.onlyMatching f (t ++ c :: u) =
      quadPattern.onlyMatching f t ++ quadPattern.onlyMatching f u :=
  Regex.onlyMatching_append (quadPattern_avoids hc) f t u

/-- Text without address characters before an address does not matter. -/
theorem onlyMatching_quad_skip {u : Text}
    (hu : ∀ c ∈ u, isAddressChar c = false) (f : Flavor) (t : Text) :
    quadPattern.onlyMatching f (u ++ t) = quadPattern.onlyMatching f t := by
  induction u with
  | nil => rfl
  | cons c cs ih =>
      have hc := onlyMatching_quad_append (hu c List.mem_cons_self) f []
        (cs ++ t)
      have hcs := ih fun d hd => hu d (List.mem_cons_of_mem c hd)
      rw [List.nil_append, Regex.onlyMatching_nil, List.nil_append] at hc
      rw [List.cons_append, hc, hcs]

theorem noQuad_of_no_dot {t : Text} (h : '.' ∉ t) : NoQuad t := by
  intro q hq
  exact h (hq.subset (by simp [Quad.text]))

/-- The text holds the address when any character may stand for its dots. -/
def Resembles (address : Quad) (t : Text) : Prop :=
  ∃ w, w <:+: t ∧
    List.Forall₂ (fun c x => c = '.' ∨ x = c) address.text w

theorem search_dotted {q : Quad} {b : Bool} {t : Text} :
    (Regex.dotted q.text).search b t = true ↔ Resembles q t := by
  simp only [Regex.search_iff (Regex.dotted_plain _), Regex.mem_lang_dotted,
    Resembles, and_comm]

instance (q : Quad) : DecidablePred (Resembles q) := fun t =>
  decidable_of_iff ((Regex.dotted q.text).search true t = true) search_dotted

/-- One of two neighbours is a digit. -/
def NextToDigit (x y : Char) : Prop := x.isDigit = true ∨ y.isDigit = true

/-- A text with digits at its ends and no two neighbours that are none. -/
structure Dense (w : Text) : Prop where
  nonempty : w ≠ []
  chain : w.IsChain NextToDigit
  first : ∀ x ∈ w.head?, x.isDigit = true
  last : ∀ x ∈ w.getLast?, x.isDigit = true

theorem dense_octet (o : Octet) : Dense o.1 where
  nonempty := o.2.1
  chain := (List.pairwise_of_forall_mem_list fun x hx _ _ =>
    Or.inl (o.2.2 x hx)).isChain
  first x hx := o.2.2 x (List.mem_of_mem_head? hx)
  last x hx := o.2.2 x (List.mem_of_getLast? hx)

theorem Dense.append_cons {w v : Text} (hw : Dense w) (hv : Dense v)
    (c : Char) : Dense (w ++ c :: v) := by
  obtain ⟨d, ds, rfl⟩ := List.exists_cons_of_ne_nil hv.nonempty
  have hd : d.isDigit = true := hv.first d rfl
  refine ⟨by simp, ?_, ?_, ?_⟩
  · rw [List.isChain_append]
    refine ⟨hw.chain, List.isChain_cons_cons.mpr ⟨Or.inr hd, hv.chain⟩, ?_⟩
    intro x hx _ _
    exact Or.inl (hw.last x hx)
  · rw [List.head?_append_of_ne_nil _ hw.nonempty]
    exact hw.first
  · intro x hx
    apply hv.last x
    simpa [List.getLast?_append, List.getLast?_cons] using hx

/-- Two neighbours that are no digits cut a text in two. -/
theorem Dense.infix_gap_iff {w u v : Text} (hw : Dense w) {x y : Char}
    (hx : x.isDigit = false) (hy : y.isDigit = false) :
    w <:+: u ++ x :: y :: v ↔ w <:+: u ∨ w <:+: v := by
  have hend : ∀ s : Text, w ≠ s ++ [x] := by
    rintro s rfl
    simp [hw.last x (by simp)] at hx
  have hstart : ∀ s : Text, w ≠ y :: s := by
    rintro s rfl
    simp [hw.first y (by simp)] at hy
  constructor
  · intro h
    have hsplit : u ++ x :: y :: v = (u ++ [x]) ++ (y :: v) := by simp
    rw [hsplit] at h
    rcases List.infix_append_iff_ne_nil.mp h with
      h | h | ⟨w₁, w₂, hne₁, hne₂, hword, hsuffix, hprefix⟩
    · rcases List.infix_concat_iff.mp h with hsuffix | h
      · rcases List.suffix_concat_iff.mp hsuffix with hnil | ⟨s, hs, -⟩
        · exact absurd hnil hw.nonempty
        · exact absurd hs (hend s)
      · exact Or.inl h
    · rcases List.infix_cons_iff.mp h with hprefix | h
      · rcases List.prefix_cons_iff.mp hprefix with hnil | ⟨s, hs, -⟩
        · exact absurd hnil hw.nonempty
        · exact absurd hs (hstart s)
      · exact Or.inr h
    · rcases List.suffix_concat_iff.mp hsuffix with hnil | ⟨s₁, rfl, -⟩
      · exact absurd hnil hne₁
      rcases List.prefix_cons_iff.mp hprefix with hnil | ⟨s₂, rfl, -⟩
      · exact absurd hnil hne₂
      -- The word would have both neighbours in its middle.
      have hchain := hw.chain
      rw [hword, List.append_assoc, List.singleton_append,
        List.isChain_append_cons_cons] at hchain
      rcases hchain.2.1 with h | h
      · simp [h] at hx
      · simp [h] at hy
  · rintro (h | h)
    · exact h.trans (List.prefix_append u (x :: y :: v)).isInfix
    · exact h.trans (List.IsInfix.trans ⟨[x, y], [], by simp⟩
        (List.suffix_append u (x :: y :: v)).isInfix)

/-- The digits of an address only match themselves. -/
theorem forall₂_digits {o t w : Text} (ho : ∀ c ∈ o, c.isDigit = true)
    (h : List.Forall₂ (fun c x => c = '.' ∨ x = c) (o ++ t) w) :
    ∃ v, w = o ++ v ∧ List.Forall₂ (fun c x => c = '.' ∨ x = c) t v := by
  induction o generalizing w with
  | nil => exact ⟨w, rfl, h⟩
  | cons c cs ih =>
      obtain ⟨x, xs, hx, hxs, rfl⟩ := List.forall₂_cons_left_iff.mp h
      obtain ⟨v, rfl, hv⟩ := ih (fun d hd => ho d (List.mem_cons_of_mem c hd))
        hxs
      have hdot : c ≠ '.' := by
        rintro rfl
        exact absurd (ho '.' List.mem_cons_self) (by decide)
      have hc : x = c := hx.resolve_left hdot
      exact ⟨v, by rw [hc, List.cons_append], hv⟩

theorem forall₂_field {o : Octet} {t w : Text}
    (h : List.Forall₂ (fun c x => c = '.' ∨ x = c) (o.1 ++ '.' :: t) w) :
    ∃ x v, w = o.1 ++ x :: v ∧
      List.Forall₂ (fun c x => c = '.' ∨ x = c) t v := by
  obtain ⟨v, rfl, hv⟩ := forall₂_digits o.2.2 h
  obtain ⟨x, xs, -, hxs, rfl⟩ := List.forall₂_cons_left_iff.mp hv
  exact ⟨x, xs, rfl, hxs⟩

theorem dense_of_forall₂ {q : Quad} {w : Text}
    (h : List.Forall₂ (fun c x => c = '.' ∨ x = c) q.text w) : Dense w := by
  obtain ⟨x, w₁, rfl, h₁⟩ := forall₂_field h
  obtain ⟨y, w₂, rfl, h₂⟩ := forall₂_field h₁
  obtain ⟨z, w₃, rfl, h₃⟩ := forall₂_field h₂
  rw [← List.append_nil q.fourth.1] at h₃
  obtain ⟨v, rfl, hv⟩ := forall₂_digits q.fourth.2.2 h₃
  obtain rfl := List.forall₂_nil_left_iff.mp hv
  rw [List.append_nil]
  exact (dense_octet _).append_cons ((dense_octet _).append_cons
    ((dense_octet _).append_cons (dense_octet _) z) y) x

theorem resembles_gap_iff {q : Quad} {x y : Char} (hx : x.isDigit = false)
    (hy : y.isDigit = false) (u v : Text) :
    Resembles q (u ++ x :: y :: v) ↔ Resembles q u ∨ Resembles q v := by
  constructor
  · rintro ⟨w, hw, hmatch⟩
    rcases ((dense_of_forall₂ hmatch).infix_gap_iff hx hy).mp hw with h | h
    · exact Or.inl ⟨w, h, hmatch⟩
    · exact Or.inr ⟨w, h, hmatch⟩
  · rintro (⟨w, hw, hmatch⟩ | ⟨w, hw, hmatch⟩)
    · exact ⟨w, ((dense_of_forall₂ hmatch).infix_gap_iff hx hy).mpr
        (Or.inl hw), hmatch⟩
    · exact ⟨w, ((dense_of_forall₂ hmatch).infix_gap_iff hx hy).mpr
        (Or.inr hw), hmatch⟩

theorem not_resembles_of_no_digit {q : Quad} {t : Text}
    (ht : (t.all fun c => !c.isDigit) = true) : ¬ Resembles q t := by
  rintro ⟨w, hw, hmatch⟩
  have hdense := dense_of_forall₂ hmatch
  obtain ⟨c, cs, rfl⟩ := List.exists_cons_of_ne_nil hdense.nonempty
  have hc := List.all_eq_true.mp ht c (hw.subset List.mem_cons_self)
  simp [hdense.first c rfl] at hc

end LivoxScripts
