/-
Searching a line.  `search` is what `grep` decides about a line; `scan` cuts
the line into the matches `grep -o` prints and `sed s///g` rewrites and the
characters both pass over.  A separator that the pattern cannot consume cuts
the search in two.
-/
import LivoxScripts.Text.Regex

namespace TextTools

/-- How a tool chooses among the matches at one position: `grep` and `sed`
take the longest one, `grep -P` the first one its backtracking finds. -/
inductive Flavor where
  | posix
  | perl
deriving DecidableEq, Repr

/-- The match with the shortest remainder, the earliest among equals. -/
def longest : List Cursor → Option Cursor
  | [] => none
  | c :: cs =>
      match longest cs with
      | none => some c
      | some d => if c.rest.length ≤ d.rest.length then some c else some d

def Flavor.pick : Flavor → List Cursor → Option Cursor
  | posix, cs => longest cs
  | perl, cs => cs.head?

/-- The chosen match at the front of `line`, if it reports any text. -/
def Regex.matchAt (f : Flavor) (r : Regex) (atStart : Bool) (line : Text) :
    Option Cursor :=
  f.pick ((r.run atStart (Cursor.start line)).filter fun d => !d.body.isEmpty)

/-- A piece of a scanned line: a character no match begins at, or a match with
the text before its `\K` and the text it reports. -/
inductive Piece where
  | skip (c : Char)
  | hit (lead body : Text)
deriving DecidableEq, Repr

/-- Leftmost matches that do not overlap.  The number counts the characters
that still belong to the last match. -/
def Regex.scan (f : Flavor) (r : Regex) : Bool → Nat → Text → List Piece
  | _, _, [] => []
  | _, n + 1, _ :: cs => r.scan f false n cs
  | atStart, 0, c :: cs =>
      match r.matchAt f atStart (c :: cs) with
      | some d =>
          .hit d.lead d.body ::
            r.scan f false (d.lead.length + d.body.length - 1) cs
      | none => .skip c :: r.scan f false 0 cs

/-- Whether the line contains a match. -/
def Regex.search (r : Regex) : Bool → Text → Bool
  | atStart, [] => !(r.run atStart (Cursor.start [])).isEmpty
  | atStart, c :: cs =>
      !(r.run atStart (Cursor.start (c :: cs))).isEmpty || r.search false cs

def Piece.reported : Piece → List Text
  | skip _ => []
  | hit _ body => [body]

/-- What a piece becomes when matches are replaced. -/
def Piece.replaced (replacement : Text) : Piece → Text
  | skip c => [c]
  | hit _ _ => replacement

/-- What `grep -o` prints for one line. -/
def Regex.onlyMatching (f : Flavor) (r : Regex) (line : Text) : List Text :=
  (r.scan f true 0 line).flatMap Piece.reported

/-- What `sed s/r/replacement/g` makes of one line. -/
def Regex.substitute (r : Regex) (replacement line : Text) : Text :=
  (r.scan .posix true 0 line).flatMap (Piece.replaced replacement)

/-- The text a piece was cut from. -/
def Piece.text : Piece → Text
  | skip c => [c]
  | hit lead body => lead ++ body

/-- A text no match begins in. -/
def passed (t : Text) : List Piece := t.map .skip

/-- Replace the first match only. -/
def replaceFirst (replacement : Text) : List Piece → Text
  | [] => []
  | .skip c :: ps => c :: replaceFirst replacement ps
  | .hit _ _ :: ps => replacement ++ ps.flatMap Piece.text

/-- What `sed s/r/replacement/` makes of one line. -/
def Regex.substituteFirst (r : Regex) (replacement line : Text) : Text :=
  replaceFirst replacement (r.scan .posix true 0 line)

@[simp] theorem passed_nil : passed [] = [] := rfl

@[simp] theorem passed_cons (c : Char) (cs : Text) :
    passed (c :: cs) = .skip c :: passed cs := rfl

@[simp] theorem passed_append (t u : Text) :
    passed (t ++ u) = passed t ++ passed u := List.map_append

@[simp] theorem flatMap_reported_passed (t : Text) :
    (passed t).flatMap Piece.reported = [] := by
  simp [passed, Piece.reported, List.flatMap_map]

@[simp] theorem flatMap_replaced_passed (replacement t : Text) :
    (passed t).flatMap (Piece.replaced replacement) = t := by
  simp [passed, Piece.replaced, List.flatMap_map]

theorem prefix_of_prefix_append_cons {x : Char} {w u v : Text} (hx : x ∉ w)
    (h : w <+: u ++ x :: v) : w <+: u := by
  induction u generalizing w with
  | nil =>
      cases w with
      | nil => exact List.nil_prefix
      | cons y ys =>
          obtain ⟨rfl, -⟩ := List.cons_prefix_cons.mp h
          simp at hx
  | cons c cs ih =>
      cases w with
      | nil => exact List.nil_prefix
      | cons y ys =>
          simp only [List.mem_cons, not_or] at hx
          obtain ⟨rfl, hys⟩ := List.cons_prefix_cons.mp h
          exact List.cons_prefix_cons.mpr ⟨rfl, ih hx.2 hys⟩

/-- A word without the separator stands on one side of it. -/
theorem infix_append_cons_iff {x : Char} {w u v : Text} (hx : x ∉ w) :
    w <:+: u ++ x :: v ↔ w <:+: u ∨ w <:+: v := by
  constructor
  · intro h
    induction u with
    | nil =>
        rcases List.infix_cons_iff.mp h with hpre | hin
        · have hnil := prefix_of_prefix_append_cons (u := []) hx hpre
          exact Or.inl hnil.isInfix
        · exact Or.inr hin
    | cons c cs ih =>
        rcases List.infix_cons_iff.mp h with hpre | hin
        · have hleft := prefix_of_prefix_append_cons (u := c :: cs) hx hpre
          exact Or.inl hleft.isInfix
        · exact (ih hin).imp_left fun hcs =>
            hcs.trans (List.suffix_cons c cs).isInfix
  · rintro (h | h)
    · exact h.trans (List.prefix_append u (x :: v)).isInfix
    · exact h.trans ((List.suffix_cons x v).trans
        (List.suffix_append u (x :: v))).isInfix

@[simp] theorem Flavor.pick_nil (f : Flavor) : f.pick [] = none := by
  cases f <;> rfl

@[simp] theorem Flavor.pick_singleton (f : Flavor) (c : Cursor) :
    f.pick [c] = some c := by
  cases f <;> rfl

theorem longest_mem {cs : List Cursor} {c : Cursor} (h : longest cs = some c) :
    c ∈ cs := by
  induction cs generalizing c with
  | nil => simp [longest] at h
  | cons x xs ih =>
      cases hxs : longest xs with
      | none => simp_all [longest]
      | some d =>
          simp only [longest, hxs] at h
          split at h
          · simp_all
          · obtain rfl := Option.some.inj h
            exact List.mem_cons_of_mem _ (ih hxs)

theorem Flavor.pick_mem {f : Flavor} {cs : List Cursor} {c : Cursor}
    (h : f.pick cs = some c) : c ∈ cs := by
  cases f with
  | posix => exact longest_mem h
  | perl => exact List.mem_of_mem_head? h

theorem longest_map_extend (cs : List Cursor) (more : Text) :
    longest (cs.map (Cursor.extend more)) =
      (longest cs).map (Cursor.extend more) := by
  induction cs with
  | nil => rfl
  | cons x xs ih =>
      simp only [List.map_cons, longest, ih]
      cases longest xs with
      | none => rfl
      | some d =>
          by_cases hle : x.rest.length ≤ d.rest.length
          · simp [hle, Cursor.extend]
          · simp [hle, Cursor.extend]

theorem Flavor.pick_map_extend (f : Flavor) (cs : List Cursor) (more : Text) :
    f.pick (cs.map (Cursor.extend more)) =
      (f.pick cs).map (Cursor.extend more) := by
  cases f with
  | posix => exact longest_map_extend cs more
  | perl => exact List.head?_map

theorem longest_cons_of_le {c : Cursor} {cs : List Cursor}
    (hle : ∀ d ∈ cs, c.rest.length ≤ d.rest.length) :
    longest (c :: cs) = some c := by
  cases hcs : longest cs with
  | none => simp [longest, hcs]
  | some d => simp [longest, hcs, hle d (longest_mem hcs)]

theorem manyFrom_head? (accepts : Char → Bool) (lead body rest : Text) :
    (manyFrom accepts lead body rest).head? =
      some (Cursor.skip accepts ⟨lead, body, rest⟩) := by
  induction rest generalizing body with
  | nil => simp [manyFrom, Cursor.skip]
  | cons x xs ih =>
      by_cases hx : accepts x = true
      · simp [manyFrom, hx, ih, Cursor.skip]
      · simp [manyFrom, hx, Cursor.skip]

/-- Both flavors repeat a class as often as they can. -/
theorem Flavor.pick_manyFrom (f : Flavor) (accepts : Char → Bool)
    (lead body rest : Text) :
    f.pick (manyFrom accepts lead body rest) =
      some (Cursor.skip accepts ⟨lead, body, rest⟩) := by
  have hhead := manyFrom_head? accepts lead body rest
  cases f with
  | perl => exact hhead
  | posix =>
      obtain ⟨others, hcs⟩ := List.head?_eq_some_iff.mp hhead
      change longest (manyFrom accepts lead body rest) = _
      rw [hcs]
      apply longest_cons_of_le
      intro d hd
      have hmem : d ∈ manyFrom accepts lead body rest := by simp [hcs, hd]
      obtain ⟨w, hw, rfl, -⟩ := mem_manyFrom.mp hmem
      have hdrop : (w ++ d.rest).dropWhile accepts =
          d.rest.dropWhile accepts := List.dropWhile_append_of_pos hw
      simp only [Cursor.skip, hdrop]
      exact (List.dropWhile_sublist accepts).length_le

namespace Regex

theorem matchAt_nil (f : Flavor) (r : Regex) (b : Bool) :
    r.matchAt f b [] = none := by
  have hempty : (r.run b (Cursor.start [])).filter
      (fun d => !d.body.isEmpty) = [] := by
    rw [List.filter_eq_nil_iff]
    intro d hd
    have hwhole := run_whole hd
    simp [Cursor.whole, Cursor.start] at hwhole
    simp [hwhole]
  simp [matchAt, hempty]

theorem matchAt_of_run_nil {r : Regex} {b : Bool} {line : Text}
    (h : r.run b (Cursor.start line) = []) (f : Flavor) :
    r.matchAt f b line = none := by
  simp [matchAt, h]

theorem matchAt_of_run_singleton {r : Regex} {b : Bool} {line : Text}
    {d : Cursor} (h : r.run b (Cursor.start line) = [d]) (hd : d.body ≠ [])
    (f : Flavor) : r.matchAt f b line = some d := by
  have hbody : d.body.isEmpty = false := by simpa using hd
  simp [matchAt, h, hbody]

/-- A match that ends in a repetition takes the whole run. -/
theorem pick_filter_manyFrom (f : Flavor) (accepts : Char → Bool)
    {lead body rest : Text} (hbody : body ≠ []) :
    f.pick ((manyFrom accepts lead body rest).filter
        fun d => !d.body.isEmpty) =
      some (Cursor.skip accepts ⟨lead, body, rest⟩) := by
  have hall : (manyFrom accepts lead body rest).filter
      (fun d => !d.body.isEmpty) = manyFrom accepts lead body rest := by
    rw [List.filter_eq_self]
    intro d hd
    obtain ⟨w, -, -, -, hdbody⟩ := mem_manyFrom.mp hd
    simp [hdbody, hbody]
  rw [hall, Flavor.pick_manyFrom]

theorem matchAt_whole {f : Flavor} {r : Regex} {b : Bool} {line : Text}
    {d : Cursor} (h : r.matchAt f b line = some d) :
    line = d.lead ++ (d.body ++ d.rest) ∧ d.body ≠ [] := by
  have hmem := Flavor.pick_mem h
  rw [List.mem_filter] at hmem
  exact ⟨by simpa [Cursor.whole, Cursor.start] using (run_whole hmem.1).symm,
    by simpa using hmem.2⟩

theorem matchAt_eq_none {r : Regex} (hplain : r.Plain) {line : Text}
    (h : ∀ w ∈ r.lang, ¬ w <+: line) (f : Flavor) (b : Bool) :
    r.matchAt f b line = none := by
  apply matchAt_of_run_nil
  rw [List.eq_nil_iff_forall_not_mem]
  intro d hd
  obtain ⟨w, hw, hrest⟩ := (run_reaches_iff hplain).mp ⟨d, hd, rfl⟩
  exact h w hw ⟨d.rest, hrest.symm⟩

theorem matchAt_plain {r : Regex} (hplain : r.Plain) (f : Flavor)
    (b b' : Bool) (line : Text) : r.matchAt f b line = r.matchAt f b' line := by
  simp only [matchAt, run_plain hplain b b']

theorem matchAt_append {r : Regex} {x : Char} (havoid : r.Avoids x)
    (f : Flavor) (b : Bool) (line more : Text) :
    r.matchAt f b (line ++ x :: more) =
      (r.matchAt f b line).map (Cursor.extend (x :: more)) := by
  have hrun : r.run b (Cursor.start (line ++ x :: more)) =
      (r.run b (Cursor.start line)).map (Cursor.extend (x :: more)) :=
    run_extend havoid b (Cursor.start line) more
  have hbody : ((fun d : Cursor => !d.body.isEmpty) ∘
      Cursor.extend (x :: more)) = fun d => !d.body.isEmpty := rfl
  rw [matchAt, hrun, List.filter_map, hbody, Flavor.pick_map_extend, matchAt]

theorem scan_plain {r : Regex} (hplain : r.Plain) (f : Flavor) (b b' : Bool)
    (n : Nat) (line : Text) : r.scan f b n line = r.scan f b' n line := by
  cases line with
  | nil => simp [scan]
  | cons c cs =>
      cases n with
      | zero => simp only [scan, matchAt_plain hplain f b b']
      | succ n => simp only [scan]

theorem scan_skip_append (f : Flavor) (r : Regex) (b : Bool)
    (taken line : Text) :
    r.scan f b taken.length (taken ++ line) =
      r.scan f (b && taken.isEmpty) 0 line := by
  induction taken generalizing b with
  | nil => simp
  | cons c cs ih => simp [scan, ih]

/-- One step of the scan where a match begins. -/
theorem scan_of_matchAt {f : Flavor} {r : Regex} {b : Bool} {line : Text}
    {d : Cursor} (h : r.matchAt f b line = some d) :
    r.scan f b 0 line = .hit d.lead d.body :: r.scan f false 0 d.rest := by
  obtain ⟨hline, hbody⟩ := matchAt_whole h
  cases line with
  | nil => simp [matchAt_nil] at h
  | cons c cs =>
      have hlen : (d.lead ++ d.body).length =
          d.lead.length + d.body.length := List.length_append
      cases htaken : d.lead ++ d.body with
      | nil => simp_all
      | cons y ys =>
          rw [← List.append_assoc, htaken, List.cons_append,
            List.cons.injEq] at hline
          obtain ⟨rfl, rfl⟩ := hline
          rw [htaken, List.length_cons] at hlen
          simp only [scan, h, ← hlen, Nat.add_sub_cancel]
          rw [scan_skip_append]
          simp

/-- A separator the pattern cannot consume splits the scan. -/
theorem scan_append {r : Regex} {x : Char} (havoid : r.Avoids x) (f : Flavor)
    (b : Bool) {n : Nat} (line more : Text) (hn : n ≤ line.length) :
    r.scan f b n (line ++ x :: more) =
      r.scan f b n line ++ .skip x :: r.scan f false 0 more := by
  induction line generalizing b n with
  | nil =>
      have hnone : r.matchAt f b (x :: more) = none := by
        simpa [matchAt_nil] using matchAt_append havoid f b [] more
      obtain rfl : n = 0 := by simpa using hn
      simp [scan, hnone]
  | cons c cs ih =>
      cases n with
      | succ n =>
          simp only [List.length_cons, Nat.add_le_add_iff_right] at hn
          simp [scan, ih false hn]
      | zero =>
          have hmatch := matchAt_append havoid f b (c :: cs) more
          rw [List.cons_append] at hmatch ⊢
          cases hd : r.matchAt f b (c :: cs) with
          | none =>
              rw [hd] at hmatch
              simp [scan, hmatch, hd, ih false (Nat.zero_le _)]
          | some d =>
              rw [hd] at hmatch
              have hlen : d.lead.length + d.body.length - 1 ≤ cs.length := by
                have := congrArg List.length (matchAt_whole hd).1
                simp only [List.length_cons, List.length_append] at this
                omega
              simp [scan, hmatch, hd, Cursor.extend, ih false hlen]

@[simp] theorem onlyMatching_nil (f : Flavor) (r : Regex) :
    r.onlyMatching f [] = [] := by
  simp [onlyMatching, scan]

theorem onlyMatching_append {r : Regex} {x : Char} (havoid : r.Avoids x)
    (f : Flavor) (line more : Text) :
    r.onlyMatching f (line ++ x :: more) =
      r.onlyMatching f line ++ r.onlyMatching f more := by
  simp only [onlyMatching, scan_append havoid f true line more (Nat.zero_le _),
    scan_plain havoid.plain f false true]
  simp [Piece.reported]

theorem substitute_append {r : Regex} {x : Char} (havoid : r.Avoids x)
    (replacement line more : Text) :
    r.substitute replacement (line ++ x :: more) =
      r.substitute replacement line ++ x :: r.substitute replacement more := by
  simp only [substitute, scan_append havoid .posix true line more
    (Nat.zero_le _), scan_plain havoid.plain .posix false true]
  simp [Piece.replaced]

theorem scan_eq_skips {r : Regex} (hplain : r.Plain) {line : Text}
    (h : ∀ w ∈ r.lang, ¬ w <:+: line) (f : Flavor) (b : Bool) :
    r.scan f b 0 line = passed line := by
  induction line generalizing b with
  | nil => simp [scan]
  | cons c cs ih =>
      have hnone : r.matchAt f b (c :: cs) = none :=
        matchAt_eq_none hplain
          (fun w hw hpre => h w hw hpre.isInfix) f b
      have htail : ∀ w ∈ r.lang, ¬ w <:+: cs := fun w hw hin =>
        h w hw (hin.trans (List.suffix_cons c cs).isInfix)
      simp [scan, hnone, ih htail]

/-- Every reported text was matched somewhere in the line. -/
theorem matchAt_of_mem_onlyMatching {r : Regex} {f : Flavor} {line m : Text}
    (hm : m ∈ r.onlyMatching f line) :
    ∃ b t d, t <:+ line ∧ r.matchAt f b t = some d ∧ d.body = m := by
  have hhit : ∀ (line : Text) (b : Bool) (n : Nat) (lead : Text),
      Piece.hit lead m ∈ r.scan f b n line →
        ∃ b t d, t <:+ line ∧ r.matchAt f b t = some d ∧ d.body = m := by
    intro line
    induction line with
    | nil => simp [scan]
    | cons c cs ih =>
        have hlater : ∀ n lead, Piece.hit lead m ∈ r.scan f false n cs →
            ∃ b t d, t <:+ c :: cs ∧ r.matchAt f b t = some d ∧
              d.body = m := by
          intro n lead hmem
          obtain ⟨b, t, d, ht, hd⟩ := ih false n lead hmem
          exact ⟨b, t, d, ht.trans (List.suffix_cons c cs), hd⟩
        intro b n lead hmem
        cases n with
        | succ n => exact hlater n lead hmem
        | zero =>
            cases hd : r.matchAt f b (c :: cs) with
            | none =>
                simp only [scan, hd, List.mem_cons, reduceCtorEq,
                  false_or] at hmem
                exact hlater 0 lead hmem
            | some d =>
                simp only [scan, hd, List.mem_cons, Piece.hit.injEq] at hmem
                rcases hmem with ⟨-, rfl⟩ | hmem
                · exact ⟨b, c :: cs, d, List.suffix_rfl, hd, rfl⟩
                · exact hlater _ lead hmem
  obtain ⟨piece, hpiece, hmem⟩ := List.mem_flatMap.mp hm
  cases piece with
  | skip c => simp [Piece.reported] at hmem
  | hit lead body =>
      obtain rfl : m = body := by simpa [Piece.reported] using hmem
      exact hhit line true 0 lead hpiece

theorem isInfix_of_mem_onlyMatching {r : Regex} {f : Flavor} {line m : Text}
    (hm : m ∈ r.onlyMatching f line) : m <:+: line := by
  obtain ⟨b, t, d, ht, hd, rfl⟩ := matchAt_of_mem_onlyMatching hm
  have hinfix : d.body <:+: t := ⟨d.lead, d.rest, by
    rw [(matchAt_whole hd).1, List.append_assoc]⟩
  exact hinfix.trans ht.isInfix

/-- What is reported is the end of a word of the pattern's language. -/
theorem mem_lang_of_mem_onlyMatching {r : Regex} (hplain : r.Plain)
    {f : Flavor} {line m : Text} (hm : m ∈ r.onlyMatching f line) :
    m ≠ [] ∧ ∃ lead, lead ++ m ∈ r.lang := by
  obtain ⟨b, t, d, -, hd, rfl⟩ := matchAt_of_mem_onlyMatching hm
  obtain ⟨hwhole, hbody⟩ := matchAt_whole hd
  have hrun := (List.mem_filter.mp (Flavor.pick_mem hd)).1
  obtain ⟨w, hw, hrest⟩ := (run_reaches_iff hplain).mp ⟨d, hrun, rfl⟩
  rw [Cursor.start, hwhole, ← List.append_assoc] at hrest
  exact ⟨hbody, d.lead, List.append_cancel_right hrest ▸ hw⟩

/-- A pattern without `\K`: it reports its matches whole. -/
def Unkept : Regex → Prop
  | seq first second => first.Unkept ∧ second.Unkept
  | alt left right => left.Unkept ∧ right.Unkept
  | keep => False
  | _ => True

theorem lit_unkept (t : Text) : (lit t).Unkept := by
  induction t with
  | nil => trivial
  | cons c cs ih => exact ⟨trivial, ih⟩

theorem Unkept.run_lead {r : Regex} (h : r.Unkept) {b : Bool} {c d : Cursor}
    (hd : d ∈ r.run b c) : d.lead = c.lead := by
  induction r generalizing c d with
  | eps => rw [List.mem_singleton.mp hd]
  | cls accepts =>
      obtain ⟨lead, body, rest⟩ := c
      cases rest with
      | nil => simp [run] at hd
      | cons x xs =>
          by_cases hx : accepts x = true
          · simp only [run, hx, ↓reduceIte, List.mem_singleton] at hd
            rw [hd]
          · simp [run, hx] at hd
  | many accepts =>
      obtain ⟨-, -, -, hlead, -⟩ := mem_manyFrom.mp hd
      exact hlead
  | seq first second ih₁ ih₂ =>
      obtain ⟨e, he, hde⟩ := List.mem_flatMap.mp hd
      exact (ih₂ h.2 hde).trans (ih₁ h.1 he)
  | alt left right ih₁ ih₂ =>
      rcases List.mem_append.mp hd with hleft | hright
      · exact ih₁ h.1 hleft
      · exact ih₂ h.2 hright
  | keep => exact h.elim
  | bol =>
      simp only [run] at hd
      split at hd
      · rw [List.mem_singleton.mp hd]
      · simp at hd
  | eol =>
      simp only [run] at hd
      split at hd
      · rw [List.mem_singleton.mp hd]
      · simp at hd

/-- What is reported without `\K` is a word of the pattern's language. -/
theorem Unkept.mem_lang {r : Regex} (h : r.Unkept) (hplain : r.Plain)
    {f : Flavor} {line m : Text} (hm : m ∈ r.onlyMatching f line) :
    m ∈ r.lang := by
  obtain ⟨b, t, d, -, hd, rfl⟩ := matchAt_of_mem_onlyMatching hm
  have hrun := (List.mem_filter.mp (Flavor.pick_mem hd)).1
  have hlead : d.lead = [] := h.run_lead hrun
  obtain ⟨w, hw, hrest⟩ := (run_reaches_iff hplain).mp ⟨d, hrun, rfl⟩
  have hwhole := (matchAt_whole hd).1
  rw [Cursor.start, hwhole, hlead, List.nil_append] at hrest
  exact List.append_cancel_right hrest ▸ hw

/-- No match begins in `u`, whatever it would run into. -/
theorem scan_passed {f : Flavor} {r : Regex} {u more : Text}
    (h : ∀ t, t <:+ u → t ≠ [] → r.matchAt f false (t ++ more) = none) :
    r.scan f false 0 (u ++ more) = passed u ++ r.scan f false 0 more := by
  induction u with
  | nil => rfl
  | cons c cs ih =>
      have hnone := h (c :: cs) List.suffix_rfl (by simp)
      have htail := ih fun t ht => h t (ht.trans (List.suffix_cons c cs))
      rw [List.cons_append] at hnone ⊢
      simp [scan, hnone, htail]

theorem onlyMatching_eq_nil {r : Regex} (hplain : r.Plain) {line : Text}
    (h : ∀ w ∈ r.lang, ¬ w <:+: line) (f : Flavor) :
    r.onlyMatching f line = [] := by
  rw [onlyMatching, scan_eq_skips hplain h, flatMap_reported_passed]

/-- `grep` selects the lines that contain a word of the pattern's language. -/
theorem search_iff {r : Regex} (hplain : r.Plain) {b : Bool} {line : Text} :
    r.search b line = true ↔ ∃ w ∈ r.lang, w <:+: line := by
  have hhere : ∀ (b : Bool) (line : Text),
      (!(r.run b (Cursor.start line)).isEmpty) = true ↔
        ∃ w ∈ r.lang, w <+: line := by
    intro b line
    rw [Bool.not_eq_true', List.isEmpty_eq_false_iff_exists_mem]
    constructor
    · rintro ⟨d, hd⟩
      obtain ⟨w, hw, hrest⟩ := (run_reaches_iff hplain).mp ⟨d, hd, rfl⟩
      exact ⟨w, hw, d.rest, hrest.symm⟩
    · rintro ⟨w, hw, after, hafter⟩
      obtain ⟨d, hd, -⟩ := (run_reaches_iff (b := b)
        (c := Cursor.start line) hplain).mpr ⟨w, hw, hafter.symm⟩
      exact ⟨d, hd⟩
  induction line generalizing b with
  | nil =>
      rw [search, hhere]
      simp [List.infix_nil, List.prefix_nil]
  | cons c cs ih =>
      rw [search, Bool.or_eq_true, hhere]
      refine (or_congr_right (@ih false)).trans ?_
      constructor
      · rintro (⟨w, hw, hpre⟩ | ⟨w, hw, hin⟩)
        · exact ⟨w, hw, hpre.isInfix⟩
        · exact ⟨w, hw, hin.trans (List.suffix_cons c cs).isInfix⟩
      · rintro ⟨w, hw, hin⟩
        rcases List.infix_cons_iff.mp hin with hpre | hin
        · exact Or.inl ⟨w, hw, hpre⟩
        · exact Or.inr ⟨w, hw, hin⟩

theorem search_alt (left right : Regex) (b : Bool) (line : Text) :
    (alt left right).search b line =
      (left.search b line || right.search b line) := by
  have hempty : ∀ b c, ((alt left right).run b c).isEmpty =
      ((left.run b c).isEmpty && (right.run b c).isEmpty) := by
    intro b c
    rw [run]
    cases left.run b c <;> rfl
  induction line generalizing b with
  | nil => simp only [search, hempty, Bool.not_and]
  | cons c cs ih =>
      simp only [search, ih false, hempty, Bool.not_and]
      ac_rfl

/-- An anchored text is only looked for at the beginning of the line. -/
theorem search_bol_lit {l line : Text} :
    (seq bol (lit l)).search true line = true ↔ l <+: line := by
  have hlater : ∀ cs, (seq bol (lit l)).search false cs = false := by
    intro cs
    induction cs with
    | nil => simp [search, run]
    | cons c cs ih => simp [search, run, ih]
  have hrun : (seq bol (lit l)).run true (Cursor.start line) =
      (lit l).run true (Cursor.start line) := by
    simp [run, Cursor.start]
  have hhere : (seq bol (lit l)).search true line =
      !((lit l).run true (Cursor.start line)).isEmpty := by
    cases line with
    | nil => rw [search, hrun]
    | cons c cs => rw [search, hrun, hlater, Bool.or_false]
  rw [hhere, Bool.not_eq_true', List.isEmpty_eq_false_iff]
  constructor
  · intro h
    by_contra hpre
    exact h (run_lit_elsewhere hpre true)
  · rintro ⟨more, rfl⟩
    simp [Cursor.start, run_lit_append]

theorem search_lit {l : Text} {b : Bool} {line : Text} :
    (lit l).search b line = true ↔ l <:+: line := by
  rw [search_iff (lit_plain l), lang_lit]
  constructor
  · rintro ⟨w, rfl, hin⟩
    exact hin
  · intro hin
    exact ⟨l, rfl, hin⟩

end Regex

end TextTools
