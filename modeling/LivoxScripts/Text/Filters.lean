/-
The text filters a shell script joins with pipes.  A filter maps the text on
its standard input to the text on its standard output; line-oriented filters
see the text as a list of lines.
-/
import Mathlib.Data.List.DropRight
import LivoxScripts.Text.Scan

namespace TextTools

/-- The lines of a text.  An unterminated last line counts, an empty rest
after the last newline does not. -/
def lines : Text → List Text
  | [] => []
  | c :: cs =>
      if c = '\n' then [] :: lines cs
      else
        match lines cs with
        | [] => [[c]]
        | l :: ls => (c :: l) :: ls

def unlines (ls : List Text) : Text := ls.flatMap (· ++ ['\n'])

/-- `grep r` -/
def grep (r : Regex) (input : Text) : Text :=
  unlines ((lines input).filter (r.search true))

/-- `grep -v r` -/
def grepV (r : Regex) (input : Text) : Text :=
  unlines ((lines input).filter fun l => !r.search true l)

/-- `grep -q r`, as its exit status -/
def grepQ (r : Regex) (input : Text) : Bool :=
  (lines input).any (r.search true)

/-- `grep -o r` and `grep -oP r` -/
def grepO (f : Flavor) (r : Regex) (input : Text) : Text :=
  unlines ((lines input).flatMap (r.onlyMatching f))

/-- `head -1` -/
def head1 (input : Text) : Text := unlines ((lines input).take 1)

/-- The order of two lines by their character codes. -/
def lineLe (a b : Text) : Bool := !List.lex b a fun c d => c.toNat < d.toNat

/-- `sort -u` -/
def sortU (input : Text) : Text :=
  unlines ((lines input).dedup.mergeSort lineLe)

/-- `cut -d delim -f 1-n` -/
def cut (delim : Char) (n : Nat) (input : Text) : Text :=
  unlines ((lines input).map fun l =>
    [delim].intercalate ((l.splitOn delim).take n))

/-- The nonempty pieces between separators. -/
def wordsBy (isSep : Char → Bool) (t : Text) : List Text :=
  (t.splitOnP isSep).filter fun w => !w.isEmpty

def isBlank (c : Char) : Bool := c == ' ' || c == '\t'

/-- The words of a line, as `awk` numbers them. -/
def words (line : Text) : List Text := wordsBy isBlank line

/-- The words an unquoted `$value` is split into. -/
def shellWords (value : Text) : List Text :=
  wordsBy (fun c => isBlank c || c == '\n') value

/-- `awk '{print $(n + 1)}'` -/
def awkPrint (n : Nat) (input : Text) : Text :=
  unlines ((lines input).map fun l => (words l).getD n [])

/-- `tr old new` for single characters -/
def tr (old new : Char) (input : Text) : Text :=
  input.map fun c => if c = old then new else c

/-- A line editor that keeps a missing newline at the end of its input. -/
def mapLines (edit : Text → Text) (input : Text) : Text :=
  let output := ['\n'].intercalate ((lines input).map edit)
  if input.getLast? = some '\n' then output ++ ['\n'] else output

/-- `sed s/r/replacement/g` -/
def sed (r : Regex) (replacement : Text) (input : Text) : Text :=
  mapLines (r.substitute replacement) input

/-- `sed s/r/replacement/` -/
def sedFirst (r : Regex) (replacement : Text) (input : Text) : Text :=
  mapLines (r.substituteFirst replacement) input

/-- A single argument that the `echo` of the shell reads as options. -/
def isEchoOption : Text → Bool
  | '-' :: flags =>
      !flags.isEmpty && flags.all fun c => c == 'n' || c == 'e' || c == 'E'
  | _ => false

/-- `echo "$arg"` -/
def echo (arg : Text) : Text :=
  if isEchoOption arg then
    if 'n' ∈ arg then [] else ['\n']
  else arg ++ ['\n']

/-- `$(command)`: the output without the newlines at its end. -/
def commandSubst (output : Text) : Text := output.rdropWhile (· == '\n')

/-- A line as `read` takes it: each character with whether a backslash quoted
it. -/
def unquoted : Text → List (Char × Bool)
  | [] => []
  | c :: cs =>
      if c = '\\' then
        match cs with
        | [] => []
        | d :: ds => (d, true) :: unquoted ds
      else (c, false) :: unquoted cs

/-- `read line`: unquoted blanks at both ends are dropped. -/
def readLine (line : Text) : Text :=
  let isEnd : Char × Bool → Bool := fun x => isBlank x.1 && !x.2
  (((unquoted line).dropWhile isEnd).rdropWhile isEnd).map Prod.fst

/-- The input with the newlines a backslash quotes taken out. -/
def joined : Text → Text
  | [] => []
  | c :: cs =>
      if c = '\\' then
        match cs with
        | [] => [c]
        | d :: ds => if d = '\n' then joined ds else c :: d :: joined ds
      else c :: joined cs

/-- The lines for which the body of `while read line` runs: an unterminated
last line is not one of them. -/
def whileRead (input : Text) : List Text :=
  let ls := lines (joined input)
  let terminated := if input.getLast? = some '\n' then ls else ls.dropLast
  terminated.map readLine

/-- `[ -z "$value" ] && value=default` -/
def orDefault (value default : Text) : Text :=
  if value.isEmpty then default else value

theorem lines_append {l : Text} (hl : '\n' ∉ l) (more : Text) :
    lines (l ++ '\n' :: more) = l :: lines more := by
  induction l with
  | nil => simp [lines]
  | cons c cs ih =>
      simp only [List.mem_cons, not_or] at hl
      simp [lines, Ne.symm hl.1, ih hl.2]

theorem lines_of_not_mem {l : Text} (hl : '\n' ∉ l) (hne : l ≠ []) :
    lines l = [l] := by
  induction l with
  | nil => exact absurd rfl hne
  | cons c cs ih =>
      simp only [List.mem_cons, not_or] at hl
      by_cases hcs : cs = []
      · simp [lines, hcs, Ne.symm hl.1]
      · simp [lines, Ne.symm hl.1, ih hl.2 hcs]

@[simp] theorem lines_unlines {ls : List Text} (h : ∀ l ∈ ls, '\n' ∉ l) :
    lines (unlines ls) = ls := by
  induction ls with
  | nil => rfl
  | cons l ls ih =>
      have hl := h l List.mem_cons_self
      have htail := ih fun x hx => h x (List.mem_cons_of_mem l hx)
      have hcons : unlines (l :: ls) = l ++ '\n' :: unlines ls := by
        simp [unlines]
      rw [hcons, lines_append hl, htail]

theorem not_mem_of_mem_lines {input l : Text} (hl : l ∈ lines input) :
    '\n' ∉ l := by
  induction input generalizing l with
  | nil => simp [lines] at hl
  | cons c cs ih =>
      by_cases hc : c = '\n'
      · simp only [lines, hc, ↓reduceIte, List.mem_cons] at hl
        rcases hl with rfl | hl
        · simp
        · exact ih hl
      · cases hcs : lines cs with
        | nil =>
            simp only [lines, hc, ↓reduceIte, hcs, List.mem_singleton] at hl
            simp [hl, Ne.symm hc]
        | cons x xs =>
            simp only [lines, hc, ↓reduceIte, hcs, List.mem_cons] at hl
            rcases hl with rfl | hl
            · have hx : '\n' ∉ x := ih (by simp [hcs])
              simp [Ne.symm hc, hx]
            · exact ih (by simp [hcs, hl])

/-- Induction over the lines of a text. -/
theorem lineInduction {P : Text → Prop} (hnil : P [])
    (hlast : ∀ l, '\n' ∉ l → l ≠ [] → P l)
    (hline : ∀ l more, '\n' ∉ l → P more → P (l ++ '\n' :: more)) :
    ∀ input, P input := by
  intro input
  induction hn : input.length using Nat.strong_induction_on generalizing input with
  | h n ih =>
      by_cases hmem : '\n' ∈ input
      · obtain ⟨l, more, rfl, hl⟩ := List.eq_append_cons_of_mem hmem
        refine hline l more hl (ih more.length ?_ more rfl)
        simp only [List.length_append, List.length_cons] at hn
        omega
      · by_cases hne : input = []
        · exact hne ▸ hnil
        · exact hlast input hmem hne

/-- The empty line that a newline makes at the end of a text, unless it ends a
line there. -/
def blankLine (t : Text) : List Text :=
  if t = [] ∨ t.getLast? = some '\n' then [[]] else []

/-- The lines of a text with more text after a newline. -/
theorem lines_append_newline (t more : Text) :
    lines (t ++ '\n' :: more) = lines t ++ (blankLine t ++ lines more) := by
  induction t using lineInduction with
  | hnil => rfl
  | hlast l hl hne =>
      have hlast : l.getLast? ≠ some '\n' := fun h => hl (List.mem_of_getLast? h)
      simp [lines_append hl, lines_of_not_mem hl hne, blankLine, hne, hlast]
  | hline l t hl ih =>
      have hblank : blankLine (l ++ '\n' :: t) = blankLine t := by
        cases t <;> simp [blankLine]
      rw [List.append_assoc, List.cons_append, lines_append hl, ih,
        lines_append hl, hblank, List.cons_append]

@[simp] theorem lines_grep (r : Regex) (input : Text) :
    lines (grep r input) = (lines input).filter (r.search true) :=
  lines_unlines fun _ hl => not_mem_of_mem_lines (List.mem_of_mem_filter hl)

@[simp] theorem lines_grepV (r : Regex) (input : Text) :
    lines (grepV r input) =
      (lines input).filter fun l => !r.search true l :=
  lines_unlines fun _ hl => not_mem_of_mem_lines (List.mem_of_mem_filter hl)

@[simp] theorem lines_grepO (f : Flavor) (r : Regex) (input : Text) :
    lines (grepO f r input) = (lines input).flatMap (r.onlyMatching f) := by
  apply lines_unlines
  intro m hm hnl
  obtain ⟨l, hl, hml⟩ := List.mem_flatMap.mp hm
  exact not_mem_of_mem_lines hl
    ((Regex.isInfix_of_mem_onlyMatching hml).subset hnl)

@[simp] theorem lines_head1 (input : Text) :
    lines (head1 input) = (lines input).take 1 :=
  lines_unlines fun _ hl => not_mem_of_mem_lines (List.mem_of_mem_take hl)

@[simp] theorem lines_sortU (input : Text) :
    lines (sortU input) = (lines input).dedup.mergeSort lineLe := by
  apply lines_unlines
  intro l hl
  rw [List.mem_mergeSort, List.mem_dedup] at hl
  exact not_mem_of_mem_lines hl

theorem not_mem_of_mem_splitOn {sep : Char} {input entry : Text}
    (hentry : entry ∈ input.splitOn sep) : sep ∉ entry := by
  induction input generalizing entry with
  | nil => simp_all [List.splitOn_nil]
  | cons c cs ih =>
      rw [List.splitOn_cons_eq_if_modifyHead] at hentry
      by_cases hc : c = sep
      · simp only [hc, beq_self_eq_true, ↓reduceIte, List.mem_cons] at hentry
        rcases hentry with rfl | hentry
        · simp
        · exact ih hentry
      · obtain ⟨x, xs, hx⟩ := List.exists_cons_of_ne_nil
          (List.splitOn_ne_nil sep cs)
        simp only [beq_iff_eq, hc, ↓reduceIte, hx, List.modifyHead_cons,
          List.mem_cons] at hentry
        rcases hentry with rfl | hentry
        · have hxs : sep ∉ x := ih (by simp [hx])
          simp [Ne.symm hc, hxs]
        · exact ih (by simp [hx, hentry])

/-- What stands before the first separator. -/
theorem eq_of_append_cons {x : Char} {u v t w : Text} (hu : x ∉ u)
    (hv : x ∉ v) (h : u ++ x :: t = v ++ x :: w) : u = v := by
  rcases List.append_eq_append_iff.mp h with ⟨m, rfl, hm⟩ | ⟨m, rfl, hm⟩
  · cases m with
    | nil => simp
    | cons c cs =>
        have hc : x = c := (List.cons.inj hm).1
        exact absurd (by simp [hc]) hv
  · cases m with
    | nil => simp
    | cons c cs =>
        have hc : x = c := (List.cons.inj hm).1
        exact absurd (by simp [hc]) hu

/-- One line, cut at every separator into lines of its own. -/
theorem lines_tr (sep : Char) {input : Text} (h : '\n' ∉ input) :
    lines (tr sep '\n' (input ++ ['\n'])) = input.splitOn sep := by
  induction input with
  | nil => by_cases hsep : '\n' = sep <;> simp [tr, lines, List.splitOn_nil]
  | cons c cs ih =>
      simp only [List.mem_cons, not_or] at h
      have htail := ih h.2
      rw [List.splitOn_cons_eq_if_modifyHead]
      by_cases hc : c = sep
      · simpa [tr, lines, hc] using htail
      · obtain ⟨x, xs, hx⟩ := List.exists_cons_of_ne_nil
          (List.splitOn_ne_nil sep cs)
        have hcons : tr sep '\n' (c :: cs ++ ['\n']) =
            c :: tr sep '\n' (cs ++ ['\n']) := by simp [tr, hc]
        rw [hcons, lines, if_neg (Ne.symm h.1), htail, hx]
        simp [hc]

/-- Lines joined into one line, each followed by the separator. -/
theorem tr_unlines {sep : Char} {ls : List Text} (h : ∀ l ∈ ls, '\n' ∉ l) :
    tr '\n' sep (unlines ls) = ls.flatMap (· ++ [sep]) := by
  have hself : ∀ l ∈ ls, tr '\n' sep l = l := by
    intro l hl
    refine (List.map_congr_left fun c hc => ?_).trans (List.map_id l)
    have hne : c ≠ '\n' := fun heq => h l hl (heq ▸ hc)
    simp [hne]
  rw [tr, unlines, List.map_flatMap]
  refine List.flatMap_congr fun l hl => ?_
  simpa [tr] using hself l hl

theorem flatMap_append_singleton {sep : Char} {ls : List Text} (h : ls ≠ []) :
    ls.flatMap (· ++ [sep]) = [sep].intercalate ls ++ [sep] := by
  induction ls with
  | nil => exact absurd rfl h
  | cons l ls ih =>
      cases ls with
      | nil => simp [List.intercalate]
      | cons x xs =>
          rw [List.flatMap_cons, ih (by simp)]
          simp [List.intercalate, List.intersperse]

theorem echo_of_not_option {arg : Text} (h : isEchoOption arg = false) :
    echo arg = unlines [arg] := by
  simp [echo, h, unlines]

/-- Nothing is special about a text with a character no option has. -/
theorem isEchoOption_of_mem {arg : Text} {c : Char} (hmem : c ∈ arg)
    (hc : c ∉ "-neE".toList) : isEchoOption arg = false := by
  cases arg with
  | nil => simp at hmem
  | cons d ds =>
      by_cases hd : d = '-'
      · subst hd
        have hflag : c ∈ ds := by
          rcases List.mem_cons.mp hmem with rfl | h
          · exact absurd (by decide) hc
          · exact h
        simp only [String.reduceToList, List.mem_cons, List.not_mem_nil,
          or_false, not_or] at hc
        simp only [isEchoOption, Bool.and_eq_false_iff]
        refine Or.inr (List.all_eq_false.mpr ⟨c, hflag, ?_⟩)
        simp [hc]
      · simp [isEchoOption, hd]

theorem commandSubst_nil : commandSubst [] = [] := rfl

/-- Capturing one line gives that line. -/
theorem commandSubst_singleton {l : Text} (hl : '\n' ∉ l) :
    commandSubst (unlines [l]) = l := by
  have hlast : l.rdropWhile (· == '\n') = l := by
    rw [List.rdropWhile_eq_self_iff]
    intro hne hc
    exact hl (by simpa using (by simpa using hc : l.getLast hne = '\n') ▸
      List.getLast_mem hne)
  simpa [commandSubst, unlines, List.rdropWhile_concat_pos] using hlast

/-- Capturing the first line of a text: empty when there is none. -/
theorem commandSubst_head1 (input : Text) :
    commandSubst (head1 input) = (lines input).headD [] := by
  cases hls : lines input with
  | nil => simp [head1, hls, unlines, commandSubst_nil]
  | cons l ls =>
      have hl : '\n' ∉ l := not_mem_of_mem_lines (hls ▸ List.mem_cons_self)
      simpa [head1, hls] using commandSubst_singleton hl

/-- Capturing several lines keeps the newlines between them. -/
theorem commandSubst_unlines_concat (ls : List Text) {l : Text} (hne : l ≠ [])
    (hl : '\n' ∉ l) : commandSubst (unlines (ls ++ [l])) = unlines ls ++ l := by
  obtain ⟨init, last, rfl⟩ : ∃ init last, l = init ++ [last] :=
    ⟨_, _, (List.dropLast_append_getLast hne).symm⟩
  have hlast : last ≠ '\n' := by
    rintro rfl
    exact hl (by simp)
  have hlines : unlines (ls ++ [init ++ [last]]) =
      (unlines ls ++ init) ++ [last] ++ ['\n'] := by simp [unlines]
  rw [commandSubst, hlines, List.rdropWhile_concat_pos _ _ _ (by decide)]
  simp [hlast]

/-- The captured text is a single line only if there was one. -/
theorem commandSubst_unlines_eq_iff {ls : List Text} {t : Text}
    (hls : ∀ l ∈ ls, l ≠ [] ∧ '\n' ∉ l) (hne : t ≠ []) (ht : '\n' ∉ t) :
    commandSubst (unlines ls) = t ↔ ls = [t] := by
  constructor
  · intro h
    rcases List.eq_nil_or_concat ls with rfl | ⟨init, last, rfl⟩
    · exact absurd h.symm hne
    · obtain ⟨hlast, hline⟩ := hls last (by simp)
      rw [List.concat_eq_append, commandSubst_unlines_concat init hlast hline]
        at h
      cases init with
      | nil => simpa [unlines] using h
      | cons l init =>
          refine absurd ?_ ht
          rw [← h]
          simp [unlines]
  · rintro rfl
    exact commandSubst_singleton ht

theorem wordsBy_sep {isSep : Char → Bool} {c : Char} (hc : isSep c = true)
    (t : Text) : wordsBy isSep (c :: t) = wordsBy isSep t := by
  simp [wordsBy, List.splitOnP_cons_eq_if_modifyHead, hc]

theorem wordsBy_word {isSep : Char → Bool} {w : Text} (hne : w ≠ [])
    (hw : ∀ c ∈ w, isSep c = false) {c : Char} (hc : isSep c = true)
    (t : Text) : wordsBy isSep (w ++ c :: t) = w :: wordsBy isSep t := by
  rw [wordsBy, List.splitOnP_append_cons_of_forall_mem hw c hc t]
  simp [hne, wordsBy]

theorem wordsBy_append_cons {isSep : Char → Bool} {c : Char}
    (hc : isSep c = true) (t u : Text) :
    wordsBy isSep (t ++ c :: u) = wordsBy isSep t ++ wordsBy isSep u := by
  rw [wordsBy, List.splitOnP_append_cons t u hc, List.filter_append]
  rfl

/-- Lines without separators are captured as they are split. -/
theorem shellWords_commandSubst {ls : List Text}
    (h : ∀ l ∈ ls, l ≠ [] ∧ ∀ c ∈ l, (isBlank c || c == '\n') = false) :
    shellWords (commandSubst (unlines ls)) = ls := by
  rcases List.eq_nil_or_concat ls with rfl | ⟨init, last, rfl⟩
  · rfl
  · rw [List.concat_eq_append] at h ⊢
    obtain ⟨hne, hlast⟩ := h last (by simp)
    have hline : '\n' ∉ last := fun hmem => by simpa using hlast _ hmem
    rw [commandSubst_unlines_concat init hne hline]
    induction init with
    | nil =>
        simp [shellWords, wordsBy, unlines, List.splitOnP_eq_singleton hlast,
          hne]
    | cons l init ih =>
        obtain ⟨hl, hwords⟩ := h l List.mem_cons_self
        have htail := ih fun x hx => h x (List.mem_cons_of_mem l hx)
        have hcons : unlines (l :: init) ++ last =
            l ++ '\n' :: (unlines init ++ last) := by simp [unlines]
        rw [hcons, shellWords, wordsBy_word hl hwords rfl]
        exact congrArg (l :: ·) htail

theorem unquoted_eq_map {l : Text} (h : '\\' ∉ l) :
    unquoted l = l.map fun c => (c, false) := by
  induction l with
  | nil => rfl
  | cons c cs ih =>
      simp only [List.mem_cons, not_or] at h
      unfold unquoted
      simp [Ne.symm h.1, ih h.2]

theorem joined_of_not_mem {t : Text} (h : '\\' ∉ t) : joined t = t := by
  induction t with
  | nil => rfl
  | cons c cs ih =>
      simp only [List.mem_cons, not_or] at h
      unfold joined
      simp [Ne.symm h.1, ih h.2]

/-- A line without backslashes, and without blanks at its ends, is read as it
is. -/
theorem readLine_of_trimmed {l : Text} (h : '\\' ∉ l)
    (hfirst : ∀ c, l.head? = some c → isBlank c = false)
    (hlast : ∀ c, l.getLast? = some c → isBlank c = false) :
    readLine l = l := by
  have hdrop : (l.map fun c => (c, false)).dropWhile
      (fun x => isBlank x.1 && !x.2) = l.map fun c => (c, false) := by
    rw [List.dropWhile_eq_self_iff]
    intro hpos hblank
    cases l with
    | nil => simp at hpos
    | cons c cs =>
        have hc := hfirst c rfl
        simp [hc] at hblank
  have hrdrop : (l.map fun c => (c, false)).rdropWhile
      (fun x => isBlank x.1 && !x.2) = l.map fun c => (c, false) := by
    rw [List.rdropWhile_eq_self_iff]
    intro hne hblank
    have hnil : l ≠ [] := by simpa using hne
    have hc := hlast (l.getLast hnil) (List.getLast?_eq_some_getLast hnil)
    rw [List.getLast_map] at hblank
    simp [hc] at hblank
  simp only [readLine, unquoted_eq_map h, hdrop, hrdrop]
  simp [Function.comp_def]

theorem whileRead_unlines {ls : List Text}
    (h : ∀ l ∈ ls, '\n' ∉ l ∧ '\\' ∉ l ∧ readLine l = l) :
    whileRead (unlines ls) = ls := by
  have hescape : '\\' ∉ unlines ls := by
    intro hmem
    obtain ⟨l, hl, hc⟩ := List.mem_flatMap.mp hmem
    have hnot := (h l hl).2.1
    simp [hnot] at hc
  have hread : ls.map readLine = ls :=
    (List.map_congr_left fun l hl => (h l hl).2.2).trans (List.map_id ls)
  rw [whileRead, joined_of_not_mem hescape,
    lines_unlines fun l hl => (h l hl).1]
  rcases List.eq_nil_or_concat ls with rfl | ⟨init, last, rfl⟩
  · rfl
  · have hend : (unlines (init.concat last)).getLast? = some '\n' := by
      simp [unlines]
    simp only [hend, ↓reduceIte, hread]

/-- Anything but the newline. -/
def notNewline (c : Char) : Bool := c != '\n'

namespace Regex

theorem run_rest_suffix {r : Regex} {b : Bool} {c d : Cursor}
    (hd : d ∈ r.run b c) : d.rest <:+ c.rest := by
  induction r generalizing c d with
  | eps => simp_all [run]
  | cls accepts =>
      obtain ⟨lead, body, rest⟩ := c
      cases rest with
      | nil => simp [run] at hd
      | cons x xs =>
          by_cases hx : accepts x = true
          · simp only [run, hx, ↓reduceIte, List.mem_singleton] at hd
            simp [hd]
          · simp [run, hx] at hd
  | many accepts =>
      obtain ⟨w, -, hrest, -⟩ := mem_manyFrom.mp hd
      exact ⟨w, hrest.symm⟩
  | seq first second ih₁ ih₂ =>
      obtain ⟨e, he, hde⟩ := List.mem_flatMap.mp hd
      exact (ih₂ hde).trans (ih₁ he)
  | alt left right ih₁ ih₂ =>
      rcases List.mem_append.mp hd with hleft | hright
      · exact ih₁ hleft
      · exact ih₂ hright
  | keep => simp_all [run]
  | bol =>
      simp only [run] at hd
      split at hd <;> simp_all
  | eol =>
      simp only [run] at hd
      split at hd <;> simp_all

theorem run_within {r : Regex} {allowed : Char → Bool} (b : Bool) {c : Cursor}
    (hc : ∀ x ∈ c.rest, allowed x = true) :
    (r.within allowed).run b c = r.run b c := by
  induction r generalizing c with
  | cls accepts =>
      obtain ⟨lead, body, rest⟩ := c
      cases rest with
      | nil => rfl
      | cons x xs => simp [within, run, hc x (by simp)]
  | many accepts =>
      obtain ⟨lead, body, rest⟩ := c
      simp only [within, run]
      induction rest generalizing body with
      | nil => rfl
      | cons x xs ih =>
          have htail := ih (body ++ [x]) fun y hy =>
            hc y (List.mem_cons_of_mem x hy)
          simp [manyFrom, hc x (by simp), htail]
  | seq first second ih₁ ih₂ =>
      simp only [within, run, ih₁ hc]
      refine List.flatMap_congr fun d hd => ih₂ fun x hx => ?_
      exact hc x ((run_rest_suffix hd).subset hx)
  | alt left right ih₁ ih₂ => simp only [within, run, ih₁ hc, ih₂ hc]
  | _ => rfl

theorem scan_within {r : Regex} {allowed : Char → Bool} {line : Text}
    (hline : ∀ x ∈ line, allowed x = true) (f : Flavor) (b : Bool) (n : Nat) :
    (r.within allowed).scan f b n line = r.scan f b n line := by
  induction line generalizing b n with
  | nil => simp [scan]
  | cons c cs ih =>
      have htail := ih fun x hx => hline x (List.mem_cons_of_mem c hx)
      cases n with
      | succ n => simp [scan, htail]
      | zero =>
          have hmatch : (r.within allowed).matchAt f b (c :: cs) =
              r.matchAt f b (c :: cs) := by
            simp only [matchAt, run_within b (c := Cursor.start (c :: cs)) hline]
          simp only [scan, hmatch, htail]

variable {r : Regex}

theorem within_newline_avoids (hplain : r.Plain) :
    (r.within notNewline).Avoids '\n' :=
  within_avoids hplain rfl

theorem within_newline_line {l : Text} (hl : '\n' ∉ l) :
    ∀ x ∈ l, notNewline x = true := by
  intro x hx
  have hne : x ≠ '\n' := fun h => hl (h ▸ hx)
  simpa [notNewline] using hne

/-- Matching line by line is matching the whole text with a pattern that
cannot consume a newline. -/
theorem flatMap_onlyMatching_lines (hplain : r.Plain) (f : Flavor)
    (input : Text) :
    (lines input).flatMap (r.onlyMatching f) =
      (r.within notNewline).onlyMatching f input := by
  induction input using lineInduction with
  | hnil => simp [lines, onlyMatching, scan]
  | hlast l hl hne =>
      simp [lines_of_not_mem hl hne, onlyMatching,
        scan_within (within_newline_line hl)]
  | hline l more hl ih =>
      rw [lines_append hl, List.flatMap_cons, ih,
        onlyMatching_append (within_newline_avoids hplain)]
      simp [onlyMatching, scan_within (within_newline_line hl)]

theorem lines_grepO_whole (hplain : r.Plain) (f : Flavor) (input : Text) :
    lines (grepO f r input) =
      (r.within notNewline).onlyMatching f input := by
  rw [lines_grepO, flatMap_onlyMatching_lines hplain]

end Regex

theorem mapLines_append (edit : Text → Text) {l : Text} (hl : '\n' ∉ l)
    (more : Text) :
    mapLines edit (l ++ '\n' :: more) =
      edit l ++ '\n' :: mapLines edit more := by
  cases more with
  | nil => simp [mapLines, lines_append hl, lines]
  | cons c cs =>
      have hlast : (l ++ '\n' :: c :: cs).getLast? = (c :: cs).getLast? := by
        simp [List.getLast?_append, List.getLast?_cons]
      have hne : (lines (c :: cs)).map edit ≠ [] := by
        simp only [ne_eq, List.map_eq_nil_iff, lines]
        split
        · simp
        · split <;> simp
      obtain ⟨x, xs, hx⟩ := List.exists_cons_of_ne_nil hne
      simp only [mapLines, lines_append hl, hlast, List.map_cons, hx]
      split <;> simp [List.intercalate, List.intersperse]

theorem mapLines_of_not_mem (edit : Text → Text) {l : Text} (hl : '\n' ∉ l)
    (hne : l ≠ []) : mapLines edit l = edit l := by
  have hlast : l.getLast? ≠ some '\n' := fun h =>
    hl (List.mem_of_getLast? h)
  simp [mapLines, lines_of_not_mem hl hne, hlast]

/-- Rewriting line by line is rewriting the whole text with a pattern that
cannot consume a newline. -/
theorem sed_eq_substitute {r : Regex} (hplain : r.Plain)
    (replacement input : Text) :
    sed r replacement input =
      (r.within notNewline).substitute replacement input := by
  induction input using lineInduction with
  | hnil => simp [sed, mapLines, lines, Regex.substitute, Regex.scan]
  | hlast l hl hne =>
      rw [sed, mapLines_of_not_mem _ hl hne]
      simp [Regex.substitute,
        Regex.scan_within (Regex.within_newline_line hl)]
  | hline l more hl ih =>
      rw [sed] at ih ⊢
      rw [mapLines_append _ hl, ih, Regex.substitute_append
        (Regex.within_newline_avoids hplain)]
      simp [Regex.substitute,
        Regex.scan_within (Regex.within_newline_line hl)]

end TextTools
