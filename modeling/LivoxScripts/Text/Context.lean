/-
The lines that a search prints together with the lines after them, the last
line of a text, and lines of words set apart by single blanks.
-/
import LivoxScripts.Text.Filters

namespace TextTools

/-- The line that `grep -A` puts between groups of lines that do not touch. -/
def groupSeparator : Text := ['-', '-']

/-- What `grep -A n` prints of some lines; `since` counts the lines after the
last one that was found. -/
def afterMatches (n : Nat) (found : Text → Bool) :
    Option Nat → List Text → List Text
  | _, [] => []
  | since, l :: ls =>
      if found l then
        (if since.any (n < ·) then [groupSeparator] else []) ++
          l :: afterMatches n found (some 0) ls
      else
        (if since.any (· < n) then [l] else []) ++
          afterMatches n found (since.map (· + 1)) ls

/-- `grep -A n r` -/
def grepA (n : Nat) (r : Regex) (input : Text) : Text :=
  unlines (afterMatches n (r.search true) none (lines input))

/-- `tail -1` -/
def tail1 (input : Text) : Text := unlines (lines input).getLast?.toList

/-- Words with a blank before each but the first. -/
def column (first : Text) (rest : List Text) : Text :=
  first ++ rest.flatMap (' ' :: ·)

variable {n : Nat} {found : Text → Bool} {ls before after : List Text}
  {l m : Text}

theorem mem_afterMatches {since : Option Nat}
    (hl : l ∈ afterMatches n found since ls) : l = groupSeparator ∨ l ∈ ls := by
  induction ls generalizing since with
  | nil => simp [afterMatches] at hl
  | cons x xs ih =>
      rw [afterMatches] at hl
      split at hl
      · rcases List.mem_append.mp hl with hl | hl
        · split at hl
          · exact Or.inl (List.mem_singleton.mp hl)
          · simp at hl
        · rcases List.mem_cons.mp hl with rfl | hl
          · exact Or.inr List.mem_cons_self
          · exact (ih hl).imp_right (List.mem_cons_of_mem x)
      · rcases List.mem_append.mp hl with hl | hl
        · split at hl
          · rw [List.mem_singleton.mp hl]
            exact Or.inr List.mem_cons_self
          · simp at hl
        · exact (ih hl).imp_right (List.mem_cons_of_mem x)

theorem lines_grepA (n : Nat) (r : Regex) (input : Text) :
    lines (grepA n r input) =
      afterMatches n (r.search true) none (lines input) := by
  apply lines_unlines
  intro l hl
  rcases mem_afterMatches hl with rfl | hl
  · decide
  · exact not_mem_of_mem_lines hl

theorem lines_tail1 (input : Text) :
    lines (tail1 input) = (lines input).getLast?.toList := by
  apply lines_unlines
  intro l hl
  exact not_mem_of_mem_lines (List.mem_of_getLast? (Option.mem_toList.mp hl))

/-- After the last line that is found, `n` lines are printed and no more. -/
theorem afterMatches_of_none_found (hafter : ∀ l ∈ after, found l = false)
    (k : Nat) : afterMatches n found (some k) after = after.take (n - k) := by
  induction after generalizing k with
  | nil => simp [afterMatches]
  | cons x xs ih =>
      have hxs := ih (fun l hl => hafter l (List.mem_cons_of_mem x hl)) (k + 1)
      rw [afterMatches, if_neg (by simp [hafter x List.mem_cons_self]),
        Option.map_some, hxs, Option.any_some]
      by_cases hk : k < n
      · obtain ⟨d, rfl⟩ : ∃ d, n = k + 1 + d := Nat.exists_eq_add_of_le hk
        simp [hk, show k + 1 + d - k = d + 1 by omega]
      · have hzero : n - k = 0 := by omega
        simp [hk, hzero, show n - (k + 1) = 0 by omega]

/-- The last line printed is the last one after the last line found. -/
theorem getLast?_afterMatches (hm : found m = true)
    (hafter : ∀ l ∈ after, found l = false) (since : Option Nat) :
    (afterMatches n found since (before ++ m :: after)).getLast? =
      (m :: after.take n).getLast? := by
  have hsome : (m :: after.take n).getLast?.isSome = true := by simp
  have hlast : ∀ xs ys : List Text, ys.getLast? = (m :: after.take n).getLast? →
      (xs ++ ys).getLast? = (m :: after.take n).getLast? := by
    intro xs ys hys
    rw [List.getLast?_append, hys, Option.or_of_isSome hsome]
  induction before generalizing since with
  | nil =>
      rw [List.nil_append, afterMatches, if_pos hm,
        afterMatches_of_none_found hafter]
      exact hlast _ _ rfl
  | cons x xs ih =>
      rw [List.cons_append, afterMatches]
      split
      · rw [List.append_cons]
        exact hlast _ _ (ih _)
      · exact hlast _ _ (ih _)

/-- `grep -A n` and `tail -1` together print one line. -/
theorem lines_tail1_grepA {r : Regex} {input : Text}
    (hinput : lines input = before ++ m :: after) (hm : r.search true m = true)
    (hafter : ∀ l ∈ after, r.search true l = false) :
    lines (tail1 (grepA n r input)) = [((after.take n).getLast?).getD m] := by
  rw [lines_tail1, lines_grepA, hinput, getLast?_afterMatches hm hafter,
    List.getLast?_cons]
  rfl

theorem words_column {first : Text} {rest : List Text}
    (h : ∀ w ∈ first :: rest, w ≠ [] ∧ ∀ c ∈ w, isBlank c = false) :
    words (column first rest) = first :: rest := by
  induction rest generalizing first with
  | nil =>
      obtain ⟨hne, hfirst⟩ := h first List.mem_cons_self
      simp [words, wordsBy, column, List.splitOnP_eq_singleton hfirst, hne]
  | cons w ws ih =>
      obtain ⟨hne, hfirst⟩ := h first List.mem_cons_self
      have hrest := ih fun v hv => h v (List.mem_cons_of_mem first hv)
      have hcolumn : column first (w :: ws) = first ++ ' ' :: column w ws := by
        simp [column]
      rw [hcolumn, words, wordsBy_word hne hfirst rfl]
      exact congrArg (first :: ·) hrest

end TextTools
