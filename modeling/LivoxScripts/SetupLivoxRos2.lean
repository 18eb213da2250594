/-
`ws_livox/setup_livox_ros2.bash`: the pipeline that removes the Noetic entries
from `LD_LIBRARY_PATH`, and the list-level filter it computes.
-/
import LivoxScripts.Text.Filters

namespace LivoxScripts

open TextTools

def noeticPrefix : Text := "/opt/ros/noetic".toList

/-- The pattern `:$`. -/
def colonAtEnd : Regex := .seq (.cls (· == ':')) .eol

/-- The guarded export: an empty variable is left alone. -/
def filterLibraryPath (ldLibraryPath : Text) : Text :=
  if ldLibraryPath.isEmpty then ldLibraryPath
  else
    commandSubst (sedFirst colonAtEnd [] (tr '\n' ':'
      (grepV (.lit noeticPrefix) (tr ':' '\n' (echo ldLibraryPath)))))

/-- The entries without the Noetic prefix, in their order. -/
def keptEntries (ldLibraryPath : Text) : List Text :=
  (ldLibraryPath.splitOn ':').filter fun entry =>
    decide (¬ noeticPrefix <:+: entry)

/-- The value the list-level filter exports. -/
def keptPath (ldLibraryPath : Text) : Text :=
  [':'].intercalate (keptEntries ldLibraryPath)

theorem colonAtEnd_matchAt (b : Bool) (c : Char) (cs : Text) :
    colonAtEnd.matchAt .posix b (c :: cs) =
      if c = ':' ∧ cs = [] then some ⟨[], [':'], []⟩ else none := by
  by_cases hc : c = ':'
  · subst hc
    cases cs with
    | nil => rfl
    | cons x xs =>
        apply Regex.matchAt_of_run_nil
        rfl
  · rw [Regex.matchAt_of_run_nil]
    · simp [hc]
    · simp [colonAtEnd, Regex.run, Cursor.start, hc]

theorem replaceFirst_colonAtEnd (b : Bool) (line : Text) :
    replaceFirst [] (colonAtEnd.scan .posix b 0 (line ++ [':'])) = line := by
  induction line generalizing b with
  | nil => simp [Regex.scan, colonAtEnd_matchAt, replaceFirst]
  | cons c cs ih =>
      simp [Regex.scan, colonAtEnd_matchAt, replaceFirst, ih]

theorem sedFirst_colonAtEnd {line : Text} (h : '\n' ∉ line) :
    sedFirst colonAtEnd [] (line ++ [':']) = line := by
  have hline : '\n' ∉ line ++ [':'] := by simp [h]
  rw [sedFirst, mapLines_of_not_mem _ hline (by simp)]
  exact replaceFirst_colonAtEnd true line

theorem commandSubst_of_not_mem {output : Text} (h : '\n' ∉ output) :
    commandSubst output = output := by
  rw [commandSubst, List.rdropWhile_eq_self_iff]
  intro hne hlast
  have heq : output.getLast hne = '\n' := by simpa using hlast
  exact h (heq ▸ List.getLast_mem hne)

theorem not_mem_intercalate {x sep : Char} {ls : List Text} (hsep : x ≠ sep)
    (h : ∀ l ∈ ls, x ∉ l) : x ∉ [sep].intercalate ls := by
  induction ls with
  | nil => simp [List.intercalate]
  | cons l ls ih =>
      have hl := h l List.mem_cons_self
      have htail := ih fun y hy => h y (List.mem_cons_of_mem l hy)
      cases ls with
      | nil => simpa [List.intercalate] using hl
      | cons y ys =>
          rw [List.intercalate_cons_cons]
          simp only [List.mem_append, List.mem_singleton, not_or]
          exact ⟨⟨hl, hsep⟩, htail⟩

theorem not_mem_keptPath {v : Text} (hline : '\n' ∉ v) :
    '\n' ∉ keptPath v := by
  apply not_mem_intercalate (by decide)
  intro entry hentry
  have hlines := lines_tr ':' hline
  exact not_mem_of_mem_lines (hlines.symm ▸ List.mem_of_mem_filter hentry)

theorem filterLibraryPath_eq {v : Text} (hne : v ≠ []) (hline : '\n' ∉ v)
    (hecho : isEchoOption v = false) : filterLibraryPath v = keptPath v := by
  have hlines : lines (tr ':' '\n' (echo v)) = v.splitOn ':' := by
    rw [echo_of_not_option hecho]
    simpa [unlines] using lines_tr ':' hline
  have hgrep : grepV (.lit noeticPrefix) (tr ':' '\n' (echo v)) =
      unlines (keptEntries v) := by
    rw [grepV, hlines, keptEntries]
    congr 1
    refine List.filter_congr fun entry _ => ?_
    rw [Bool.eq_iff_iff, Bool.not_eq_true', ← Bool.not_eq_true,
      Regex.search_lit, decide_eq_true_iff]
  have hkept : ∀ entry ∈ keptEntries v, '\n' ∉ entry := fun entry hmem =>
    not_mem_of_mem_lines (hlines.symm ▸ List.mem_of_mem_filter hmem)
  have hpath := not_mem_keptPath hline
  rw [filterLibraryPath, if_neg (by simpa using hne), hgrep, tr_unlines hkept]
  by_cases hnone : keptEntries v = []
  · simp [hnone, keptPath, sedFirst, mapLines, lines, commandSubst_nil]
  · rw [flatMap_append_singleton hnone, ← keptPath,
      sedFirst_colonAtEnd hpath, commandSubst_of_not_mem hpath]

theorem colon_not_mem_of_mem_keptEntries {v entry : Text}
    (h : entry ∈ keptEntries v) : ':' ∉ entry :=
  not_mem_of_mem_splitOn (List.mem_of_mem_filter h)

theorem splitOn_keptPath {v : Text} (h : keptEntries v ≠ []) :
    (keptPath v).splitOn ':' = keptEntries v :=
  List.splitOn_intercalate ':'
    (fun _ hmem => colon_not_mem_of_mem_keptEntries hmem) h

theorem not_infix_intercalate {sep : Char} {w : Text} (hw : w ≠ [])
    (hsep : sep ∉ w) {ls : List Text} (h : ∀ l ∈ ls, ¬ w <:+: l) :
    ¬ w <:+: [sep].intercalate ls := by
  induction ls with
  | nil => simpa [List.intercalate] using hw
  | cons l ls ih =>
      have hl := h l List.mem_cons_self
      have htail := ih fun x hx => h x (List.mem_cons_of_mem l hx)
      cases ls with
      | nil => simpa [List.intercalate] using hl
      | cons x xs =>
          rw [List.intercalate_cons_cons, List.append_assoc,
            List.singleton_append, infix_append_cons_iff hsep]
          exact not_or.mpr ⟨hl, htail⟩

theorem noeticPrefix_not_infix_keptPath (v : Text) :
    ¬ noeticPrefix <:+: keptPath v := by
  apply not_infix_intercalate (by decide) (by decide)
  intro entry hentry
  simpa using (List.mem_filter.mp hentry).2

/-- Filtering a second time keeps every entry. -/
theorem keptPath_keptPath {v : Text} (h : keptPath v ≠ []) :
    keptPath (keptPath v) = keptPath v := by
  have hne : keptEntries v ≠ [] := by
    intro hnil
    simp [keptPath, hnil] at h
  have hagain : keptEntries (keptPath v) = keptEntries v := by
    rw [keptEntries, splitOn_keptPath hne, List.filter_eq_self]
    intro entry hentry
    exact (List.mem_filter.mp hentry).2
  rw [keptPath, hagain, ← keptPath]

/-- `echo` prints nothing of a value it takes for options. -/
theorem filterLibraryPath_of_option {v : Text} (h : isEchoOption v = true) :
    filterLibraryPath v = [] := by
  have hne : v ≠ [] := by
    rintro rfl
    simp [isEchoOption] at h
  rw [filterLibraryPath, if_neg (by simpa using hne), echo, if_pos h]
  by_cases hn : 'n' ∈ v
  · rw [if_pos hn]
    decide
  · rw [if_neg hn]
    decide

/-- The exported value is the list-level filter of the old one; a second run
changes nothing exactly when `echo` does not take the value for options. -/
theorem filterLibraryPath_spec {v : Text} (hne : v ≠ []) (hline : '\n' ∉ v)
    (hecho : isEchoOption v = false) :
    filterLibraryPath v = keptPath v ∧
      ¬ noeticPrefix <:+: filterLibraryPath v ∧
      (keptEntries v ≠ [] →
        (filterLibraryPath v).splitOn ':' = keptEntries v) ∧
      (keptEntries v = [] → filterLibraryPath v = []) ∧
      (filterLibraryPath (filterLibraryPath v) = filterLibraryPath v ↔
        isEchoOption (filterLibraryPath v) = false) := by
  have heq := filterLibraryPath_eq hne hline hecho
  rw [heq]
  refine ⟨rfl, noeticPrefix_not_infix_keptPath v, splitOn_keptPath,
    fun hnone => by simp [keptPath, hnone], ?_⟩
  by_cases hempty : keptPath v = []
  · simp [hempty, filterLibraryPath, isEchoOption]
  constructor
  · intro hsame
    by_contra hoption
    exact hempty (hsame ▸ filterLibraryPath_of_option
      (by simpa using hoption))
  · intro hoption
    rw [filterLibraryPath_eq hempty (not_mem_keptPath hline) hoption,
      keptPath_keptPath hempty]

theorem filterLibraryPath_spec_noetic_first :
    filterLibraryPath "/opt/ros/noetic/lib:/usr/lib".toList =
        keptPath "/opt/ros/noetic/lib:/usr/lib".toList ∧
      filterLibraryPath
          (filterLibraryPath "/opt/ros/noetic/lib:/usr/lib".toList) =
        filterLibraryPath "/opt/ros/noetic/lib:/usr/lib".toList := by
  obtain ⟨heq, -, -, -, hagain⟩ := filterLibraryPath_spec
    (v := "/opt/ros/noetic/lib:/usr/lib".toList) (by decide) (by decide)
    (by decide)
  exact ⟨heq, hagain.mpr (by decide)⟩

/-- The surviving entry is an option of `echo`: the second run loses it. -/
theorem filterLibraryPath_twice_option :
    isEchoOption "/opt/ros/noetic:-n".toList = false ∧
      filterLibraryPath "/opt/ros/noetic:-n".toList = "-n".toList ∧
      filterLibraryPath
          (filterLibraryPath "/opt/ros/noetic:-n".toList) ≠
        filterLibraryPath "/opt/ros/noetic:-n".toList := by
  decide +kernel

end LivoxScripts
