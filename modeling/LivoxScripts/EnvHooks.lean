/-
The environment hooks of a setup file: which of several files of one name is
sourced, and in what order.
-/
import LivoxScripts.SetupUtil
import LivoxScripts.Store.LastWrite

namespace LivoxScripts.SetupUtil

open TextTools Store

/-- The path of a file, given with the workspace it is in. -/
def hookPath (file : Text × Text) : Text := join (envHookDir file.1) file.2

/-- The lists of the script, for a list of files. -/
structure EnvHooks.Holds (env : EnvHooks) (files : List (Text × Text)) :
    Prop where
  hooks : env.hooks = files.map hookPath
  hookWorkspaces : env.hookWorkspaces = files.map Prod.fst
  byFilename : ∀ filename, env.byFilename filename =
    (files.find? (·.2 = filename)).map hookPath

/-- The names of the files in a hook directory that can be read, sorted. -/
def hookNames (fs : FileSystem) (workspace : Text) : List Text :=
  (hookFiles fs workspace).getD []

/-- The prefix paths with the marker of a workspace. -/
def markedWorkspaces (fs : FileSystem) (cmakePrefixPath : Text) : List Text :=
  (splitPaths cmakePrefixPath).filter fun path =>
    fs.isfile (join path catkinMarkerFile)

/-- The hook files of workspaces in the order in which they are added, the last
workspace first. -/
def hookCandidates (fs : FileSystem) (workspaces : List Text) :
    List (Text × Text) :=
  workspaces.reverse.flatMap fun ws => (hookNames fs ws).map (ws, ·)

/-- The files of a kind that no later one of their name replaces. -/
def lastOfKind (kind : Text → Bool) (files : List (Text × Text)) :
    List (Text × Text) :=
  visible Prod.snd (files.filter (kind ·.2))

/-- The hooks of both kinds. -/
def foundHooks (fs : FileSystem) (environ : Environ) (cmakePrefixPath : Text) :
    List (Text × Text) :=
  let candidates := hookCandidates fs (markedWorkspaces fs cmakePrefixPath)
  lastOfKind isGeneric candidates ++ lastOfKind (isSpecific environ) candidates

variable {file other : Text × Text}

theorem hookPath_eq (h : '/' ∉ file.2) :
    hookPath file = envHookDir file.1 ++ '/' :: file.2 := by
  have hhead : file.2.head? ≠ some '/' := fun heq =>
    h (List.mem_of_mem_head? heq)
  have hlast : (envHookDir file.1).getLast? = some 'd' :=
    getLast?_join _ (by decide)
  have hne : envHookDir file.1 ≠ [] := fun hnil => by simp [hnil] at hlast
  rw [hookPath, join, if_neg hhead, if_neg]
  rintro (hnil | hslash)
  · exact hne hnil
  · rw [hlast] at hslash
    exact absurd hslash (by decide)

/-- Files with one path have one name. -/
theorem name_of_hookPath (h : '/' ∉ file.2) (hother : '/' ∉ other.2)
    (heq : hookPath file = hookPath other) : file.2 = other.2 := by
  rw [hookPath_eq h, hookPath_eq hother] at heq
  have hreverse : file.2.reverse ++ '/' :: (envHookDir file.1).reverse =
      other.2.reverse ++ '/' :: (envHookDir other.1).reverse := by
    simpa using congrArg List.reverse heq
  exact List.reverse_inj.mp
    (eq_of_append_cons (by simpa using h) (by simpa using hother) hreverse)

variable {env : EnvHooks} {files : List (Text × Text)} {filename : Text}

theorem pop?_append (before after : List Text) (x : Text) :
    pop? (before ++ x :: after) before.length = some (before ++ after) := by
  rw [pop?, if_pos (by simp), List.eraseIdx_append_of_length_le (le_refl _),
    Nat.sub_self, List.eraseIdx_cons_zero]

theorem index?_append {before : List Text} {x : Text} (after : List Text)
    (h : x ∉ before) : index? (before ++ x :: after) x = some before.length := by
  rw [index?, if_pos (by simp), List.idxOf_append_of_notMem h,
    List.idxOf_cons_self, Nat.add_zero]

/-- The hook of the same name is found in both lists at the same place. -/
theorem EnvHooks.Holds.removePrevious (h : env.Holds files)
    (hnodup : (files.map Prod.snd).Nodup)
    (hslash : ∀ file ∈ files, '/' ∉ file.2) :
    env.removePrevious filename =
      some ⟨(files.filter (·.2 ≠ filename)).map hookPath,
        (files.filter (·.2 ≠ filename)).map Prod.fst, env.byFilename⟩ := by
  rw [EnvHooks.removePrevious, h.byFilename]
  cases hfind : files.find? (·.2 = filename) with
  | none =>
      have hall : files.filter (·.2 ≠ filename) = files := by
        rw [List.filter_eq_self]
        intro file hfile
        simpa using List.find?_eq_none.mp hfind file hfile
      rw [hall, ← h.hooks, ← h.hookWorkspaces]
      rfl
  | some file =>
      obtain ⟨hname, before, after, rfl, hbefore⟩ :=
        List.find?_eq_some_iff_append.mp hfind
      have hname : file.2 = filename := by simpa using hname
      rw [List.map_append, List.map_cons, hname, List.nodup_middle,
        List.nodup_cons, List.mem_append, not_or] at hnodup
      have hkeeps : ∀ l : List (Text × Text), filename ∉ l.map Prod.snd →
          l.filter (·.2 ≠ filename) = l := by
        intro l hl
        rw [List.filter_eq_self]
        intro other hother
        simpa using fun heq : other.2 = filename =>
          hl (heq ▸ List.mem_map_of_mem hother)
      have hkept : (before ++ file :: after).filter (·.2 ≠ filename) =
          before ++ after := by
        rw [List.filter_append, List.filter_cons_of_neg (by simp [hname]),
          hkeeps before hnodup.1.1, hkeeps after hnodup.1.2]
      have hnotMem : hookPath file ∉ before.map hookPath := by
        intro hmem
        obtain ⟨other, hother, heq⟩ := List.mem_map.mp hmem
        have hsame := name_of_hookPath
          (hslash other (List.mem_append_left _ hother))
          (hslash file (List.mem_append_right _ List.mem_cons_self)) heq
        exact hnodup.1.1 (hname ▸ hsame ▸ List.mem_map_of_mem hother)
      have hlength : (before.map hookPath).length =
          (before.map Prod.fst).length := by simp
      rw [hkept, h.hooks, h.hookWorkspaces]
      simp only [Option.map_some, Option.elim_some, List.map_append,
        List.map_cons, index?_append _ hnotMem, Option.bind_eq_bind,
        Option.bind_some, pop?_append]
      rw [hlength, pop?_append]
      rfl

/-- Other names are found as before. -/
theorem find?_filter_ne {name : Text} (hname : name ≠ filename) :
    (files.filter (·.2 ≠ filename)).find? (·.2 = name) =
      files.find? (·.2 = name) := by
  rw [List.find?_filter]
  congr 1
  funext file
  by_cases hfile : file.2 = name
  · simp [hfile, hname]
  · simp [hfile]

/-- A file takes the place of the one of the same name, at the end. -/
theorem EnvHooks.Holds.add (h : env.Holds files)
    (hnodup : (files.map Prod.snd).Nodup)
    (hslash : ∀ file ∈ files, '/' ∉ file.2) (ws : Text) :
    ∃ env', env.add ws filename = some env' ∧
      env'.Holds (files.filter (·.2 ≠ filename) ++ [(ws, filename)]) := by
  rw [EnvHooks.add, h.removePrevious hnodup hslash]
  refine ⟨_, rfl, by simp [EnvHooks.append, hookPath],
    by simp [EnvHooks.append], fun name => ?_⟩
  rw [List.find?_append]
  by_cases hname : name = filename
  · have hnone : (files.filter (·.2 ≠ filename)).find? (·.2 = name) = none := by
      rw [List.find?_eq_none]
      intro file hfile
      simpa [hname] using (List.mem_filter.mp hfile).2
    rw [hnone, hname]
    simp [EnvHooks.append, hookPath]
  · rw [find?_filter_ne hname]
    simp [EnvHooks.append, Function.update_of_ne hname, h.byFilename,
      Ne.symm hname]

variable {fs : FileSystem} {environ : Environ}

theorem holds_empty : EnvHooks.empty.Holds [] := ⟨rfl, rfl, fun _ => rfl⟩

theorem lastOfKind_sublist (kind : Text → Bool) (files : List (Text × Text)) :
    (lastOfKind kind files).Sublist files :=
  (visible_sublist _).trans List.filter_sublist

theorem lastOfKind_concat (kind : Text → Bool) (files : List (Text × Text))
    (file : Text × Text) : lastOfKind kind (files ++ [file]) =
      if kind file.2 then
        (lastOfKind kind files).filter (·.2 ≠ file.2) ++ [file]
      else lastOfKind kind files := by
  rw [lastOfKind, List.filter_append]
  by_cases hkind : kind file.2 = true
  · rw [if_pos hkind, List.filter_singleton, hkind, cond_true, visible_concat]
    rfl
  · have hnot : kind file.2 = false := by simpa using hkind
    rw [if_neg hkind, List.filter_singleton, hnot, cond_false, List.append_nil]
    rfl

/-- The two kinds after some files: of each name the last file. -/
theorem foldlM_addHook (environ : Environ)
    (hslash : ∀ file ∈ files, '/' ∉ file.2) :
    ∃ env, files.foldlM (fun env file => addHook environ file.1 env file.2)
        (EnvHooks.empty, EnvHooks.empty) = some env ∧
      env.1.Holds (lastOfKind isGeneric files) ∧
        env.2.Holds (lastOfKind (isSpecific environ) files) := by
  induction files using List.reverseRecOn with
  | nil => exact ⟨_, rfl, holds_empty, holds_empty⟩
  | append_singleton files file ih =>
      have hfiles := fun f hf => hslash f (List.mem_append_left [file] hf)
      obtain ⟨env, hrun, hgeneric, hspecific⟩ := ih hfiles
      have hshown : ∀ kind, ∀ f ∈ lastOfKind kind files, '/' ∉ f.2 :=
        fun kind f hf => hfiles f ((lastOfKind_sublist kind files).subset hf)
      have hstep : (files ++ [file]).foldlM
          (fun env file => addHook environ file.1 env file.2)
            (EnvHooks.empty, EnvHooks.empty) =
              addHook environ file.1 env file.2 := by
        rw [List.foldlM_append, hrun]
        simp
      rw [hstep, addHook, lastOfKind_concat, lastOfKind_concat]
      by_cases hkind : isGeneric file.2 = true
      · have hnot : isSpecific environ file.2 = false := by
          simp [isSpecific, hkind]
        obtain ⟨env', hadd, hholds⟩ :=
          hgeneric.add (nodup_keys_visible _) (hshown _) file.1
        rw [if_pos hkind, if_pos hkind, hnot, hadd]
        exact ⟨_, rfl, hholds, hspecific⟩
      · rw [if_neg hkind, if_neg hkind]
        by_cases hspecificKind : isSpecific environ file.2 = true
        · obtain ⟨env', hadd, hholds⟩ :=
            hspecific.add (nodup_keys_visible _) (hshown _) file.1
          rw [if_pos hspecificKind, if_pos hspecificKind, hadd]
          exact ⟨_, rfl, hgeneric, hholds⟩
        · rw [if_neg hspecificKind, if_neg hspecificKind]
          exact ⟨env, rfl, hgeneric, hspecific⟩

/-- The script raises an error as soon as it lists a directory that may not be
read. -/
theorem hookFiles_eq_none_iff {ws : Text} : hookFiles fs ws = none ↔
    fs.isdir (envHookDir ws) = true ∧ fs.listdir (envHookDir ws) = none := by
  rw [hookFiles]
  split
  · next hdir => simp [hdir]
  · next hdir => simp [hdir]

theorem slash_not_mem_hookNames {ws filename : Text}
    (h : filename ∈ hookNames fs ws) : '/' ∉ filename := by
  rw [hookNames, hookFiles] at h
  split at h
  · cases hlist : fs.listdir (envHookDir ws) with
    | none =>
        rw [hlist] at h
        exact absurd h List.not_mem_nil
    | some names =>
        rw [hlist, Option.map_some, Option.getD_some, List.mem_mergeSort] at h
        obtain ⟨name, -, rfl⟩ := List.mem_map.mp h
        exact name.2
  · exact absurd h List.not_mem_nil

theorem mem_hookCandidates {workspaces : List Text} {file : Text × Text} :
    file ∈ hookCandidates fs workspaces ↔
      file.1 ∈ workspaces ∧ file.2 ∈ hookNames fs file.1 := by
  rw [hookCandidates, List.mem_flatMap]
  constructor
  · rintro ⟨ws, hws, hmem⟩
    obtain ⟨filename, hfilename, rfl⟩ := List.mem_map.mp hmem
    exact ⟨List.mem_reverse.mp hws, hfilename⟩
  · rintro ⟨hws, hfile⟩
    exact ⟨file.1, List.mem_reverse.mpr hws, List.mem_map_of_mem hfile⟩

/-- The two loops of the script are one over the candidates, as long as every
directory can be read. -/
theorem foldlM_hookFiles {workspaces : List Text}
    (hread : ∀ ws ∈ workspaces, hookFiles fs ws ≠ none)
    (env : EnvHooks × EnvHooks) :
    workspaces.foldlM (fun env ws => do
        let filenames ← hookFiles fs ws
        filenames.foldlM (addHook environ ws) env) env =
      (workspaces.flatMap fun ws => (hookNames fs ws).map (ws, ·)).foldlM
        (fun env file => addHook environ file.1 env file.2) env := by
  induction workspaces generalizing env with
  | nil => rfl
  | cons ws workspaces ih =>
      obtain ⟨filenames, hfiles⟩ :=
        Option.ne_none_iff_exists'.mp (hread ws List.mem_cons_self)
      have hnames : hookNames fs ws = filenames := by
        rw [hookNames, hfiles, Option.getD_some]
      have hrest := ih fun w hw => hread w (List.mem_cons_of_mem ws hw)
      rw [List.flatMap_cons, List.foldlM_append, List.foldlM_map,
        List.foldlM_cons, hfiles, hnames]
      exact congrArg (List.foldlM (addHook environ ws) env filenames).bind
        (funext hrest)

/-- An unreadable directory ends the loop. -/
theorem foldlM_hookFiles_eq_none (environ : Environ)
    {workspaces : List Text} {ws : Text} (hws : ws ∈ workspaces)
    (hnone : hookFiles fs ws = none)
    (env : EnvHooks × EnvHooks) :
    workspaces.foldlM (fun env ws => do
        let filenames ← hookFiles fs ws
        filenames.foldlM (addHook environ ws) env) env = none := by
  induction workspaces generalizing env with
  | nil => exact absurd hws List.not_mem_nil
  | cons w workspaces ih =>
      rw [List.foldlM_cons]
      rcases List.mem_cons.mp hws with rfl | hws
      · rw [hnone]
        rfl
      · rw [Option.bind_eq_bind, Option.bind_eq_none_iff]
        exact fun env' _ => ih hws env'

/-- Of a name the last candidate is the file of the first workspace that has
it. -/
theorem lastWrite_hookCandidates (workspaces : List Text) (filename : Text) :
    lastWrite Prod.snd (hookCandidates fs workspaces) filename =
      (workspaces.find? fun ws => decide (filename ∈ hookNames fs ws)).map
        (·, filename) := by
  have hfiles : ∀ (ws : Text) (names : List Text),
      lastWrite Prod.snd (names.map (ws, ·)) filename =
        if filename ∈ names then some (ws, filename) else none := by
    intro ws names
    induction names with
    | nil => rfl
    | cons name names ih =>
        rw [List.map_cons, lastWrite, ih]
        by_cases hmem : filename ∈ names
        · simp [hmem]
        · by_cases hname : name = filename
          · simp [hmem, hname]
          · simp [hmem, hname, Ne.symm hname]
  induction workspaces with
  | nil => rfl
  | cons ws workspaces ih =>
      have hsplit : hookCandidates fs (ws :: workspaces) =
          hookCandidates fs workspaces ++ (hookNames fs ws).map (ws, ·) := by
        simp [hookCandidates]
      rw [hsplit, lastWrite_append, hfiles, ih]
      by_cases hmem : filename ∈ hookNames fs ws
      · simp [hmem]
      · simp [hmem]

/-- The files of a kind that stay: each in the first workspace that has one of
its name. -/
theorem mem_lastOfKind {kind : Text → Bool} {workspaces : List Text}
    {ws filename : Text} :
    (ws, filename) ∈ lastOfKind kind (hookCandidates fs workspaces) ↔
      kind filename = true ∧
        workspaces.find? (fun ws => decide (filename ∈ hookNames fs ws)) =
          some ws := by
  by_cases hkind : kind filename = true
  · have hlast : lastWrite Prod.snd
        ((hookCandidates fs workspaces).filter (kind ·.2)) filename =
          lastWrite Prod.snd (hookCandidates fs workspaces) filename :=
      lastWrite_filter (fun file hfile => hfile ▸ hkind) _
    rw [lastOfKind, mem_visible_iff, hlast, lastWrite_hookCandidates]
    simp [hkind]
  · refine iff_of_false (fun hmem => hkind ?_) fun h => hkind h.1
    exact (List.mem_filter.mp ((visible_sublist _).subset hmem)).2

/-- What the script returns once every directory can be read. -/
theorem findEnvHooks_eq_some (environ : Environ) {cmakePrefixPath : Text}
    (hread : ∀ ws ∈ markedWorkspaces fs cmakePrefixPath,
      hookFiles fs ws ≠ none) :
    findEnvHooks fs environ cmakePrefixPath =
      some ((foundHooks fs environ cmakePrefixPath).map hookPath,
        (foundHooks fs environ cmakePrefixPath).map Prod.fst) := by
  have hslash : ∀ file ∈
      hookCandidates fs (markedWorkspaces fs cmakePrefixPath),
        '/' ∉ file.2 :=
    fun file hfile => slash_not_mem_hookNames (mem_hookCandidates.mp hfile).2
  obtain ⟨env, hrun, hgeneric, hspecific⟩ := foldlM_addHook environ hslash
  rw [hookCandidates, ← foldlM_hookFiles fun ws hws =>
    hread ws (List.mem_reverse.mp hws)] at hrun
  rw [markedWorkspaces] at hrun
  rw [findEnvHooks, hrun, Option.bind_eq_bind, Option.bind_some,
    hgeneric.hooks, hspecific.hooks, hgeneric.hookWorkspaces,
    hspecific.hookWorkspaces, foundHooks, List.map_append, List.map_append]
  rfl

theorem findEnvHooks_eq_none (environ : Environ) {cmakePrefixPath ws : Text}
    (hws : ws ∈ markedWorkspaces fs cmakePrefixPath)
    (hnone : hookFiles fs ws = none) :
    findEnvHooks fs environ cmakePrefixPath = none := by
  have hstop := foldlM_hookFiles_eq_none environ (List.mem_reverse.mpr hws)
    hnone (EnvHooks.empty, EnvHooks.empty)
  rw [markedWorkspaces] at hstop
  rw [findEnvHooks, hstop]
  rfl

/-- No name is found twice. -/
theorem nodup_foundHooks (fs : FileSystem) (environ : Environ)
    (cmakePrefixPath : Text) :
    ((foundHooks fs environ cmakePrefixPath).map Prod.snd).Nodup := by
  rw [foundHooks, List.map_append]
  refine (nodup_keys_visible _).append (nodup_keys_visible _) ?_
  intro filename hfirst hsecond
  obtain ⟨file, hfile, hname⟩ := List.mem_map.mp hfirst
  obtain ⟨other, hother, hotherName⟩ := List.mem_map.mp hsecond
  obtain ⟨hkind, -⟩ := mem_lastOfKind.mp hfile
  obtain ⟨hotherKind, -⟩ := mem_lastOfKind.mp hother
  rw [hname] at hkind
  rw [hotherName] at hotherKind
  simp [isSpecific, hkind] at hotherKind

/-- The script raises an error exactly when it comes to a hook directory that it
may not read.  Otherwise it finds the generic hooks and then the specific ones,
of each name the file of the first workspace that has one.  In each kind the
files of a workspace come after those of the workspaces behind it, and no name
is found twice. -/
theorem findEnvHooks_spec (fs : FileSystem) (environ : Environ)
    (cmakePrefixPath : Text) :
    let workspaces := markedWorkspaces fs cmakePrefixPath
    (findEnvHooks fs environ cmakePrefixPath = none ↔
      ∃ ws ∈ workspaces, fs.isdir (envHookDir ws) = true ∧
        fs.listdir (envHookDir ws) = none) ∧
    ∀ found, findEnvHooks fs environ cmakePrefixPath = some found →
      ∃ generic specific : List (Text × Text),
        found = ((generic ++ specific).map hookPath,
            (generic ++ specific).map Prod.fst) ∧
          generic.Sublist (hookCandidates fs workspaces) ∧
          specific.Sublist (hookCandidates fs workspaces) ∧
          ((generic ++ specific).map Prod.snd).Nodup ∧
          (∀ ws filename, (ws, filename) ∈ generic ↔
            isGeneric filename = true ∧ workspaces.find?
              (fun ws => decide (filename ∈ hookNames fs ws)) = some ws) ∧
          ∀ ws filename, (ws, filename) ∈ specific ↔
            isSpecific environ filename = true ∧ workspaces.find?
              (fun ws => decide (filename ∈ hookNames fs ws)) = some ws := by
  intro workspaces
  by_cases hread : ∀ ws ∈ workspaces, hookFiles fs ws ≠ none
  · have hsome := findEnvHooks_eq_some environ hread
    refine ⟨iff_of_false (by simp [hsome]) ?_, fun found hfound => ?_⟩
    · rintro ⟨ws, hws, hnone⟩
      exact hread ws hws (hookFiles_eq_none_iff.mpr hnone)
    · refine ⟨lastOfKind isGeneric (hookCandidates fs workspaces),
        lastOfKind (isSpecific environ) (hookCandidates fs workspaces),
        Option.some.inj (hfound.symm.trans hsome), lastOfKind_sublist _ _,
        lastOfKind_sublist _ _, nodup_foundHooks fs environ cmakePrefixPath,
        fun _ _ => mem_lastOfKind, fun _ _ => mem_lastOfKind⟩
  · push Not at hread
    obtain ⟨ws, hws, hnone⟩ := hread
    have hraised := findEnvHooks_eq_none environ hws hnone
    refine ⟨iff_of_true hraised ⟨ws, hws, hookFiles_eq_none_iff.mp hnone⟩,
      fun found hfound => ?_⟩
    rw [hraised] at hfound
    cases hfound

end LivoxScripts.SetupUtil
