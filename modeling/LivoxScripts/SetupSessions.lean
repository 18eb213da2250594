/-
A shell in which setup files are sourced, paths are put in front of variables
or behind them and `setup_livox_ros2.bash` takes the Noetic entries out, in any
order.
-/
import LivoxScripts.SetupLivoxRos2
import LivoxScripts.EnvHooks
import LivoxScripts.SetupPaths

namespace LivoxScripts.SetupUtil

open TextTools Store

/-- What is done to the variables of a shell. -/
inductive ShellCommand where
  /-- A setup file is sourced. -/
  | source (args : Arguments) (file : SetupFile)
  /-- `export key=path:$key` -/
  | exportPath (key path : Text)
  /-- `key=$key:path` -/
  | appendPath (key path : Text)
  /-- The guarded export of `setup_livox_ros2.bash`, which the script comes to
  after it has sourced its own workspace. -/
  | setupLivoxRos2

/-- The lines of a setup file run, and after them its hooks, which leave the
variables of the table alone. -/
def Sourced (fs : FileSystem) (args : Arguments) (file : SetupFile)
    (environ environ' : Environ) : Prop :=
  ∃ sourced, runLines environ (exportLines fs args file environ) =
      some sourced ∧
    ∀ entry ∈ envVarSubfolders, environ' entry.1 = sourced entry.1

/-- One command.  If the script raises an error while it looks for hooks,
`setup.sh` returns before it sources any line. -/
inductive ShellStep (fs : FileSystem) :
    Environ → ShellCommand → Environ → Prop where
  | source {environ environ' : Environ} {args : Arguments} {file : SetupFile}
      (hhooks : findEnvHooks fs environ (file.cmakePrefixPath args) ≠ none)
      (hsourced : Sourced fs args file environ environ') :
      ShellStep fs environ (.source args file) environ'
  | sourceFails {environ : Environ} {args : Arguments} {file : SetupFile}
      (hhooks : findEnvHooks fs environ (file.cmakePrefixPath args) = none) :
      ShellStep fs environ (.source args file) environ
  | exportPath (environ : Environ) (key path : Text) :
      ShellStep fs environ (.exportPath key path)
        (environ.set key (path ++ ':' :: environ.value key))
  | appendPath (environ : Environ) (key path : Text) :
      ShellStep fs environ (.appendPath key path)
        (environ.set key (environ.value key ++ ':' :: path))
  | setupLivoxRos2 (environ : Environ) :
      ShellStep fs environ .setupLivoxRos2
        (if (environ.value ldLibraryPathKey).isEmpty then environ
        else environ.set ldLibraryPathKey
          (filterLibraryPath (environ.value ldLibraryPathKey)))

/-- The environment a shell comes to. -/
inductive Session (fs : FileSystem) (first : Environ) :
    List ShellCommand → Environ → Prop where
  | refl : Session fs first [] first
  | step {commands : List ShellCommand} {command : ShellCommand}
      {environ environ' : Environ} (h : Session fs first commands environ)
      (hstep : ShellStep fs environ command environ') :
      Session fs first (commands ++ [command]) environ'

/-- The workspaces of a machine.  One that has a folder is there and carries
the marker. -/
structure Installation where
  fs : FileSystem
  workspaces : List Text
  clean : ∀ ws ∈ workspaces, ws ≠ [] ∧ ws.getLast? ≠ some '/'
  marked : ∀ ws ∈ workspaces, ∀ entry ∈ envVarSubfolders,
    ∀ subfolder ∈ entry.2, fs.pathExists (folder ws subfolder) = true →
      fs.pathExists ws = true ∧
        fs.isfile (join ws catkinMarkerFile) = true

/-- The path is no folder of a workspace of the machine. -/
def Installation.foreign (inst : Installation) (subfolders : List Text)
    (path : Text) : Bool :=
  !(folders inst.workspaces subfolders).contains (cleanPath path)

/-- The entries of a variable that no setup file has put there. -/
def Installation.ownEntries (inst : Installation) (environ : Environ)
    (entry : Text × List Text) : List Text :=
  (entries environ entry.1).filter (inst.foreign entry.2)

/-- The entry stays in `setup_livox_ros2.bash`. -/
def staysInLivox (path : Text) : Bool := decide (¬ noeticPrefix <:+: path)

/-- What a command does to the entries no setup file has put there. -/
def ShellCommand.onOwn (entry : Text × List Text) (own : List Text) :
    ShellCommand → List Text
  | .source _ _ => own
  | .exportPath key path => if entry.1 = key then path :: own else own
  | .appendPath key path => if entry.1 = key then own ++ [path] else own
  | .setupLivoxRos2 =>
      if entry.1 = ldLibraryPathKey then own.filter staysInLivox else own

/-- A path that may be put in a variable: it has a slash and no colon, and is no
folder of the workspaces. -/
structure Installation.Admits (inst : Installation) (key path : Text) :
    Prop where
  plain : Plain path
  slash : '/' ∈ path
  no_colon : ':' ∉ path
  foreign : ∀ entry ∈ envVarSubfolders, entry.1 = key →
    inst.foreign entry.2 path = true
  no_workspace : key = cmakePrefixPathKey →
    isWorkspace inst.fs true true path = false

/-- The setup files are of workspaces of the machine, and what else is put in a
variable is none of them. -/
def ShellCommand.Allowed (inst : Installation) : ShellCommand → Prop
  | .source args file => Plain (file.cmakePrefixPath args) ∧
      ∀ ws ∈ splitPaths (file.cmakePrefixPath args), ws ∈ inst.workspaces
  | .exportPath key path | .appendPath key path => inst.Admits key path
  | .setupLivoxRos2 => True

/-- The variables hold entries of their own and, each once, folders of
workspaces that `CMAKE_PREFIX_PATH` names. -/
structure Layered (inst : Installation) (environ : Environ) : Prop where
  plain : ∀ entry ∈ envVarSubfolders, Plain (environ.value entry.1)
  slash : ∀ path ∈ entries environ ldLibraryPathKey, '/' ∈ path
  workspaces : ∀ ws ∈ getWorkspaces inst.fs environ true true,
    ws ∈ inst.workspaces
  covered : ∀ entry ∈ envVarSubfolders, ∀ path ∈ entries environ entry.1,
    inst.foreign entry.2 path = false →
      path ∈ finds inst.fs environ entry.2
  once : ∀ entry ∈ envVarSubfolders,
    ((entries environ entry.1).filter (!inst.foreign entry.2 ·)).Nodup

variable {inst : Installation} {environ environ' : Environ}
  {entry : Text × List Text}
  {path ws subfolder : Text}

theorem cleanPath_of_last (h : path.getLast? ≠ some '/') :
    cleanPath path = path := if_neg h

theorem pathToFind_eq (hentry : entry ∈ envVarSubfolders)
    (hsub : subfolder ∈ entry.2) :
    pathToFind ws subfolder = folder ws subfolder := by
  obtain ⟨-, -, hhead, hlast⟩ := envVar_subfolder entry hentry subfolder hsub
  rw [pathToFind, trimSubfolder, if_neg hhead, cleanPath_of_last hlast]

theorem mem_finds (hentry : entry ∈ envVarSubfolders) :
    path ∈ finds inst.fs environ entry.2 ↔
      ∃ subfolder ∈ entry.2, ∃ ws ∈ getWorkspaces inst.fs environ true true,
        folder ws subfolder = path := by
  rw [finds, List.mem_flatMap]
  refine exists_congr fun subfolder => and_congr_right fun hsub => ?_
  rw [List.mem_map]
  refine exists_congr fun ws => and_congr_right fun _ => ?_
  rw [pathToFind_eq hentry hsub]

theorem foreign_eq_false_iff :
    inst.foreign entry.2 path = false ↔
      ∃ ws ∈ inst.workspaces, ∃ subfolder ∈ entry.2,
        folder ws subfolder = cleanPath path := by
  rw [Installation.foreign, Bool.not_eq_false', List.contains_iff_mem,
    mem_folders]

/-- A named folder of a workspace, spelled out. -/
theorem folder_of_ne_nil (hws : ws ∈ inst.workspaces)
    (hentry : entry ∈ envVarSubfolders) (hsub : subfolder ∈ entry.2)
    (hne : subfolder ≠ []) : folder ws subfolder = ws ++ '/' :: subfolder := by
  obtain ⟨hwsNe, hlast⟩ := inst.clean ws hws
  obtain ⟨-, -, hhead, -⟩ := envVar_subfolder entry hentry subfolder hsub
  rw [folder, if_neg hne, join, if_neg hhead,
    if_neg fun h => h.elim hwsNe hlast]

theorem cleanPath_folder (hws : ws ∈ inst.workspaces)
    (hentry : entry ∈ envVarSubfolders) (hsub : subfolder ∈ entry.2) :
    cleanPath (folder ws subfolder) = folder ws subfolder := by
  obtain ⟨-, hlast⟩ := inst.clean ws hws
  obtain ⟨-, -, -, hsubLast⟩ := envVar_subfolder entry hentry subfolder hsub
  by_cases hne : subfolder = []
  · rw [folder, if_pos hne]
    exact cleanPath_of_last hlast
  · rw [folder, if_neg hne]
    apply cleanPath_of_last
    rw [getLast?_join ws hne]
    exact hsubLast

theorem foreign_folder (hws : ws ∈ inst.workspaces)
    (hentry : entry ∈ envVarSubfolders) (hsub : subfolder ∈ entry.2) :
    inst.foreign entry.2 (folder ws subfolder) = false :=
  foreign_eq_false_iff.mpr ⟨ws, hws, subfolder, hsub,
    (cleanPath_folder hws hentry hsub).symm⟩

variable {args : Arguments} {file : SetupFile}

/-- A folder that the variable holds is found by its workspace. -/
theorem Layered.cleanPath_eq (h : Layered inst environ)
    (hentry : entry ∈ envVarSubfolders) (hpath : path ∈ entries environ entry.1)
    (hlayer : inst.foreign entry.2 path = false) : cleanPath path = path := by
  obtain ⟨subfolder, hsub, ws, hws, rfl⟩ :=
    (mem_finds hentry).mp (h.covered entry hentry path hpath hlayer)
  exact cleanPath_folder (h.workspaces ws hws) hentry hsub

/-- A rollback leaves the entries that no setup file has put there. -/
theorem Layered.remains_eq (h : Layered inst environ)
    (hentry : entry ∈ envVarSubfolders) :
    remains inst.fs environ entry.1 entry.2 = inst.ownEntries environ entry := by
  have hother : ∀ key ∈ finds inst.fs environ entry.2,
      ∀ x, inst.foreign entry.2 x = true → hits key x = false := by
    intro key hkey x hx
    obtain ⟨subfolder, hsub, ws, hws, rfl⟩ := (mem_finds hentry).mp hkey
    rw [hits, beq_eq_false_iff_ne]
    intro heq
    have hlayer : inst.foreign entry.2 x = false := foreign_eq_false_iff.mpr
      ⟨ws, h.workspaces ws hws, subfolder, hsub, heq.symm⟩
    simp [hlayer] at hx
  refine takeOut_eq_filter (fun key hkey x _ => hother key hkey x) ?_ ?_
    (h.once entry hentry)
  · intro x hx hlayer
    refine ⟨x, h.covered entry hentry x hx hlayer, ?_⟩
    rw [hits, h.cleanPath_eq hentry hx hlayer, beq_self_eq_true]
  · intro key hkey x hx y hy hhit hhit'
    have hclean : ∀ z ∈ entries environ entry.1, hits key z = true → z = key := by
      intro z hz hz'
      have hlayer : inst.foreign entry.2 z = false := by
        by_contra hforeign
        have hmiss := hother key hkey z (by simpa using hforeign)
        simp [hmiss] at hz'
      rw [← h.cleanPath_eq hentry hz hlayer]
      simpa [hits] using hz'
    exact (hclean x hx hhit).trans (hclean y hy hhit').symm

/-- What a setup file leaves below its folders holds the same entries of other
origin, and nothing twice that was not there twice. -/
theorem Layered.below_spec (h : Layered inst environ) (args : Arguments)
    (hentry : entry ∈ envVarSubfolders) :
    (below inst.fs args environ entry).filter (inst.foreign entry.2) =
        inst.ownEntries environ entry ∧
      (below inst.fs args environ entry).Sublist (entries environ entry.1) ∧
        (args.extend = false →
          below inst.fs args environ entry = inst.ownEntries environ entry) := by
  rw [below]
  by_cases hextend : args.extend = true
  · rw [if_pos hextend]
    exact ⟨rfl, List.Sublist.refl _, fun hnot => by simp [hnot] at hextend⟩
  · rw [if_neg hextend, h.remains_eq hentry]
    refine ⟨?_, List.filter_sublist, fun _ => rfl⟩
    exact List.filter_eq_self.mpr fun x hx => (List.mem_filter.mp hx).2

/-- After a setup file has been sourced. -/
theorem entries_source (hfile : Plain (file.cmakePrefixPath args))
    (henv : ∀ entry ∈ envVarSubfolders, Plain (environ.value entry.1))
    (hsourced : Sourced inst.fs args file environ environ') :
    ∀ entry ∈ envVarSubfolders,
      entries environ' entry.1 = newOnes (below inst.fs args environ entry)
          (layer inst.fs (splitPaths (file.cmakePrefixPath args)) entry.2) ++
            below inst.fs args environ entry ∧
        Plain (environ'.value entry.1) := by
  obtain ⟨sourced, hlines, hhooks⟩ := hsourced
  obtain ⟨after, hrun, hset, -⟩ := runLines_exportLines inst.fs hfile henv
  obtain rfl := Option.some.inj (hrun.symm.trans hlines)
  intro entry hentry
  have hvalue := value_congr (hhooks entry hentry)
  obtain ⟨hentries, hplain⟩ := hset entry hentry
  exact ⟨(congrArg splitPaths hvalue).trans hentries, hvalue ▸ hplain⟩

theorem cmakePrefixPath_mem : (cmakePrefixPathKey, [[]]) ∈ envVarSubfolders :=
  List.mem_cons_self

def ldSubfolders : List Text := ["lib".toList, "lib/aarch64-linux-gnu".toList]

theorem ldLibraryPath_mem :
    (ldLibraryPathKey, ldSubfolders) ∈ envVarSubfolders := by decide

theorem ldSubfolders_ne_nil : ∀ subfolder ∈ ldSubfolders, subfolder ≠ [] := by
  decide

theorem mem_getWorkspaces : ws ∈ getWorkspaces inst.fs environ true true ↔
    ws ∈ entries environ cmakePrefixPathKey ∧
      isWorkspace inst.fs true true ws = true :=
  List.mem_filter

/-- A workspace whose folder is put in is named in `CMAKE_PREFIX_PATH`. -/
theorem mem_getWorkspaces_of_source (h : Layered inst environ)
    (hallowed : (ShellCommand.source args file).Allowed inst)
    (hsourced : Sourced inst.fs args file environ environ')
    (hws : ws ∈ splitPaths (file.cmakePrefixPath args)) {subfolder : Text}
    (hentry : entry ∈ envVarSubfolders) (hsub : subfolder ∈ entry.2)
    (hexists : inst.fs.pathExists (folder ws subfolder) = true) :
    ws ∈ getWorkspaces inst.fs environ' true true := by
  obtain ⟨hthere, hmarker⟩ := inst.marked ws (hallowed.2 ws hws) entry hentry
    subfolder hsub hexists
  have hcandidate : ws ∈ layer inst.fs
      (splitPaths (file.cmakePrefixPath args)) [[]] :=
    List.mem_filter.mpr ⟨mem_folders.mpr
      ⟨ws, hws, [], List.mem_cons_self, if_pos rfl⟩, hthere⟩
  obtain ⟨hentries, -⟩ := entries_source hallowed.1 h.plain hsourced _
    cmakePrefixPath_mem
  refine mem_getWorkspaces.mpr ⟨?_, by simp [isWorkspace, hmarker]⟩
  rw [hentries, List.mem_append, mem_newOnes]
  exact (Classical.em _).symm.imp_left fun hnew => ⟨hcandidate, hnew⟩

/-- Workspaces that stay below are named as before. -/
theorem getWorkspaces_of_extend (h : Layered inst environ)
    (hallowed : (ShellCommand.source args file).Allowed inst)
    (hsourced : Sourced inst.fs args file environ environ')
    (hextend : args.extend = true)
    (hws : ws ∈ getWorkspaces inst.fs environ true true) :
    ws ∈ getWorkspaces inst.fs environ' true true := by
  obtain ⟨hmem, hworkspace⟩ := mem_getWorkspaces.mp hws
  obtain ⟨hentries, -⟩ := entries_source hallowed.1 h.plain hsourced _
    cmakePrefixPath_mem
  refine mem_getWorkspaces.mpr ⟨?_, hworkspace⟩
  rw [hentries, below, if_pos hextend]
  exact List.mem_append_right _ hmem

/-- A setup file changes the layers and nothing else. -/
theorem ownEntries_source (h : Layered inst environ)
    (hallowed : (ShellCommand.source args file).Allowed inst)
    (hsourced : Sourced inst.fs args file environ environ')
    (hentry : entry ∈ envVarSubfolders) :
    inst.ownEntries environ' entry = inst.ownEntries environ entry := by
  obtain ⟨hentries, -⟩ := entries_source hallowed.1 h.plain hsourced entry hentry
  have hnew : (newOnes (below inst.fs args environ entry) (layer inst.fs
      (splitPaths (file.cmakePrefixPath args)) entry.2)).filter
        (inst.foreign entry.2) = [] := by
    rw [List.filter_eq_nil_iff]
    intro path hpath
    obtain ⟨⟨ws, hws, subfolder, hsub, rfl⟩, -⟩ :=
      mem_layer.mp (mem_newOnes.mp hpath).1
    simp [foreign_folder (hallowed.2 ws hws) hentry hsub]
  rw [Installation.ownEntries, hentries, List.filter_append, hnew,
    List.nil_append]
  exact (h.below_spec args hentry).1

/-- Sourcing keeps the variables in layers. -/
theorem Layered.source (h : Layered inst environ)
    (hallowed : (ShellCommand.source args file).Allowed inst)
    (hsourced : Sourced inst.fs args file environ environ') :
    Layered inst environ' := by
  have hafter := entries_source hallowed.1 h.plain hsourced
  refine ⟨fun entry hentry => (hafter entry hentry).2, ?_, ?_, ?_, ?_⟩
  · intro path hpath
    rw [(hafter _ ldLibraryPath_mem).1, List.mem_append] at hpath
    rcases hpath with hnew | hbelow
    · obtain ⟨⟨ws, hws, subfolder, hsub, rfl⟩, -⟩ :=
        mem_layer.mp (mem_newOnes.mp hnew).1
      rw [folder_of_ne_nil (hallowed.2 ws hws) ldLibraryPath_mem hsub
        (ldSubfolders_ne_nil subfolder hsub)]
      simp
    · exact h.slash path
        ((h.below_spec args ldLibraryPath_mem).2.1.subset hbelow)
  · intro ws hws
    obtain ⟨hmem, hworkspace⟩ := mem_getWorkspaces.mp hws
    rw [(hafter _ cmakePrefixPath_mem).1, List.mem_append] at hmem
    rcases hmem with hnew | hbelow
    · obtain ⟨⟨path, hpath, subfolder, hsub, rfl⟩, -⟩ :=
        mem_layer.mp (mem_newOnes.mp hnew).1
      rw [List.mem_singleton.mp hsub]
      exact hallowed.2 path hpath
    · refine h.workspaces ws (mem_getWorkspaces.mpr ⟨?_, hworkspace⟩)
      exact (h.below_spec args cmakePrefixPath_mem).2.1.subset hbelow
  · intro entry hentry path hpath hlayer
    obtain ⟨-, hsub, hown⟩ := h.below_spec args hentry
    rw [(hafter entry hentry).1, List.mem_append] at hpath
    rcases hpath with hnew | hbelow
    · obtain ⟨⟨ws, hws, subfolder, hsub, rfl⟩, hexists⟩ :=
        mem_layer.mp (mem_newOnes.mp hnew).1
      exact (mem_finds hentry).mpr ⟨subfolder, hsub, ws,
        mem_getWorkspaces_of_source h hallowed hsourced hws hentry hsub hexists,
        rfl⟩
    · by_cases hextend : args.extend = true
      · obtain ⟨subfolder, hsub, ws, hws, rfl⟩ := (mem_finds hentry).mp
          (h.covered entry hentry path (hsub.subset hbelow) hlayer)
        exact (mem_finds hentry).mpr ⟨subfolder, hsub, ws,
          getWorkspaces_of_extend h hallowed hsourced hextend hws, rfl⟩
      · rw [hown (by simpa using hextend)] at hbelow
        have hforeign := (List.mem_filter.mp hbelow).2
        simp [hlayer] at hforeign
  · intro entry hentry
    rw [(hafter entry hentry).1, List.filter_append]
    have hbelow := (h.once entry hentry).sublist
      ((h.below_spec args hentry).2.1.filter _)
    refine List.Nodup.append ((nodup_newOnes _ _).filter _) hbelow ?_
    intro path hnew hold
    exact (mem_newOnes.mp (List.mem_of_mem_filter hnew)).2
      (List.mem_of_mem_filter hold)

variable {key value : Text}

theorem getWorkspaces_congr
    (h : environ'.value cmakePrefixPathKey = environ.value cmakePrefixPathKey) :
    getWorkspaces inst.fs environ' true true =
      getWorkspaces inst.fs environ true true := by
  rw [getWorkspaces, getWorkspaces, h]

theorem finds_congr (h : getWorkspaces inst.fs environ' true true =
      getWorkspaces inst.fs environ true true) (subfolders : List Text) :
    finds inst.fs environ' subfolders = finds inst.fs environ subfolders := by
  rw [finds, finds, h]

/-- The layers stay as long as the same workspaces are named and no folder of
them is put in. -/
theorem Layered.of_layers_sublist (h : Layered inst environ)
    (hplain : ∀ entry ∈ envVarSubfolders, Plain (environ'.value entry.1))
    (hslash : ∀ path ∈ entries environ' ldLibraryPathKey, '/' ∈ path)
    (hworkspaces : getWorkspaces inst.fs environ' true true =
      getWorkspaces inst.fs environ true true)
    (hlayers : ∀ entry ∈ envVarSubfolders,
      ((entries environ' entry.1).filter (!inst.foreign entry.2 ·)).Sublist
        ((entries environ entry.1).filter (!inst.foreign entry.2 ·))) :
    Layered inst environ' := by
  refine ⟨hplain, hslash, ?_, ?_, ?_⟩
  · rw [hworkspaces]
    exact h.workspaces
  · intro entry hentry path hpath hlayer
    have hmem := (hlayers entry hentry).subset
      (List.mem_filter.mpr ⟨hpath, by simp [hlayer]⟩)
    rw [finds_congr hworkspaces]
    exact h.covered entry hentry path (List.mem_of_mem_filter hmem) hlayer
  · exact fun entry hentry =>
      (h.once entry hentry).sublist (hlayers entry hentry)

theorem entries_set (environ : Environ) (key value name : Text) :
    entries (environ.set key value) name =
      if name = key then splitPaths value else entries environ name := by
  by_cases hname : name = key
  · rw [if_pos hname, hname, entries, Environ.value_set_self]
  · rw [if_neg hname, entries, Environ.value_set_of_ne _ hname]
    rfl

/-- A variable gets a new value that adds no folder of a workspace. -/
theorem Layered.set (h : Layered inst environ)
    (hplain : ∀ entry ∈ envVarSubfolders, entry.1 = key → Plain value)
    (hslash : key = ldLibraryPathKey → ∀ path ∈ splitPaths value, '/' ∈ path)
    (hworkspaces : key = cmakePrefixPathKey →
      (splitPaths value).filter (isWorkspace inst.fs true true) =
        getWorkspaces inst.fs environ true true)
    (hlayers : ∀ entry ∈ envVarSubfolders, entry.1 = key →
      ((splitPaths value).filter (!inst.foreign entry.2 ·)).Sublist
        ((entries environ entry.1).filter (!inst.foreign entry.2 ·))) :
    Layered inst (environ.set key value) := by
  refine h.of_layers_sublist ?_ ?_ ?_ ?_
  · intro entry hentry
    by_cases hname : entry.1 = key
    · rw [hname, Environ.value_set_self]
      exact hplain entry hentry hname
    · rw [Environ.value_set_of_ne _ hname]
      exact h.plain entry hentry
  · rw [entries_set]
    split
    · next hname => exact hslash hname.symm
    · exact h.slash
  · by_cases hname : cmakePrefixPathKey = key
    · have hvalue : entries (environ.set key value) cmakePrefixPathKey =
          splitPaths value := by rw [entries_set, if_pos hname]
      exact (congrArg (List.filter _) hvalue).trans (hworkspaces hname.symm)
    · exact getWorkspaces_congr (Environ.value_set_of_ne _ hname _)
  · intro entry hentry
    rw [entries_set]
    split
    · next hname => exact hlayers entry hentry hname
    · exact List.Sublist.refl _

/-- The value of a variable with an admitted path before it or behind it. -/
theorem Installation.Admits.layered (hadmits : inst.Admits key path)
    (h : Layered inst environ)
    (hvalue : value = path ++ ':' :: environ.value key ∨
      value = environ.value key ++ ':' :: path) :
    Layered inst (environ.set key value) := by
  have hsingle : splitPaths path = [path] :=
    splitPaths_single (List.ne_nil_of_mem hadmits.slash) hadmits.no_colon
  have hsep : Plain [':'] := by decide
  have hsplit : splitPaths value = path :: entries environ key ∨
      splitPaths value = entries environ key ++ [path] := by
    rcases hvalue with rfl | rfl
    · rw [splitPaths_append, hsingle]
      exact Or.inl rfl
    · rw [splitPaths_append, hsingle]
      exact Or.inr rfl
  have hfilter : ∀ p : Text → Bool, p path = false →
      (splitPaths value).filter p = (entries environ key).filter p := by
    intro p hp
    rcases hsplit with hsplit | hsplit
    · rw [hsplit, List.filter_cons_of_neg (by simp [hp])]
    · rw [hsplit, List.filter_append, List.filter_singleton, hp, cond_false,
        List.append_nil]
  refine h.set ?_ ?_ ?_ ?_
  · intro entry hentry hname
    have hold := h.plain entry hentry
    rw [hname] at hold
    rcases hvalue with rfl | rfl
    · exact hadmits.plain.append (hsep.append hold)
    · exact hold.append (hsep.append hadmits.plain)
  · intro hname p hp
    have hold : p ∈ entries environ key → '/' ∈ p := by
      rw [hname]
      exact h.slash p
    rcases hsplit with hsplit | hsplit
    · rw [hsplit, List.mem_cons] at hp
      exact hp.elim (fun heq => heq ▸ hadmits.slash) hold
    · rw [hsplit, List.mem_append, List.mem_singleton] at hp
      exact hp.elim hold fun heq => heq ▸ hadmits.slash
  · intro hname
    rw [hfilter _ (hadmits.no_workspace hname), hname]
    rfl
  · intro entry hentry hname
    rw [hfilter _ (by simp [hadmits.foreign entry hentry hname]), hname]

/-- A path of other origin comes on top of its kind. -/
theorem Layered.exportPath (h : Layered inst environ)
    (hadmits : inst.Admits key path) :
    let after := environ.set key (path ++ ':' :: environ.value key)
    Layered inst after ∧ ∀ entry ∈ envVarSubfolders,
      inst.ownEntries after entry = (ShellCommand.exportPath key path).onOwn
        entry (inst.ownEntries environ entry) := by
  refine ⟨hadmits.layered h (Or.inl rfl), fun entry hentry => ?_⟩
  rw [Installation.ownEntries, entries_set, ShellCommand.onOwn]
  by_cases hname : entry.1 = key
  · rw [if_pos hname, if_pos hname, splitPaths_append,
      splitPaths_single (List.ne_nil_of_mem hadmits.slash) hadmits.no_colon,
      List.singleton_append,
      List.filter_cons_of_pos (hadmits.foreign entry hentry hname), ← hname]
    rfl
  · rw [if_neg hname, if_neg hname]
    rfl

/-- Or it comes below its kind. -/
theorem Layered.appendPath (h : Layered inst environ)
    (hadmits : inst.Admits key path) :
    let after := environ.set key (environ.value key ++ ':' :: path)
    Layered inst after ∧ ∀ entry ∈ envVarSubfolders,
      inst.ownEntries after entry = (ShellCommand.appendPath key path).onOwn
        entry (inst.ownEntries environ entry) := by
  refine ⟨hadmits.layered h (Or.inr rfl), fun entry hentry => ?_⟩
  rw [Installation.ownEntries, entries_set, ShellCommand.onOwn]
  by_cases hname : entry.1 = key
  · rw [if_pos hname, if_pos hname, splitPaths_append,
      splitPaths_single (List.ne_nil_of_mem hadmits.slash) hadmits.no_colon,
      List.filter_append, List.filter_singleton,
      hadmits.foreign entry hentry hname, cond_true, ← hname]
    rfl
  · rw [if_neg hname, if_neg hname]
    rfl

/-- The entries that `setup_livox_ros2.bash` leaves. -/
theorem splitPaths_filterLibraryPath {value : Text} (hne : value ≠ [])
    (hplain : Plain value) (hslash : ∀ path ∈ splitPaths value, '/' ∈ path) :
    splitPaths (filterLibraryPath value) =
        (splitPaths value).filter staysInLivox ∧
      Plain (filterLibraryPath value) := by
  have hecho : isEchoOption value = false := by
    cases hentries : splitPaths value with
    | nil =>
        obtain ⟨rest, rfl, -⟩ := splitPaths_eq_nil hentries hne
        exact isEchoOption_of_mem List.mem_cons_self (by decide)
    | cons path paths =>
        have hmem : path ∈ splitPaths value := by simp [hentries]
        exact isEchoOption_of_mem
          (mem_of_mem_splitPaths hmem (hslash path hmem) (by decide)) (by decide)
  have hkept : (keptEntries value).filter (! ·.isEmpty) =
      (splitPaths value).filter staysInLivox := by
    rw [keptEntries, List.filter_comm]
    rfl
  rw [filterLibraryPath_eq hne hplain.no_newline hecho]
  constructor
  · rw [← hkept]
    by_cases hnone : keptEntries value = []
    · simp [keptPath, hnone]
    · have hsplit : (keptPath value).splitOnP (· == ':') = keptEntries value :=
        splitOn_keptPath hnone
      rw [splitPaths, wordsBy, hsplit]
  · exact plain_joinPaths_iff.mpr fun path hpath =>
      hplain.splitOn path (List.mem_of_mem_filter hpath)

/-- The filter goes through the layers and the other entries alike. -/
theorem Layered.setupLivoxRos2 (h : Layered inst environ)
    (hstep : ShellStep inst.fs environ .setupLivoxRos2 environ') :
    Layered inst environ' ∧ ∀ entry ∈ envVarSubfolders,
      inst.ownEntries environ' entry = ShellCommand.setupLivoxRos2.onOwn entry
        (inst.ownEntries environ entry) := by
  have hplain : Plain (environ.value ldLibraryPathKey) :=
    h.plain _ ldLibraryPath_mem
  cases hstep with
  | setupLivoxRos2 =>
      by_cases hempty : environ.value ldLibraryPathKey = []
      · rw [if_pos (by simpa using hempty)]
        refine ⟨h, fun entry _ => ?_⟩
        rw [ShellCommand.onOwn]
        split
        · next hname =>
            rw [Installation.ownEntries, entries, hname, hempty]
            rfl
        · rfl
      · obtain ⟨hsplit, hfiltered⟩ :=
          splitPaths_filterLibraryPath hempty hplain h.slash
        rw [if_neg (by simpa using hempty)]
        refine ⟨h.set (fun _ _ _ => hfiltered) ?_ ?_ ?_, fun entry _ => ?_⟩
        · intro _ path hpath
          rw [hsplit] at hpath
          exact h.slash path (List.mem_of_mem_filter hpath)
        · exact fun hname => absurd hname (by decide)
        · intro entry _ hname
          rw [hsplit, hname]
          exact List.filter_sublist.filter _
        · rw [Installation.ownEntries, entries_set, ShellCommand.onOwn]
          split
          · next hname =>
              rw [hsplit, List.filter_comm, Installation.ownEntries, hname]
              rfl
          · rfl

variable {first : Environ} {command : ShellCommand}
  {commands : List ShellCommand}

/-- Any command keeps the layers apart from the other entries, and does to those
what it does without layers. -/
theorem Layered.step (h : Layered inst environ)
    (hallowed : command.Allowed inst)
    (hstep : ShellStep inst.fs environ command environ') :
    Layered inst environ' ∧ ∀ entry ∈ envVarSubfolders,
      inst.ownEntries environ' entry =
        command.onOwn entry (inst.ownEntries environ entry) := by
  cases command with
  | source args file =>
      cases hstep with
      | source hhooks hsourced =>
          exact ⟨h.source hallowed hsourced, fun entry hentry =>
            ownEntries_source h hallowed hsourced hentry⟩
      | sourceFails hhooks => exact ⟨h, fun _ _ => rfl⟩
  | exportPath key path =>
      cases hstep with
      | exportPath => exact h.exportPath hallowed
  | appendPath key path =>
      cases hstep with
      | appendPath => exact h.appendPath hallowed
  | setupLivoxRos2 => exact h.setupLivoxRos2 hstep

/-- What a session does to the other entries. -/
def ownAfter (entry : Text × List Text) (commands : List ShellCommand)
    (own : List Text) : List Text :=
  commands.foldl (fun own command => command.onOwn entry own) own

theorem Session.layered (h : Session inst.fs first commands environ)
    (hfirst : Layered inst first)
    (hallowed : ∀ command ∈ commands, command.Allowed inst) :
    Layered inst environ ∧ ∀ entry ∈ envVarSubfolders,
      inst.ownEntries environ entry =
        ownAfter entry commands (inst.ownEntries first entry) := by
  induction h with
  | refl => exact ⟨hfirst, fun _ _ => rfl⟩
  | step h hstep ih =>
      obtain ⟨hlayered, hown⟩ := ih fun command hcommand =>
        hallowed command (List.mem_append_left _ hcommand)
      obtain ⟨hlayered', hown'⟩ := hlayered.step
        (hallowed _ (List.mem_append_right _ List.mem_cons_self)) hstep
      refine ⟨hlayered', fun entry hentry => ?_⟩
      rw [hown' entry hentry, hown entry hentry, ownAfter, ownAfter,
        List.foldl_append]
      rfl

/-- Whatever has been sourced, exported and filtered before, in whatever order,
the setup file that is sourced now, if its hooks can be listed, leaves its own
folders above the entries that no setup file has put there. -/
theorem Session.entries_sourced {args : Arguments} {file : SetupFile}
    (h : Session inst.fs first commands environ) (hfirst : Layered inst first)
    (hallowed : ∀ command ∈ commands, command.Allowed inst)
    (hfile : (ShellCommand.source args file).Allowed inst)
    (hextend : args.extend = false)
    (hhooks : findEnvHooks inst.fs environ (file.cmakePrefixPath args) ≠ none)
    (hstep : ShellStep inst.fs environ (.source args file) environ') :
    ∀ entry ∈ envVarSubfolders, entries environ' entry.1 =
      newOnes [] (layer inst.fs (splitPaths (file.cmakePrefixPath args))
          entry.2) ++
        ownAfter entry commands (inst.ownEntries first entry) := by
  intro entry hentry
  obtain ⟨hlayered, hown⟩ := h.layered hfirst hallowed
  have hsourced : Sourced inst.fs args file environ environ' := by
    cases hstep with
    | source _ hsourced => exact hsourced
    | sourceFails hnone => exact absurd hnone hhooks
  obtain ⟨hentries, -⟩ := entries_source hfile.1 hlayered.plain hsourced entry
    hentry
  obtain ⟨-, -, hbelow⟩ := hlayered.below_spec args hentry
  rw [hentries, hbelow hextend, hown entry hentry]
  refine congrArg (· ++ _) (newOnes_congr fun path hpath => ?_)
  obtain ⟨⟨ws, hws, subfolder, hsub, rfl⟩, -⟩ := mem_layer.mp hpath
  refine iff_of_false (fun hmem => ?_) List.not_mem_nil
  rw [← hown entry hentry] at hmem
  have hforeign := (List.mem_filter.mp hmem).2
  simp [foreign_folder (hfile.2 ws hws) hentry hsub] at hforeign

/-- No command gets stuck. -/
theorem Layered.exists_step (h : Layered inst environ)
    (hallowed : command.Allowed inst) :
    ∃ environ', ShellStep inst.fs environ command environ' := by
  cases command with
  | source args file =>
      obtain ⟨sourced, hrun, -⟩ :=
        runLines_exportLines inst.fs hallowed.1 h.plain
      by_cases hhooks : findEnvHooks inst.fs environ
          (file.cmakePrefixPath args) = none
      · exact ⟨environ, .sourceFails hhooks⟩
      · exact ⟨sourced, .source hhooks ⟨sourced, hrun, fun _ _ => rfl⟩⟩
  | exportPath key path => exact ⟨_, .exportPath environ key path⟩
  | appendPath key path => exact ⟨_, .appendPath environ key path⟩
  | setupLivoxRos2 => exact ⟨_, .setupLivoxRos2 environ⟩

theorem exists_session (hfirst : Layered inst first)
    (hallowed : ∀ command ∈ commands, command.Allowed inst) :
    ∃ environ, Session inst.fs first commands environ := by
  induction commands using List.reverseRecOn with
  | nil => exact ⟨first, .refl⟩
  | append_singleton commands command ih =>
      have hcommands := fun c hc => hallowed c (List.mem_append_left [command] hc)
      obtain ⟨environ, h⟩ := ih hcommands
      obtain ⟨environ', hstep⟩ := (h.layered hfirst hcommands).1.exists_step
        (hallowed command (List.mem_append_right _ List.mem_cons_self))
      exact ⟨environ', h.step hstep⟩

def noeticSetup : SetupFile :=
  ⟨"/opt/ros/noetic".toList, ["/opt/ros/noetic".toList]⟩

def cartographerSetup : SetupFile where
  basePath := "/home/bingda/cartographer_ws/install_isolated".toList
  generated := ["/home/bingda/cartographer_ws/install_isolated".toList,
    "/home/bingda/catkin_ws/devel".toList, "/opt/ros/noetic".toList]

def robotPaths : List Text :=
  ["/opt/ros/noetic".toList, "/opt/ros/noetic/lib".toList,
    "/opt/ros/noetic/bin".toList,
    "/opt/ros/noetic/etc/catkin/profile.d".toList,
    "/home/bingda/cartographer_ws/install_isolated".toList,
    "/home/bingda/cartographer_ws/install_isolated/lib".toList]

def robotFiles : List Text :=
  ["/opt/ros/noetic/.catkin".toList,
    "/home/bingda/cartographer_ws/install_isolated/.catkin".toList]

theorem rosDistroHook_slash : '/' ∉ "1.ros_distro.sh".toList := by decide

def rosDistroHook : FileName := ⟨"1.ros_distro.sh".toList, rosDistroHook_slash⟩

def robotFileSystem : FileSystem where
  pathExists path := (robotPaths ++ robotFiles).contains path
  isfile path := robotFiles.contains path
  isdir path := robotPaths.contains path
  listdir path :=
    if path = "/opt/ros/noetic/etc/catkin/profile.d".toList then
      some [rosDistroHook]
    else none

theorem robot_clean : ∀ ws ∈ cartographerSetup.generated,
    ws ≠ [] ∧ ws.getLast? ≠ some '/' := by decide

theorem robot_marked : ∀ ws ∈ cartographerSetup.generated,
    ∀ entry ∈ envVarSubfolders, ∀ subfolder ∈ entry.2,
      robotFileSystem.pathExists (folder ws subfolder) = true →
        robotFileSystem.pathExists ws = true ∧
          robotFileSystem.isfile (join ws catkinMarkerFile) = true := by
  decide +kernel

def robot : Installation where
  fs := robotFileSystem
  workspaces := cartographerSetup.generated
  clean := robot_clean
  marked := robot_marked

/-- A shell that knows the libraries of the system only. -/
def freshShell : Environ := fun name =>
  if name = ldLibraryPathKey then some "/usr/lib".toList else none

theorem freshShell_layered : Layered robot freshShell where
  plain := by decide +kernel
  slash := by decide +kernel
  workspaces := by decide +kernel
  covered := by decide +kernel
  once := by decide +kernel

/-- The only hook directory of the robot can be read. -/
theorem findEnvHooks_robot (environ : Environ) : findEnvHooks robot.fs environ
    (cartographerSetup.cmakePrefixPath ⟨false, false⟩) ≠ none := by
  have hread : ∀ ws ∈ markedWorkspaces robotFileSystem
      (cartographerSetup.cmakePrefixPath ⟨false, false⟩),
        hookFiles robotFileSystem ws ≠ none := by
    decide +kernel
  rw [robot, findEnvHooks_eq_some environ hread]
  exact Option.some_ne_none _

def cudaLibraries : Text := "/usr/local/cuda-11.4/lib64".toList

def localPackages : Text := "/usr/local/lib/pkgconfig".toList

theorem source_allowed {args : Arguments} {file : SetupFile}
    (hplain : Plain (file.cmakePrefixPath args))
    (hpaths : ∀ ws ∈ splitPaths (file.cmakePrefixPath args),
      ws ∈ cartographerSetup.generated) :
    (ShellCommand.source args file).Allowed robot :=
  ⟨hplain, hpaths⟩

theorem exportPath_allowed :
    (ShellCommand.exportPath ldLibraryPathKey cudaLibraries).Allowed robot :=
  ⟨by decide, by decide, by decide, by decide +kernel, by decide⟩

theorem appendPath_allowed :
    (ShellCommand.appendPath "PKG_CONFIG_PATH".toList localPackages).Allowed
      robot :=
  ⟨by decide, by decide, by decide, by decide +kernel, by decide⟩

/-- Noetic is sourced, its entries are taken out again, and the workspace of the
cartographer is sourced on top of what was exported between. -/
theorem entries_sourced_robot : ∃ environ',
    Session robot.fs freshShell
      [.source ⟨false, false⟩ noeticSetup,
        .exportPath ldLibraryPathKey cudaLibraries,
        .appendPath "PKG_CONFIG_PATH".toList localPackages, .setupLivoxRos2,
        .source ⟨false, false⟩ cartographerSetup] environ' ∧
      entries environ' ldLibraryPathKey =
        ["/home/bingda/cartographer_ws/install_isolated/lib".toList,
          "/opt/ros/noetic/lib".toList, cudaLibraries, "/usr/lib".toList] := by
  have hallowed : ∀ command ∈ [ShellCommand.source ⟨false, false⟩ noeticSetup,
      .exportPath ldLibraryPathKey cudaLibraries,
      .appendPath "PKG_CONFIG_PATH".toList localPackages, .setupLivoxRos2],
        command.Allowed robot := by
    simp only [List.forall_mem_cons]
    exact ⟨source_allowed (by decide) (by decide), exportPath_allowed,
      appendPath_allowed, trivial, List.forall_mem_nil _⟩
  have hfile : (ShellCommand.source ⟨false, false⟩ cartographerSetup).Allowed
      robot := source_allowed (by decide) (by decide)
  obtain ⟨environ, h⟩ := exists_session freshShell_layered hallowed
  obtain ⟨environ', hstep⟩ :=
    (h.layered freshShell_layered hallowed).1.exists_step hfile
  refine ⟨environ', h.step hstep, ?_⟩
  refine (h.entries_sourced freshShell_layered hallowed hfile rfl
    (findEnvHooks_robot environ) hstep _ ldLibraryPath_mem).trans ?_
  decide +kernel

end LivoxScripts.SetupUtil
