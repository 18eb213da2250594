/-
The search paths that a setup file leaves: the existing folders of its own
workspaces above what the variable holds without those of other workspaces.
-/
import LivoxScripts.SetupUtil

namespace LivoxScripts.SetupUtil

open TextTools Store

/-- The nonempty entries of a variable. -/
def entries (environ : Environ) (name : Text) : List Text :=
  splitPaths (environ.value name)

/-- A path is the one to find, up to a slash at its end. -/
def hits (find path : Text) : Bool := cleanPath path == find

/-- What a rollback looks for in a variable with these subfolders. -/
def finds (fs : FileSystem) (environ : Environ) (subfolders : List Text) :
    List Text :=
  subfolders.flatMap fun subfolder =>
    (getWorkspaces fs environ true true).map (pathToFind · subfolder)

/-- What a rollback leaves of a variable. -/
def remains (fs : FileSystem) (environ : Environ) (name : Text)
    (subfolders : List Text) : List Text :=
  takeOut hits (finds fs environ subfolders) (entries environ name)

/-- The folders of the workspaces that are there. -/
def layer (fs : FileSystem) (paths subfolders : List Text) : List Text :=
  (folders paths subfolders).filter fs.pathExists

/-- The character means itself inside double quotes, on one line. -/
def isPlain (c : Char) : Bool := !isSpecial c && c != '$' && c != '\n'

def Plain (t : Text) : Prop := ∀ c ∈ t, isPlain c = true

instance : DecidablePred Plain := fun t =>
  decidable_of_iff (t.all isPlain = true) List.all_eq_true

/-- What a setup file leaves of a variable before it adds its own folders. -/
def below (fs : FileSystem) (args : Arguments) (environ : Environ)
    (entry : Text × List Text) : List Text :=
  if args.extend then entries environ entry.1
  else remains fs environ entry.1 entry.2

variable {t u path : Text} {ps : List Text}

@[simp] theorem splitPaths_nil : splitPaths [] = [] := rfl

theorem splitPaths_append (t u : Text) :
    splitPaths (t ++ ':' :: u) = splitPaths t ++ splitPaths u :=
  wordsBy_append_cons rfl t u

theorem mem_splitPaths (h : path ∈ splitPaths t) : path ≠ [] ∧ ':' ∉ path := by
  obtain ⟨hmem, hne⟩ := List.mem_filter.mp h
  exact ⟨by simpa using hne, not_mem_of_mem_splitOn hmem⟩

theorem splitPaths_single (hne : path ≠ []) (hcolon : ':' ∉ path) :
    splitPaths path = [path] := by
  have hsplit : path.splitOnP (· == ':') = [path] :=
    List.splitOnP_eq_singleton fun c hc => by
      simpa using fun heq : c = ':' => hcolon (heq ▸ hc)
  rw [splitPaths, wordsBy, hsplit]
  simp [hne]

theorem joinPaths_cons_cons (path p : Text) (ps : List Text) :
    joinPaths (path :: p :: ps) = path ++ ':' :: joinPaths (p :: ps) := by
  simp [joinPaths, List.intercalate_cons_cons]

theorem joinPaths_singleton (path : Text) : joinPaths [path] = path :=
  List.intercalate_singleton

theorem splitPaths_joinPaths (h : ∀ path ∈ ps, path ≠ [] ∧ ':' ∉ path) :
    splitPaths (joinPaths ps) = ps := by
  induction ps with
  | nil => rfl
  | cons path ps ih =>
      have hpath := h path List.mem_cons_self
      have hps := ih fun p hp => h p (List.mem_cons_of_mem path hp)
      cases ps with
      | nil =>
          rw [joinPaths_singleton]
          exact splitPaths_single hpath.1 hpath.2
      | cons p ps =>
          rw [joinPaths_cons_cons, splitPaths_append, hps,
            splitPaths_single hpath.1 hpath.2]
          rfl

theorem joinPaths_ne_nil (hne : ps ≠ []) (h : ∀ path ∈ ps, path ≠ []) :
    joinPaths ps ≠ [] := by
  cases ps with
  | nil => exact absurd rfl hne
  | cons path ps =>
      have hpath := h path List.mem_cons_self
      cases ps with
      | nil =>
          rw [joinPaths_singleton]
          exact hpath
      | cons p ps =>
          rw [joinPaths_cons_cons]
          simp

/-- A value without entries is a run of separators. -/
theorem splitPaths_eq_nil (h : splitPaths t = []) (hne : t ≠ []) :
    ∃ rest, t = ':' :: rest ∧ splitPaths rest = [] := by
  cases t with
  | nil => exact absurd rfl hne
  | cons c rest =>
      by_cases hc : c = ':'
      · subst hc
        exact ⟨rest, rfl, h⟩
      · obtain ⟨x, xs, hx⟩ := List.exists_cons_of_ne_nil
          (List.splitOnP_ne_nil (· == ':') rest)
        have hsplit : splitPaths (c :: rest) =
            ((c :: x) :: xs).filter (! ·.isEmpty) := by
          rw [splitPaths, wordsBy, List.splitOnP_cons_eq_if_modifyHead, hx]
          simp [hc]
        rw [hsplit] at h
        exact absurd h (by simp)

theorem Plain.append (ht : Plain t) (hu : Plain u) : Plain (t ++ u) :=
  fun c hc => (List.mem_append.mp hc).elim (ht c) (hu c)

/-- The characters of joined paths are the separator and theirs. -/
theorem forall_mem_joinPaths_iff {P : Char → Prop} (hcolon : P ':') :
    (∀ c ∈ joinPaths ps, P c) ↔ ∀ path ∈ ps, ∀ c ∈ path, P c := by
  induction ps with
  | nil => simp [joinPaths]
  | cons path ps ih =>
      cases ps with
      | nil => simp [joinPaths_singleton]
      | cons p ps =>
          rw [joinPaths_cons_cons, List.forall_mem_cons, ← ih]
          constructor
          · intro h
            exact ⟨fun c hc => h c (List.mem_append_left _ hc), fun c hc =>
              h c (List.mem_append_right _ (List.mem_cons_of_mem _ hc))⟩
          · rintro ⟨hpath, hps⟩ c hc
            rcases List.mem_append.mp hc with hc | hc
            · exact hpath c hc
            · rcases List.mem_cons.mp hc with rfl | hc
              · exact hcolon
              · exact hps c hc

theorem plain_joinPaths_iff : Plain (joinPaths ps) ↔ ∀ path ∈ ps, Plain path :=
  forall_mem_joinPaths_iff (P := fun c => isPlain c = true) rfl

theorem joinPaths_splitOn (t : Text) : joinPaths (t.splitOn ':') = t :=
  List.intercalate_splitOn ':'

theorem Plain.splitOn (h : Plain t) : ∀ path ∈ t.splitOn ':', Plain path := by
  rw [← joinPaths_splitOn t, plain_joinPaths_iff] at h
  exact h

/-- A character of an entry is a character of the value. -/
theorem mem_of_mem_splitPaths {c : Char} (hpath : path ∈ splitPaths t)
    (hc : c ∈ path) (hcolon : c ≠ ':') : c ∈ t := by
  by_contra hnot
  have hall : ∀ d ∈ joinPaths (t.splitOn ':'), d ≠ c := by
    rw [joinPaths_splitOn]
    exact fun d hd heq => hnot (heq ▸ hd)
  rw [forall_mem_joinPaths_iff hcolon.symm] at hall
  exact hall path (List.mem_of_mem_filter hpath) c hc rfl

theorem Plain.splitPaths (h : Plain t) (hpath : path ∈ splitPaths t) :
    Plain path :=
  h.splitOn path (List.mem_of_mem_filter hpath)

/-- The path that is found is the first one hit. -/
theorem removePath_eq (l : List Text) (modified : Bool) (find : Text) :
    removePath (l, modified) find =
      (l.eraseP (hits find), modified || l.any (hits find)) := by
  induction l with
  | nil => simp [removePath]
  | cons path l ih =>
      by_cases hpath : hits find path = true
      · have hfound : (path :: l).find? (fun p => cleanPath p == find) =
            some path := List.find?_cons_of_pos hpath
        simp [removePath, hfound, hpath]
      · have hfound : (path :: l).find? (fun p => cleanPath p == find) =
            l.find? (fun p => cleanPath p == find) :=
          List.find?_cons_of_neg hpath
        rw [List.eraseP_cons_of_neg hpath]
        simp only [removePath, hfound] at ih ⊢
        cases hnext : l.find? (fun p => cleanPath p == find) with
        | none =>
            rw [hnext] at ih
            simp only [Option.map_none, Option.getD_none, Prod.mk.injEq] at ih ⊢
            simp [hpath, ← ih.1, ← ih.2]
        | some p =>
            have hp : hits find p = true := List.find?_some hnext
            have hne : path ≠ p := fun heq => hpath (heq ▸ hp)
            rw [hnext] at ih
            simp only [Option.map_some, Option.getD_some, Prod.mk.injEq] at ih ⊢
            rw [List.erase_cons_tail (by simpa using hne), ih.1, List.any_cons,
              ← Bool.or_assoc, Bool.or_comm modified, Bool.or_assoc, ← ih.2]
            simp

/-- After all removals: what is left, and whether it is less than before. -/
theorem foldl_removePath (keys l : List Text) (modified : Bool) :
    (keys.foldl removePath (l, modified)).1 = takeOut hits keys l ∧
      ((keys.foldl removePath (l, modified)).2 = false →
        modified = false ∧ takeOut hits keys l = l) := by
  induction keys generalizing l modified with
  | nil => exact ⟨rfl, fun h => ⟨h, rfl⟩⟩
  | cons key keys ih =>
      obtain ⟨hleft, hsame⟩ := ih (l.eraseP (hits key))
        (modified || l.any (hits key))
      rw [List.foldl_cons, removePath_eq, takeOut_cons]
      refine ⟨hleft, fun h => ?_⟩
      obtain ⟨hmodified, hrest⟩ := hsame h
      obtain ⟨hbefore, hany⟩ := Bool.or_eq_false_iff.mp hmodified
      have hmiss : l.eraseP (hits key) = l :=
        List.eraseP_of_forall_not fun x hx => by
          simpa using List.any_eq_false.mp hany x hx
      rw [hmiss] at hrest ⊢
      exact ⟨hbefore, hrest⟩

/-- A variable is set to what remains of it, or remains as it is. -/
theorem rollbackEnvVariable_cases (fs : FileSystem) (environ : Environ)
    (name : Text) (subfolders : List Text) :
    rollbackEnvVariable fs environ name subfolders =
        some (joinPaths (remains fs environ name subfolders)) ∨
      rollbackEnvVariable fs environ name subfolders = none ∧
        remains fs environ name subfolders = entries environ name := by
  have hfold : subfolders.foldl (fun state subfolder =>
      (getWorkspaces fs environ true true).foldl (fun state wsPath =>
        removePath state (pathToFind wsPath subfolder)) state)
      (splitPaths (environ.value name), false) =
        (finds fs environ subfolders).foldl removePath
          (entries environ name, false) := by
    rw [finds, List.foldl_flatMap]
    simp only [List.foldl_map]
    rfl
  obtain ⟨hleft, hsame⟩ :=
    foldl_removePath (finds fs environ subfolders) (entries environ name) false
  rw [rollbackEnvVariable, hfold, hleft]
  by_cases hmodified : ((finds fs environ subfolders).foldl removePath
      (entries environ name, false)).2 = true
  · exact Or.inl (if_pos hmodified)
  · exact Or.inr ⟨if_neg hmodified, (hsame (by simpa using hmodified)).2⟩

variable {environ : Environ} {prefixStr key : Text} {lines : List Export}

theorem Plain.no_special (h : Plain t) : t.any isSpecial = false := by
  rw [List.any_eq_false]
  intro c hc
  have hplain := h c hc
  simp only [isPlain, Bool.and_eq_true, Bool.not_eq_true'] at hplain
  simp [hplain.1.1]

theorem Plain.no_dollar (h : Plain t) : ∀ c ∈ t, (c == '$') = false := by
  intro c hc
  have hplain := h c hc
  simp only [isPlain, Bool.and_eq_true] at hplain
  simpa using hplain.1.2

theorem Plain.no_newline (h : Plain t) : '\n' ∉ t := fun hmem =>
  absurd (h '\n' hmem) (by decide)

theorem expand_plain (h : Plain t) : expand environ t = some t := by
  have hsplit : t.splitOn '$' = [t] :=
    List.splitOnP_eq_singleton h.no_dollar
  simp [expand, h.no_special, hsplit]

/-- A line that puts something before the value of its own variable. -/
theorem expand_self (hbefore : Plain prefixStr) (hkey : Plain key)
    (hstart : key.head?.any isNameStart = true)
    (hname : key.all isNameChar = true) :
    expand environ (prefixStr ++ '$' :: key) =
      some (prefixStr ++ environ.value key) := by
  have hkeySplit : key.splitOn '$' = [key] :=
    List.splitOnP_eq_singleton hkey.no_dollar
  have hsplit : (prefixStr ++ '$' :: key).splitOn '$' = [prefixStr, key] := by
    have happend := List.splitOnP_append_cons_of_forall_mem
      hbefore.no_dollar '$' (by simp) key
    rw [← List.splitOn_eq_splitOnP, ← List.splitOn_eq_splitOnP, hkeySplit]
      at happend
    exact happend
  have hspecial : (prefixStr ++ '$' :: key).any isSpecial = false := by
    rw [List.any_append, List.any_cons, hbefore.no_special, hkey.no_special]
    rfl
  have hall : ∀ c ∈ key, isNameChar c = true := List.all_eq_true.mp hname
  have htake : key.takeWhile isNameChar = key :=
    List.takeWhile_eq_self_iff.mpr hall
  have hdrop : key.dropWhile isNameChar = [] :=
    List.dropWhile_eq_nil_iff.mpr hall
  simp [expand, hspecial, hsplit, expandName, hstart, htake, hdrop]

/-- Lines that set different variables, each of them to a value that only
depends on that variable. -/
theorem runLines_of_nodup (environ : Environ)
    (hnodup : (lines.map Export.key).Nodup)
    (h : ∀ line ∈ lines, ∃ value, ∀ environ' : Environ,
      environ' line.key = environ line.key →
        expand environ' line.quoted = some value) :
    ∃ environ', runLines environ lines = some environ' ∧
      (∀ line ∈ lines, environ' line.key = expand environ line.quoted) ∧
      ∀ key, key ∉ lines.map Export.key → environ' key = environ key := by
  induction lines generalizing environ with
  | nil => exact ⟨environ, rfl, by simp, fun _ _ => rfl⟩
  | cons line lines ih =>
      obtain ⟨hline, hlines⟩ := List.nodup_cons.mp hnodup
      obtain ⟨value, hvalue⟩ := h line List.mem_cons_self
      have hother : ∀ l ∈ lines, l.key ≠ line.key := fun l hl heq =>
        hline (heq ▸ List.mem_map_of_mem hl)
      have hkept : ∀ l ∈ lines,
          environ.set line.key value l.key = environ l.key := fun l hl =>
        Function.update_of_ne (hother l hl) _ _
      have hrun : line.run environ = some (environ.set line.key value) := by
        rw [Export.run, hvalue environ rfl]
        rfl
      have hnext : ∀ l ∈ lines, ∃ v, ∀ environ' : Environ,
          environ' l.key = environ.set line.key value l.key →
            expand environ' l.quoted = some v := by
        intro l hl
        obtain ⟨v, hv⟩ := h l (List.mem_cons_of_mem line hl)
        exact ⟨v, fun environ' hagree => hv environ' (hagree.trans (hkept l hl))⟩
      obtain ⟨environ', hrest, hset, hkeep⟩ := ih _ hlines hnext
      refine ⟨environ', ?_, fun l hl => ?_, fun key hkey => ?_⟩
      · rw [runLines, List.foldlM_cons, hrun]
        exact hrest
      · rcases List.mem_cons.mp hl with rfl | hl
        · rw [hkeep _ hline, hvalue environ rfl]
          exact Function.update_self _ _ _
        · obtain ⟨v, hv⟩ := h l (List.mem_cons_of_mem line hl)
          rw [hset l hl, hv environ rfl, hv _ (hkept l hl)]
      · rw [List.map_cons, List.mem_cons, not_or] at hkey
        rw [hkeep key hkey.2]
        exact Function.update_of_ne hkey.1 _ _

/-- Assigning plain values is what the script does to its own copy of the
environment. -/
theorem runLines_assignments {values : List (Text × Text)}
    (h : ∀ v ∈ values, Plain v.2) (environ : Environ) :
    runLines environ (values.map fun v => assignment v.1 v.2) =
      some (values.foldl (fun environ v => environ.set v.1 v.2) environ) := by
  induction values generalizing environ with
  | nil => rfl
  | cons v values ih =>
      have hvalues := fun w hw => h w (List.mem_cons_of_mem v hw)
      rw [List.map_cons, runLines, List.foldlM_cons, Export.run, assignment,
        expand_plain (h v List.mem_cons_self), List.foldl_cons]
      exact ih hvalues _

variable {fs : FileSystem} {args : Arguments} {file : SetupFile}
  {table : EnvVarSubfolders}

theorem remains_paths {name path : Text} {subfolders : List Text}
    (h : path ∈ remains fs environ name subfolders) :
    path ∈ entries environ name :=
  (takeOut_sublist _ _).subset h

theorem value_congr {environ' : Environ} {name : Text}
    (h : environ' name = environ name) :
    environ'.value name = environ.value name := by
  rw [Environ.value, Environ.value, h]

theorem value_of_eq_some {name value : Text} {paths : List Text}
    (h : environ name = some value) (hpaths : splitPaths value = paths)
    (hplain : Plain value) :
    entries environ name = paths ∧ Plain (environ.value name) := by
  rw [entries, Environ.value, h]
  exact ⟨hpaths, hplain⟩

theorem mem_rolledBackValues {v : Text × Text} :
    v ∈ rolledBackValues fs environ table ↔
      ∃ entry ∈ table, v.1 = entry.1 ∧
        rollbackEnvVariable fs environ entry.1 entry.2 = some v.2 := by
  rw [rolledBackValues, List.mem_filterMap]
  refine exists_congr fun entry => and_congr_right fun _ => ?_
  rw [Option.map_eq_some_iff]
  constructor
  · rintro ⟨value, hvalue, rfl⟩
    exact ⟨rfl, hvalue⟩
  · rintro ⟨hkey, hvalue⟩
    exact ⟨v.2, hvalue, Prod.ext hkey.symm rfl⟩

theorem nodup_rolledBackKeys (hnodup : (table.map Prod.fst).Nodup) :
    ((rolledBackValues fs environ table).map Prod.fst).Nodup := by
  refine hnodup.sublist ?_
  induction table with
  | nil => exact List.Sublist.refl _
  | cons entry table ih =>
      have htable := ih (List.nodup_cons.mp hnodup).2
      rw [rolledBackValues, List.filterMap_cons]
      cases rollbackEnvVariable fs environ entry.1 entry.2 with
      | none => exact htable.cons _
      | some value => exact htable.cons_cons _

/-- After the rollback the shell and the script see the same environment, in
which the variables name what remains. -/
theorem runLines_rollback (fs : FileSystem) (hnodup : (table.map Prod.fst).Nodup)
    (henv : ∀ entry ∈ table, Plain (environ.value entry.1)) :
    let rolledBack := rollbackEnvVariables fs environ table
    runLines environ rolledBack.2 = some rolledBack.1 ∧
      (∀ entry ∈ table,
        entries rolledBack.1 entry.1 =
            remains fs environ entry.1 entry.2 ∧
          Plain (rolledBack.1.value entry.1)) ∧
      ∀ key, key ∉ table.map Prod.fst → rolledBack.1 key = environ key := by
  have hjoined : ∀ entry ∈ table, Plain
      (joinPaths (remains fs environ entry.1 entry.2)) := fun entry hentry =>
    plain_joinPaths_iff.mpr fun path hpath =>
      (henv entry hentry).splitPaths (remains_paths hpath)
  have hplain : ∀ v ∈ rolledBackValues fs environ table, Plain v.2 := by
    intro v hv
    obtain ⟨entry, hentry, -, hvalue⟩ := mem_rolledBackValues.mp hv
    rcases rollbackEnvVariable_cases fs environ entry.1 entry.2
      with hset | ⟨hnone, -⟩
    · rw [hset] at hvalue
      exact Option.some.inj hvalue ▸ hjoined entry hentry
    · exact absurd (hnone.symm.trans hvalue) (Option.some_ne_none _).symm
  have hrun := runLines_assignments hplain environ
  have hkeys : ((rolledBackValues fs environ table).map fun v =>
      assignment v.1 v.2).map Export.key =
        (rolledBackValues fs environ table).map Prod.fst := by
    rw [List.map_map]
    rfl
  obtain ⟨environ', hsame, hset, hkeep⟩ := runLines_of_nodup environ
    (hkeys ▸ nodup_rolledBackKeys hnodup) fun line hline => by
      obtain ⟨v, hv, rfl⟩ := List.mem_map.mp hline
      exact ⟨v.2, fun _ _ => expand_plain (hplain v hv)⟩
  obtain rfl := Option.some.inj (hrun.symm.trans hsame)
  rw [hkeys] at hkeep
  refine ⟨hrun, fun entry hentry => ?_, fun key hkey => hkeep key ?_⟩
  · rcases rollbackEnvVariable_cases fs environ entry.1 entry.2
      with hvalue | ⟨hnone, hsame⟩
    · have hmem : (entry.1, joinPaths (remains fs environ entry.1 entry.2)) ∈
          rolledBackValues fs environ table :=
        mem_rolledBackValues.mpr ⟨entry, hentry, rfl, hvalue⟩
      have hnew := (hset _ (List.mem_map_of_mem hmem)).trans
        (expand_plain (hjoined entry hentry))
      refine value_of_eq_some hnew ?_ (hjoined entry hentry)
      exact splitPaths_joinPaths fun path hpath =>
        mem_splitPaths (remains_paths hpath)
    · have hkey : entry.1 ∉
          (rolledBackValues fs environ table).map Prod.fst := by
        intro hmem
        obtain ⟨v, hv, hfst⟩ := List.mem_map.mp hmem
        obtain ⟨other, hother, hname, hvalue⟩ := mem_rolledBackValues.mp hv
        obtain rfl := List.inj_on_of_nodup_map hnodup hother hentry
          (hname.symm.trans hfst)
        exact absurd (hnone.symm.trans hvalue) (Option.some_ne_none _).symm
      have hold := value_congr (hkeep _ hkey)
      refine ⟨(congrArg splitPaths hold).trans hsame.symm, ?_⟩
      exact hold ▸ henv entry hentry
  · intro hmem
    obtain ⟨v, hv, rfl⟩ := List.mem_map.mp hmem
    obtain ⟨entry, hentry, hname, -⟩ := mem_rolledBackValues.mp hv
    exact hkey (hname ▸ List.mem_map_of_mem hentry)

theorem nodup_envVarKeys : (envVarSubfolders.map Prod.fst).Nodup := by decide

theorem envVar_name : ∀ entry ∈ envVarSubfolders, Plain entry.1 ∧
    entry.1.head?.any isNameStart = true ∧
      entry.1.all isNameChar = true := by decide

theorem envVar_subfolder : ∀ entry ∈ envVarSubfolders, ∀ subfolder ∈ entry.2,
    Plain subfolder ∧ ':' ∉ subfolder ∧ subfolder.head? ≠ some '/' ∧
      subfolder.getLast? ≠ some '/' := by decide

theorem mem_folders {paths subfolders : List Text} {path : Text} :
    path ∈ folders paths subfolders ↔
      ∃ ws ∈ paths, ∃ subfolder ∈ subfolders, folder ws subfolder = path := by
  simp [folders]

/-- A folder of a path is a path. -/
theorem folder_path {path subfolder : Text} (hne : path ≠ [])
    (hcolon : ':' ∉ path) (hsub : ':' ∉ subfolder) :
    folder path subfolder ≠ [] ∧ ':' ∉ folder path subfolder := by
  rw [folder, join]
  split_ifs with hempty habsolute
  · exact ⟨hne, hcolon⟩
  · exact ⟨hempty, hsub⟩
  · simp [hne, hcolon, hsub]
  · simp [hcolon, hsub]

theorem plain_folder {path subfolder : Text} (hpath : Plain path)
    (hsub : Plain subfolder) : Plain (folder path subfolder) := by
  rw [folder, join]
  have hslash : Plain ['/'] := by decide
  split_ifs
  · exact hpath
  · exact hsub
  · exact hpath.append hsub
  · exact hpath.append (hslash.append hsub)

theorem mem_layer {paths subfolders : List Text} {path : Text} :
    path ∈ layer fs paths subfolders ↔
      (∃ ws ∈ paths, ∃ subfolder ∈ subfolders, folder ws subfolder = path) ∧
        fs.pathExists path = true := by
  rw [layer, List.mem_filter, mem_folders]

theorem layer_paths {cpp path : Text} {entry : Text × List Text}
    (hentry : entry ∈ envVarSubfolders)
    (h : path ∈ layer fs (splitPaths cpp) entry.2) :
    path ≠ [] ∧ ':' ∉ path := by
  obtain ⟨⟨ws, hws, subfolder, hsub, rfl⟩, -⟩ := mem_layer.mp h
  obtain ⟨hne, hcolon⟩ := mem_splitPaths hws
  obtain ⟨-, hsubColon, -⟩ := envVar_subfolder entry hentry subfolder hsub
  exact folder_path hne hcolon hsubColon

theorem plain_layer {cpp path : Text} {entry : Text × List Text}
    (hcpp : Plain cpp) (hentry : entry ∈ envVarSubfolders)
    (h : path ∈ layer fs (splitPaths cpp) entry.2) : Plain path := by
  obtain ⟨⟨ws, hws, subfolder, hsub, rfl⟩, -⟩ := mem_layer.mp h
  exact plain_folder (hcpp.splitPaths hws)
    (envVar_subfolder entry hentry subfolder hsub).1

/-- Before a value the paths are set apart from its entries. -/
theorem splitPaths_before {ps : List Text} {value : Text}
    (h : ∀ path ∈ ps, path ≠ [] ∧ ':' ∉ path) :
    splitPaths ((if joinPaths ps ≠ [] ∧ splitPaths value ≠ [] then
        joinPaths ps ++ [':'] else joinPaths ps) ++ value) =
      ps ++ splitPaths value := by
  have hps := splitPaths_joinPaths h
  by_cases hnone : ps = []
  · simp [hnone, joinPaths]
  · have hjoin := joinPaths_ne_nil hnone fun path hpath => (h path hpath).1
    by_cases hvalue : splitPaths value = []
    · rw [if_neg fun hboth => hboth.2 hvalue, hvalue, List.append_nil]
      by_cases hempty : value = []
      · rw [hempty, List.append_nil, hps]
      · obtain ⟨rest, rfl, hrest⟩ := splitPaths_eq_nil hvalue hempty
        rw [splitPaths_append, hps, hrest, List.append_nil]
    · rw [if_pos ⟨hjoin, hvalue⟩, List.append_assoc, List.singleton_append,
        splitPaths_append, hps]

/-- The line reads the variable that it sets and no other. -/
theorem expand_prepend {environ' : Environ} {key prefixStr : Text}
    (hbefore : Plain prefixStr) (hkey : Plain key)
    (hstart : key.head?.any isNameStart = true)
    (hname : key.all isNameChar = true) (h : environ' key = environ key) :
    expand environ' (prepend environ key prefixStr).quoted =
      some (prefixStr ++ environ.value key) := by
  by_cases hempty : environ.value key = []
  · have hline : prepend environ key prefixStr = assignment key prefixStr := by
      simp [prepend, hempty]
    rw [hline, hempty, List.append_nil]
    exact expand_plain hbefore
  · have hline : prepend environ key prefixStr =
        ⟨key, prefixStr ++ '$' :: key⟩ := by
      simp [prepend, hempty]
    rw [hline, expand_self hbefore hkey hstart hname, value_congr h]

theorem prepend_key (environ : Environ) (key prefixStr : Text) :
    (prepend environ key prefixStr).key = key := by
  rw [prepend]
  split <;> rfl

theorem plain_prefixEnvVariable {cpp : Text} {entry : Text × List Text}
    (hcpp : Plain cpp) (hentry : entry ∈ envVarSubfolders) :
    Plain (prefixEnvVariable fs environ entry.1 (splitPaths cpp) entry.2) := by
  have hjoined : Plain (joinPaths (newOnes (entries environ entry.1)
      (layer fs (splitPaths cpp) entry.2))) :=
    plain_joinPaths_iff.mpr fun path hpath =>
      plain_layer hcpp hentry (mem_newOnes.mp hpath).1
  have hcolon : Plain [':'] := by decide
  rw [prefixEnvVariable]
  split
  · exact hjoined.append hcolon
  · exact hjoined

/-- The workspaces of the file are put in. -/
theorem runLines_prepend (fs : FileSystem) {cpp : Text} (hcpp : Plain cpp)
    (henv : ∀ entry ∈ envVarSubfolders, Plain (environ.value entry.1)) :
    ∃ environ',
      runLines environ (prependEnvVariables fs environ envVarSubfolders cpp) =
          some environ' ∧
        (∀ entry ∈ envVarSubfolders,
          entries environ' entry.1 = newOnes (entries environ entry.1)
              (layer fs (splitPaths cpp) entry.2) ++ entries environ entry.1 ∧
            Plain (environ'.value entry.1)) ∧
        ∀ key, key ∉ envVarSubfolders.map Prod.fst →
          environ' key = environ key := by
  have hlines : prependEnvVariables fs environ envVarSubfolders cpp =
      envVarSubfolders.map (prependLine fs environ (splitPaths cpp)) := rfl
  have hkeys : (prependEnvVariables fs environ envVarSubfolders cpp).map
      Export.key = envVarSubfolders.map Prod.fst := by
    rw [hlines, List.map_map]
    exact List.map_congr_left fun entry _ => prepend_key _ _ _
  have hexpand : ∀ entry ∈ envVarSubfolders, ∀ environ' : Environ,
      environ' entry.1 = environ entry.1 →
        expand environ' (prependLine fs environ (splitPaths cpp) entry).quoted =
          some (prefixEnvVariable fs environ entry.1 (splitPaths cpp) entry.2 ++
            environ.value entry.1) := fun entry hentry environ' hagree => by
    obtain ⟨hplain, hstart, hname⟩ := envVar_name entry hentry
    exact expand_prepend (plain_prefixEnvVariable hcpp hentry) hplain hstart
      hname hagree
  obtain ⟨environ', hrun, hset, hkeep⟩ := runLines_of_nodup environ
    (hkeys ▸ nodup_envVarKeys) fun line hline => by
      rw [hlines] at hline
      obtain ⟨entry, hentry, rfl⟩ := List.mem_map.mp hline
      exact ⟨_, fun other hagree => hexpand entry hentry other
        (prepend_key environ entry.1 _ ▸ hagree)⟩
  refine ⟨environ', hrun, fun entry hentry => ?_, fun key hkey =>
    hkeep key (hkeys ▸ hkey)⟩
  have hnew := hset (prependLine fs environ (splitPaths cpp) entry)
    (hlines ▸ List.mem_map_of_mem hentry)
  rw [hexpand entry hentry environ rfl, prependLine, prepend_key] at hnew
  refine value_of_eq_some hnew ?_
    ((plain_prefixEnvVariable hcpp hentry).append (henv entry hentry))
  exact splitPaths_before fun path hpath =>
    layer_paths hentry (mem_newOnes.mp hpath).1

/-- Sourcing a setup file sets the variables of the table, and no others: each
names the folders of the file above what stays below them. -/
theorem runLines_exportLines (fs : FileSystem)
    (hcpp : Plain (file.cmakePrefixPath args))
    (henv : ∀ entry ∈ envVarSubfolders, Plain (environ.value entry.1)) :
    ∃ environ', runLines environ (exportLines fs args file environ) =
          some environ' ∧
      (∀ entry ∈ envVarSubfolders,
        entries environ' entry.1 = newOnes (below fs args environ entry)
            (layer fs (splitPaths (file.cmakePrefixPath args)) entry.2) ++
              below fs args environ entry ∧
          Plain (environ'.value entry.1)) ∧
      ∀ key, key ∉ envVarSubfolders.map Prod.fst →
        environ' key = environ key := by
  by_cases hextend : args.extend = true
  · obtain ⟨environ', hrun, hset, hkeep⟩ :=
      runLines_prepend fs hcpp henv
    refine ⟨environ', ?_, ?_, hkeep⟩
    · simpa [exportLines, hextend] using hrun
    · simpa [below, hextend] using hset
  · obtain ⟨hrun, hset, hkeep⟩ := runLines_rollback fs
      nodup_envVarKeys henv
    obtain ⟨environ', hrun', hset', hkeep'⟩ := runLines_prepend fs hcpp
      fun entry hentry => (hset entry hentry).2
    refine ⟨environ', ?_, fun entry hentry => ?_, fun key hkey =>
      (hkeep' key hkey).trans (hkeep key hkey)⟩
    · rw [exportLines, if_neg hextend, runLines, List.foldlM_append]
      exact (congrArg (· >>= _) hrun).trans hrun'
    · obtain ⟨hentries, hplain⟩ := hset' entry hentry
      rw [(hset entry hentry).1] at hentries
      rw [below, if_neg hextend]
      exact ⟨hentries, hplain⟩

end LivoxScripts.SetupUtil
