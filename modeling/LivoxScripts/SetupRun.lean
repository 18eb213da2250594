/-
`setup_livox_driver.sh` from its first check to its last step, as `set -e` lets
it run: what any number of runs leaves in the configuration, in its backup and
in `~/.bashrc`.
-/
import LivoxScripts.ConfigReadBack

namespace LivoxScripts.SetupLivoxDriver

open TextTools JsonText Store

/-- What the script finds on the machine, and how the commands it calls come
out.  `sourceNoetic` gives `ROS_DISTRO` and `ROS_VERSION` after
`/opt/ros/noetic/setup.bash`, if there is such a file. -/
structure World where
  sdkDir : Bool
  wsDir : Bool
  rosDistro : Text
  rosVersion : Text
  sourceNoetic : Option (Text × Text)
  cmake : Bool
  pclCommon110 : Bool
  pclCommon18 : Bool
  apr : Bool
  dpkgList : Text
  aptUpdate : Bool
  aptInstall : Bool
  staticLib : Bool
  sharedLib : Bool
  sdkCmake : Bool
  sdkMake : Bool
  sdkInstall : Bool
  ipAddrShow : Text
  srcCMakeLists : Bool
  develDir : Bool
  sourceRos : Bool
  workspaceBuild : Bool
  sourceSetup : Bool

/-- The configuration with its copies, and `~/.bashrc`. -/
@[ext]
structure Home where
  disk : Disk
  bashrc : Option Text

/-- Where a run ends. -/
inductive Ending where
  | noDirectory
  | noRos
  | noDeps
  | noSdk
  | noAnswer
  | noBuild
  | noSetup
  | finished
deriving DecidableEq

inductive RosEdition where
  | ros1
  | ros2
deriving DecidableEq

/-- The run came past the build of the workspace. -/
def Ending.isBuilt : Ending → Bool
  | noSetup | finished => true
  | _ => false

/-- `read -r`: blanks at both ends are dropped. -/
def readRaw (line : Text) : Text :=
  (line.dropWhile TextTools.isBlank).rdropWhile TextTools.isBlank

/-- Step 1: `ROS_DISTRO` and `ROS_VERSION`. -/
def rosEnvironment (w : World) : Option (Text × Text) :=
  if w.rosDistro.isEmpty then w.sourceNoetic
  else some (w.rosDistro, w.rosVersion)

def pclRosPackage (rosDistro : Text) : Text :=
  "ros-".toList ++ (rosDistro ++ "-pcl-ros".toList)

/-- `MISSING_DEPS` of step 2. -/
def missingDeps (w : World) (rosDistro rosVersion : Text) : List Text :=
  (if w.cmake then [] else ["cmake".toList]) ++
    ((if w.pclCommon110 || w.pclCommon18 then [] else ["libpcl-dev".toList]) ++
    ((if w.apr then [] else ["libapr1-dev".toList]) ++
    if (rosDistro = "noetic".toList ∨ rosVersion ≠ []) ∧
        grepQ (.dotted (pclRosPackage rosDistro)) w.dpkgList = false then
      [pclRosPackage rosDistro]
    else []))

/-- The rest of step 2: the input that is left once the packages are there. -/
def installDeps (w : World) (missing : List Text) (input : List Text) :
    Option (List Text) :=
  if missing.isEmpty then some input
  else
    match input with
    | [] => none
    | line :: input =>
        if agrees (readRaw line) && (w.aptUpdate && w.aptInstall) then
          some input
        else none

/-- Step 3. -/
def installSdk (w : World) : Bool :=
  w.staticLib || w.sharedLib || (w.sdkCmake && w.sdkMake && w.sdkInstall)

/-- Steps 1 to 3: the input that is left for step 4. -/
def prepare (w : World) (input : List Text) : Except Ending (List Text) :=
  if !(w.sdkDir && w.wsDir) then .error .noDirectory
  else
    match rosEnvironment w with
    | none => .error .noRos
    | some (rosDistro, rosVersion) =>
        match installDeps w (missingDeps w rosDistro rosVersion) input with
        | none => .error .noDeps
        | some rest => if installSdk w then .ok rest else .error .noSdk

/-- The edition step 5 detects. -/
def rosEdition (w : World) : RosEdition :=
  if w.srcCMakeLists || w.develDir then .ros1 else .ros2

/-- Step 5. -/
def buildWorkspace (w : World) : Bool := w.sourceRos && w.workspaceBuild

def wsLivoxWord : Text := "ws_livox".toList

def bashrcComment : Text := "# Livox雷达驱动环境配置".toList

def sourceLine : RosEdition → Text
  | .ros1 => "source /home/bingda/ws_livox/devel/setup.bash".toList
  | .ros2 => "source /home/bingda/ws_livox/install/setup.bash".toList

/-- Step 6. -/
def configureBashrc (edition : RosEdition) (bashrc : Option Text) : Text :=
  let text := bashrc.getD []
  if grepQ (.lit wsLivoxWord) text then text
  else text ++ (echo [] ++ (echo bashrcComment ++ echo (sourceLine edition)))

/-- Steps 5 to 7. -/
def finish (w : World) (home : Home) : Ending × Home :=
  if buildWorkspace w then
    (if w.sourceSetup then .finished else .noSetup,
      ⟨home.disk, some (configureBashrc (rosEdition w) home.bashrc)⟩)
  else (.noBuild, home)

/-- The script, with the lines of its standard input. -/
def run (w : World) (input : List Text) (home : Home) : Ending × Home :=
  match prepare w input with
  | .error ending => (ending, home)
  | .ok rest =>
      let result := configureHostIp w.ipAddrShow (rest.head?.map readRaw)
        home.disk
      if result.1 = .stopped then (.noAnswer, ⟨result.2, home.bashrc⟩)
      else finish w ⟨result.2, home.bashrc⟩

/-- Several runs in a row, each with how it ended. -/
def runAll : List (World × List Text) → Home → List (World × Ending) × Home
  | [], home => ([], home)
  | (w, input) :: runs, home =>
      let result := run w input home
      let rest := runAll runs result.2
      ((w, result.1) :: rest.1, rest.2)

variable {w : World} {input rest : List Text} {home : Home}

theorem not_isBuilt_of_prepare {ending : Ending}
    (h : prepare w input = .error ending) : ending.isBuilt = false := by
  unfold prepare at h
  split at h
  · cases h
    rfl
  · split at h
    · cases h
      rfl
    · split at h
      · cases h
        rfl
      · split at h
        · cases h
        · cases h
          rfl

theorem isBuilt_finish : (finish w home).1.isBuilt = buildWorkspace w := by
  unfold finish
  split
  · next hbuild =>
      rw [hbuild]
      cases w.sourceSetup <;> rfl
  · next hbuild =>
      rw [Bool.not_eq_true] at hbuild
      rw [hbuild]
      rfl

/-- A run stops before step 4, waits there in vain for an answer, or goes on
with what step 4 made of the disk. -/
theorem run_cases (w : World) (input : List Text) (home : Home) :
    (∃ ending, ending.isBuilt = false ∧ run w input home = (ending, home)) ∨
      ∃ rest, prepare w input = .ok rest ∧
        let result := configureHostIp w.ipAddrShow (rest.head?.map readRaw)
          home.disk
        (result.1 = .stopped ∧
            run w input home = (.noAnswer, ⟨result.2, home.bashrc⟩)) ∨
          (result.1 ≠ .stopped ∧
            run w input home = finish w ⟨result.2, home.bashrc⟩) := by
  cases hprepare : prepare w input with
  | error ending =>
      exact Or.inl ⟨ending, not_isBuilt_of_prepare hprepare, by
        rw [run, hprepare]⟩
  | ok rest =>
      refine Or.inr ⟨rest, rfl, ?_⟩
      by_cases hstopped : (configureHostIp w.ipAddrShow
          (rest.head?.map readRaw) home.disk).1 = .stopped
      · refine Or.inl ⟨hstopped, ?_⟩
        rw [run, hprepare]
        exact if_pos hstopped
      · refine Or.inr ⟨hstopped, ?_⟩
        rw [run, hprepare]
        exact if_neg hstopped

/-- `~/.bashrc` is only touched after the build. -/
theorem run_bashrc (w : World) (input : List Text) (home : Home) :
    (run w input home).2.bashrc =
      if (run w input home).1.isBuilt then
        some (configureBashrc (rosEdition w) home.bashrc)
      else home.bashrc := by
  obtain ⟨ending, hbuilt, hrun⟩ | ⟨rest, -, hstep⟩ := run_cases w input home
  · simp [hrun, hbuilt]
  · obtain ⟨-, hrun⟩ | ⟨-, hrun⟩ := hstep
    · simp [hrun, Ending.isBuilt]
    · rw [hrun, isBuilt_finish, finish]
      cases buildWorkspace w <;> rfl

/-- What `grep -q "ws_livox"` finds out. -/
def mentionsWs (bashrc : Option Text) : Bool :=
  grepQ (.lit wsLivoxWord) (bashrc.getD [])

theorem lines_configureBashrc (edition : RosEdition) (bashrc : Option Text) :
    lines (configureBashrc edition bashrc) = lines (bashrc.getD []) ++
      if mentionsWs bashrc then []
      else blankLine (bashrc.getD []) ++ [bashrcComment, sourceLine edition] := by
  have hadded : lines (echo bashrcComment ++ echo (sourceLine edition)) =
      [bashrcComment, sourceLine edition] := by
    cases edition <;> decide
  rw [configureBashrc, mentionsWs]
  split
  · rw [List.append_nil]
  · have hecho : echo [] = ['\n'] := rfl
    rw [hecho, List.singleton_append, lines_append_newline, hadded]

theorem mentionsWs_configureBashrc (edition : RosEdition)
    (bashrc : Option Text) :
    mentionsWs (some (configureBashrc edition bashrc)) = true := by
  by_cases h : mentionsWs bashrc = true
  · have hkept : configureBashrc edition bashrc = bashrc.getD [] := if_pos h
    rwa [mentionsWs, Option.getD_some, hkept]
  · have hsource : (Regex.lit wsLivoxWord).search true (sourceLine edition) =
        true := by
      cases edition <;> decide
    rw [mentionsWs, grepQ, Option.getD_some, lines_configureBashrc, if_neg h,
      List.any_eq_true]
    exact ⟨sourceLine edition, by simp, hsource⟩

/-- The lines that a history of runs adds: those of the first run that came past
the build, unless `ws_livox` was mentioned before. -/
def addedLines (bashrc : Option Text) (history : List (World × Ending)) :
    List Text :=
  if mentionsWs bashrc then []
  else
    match history.find? (·.2.isBuilt) with
    | none => []
    | some (w, _) => blankLine (bashrc.getD []) ++
        [bashrcComment, sourceLine (rosEdition w)]

theorem addedLines_cons (bashrc : Option Text) (w : World) (ending : Ending)
    (history : List (World × Ending)) :
    addedLines bashrc ((w, ending) :: history) =
      if ending.isBuilt then
        if mentionsWs bashrc then []
        else blankLine (bashrc.getD []) ++
          [bashrcComment, sourceLine (rosEdition w)]
      else addedLines bashrc history := by
  cases hbuilt : ending.isBuilt <;> simp [addedLines, hbuilt]

/-- Any number of runs keeps every line of `~/.bashrc` and adds the lines of one
run at most. -/
theorem runAll_bashrc_lines (runs : List (World × List Text)) (home : Home) :
    lines ((runAll runs home).2.bashrc.getD []) =
      lines (home.bashrc.getD []) ++
        addedLines home.bashrc (runAll runs home).1 := by
  induction runs generalizing home with
  | nil => simp [runAll, addedLines]
  | cons entry runs ih =>
      obtain ⟨w, input⟩ := entry
      rw [runAll, ih, run_bashrc, addedLines_cons]
      by_cases hbuilt : (run w input home).1.isBuilt = true
      · rw [if_pos hbuilt, if_pos hbuilt, Option.getD_some,
          lines_configureBashrc, addedLines,
          if_pos (mentionsWs_configureBashrc _ _), List.append_nil]
      · rw [if_neg hbuilt, if_neg hbuilt]

/-- The answer that step 4 gets if it asks. -/
def hostIpAnswer (w : World) (input : List Text) : Option Text :=
  match prepare w input with
  | .error _ => none
  | .ok rest => rest.head?.map readRaw

/-- How many lines step 2 takes from the input. -/
def dependencyQuestions (w : World) : Nat :=
  match rosEnvironment w with
  | none => 0
  | some (rosDistro, rosVersion) =>
      if (missingDeps w rosDistro rosVersion).isEmpty then 0 else 1

/-- The user agrees to the update of the host address, and not only to that of
the packages. -/
def Consents (w : World) (input : List Text) : Prop :=
  ∃ line, input[dependencyQuestions w]? = some line ∧
    agrees (readRaw line) = true

/-- Step 4 reads the line after those of step 2. -/
theorem prepare_input (h : prepare w input = .ok rest) :
    rest.head? = input[dependencyQuestions w]? := by
  unfold prepare at h
  split at h
  · cases h
  · split at h
    · cases h
    · next rosDistro rosVersion henvironment =>
        split at h
        · cases h
        · next rest' hdeps =>
            obtain rfl : rest' = rest := by
              split at h
              · exact Except.ok.inj h
              · cases h
            rw [dependencyQuestions, henvironment]
            dsimp only
            unfold installDeps at hdeps
            split at hdeps
            · next hnone =>
                rw [if_pos hnone, ← Option.some.inj hdeps]
                exact List.head?_eq_getElem?
            · next hsome =>
                rw [if_neg hsome]
                split at hdeps
                · cases hdeps
                · split at hdeps
                  · rw [Option.some.inj hdeps, List.getElem?_cons_succ]
                    exact List.head?_eq_getElem?
                  · cases hdeps

theorem consents_of_agrees (h : (hostIpAnswer w input).any agrees = true) :
    Consents w input := by
  cases hprepare : prepare w input with
  | error ending => simp [hostIpAnswer, hprepare] at h
  | ok rest =>
      rw [hostIpAnswer, hprepare] at h
      dsimp only at h
      rw [prepare_input hprepare] at h
      cases hline : input[dependencyQuestions w]? with
      | none => simp [hline] at h
      | some line => exact ⟨line, hline, by simpa [hline] using h⟩

/-- What a run does to the disk is what step 4 does to it. -/
theorem run_disk (w : World) (input : List Text) (home : Home) :
    (run w input home).2.disk = home.disk ∨
      ∃ rest, prepare w input = .ok rest ∧ (run w input home).2.disk =
        (configureHostIp w.ipAddrShow (hostIpAnswer w input) home.disk).2 := by
  obtain ⟨ending, -, hrun⟩ | ⟨rest, hprepare, hstep⟩ := run_cases w input home
  · exact Or.inl (by rw [hrun])
  · refine Or.inr ⟨rest, hprepare, ?_⟩
    have hanswer : hostIpAnswer w input = rest.head?.map readRaw := by
      rw [hostIpAnswer, hprepare]
    rw [hanswer]
    obtain ⟨-, hrun⟩ | ⟨-, hrun⟩ := hstep
    · rw [hrun]
    · rw [hrun, finish]
      split <;> rfl

/-- Step 4 leaves the disk alone unless the user agrees. -/
theorem configureHostIp_disk {ipAddrShow : Text} {response : Option Text}
    (disk : Disk) (h : ¬ response.any agrees = true) :
    (configureHostIp ipAddrShow response disk).2 = disk := by
  obtain ⟨configFile, copies⟩ := disk
  cases configFile with
  | none => simp [configureHostIp, step4]
  | some configFile =>
      have hfiles : (Files.mk (some configFile)
          (copies bakSuffix)).configFile = some configFile := rfl
      simp only [configureHostIp, step4_files hfiles, h, Bool.false_eq_true,
        and_false, ↓reduceIte, Function.update_eq_self]

/-- As long as nobody agrees to it in a line of its own, no run touches the
configuration or its backup. -/
theorem runAll_disk_of_not_consents (runs : List (World × List Text))
    (hruns : ∀ r ∈ runs, ¬ Consents r.1 r.2) (home : Home) :
    (runAll runs home).2.disk = home.disk := by
  induction runs generalizing home with
  | nil => rfl
  | cons entry runs ih =>
      obtain ⟨w, input⟩ := entry
      have hno : ¬ Consents w input := hruns _ List.mem_cons_self
      rw [runAll, ih fun r hr => hruns r (List.mem_cons_of_mem _ hr)]
      obtain hsame | ⟨rest, -, hstep⟩ := run_disk w input home
      · exact hsame
      · rw [hstep]
        exact configureHostIp_disk home.disk fun h => hno (consents_of_agrees h)

/-- Step 4 has nothing more to write, whatever the user answers. -/
def Written (ipAddrShow : Text) (disk : Disk) : Prop :=
  ∀ response, (configureHostIp ipAddrShow response disk).2 = disk

/-- What step 4 does to a disk with a configuration. -/
theorem configureHostIp_eq_ite {ipAddrShow config : Text}
    {response : Option Text} {disk : Disk}
    (hdisk : disk.configFile = some config) :
    (configureHostIp ipAddrShow response disk).2 =
      if currentHostIp ipAddrShow ≠ configHostIp config ∧
          response.any agrees then
        ⟨some (updateConfig (currentHostIp ipAddrShow) config),
          Function.update disk.copies bakSuffix (some config)⟩
      else disk := by
  have hfiles : (Files.mk disk.configFile
      (disk.copies bakSuffix)).configFile = some config := hdisk
  rw [configureHostIp]
  dsimp only
  rw [step4_files hfiles]
  split
  · rfl
  · simp only [Function.update_eq_self]

/-- A member that could be rewritten is missing: the commands that write the
host address leave the configuration as it is. -/
theorem patched_replaceHostIp_of_not_onLine {doc : Document}
    (hdoc : Addressable doc) (q? : Option Quad)
    (h : ¬ ∃ field ∈ doc.value.fields, OnLine hostIpKey field) :
    patched doc [.replaceHostIp q?] = doc := by
  have hnone : ∀ field ∈ doc.value.fields,
      Place.hostIp.edit (hostValue q?) field = none := by
    intro field hfield
    refine if_neg fun htaken => h ⟨field, hfield, ?_, htaken.2.1⟩
    exact (showsKey_iff_named (hdoc.bareKeys field hfield)).mp htaken.1
  have hvalue := patch_of_none_value doc.value hnone
  change doc.patch (Place.hostIp.edit (hostValue q?)) = doc
  rw [Document.patch, hvalue]

/-- Once the user agreed, step 4 has written all it ever writes on this
machine. -/
theorem written_of_update {m : Machine} {disk : Disk} {doc : Document}
    (hdoc : Addressable doc) :
    Written m.ipAddrShow
      ⟨some (updateConfig (currentHostIp m.ipAddrShow) doc.text),
        Function.update disk.copies bakSuffix (some doc.text)⟩ := by
  intro response
  have htext : ∀ doc, Addressable doc →
      updateConfig (currentHostIp m.ipAddrShow) doc.text =
        (patched doc [.replaceHostIp m.leadingAddress?]).text := by
    intro doc hdoc
    rw [currentHostIp_eq]
    exact hdoc.rewrite_text (.replaceHostIp m.leadingAddress?)
  rw [configureHostIp_eq_ite rfl]
  by_cases hagain : currentHostIp m.ipAddrShow ≠ configHostIp
      (updateConfig (currentHostIp m.ipAddrShow) doc.text) ∧
        response.any agrees = true
  · rw [if_pos hagain]
    have hdiffer := hagain.1
    rw [htext doc hdoc, ne_eq, currentHostIp_eq_configHostIp_iff,
      showsLeading_patched hdoc rfl, not_or] at hdiffer
    have hsame := htext doc hdoc
    rw [patched_replaceHostIp_of_not_onLine hdoc _ hdiffer.2] at hsame
    rw [hsame, hsame, Function.update_idem]
  · rw [if_neg hagain]

/-- What step 4 reports in a run that comes to it. -/
def hostIpReport (w : World) (input : List Text) (home : Home) :
    HostIpReport :=
  (configureHostIp w.ipAddrShow (hostIpAnswer w input) home.disk).1

/-- The documented shape, if there is a configuration at all. -/
def Documented (disk : Disk) : Prop :=
  ∀ config, disk.configFile = some config →
    ∃ doc, parse config = some doc ∧ Addressable doc

/-- Where the step neither stops nor keeps the address, the user agreed or was
not asked. -/
theorem agrees_of_report {ipAddrShow config : Text} {response : Option Text}
    {disk : Disk} (hdisk : disk.configFile = some config)
    (hdiffer : currentHostIp ipAddrShow ≠ configHostIp config)
    (hstopped : (configureHostIp ipAddrShow response disk).1 ≠ .stopped)
    (hkept : ∀ t, (configureHostIp ipAddrShow response disk).1 ≠ .kept t) :
    response.any agrees = true := by
  simp only [configureHostIp, step4, hdisk, hdiffer, ne_eq, not_false_eq_true,
    ↓reduceIte] at hstopped hkept
  cases response with
  | none => simp at hstopped
  | some line =>
      by_contra hno
      have hline : agrees line = false := by simpa using hno
      simp [hline] at hkept

theorem written_of_report {m : Machine} {response : Option Text} {disk : Disk}
    (hdisk : Documented disk)
    (hstopped : (configureHostIp m.ipAddrShow response disk).1 ≠ .stopped)
    (hkept : ∀ t, (configureHostIp m.ipAddrShow response disk).1 ≠ .kept t) :
    Written m.ipAddrShow (configureHostIp m.ipAddrShow response disk).2 := by
  cases hconfig : disk.configFile with
  | none =>
      have hnone : ∀ response,
          (configureHostIp m.ipAddrShow response disk).2 = disk := by
        intro response
        obtain ⟨configFile, copies⟩ := disk
        obtain rfl : configFile = none := hconfig
        simp [configureHostIp, step4]
      rw [hnone]
      exact hnone
  | some config =>
      obtain ⟨doc, hparse, hdoc⟩ := hdisk config hconfig
      obtain rfl := text_of_parse hparse
      rw [configureHostIp_eq_ite hconfig]
      by_cases hdiffer : currentHostIp m.ipAddrShow ≠ configHostIp doc.text
      · rw [if_pos ⟨hdiffer, agrees_of_report hconfig hdiffer hstopped hkept⟩]
        exact written_of_update hdoc
      · rw [if_neg fun h => hdiffer h.1]
        intro response
        rw [configureHostIp_eq_ite hconfig, if_neg fun h => hdiffer h.1]

/-- Where nothing is left to write, no run changes anything. -/
theorem runAll_eq_self {ipAddrShow : Text} {runs : List (World × List Text)}
    (hruns : ∀ r ∈ runs, r.1.ipAddrShow = ipAddrShow) {text : Text}
    (hdisk : Written ipAddrShow home.disk) (hbashrc : home.bashrc = some text)
    (hmentions : mentionsWs (some text) = true) :
    (runAll runs home).2 = home := by
  obtain ⟨disk, bashrc⟩ := home
  obtain rfl : bashrc = some text := hbashrc
  induction runs with
  | nil => rfl
  | cons entry runs ih =>
      obtain ⟨w, input⟩ := entry
      have hw : w.ipAddrShow = ipAddrShow := hruns _ List.mem_cons_self
      have hdisk' : (run w input ⟨disk, some text⟩).2.disk = disk := by
        obtain hsame | ⟨rest, -, hstep⟩ := run_disk w input ⟨disk, some text⟩
        · exact hsame
        · rw [hstep, hw]
          exact hdisk _
      have hbashrc' : (run w input ⟨disk, some text⟩).2.bashrc = some text := by
        have hsame : configureBashrc (rosEdition w) (some text) = text :=
          if_pos hmentions
        rw [run_bashrc, hsame, ite_self]
      have hhome : (run w input ⟨disk, some text⟩).2 = ⟨disk, some text⟩ :=
        Home.ext hdisk' hbashrc'
      rw [runAll, hhome]
      exact ih fun r hr => hruns r (List.mem_cons_of_mem _ hr)

/-- A run that came past the build and in which the user did not refuse the
update is final: no later run on the same machine changes the configuration,
its copies or `~/.bashrc`, whatever it meets and whatever the user answers. -/
theorem runAll_after_run {m : Machine} {runs : List (World × List Text)}
    (hw : w.ipAddrShow = m.ipAddrShow) (hdisk : Documented home.disk)
    (hbuilt : (run w input home).1.isBuilt = true)
    (hkept : ∀ t, hostIpReport w input home ≠ .kept t)
    (hruns : ∀ r ∈ runs, r.1.ipAddrShow = m.ipAddrShow) :
    (runAll runs (run w input home).2).2 = (run w input home).2 := by
  have hbashrc := run_bashrc w input home
  rw [if_pos hbuilt] at hbashrc
  refine runAll_eq_self hruns ?_ hbashrc (mentionsWs_configureBashrc _ _)
  obtain ⟨ending, hnot, hrun⟩ | ⟨rest, hprepare, hstep⟩ :=
    run_cases w input home
  · rw [hrun, hnot] at hbuilt
    cases hbuilt
  · have hanswer : hostIpAnswer w input = rest.head?.map readRaw := by
      rw [hostIpAnswer, hprepare]
    rw [hostIpReport, hanswer, hw] at hkept
    rw [hw] at hstep
    obtain ⟨-, hrun⟩ | ⟨hstopped, hrun⟩ := hstep
    · rw [hrun] at hbuilt
      cases hbuilt
    · have hdisk' : (run w input home).2.disk = (configureHostIp m.ipAddrShow
          (rest.head?.map readRaw) home.disk).2 := by
        rw [hrun, finish]
        split <;> rfl
      rw [hdisk']
      exact written_of_report hdisk hstopped hkept

def readyWorld : World where
  sdkDir := true
  wsDir := true
  rosDistro := "foxy".toList
  rosVersion := []
  sourceNoetic := none
  cmake := true
  pclCommon110 := true
  pclCommon18 := false
  apr := true
  dpkgList := []
  aptUpdate := true
  aptInstall := true
  staticLib := true
  sharedLib := false
  sdkCmake := false
  sdkMake := false
  sdkInstall := false
  ipAddrShow := twoCardMachine.ipAddrShow
  srcCMakeLists := false
  develDir := false
  sourceRos := true
  workspaceBuild := true
  sourceSetup := true

/-- The machine before its first run. -/
def freshHome : Home := ⟨wlan0Disk, none⟩

/-- The same without one of the packages. -/
def bareWorld : World := { readyWorld with cmake := false }

/-- The user has the package installed and refuses the new address. -/
theorem runAll_disk_refused :
    (runAll [(bareWorld, [['y'], ['n']])] freshHome).2.disk = wlan0Disk ∧
      hostIpReport bareWorld [['y'], ['n']] freshHome =
        .kept (quad 192 168 31 25).text := by
  refine ⟨runAll_disk_of_not_consents _ (fun r hr => ?_) _, by decide +kernel⟩
  obtain rfl := List.mem_singleton.mp hr
  rintro ⟨line, hline, hyes⟩
  have hone : dependencyQuestions bareWorld = 1 := by decide
  have hrefused : agrees (readRaw ['n']) = false := by decide
  rw [hone, List.getElem?_cons_succ, List.getElem?_cons_zero,
    Option.some.injEq] at hline
  rw [← hline, hrefused] at hyes
  cases hyes

theorem runAll_after_agreed :
    (runAll [(readyWorld, [['n']])] (run readyWorld [['y']] freshHome).2).2 =
      (run readyWorld [['y']] freshHome).2 := by
  have hdisk : Documented freshHome.disk := by
    intro config hconfig
    obtain rfl := Option.some.inj hconfig
    exact ⟨_, parse_text _, hostNetConfig_addressable _⟩
  have hreport : hostIpReport readyWorld [['y']] freshHome = .updated := by
    decide +kernel
  have hbuilt : (run readyWorld [['y']] freshHome).1.isBuilt = true := by
    decide +kernel
  have hsame : ∀ r ∈ [(readyWorld, [['n']])],
      r.1.ipAddrShow = twoCardMachine.ipAddrShow := by
    intro r hr
    obtain rfl := List.mem_singleton.mp hr
    rfl
  exact runAll_after_run rfl hdisk hbuilt (by simp [hreport]) hsame

end LivoxScripts.SetupLivoxDriver
