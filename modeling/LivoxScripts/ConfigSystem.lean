/-
Any number of the scripts side by side: each looks at the disk when it starts
and gives its commands one by one, while others do the same, and each may be
stopped before its last one.  No two commands overlap in time here: a `cp` or
`sed -i` has ended when the next one of any script begins.  `ConfigOverlap` has
commands that do.
-/
import LivoxScripts.ConfigRuns

namespace LivoxScripts

open TextTools JsonText Store

/-- The disk, and for each script under way the commands it has yet to give. -/
structure System where
  disk : Disk
  underWay : List (List Command)

/-- One step, with the command that was given, if any.  The command reads and
writes in the same step, so that none comes between. -/
inductive Step : System → Option Command → System → Prop where
  | start (disk : Disk) (underWay : List (List Command)) (run : Run) :
      Step ⟨disk, underWay⟩ none ⟨disk, run.commands disk :: underWay⟩
  | exec (disk : Disk) (before : List (List Command)) (command : Command)
      (rest : List Command) (after : List (List Command)) :
      Step ⟨disk, before ++ (command :: rest) :: after⟩ (some command)
        ⟨disk.exec command, before ++ rest :: after⟩
  | stop (disk : Disk) (before : List (List Command)) (rest : List Command)
      (after : List (List Command)) :
      Step ⟨disk, before ++ rest :: after⟩ none ⟨disk, before ++ after⟩

/-- What the system can come to, with the commands given on the way. -/
inductive Reaches (first : System) : List Command → System → Prop where
  | refl : Reaches first [] first
  | step {commands : List Command} {command? : Option Command}
      {s s' : System} (h : Reaches first commands s)
      (hstep : Step s command? s') :
      Reaches first (commands ++ command?.toList) s'

/-- The name a command copies the configuration to. -/
def Command.suffix? : Command → Option Text
  | copyConfig suffix => some suffix
  | _ => none

/-- The text is still in the configuration or in a copy. -/
def Disk.Holds (disk : Disk) (t : Text) : Prop :=
  disk.configFile = some t ∨ ∃ suffix, disk.copies suffix = some t

variable {first s s' : System} {disk : Disk} {commands commands' : List Command}
  {doc : Document} {config : Text}

theorem Step.disk_eq {command? : Option Command} (h : Step s command? s') :
    s'.disk = command?.toList.foldl Disk.exec s.disk := by
  cases h with
  | start => rfl
  | exec => rfl
  | stop => rfl

theorem Reaches.disk_eq (h : Reaches first commands s) :
    s.disk = commands.foldl Disk.exec first.disk := by
  induction h with
  | refl => rfl
  | step _ hstep ih => rw [hstep.disk_eq, ih, List.foldl_append]

/-- Whatever the scripts do to a configuration of the documented shape, in
whatever order and wherever they stop, it is JSON of that shape and differs
from the first one in addresses only. -/
theorem Reaches.configuration (hparse : parse config = some doc)
    (hdoc : Addressable doc) (hdisk : first.disk.configFile = some config)
    (h : Reaches first commands s) :
    ∃ config' doc', s.disk.configFile = some config' ∧
      parse config' = some doc' ∧ Addressable doc' ∧
        doc.AgreeOutside addressKeys doc' := by
  obtain rfl := text_of_parse hparse
  rw [h.disk_eq, hdoc.configFile_foldl hdisk]
  exact ⟨_, _, rfl, parse_text _, hdoc.patched commands,
    hdoc.agreeOutside_patched commands⟩

/-- The command is no copy. -/
def Command.writes (command : Command) : Bool := command.place?.isSome

theorem patched_filter (doc : Document) (commands : List Command) :
    patched doc (commands.filter Command.writes) = patched doc commands := by
  induction commands generalizing doc with
  | nil => rfl
  | cons command commands ih =>
      by_cases hwrites : command.writes = true
      · rw [List.filter_cons_of_pos hwrites]
        exact ih (command.patch doc)
      · have htarget : command.target = none := by
          simpa [Command.writes, Command.place?] using hwrites
        have hpatch : command.patch doc = doc := by
          rw [Command.patch, htarget]
        rw [List.filter_cons_of_neg hwrites, ih]
        exact congrArg (patched · commands) hpatch.symm

theorem patched_eq_of_lastWrite (doc : Document)
    (hlast : ∀ place, lastWrite Command.place? commands (some place) =
      lastWrite Command.place? commands' (some place)) :
    patched doc commands = patched doc commands' := by
  have hfilter : ∀ (commands : List Command) (place : Place),
      lastWrite Command.place? (commands.filter Command.writes) (some place) =
        lastWrite Command.place? commands (some place) :=
    fun commands place => lastWrite_filter
      (fun command h => by rw [Command.writes, h]; rfl) commands
  have hnone : ∀ commands : List Command,
      lastWrite Command.place? (commands.filter Command.writes) none = none := by
    intro commands
    rw [← Option.not_isSome_iff_eq_none, lastWrite_isSome_iff]
    rintro ⟨command, hcommand, hplace⟩
    have hwrites := (List.mem_filter.mp hcommand).2
    rw [Command.writes, hplace] at hwrites
    cases hwrites
  rw [← patched_filter doc commands, ← patched_filter doc commands']
  refine Command.lastWriteWins.foldl_eq_of_lastWrite (fun place? => ?_) doc
  cases place? with
  | none => rw [hnone, hnone]
  | some place => rw [hfilter, hfilter, hlast]

/-- Two runs of the system that end with the same last command for each kind of
address leave the same configuration, whatever else they did. -/
theorem Reaches.configFile_eq_of_lastWrite (hparse : parse config = some doc)
    (hdoc : Addressable doc) (hdisk : first.disk.configFile = some config)
    (h : Reaches first commands s) (h' : Reaches first commands' s')
    (hlast : ∀ place, lastWrite Command.place? commands (some place) =
      lastWrite Command.place? commands' (some place)) :
    s.disk.configFile = s'.disk.configFile := by
  obtain rfl := text_of_parse hparse
  rw [h.disk_eq, h'.disk_eq, hdoc.configFile_foldl hdisk,
    hdoc.configFile_foldl hdisk, patched_eq_of_lastWrite doc hlast]

/-- The commands begin with a copy. -/
def CopiesFirst (commands : List Command) : Prop :=
  ∀ command ∈ commands.head?, ∃ suffix, command = .copyConfig suffix

theorem Run.copiesFirst (run : Run) (disk : Disk) :
    CopiesFirst (run.commands disk) := by
  intro command hcommand
  cases run with
  | fixLivoxIp ping arpAfter arpTable stamp =>
      simp only [Run.commands] at hcommand
      split at hcommand
      · exact ⟨_, (Option.some.inj hcommand).symm⟩
      · cases hcommand
  | setupLivoxDriver machine response =>
      simp only [Run.commands] at hcommand
      split at hcommand
      · cases hcommand
      · split at hcommand
        · exact ⟨_, (Option.some.inj hcommand).symm⟩
        · cases hcommand

/-- While no command was given, every script under way begins with a copy; the
first command that is given is one. -/
theorem Reaches.copiesFirst (hidle : first.underWay = [])
    (h : Reaches first commands s) :
    (commands = [] → ∀ rest ∈ s.underWay, CopiesFirst rest) ∧
      CopiesFirst commands := by
  induction h with
  | refl => exact ⟨fun _ rest hrest => by simp [hidle] at hrest, nofun⟩
  | @step commands _ _ _ _ hstep ih =>
      obtain ⟨hpending, hgiven⟩ := ih
      cases hstep with
      | start disk underWay run =>
          rw [Option.toList_none, List.append_nil]
          refine ⟨fun hnil rest hrest => ?_, hgiven⟩
          rcases List.mem_cons.mp hrest with rfl | hrest
          · exact run.copiesFirst disk
          · exact hpending hnil rest hrest
      | exec disk before command rest after =>
          refine ⟨fun hnil => by simp at hnil, ?_⟩
          by_cases hnil : commands = []
          · subst hnil
            intro x hx
            apply hpending rfl (command :: rest) (by simp) x
            simpa using hx
          · rw [CopiesFirst, List.head?_append_of_ne_nil _ hnil]
            exact hgiven
      | stop disk before rest after =>
          rw [Option.toList_none, List.append_nil]
          refine ⟨fun hnil x hx => hpending hnil x ?_, hgiven⟩
          rcases List.mem_append.mp hx with hx | hx
          · exact List.mem_append_left _ hx
          · exact List.mem_append_right _ (List.mem_cons_of_mem _ hx)

/-- A copy stays until one of the same name is made. -/
theorem copies_foldl_of_not_mem {suffix : Text}
    (hsuffix : suffix ∉ commands.filterMap Command.suffix?) (disk : Disk) :
    (commands.foldl Disk.exec disk).copies suffix = disk.copies suffix := by
  induction commands generalizing disk with
  | nil => rfl
  | cons command commands ih =>
      rw [List.foldl_cons]
      cases command with
      | copyConfig other =>
          have hboth : suffix ≠ other ∧
              suffix ∉ commands.filterMap Command.suffix? := by
            simpa [Command.suffix?] using hsuffix
          rw [ih hboth.2]
          exact Function.update_of_ne hboth.1 _ _
      | replaceLidarIp q => exact ih hsuffix _
      | replaceIp q => exact ih hsuffix _
      | replaceHostIp q? => exact ih hsuffix _

/-- While no two copies have one name, the configuration the scripts found is
still there, in its place or in a copy. -/
theorem Reaches.holds_first (hidle : first.underWay = [])
    (hdisk : first.disk.configFile = some config)
    (h : Reaches first commands s)
    (hnames : (commands.filterMap Command.suffix?).Nodup) :
    s.disk.Holds config := by
  have hfirst := (h.copiesFirst hidle).2
  rw [h.disk_eq]
  cases commands with
  | nil => exact Or.inl hdisk
  | cons command commands =>
      obtain ⟨suffix, rfl⟩ := hfirst command rfl
      have hfresh : suffix ∉ commands.filterMap Command.suffix? :=
        (List.nodup_cons.mp hnames).1
      refine Or.inr ⟨suffix, ?_⟩
      rw [List.foldl_cons, copies_foldl_of_not_mem hfresh, Disk.exec]
      simp [hdisk]

theorem hostNetConfig_addressable (host : Quad) :
    Addressable (hostNetConfig host) := by
  have hfields : (hostNetConfig host).value.fields =
      [⟨plainKey hostNetInfoKey, .arr (.last []
          (.obj (.last (plainKey hostIpKey) (quadValue host) [])) [])⟩,
        ⟨plainKey hostIpKey, quadValue host⟩] := rfl
  constructor
  · intro field hfield
    rw [hfields, List.mem_cons, List.mem_singleton] at hfield
    rcases hfield with rfl | rfl
    · exact bare_spell _
    · exact bare_spell _
  · intro place field hfield hnamed
    rw [hfields, List.mem_cons, List.mem_singleton] at hfield
    rcases hfield with rfl | rfl
    · have hother : ∀ place : Place, units (plainKey hostNetInfoKey).key ≠
          textUnits place.name := fun place => by cases place <;> decide
      exact absurd hnamed (hother place)
    · have hunits : units (plainKey hostIpKey).key =
          textUnits Place.hostIp.name := by decide
      have hname := textUnits_injective (hunits.symm.trans hnamed)
      obtain rfl := Place.name_injective hname
      exact ⟨_, rfl, bare_spell _⟩

/-- The disk of a machine whose configuration names its second card. -/
def wlan0Disk : Disk :=
  ⟨some (hostNetConfig (quad 192 168 31 25)).text, fun _ => none⟩

/-- The user agrees to the update. -/
def agreedRun : Run := .setupLivoxDriver twoCardMachine (some ['y'])

theorem commands_agreedRun : agreedRun.commands wlan0Disk =
    [.copyConfig bakSuffix, .replaceHostIp twoCardMachine.leadingAddress?] := by
  have hdiffer : ¬ ShowsLeading twoCardMachine
      (hostNetConfig (quad 192 168 31 25)) := by
    rw [ShowsLeading]
    decide +kernel
  have hagrees : (some ['y']).any SetupLivoxDriver.agrees = true := by decide
  have hmismatch := currentHostIp_eq_configHostIp_iff.not.mpr hdiffer
  rw [agreedRun, Run.commands, wlan0Disk]
  exact if_pos ⟨hmismatch, hagrees⟩

/-- What the run leaves. -/
def updatedDisk : Disk := (wlan0Disk.exec (.copyConfig bakSuffix)).exec
  (.replaceHostIp twoCardMachine.leadingAddress?)

theorem reaches_updated : Reaches ⟨wlan0Disk, []⟩
    [.copyConfig bakSuffix, .replaceHostIp twoCardMachine.leadingAddress?]
    ⟨updatedDisk, [[]]⟩ := by
  have hstart := Step.start wlan0Disk [] agreedRun
  rw [commands_agreedRun] at hstart
  exact ((Reaches.refl.step hstart).step (.exec _ [] _ _ [])).step
    (.exec _ [] _ _ [])

/-- The first start is stopped after its copy, the second one goes through. -/
theorem reaches_updated_stopped : Reaches ⟨wlan0Disk, []⟩
    [.copyConfig bakSuffix, .copyConfig bakSuffix,
      .replaceHostIp twoCardMachine.leadingAddress?]
    ⟨((wlan0Disk.exec (.copyConfig bakSuffix)).exec
      (.copyConfig bakSuffix)).exec
        (.replaceHostIp twoCardMachine.leadingAddress?), [[]]⟩ := by
  have hstart := Step.start wlan0Disk [] agreedRun
  rw [commands_agreedRun] at hstart
  have hagain := Step.start (wlan0Disk.exec (.copyConfig bakSuffix)) []
    agreedRun
  rw [show agreedRun.commands (wlan0Disk.exec (.copyConfig bakSuffix)) =
    agreedRun.commands wlan0Disk from rfl, commands_agreedRun] at hagain
  exact (((((Reaches.refl.step hstart).step (.exec _ [] _ _ [])).step
    (.stop _ [] _ [])).step hagain).step (.exec _ [] _ _ [])).step
      (.exec _ [] _ _ [])

theorem configuration_updated : ∃ config' doc',
    updatedDisk.configFile = some config' ∧ parse config' = some doc' ∧
      Addressable doc' ∧
        (hostNetConfig (quad 192 168 31 25)).AgreeOutside addressKeys doc' :=
  Reaches.configuration (parse_text _) (hostNetConfig_addressable _) rfl
    reaches_updated

theorem configFile_updated_stopped :
    updatedDisk.configFile = (((wlan0Disk.exec (.copyConfig bakSuffix)).exec
      (.copyConfig bakSuffix)).exec
        (.replaceHostIp twoCardMachine.leadingAddress?)).configFile :=
  Reaches.configFile_eq_of_lastWrite (parse_text _)
    (hostNetConfig_addressable _) rfl reaches_updated reaches_updated_stopped
    fun place => by cases place <;> rfl

theorem holds_first_updated :
    updatedDisk.Holds (hostNetConfig (quad 192 168 31 25)).text :=
  Reaches.holds_first rfl rfl reaches_updated (by decide)

end LivoxScripts
