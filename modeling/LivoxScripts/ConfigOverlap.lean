/-
The scripts that write the configuration, now with commands that take time and
may overlap: `sed -i` opens the configuration when it begins and renames its own
file over it when it ends, and `cp` fills the copy while it runs.
-/
import LivoxScripts.ConfigReadBack
import LivoxScripts.Store.Runs

namespace LivoxScripts

open TextTools JsonText Store

/-- A command that has begun, with the configuration it has opened.  No command
writes into that file, they only put another one in its place. -/
structure Begun where
  command : Command
  configFile : Option Text

/-- A script under way: the command that has begun, if any, and those it has yet
to give. -/
structure Script where
  begun? : Option Begun
  rest : List Command

/-- The disk, the names of copies to which two `cp` wrote at a time, and the
scripts under way. -/
structure OverlapSystem where
  disk : Disk
  mixed : Text → Prop
  scripts : List Script

/-- Nothing is under way. -/
def OverlapSystem.idle (disk : Disk) : OverlapSystem :=
  ⟨disk, fun _ => False, []⟩

/-- What a step shows. -/
inductive Event where
  | began (command : Command)
  | ended (command : Command)

/-- The name of the copy that was begun. -/
def Event.copied? : Event → Option Text
  | began command => command.suffix?
  | ended _ => none

def Event.ended? : Event → Option Command
  | began _ => none
  | ended command => some command

/-- The disk once a command has begun: `cp` has emptied the copy and written
some of it, which may be any text. -/
def Disk.began (disk : Disk) (command : Command) (written : Text) : Disk where
  configFile := disk.configFile
  copies :=
    match command with
    | .copyConfig suffix => Function.update disk.copies suffix
        (disk.configFile.map (fun _ => written) <|> disk.copies suffix)
    | _ => disk.copies

/-- The disk once it has ended: `sed -i` puts what it made of the file it opened
in the place of the one that is there now. -/
def Disk.ended (disk : Disk) (begun : Begun) : Disk where
  configFile :=
    match begun.command with
    | .copyConfig _ => disk.configFile
    | command => begun.configFile.map command.rewrite <|> disk.configFile
  copies :=
    match begun.command with
    | .copyConfig suffix => Function.update disk.copies suffix
        (begun.configFile <|> disk.copies suffix)
    | _ => disk.copies

/-- The name to which the script is writing a copy. -/
def Script.copying? (script : Script) : Option Text :=
  script.begun?.bind fun begun => begun.command.suffix?

def copying (scripts : List Script) : List Text :=
  scripts.filterMap Script.copying?

/-- The mixed names once a command has begun beside these scripts. -/
def mixedBy (scripts : List Script) (mixed : Text → Prop)
    (command : Command) (name : Text) : Prop :=
  mixed name ∨ (command.suffix? = some name ∧ name ∈ copying scripts)

/-- One step.  Of a copy to which two `cp` wrote at a time nothing is known. -/
inductive OverlapStep : OverlapSystem → Option Event → OverlapSystem → Prop where
  | start (disk : Disk) (mixed : Text → Prop) (scripts : List Script)
      (run : Run) :
      OverlapStep ⟨disk, mixed, scripts⟩ none
        ⟨disk, mixed, ⟨none, run.commands disk⟩ :: scripts⟩
  | began (disk : Disk) (mixed : Text → Prop) (before : List Script)
      (command : Command) (rest : List Command) (after : List Script)
      (written : Text) :
      OverlapStep ⟨disk, mixed, before ++ ⟨none, command :: rest⟩ :: after⟩
        (some (.began command))
        ⟨disk.began command written, mixedBy (before ++ after) mixed command,
          before ++ ⟨some ⟨command, disk.configFile⟩, rest⟩ :: after⟩
  | ended (disk : Disk) (mixed : Text → Prop) (before : List Script)
      (begun : Begun) (rest : List Command) (after : List Script) :
      OverlapStep ⟨disk, mixed, before ++ ⟨some begun, rest⟩ :: after⟩
        (some (.ended begun.command))
        ⟨disk.ended begun, mixed, before ++ ⟨none, rest⟩ :: after⟩
  | endedMixed (disk : Disk) (mixed : Text → Prop) (before : List Script)
      (suffix : Text) (configFile : Option Text) (rest : List Command)
      (after : List Script) (hmixed : mixed suffix) (written : Text) :
      OverlapStep ⟨disk, mixed,
          before ++ ⟨some ⟨.copyConfig suffix, configFile⟩, rest⟩ :: after⟩
        (some (.ended (.copyConfig suffix)))
        ⟨⟨disk.configFile, Function.update disk.copies suffix (some written)⟩,
          mixed, before ++ ⟨none, rest⟩ :: after⟩
  | stop (disk : Disk) (mixed : Text → Prop) (before : List Script)
      (script : Script) (after : List Script) :
      OverlapStep ⟨disk, mixed, before ++ script :: after⟩ none
        ⟨disk, mixed, before ++ after⟩

variable {disk : Disk} {s s' : OverlapSystem} {events : List Event}
  {event? : Option Event} {doc : Document} {config : Text}

/-- The file is what some of the commands, in their order, make of the first
configuration. -/
def MadeBy (doc : Document) (commands : List Command)
    (configFile : Option Text) : Prop :=
  ∃ kept, kept.Sublist commands ∧ configFile = some (patched doc kept).text

/-- So is every file on the disk and every file that a command has opened. -/
structure AllMadeBy (doc : Document) (commands : List Command)
    (s : OverlapSystem) : Prop where
  onDisk : MadeBy doc commands s.disk.configFile
  opened : ∀ script ∈ s.scripts, ∀ begun ∈ script.begun?,
    MadeBy doc commands begun.configFile

variable {commands : List Command} {configFile : Option Text}

theorem MadeBy.append (h : MadeBy doc commands configFile)
    (more : List Command) : MadeBy doc (commands ++ more) configFile := by
  obtain ⟨kept, hkept, hfile⟩ := h
  exact ⟨kept, hkept.trans (List.sublist_append_left _ _), hfile⟩

/-- A command that ends adds itself to those that made the file it opened. -/
theorem MadeBy.rewrite (hdoc : Addressable doc)
    (h : MadeBy doc commands configFile) (command : Command) :
    MadeBy doc (commands ++ [command]) (configFile.map command.rewrite) := by
  obtain ⟨kept, hkept, rfl⟩ := h
  refine ⟨kept ++ [command], hkept.append (List.Sublist.refl _), ?_⟩
  rw [Option.map_some, (hdoc.patched kept).rewrite_text, patched, patched,
    List.foldl_append]
  rfl

/-- What holds of all scripts holds of the others, and comes back with the new
state of one. -/
theorem forall_mem_others {P : Script → Prop} {before after : List Script}
    {script : Script} (h : ∀ x ∈ before ++ script :: after, P x) :
    ∀ x ∈ before ++ after, P x := by
  simp only [List.forall_mem_append, List.forall_mem_cons] at h ⊢
  exact ⟨h.1, h.2.2⟩

theorem forall_mem_with {P : Script → Prop} {before after : List Script}
    {script : Script} (h : ∀ x ∈ before ++ after, P x) (hscript : P script) :
    ∀ x ∈ before ++ script :: after, P x := by
  simp only [List.forall_mem_append, List.forall_mem_cons] at h ⊢
  exact ⟨h.1, hscript, h.2⟩

theorem Disk.ended_of_suffix?_eq_none {begun : Begun}
    (h : begun.command.suffix? = none) : disk.ended begun =
      ⟨begun.configFile.map begun.command.rewrite <|> disk.configFile,
        disk.copies⟩ := by
  obtain ⟨command, configFile⟩ := begun
  cases command with
  | copyConfig suffix => cases h
  | replaceLidarIp q | replaceIp q | replaceHostIp q? => rfl

theorem Disk.ended_configFile_of_suffix? {begun : Begun} {suffix : Text}
    (h : begun.command.suffix? = some suffix) :
    (disk.ended begun).configFile = disk.configFile := by
  obtain ⟨command, configFile⟩ := begun
  cases command with
  | copyConfig suffix => rfl
  | replaceLidarIp q | replaceIp q | replaceHostIp q? => cases h

/-- What ends makes a file of the one it opened; the others stay. -/
theorem Disk.ended_madeBy (hdoc : Addressable doc) {begun : Begun}
    (hdisk : MadeBy doc commands disk.configFile)
    (hopened : MadeBy doc commands begun.configFile) :
    MadeBy doc (commands ++ [begun.command])
      (disk.ended begun).configFile := by
  cases hsuffix : begun.command.suffix? with
  | some suffix =>
      rw [Disk.ended_configFile_of_suffix? hsuffix]
      exact hdisk.append _
  | none =>
      obtain ⟨kept, hkept, hfile⟩ := hopened.rewrite hdoc begun.command
      rw [Disk.ended_of_suffix?_eq_none hsuffix, hfile]
      exact ⟨kept, hkept, rfl⟩

theorem AllMadeBy.step (hdoc : Addressable doc)
    (h : AllMadeBy doc commands s) (hstep : OverlapStep s event? s') :
    AllMadeBy doc (commands ++ (event?.bind Event.ended?).toList) s' := by
  obtain ⟨hdisk, hopened⟩ := h
  have hlater : ∀ more, ∀ script ∈ s.scripts, ∀ begun ∈ script.begun?,
      MadeBy doc (commands ++ more) begun.configFile :=
    fun more script hscript begun hbegun =>
      (hopened script hscript begun hbegun).append more
  cases hstep with
  | start disk mixed scripts run =>
      refine ⟨hdisk.append _, fun script hscript => ?_⟩
      rcases List.mem_cons.mp hscript with rfl | hscript
      · exact nofun
      · exact hlater _ script hscript
  | began disk mixed before command rest after written =>
      refine ⟨hdisk.append _, forall_mem_with (forall_mem_others (hlater _)) ?_⟩
      intro begun hbegun
      rw [← Option.mem_some_iff.mp hbegun]
      exact hdisk.append _
  | ended disk mixed before begun rest after =>
      have hthis := hopened _ List.mem_append_cons_self begun rfl
      exact ⟨Disk.ended_madeBy hdoc hdisk hthis,
        forall_mem_with (forall_mem_others (hlater _)) nofun⟩
  | endedMixed disk mixed before suffix configFile rest after hmixed written =>
      exact ⟨hdisk.append _,
        forall_mem_with (forall_mem_others (hlater _)) nofun⟩
  | stop disk mixed before script after =>
      exact ⟨hdisk.append _, forall_mem_others (hlater _)⟩

/-- Commands that overlap can lose updates and do nothing worse: the
configuration is what some of those that ended, one after the other, make of the
first one, JSON of the same shape that differs from it in addresses only. -/
theorem overlap_configuration (hparse : parse config = some doc)
    (hdoc : Addressable doc) (hdisk : disk.configFile = some config)
    (h : Runs OverlapStep (.idle disk) events s) :
    ∃ (kept : List Command) (config' : Text) (doc' : Document),
      kept.Sublist (events.filterMap Event.ended?) ∧
      s.disk.configFile = some config' ∧
      (kept.foldl Disk.exec disk).configFile = some config' ∧
        parse config' = some doc' ∧ Addressable doc' ∧
          doc.AgreeOutside addressKeys doc' := by
  obtain rfl := text_of_parse hparse
  have hall : AllMadeBy doc (events.filterMap Event.ended?) s := by
    refine h.invariant (P := fun events s =>
      AllMadeBy doc (events.filterMap Event.ended?) s) ?_ ?_
    · refine ⟨⟨[], List.Sublist.refl _, hdisk⟩, ?_⟩
      simp [OverlapSystem.idle]
    · intro events s event? s' hinv hstep
      rw [filterMap_append_toList]
      exact hinv.step hdoc hstep
  obtain ⟨kept, hkept, hfile⟩ := hall.onDisk
  exact ⟨kept, _, _, hkept, hfile, hdoc.configFile_foldl hdisk kept,
    parse_text _, hdoc.patched kept, hdoc.agreeOutside_patched kept⟩

/-- Both scripts copy the configuration and open it; what the first one to end
wrote is lost. -/
def lostEvents : List Event :=
  [.began (.copyConfig (stampSuffix ['1'])), .began (.copyConfig bakSuffix),
    .ended (.copyConfig bakSuffix), .ended (.copyConfig (stampSuffix ['1'])),
    .began (.replaceLidarIp (quad 192 168 1 3)),
    .began (.replaceHostIp (eth0Machine [10]).leadingAddress?),
    .ended (.replaceHostIp (eth0Machine [10]).leadingAddress?),
    .ended (.replaceLidarIp (quad 192 168 1 3)),
    .began (.replaceIp (quad 192 168 1 3)),
    .ended (.replaceIp (quad 192 168 1 3))]

theorem runs_lost : ∃ s, Runs OverlapStep (.idle sampleDisk) lostEvents s ∧
    s.disk.configFile = some ((Command.replaceIp (quad 192 168 1 3)).rewrite
      ((Command.replaceLidarIp (quad 192 168 1 3)).rewrite
        (sampleConfig []).text)) := by
  have hfound := Runs.refl.step
    (OverlapStep.start sampleDisk (fun _ => False) [] foundRun)
  rw [sampleDisk, commands_foundRun, ← sampleDisk] at hfound
  have hmoved := hfound.step (.start sampleDisk _ [_] movedRun)
  rw [commands_movedRun] at hmoved
  have hcopying := (hmoved.step (.began _ _ [_] _ _ [] [])).step
    (.began _ _ [] _ _ [_] [])
  have hcopied := (hcopying.step (.ended _ _ [] _ _ [_])).step
    (.ended _ _ [_] _ _ [])
  have hopened := (hcopied.step (.began _ _ [_] _ _ [] [])).step
    (.began _ _ [] _ _ [_] [])
  have hreplaced := (hopened.step (.ended _ _ [] _ _ [_])).step
    (.ended _ _ [_] _ _ [])
  have hdone := (hreplaced.step (.began _ _ [_] _ _ [] [])).step
    (.ended _ _ [_] _ _ [])
  exact ⟨_, hdone, rfl⟩

/-- The last command for the host address wrote a new one, and the readers find
the old one. -/
theorem overlap_configuration_lost :
    lastWrite Command.place? (lostEvents.filterMap Event.ended?)
        (some .hostIp) = some (.replaceHostIp (some (quad 192 168 31 10))) ∧
    ∃ (s : OverlapSystem) (kept : List Command) (config' : Text)
        (doc' : Document), Runs OverlapStep (.idle sampleDisk) lostEvents s ∧
      kept.Sublist (lostEvents.filterMap Event.ended?) ∧
      s.disk.configFile = some config' ∧ parse config' = some doc' ∧
      Addressable doc' ∧
        DiagnoseNoData.hostIp config' = (quad 192 168 1 100).text := by
  obtain ⟨s, hruns, hfile⟩ := runs_lost
  obtain ⟨kept, config', doc', hkept, hconfig', -, hparse, hdoc, -⟩ :=
    overlap_configuration (parse_text _)
      (sampleConfig_holdsAddresses []).addressable rfl hruns
  have hleading : (eth0Machine [10]).leadingAddress? =
      some (quad 192 168 31 10) := rfl
  refine ⟨?_, s, kept, config', doc', hruns, hkept, hconfig', hparse, hdoc, ?_⟩
  · rw [lostEvents, hleading]
    rfl
  · rw [hfile, Option.some.injEq] at hconfig'
    rw [← hconfig']
    decide +kernel

/-- The names, with the one of a script in front. -/
theorem copying_perm (before after : List Script) (script : Script) :
    (copying (before ++ script :: after)).Perm
      (script.copying?.toList ++ copying (before ++ after)) := by
  have hmiddle : (before ++ script :: after).Perm
      (script :: (before ++ after)) := List.perm_middle
  refine (hmiddle.filterMap Script.copying?).trans ?_
  rw [List.filterMap_cons, copying]
  cases script.copying? <;> rfl

theorem copying_others_subset (before after : List Script) (script : Script) :
    copying (before ++ after) ⊆ copying (before ++ script :: after) :=
  fun _ hname => (copying_perm before after script).mem_iff.mpr
    (List.mem_append_right _ hname)

theorem copying_idle (before after : List Script) (rest : List Command) :
    copying (before ++ ⟨none, rest⟩ :: after) = copying (before ++ after) := by
  rw [copying, List.filterMap_append, List.filterMap_cons_none rfl,
    ← List.filterMap_append, copying]

variable {names : List Text}

/-- The names to which copies are being written are among those that were begun,
no two copies go to one name, and none is mixed. -/
structure Counted (names : List Text) (s : OverlapSystem) : Prop where
  nodup : (copying s.scripts).Nodup
  begun : copying s.scripts ⊆ names
  unmixed : ∀ name, ¬ s.mixed name

/-- The configuration is the first one, and every script has yet to copy it. -/
structure Untouched (config : Text) (s : OverlapSystem) : Prop where
  onDisk : s.disk.configFile = some config
  scripts : ∀ script ∈ s.scripts,
    (script.begun? = none ∧ CopiesFirst script.rest) ∨
      ∃ suffix, script.begun? = some ⟨.copyConfig suffix, some config⟩

/-- Its copy is finished. -/
def Saved (config : Text) (names : List Text) (s : OverlapSystem) : Prop :=
  ∃ suffix ∈ names, s.disk.copies suffix = some config ∧
    suffix ∉ copying s.scripts

/-- Fewer copies are being written once a script is done with its own. -/
theorem Counted.of_done {script : Script} {before after scripts : List Script}
    {mixed : Text → Prop}
    (h : Counted names ⟨disk, mixed, before ++ script :: after⟩)
    (hscripts : copying scripts = copying (before ++ after)) (disk' : Disk) :
    Counted names ⟨disk', mixed, scripts⟩ := by
  obtain ⟨hnodup, hbegun, hunmixed⟩ := h
  have hall := (copying_perm before after script).nodup_iff.mp hnodup
  rw [List.nodup_append] at hall
  refine ⟨hscripts ▸ hall.2.1, fun name hname => ?_, hunmixed⟩
  rw [hscripts] at hname
  exact hbegun (copying_others_subset before after script hname)

theorem Counted.step (h : Counted names s) (hstep : OverlapStep s event? s')
    (hnames : (names ++ (event?.bind Event.copied?).toList).Nodup) :
    Counted (names ++ (event?.bind Event.copied?).toList) s' := by
  cases hstep with
  | start disk mixed scripts run =>
      rw [Option.bind_none, Option.toList_none, List.append_nil]
      exact ⟨h.nodup, h.begun, h.unmixed⟩
  | began disk mixed before command rest after written =>
      obtain ⟨hnodup, hbegun, hunmixed⟩ := h
      rw [Option.bind_some, Event.copied?] at hnames ⊢
      have hothers : copying (before ++ after) ⊆ names :=
        copying_idle before after (command :: rest) ▸ hbegun
      have hperm := copying_perm before after
        ⟨some ⟨command, disk.configFile⟩, rest⟩
      have hfresh := (List.nodup_append.mp hnames).2.2
      refine ⟨hperm.nodup_iff.mpr ?_, fun name hname => ?_, ?_⟩
      · rw [List.nodup_append]
        refine ⟨(List.nodup_append.mp hnames).2.1,
          copying_idle before after (command :: rest) ▸ hnodup, ?_⟩
        exact fun name hname other hother heq =>
          hfresh other (hothers hother) name hname heq.symm
      · rcases List.mem_append.mp (hperm.mem_iff.mp hname) with hname | hname
        · exact List.mem_append_right _ hname
        · exact List.mem_append_left _ (hothers hname)
      · rintro name (hmixed | ⟨hsuffix, hmem⟩)
        · exact hunmixed name hmixed
        · exact hfresh name (hothers hmem) name (by simp [hsuffix]) rfl
  | ended disk mixed before begun rest after =>
      rw [Option.bind_some, Event.copied?, Option.toList_none, List.append_nil]
      exact h.of_done (copying_idle _ _ _) _
  | endedMixed disk mixed before suffix configFile rest after hmixed written =>
      exact absurd hmixed (h.unmixed suffix)
  | stop disk mixed before script after =>
      rw [Option.bind_none, Option.toList_none, List.append_nil]
      exact h.of_done rfl _

/-- Beginning or ending a command changes no copy but its own. -/
theorem Disk.began_copies {suffix : Text} {command : Command}
    (h : command.suffix? ≠ some suffix) (written : Text) :
    (disk.began command written).copies suffix = disk.copies suffix := by
  cases command with
  | copyConfig other =>
      have hne : suffix ≠ other := fun heq => h (congrArg some heq.symm)
      exact Function.update_of_ne hne _ _
  | replaceLidarIp q | replaceIp q | replaceHostIp q? => rfl

theorem Disk.ended_copies {suffix : Text} {begun : Begun}
    (h : begun.command.suffix? ≠ some suffix) :
    (disk.ended begun).copies suffix = disk.copies suffix := by
  obtain ⟨command, configFile⟩ := begun
  cases command with
  | copyConfig other =>
      have hne : suffix ≠ other := fun heq => h (congrArg some heq.symm)
      exact Function.update_of_ne hne _ _
  | replaceLidarIp q | replaceIp q | replaceHostIp q? => rfl

/-- A finished copy stays, since no other one of its name is begun. -/
theorem Saved.step (h : Saved config names s) (hcounted : Counted names s)
    (hstep : OverlapStep s event? s')
    (hnames : (names ++ (event?.bind Event.copied?).toList).Nodup) :
    Saved config (names ++ (event?.bind Event.copied?).toList) s' := by
  obtain ⟨suffix, hsuffix, hcopy, hfree⟩ := h
  refine ⟨suffix, List.mem_append_left _ hsuffix, ?_⟩
  cases hstep with
  | start disk mixed scripts run => exact ⟨hcopy, hfree⟩
  | began disk mixed before command rest after written =>
      have hother : command.suffix? ≠ some suffix := fun heq => by
        have hmem : suffix ∈ ((some (Event.began command)).bind
            Event.copied?).toList := by simp [Event.copied?, heq]
        exact (List.nodup_append.mp hnames).2.2 suffix hsuffix suffix hmem rfl
      refine ⟨(Disk.began_copies hother written).trans hcopy, fun hmem => ?_⟩
      rcases List.mem_append.mp ((copying_perm _ _ _).mem_iff.mp hmem) with
        hmem | hmem
      · exact hother (Option.mem_toList.mp hmem)
      · exact hfree (copying_idle before after (command :: rest) ▸ hmem)
  | ended disk mixed before begun rest after =>
      have hother : begun.command.suffix? ≠ some suffix := fun heq =>
        hfree ((copying_perm _ _ _).mem_iff.mpr
          (List.mem_append_left _ (Option.mem_toList.mpr heq)))
      refine ⟨(Disk.ended_copies hother).trans hcopy, fun hmem => ?_⟩
      rw [copying_idle] at hmem
      exact hfree (copying_others_subset _ _ _ hmem)
  | endedMixed disk mixed before other configFile rest after hmixed written =>
      exact absurd hmixed (hcounted.unmixed other)
  | stop disk mixed before script after =>
      exact ⟨hcopy, fun hmem => hfree (copying_others_subset _ _ _ hmem)⟩

/-- The first command that ends is a copy of the first configuration. -/
theorem Untouched.step (h : Untouched config s) (hcounted : Counted names s)
    (hstep : OverlapStep s event? s') :
    Untouched config s' ∨
      Saved config (names ++ (event?.bind Event.copied?).toList) s' := by
  obtain ⟨hdisk, hscripts⟩ := h
  cases hstep with
  | start disk mixed scripts run =>
      refine Or.inl ⟨hdisk, fun script hscript => ?_⟩
      rcases List.mem_cons.mp hscript with rfl | hscript
      · exact Or.inl ⟨rfl, run.copiesFirst disk⟩
      · exact hscripts script hscript
  | began disk mixed before command rest after written =>
      refine Or.inl ⟨hdisk, forall_mem_with
        (forall_mem_others hscripts) (Or.inr ?_)⟩
      have hfirst : CopiesFirst (command :: rest) := by
        rcases hscripts _ List.mem_append_cons_self with hidle | hbegun
        · exact hidle.2
        · obtain ⟨suffix, hbegun⟩ := hbegun
          cases hbegun
      obtain ⟨suffix, rfl⟩ := hfirst command rfl
      exact ⟨suffix, by rw [show disk.configFile = some config from hdisk]⟩
  | ended disk mixed before begun rest after =>
      rcases hscripts _ List.mem_append_cons_self with hidle | hbegun
      · exact absurd hidle.1 (Option.some_ne_none _)
      · obtain ⟨suffix, hbegun⟩ := hbegun
        obtain rfl := Option.some.inj hbegun
        have hperm := copying_perm before after
          ⟨some ⟨.copyConfig suffix, some config⟩, rest⟩
        have hnodup := hperm.nodup_iff.mp hcounted.nodup
        refine Or.inr ⟨suffix, List.mem_append_left _ (hcounted.begun
          (hperm.mem_iff.mpr List.mem_cons_self)), ?_, ?_⟩
        · exact Function.update_self _ _ _
        · rw [copying_idle]
          exact (List.nodup_cons.mp hnodup).1
  | endedMixed disk mixed before suffix configFile rest after hmixed written =>
      exact absurd hmixed (hcounted.unmixed suffix)
  | stop disk mixed before script after =>
      exact Or.inl ⟨hdisk, forall_mem_others hscripts⟩

/-- However the commands overlap, and wherever the scripts are stopped, the
configuration they found is still there, in its place or in a copy, as long as no
two copies that were begun have one name. -/
theorem overlap_holds_first (hdisk : disk.configFile = some config)
    (h : Runs OverlapStep (.idle disk) events s)
    (hnames : (events.filterMap Event.copied?).Nodup) :
    s.disk.Holds config := by
  have hkept : (events.filterMap Event.copied?).Nodup →
      Counted (events.filterMap Event.copied?) s ∧
        (Untouched config s ∨
          Saved config (events.filterMap Event.copied?) s) := by
    refine h.invariant (P := fun events s =>
      (events.filterMap Event.copied?).Nodup →
        Counted (events.filterMap Event.copied?) s ∧
          (Untouched config s ∨
            Saved config (events.filterMap Event.copied?) s)) ?_ ?_
    · intro _
      exact ⟨⟨List.nodup_nil, List.Subset.refl _, fun _ => id⟩,
        Or.inl ⟨hdisk, fun script hscript => absurd hscript List.not_mem_nil⟩⟩
    · intro events s event? s' ih hstep hnames
      rw [filterMap_append_toList] at hnames ⊢
      obtain ⟨hcounted, hfirst⟩ := ih (List.nodup_append.mp hnames).1
      refine ⟨hcounted.step hstep hnames, ?_⟩
      rcases hfirst with huntouched | hsaved
      · exact huntouched.step hcounted hstep
      · exact Or.inr (hsaved.step hcounted hstep hnames)
  rcases (hkept hnames).2 with huntouched | ⟨suffix, -, hcopy, -⟩
  · exact Or.inl huntouched.onDisk
  · exact Or.inr ⟨suffix, hcopy⟩

theorem overlap_holds_first_lost : ∃ s,
    Runs OverlapStep (.idle sampleDisk) lostEvents s ∧
      s.disk.Holds (sampleConfig []).text := by
  obtain ⟨s, hruns, -⟩ := runs_lost
  exact ⟨s, hruns, overlap_holds_first rfl hruns (by decide)⟩

/-- A step of a run in which no command begins before the last one has ended. -/
def SerialStep (s : OverlapSystem) (event? : Option Event)
    (s' : OverlapSystem) : Prop :=
  OverlapStep s event? s' ∧ ∀ command, event? = some (.began command) →
    ∀ script ∈ s.scripts, script.begun? = none

/-- The commands that have yet to take effect. -/
def Script.pending (script : Script) : List Command :=
  (script.begun?.map Begun.command).toList ++ script.rest

/-- At most one command has begun, and what it has opened is still there: the
state is one of the system whose commands take no time. -/
structure Refines (s : OverlapSystem) (a : System) : Prop where
  configFile : a.disk.configFile = s.disk.configFile
  underWay : a.underWay = s.scripts.map Script.pending
  single : (s.scripts.filterMap Script.begun?).length ≤ 1
  opened : ∀ script ∈ s.scripts, ∀ begun ∈ script.begun?,
    begun.configFile = s.disk.configFile

theorem Run.commands_congr {disk' : Disk}
    (h : disk.configFile = disk'.configFile) (run : Run) :
    run.commands disk = run.commands disk' := by
  cases run with
  | fixLivoxIp ping arpAfter arpTable stamp =>
      rw [Run.commands, Run.commands, h]
  | setupLivoxDriver machine response =>
      rw [Run.commands, Run.commands, h]

/-- What was opened last is what the atomic command reads. -/
theorem Disk.ended_configFile {begun : Begun}
    (h : begun.configFile = disk.configFile) :
    (disk.ended begun).configFile =
      disk.configFile.map begun.command.rewrite := by
  obtain ⟨command, configFile⟩ := begun
  obtain rfl : configFile = disk.configFile := h
  cases command with
  | copyConfig suffix => exact Option.map_id'.symm
  | replaceLidarIp q | replaceIp q | replaceHostIp q? =>
      rw [Disk.ended]
      cases disk.configFile <;> rfl

theorem length_begun (before after : List Script) (begun : Begun)
    (rest : List Command) :
    ((before ++ ⟨some begun, rest⟩ :: after).filterMap Script.begun?).length =
      ((before ++ after).filterMap Script.begun?).length + 1 := by
  simp [Nat.add_assoc]

/-- Beside the one command that has begun there is none. -/
theorem begun?_eq_none_of_single {before after : List Script} {begun : Begun}
    {rest : List Command}
    (h : ((before ++ ⟨some begun, rest⟩ :: after).filterMap
      Script.begun?).length ≤ 1) :
    ∀ script ∈ before ++ after, script.begun? = none := by
  rw [length_begun] at h
  have hnil := List.length_eq_zero_iff.mp
    (Nat.le_zero.mp (Nat.le_of_succ_le_succ h))
  exact List.filterMap_eq_nil_iff.mp hnil

/-- The one command that has begun ends. -/
theorem Refines.ended {a : System} {mixed : Text → Prop}
    {before after : List Script} {begun : Begun} {rest : List Command}
    (h : Refines ⟨disk, mixed, before ++ ⟨some begun, rest⟩ :: after⟩ a)
    {disk' : Disk}
    (hdisk' : disk'.configFile = disk.configFile.map begun.command.rewrite) :
    ∃ a', Step a (some begun.command) a' ∧
      Refines ⟨disk', mixed, before ++ ⟨none, rest⟩ :: after⟩ a' := by
  obtain ⟨hfile, hunderWay, hsingle, -⟩ := h
  obtain ⟨adisk, underWay⟩ := a
  have hnone := begun?_eq_none_of_single hsingle
  have hidle : ∀ script ∈ before ++ ⟨none, rest⟩ :: after,
      script.begun? = none := forall_mem_with hnone rfl
  rw [List.map_append, List.map_cons] at hunderWay
  obtain rfl : underWay = _ := hunderWay
  refine ⟨_, Step.exec _ _ begun.command rest _, ?_, ?_, ?_, ?_⟩
  · rw [hdisk', ← show adisk.configFile = disk.configFile from hfile]
    rfl
  · rw [List.map_append, List.map_cons]
    rfl
  · rw [List.filterMap_eq_nil_iff.mpr hidle]
    exact Nat.zero_le _
  · intro script hscript other hother
    rw [hidle script hscript] at hother
    cases hother

/-- Each step of a run without overlap is one of the atomic system, or none. -/
theorem Refines.step {first a : System} (h : Refines s a)
    (hreaches : Reaches first commands a) (hstep : SerialStep s event? s') :
    ∃ a', Reaches first (commands ++ (event?.bind Event.ended?).toList) a' ∧
      Refines s' a' := by
  obtain ⟨hstep, hserial⟩ := hstep
  cases hstep with
  | start disk mixed scripts run =>
      obtain ⟨hfile, hunderWay, hsingle, hopened⟩ := h
      obtain ⟨adisk, underWay⟩ := a
      refine ⟨_, hreaches.step (Step.start adisk underWay run), hfile, ?_,
        hsingle, ?_⟩
      · rw [List.map_cons, ← hunderWay, run.commands_congr hfile]
        rfl
      · intro script hscript
        rcases List.mem_cons.mp hscript with rfl | hscript
        · exact nofun
        · exact hopened script hscript
  | began disk mixed before command rest after written =>
      obtain ⟨hfile, hunderWay, -, -⟩ := h
      have hnone := forall_mem_others (hserial command rfl)
      refine ⟨a, by simpa [Event.ended?] using hreaches, hfile, ?_, ?_, ?_⟩
      · rw [hunderWay, List.map_append, List.map_append]
        rfl
      · rw [length_begun, List.filterMap_eq_nil_iff.mpr hnone]
        rfl
      · refine forall_mem_with (fun script hscript => ?_) ?_
        · rw [hnone script hscript]
          exact nofun
        · intro begun hbegun
          rw [← Option.mem_some_iff.mp hbegun]
          rfl
  | ended disk mixed before begun rest after =>
      have hopened := h.opened _ List.mem_append_cons_self begun rfl
      obtain ⟨a', hstep, hrefines⟩ := h.ended (Disk.ended_configFile hopened)
      exact ⟨a', hreaches.step hstep, hrefines⟩
  | endedMixed disk mixed before suffix configFile rest after hmixed written =>
      have hfile : (Disk.mk disk.configFile (Function.update disk.copies suffix
          (some written))).configFile = disk.configFile.map
            (Command.copyConfig suffix).rewrite := Option.map_id'.symm
      obtain ⟨a', hstep, hrefines⟩ := h.ended hfile
      exact ⟨a', hreaches.step hstep, hrefines⟩
  | stop disk mixed before script after =>
      obtain ⟨hfile, hunderWay, hsingle, hopened⟩ := h
      obtain ⟨adisk, underWay⟩ := a
      rw [List.map_append, List.map_cons] at hunderWay
      obtain rfl : underWay = _ := hunderWay
      refine ⟨_, hreaches.step (Step.stop adisk _ _ _), hfile, ?_, ?_, ?_⟩
      · rw [List.map_append]
      · refine le_trans (List.Sublist.length_le ?_) hsingle
        exact ((List.sublist_cons_self script after).append_left before).filterMap _
      · exact forall_mem_others hopened

end LivoxScripts
