/-
The multicast group that `diagnose_no_data.sh` reads and looks for, whatever the
other scripts wrote into the configuration before.
-/
import LivoxScripts.CheckLidarData
import LivoxScripts.ConfigReadBack

namespace LivoxScripts

open TextTools JsonText Store

/-- What follows a group on its line: nothing, or a word after a blank. -/
abbrev GroupNote := { t : Text // '\n' ∉ t ∧
  (t = [] ∨ ∃ c rest, t = ' ' :: c :: rest ∧ c.isDigit = false) }

/-- A line of `ip maddr show`: a group of the internet protocol, or the name of
an interface or a group of another protocol. -/
inductive GroupLine where
  | inet (group : Quad) (note : GroupNote)
  | other (line : { t : Text // '\n' ∉ t })

def groupWord : Text := "\tinet  ".toList

namespace GroupLine

def text : GroupLine → Text
  | inet group note => groupWord ++ (group.text ++ note.1)
  | other line => line.1

/-- The texts in which an address can be found. -/
def texts : GroupLine → List Text
  | inet group note => [group.text, note.1]
  | other line => [line.1]

end GroupLine

def ipMaddrShow (table : List GroupLine) : Text :=
  unlines (table.map GroupLine.text)

/-- Some interface has joined the group. -/
def Joins (table : List GroupLine) (group : Quad) : Prop :=
  ∃ note, GroupLine.inet group note ∈ table

/-- The address stands in the listing, any character in the place of its
dots. -/
def FoundIn (table : List GroupLine) (group : Quad) : Prop :=
  ∃ l ∈ table, ∃ t ∈ l.texts, Resembles group t

/-- The group of the first member that can be read, or the one the script falls
back to. -/
def multicastGroup (doc : Document) : Quad :=
  ((firstOf (OnLine DiagnoseNoData.multicastIpKey) stringText doc).bind
    quad?).getD (quad 224 1 1 5)

variable {table : List GroupLine} {group : Quad}

theorem resembles_groupLine (l : GroupLine) :
    Resembles group l.text ↔ ∃ t ∈ l.texts, Resembles group t := by
  cases l with
  | other line =>
      simp only [GroupLine.text, GroupLine.texts, List.mem_singleton,
        exists_eq_left]
  | inet q note =>
      have hbefore : GroupLine.text (.inet q note) =
          "\tinet".toList ++ ' ' :: ' ' :: (q.text ++ note.1) := rfl
      have hword : ¬ Resembles group "\tinet".toList :=
        not_resembles_of_no_digit (by decide)
      rw [hbefore, resembles_gap_iff (by decide) (by decide), or_iff_right hword]
      simp only [GroupLine.texts, List.exists_mem_cons_iff, List.not_mem_nil,
        false_and, exists_false, or_false]
      rcases note.2.2 with hnil | ⟨c, rest, hnote, hc⟩
      · have hempty : ¬ Resembles group [] :=
          not_resembles_of_no_digit (by decide)
        rw [hnil, List.append_nil, or_iff_left hempty]
      · have hrest : Resembles group (' ' :: c :: rest) ↔
            Resembles group rest := by
          have hgap := resembles_gap_iff (q := group) (x := ' ') (y := c)
            (by decide) hc [] rest
          rw [List.nil_append] at hgap
          rw [hgap, or_iff_right (not_resembles_of_no_digit (by decide))]
        rw [hnote, resembles_gap_iff (by decide) hc, hrest]

theorem newline_not_mem_groupLine (l : GroupLine) : '\n' ∉ l.text := by
  cases l with
  | other line => exact line.2
  | inet q note =>
      have hword : '\n' ∉ groupWord := by decide
      have hgroup : '\n' ∉ q.text := not_mem_text (by decide) q
      rw [GroupLine.text, List.mem_append, List.mem_append]
      rintro (h | h | h)
      · exact hword h
      · exact hgroup h
      · exact note.2.1 h

theorem lines_ipMaddrShow (table : List GroupLine) :
    lines (ipMaddrShow table) = table.map GroupLine.text := by
  apply lines_unlines
  intro l hl
  obtain ⟨l, -, rfl⟩ := List.mem_map.mp hl
  exact newline_not_mem_groupLine l

theorem joinedGroup_iff_foundIn (table : List GroupLine) (group : Quad) :
    DiagnoseNoData.joinedGroup group.text (ipMaddrShow table) = true ↔
      FoundIn table group := by
  rw [DiagnoseNoData.joinedGroup, grepQ, lines_ipMaddrShow, List.any_map,
    List.any_eq_true]
  simp only [Function.comp_apply, search_dotted, resembles_groupLine, FoundIn]

/-- Section 3 of `check_lidar_data.sh` asks for one group, and shows the first
line in which it is found. -/
theorem groupReport_eq (table : List GroupLine) :
    CheckLidarData.groupReport (ipMaddrShow table) =
      match table.find? fun l => Resembles (quad 224 1 1 5) l.text with
      | none => .missing
      | some l => .joined (unlines [l.text]) := by
  have hgroup : CheckLidarData.multicastIp = (quad 224 1 1 5).text := by decide
  have hsearch : ∀ l : GroupLine,
      (Regex.dotted (quad 224 1 1 5).text).search true l.text =
        decide (Resembles (quad 224 1 1 5) l.text) := fun l => by
    rw [Bool.eq_iff_iff, decide_eq_true_iff, search_dotted]
  rw [CheckLidarData.groupReport, hgroup, grepQ, head1, lines_grep,
    lines_ipMaddrShow, List.any_map, List.filter_map, List.take_one,
    List.head?_map]
  simp only [Function.comp_def, hsearch, List.head?_filter]
  cases hfind : table.find? fun l => Resembles (quad 224 1 1 5) l.text with
  | none =>
      have hany : (table.any fun l =>
          decide (Resembles (quad 224 1 1 5) l.text)) = false :=
        List.any_eq_false.mpr (List.find?_eq_none.mp hfind)
      rw [hany]
      rfl
  | some l =>
      have hl : Resembles (quad 224 1 1 5) l.text := by
        simpa using List.find?_some hfind
      have hany : (table.any fun l =>
          decide (Resembles (quad 224 1 1 5) l.text)) = true :=
        List.any_eq_true.mpr
          ⟨l, List.mem_of_find?_eq_some hfind, decide_eq_true hl⟩
      rw [hany]
      rfl

theorem foundIn_of_joins (h : Joins table group) : FoundIn table group := by
  obtain ⟨note, hmem⟩ := h
  refine ⟨_, hmem, group.text, List.mem_cons_self, group.text,
    List.infix_rfl, ?_⟩
  exact Regex.mem_lang_dotted.mp (Regex.self_mem_lang_dotted _)

variable {doc : Document} {commands : List Command} {name : Text}

theorem multicastIp_eq (hkeys : BareKeys doc)
    (hquads : HoldsQuads DiagnoseNoData.multicastIpKey doc) :
    DiagnoseNoData.multicastIp doc.text = (multicastGroup doc).text := by
  have hread : commandSubst (head1 (grepO .perl
      DiagnoseNoData.multicastIpPattern doc.text)) =
        (firstOf (OnLine DiagnoseNoData.multicastIpKey) stringText
          doc).getD [] :=
    read_captured (by decide) (by decide) (fun _ hc => hc) hkeys hquads .perl
  rw [DiagnoseNoData.multicastIp, hread, multicastGroup]
  cases hfirst : firstOf (OnLine DiagnoseNoData.multicastIpKey) stringText doc with
  | none => rfl
  | some t =>
      obtain ⟨field, hfind, rfl⟩ := Option.map_eq_some_iff.mp hfirst
      have honline : OnLine DiagnoseNoData.multicastIpKey field := by
        simpa using List.find?_some hfind
      obtain ⟨q, hq⟩ := (hquads field (List.mem_of_find?_eq_some hfind)
        honline.1).stringText
      rw [hq, Option.getD_some, orDefault_of_ne_nil q.text_ne_nil,
        Option.bind_some, quad?_text, Option.getD_some]

/-- The members with a key, in the order of the text. -/
def Document.membersNamed (doc : Document) (name : Text) : List Field :=
  doc.value.fields.filter (Field.Named name ·)

theorem mem_membersNamed {field : Field} :
    field ∈ Document.membersNamed doc name ↔
      field ∈ doc.value.fields ∧ field.Named name := by
  simp [Document.membersNamed]

/-- A command leaves the members of another key alone, if they hold no members
themselves. -/
theorem Addressable.membersNamed_patch (h : Addressable doc)
    (command : Command) (hname : ∀ place : Place, place.name ≠ name)
    (hleaf : ∀ field ∈ Document.membersNamed doc name,
      field.value.fields = []) :
    Document.membersNamed (command.patch doc) name =
      Document.membersNamed doc name := by
  cases htarget : command.target with
  | none => rw [Command.patch, htarget]
  | some target =>
      obtain ⟨place, v⟩ := target
      have hv := (Command.target_fits htarget).1
      have hfields : (doc.patch (place.edit v)).value.fields =
          doc.value.fields.map (place.edit v).apply :=
        fields_patch fun field _ => Place.edit_leafy hv.fields field
      have hmembers : Document.membersNamed (command.patch doc) name =
          (Document.membersNamed doc name).map (place.edit v).apply := by
        rw [Command.patch_of_target htarget, Document.membersNamed, hfields,
          List.filter_map, Document.membersNamed]
        congr 1
        refine List.filter_congr fun field _ => ?_
        rw [Function.comp_apply, decide_eq_decide, Place.edit, named_apply]
      rw [hmembers]
      refine (List.map_congr_left fun field hmem => ?_).trans (List.map_id _)
      obtain ⟨hfield, hnamed⟩ := mem_membersNamed.mp hmem
      have htaken : ¬ Taken place.name place.take field := fun htaken =>
        hname place (textUnits_injective
          ((h.named hfield htaken).symm.trans hnamed))
      rw [Place.edit, apply_of_not_taken htaken,
        patch_of_fields_nil _ (hleaf field hmem)]
      rfl

theorem Addressable.membersNamed_patched (h : Addressable doc)
    (hname : ∀ place : Place, place.name ≠ name)
    (hleaf : ∀ field ∈ Document.membersNamed doc name,
      field.value.fields = []) (commands : List Command) :
    Document.membersNamed (LivoxScripts.patched doc commands) name =
      Document.membersNamed doc name := by
  induction commands generalizing doc with
  | nil => rfl
  | cons command commands ih =>
      have hpatch := h.membersNamed_patch command hname hleaf
      refine (ih (h.patch command) ?_).trans hpatch
      rw [hpatch]
      exact hleaf

/-- What is read of the first member on one line, by the members with its
key. -/
theorem firstOf_onLine (read : Value → Text) :
    firstOf (OnLine name) read doc =
      ((Document.membersNamed doc name).find? (OnLine name ·)).map
        fun field => read field.value := by
  rw [firstOf, Document.membersNamed, List.find?_filter]
  refine congrArg (Option.map _ <| doc.value.fields.find? ·)
    (funext fun field => ?_)
  by_cases honline : OnLine name field
  · simp [honline, honline.1]
  · simp [honline]

variable {first s : System} {config config' : Text}

/-- No script writes under the key of the group. -/
theorem place_name_ne_multicastIpKey (place : Place) :
    place.name ≠ DiagnoseNoData.multicastIpKey := by
  cases place <;> decide

/-- Whatever the scripts wrote on the way, section [4] looks for the group of
the first configuration, and finds it where something in the listing resembles
it. -/
theorem Reaches.joinedGroup_iff (hparse : parse config = some doc)
    (hdoc : Addressable doc)
    (hquads : HoldsQuads DiagnoseNoData.multicastIpKey doc)
    (hdisk : first.disk.configFile = some config)
    (h : Reaches first commands s)
    (hdisk' : s.disk.configFile = some config') (table : List GroupLine) :
    DiagnoseNoData.joinedGroup (DiagnoseNoData.multicastIp config')
        (ipMaddrShow table) = true ↔
      FoundIn table (multicastGroup doc) := by
  obtain rfl := text_of_parse hparse
  have hconfig' : (patched doc commands).text = config' := by
    rw [h.disk_eq, hdoc.configFile_foldl hdisk] at hdisk'
    exact Option.some.inj hdisk'
  have hleaf : ∀ field ∈ Document.membersNamed doc
      DiagnoseNoData.multicastIpKey, field.value.fields = [] := by
    intro field hmem
    obtain ⟨hfield, hnamed⟩ := mem_membersNamed.mp hmem
    obtain ⟨s, q, hs, -⟩ := hquads field hfield hnamed
    rw [hs]
    rfl
  have hmembers := hdoc.membersNamed_patched place_name_ne_multicastIpKey hleaf
    commands
  have hquads' : HoldsQuads DiagnoseNoData.multicastIpKey
      (patched doc commands) := by
    intro field hfield hnamed
    have hmem := mem_membersNamed.mpr ⟨hfield, hnamed⟩
    rw [hmembers] at hmem
    obtain ⟨hfield, hnamed⟩ := mem_membersNamed.mp hmem
    exact hquads field hfield hnamed
  have hgroup : multicastGroup (patched doc commands) = multicastGroup doc := by
    rw [multicastGroup, firstOf_onLine, hmembers, ← firstOf_onLine]
    rfl
  rw [← hconfig', multicastIp_eq (hdoc.patched commands).bareKeys hquads',
    hgroup, joinedGroup_iff_foundIn]

/-- A configuration with a group of its own. -/
def groupConfig : Document :=
  ⟨[], .obj (.last (plainKey hostNetInfoKey) (.arr (.last []
    (.obj (.more (plainKey lidarIpKey)
      (.arr (.last [] (quadValue (quad 192 168 1 157)) [])) []
      (.more (plainKey hostIpKey) (quadValue (quad 192 168 1 100)) []
      (.last (plainKey DiagnoseNoData.multicastIpKey)
        (quadValue (quad 239 1 2 3)) [])))) [])) []), []⟩

theorem groupConfig_addressable : Addressable groupConfig := by
  have hkeys : ∀ field ∈ groupConfig.value.fields,
      ∃ name, field.head = plainKey name := by
    simp [groupConfig, Value.fields, Members.fields, Elems.fields, quadValue]
  refine ⟨fun field hfield => ?_, fun place field hfield hnamed => ?_⟩
  · obtain ⟨name, hname⟩ := hkeys field hfield
    exact hname ▸ bare_spell name
  · have hmem := mem_fieldsNamed.mpr ⟨field, hfield, hnamed, rfl⟩
    cases place with
    | lidarIp =>
        have hlidars : groupConfig.value.fieldsNamed Place.lidarIp.name =
            [.arr (.last [] (quadValue (quad 192 168 1 157)) [])] := rfl
        rw [hlidars, List.mem_singleton] at hmem
        have harray : IsQuadArray field.value := by
          refine ⟨_, hmem, fun e he => ?_⟩
          obtain rfl := List.mem_singleton.mp he
          exact isQuad_quadValue _
        exact harray.bareStrings
    | ip =>
        have hnone : groupConfig.value.fieldsNamed Place.ip.name = [] := rfl
        exact absurd (hnone ▸ hmem) List.not_mem_nil
    | hostIp =>
        have hhosts : groupConfig.value.fieldsNamed Place.hostIp.name =
            [quadValue (quad 192 168 1 100)] := rfl
        rw [hhosts, List.mem_singleton] at hmem
        exact ⟨_, hmem, bare_spell _⟩

/-- The driver has joined the group of that configuration. -/
def joinedTable : List GroupLine :=
  [.other ⟨"2:\teth0".toList, by decide⟩,
    .inet (quad 239 1 2 3) ⟨[], by simp, Or.inl rfl⟩]

def groupDisk : Disk := ⟨some groupConfig.text, fun _ => none⟩

def foundGroupDisk : Disk :=
  [.copyConfig (stampSuffix ['1']), .replaceLidarIp (quad 192 168 1 3),
    .replaceIp (quad 192 168 1 3)].foldl Disk.exec groupDisk

theorem reaches_foundGroup : Reaches ⟨groupDisk, []⟩
    [.copyConfig (stampSuffix ['1']), .replaceLidarIp (quad 192 168 1 3),
      .replaceIp (quad 192 168 1 3)] ⟨foundGroupDisk, [[]]⟩ := by
  have hfound := Step.start groupDisk [] foundRun
  rw [groupDisk, commands_foundRun, ← groupDisk] at hfound
  exact (((Reaches.refl.step hfound).step (.exec _ [] _ _ [])).step
    (.exec _ [] _ _ [])).step (.exec _ [] _ _ [])

theorem joinedGroup_foundGroup : ∃ config',
    foundGroupDisk.configFile = some config' ∧
      DiagnoseNoData.joinedGroup (DiagnoseNoData.multicastIp config')
        (ipMaddrShow joinedTable) = true := by
  have hgroup : multicastGroup groupConfig = quad 239 1 2 3 := by decide
  have hquads : HoldsQuads DiagnoseNoData.multicastIpKey groupConfig := by
    intro field hfield hnamed
    have hmember : Document.membersNamed groupConfig
        DiagnoseNoData.multicastIpKey =
          [⟨plainKey DiagnoseNoData.multicastIpKey,
            quadValue (quad 239 1 2 3)⟩] := rfl
    have hmem := mem_membersNamed.mpr ⟨hfield, hnamed⟩
    rw [hmember, List.mem_singleton] at hmem
    exact hmem ▸ isQuad_quadValue _
  refine ⟨_, rfl, (Reaches.joinedGroup_iff (parse_text _)
    groupConfig_addressable hquads rfl reaches_foundGroup rfl
      joinedTable).mpr ?_⟩
  rw [hgroup]
  exact foundIn_of_joins ⟨⟨[], by simp, Or.inl rfl⟩, by simp [joinedTable]⟩

end LivoxScripts
