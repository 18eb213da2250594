/-
The scripts that write the configuration, running side by side and stopped
anywhere: what they leave in `MID360_config.json` and in the copies beside it.
-/
import LivoxScripts.HostIpUpdate
import LivoxScripts.Json.Overwrite
import LivoxScripts.Store.LastWrite

namespace LivoxScripts

open TextTools JsonText Store

/-- The configuration and its copies, by what their names add to its own. -/
structure Disk where
  configFile : Option Text
  copies : Text → Option Text

/-- `.bak` -/
def bakSuffix : Text := ".bak".toList

/-- `.bak.$(date …)` -/
def stampSuffix (stamp : Text) : Text := ".bak.".toList ++ stamp

namespace FixLivoxIp

inductive Outcome where
  | noConfigFile
  | notFound
  | updated (livoxIp : Text)
deriving DecidableEq

/-- The script from its first check to the updated configuration. -/
def fixLivoxIp (ping : Text → Bool) (arpAfter : Text → Text)
    (arpTable stamp : Text) (disk : Disk) : Outcome × Disk :=
  match disk.configFile with
  | none => (.noConfigFile, disk)
  | some configFile =>
      let ip := livoxIp ping arpAfter arpTable
      if ip.isEmpty then (.notFound, disk)
      else (.updated ip,
        ⟨some (updateConfig ip configFile),
          Function.update disk.copies (stampSuffix stamp) (some configFile)⟩)

end FixLivoxIp

/-- Step 4 on the files of the disk. -/
def SetupLivoxDriver.configureHostIp (ipAddrShow : Text)
    (response : Option Text) (disk : Disk) : HostIpReport × Disk :=
  let result := step4 ipAddrShow response
    ⟨disk.configFile, disk.copies bakSuffix⟩
  (result.1, ⟨result.2.configFile,
    Function.update disk.copies bakSuffix result.2.backup⟩)

/-- The commands that change the disk: `cp` and the three `sed -i`. -/
inductive Command where
  | copyConfig (suffix : Text)
  | replaceLidarIp (livoxIp : Quad)
  | replaceIp (livoxIp : Quad)
  | replaceHostIp (currentHostIp : Option Quad)

/-- What a command makes of the text of the configuration. -/
def Command.rewrite : Command → Text → Text
  | copyConfig _, configFile => configFile
  | replaceLidarIp q, configFile => sed FixLivoxIp.lidarIpPattern
      ("\"lidar_ip\": [\"".toList ++ (q.text ++ "\"]".toList)) configFile
  | replaceIp q, configFile => sed FixLivoxIp.ipPattern
      ("\"ip\": \"".toList ++ (q.text ++ "\"".toList)) configFile
  | replaceHostIp q?, configFile =>
      SetupLivoxDriver.updateConfig (addressText q?) configFile

/-- What a command leaves that no other one overlaps. -/
def Disk.exec (disk : Disk) (command : Command) : Disk where
  configFile := disk.configFile.map command.rewrite
  copies :=
    match command with
    | .copyConfig suffix => Function.update disk.copies suffix
        (disk.configFile <|> disk.copies suffix)
    | _ => disk.copies

/-- What the search of `fix_livox_ip.sh` comes to. -/
def foundAddress? (ping : Text → Bool) (arpAfter : Text → Text)
    (arpTable : Text) : Option Quad :=
  quad? (FixLivoxIp.livoxIp ping arpAfter arpTable)

/-- A start of one of the scripts, with what it meets. -/
inductive Run where
  | fixLivoxIp (ping : Text → Bool) (arpAfter : Text → Text)
      (arpTable stamp : Text)
  | setupLivoxDriver (machine : Machine) (response : Option Text)

/-- The commands a script gives once it has looked at the disk. -/
def Run.commands (disk : Disk) : Run → List Command
  | fixLivoxIp ping arpAfter arpTable stamp =>
      match disk.configFile, foundAddress? ping arpAfter arpTable with
      | some _, some q =>
          [.copyConfig (stampSuffix stamp), .replaceLidarIp q, .replaceIp q]
      | _, _ => []
  | setupLivoxDriver machine response =>
      match disk.configFile with
      | none => []
      | some configFile =>
          if SetupLivoxDriver.currentHostIp machine.ipAddrShow ≠
                SetupLivoxDriver.configHostIp configFile ∧
              response.any SetupLivoxDriver.agrees then
            [.copyConfig bakSuffix, .replaceHostIp machine.leadingAddress?]
          else []

theorem scanNetwork_eq (ping : Text → Bool) (arpAfter : Text → Text)
    (range : List Nat) : ∃ q?,
      FixLivoxIp.scanNetwork ping arpAfter range = addressText q? := by
  induction range with
  | nil => exact ⟨none, rfl⟩
  | cons i is ih =>
      rw [FixLivoxIp.scanNetwork]
      split
      · exact ⟨some (quad 192 168 1 i), by simp [addressText, Quad.text, quad,
          octet, show "192.168.1.".toList =
            Nat.toDigits 10 192 ++ '.' :: (Nat.toDigits 10 168 ++ '.' ::
              (Nat.toDigits 10 1 ++ ['.'])) by decide]⟩
      · exact ih

/-- What the script takes for an address is one, or nothing. -/
theorem livoxIp_eq (ping : Text → Bool) (arpAfter : Text → Text)
    (arpTable : Text) : FixLivoxIp.livoxIp ping arpAfter arpTable =
      addressText (foundAddress? ping arpAfter arpTable) := by
  have hlookup : ∃ q?, FixLivoxIp.arpLookup arpTable = addressText q? := by
    rw [FixLivoxIp.arpLookup, commandSubst_head1]
    cases hlines : lines (grepO .perl quadPattern
        (grep FixLivoxIp.livoxPattern arpTable)) with
    | nil => exact ⟨none, rfl⟩
    | cons m ms =>
        have hm : m ∈ lines (grepO .perl quadPattern
            (grep FixLivoxIp.livoxPattern arpTable)) := by simp [hlines]
        rw [lines_grepO] at hm
        obtain ⟨l, -, hm⟩ := List.mem_flatMap.mp hm
        obtain ⟨q, rfl⟩ := exists_quad_of_mem_onlyMatching hm
        exact ⟨some q, rfl⟩
  obtain ⟨q?, hq⟩ : ∃ q?, FixLivoxIp.livoxIp ping arpAfter arpTable =
      addressText q? := by
    rw [FixLivoxIp.livoxIp]
    split
    · exact scanNetwork_eq ping arpAfter _
    · exact hlookup
  rw [foundAddress?, hq]
  cases q? with
  | none => rfl
  | some q =>
      have htext : addressText (some q) = q.text := rfl
      rw [htext, quad?_text]
      rfl

theorem fixLivoxIp_eq (ping : Text → Bool) (arpAfter : Text → Text)
    (arpTable stamp : Text) (disk : Disk) :
    (FixLivoxIp.fixLivoxIp ping arpAfter arpTable stamp disk).2 =
      ((Run.fixLivoxIp ping arpAfter arpTable stamp).commands disk).foldl
        Disk.exec disk := by
  obtain ⟨configFile, copies⟩ := disk
  have hip := livoxIp_eq ping arpAfter arpTable
  cases configFile with
  | none => rfl
  | some configFile =>
      cases hfound : foundAddress? ping arpAfter arpTable with
      | none =>
          rw [hfound] at hip
          simp [FixLivoxIp.fixLivoxIp, Run.commands, hip, hfound, addressText]
      | some q =>
          rw [hfound] at hip
          simp [FixLivoxIp.fixLivoxIp, Run.commands, hip, hfound, addressText,
            q.text_ne_nil, Disk.exec, Command.rewrite, FixLivoxIp.updateConfig]

theorem configureHostIp_eq (machine : Machine) (response : Option Text)
    (disk : Disk) :
    (SetupLivoxDriver.configureHostIp machine.ipAddrShow response disk).2 =
      ((Run.setupLivoxDriver machine response).commands disk).foldl
        Disk.exec disk := by
  obtain ⟨configFile, copies⟩ := disk
  cases configFile with
  | none => simp [SetupLivoxDriver.configureHostIp, SetupLivoxDriver.step4,
      Run.commands]
  | some configFile =>
      have hcurrent := currentHostIp_eq machine
      rw [SetupLivoxDriver.configureHostIp]
      dsimp only
      rw [SetupLivoxDriver.step4_files rfl, Run.commands]
      dsimp only
      split
      · simp [Disk.exec, Command.rewrite, hcurrent]
      · simp

/-- The members whose values the scripts replace. -/
inductive Place where
  | lidarIp
  | ip
  | hostIp
deriving DecidableEq

namespace Place

def name : Place → Text
  | lidarIp => lidarIpKey
  | ip => ipKey
  | hostIp => hostIpKey

def take : Place → Value → Option Take
  | lidarIp => takeSingleton
  | ip | hostIp => takeEnclosed

/-- The values the documented configuration has there. -/
def Fits : Place → Value → Prop
  | lidarIp, v => BareStrings v
  | ip, v | hostIp, v => ∃ s, v = .str s ∧ Bare s

def edit (place : Place) (v : Value) : Edit := replaceAt place.name place.take v

theorem isName (place : Place) : IsName place.name := by
  cases place <;> decide

theorem name_injective {place place' : Place} (h : place.name = place'.name) :
    place = place' := by
  cases place <;> cases place' <;> first | rfl | exact absurd h (by decide)

theorem takesLeaves (place : Place) : TakesLeaves place.take := by
  have henclosed : TakesLeaves takeEnclosed := fun v h => by
    obtain ⟨t, ht⟩ := Option.isSome_iff_exists.mp h
    exact fields_of_takeEnclosed ht
  have hsingleton : TakesLeaves takeSingleton := fun v h => by
    rw [isSome_takeSingleton] at h
    unfold isSingleton at h
    split at h
    · rfl
    · simp at h
  cases place with
  | lidarIp => exact hsingleton
  | ip => exact henclosed
  | hostIp => exact henclosed

theorem Fits.fields {place : Place} {v : Value} (h : place.Fits v) :
    v.fields = [] := by
  cases place with
  | lidarIp => exact BareStrings.fields h
  | ip | hostIp =>
      obtain ⟨s, rfl, -⟩ := h
      rfl

end Place

namespace Command

/-- Where a command writes, and what. -/
def target : Command → Option (Place × Value)
  | copyConfig _ => none
  | replaceLidarIp q => some (.lidarIp, singleton q)
  | replaceIp q => some (.ip, quadValue q)
  | replaceHostIp q? => some (.hostIp, hostValue q?)

def place? (command : Command) : Option Place := command.target.map Prod.fst

/-- What a command makes of the document behind the text. -/
def patch (command : Command) (doc : Document) : Document :=
  match command.target with
  | none => doc
  | some (place, v) => doc.patch (place.edit v)

/-- What a command writes fits its place and is found again. -/
theorem target_fits {command : Command} {place : Place} {v : Value}
    (h : command.target = some (place, v)) :
    place.Fits v ∧ (place.take v).isSome := by
  cases command with
  | copyConfig suffix => cases h
  | replaceLidarIp q =>
      cases h
      exact ⟨singleton_bareStrings q, rfl⟩
  | replaceIp q =>
      cases h
      exact ⟨⟨_, rfl, bare_spell _⟩, rfl⟩
  | replaceHostIp q? =>
      cases h
      exact ⟨⟨_, rfl, bare_spell _⟩, rfl⟩

theorem patch_of_target {command : Command} {place : Place} {v : Value}
    (h : command.target = some (place, v)) (doc : Document) :
    command.patch doc = doc.patch (place.edit v) := by
  rw [patch, h]

/-- The last command counts in every place. -/
theorem lastWriteWins :
    LastWriteWins place? fun doc command => Command.patch command doc where
  overwrite doc x y hplace := by
    cases hx : x.target with
    | none => simp [patch, hx]
    | some xt =>
        obtain ⟨place, w⟩ := xt
        obtain ⟨⟨place', v⟩, hy, hsame⟩ : ∃ t, y.target = some t ∧
            t.1 = place := by
          rw [place?, place?, hx] at hplace
          exact Option.map_eq_some_iff.mp hplace.symm
        obtain rfl : place' = place := hsame
        rw [patch_of_target hx, patch_of_target hy, patch_of_target hy]
        exact patch_replaceAt_overwrite place'.takesLeaves
          (target_fits hx).2 v doc
  comm doc x y hplace := by
    cases hx : x.target with
    | none => simp [patch, hx]
    | some xt =>
        obtain ⟨place, v⟩ := xt
        cases hy : y.target with
        | none => simp [patch, hy]
        | some yt =>
            obtain ⟨place', w⟩ := yt
            have hne : place.name ≠ place'.name := fun h => hplace (by
              rw [place?, place?, hx, hy, Place.name_injective h]
              rfl)
            rw [patch_of_target hx, patch_of_target hy, patch_of_target hy,
              patch_of_target hx]
            exact patch_replaceAt_comm place.isName place'.isName hne
              place.takesLeaves place'.takesLeaves (target_fits hx).1.fields
              (target_fits hy).1.fields doc

end Command

/-- The documented shape as far as the commands rely on it: keys without
escapes, and plain strings, alone or in arrays, where addresses stand. -/
structure Addressable (doc : Document) : Prop where
  bareKeys : BareKeys doc
  fits : ∀ place : Place, ∀ field ∈ doc.value.fields,
    field.Named place.name → place.Fits field.value

variable {doc : Document} {field : Field}

theorem Addressable.rewritable (h : Addressable doc) : Rewritable doc :=
  ⟨h.bareKeys, h.fits .lidarIp, h.fits .ip⟩

theorem Addressable.named (h : Addressable doc)
    (hfield : field ∈ doc.value.fields) {place : Place}
    (htaken : Taken place.name place.take field) : field.Named place.name :=
  (showsKey_iff_named (h.bareKeys field hfield)).mp htaken.1

theorem Place.edit_leafy {place : Place} {v : Value} (hv : v.fields = [])
    (field : Field) : (place.edit v).Leafy field :=
  replaceAt_leafy hv fun htaken => place.takesLeaves _ htaken.2.2

/-- Every command keeps the documented shape. -/
theorem Addressable.patch (h : Addressable doc) (command : Command) :
    Addressable (command.patch doc) := by
  cases htarget : command.target with
  | none => rwa [Command.patch, htarget]
  | some target =>
      obtain ⟨place, v⟩ := target
      have hv := (Command.target_fits htarget).1
      have hfields : (doc.patch (place.edit v)).value.fields =
          doc.value.fields.map (place.edit v).apply :=
        fields_patch fun field _ => Place.edit_leafy hv.fields field
      rw [Command.patch_of_target htarget]
      constructor
      · intro field' hfield'
        rw [hfields] at hfield'
        obtain ⟨field, hfield, rfl⟩ := List.mem_map.mp hfield'
        rw [Place.edit, apply_replaceAt_key]
        exact h.bareKeys field hfield
      · intro place' field' hfield' hnamed
        rw [hfields] at hfield'
        obtain ⟨field, hfield, rfl⟩ := List.mem_map.mp hfield'
        have hold : field.Named place'.name := named_apply.mp hnamed
        have hfits := h.fits place' field hfield hold
        rw [Place.edit, apply_replaceAt_value hfits.fields]
        split
        · next htaken =>
            have hname : textUnits place.name = textUnits place'.name :=
              (h.named hfield htaken).symm.trans hold
            obtain rfl := Place.name_injective (textUnits_injective hname)
            exact hv
        · exact hfits

/-- The keys under which the scripts write. -/
def addressKeys : List Text := [lidarIpKey, ipKey, hostIpKey]

theorem hidden_iff_named :
    Hidden addressKeys field ↔ ∃ place : Place, field.Named place.name := by
  constructor
  · intro h
    simp only [Hidden, addressKeys, List.map_cons, List.map_nil,
      List.mem_cons, List.not_mem_nil, or_false] at h
    rcases h with h | h | h
    · exact ⟨.lidarIp, h⟩
    · exact ⟨.ip, h⟩
    · exact ⟨.hostIp, h⟩
  · rintro ⟨place, h⟩
    have hmem : textUnits place.name ∈ addressKeys.map textUnits := by
      apply List.mem_map_of_mem
      cases place <;> simp [addressKeys, Place.name]
    rw [Hidden, show units field.head.key = textUnits place.name from h]
    exact hmem

/-- Every command changes addresses only. -/
theorem Addressable.agreeOutside_patch (h : Addressable doc)
    (command : Command) :
    doc.AgreeOutside addressKeys (command.patch doc) := by
  cases htarget : command.target with
  | none =>
      rw [Command.patch, htarget]
      rfl
  | some target =>
      obtain ⟨place, v⟩ := target
      rw [Command.patch_of_target htarget, Place.edit, agreeOutside_patch_iff]
      · exact fun field hfield => keepsValue_replaceAt fun htaken =>
          hidden_iff_named.mpr ⟨place, h.named hfield htaken⟩
      · intro field hfield
        refine keepsShape_replaceAt
          (fun htaken => place.takesLeaves _ htaken.2.2) fun hhidden => ?_
        obtain ⟨place', hnamed⟩ := hidden_iff_named.mp hhidden
        exact (h.fits place' field hfield hnamed).fields

/-- On the documented shape a command edits the document behind the text. -/
theorem Addressable.rewrite_text (h : Addressable doc) (command : Command) :
    command.rewrite doc.text = (command.patch doc).text := by
  cases command with
  | copyConfig suffix => rfl
  | replaceLidarIp q => exact sed_array h.rewritable q
  | replaceIp q => exact sed_ip h.rewritable q
  | replaceHostIp q? =>
      apply updateConfig_host_eq
      rintro field hfield ⟨htaken, s, hs, hquote⟩
      have hhost : Taken Place.hostIp.name Place.hostIp.take field := htaken
      have hnamed := h.named hfield hhost
      obtain ⟨s', hs', hbare⟩ := h.fits .hostIp field hfield hnamed
      rw [hs, Value.str.injEq] at hs'
      exact quoteItem_not_mem_of_bare (hs' ▸ hbare) hquote

variable {disk : Disk} {commands : List Command}

/-- The document after the commands. -/
def patched (doc : Document) (commands : List Command) : Document :=
  commands.foldl (fun doc command => command.patch doc) doc

theorem Addressable.patched (h : Addressable doc) (commands : List Command) :
    Addressable (patched doc commands) := by
  induction commands generalizing doc with
  | nil => exact h
  | cons command commands ih => exact ih (h.patch command)

theorem Addressable.agreeOutside_patched (h : Addressable doc)
    (commands : List Command) :
    doc.AgreeOutside addressKeys (LivoxScripts.patched doc commands) := by
  induction commands generalizing doc with
  | nil => rfl
  | cons command commands ih =>
      exact (h.agreeOutside_patch command).trans (ih (h.patch command))

/-- The text on the disk is that of the document. -/
theorem Addressable.configFile_foldl (h : Addressable doc)
    (hdisk : disk.configFile = some doc.text) (commands : List Command) :
    (commands.foldl Disk.exec disk).configFile =
      some (LivoxScripts.patched doc commands).text := by
  induction commands generalizing doc disk with
  | nil => exact hdisk
  | cons command commands ih =>
      apply ih (h.patch command)
      have hexec : (disk.exec command).configFile =
          disk.configFile.map command.rewrite := rfl
      rw [hexec, hdisk, Option.map_some, h.rewrite_text]

end LivoxScripts
