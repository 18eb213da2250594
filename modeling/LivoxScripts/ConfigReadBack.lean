/-
What the scripts read after the configuration was written: the members that
hold addresses, the three scripts that read the first of them, and step 4 of
`setup_livox_driver.sh` when it comes again.
-/
import Mathlib.Data.List.Find
import LivoxScripts.ConfigReaders
import LivoxScripts.ConfigSystem

namespace LivoxScripts

open TextTools JsonText Store

/-- The members with the key of a place, in the order of the text. -/
def Document.membersAt (doc : Document) (place : Place) : List Field :=
  doc.value.fields.filter (Field.Named place.name ·)

/-- A member after a value was written to its place. -/
def Place.written (place : Place) (v : Value) (field : Field) : Field :=
  if Taken place.name place.take field then field.withValue v else field

/-- The members after the last command for their place. -/
def Place.after (place : Place) (command? : Option Command)
    (fields : List Field) : List Field :=
  match command?.bind Command.target with
  | none => fields
  | some (_, v) => fields.map (place.written v)

variable {doc : Document} {field : Field} {place : Place} {v w : Value}

theorem Place.written_of_taken (place : Place)
    (h : Taken place.name place.take field) :
    place.written v field = field.withValue v := if_pos h

theorem Place.written_of_not_taken (place : Place)
    (h : ¬ Taken place.name place.take field) :
    place.written v field = field := if_neg h

/-- A second value is written where the first one was. -/
theorem written_written (hw : (place.take w).isSome) (field : Field) :
    place.written v (place.written w field) = place.written v field := by
  by_cases htaken : Taken place.name place.take field
  · have hagain : Taken place.name place.take (field.withValue w) :=
      ⟨htaken.1, by simp [Field.withValue, KeyHead.OneLine], hw⟩
    rw [place.written_of_taken htaken, place.written_of_taken htaken,
      place.written_of_taken hagain]
    rfl
  · rw [place.written_of_not_taken htaken, place.written_of_not_taken htaken]

theorem Addressable.apply_named (h : Addressable doc)
    (hfield : field ∈ doc.value.fields) (hnamed : field.Named place.name) :
    (place.edit v).apply field = place.written v field := by
  have hnone := (h.fits place field hfield hnamed).fields
  rw [Place.edit, apply_replaceAt, Place.written, patch_of_fields_nil _ hnone]

theorem Addressable.apply_other (h : Addressable doc)
    (hfield : field ∈ doc.value.fields) {place' : Place}
    (hne : place ≠ place') (hnamed : field.Named place'.name) :
    (place.edit v).apply field = field := by
  have hnone := (h.fits place' field hfield hnamed).fields
  have htaken : ¬ Taken place.name place.take field := fun htaken => by
    have hname : textUnits place.name = textUnits place'.name :=
      (h.named hfield htaken).symm.trans hnamed
    exact hne (Place.name_injective (textUnits_injective hname))
  rw [Place.edit, apply_of_not_taken htaken, patch_of_fields_nil _ hnone]

/-- A command rewrites the members at its place and no others. -/
theorem Addressable.membersAt_patch (h : Addressable doc) (command : Command)
    (place : Place) :
    Document.membersAt (command.patch doc) place =
      if command.place? = some place then
        place.after (some command) (Document.membersAt doc place)
      else Document.membersAt doc place := by
  cases htarget : command.target with
  | none =>
      have hplace : command.place? ≠ some place := by
        simp [Command.place?, htarget]
      rw [if_neg hplace, Command.patch, htarget]
  | some target =>
      obtain ⟨place', v⟩ := target
      have hv := (Command.target_fits htarget).1
      have hfields : (doc.patch (place'.edit v)).value.fields =
          doc.value.fields.map (place'.edit v).apply :=
        fields_patch fun field _ => Place.edit_leafy hv.fields field
      have hmembers : Document.membersAt (command.patch doc) place =
          (Document.membersAt doc place).map (place'.edit v).apply := by
        rw [Command.patch_of_target htarget, Document.membersAt, hfields,
          List.filter_map, Document.membersAt]
        congr 1
        refine List.filter_congr fun field _ => ?_
        rw [Function.comp_apply, decide_eq_decide, Place.edit, named_apply]
      have hplace : command.place? = some place' := by
        rw [Command.place?, htarget]
        rfl
      have hnamed : ∀ field ∈ Document.membersAt doc place,
          field ∈ doc.value.fields ∧ field.Named place.name := fun field hf => by
        simpa [Document.membersAt] using hf
      rw [hmembers, hplace]
      by_cases hsame : place' = place
      · subst hsame
        rw [if_pos rfl, Place.after, Option.bind_some, htarget]
        exact List.map_congr_left fun field hf =>
          h.apply_named (hnamed field hf).1 (hnamed field hf).2
      · have hne : some place' ≠ some place := fun heq =>
          hsame (Option.some.inj heq)
        rw [if_neg hne]
        refine (List.map_congr_left fun field hf => ?_).trans (List.map_id _)
        exact h.apply_other (hnamed field hf).1 hsame (hnamed field hf).2

/-- After any commands, the members at a place are as the last command for it
left them. -/
theorem Addressable.membersAt_patched (h : Addressable doc) (place : Place)
    (commands : List Command) :
    Document.membersAt (LivoxScripts.patched doc commands) place =
      place.after (lastWrite Command.place? commands (some place))
        (Document.membersAt doc place) := by
  induction commands generalizing doc with
  | nil => rfl
  | cons command commands ih =>
      have hrest : Document.membersAt
          (LivoxScripts.patched doc (command :: commands)) place =
            place.after (lastWrite Command.place? commands (some place))
              (Document.membersAt (command.patch doc) place) :=
        ih (h.patch command)
      rw [hrest, h.membersAt_patch command place, lastWrite]
      by_cases hplace : command.place? = some place
      · rw [if_pos hplace, if_pos hplace]
        obtain ⟨⟨place', w⟩, htarget, rfl⟩ : ∃ target,
            command.target = some target ∧ target.1 = place :=
          Option.map_eq_some_iff.mp hplace
        have hw := (Command.target_fits htarget).2
        cases hlast : lastWrite Command.place? commands (some place') with
        | none => rfl
        | some later =>
            have hkey : later.place? = some place' := key_of_lastWrite hlast
            obtain ⟨⟨place'', v⟩, hlater, -⟩ : ∃ target,
                later.target = some target ∧ target.1 = place' :=
              Option.map_eq_some_iff.mp hkey
            simp only [Option.orElse_some, Place.after, Option.bind_some,
              hlater, htarget, List.map_map]
            exact List.map_congr_left fun field _ => written_written hw field
      · rw [if_neg hplace, if_neg hplace]
        cases lastWrite Command.place? commands (some place) <;> rfl

/-- The first member of a layout is where it was before the last write to its
place, which decides what is read of it. -/
theorem Addressable.firstOf_patched (h : Addressable doc) {layout : Field → Prop}
    [DecidablePred layout] (read : Value → Text) {commands : List Command}
    {command : Command}
    (hlast : lastWrite Command.place? commands (some place) = some command)
    (htarget : command.target = some (place, v))
    (hnamed : ∀ field, layout field → field.Named place.name)
    (hkept : ∀ field ∈ doc.value.fields,
      (layout (place.written v field) ↔ layout field)) :
    firstOf layout read (LivoxScripts.patched doc commands) =
      (doc.value.fields.find? (layout ·)).map fun field =>
        read (place.written v field).value := by
  have hmembers : ∀ doc : Document, doc.value.fields.find? (layout ·) =
      (Document.membersAt doc place).find? (layout ·) := by
    intro doc
    rw [Document.membersAt, List.find?_filter]
    refine congrArg (doc.value.fields.find? ·) (funext fun field => ?_)
    by_cases hlayout : layout field
    · simp [hlayout, hnamed field hlayout]
    · simp [hlayout]
  have hsame : ((Document.membersAt doc place).find?
      ((decide <| layout ·) ∘ place.written v)) =
        (Document.membersAt doc place).find? (layout ·) := by
    refine List.find?_congr fun field hfield => ?_
    have hmem := (List.mem_filter.mp hfield).1
    simp [hkept field hmem]
  rw [firstOf, hmembers, h.membersAt_patched, hlast, Place.after,
    Option.bind_some, htarget, List.find?_map, hsame, Option.map_map,
    hmembers]
  rfl

theorem Addressable.forall_patched (h : Addressable doc) {P : Value → Prop}
    {commands : List Command} {command : Command}
    (hlast : lastWrite Command.place? commands (some place) = some command)
    (htarget : command.target = some (place, v)) (hv : P v)
    (hold : ∀ field ∈ doc.value.fields, field.Named place.name →
      P field.value) :
    ∀ field ∈ (LivoxScripts.patched doc commands).value.fields,
      field.Named place.name → P field.value := by
  intro field hfield hnamed
  have hmem : field ∈ Document.membersAt
      (LivoxScripts.patched doc commands) place :=
    List.mem_filter.mpr ⟨hfield, by simpa using hnamed⟩
  rw [h.membersAt_patched, hlast, Place.after, Option.bind_some, htarget] at hmem
  obtain ⟨old, hin, rfl⟩ := List.mem_map.mp hmem
  obtain ⟨hin, hname⟩ := List.mem_filter.mp hin
  rw [Place.written]
  split
  · exact hv
  · exact hold old hin (by simpa using hname)

/-- The documented shape with addresses wherever the scripts read them. -/
structure HoldsAddresses (doc : Document) : Prop where
  addressable : Addressable doc
  lidarIps : HoldsQuadArrays lidarIpKey doc
  hostIps : HoldsQuads hostIpKey doc

/-- The new lidar address is written, or stands already, in the first member
that each pattern can read, and the host address can be read at all. -/
structure ReadsBack (livoxIp : Quad) (doc : Document) : Prop where
  tight : ∃ field, doc.value.fields.find? (ArrayTight lidarIpKey ·) =
    some field ∧ (ArrayRewritten field ∨
      firstAddress field.value = livoxIp.text)
  onLine : ∃ field, doc.value.fields.find? (ArrayOnLine lidarIpKey ·) =
    some field ∧ (ArrayRewritten field ∨
      firstAddress field.value = livoxIp.text)
  host : ∃ field ∈ doc.value.fields, OnLine hostIpKey field

variable {commands : List Command} {m : Machine}

/-- What the three scripts read, by the layout of the members. -/
theorem readAs_iff_readableLayout (hkeys : BareKeys doc)
    (hlidar : HoldsQuadArrays lidarIpKey doc) (hhost : HoldsQuads hostIpKey doc)
    {lidar host : Quad} : ReadAs (lidar.text, host.text) doc.text ↔
      ReadableLayout doc (lidar.text, host.text) := by
  have hquote : ∀ c, isAddressChar c = true → notQuote c = true := fun _ =>
    IsHostConfig.notQuote_of_isAddressChar
  have honline : ∀ p : Char → Bool, p '"' = false →
      (∀ c, isAddressChar c = true → p c = true) →
        commandSubst (head1 (grepO .perl (keyed isSpace lidarIpKey
            (capturedFirst isSpace p)) doc.text)) =
          (firstOf (ArrayOnLine lidarIpKey) firstAddress doc).getD [] ∧
        commandSubst (head1 (grepO .perl (keyed isSpace hostIpKey
            (captured p)) doc.text)) =
          (firstOf (OnLine hostIpKey) stringText doc).getD [] :=
    fun p hq hp => ⟨read_capturedFirst (by decide) hq hp hkeys hlidar .perl,
      read_captured (by decide) hq hp hkeys hhost .perl⟩
  have hdigits := honline isAddressChar (by decide) fun _ hc => hc
  have hnoquotes := honline notQuote (by decide) hquote
  have htight : DiagnoseLivoxRos2.lidarIp doc.text =
      (firstOf (ArrayTight lidarIpKey) firstAddress doc).getD [] :=
    read_firstEnclosed (by decide) hkeys hlidar .posix
  have hros : DiagnoseLivoxRos2.hostIp doc.text =
      (firstOf (OnLine hostIpKey) stringText doc).getD [] :=
    read_enclosed (by decide) hkeys hhost .posix
  simp only [ReadAs, Prod.mk.injEq, DiagnoseNoData.lidarIp,
    DiagnoseNoData.hostIp, DiagnoseNoData.lidarIpPattern,
    DiagnoseNoData.hostIpPattern, FindLivoxIp.configLidarIp,
    FindLivoxIp.configHostIp, FindLivoxIp.lidarIpPattern,
    FindLivoxIp.hostIpPattern, hdigits, hnoquotes, htight, hros]
  constructor
  · rintro ⟨⟨hno, -⟩, -, hlidarRos, hhostRos⟩
    have htight := eq_some_of_getD lidar.text_ne_nil hlidarRos
    obtain ⟨q, hq⟩ := exists_onLine_of_tight hlidar htight
    rw [hq, Option.getD_some, orDefault_of_ne_nil q.text_ne_nil] at hno
    exact ⟨htight, hq.trans (congrArg some hno),
      eq_some_of_getD host.text_ne_nil hhostRos⟩
  · rintro ⟨htight, hline, hhostLine⟩
    rw [htight, hline, hhostLine]
    simp only [Option.getD_some, orDefault_of_ne_nil lidar.text_ne_nil,
      orDefault_of_ne_nil host.text_ne_nil, and_self]

theorem arrayTight_of_rewritten (h : ArrayRewritten field) :
    ArrayTight lidarIpKey field := by
  refine ⟨h.1, ?_⟩
  have hsingle := h.2
  unfold isSingleton at hsingle
  split at hsingle
  · next hvalue => rw [hvalue]; rfl
  · simp at hsingle

theorem arrayOnLine_of_tight (h : ArrayTight lidarIpKey field) :
    ArrayOnLine lidarIpKey field :=
  ⟨h.1, by simp [h.2]⟩

theorem Addressable.rewritten_iff (h : Addressable doc)
    (hfield : field ∈ doc.value.fields) :
    Taken lidarIpKey takeSingleton field ↔ ArrayRewritten field :=
  taken_array_iff (h.bareKeys field hfield)

/-- What the first member of a layout holds once the arrays are written. -/
theorem Addressable.firstOf_arrays (h : Addressable doc) {lidar : Quad}
    {layout : Field → Prop} [DecidablePred layout]
    (hlast : lastWrite Command.place? commands (some .lidarIp) =
      some (.replaceLidarIp lidar))
    (hnamed : ∀ field, layout field → field.Named lidarIpKey)
    (hlayout : ∀ field, ArrayTight lidarIpKey field → layout field) :
    firstOf layout firstAddress (LivoxScripts.patched doc commands) = some lidar.text ↔
      ∃ field, doc.value.fields.find? (layout ·) = some field ∧
        (ArrayRewritten field ∨ firstAddress field.value = lidar.text) := by
  have hvalue : ∀ field ∈ doc.value.fields,
      firstAddress (Place.written .lidarIp (singleton lidar) field).value =
        lidar.text ↔
          ArrayRewritten field ∨ firstAddress field.value = lidar.text := by
    intro field hfield
    have htext : firstAddress (singleton lidar) = lidar.text :=
      raw_spell_quad lidar
    by_cases hrewritten : ArrayRewritten field
    · have htaken := (h.rewritten_iff hfield).mpr hrewritten
      rw [Place.written_of_taken .lidarIp htaken]
      exact iff_of_true htext (Or.inl hrewritten)
    · have htaken := (h.rewritten_iff hfield).not.mpr hrewritten
      rw [Place.written_of_not_taken .lidarIp htaken]
      exact (or_iff_right hrewritten).symm
  rw [h.firstOf_patched firstAddress hlast rfl hnamed]
  · rw [Option.map_eq_some_iff]
    refine exists_congr fun field => and_congr_right fun hfind => ?_
    exact hvalue field (List.mem_of_find?_eq_some hfind)
  · intro field hfield
    by_cases hrewritten : ArrayRewritten field
    · have htaken := (h.rewritten_iff hfield).mpr hrewritten
      rw [Place.written_of_taken .lidarIp htaken]
      have hnew : ArrayTight lidarIpKey (field.withValue (singleton lidar)) :=
        ⟨⟨hrewritten.1.1, by simp [Field.withValue, KeyHead.OneLine]⟩, rfl⟩
      exact iff_of_true (hlayout _ hnew)
        (hlayout _ (arrayTight_of_rewritten hrewritten))
    · have htaken := (h.rewritten_iff hfield).not.mpr hrewritten
      rw [Place.written_of_not_taken .lidarIp htaken]

/-- The host address is read back wherever it can be read. -/
theorem HoldsAddresses.firstOf_hosts (h : HoldsAddresses doc) {host : Quad}
    (hlast : lastWrite Command.place? commands (some .hostIp) =
      some (.replaceHostIp (some host))) :
    firstOf (OnLine hostIpKey) stringText (LivoxScripts.patched doc commands) =
        some host.text ↔
      ∃ field ∈ doc.value.fields, OnLine hostIpKey field := by
  have htaken : ∀ field ∈ doc.value.fields, OnLine hostIpKey field ↔
      Taken hostIpKey takeEnclosed field := by
    intro field hfield
    have hshow : ShowsKey hostIpKey field.head.key ↔ field.Named hostIpKey :=
      showsKey_iff_named (h.addressable.bareKeys field hfield)
    constructor
    · rintro ⟨hnamed, hline⟩
      obtain ⟨s, q, hs, -⟩ := h.hostIps field hfield hnamed
      exact ⟨hshow.mpr hnamed, hline, by simp [hs, takeEnclosed]⟩
    · rintro ⟨hkey, hline, -⟩
      exact ⟨hshow.mp hkey, hline⟩
  have htext : stringText (hostValue (some host)) = host.text :=
    raw_spell_quad host
  rw [h.addressable.firstOf_patched stringText hlast rfl fun _ h => h.1]
  · rw [Option.map_eq_some_iff]
    constructor
    · rintro ⟨field, hfind, -⟩
      exact ⟨field, List.mem_of_find?_eq_some hfind, by
        simpa using List.find?_some hfind⟩
    · rintro ⟨field, hfield, honline⟩
      obtain ⟨first, hfirst⟩ := Option.isSome_iff_exists.mp
        (List.find?_isSome (p := (OnLine hostIpKey ·)).mpr
          ⟨field, hfield, by simpa using honline⟩)
      have hmem := List.mem_of_find?_eq_some hfirst
      have hfirstLine : OnLine hostIpKey first := by
        simpa using List.find?_some hfirst
      refine ⟨first, hfirst, ?_⟩
      rw [Place.written_of_taken .hostIp ((htaken first hmem).mp hfirstLine)]
      exact htext
  · intro field hfield
    by_cases honline : OnLine hostIpKey field
    · rw [Place.written_of_taken .hostIp ((htaken field hfield).mp honline)]
      exact iff_of_true
        ⟨honline.1, by simp [Field.withValue, KeyHead.OneLine]⟩ honline
    · rw [Place.written_of_not_taken .hostIp
        ((htaken field hfield).not.mp honline)]

/-- After any run of the system whose last writes are these addresses, the three
scripts read them exactly when the layout of the first configuration lets
them. -/
theorem Reaches.readAs_iff {first s : System} {config config' : Text}
    (hparse : parse config = some doc) (hdoc : HoldsAddresses doc)
    (hdisk : first.disk.configFile = some config)
    (h : Reaches first commands s) {lidar host : Quad}
    (hlidar : lastWrite Command.place? commands (some .lidarIp) =
      some (.replaceLidarIp lidar))
    (hhost : lastWrite Command.place? commands (some .hostIp) =
      some (.replaceHostIp (some host)))
    (hdisk' : s.disk.configFile = some config') :
    ReadAs (lidar.text, host.text) config' ↔ ReadsBack lidar doc := by
  obtain rfl := text_of_parse hparse
  have haddress := hdoc.addressable
  have hconfig' : (patched doc commands).text = config' := by
    rw [h.disk_eq, haddress.configFile_foldl hdisk] at hdisk'
    exact Option.some.inj hdisk'
  have hlidars : HoldsQuadArrays lidarIpKey (patched doc commands) := by
    refine haddress.forall_patched hlidar rfl ?_ hdoc.lidarIps
    refine ⟨_, rfl, fun e he => ?_⟩
    obtain rfl := List.mem_singleton.mp he
    exact isQuad_quadValue lidar
  have hhosts : HoldsQuads hostIpKey (patched doc commands) :=
    haddress.forall_patched hhost rfl (isQuad_quadValue host) hdoc.hostIps
  have htight : firstOf (ArrayTight lidarIpKey) firstAddress
      (patched doc commands) = some lidar.text ↔ _ :=
    haddress.firstOf_arrays hlidar (fun _ h => h.1.1) fun _ h => h
  have honline : firstOf (ArrayOnLine lidarIpKey) firstAddress
      (patched doc commands) = some lidar.text ↔ _ :=
    haddress.firstOf_arrays hlidar (fun _ h => h.1.1) fun _ =>
      arrayOnLine_of_tight
  have hhostLine := hdoc.firstOf_hosts hhost
  rw [← hconfig', readAs_iff_readableLayout
    (haddress.patched commands).bareKeys hlidars hhosts]
  constructor
  · rintro ⟨ht, hl, hh⟩
    exact ⟨htight.mp ht, honline.mp hl, hhostLine.mp hh⟩
  · rintro ⟨ht, hl, hh⟩
    exact ⟨htight.mpr ht, honline.mpr hl, hhostLine.mpr hh⟩

/-- The step finds nothing to do, whatever the user would answer. -/
def Settled (m : Machine) (disk : Disk) : Prop :=
  ∀ response,
    (SetupLivoxDriver.configureHostIp m.ipAddrShow response disk).1.isMismatch =
        false ∧
      (SetupLivoxDriver.configureHostIp m.ipAddrShow response disk).2 = disk

/-- The step has nothing to do exactly when the first address of the machine
stands where it is looked for. -/
theorem settled_iff_showsLeading {disk : Disk}
    (hdisk : disk.configFile = some doc.text) :
    Settled m disk ↔ ShowsLeading m doc := by
  have hfiles : (SetupLivoxDriver.Files.mk disk.configFile
      (disk.copies bakSuffix)).configFile = some doc.text := hdisk
  have hmismatch : ∀ response,
      (SetupLivoxDriver.configureHostIp m.ipAddrShow response
        disk).1.isMismatch = true ↔ ¬ ShowsLeading m doc := fun response =>
    (SetupLivoxDriver.isMismatch_iff hfiles).trans
      currentHostIp_eq_configHostIp_iff.not
  constructor
  · intro h
    by_contra hdiffer
    exact absurd ((hmismatch none).mpr hdiffer) (by simp [(h none).1])
  · intro hshows response
    have hsame := currentHostIp_eq_configHostIp_iff.mpr hshows
    refine ⟨Bool.eq_false_iff.mpr fun h => (hmismatch response).mp h hshows, ?_⟩
    simp only [SetupLivoxDriver.configureHostIp,
      SetupLivoxDriver.step4_files hfiles, hsame, ne_eq, not_true_eq_false,
      false_and, ↓reduceIte, Function.update_eq_self]

theorem findSome?_filter {α β : Type} {f : α → Option β} {p : α → Bool}
    {l : List α} (h : ∀ x ∈ l, p x = false → f x = none) :
    (l.filter p).findSome? f = l.findSome? f := by
  induction l with
  | nil => rfl
  | cons x xs ih =>
      have hxs := ih fun y hy => h y (List.mem_cons_of_mem x hy)
      cases hx : p x with
      | true => rw [List.filter_cons_of_pos hx, List.findSome?_cons,
          List.findSome?_cons, hxs]
      | false => rw [List.filter_cons_of_neg (by simp [hx]), hxs,
          List.findSome?_cons, h x List.mem_cons_self hx]

theorem findSome?_ite {α β : Type} {f : α → Option β} {p : α → Prop}
    [DecidablePred p] {o : Option β} {l : List α}
    (h : ∀ x ∈ l, f x = if p x then o else none) :
    l.findSome? f = if ∃ x ∈ l, p x then o else none := by
  induction l with
  | nil => simp
  | cons x xs ih =>
      have hxs := ih fun y hy => h y (List.mem_cons_of_mem x hy)
      rw [List.findSome?_cons, h x List.mem_cons_self, hxs]
      by_cases hx : p x
      · cases o <;> simp [hx]
      · simp [hx]

/-- Of a written member the new address is shown, if there is one. -/
theorem shownHost?_withValue (q? : Option Quad)
    (hkey : ShowsKey hostIpKey field.head.key) :
    shownHost? (field.withValue (hostValue q?)) = q?.map Quad.text := by
  have hup : upToQuote (spell (addressText q?)) = addressText q? := by
    rw [(upToQuote_of_not_mem (quoteItem_not_mem_of_bare (bare_spell _))).1,
      raw_spell_addressText]
  have hsite : ShowsKey hostIpKey (field.withValue (hostValue q?)).head.key ∧
      (field.withValue (hostValue q?)).head.OneLine :=
    ⟨hkey, by simp [Field.withValue, KeyHead.OneLine]⟩
  rw [shownHost?, if_pos hsite]
  simp only [Field.withValue, hostValue, hup]
  cases q? with
  | none => rfl
  | some q => exact if_neg q.text_ne_nil

/-- Once the first address was written, it is shown unless no member could be
rewritten. -/
theorem showsLeading_patched (h : Addressable doc)
    (hlast : lastWrite Command.place? commands (some .hostIp) =
      some (.replaceHostIp m.leadingAddress?)) :
    ShowsLeading m (patched doc commands) ↔ m.leadingAddress? = none ∨
      ∃ field ∈ doc.value.fields, OnLine hostIpKey field := by
  have hnamed : ∀ doc, Addressable doc →
      (Document.membersAt doc .hostIp).findSome? shownHost? =
        doc.value.fields.findSome? shownHost? := by
    intro doc hdoc
    refine findSome?_filter fun field hfield hother => if_neg fun hsite => ?_
    have hname := (showsKey_iff_named (hdoc.bareKeys field hfield)).mp hsite.1
    exact of_decide_eq_false hother hname
  have hshown : ∀ field ∈ Document.membersAt doc .hostIp,
      (shownHost? ∘ Place.written .hostIp (hostValue m.leadingAddress?)) field =
        if OnLine hostIpKey field then m.leadingAddress?.map Quad.text
        else none := by
    intro field hmem
    rw [Function.comp_apply]
    obtain ⟨hfield, hname⟩ := List.mem_filter.mp hmem
    have hname : field.Named hostIpKey := of_decide_eq_true hname
    obtain ⟨s, hs, -⟩ := h.fits .hostIp field hfield hname
    have hkey := (showsKey_iff_named (h.bareKeys field hfield)).mpr hname
    by_cases honline : OnLine hostIpKey field
    · have htaken : Taken hostIpKey takeEnclosed field :=
        ⟨hkey, honline.2, by simp [hs, takeEnclosed]⟩
      rw [Place.written_of_taken .hostIp htaken, if_pos honline]
      exact shownHost?_withValue _ hkey
    · have hbroken : ¬ field.head.OneLine := fun hline =>
        honline ⟨hname, hline⟩
      rw [Place.written_of_not_taken .hostIp fun htaken => hbroken htaken.2.1,
        if_neg honline]
      exact if_neg fun hsite => hbroken hsite.2
  have hexists : (∃ field ∈ Document.membersAt doc .hostIp,
      OnLine hostIpKey field) ↔
        ∃ field ∈ doc.value.fields, OnLine hostIpKey field := by
    refine exists_congr fun field => ?_
    rw [Document.membersAt, List.mem_filter, and_assoc]
    refine and_congr_right fun _ => and_iff_right_of_imp fun honline => ?_
    exact decide_eq_true honline.1
  have hfind : (patched doc commands).value.fields.findSome? shownHost? =
      if ∃ field ∈ doc.value.fields, OnLine hostIpKey field then
        m.leadingAddress?.map Quad.text else none := by
    rw [← hnamed _ (h.patched commands), h.membersAt_patched, hlast,
      Place.after, Option.bind_some, Command.target, List.findSome?_map,
      findSome?_ite hshown, if_congr hexists rfl rfl]
  rw [ShowsLeading, hfind]
  by_cases hline : ∃ field ∈ doc.value.fields, OnLine hostIpKey field
  · rw [if_pos hline]
    exact iff_of_true rfl (Or.inr hline)
  · rw [if_neg hline, or_iff_left hline]
    cases m.leadingAddress? <;> simp

/-- After any run of the system whose last host address is the first one of the
machine, the step is settled, unless the machine has an address and no member
could be rewritten. -/
theorem Reaches.settled_iff {first s : System} {config : Text}
    (hparse : parse config = some doc) (hdoc : Addressable doc)
    (hdisk : first.disk.configFile = some config)
    (h : Reaches first commands s)
    (hlast : lastWrite Command.place? commands (some .hostIp) =
      some (.replaceHostIp m.leadingAddress?)) :
    Settled m s.disk ↔ m.leadingAddress? = none ∨
      ∃ field ∈ doc.value.fields, OnLine hostIpKey field := by
  obtain rfl := text_of_parse hparse
  have hfile : s.disk.configFile = some (patched doc commands).text := by
    rw [h.disk_eq, hdoc.configFile_foldl hdisk]
  rw [settled_iff_showsLeading hfile, showsLeading_patched hdoc hlast]

theorem sampleConfig_holdsAddresses (gap : List Blank) :
    HoldsAddresses (sampleConfig gap) := by
  have hdoc := sampleConfig_isHostConfig gap
  have hlidars := hdoc.holdsQuadArrays
  have hhosts := hdoc.holdsQuads
  refine ⟨⟨hdoc.bareKeys, fun place field hfield hnamed => ?_⟩, hlidars,
    hhosts⟩
  cases place with
  | lidarIp => exact (hlidars field hfield hnamed).bareStrings
  | hostIp =>
      obtain ⟨s, q, hs, hbare, -⟩ := hhosts field hfield hnamed
      exact ⟨s, hs, hbare⟩
  | ip =>
      have hnone : (sampleConfig gap).value.fieldsNamed ipKey = [] := rfl
      have hmem := mem_fieldsNamed.mpr ⟨field, hfield, hnamed, rfl⟩
      exact absurd (hnone ▸ hmem) List.not_mem_nil

/-- A neighbour with the MAC address of a Livox device. -/
def livoxTable : Text :=
  "? (192.168.1.3) at 0c:9a:e6:00:00:01 [ether] on eth0\n".toList

def foundRun : Run := .fixLivoxIp (fun _ => false) id livoxTable ['1']

def movedRun : Run := .setupLivoxDriver (eth0Machine [10]) (some ['y'])

def sampleDisk : Disk := ⟨some (sampleConfig []).text, fun _ => none⟩

theorem commands_foundRun (config : Text) (copies : Text → Option Text) :
    foundRun.commands ⟨some config, copies⟩ =
      [.copyConfig (stampSuffix ['1']), .replaceLidarIp (quad 192 168 1 3),
        .replaceIp (quad 192 168 1 3)] := by
  have hip : FixLivoxIp.livoxIp (fun _ => false) id livoxTable =
      (quad 192 168 1 3).text := by decide +kernel
  have hfound : foundAddress? (fun _ => false) id livoxTable =
      some (quad 192 168 1 3) := by
    rw [foundAddress?, hip, quad?_text]
  rw [foundRun, Run.commands, hfound]

theorem commands_movedRun : movedRun.commands sampleDisk =
    [.copyConfig bakSuffix,
      .replaceHostIp (eth0Machine [10]).leadingAddress?] := by
  have hdiffer : ¬ ShowsLeading (eth0Machine [10]) (sampleConfig []) := by
    rw [ShowsLeading]
    decide +kernel
  have hmismatch := currentHostIp_eq_configHostIp_iff.not.mpr hdiffer
  have hagrees : (some ['y']).any SetupLivoxDriver.agrees = true := by decide
  rw [movedRun, Run.commands, sampleDisk]
  exact if_pos ⟨hmismatch, hagrees⟩

/-- What the two scripts leave when they take turns. -/
def sharedDisk : Disk :=
  [.copyConfig (stampSuffix ['1']), .copyConfig bakSuffix,
    .replaceLidarIp (quad 192 168 1 3),
    .replaceHostIp (eth0Machine [10]).leadingAddress?,
    .replaceIp (quad 192 168 1 3)].foldl Disk.exec sampleDisk

theorem reaches_shared : Reaches ⟨sampleDisk, []⟩
    [.copyConfig (stampSuffix ['1']), .copyConfig bakSuffix,
      .replaceLidarIp (quad 192 168 1 3),
      .replaceHostIp (eth0Machine [10]).leadingAddress?,
      .replaceIp (quad 192 168 1 3)] ⟨sharedDisk, [[], []]⟩ := by
  have hfound := Step.start sampleDisk [] foundRun
  rw [sampleDisk, commands_foundRun, ← sampleDisk] at hfound
  have hmoved := Step.start sampleDisk
    [[.copyConfig (stampSuffix ['1']), .replaceLidarIp (quad 192 168 1 3),
      .replaceIp (quad 192 168 1 3)]] movedRun
  rw [commands_movedRun] at hmoved
  have hcopied := ((Reaches.refl.step hfound).step hmoved).step
    (.exec _ [_] _ _ [])
  have hlidar := (hcopied.step (.exec _ [] _ _ [_])).step (.exec _ [_] _ _ [])
  exact (hlidar.step (.exec _ [] _ _ [_])).step (.exec _ [_] _ _ [])

theorem readAs_shared : ∃ config', sharedDisk.configFile = some config' ∧
    ReadAs ((quad 192 168 1 3).text, (quad 192 168 31 10).text) config' := by
  have hback : ReadsBack (quad 192 168 1 3) (sampleConfig []) := by
    refine ⟨⟨_, rfl, Or.inl (by decide)⟩, ⟨_, rfl, Or.inl (by decide)⟩,
      ⟨plainKey hostIpKey, quadValue (quad 192 168 1 100)⟩, ?_, by decide⟩
    exact List.mem_of_getLast? rfl
  have hhost : lastWrite Command.place?
      [.copyConfig (stampSuffix ['1']), .copyConfig bakSuffix,
        .replaceLidarIp (quad 192 168 1 3),
        .replaceHostIp (eth0Machine [10]).leadingAddress?,
        .replaceIp (quad 192 168 1 3)] (some .hostIp) =
      some (.replaceHostIp (some (quad 192 168 31 10))) := by
    have hleading : (eth0Machine [10]).leadingAddress? =
        some (quad 192 168 31 10) := rfl
    rw [hleading]
    rfl
  exact ⟨_, rfl, (Reaches.readAs_iff (parse_text _)
    (sampleConfig_holdsAddresses []) rfl reaches_shared rfl hhost rfl).mpr
      hback⟩

/-- The step that was under way has nothing left to do. -/
theorem settled_shared : Settled (eth0Machine [10]) sharedDisk :=
  (Reaches.settled_iff (parse_text _)
    (sampleConfig_holdsAddresses []).addressable rfl reaches_shared rfl).mpr
      (Or.inr ⟨⟨plainKey hostIpKey, quadValue (quad 192 168 1 100)⟩,
        List.mem_of_getLast? rfl, by decide⟩)

end LivoxScripts
