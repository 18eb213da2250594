/-
What comes out of a search for members: the texts it reports, in the order of
the members, and the document a replacement turns the text into.
-/
import LivoxScripts.Json.Weave

namespace JsonText

open TextTools

/-- What a replacement makes of a member; `none` when it is left alone. -/
abbrev Edit := Field → Option Field

def Edit.at (edit : Edit) (field otherwise : Field) : Field :=
  (edit field).getD otherwise

mutual

/-- The value with its edited members put in place. -/
def Value.patch (edit : Edit) : Value → Value
  | .arr elems => .arr (elems.patch edit)
  | .obj members => .obj (members.patch edit)
  | v => v

def Elems.patch (edit : Edit) : Elems → Elems
  | .last pre v post => .last pre (v.patch edit) post
  | .more pre v post rest => .more pre (v.patch edit) post (rest.patch edit)

def Members.patch (edit : Edit) : Members → Members
  | .last head v post =>
      .last (edit.at ⟨head, v⟩ ⟨head, v.patch edit⟩).head
        (edit.at ⟨head, v⟩ ⟨head, v.patch edit⟩).value post
  | .more head v post rest =>
      .more (edit.at ⟨head, v⟩ ⟨head, v.patch edit⟩).head
        (edit.at ⟨head, v⟩ ⟨head, v.patch edit⟩).value post (rest.patch edit)

end

def Document.patch (edit : Edit) (doc : Document) : Document :=
  { doc with value := doc.value.patch edit }

/-- What the search reports in one member. -/
def Site.reported (site : Site) (field : Field) : List Text :=
  ((site field).getD []).flatMap Piece.reported

variable {site : Site}

/-- The search does not look for members inside the members it cuts. -/
def Site.Leafy (site : Site) (field : Field) : Prop :=
  (site field).isSome → field.value.fields = []

theorem reported_member {head : KeyHead} {v : Value}
    (hleaf : site.Leafy ⟨head, v⟩)
    (hv : (v.weave site).flatMap Piece.reported =
      v.fields.flatMap site.reported) :
    ((site ⟨head, v⟩).getD (passed head.text ++ v.weave site)).flatMap
        Piece.reported =
      site.reported ⟨head, v⟩ ++ v.fields.flatMap site.reported := by
  cases hsite : site ⟨head, v⟩ with
  | none => simp [Site.reported, hsite, hv]
  | some pieces =>
      have hnone : v.fields = [] := hleaf (by simp [hsite])
      simp [Site.reported, hsite, hnone]

@[simp] theorem reported_skip (c : Char) : (Piece.skip c).reported = [] := rfl

mutual

theorem reported_value : ∀ (v : Value), (∀ field ∈ v.fields, site.Leafy field) →
    (v.weave site).flatMap Piece.reported = v.fields.flatMap site.reported
  | .null, _ => flatMap_reported_passed _
  | .bool b, _ => flatMap_reported_passed (Value.bool b).text
  | .num _, _ => flatMap_reported_passed _
  | .str _, _ => flatMap_reported_passed _
  | .emptyArr _, _ => flatMap_reported_passed _
  | .emptyObj _, _ => flatMap_reported_passed _
  | .arr elems, h => by
      simpa [Value.weave, Value.fields] using reported_elems elems h
  | .obj members, h => by
      simpa [Value.weave, Value.fields] using reported_members members h

theorem reported_elems : ∀ (es : Elems), (∀ field ∈ es.fields, site.Leafy field) →
    (es.weave site).flatMap Piece.reported = es.fields.flatMap site.reported
  | .last pre v post, h => by
      simpa [Elems.weave, Elems.fields] using reported_value v h
  | .more pre v post es, h => by
      have hv := reported_value v fun field hf => h field
        (List.mem_append_left _ hf)
      have hes := reported_elems es fun field hf => h field
        (List.mem_append_right _ hf)
      simp [Elems.weave, Elems.fields, hv, hes]

theorem reported_members : ∀ (ms : Members),
    (∀ field ∈ ms.fields, site.Leafy field) →
      (ms.weave site).flatMap Piece.reported = ms.fields.flatMap site.reported
  | .last head v post, h => by
      have hv := reported_value v fun field hf => h field
        (List.mem_cons_of_mem _ hf)
      have hmember := reported_member (h _ List.mem_cons_self) hv
      simp only [Members.weave, Members.fields, List.flatMap_append,
        flatMap_reported_passed, hmember, List.flatMap_cons, List.nil_append,
        List.append_nil]
  | .more head v post ms, h => by
      have hv := reported_value v fun field hf => h field
        (List.mem_cons_of_mem _ (List.mem_append_left _ hf))
      have hms := reported_members ms fun field hf => h field
        (List.mem_cons_of_mem _ (List.mem_append_right _ hf))
      have hmember := reported_member (h _ List.mem_cons_self) hv
      simp only [Members.weave, Members.fields, List.flatMap_append,
        flatMap_reported_passed, hmember, List.flatMap_cons, List.nil_append,
        reported_skip, hms, List.append_assoc]

end

/-- `grep -o` prints what the sites of the members report, in their order. -/
theorem grepO_document {f : Flavor} {r : Regex} (hplain : r.Plain)
    {doc : Document} (hr : MemberPattern f (r.within notNewline))
    (hcuts : ∀ field ∈ doc.value.fields,
      Cuts f (r.within notNewline) site field)
    (hleaf : ∀ field ∈ doc.value.fields, site.Leafy field) :
    lines (grepO f r doc.text) = doc.value.fields.flatMap site.reported := by
  rw [Regex.lines_grepO_whole hplain, Regex.onlyMatching,
    scan_document hr hcuts, Document.weave]
  simp [reported_value doc.value hleaf]

variable {edit : Edit} {new : Text}

/-- Replacing the matches in this member edits it. -/
def Rewrites (new : Text) (site : Site) (edit : Edit) (field : Field) : Prop :=
  (site field).map (·.flatMap (Piece.replaced new)) =
      (edit field).map Field.text ∧
    ∀ field' ∈ edit field, field'.head.pre = field.head.pre

@[simp] theorem replaced_skip (c : Char) :
    (Piece.skip c).replaced new = [c] := rfl

theorem replaced_member {head : KeyHead} {v : Value}
    (h : Rewrites new site edit ⟨head, v⟩)
    (hv : (v.weave site).flatMap (Piece.replaced new) = (v.patch edit).text) :
    ((site ⟨head, v⟩).getD (passed head.text ++ v.weave site)).flatMap
        (Piece.replaced new) =
      (edit.at ⟨head, v⟩ ⟨head, v.patch edit⟩).text := by
  obtain ⟨htext, -⟩ := h
  cases hsite : site ⟨head, v⟩ with
  | none =>
      have hedit : edit ⟨head, v⟩ = none := by simpa [hsite] using htext.symm
      simp [Edit.at, hedit, Field.text, hv]
  | some pieces =>
      cases hedit : edit ⟨head, v⟩ with
      | none => simp [hsite, hedit] at htext
      | some field' =>
          simp only [hsite, hedit, Option.map_some, Option.some.injEq] at htext
          simpa [Edit.at, hedit] using htext

theorem edit_pre {head : KeyHead} {v : Value}
    (h : Rewrites new site edit ⟨head, v⟩) (w : Value) :
    (edit.at ⟨head, v⟩ ⟨head, w⟩).head.pre = head.pre := by
  cases hedit : edit ⟨head, v⟩ with
  | none => simp [Edit.at, hedit]
  | some field' => simpa [Edit.at, hedit] using h.2 field' (by simp [hedit])

mutual

theorem replaced_value : ∀ (v : Value),
    (∀ field ∈ v.fields, Rewrites new site edit field) →
      (v.weave site).flatMap (Piece.replaced new) = (v.patch edit).text
  | .null, _ => flatMap_replaced_passed _ _
  | .bool b, _ => flatMap_replaced_passed _ (Value.bool b).text
  | .num _, _ => flatMap_replaced_passed _ _
  | .str _, _ => flatMap_replaced_passed _ _
  | .emptyArr _, _ => flatMap_replaced_passed _ _
  | .emptyObj _, _ => flatMap_replaced_passed _ _
  | .arr elems, h => by
      simp [Value.weave, Value.patch, Value.text, replaced_elems elems h]
  | .obj members, h => by
      simp [Value.weave, Value.patch, Value.text, replaced_members members h]

theorem replaced_elems : ∀ (es : Elems),
    (∀ field ∈ es.fields, Rewrites new site edit field) →
      (es.weave site).flatMap (Piece.replaced new) = (es.patch edit).text
  | .last pre v post, h => by
      simp [Elems.weave, Elems.patch, Elems.text, replaced_value v h]
  | .more pre v post es, h => by
      have hv := replaced_value v fun field hf => h field
        (List.mem_append_left _ hf)
      have hes := replaced_elems es fun field hf => h field
        (List.mem_append_right _ hf)
      simp [Elems.weave, Elems.patch, Elems.text, hv, hes]

theorem replaced_members : ∀ (ms : Members),
    (∀ field ∈ ms.fields, Rewrites new site edit field) →
      (ms.weave site).flatMap (Piece.replaced new) = (ms.patch edit).text
  | .last head v post, h => by
      have hfield := h _ List.mem_cons_self
      have hv := replaced_value v fun field hf => h field
        (List.mem_cons_of_mem _ hf)
      simp only [Members.weave, Members.patch, Members.text,
        List.flatMap_append, flatMap_replaced_passed,
        replaced_member hfield hv, edit_pre hfield, Field.text,
        List.append_assoc]
  | .more head v post ms, h => by
      have hfield := h _ List.mem_cons_self
      have hv := replaced_value v fun field hf => h field
        (List.mem_cons_of_mem _ (List.mem_append_left _ hf))
      have hms := replaced_members ms fun field hf => h field
        (List.mem_cons_of_mem _ (List.mem_append_right _ hf))
      simp only [Members.weave, Members.patch, Members.text,
        List.flatMap_append, List.flatMap_cons, flatMap_replaced_passed,
        replaced_skip, replaced_member hfield hv, edit_pre hfield, hms,
        Field.text, List.append_assoc, List.cons_append, List.nil_append]

end

/-- A global replacement replaces the matches in the weave. -/
theorem sed_weave {r : Regex} (hplain : r.Plain) {doc : Document}
    (hr : MemberPattern .posix (r.within notNewline))
    (hcuts : ∀ field ∈ doc.value.fields,
      Cuts .posix (r.within notNewline) site field) :
    sed r new doc.text = (doc.weave site).flatMap (Piece.replaced new) := by
  rw [sed_eq_substitute hplain, Regex.substitute, scan_document hr hcuts]

/-- It turns the text into that of the patched document. -/
theorem sed_document {r : Regex} (hplain : r.Plain) {doc : Document}
    (hr : MemberPattern .posix (r.within notNewline))
    (hcuts : ∀ field ∈ doc.value.fields,
      Cuts .posix (r.within notNewline) site field)
    (hedits : ∀ field ∈ doc.value.fields, Rewrites new site edit field) :
    sed r new doc.text = (doc.patch edit).text := by
  rw [sed_weave hplain hr hcuts, Document.weave]
  simp [replaced_value doc.value hedits, Document.patch, Document.text]

variable {hide : List Text}

/-- Edited members have no members inside, before and after. -/
def Edit.Leafy (edit : Edit) (field : Field) : Prop :=
  ∀ field' ∈ edit field, field.value.fields = [] ∧ field'.value.fields = []

/-- The member as it stands in the patched value. -/
def Edit.apply (edit : Edit) (field : Field) : Field :=
  edit.at field ⟨field.head, field.value.patch edit⟩

theorem fields_apply {head : KeyHead} {v : Value}
    (hleaf : edit.Leafy ⟨head, v⟩)
    (hv : (v.patch edit).fields = v.fields.map edit.apply) :
    (edit.at ⟨head, v⟩ ⟨head, v.patch edit⟩).value.fields =
      v.fields.map edit.apply := by
  cases hedit : edit ⟨head, v⟩ with
  | none => simpa [Edit.at, hedit] using hv
  | some field' =>
      obtain ⟨hbefore, hafter⟩ := hleaf field' (by simp [hedit])
      have hnone : v.fields = [] := hbefore
      simp [Edit.at, hedit, hafter, hnone]

mutual

theorem fields_patch_value : ∀ (v : Value),
    (∀ field ∈ v.fields, edit.Leafy field) →
      (v.patch edit).fields = v.fields.map edit.apply
  | .null, _ => rfl
  | .bool _, _ => rfl
  | .num _, _ => rfl
  | .str _, _ => rfl
  | .emptyArr _, _ => rfl
  | .emptyObj _, _ => rfl
  | .arr elems, h => fields_patch_elems elems h
  | .obj members, h => fields_patch_members members h

theorem fields_patch_elems : ∀ (es : Elems),
    (∀ field ∈ es.fields, edit.Leafy field) →
      (es.patch edit).fields = es.fields.map edit.apply
  | .last pre v post, h => fields_patch_value v h
  | .more pre v post es, h => by
      have hv := fields_patch_value v fun field hf => h field
        (List.mem_append_left _ hf)
      have hes := fields_patch_elems es fun field hf => h field
        (List.mem_append_right _ hf)
      simp [Elems.patch, Elems.fields, hv, hes]

theorem fields_patch_members : ∀ (ms : Members),
    (∀ field ∈ ms.fields, edit.Leafy field) →
      (ms.patch edit).fields = ms.fields.map edit.apply
  | .last head v post, h => by
      have hv := fields_patch_value v fun field hf => h field
        (List.mem_cons_of_mem _ hf)
      have hmember := fields_apply (h _ List.mem_cons_self) hv
      simp only [Members.patch, Members.fields, hmember, List.map_cons]
      rfl
  | .more head v post ms, h => by
      have hv := fields_patch_value v fun field hf => h field
        (List.mem_cons_of_mem _ (List.mem_append_left _ hf))
      have hms := fields_patch_members ms fun field hf => h field
        (List.mem_cons_of_mem _ (List.mem_append_right _ hf))
      have hmember := fields_apply (h _ List.mem_cons_self) hv
      simp only [Members.patch, Members.fields, hmember, hms, List.map_cons,
        List.map_append]
      rfl

end

mutual

/-- Without members there is nothing to edit. -/
theorem patch_of_fields_nil : ∀ (v : Value), v.fields = [] → v.patch edit = v
  | .null, _ => rfl
  | .bool _, _ => rfl
  | .num _, _ => rfl
  | .str _, _ => rfl
  | .emptyArr _, _ => rfl
  | .emptyObj _, _ => rfl
  | .arr elems, h => by rw [Value.patch, patch_elems_of_fields_nil elems h]
  | .obj members, h => by
      cases members <;> simp [Value.fields, Members.fields] at h

theorem patch_elems_of_fields_nil : ∀ (es : Elems), es.fields = [] →
    es.patch edit = es
  | .last pre v post, h => by rw [Elems.patch, patch_of_fields_nil v h]
  | .more pre v post es, h => by
      obtain ⟨hv, hes⟩ := List.append_eq_nil_iff.mp h
      rw [Elems.patch, patch_of_fields_nil v hv,
        patch_elems_of_fields_nil es hes]

end

/-- The members of a patched document. -/
theorem fields_patch {doc : Document}
    (hleaf : ∀ field ∈ doc.value.fields, edit.Leafy field) :
    (doc.patch edit).value.fields = doc.value.fields.map edit.apply :=
  fields_patch_value doc.value hleaf

theorem mem_fieldsNamed {v w : Value} {name : Text} :
    w ∈ v.fieldsNamed name ↔
      ∃ field ∈ v.fields, field.Named name ∧ field.value = w := by
  simp [Value.fieldsNamed, and_assoc]

/-- The value under this key is not looked at. -/
def Hidden (hide : List Text) (field : Field) : Prop :=
  units field.head.key ∈ hide.map textUnits

/-- The edit keeps keys, and no members are lost from sight inside edited or
hidden ones. -/
structure KeepsShape (hide : List Text) (edit : Edit) (field : Field) :
    Prop where
  key : ∀ field' ∈ edit field, units field'.head.key = units field.head.key
  leaf : (edit field).isSome ∨ Hidden hide field → field.value.fields = []

/-- The edit puts no other value in sight. -/
def KeepsValue (hide : List Text) (edit : Edit) (field : Field) : Prop :=
  ∀ field' ∈ edit field,
    Hidden hide field ∨ field'.value.denote hide = field.value.denote hide

/-- The member as the value of its object sees it. -/
def Field.denote (hide : List Text) (field : Field) : List Nat × Json :=
  member hide field.head.key (field.value.denote hide)

theorem denote_member_iff {head : KeyHead} {v : Value}
    (hshape : KeepsShape hide edit ⟨head, v⟩)
    (hv : (v.patch edit).denote hide = v.denote hide ↔
      ∀ field ∈ v.fields, KeepsValue hide edit field) :
    (edit.at ⟨head, v⟩ ⟨head, v.patch edit⟩).denote hide =
        Field.denote hide ⟨head, v⟩ ↔
      KeepsValue hide edit ⟨head, v⟩ ∧
        ∀ field ∈ v.fields, KeepsValue hide edit field := by
  cases hedit : edit ⟨head, v⟩ with
  | none =>
      have hkeep : KeepsValue hide edit ⟨head, v⟩ := by
        simp [KeepsValue, hedit]
      by_cases hhide : Hidden hide ⟨head, v⟩
      · have hnone : v.fields = [] := hshape.leaf (Or.inr hhide)
        have hmem : units head.key ∈ hide.map textUnits := hhide
        simp only [Edit.at, hedit, Option.getD_none, Field.denote, member, hmem,
          ↓reduceIte, hkeep, hnone, List.not_mem_nil, false_implies,
          implies_true, and_self]
      · have hmem : units head.key ∉ hide.map textUnits := hhide
        simp only [Edit.at, hedit, Option.getD_none, Field.denote, member, hmem,
          ↓reduceIte, Prod.mk.injEq, true_and, hkeep, hv]
  | some field' =>
      have hnone : v.fields = [] := hshape.leaf (Or.inl (by simp [hedit]))
      have hkey : units field'.head.key = units head.key :=
        hshape.key field' (by simp [hedit])
      have hkeep : KeepsValue hide edit ⟨head, v⟩ ↔ Hidden hide ⟨head, v⟩ ∨
          field'.value.denote hide = v.denote hide := by
        simp [KeepsValue, hedit]
      rw [hkeep]
      simp only [hnone, List.not_mem_nil, false_implies, implies_true,
        and_true, Edit.at, hedit, Option.getD_some, Field.denote, member, hkey,
        Prod.mk.injEq, true_and]
      by_cases hhide : Hidden hide ⟨head, v⟩
      · have hmem : units head.key ∈ hide.map textUnits := hhide
        simp only [hmem, ↓reduceIte, hhide, true_or]
      · have hmem : units head.key ∉ hide.map textUnits := hhide
        simp only [hmem, ↓reduceIte, hhide, false_or]

mutual

theorem denote_patch_value : ∀ (v : Value),
    (∀ field ∈ v.fields, KeepsShape hide edit field) →
      ((v.patch edit).denote hide = v.denote hide ↔
        ∀ field ∈ v.fields, KeepsValue hide edit field)
  | .null, _ => by simp [Value.patch, Value.fields]
  | .bool _, _ => by simp [Value.patch, Value.fields]
  | .num _, _ => by simp [Value.patch, Value.fields]
  | .str _, _ => by simp [Value.patch, Value.fields]
  | .emptyArr _, _ => by simp [Value.patch, Value.fields]
  | .emptyObj _, _ => by simp [Value.patch, Value.fields]
  | .arr elems, h => by
      simpa [Value.patch, Value.denote, Value.fields] using
        denote_patch_elems elems h
  | .obj members, h => by
      simpa [Value.patch, Value.denote, Value.fields] using
        denote_patch_members members h

theorem denote_patch_elems : ∀ (es : Elems),
    (∀ field ∈ es.fields, KeepsShape hide edit field) →
      ((es.patch edit).denote hide = es.denote hide ↔
        ∀ field ∈ es.fields, KeepsValue hide edit field)
  | .last pre v post, h => by
      simpa [Elems.patch, Elems.denote, Elems.fields] using
        denote_patch_value v h
  | .more pre v post es, h => by
      have hv := denote_patch_value v fun field hf => h field
        (List.mem_append_left _ hf)
      have hes := denote_patch_elems es fun field hf => h field
        (List.mem_append_right _ hf)
      simp only [Elems.patch, Elems.denote, Elems.fields, List.cons.injEq, hv,
        hes, List.forall_mem_append]

theorem denote_patch_members : ∀ (ms : Members),
    (∀ field ∈ ms.fields, KeepsShape hide edit field) →
      ((ms.patch edit).denote hide = ms.denote hide ↔
        ∀ field ∈ ms.fields, KeepsValue hide edit field)
  | .last head v post, h => by
      have hv := denote_patch_value v fun field hf => h field
        (List.mem_cons_of_mem _ hf)
      have hmember := denote_member_iff (h _ List.mem_cons_self) hv
      simp only [Members.patch, Members.denote, Members.fields,
        List.cons.injEq, and_true, List.forall_mem_cons]
      exact hmember
  | .more head v post ms, h => by
      have hv := denote_patch_value v fun field hf => h field
        (List.mem_cons_of_mem _ (List.mem_append_left _ hf))
      have hms := denote_patch_members ms fun field hf => h field
        (List.mem_cons_of_mem _ (List.mem_append_right _ hf))
      have hmember := denote_member_iff (h _ List.mem_cons_self) hv
      simp only [Members.patch, Members.denote, Members.fields,
        List.cons.injEq, hms, List.forall_mem_cons, List.forall_mem_append,
        ← and_assoc]
      exact and_congr_left' hmember

end

/-- A patch changes nothing in sight exactly when none of its edits does. -/
theorem agreeOutside_patch_iff {doc : Document}
    (hshape : ∀ field ∈ doc.value.fields, KeepsShape hide edit field) :
    doc.AgreeOutside hide (doc.patch edit) ↔
      ∀ field ∈ doc.value.fields, KeepsValue hide edit field := by
  rw [← denote_patch_value doc.value hshape, Document.AgreeOutside, eq_comm]
  rfl

end JsonText
