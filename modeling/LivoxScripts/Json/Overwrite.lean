/-
Replacements one after another: a second one under the same name overwrites the
first, and replacements under two names can change places.
-/
import LivoxScripts.Json.KeySearch

namespace JsonText

open TextTools

variable {e₁ e₂ e₃ e₄ : Edit}

/-- Once the two pairs of edits make the same of what is inside a member, they
make the same of the member. -/
def SameOn (e₁ e₂ e₃ e₄ : Edit) (field : Field) : Prop :=
  (field.value.patch e₁).patch e₂ = (field.value.patch e₃).patch e₄ →
    e₂.apply (e₁.apply field) = e₄.apply (e₃.apply field)

mutual

theorem patch_patch_value : ∀ (v : Value),
    (∀ field ∈ v.fields, SameOn e₁ e₂ e₃ e₄ field) →
      (v.patch e₁).patch e₂ = (v.patch e₃).patch e₄
  | .null, _ => rfl
  | .bool _, _ => rfl
  | .num _, _ => rfl
  | .str _, _ => rfl
  | .emptyArr _, _ => rfl
  | .emptyObj _, _ => rfl
  | .arr elems, h => congrArg Value.arr (patch_patch_elems elems h)
  | .obj members, h => congrArg Value.obj (patch_patch_members members h)

theorem patch_patch_elems : ∀ (es : Elems),
    (∀ field ∈ es.fields, SameOn e₁ e₂ e₃ e₄ field) →
      (es.patch e₁).patch e₂ = (es.patch e₃).patch e₄
  | .last pre v post, h => by
      simp only [Elems.patch, patch_patch_value v h]
  | .more pre v post es, h => by
      have hv := patch_patch_value v fun field hf => h field
        (List.mem_append_left _ hf)
      have hes := patch_patch_elems es fun field hf => h field
        (List.mem_append_right _ hf)
      simp only [Elems.patch, hv, hes]

theorem patch_patch_members : ∀ (ms : Members),
    (∀ field ∈ ms.fields, SameOn e₁ e₂ e₃ e₄ field) →
      (ms.patch e₁).patch e₂ = (ms.patch e₃).patch e₄
  | .last head v post, h => by
      have hv := patch_patch_value v fun field hf => h field
        (List.mem_cons_of_mem _ hf)
      have hmember := h ⟨head, v⟩ List.mem_cons_self hv
      change Members.last (e₂.apply (e₁.apply ⟨head, v⟩)).head
          (e₂.apply (e₁.apply ⟨head, v⟩)).value post =
        Members.last (e₄.apply (e₃.apply ⟨head, v⟩)).head
          (e₄.apply (e₃.apply ⟨head, v⟩)).value post
      rw [hmember]
  | .more head v post ms, h => by
      have hv := patch_patch_value v fun field hf => h field
        (List.mem_cons_of_mem _ (List.mem_append_left _ hf))
      have hms := patch_patch_members ms fun field hf => h field
        (List.mem_cons_of_mem _ (List.mem_append_right _ hf))
      have hmember := h ⟨head, v⟩ List.mem_cons_self hv
      change Members.more (e₂.apply (e₁.apply ⟨head, v⟩)).head
          (e₂.apply (e₁.apply ⟨head, v⟩)).value post
          ((ms.patch e₁).patch e₂) =
        Members.more (e₄.apply (e₃.apply ⟨head, v⟩)).head
          (e₄.apply (e₃.apply ⟨head, v⟩)).value post
          ((ms.patch e₃).patch e₄)
      rw [hmember, hms]

end

mutual

theorem patch_of_none_value {edit : Edit} : ∀ (v : Value),
    (∀ field ∈ v.fields, edit field = none) → v.patch edit = v
  | .null, _ => rfl
  | .bool _, _ => rfl
  | .num _, _ => rfl
  | .str _, _ => rfl
  | .emptyArr _, _ => rfl
  | .emptyObj _, _ => rfl
  | .arr elems, h => congrArg Value.arr (patch_of_none_elems elems h)
  | .obj members, h => congrArg Value.obj (patch_of_none_members members h)

theorem patch_of_none_elems {edit : Edit} : ∀ (es : Elems),
    (∀ field ∈ es.fields, edit field = none) → es.patch edit = es
  | .last pre v post, h => by
      simp only [Elems.patch, patch_of_none_value v h]
  | .more pre v post es, h => by
      have hv := patch_of_none_value v fun field hf => h field
        (List.mem_append_left _ hf)
      have hes := patch_of_none_elems es fun field hf => h field
        (List.mem_append_right _ hf)
      simp only [Elems.patch, hv, hes]

theorem patch_of_none_members {edit : Edit} : ∀ (ms : Members),
    (∀ field ∈ ms.fields, edit field = none) → ms.patch edit = ms
  | .last head v post, h => by
      have hv := patch_of_none_value v fun field hf => h field
        (List.mem_cons_of_mem _ hf)
      simp only [Members.patch, Edit.at, h ⟨head, v⟩ List.mem_cons_self,
        Option.getD_none, hv]
  | .more head v post ms, h => by
      have hv := patch_of_none_value v fun field hf => h field
        (List.mem_cons_of_mem _ (List.mem_append_left _ hf))
      have hms := patch_of_none_members ms fun field hf => h field
        (List.mem_cons_of_mem _ (List.mem_append_right _ hf))
      simp only [Members.patch, Edit.at, h ⟨head, v⟩ List.mem_cons_self,
        Option.getD_none, hv, hms]

end

theorem patch_none_value (v : Value) : v.patch (fun _ => none) = v :=
  patch_of_none_value v fun _ _ => rfl

/-- No edit removes the members inside a value. -/
theorem fields_eq_nil_of_patch {edit : Edit} : ∀ (v : Value),
    (v.patch edit).fields = [] → v.fields = []
  | .null, _ => rfl
  | .bool _, _ => rfl
  | .num _, _ => rfl
  | .str _, _ => rfl
  | .emptyArr _, _ => rfl
  | .emptyObj _, _ => rfl
  | .arr elems, h => fields_eq_nil_of_patch_elems elems h
  | .obj (.last _ _ _), h => absurd h (by simp [Value.patch, Members.patch,
      Value.fields, Members.fields])
  | .obj (.more _ _ _ _), h => absurd h (by simp [Value.patch, Members.patch,
      Value.fields, Members.fields])
where
  fields_eq_nil_of_patch_elems : ∀ (es : Elems),
      (es.patch edit).fields = [] → es.fields = []
    | .last _ v _, h => fields_eq_nil_of_patch v h
    | .more _ v _ es, h => by
        obtain ⟨hv, hes⟩ := List.append_eq_nil_iff.mp h
        exact List.append_eq_nil_iff.mpr
          ⟨fields_eq_nil_of_patch v hv, fields_eq_nil_of_patch_elems es hes⟩

variable {name name' : Text} {take take' : Value → Option Take} {v w : Value}

theorem apply_of_taken {field : Field} (h : Taken name take field) :
    (replaceAt name take v).apply field = field.withValue v := by
  rw [apply_replaceAt, if_pos h]

theorem apply_of_not_taken {field : Field} (h : ¬ Taken name take field) :
    (replaceAt name take v).apply field =
      ⟨field.head, field.value.patch (replaceAt name take v)⟩ := by
  rw [apply_replaceAt, if_neg h]

/-- Only values without members inside are taken. -/
def TakesLeaves (take : Value → Option Take) : Prop :=
  ∀ v, (take v).isSome → v.fields = []

/-- Edits inside a value do not change whether it is taken. -/
theorem taken_patch_iff (htake : TakesLeaves take) (edit : Edit)
    (head : KeyHead) (u : Value) :
    Taken name take ⟨head, u.patch edit⟩ ↔ Taken name take ⟨head, u⟩ := by
  by_cases hnone : u.fields = []
  · rw [patch_of_fields_nil u hnone]
  · have hold : ¬ (take u).isSome := fun h => hnone (htake u h)
    have hnew : ¬ (take (u.patch edit)).isSome := fun h =>
      hnone (fields_eq_nil_of_patch u (htake _ h))
    exact iff_of_false (fun h => hnew h.2.2) (fun h => hold h.2.2)

theorem sameOn_overwrite (htake : TakesLeaves take) (hw : (take w).isSome)
    (field : Field) :
    SameOn (replaceAt name take w) (replaceAt name take v) (fun _ => none)
      (replaceAt name take v) field := by
  intro hinside
  obtain ⟨head, u⟩ := field
  have hnone : Edit.apply (fun _ => none) ⟨head, u⟩ = ⟨head, u⟩ := by
    simp [Edit.apply, Edit.at, patch_none_value]
  rw [patch_none_value] at hinside
  rw [hnone]
  by_cases htaken : Taken name take ⟨head, u⟩
  · have hagain : Taken name take (Field.withValue w ⟨head, u⟩) :=
      ⟨htaken.1, by simp [Field.withValue, KeyHead.OneLine], hw⟩
    rw [apply_of_taken htaken, apply_of_taken hagain, apply_of_taken htaken]
    rfl
  · have hagain := (taken_patch_iff htake (replaceAt name take w) head u).not.mpr
      htaken
    rw [apply_of_not_taken htaken, apply_of_not_taken hagain,
      apply_of_not_taken htaken, hinside]

/-- A key as it is written shows one name only. -/
theorem showsKey_unique (hname : IsName name) (hname' : IsName name')
    {key : JString} (h : ShowsKey name key) (h' : ShowsKey name' key) :
    name = name' := by
  have hquote : ∀ n, IsName n → '"' ∉ n := fun n hn hmem =>
    absurd (isNameChar_of_mem hn hmem) (by decide)
  have hone : ∀ n n', IsName n' → '"' :: n <:+ '"' :: n' → n = n' := by
    intro n n' hn' hsuffix
    rcases List.suffix_cons_iff.mp hsuffix with heq | hin
    · exact (List.cons.inj heq).2
    · exact absurd (hin.subset List.mem_cons_self) (hquote n' hn')
  rcases List.suffix_or_suffix_of_suffix h h' with hsuffix | hsuffix
  · exact hone name name' hname' hsuffix
  · exact (hone name' name hname hsuffix).symm

theorem sameOn_comm (hname : IsName name) (hname' : IsName name')
    (hne : name ≠ name') (htake : TakesLeaves take)
    (htake' : TakesLeaves take') (hv : v.fields = []) (hw : w.fields = [])
    (field : Field) :
    SameOn (replaceAt name take v) (replaceAt name' take' w)
      (replaceAt name' take' w) (replaceAt name take v) field := by
  intro hinside
  obtain ⟨head, u⟩ := field
  by_cases htaken : Taken name take ⟨head, u⟩
  · have hother : ∀ field : Field, field.head.key = head.key →
        ¬ Taken name' take' field := by
      intro field hkey h
      have hshow : ShowsKey name' head.key := hkey ▸ h.1
      exact hne (showsKey_unique hname hname' htaken.1 hshow)
    have hstill := (taken_patch_iff htake (replaceAt name' take' w) head u).mpr
      htaken
    rw [apply_of_taken htaken,
      apply_of_not_taken (hother (Field.withValue v ⟨head, u⟩) rfl),
      apply_of_not_taken (hother ⟨head, u⟩ rfl), apply_of_taken hstill]
    simp [Field.withValue, patch_of_fields_nil v hv]
  · have hstill := (taken_patch_iff htake (replaceAt name' take' w) head u).not.mpr
      htaken
    by_cases htaken' : Taken name' take' ⟨head, u⟩
    · have hother : ∀ field : Field, field.head.key = head.key →
          ¬ Taken name take field := by
        intro field hkey h
        have hshow : ShowsKey name head.key := hkey ▸ h.1
        exact hne (showsKey_unique hname hname' hshow htaken'.1)
      have hstill' :=
        (taken_patch_iff htake' (replaceAt name take v) head u).mpr htaken'
      rw [apply_of_not_taken htaken, apply_of_taken hstill',
        apply_of_taken htaken',
        apply_of_not_taken (hother (Field.withValue w ⟨head, u⟩) rfl)]
      simp [Field.withValue, patch_of_fields_nil w hw]
    · have hstill' :=
        (taken_patch_iff htake' (replaceAt name take v) head u).not.mpr htaken'
      rw [apply_of_not_taken htaken, apply_of_not_taken hstill',
        apply_of_not_taken htaken', apply_of_not_taken hstill, hinside]

/-- The last replacement under a name counts. -/
theorem patch_replaceAt_overwrite (htake : TakesLeaves take)
    (hw : (take w).isSome) (v : Value) (doc : Document) :
    (doc.patch (replaceAt name take w)).patch (replaceAt name take v) =
      doc.patch (replaceAt name take v) := by
  have hvalue : (doc.value.patch (replaceAt name take w)).patch
      (replaceAt name take v) = doc.value.patch (replaceAt name take v) := by
    have hsame : ∀ field ∈ doc.value.fields,
        SameOn (replaceAt name take w) (replaceAt name take v) (fun _ => none)
          (replaceAt name take v) field := fun field _ =>
      sameOn_overwrite htake hw field
    have h := patch_patch_value doc.value hsame
    rwa [patch_none_value] at h
  simp [Document.patch, hvalue]

/-- Replacements under two names can change places. -/
theorem patch_replaceAt_comm (hname : IsName name) (hname' : IsName name')
    (hne : name ≠ name') (htake : TakesLeaves take)
    (htake' : TakesLeaves take') (hv : v.fields = []) (hw : w.fields = [])
    (doc : Document) :
    (doc.patch (replaceAt name take v)).patch (replaceAt name' take' w) =
      (doc.patch (replaceAt name' take' w)).patch (replaceAt name take v) := by
  have hvalue := patch_patch_value doc.value fun field _ =>
    sameOn_comm hname hname' hne htake htake' hv hw field
  simp [Document.patch, hvalue]

end JsonText
