/-
Search lists with layers.  A layer is taken out of a list key by key, each key
removing the first element it hits, and a new layer is put on top without the
elements that are there already.
-/
import Mathlib.Data.List.Nodup
import Mathlib.Data.List.Infix

namespace Store

universe u v

variable {A : Type u} {K : Type v}

/-- Each key removes the first element it hits. -/
def takeOut (hit : K → A → Bool) (keys : List K) (l : List A) : List A :=
  keys.foldl (fun rest key => rest.eraseP (hit key)) l

/-- The elements that are not in the list yet, each of them once. -/
def newOnes [DecidableEq A] (l : List A) (candidates : List A) : List A :=
  candidates.foldl
    (fun added x => if x ∉ l ∧ x ∉ added then added ++ [x] else added) []

variable {hit : K → A → Bool} {keys : List K} {l : List A}

theorem takeOut_cons (key : K) (keys : List K) (l : List A) :
    takeOut hit (key :: keys) l = takeOut hit keys (l.eraseP (hit key)) := rfl

theorem takeOut_sublist (keys : List K) (l : List A) :
    (takeOut hit keys l).Sublist l := by
  induction keys generalizing l with
  | nil => exact List.Sublist.refl l
  | cons key keys ih =>
      exact (ih _).trans List.eraseP_sublist

/-- A removal shows nowhere among elements that are not hit. -/
theorem filter_eraseP {p hit : A → Bool}
    (h : ∀ x ∈ l, p x = true → hit x = false) :
    (l.eraseP hit).filter p = l.filter p := by
  induction l with
  | nil => rfl
  | cons x xs ih =>
      have hxs := ih fun y hy => h y (List.mem_cons_of_mem x hy)
      by_cases hhit : hit x = true
      · have hx : ¬ p x = true := fun hp => by
          simp [h x List.mem_cons_self hp] at hhit
        rw [List.eraseP_cons_of_pos hhit, List.filter_cons_of_neg hx]
      · rw [List.eraseP_cons_of_neg hhit, List.filter_cons, List.filter_cons,
          hxs]

/-- Layers and elements of other origin, mixed up in one list: if each element
of a layer is hit, and is the only one its key hits, taking out leaves the
others in their order. -/
theorem takeOut_eq_filter {p : A → Bool}
    (hother : ∀ key ∈ keys, ∀ x ∈ l, p x = true → hit key x = false)
    (hlayer : ∀ x ∈ l, p x = false → ∃ key ∈ keys, hit key x = true)
    (hone : ∀ key ∈ keys, ∀ x ∈ l, ∀ y ∈ l,
      hit key x = true → hit key y = true → x = y)
    (hnodup : (l.filter (!p ·)).Nodup) :
    takeOut hit keys l = l.filter p := by
  induction keys generalizing l with
  | nil =>
      have hall : ∀ x ∈ l, p x = true := by
        intro x hx
        by_contra hp
        obtain ⟨key, hkey, -⟩ := hlayer x hx (by simpa using hp)
        exact absurd hkey List.not_mem_nil
      exact (List.filter_eq_self.mpr hall).symm
  | cons key keys ih =>
      have hsub : (l.eraseP (hit key)).Sublist l := List.eraseP_sublist
      rw [takeOut_cons, ← filter_eraseP (hother key List.mem_cons_self)]
      refine ih ?_ ?_ ?_ (hnodup.sublist (hsub.filter _))
      · intro k hk x hx
        exact hother k (List.mem_cons_of_mem key hk) x (hsub.subset hx)
      · intro x hx hp
        obtain ⟨k, hk, hhit⟩ := hlayer x (hsub.subset hx) hp
        rcases List.mem_cons.mp hk with rfl | hk
        · -- The key has taken out the one element that it hits.
          obtain ⟨y, before, after, -, hy, hsplit, herase⟩ :=
            List.exists_of_eraseP (hsub.subset hx) hhit
          have hmem : y ∈ l := by simp [hsplit]
          obtain rfl := hone k List.mem_cons_self x (hsub.subset hx) y hmem
            hhit hy
          have hagain : x ∈ (before ++ after).filter (!p ·) := by
            rw [← herase]
            exact List.mem_filter.mpr ⟨hx, by simp [hp]⟩
          rw [hsplit, List.filter_append, List.filter_cons_of_pos (by simp [hp]),
            List.nodup_middle, ← List.filter_append] at hnodup
          exact absurd hagain (List.nodup_cons.mp hnodup).1
        · exact ⟨k, hk, hhit⟩
      · intro k hk x hx y hy
        exact hone k (List.mem_cons_of_mem key hk) x (hsub.subset hx) y
          (hsub.subset hy)

variable [DecidableEq A] {l' : List A}

/-- What is added from a list of candidates when some are added already. -/
theorem foldl_newOnes (l candidates added : List A) :
    ∃ more, candidates.foldl
        (fun added x => if x ∉ l ∧ x ∉ added then added ++ [x] else added)
        added = added ++ more ∧
      (∀ x, x ∈ more ↔ x ∈ candidates ∧ x ∉ l ∧ x ∉ added) ∧
      more.Nodup := by
  induction candidates generalizing added with
  | nil => exact ⟨[], by simp⟩
  | cons x xs ih =>
      rw [List.foldl_cons]
      by_cases hx : x ∉ l ∧ x ∉ added
      · obtain ⟨more, hfold, hmem, hnodup⟩ := ih (added ++ [x])
        rw [if_pos hx]
        refine ⟨x :: more, by simp [hfold], fun y => ?_, ?_⟩
        · rw [List.mem_cons, List.mem_cons, hmem y]
          by_cases hyx : y = x
          · simp [hyx, hx]
          · simp [hyx]
        · exact List.nodup_cons.mpr ⟨fun h => by simp [hmem x] at h, hnodup⟩
      · obtain ⟨more, hfold, hmem, hnodup⟩ := ih added
        rw [if_neg hx]
        refine ⟨more, hfold, fun y => ?_, hnodup⟩
        rw [hmem y, List.mem_cons]
        by_cases hyx : y = x
        · subst hyx
          simp [hx]
        · simp [hyx]

theorem mem_newOnes {candidates : List A} {x : A} :
    x ∈ newOnes l candidates ↔ x ∈ candidates ∧ x ∉ l := by
  obtain ⟨more, hfold, hmem, -⟩ := foldl_newOnes l candidates []
  rw [newOnes, hfold, List.nil_append, hmem x]
  simp

theorem nodup_newOnes (l candidates : List A) : (newOnes l candidates).Nodup := by
  obtain ⟨more, hfold, -, hnodup⟩ := foldl_newOnes l candidates []
  rw [newOnes, hfold, List.nil_append]
  exact hnodup

/-- Only the candidates that are there make a difference. -/
theorem newOnes_congr {candidates : List A}
    (h : ∀ x ∈ candidates, x ∈ l ↔ x ∈ l') :
    newOnes l candidates = newOnes l' candidates := by
  apply List.foldl_ext
  intro added x hx
  simp only [h x hx]

end Store
