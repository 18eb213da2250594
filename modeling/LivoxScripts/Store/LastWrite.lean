/-
Writes under keys.  If a second write under a key hides the first and writes
under different keys can change places, a run of writes is worth its last write
under each key.
-/
import Mathlib.Data.List.Nodup
import Mathlib.Data.List.Perm.Basic

namespace Store

universe u v w

variable {W : Type u} {K : Type v} {D : Type w} {key : W → K}
  {write : D → W → D}

/-- The last write under a key counts, and only it. -/
structure LastWriteWins (key : W → K) (write : D → W → D) : Prop where
  overwrite : ∀ d x y, key x = key y → write (write d x) y = write d y
  comm : ∀ d x y, key x ≠ key y → write (write d x) y = write (write d y) x

namespace LastWriteWins

variable (h : LastWriteWins key write)
include h

/-- A write that is hidden later makes no difference. -/
theorem foldl_hidden {xs : List W} {x : W} (hx : ∃ y ∈ xs, key y = key x)
    (d : D) : xs.foldl write (write d x) = xs.foldl write d := by
  induction xs generalizing d with
  | nil => simp at hx
  | cons y ys ih =>
      by_cases hkey : key x = key y
      · rw [List.foldl_cons, h.overwrite d x y hkey, List.foldl_cons]
      · have hys : ∃ z ∈ ys, key z = key x := by
          obtain ⟨z, hz, hzkey⟩ := hx
          rcases List.mem_cons.mp hz with rfl | hz
          · exact absurd hzkey.symm hkey
          · exact ⟨z, hz, hzkey⟩
        rw [List.foldl_cons, h.comm d x y hkey, ih hys, List.foldl_cons]

end LastWriteWins

variable [DecidableEq K]

/-- The last write under a key. -/
def lastWrite (key : W → K) : List W → K → Option W
  | [], _ => none
  | x :: xs, k =>
      (lastWrite key xs k).orElse fun _ => if key x = k then some x else none

/-- Leaving out writes under other keys changes no last write. -/
theorem lastWrite_filter {p : W → Bool} {k : K}
    (hp : ∀ x, key x = k → p x = true) (xs : List W) :
    lastWrite key (xs.filter p) k = lastWrite key xs k := by
  induction xs with
  | nil => rfl
  | cons x xs ih =>
      by_cases hx : p x = true
      · rw [List.filter_cons_of_pos hx, lastWrite, lastWrite, ih]
      · have hkey : key x ≠ k := fun h => hx (hp x h)
        rw [List.filter_cons_of_neg hx, lastWrite, ih, if_neg hkey]
        cases lastWrite key xs k <;> rfl

/-- The writes that no later one hides. -/
def visible (key : W → K) : List W → List W
  | [] => []
  | x :: xs =>
      if (lastWrite key xs (key x)).isSome then visible key xs
      else x :: visible key xs

theorem lastWrite_isSome_iff {xs : List W} {k : K} :
    (lastWrite key xs k).isSome ↔ ∃ x ∈ xs, key x = k := by
  induction xs with
  | nil => simp [lastWrite]
  | cons x xs ih =>
      rw [lastWrite]
      cases hlast : lastWrite key xs k with
      | some y =>
          obtain ⟨z, hz, hkey⟩ := ih.mp (by rw [hlast]; rfl)
          exact iff_of_true rfl ⟨z, List.mem_cons_of_mem x hz, hkey⟩
      | none =>
          have hnone : ¬ ∃ z ∈ xs, key z = k := fun h => by
            simpa [hlast] using ih.mpr h
          by_cases hkey : key x = k
          · exact iff_of_true (by simp [hkey])
              ⟨x, List.mem_cons_self, hkey⟩
          · refine iff_of_false (by simp [hkey]) ?_
            rintro ⟨z, hz, hzkey⟩
            rcases List.mem_cons.mp hz with rfl | hz
            · exact hkey hzkey
            · exact hnone ⟨z, hz, hzkey⟩

theorem key_of_lastWrite {xs : List W} {k : K} {x : W}
    (h : lastWrite key xs k = some x) : key x = k := by
  induction xs with
  | nil => simp [lastWrite] at h
  | cons y ys ih =>
      rw [lastWrite] at h
      cases hlast : lastWrite key ys k with
      | some z =>
          rw [hlast] at h
          exact ih (hlast.trans h)
      | none =>
          rw [hlast] at h
          by_cases hkey : key y = k
          · obtain rfl : y = x := by simpa [hkey] using h
            exact hkey
          · simp [hkey] at h

theorem mem_visible_iff {xs : List W} {x : W} :
    x ∈ visible key xs ↔ lastWrite key xs (key x) = some x := by
  induction xs with
  | nil => simp [visible, lastWrite]
  | cons y ys ih =>
      rw [visible, lastWrite]
      cases hlater : lastWrite key ys (key y) with
      | some z =>
          rw [Option.isSome_some, if_pos rfl, ih]
          cases hlast : lastWrite key ys (key x) with
          | some _ => rfl
          | none =>
              have hkey : key y ≠ key x := fun h => by
                rw [h, hlast] at hlater
                cases hlater
              simp [hkey]
      | none =>
          rw [if_neg (by simp), List.mem_cons, ih]
          cases hlast : lastWrite key ys (key x) with
          | some z =>
              have hne : x ≠ y := by
                rintro rfl
                rw [hlast] at hlater
                cases hlater
              simp [hne]
          | none =>
              by_cases hkey : key y = key x
              · simp [hkey, eq_comm]
              · have hne : x ≠ y := fun h => hkey (h ▸ rfl)
                simp [hkey, hne]

/-- The visible writes have different keys. -/
theorem nodup_keys_visible (xs : List W) :
    ((visible key xs).map key).Nodup := by
  induction xs with
  | nil => exact List.nodup_nil
  | cons x xs ih =>
      rw [visible]
      split
      · exact ih
      · next hnone =>
          rw [List.map_cons, List.nodup_cons]
          refine ⟨fun hmem => hnone ?_, ih⟩
          obtain ⟨y, hy, hkey⟩ := List.mem_map.mp hmem
          rw [← hkey, mem_visible_iff.mp hy]
          rfl

theorem visible_sublist (xs : List W) : (visible key xs).Sublist xs := by
  induction xs with
  | nil => exact List.Sublist.refl _
  | cons x xs ih =>
      rw [visible]
      split
      · exact ih.cons x
      · exact ih.cons_cons x

theorem lastWrite_append (xs ys : List W) (k : K) :
    lastWrite key (xs ++ ys) k = (lastWrite key ys k).or (lastWrite key xs k) := by
  induction xs with
  | nil => simp [lastWrite]
  | cons x xs ih =>
      rw [List.cons_append, lastWrite, lastWrite, ih]
      cases lastWrite key ys k <;> rfl

/-- One more write hides the ones under its key. -/
theorem visible_concat (xs : List W) (x : W) :
    visible key (xs ++ [x]) =
      (visible key xs).filter (fun y => key y ≠ key x) ++ [x] := by
  induction xs with
  | nil => rfl
  | cons y ys ih =>
      have hlater : (lastWrite key (ys ++ [x]) (key y)).isSome ↔
          (lastWrite key ys (key y)).isSome ∨ key x = key y := by
        simp [lastWrite_isSome_iff, or_and_right, exists_or]
      rw [List.cons_append, visible, visible, ih]
      by_cases hkey : key y = key x
      · rw [if_pos (hlater.mpr (Or.inr hkey.symm))]
        split
        · rfl
        · rw [List.filter_cons_of_neg (by simp [hkey])]
      · by_cases hys : (lastWrite key ys (key y)).isSome
        · rw [if_pos (hlater.mpr (Or.inl hys)), if_pos hys]
        · rw [if_neg fun h => (hlater.mp h).elim hys (Ne.symm hkey), if_neg hys,
            List.filter_cons_of_pos (by simpa using hkey), List.cons_append]

namespace LastWriteWins

variable (h : LastWriteWins key write)
include h

theorem foldl_visible (xs : List W) (d : D) :
    (visible key xs).foldl write d = xs.foldl write d := by
  induction xs generalizing d with
  | nil => rfl
  | cons x xs ih =>
      rw [visible]
      split
      · next hlater =>
          rw [ih, List.foldl_cons,
            h.foldl_hidden (lastWrite_isSome_iff.mp hlater)]
      · rw [List.foldl_cons, ih, List.foldl_cons]

/-- Runs that end with the same last write under each key end alike. -/
theorem foldl_eq_of_lastWrite {xs ys : List W}
    (hlast : ∀ k, lastWrite key xs k = lastWrite key ys k) (d : D) :
    xs.foldl write d = ys.foldl write d := by
  have hperm : (visible key xs).Perm (visible key ys) := by
    rw [List.perm_ext_iff_of_nodup (List.Nodup.of_map _ (nodup_keys_visible xs))
      (List.Nodup.of_map _ (nodup_keys_visible ys))]
    intro x
    rw [mem_visible_iff, mem_visible_iff, hlast]
  rw [← h.foldl_visible xs, ← h.foldl_visible ys]
  refine hperm.foldl_eq' (fun x hx y hy z => ?_) d
  by_cases hkey : key x = key y
  · rw [List.inj_on_of_nodup_map (nodup_keys_visible xs) hx hy hkey]
  · exact h.comm z x y hkey

end LastWriteWins

end Store
