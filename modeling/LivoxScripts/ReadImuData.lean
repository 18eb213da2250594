/-
`ws_livox/read_imu_data.py`: the Euler angles `callback_imu` computes from the
orientation quaternion of an IMU message, over exact real arithmetic, and the
rotation they stand for.
-/
import Mathlib.Algebra.Quaternion
import Mathlib.Analysis.SpecialFunctions.Complex.Arg
import Mathlib.Analysis.SpecialFunctions.Trigonometric.Inverse
import Mathlib.LinearAlgebra.Matrix.Notation
import Mathlib.Tactic.LinearCombination

namespace LivoxScripts

namespace ReadImuData

/-- `math.atan2` on the reals; `Complex.arg` sends the origin to zero. -/
noncomputable def atan2 (y x : ℝ) : ℝ := Complex.arg ⟨x, y⟩

/-- `math.copysign` on the reals. -/
noncomputable def copysign (a sign : ℝ) : ℝ := if sign < 0 then -|a| else |a|

/-- The `orientation` field of a `sensor_msgs/Imu` message. -/
structure Orientation where
  x : ℝ
  y : ℝ
  z : ℝ
  w : ℝ

namespace Orientation

variable (quat : Orientation)

def IsUnit : Prop :=
  quat.x ^ 2 + quat.y ^ 2 + quat.z ^ 2 + quat.w ^ 2 = 1

noncomputable def sinr_cosp : ℝ := 2 * (quat.w * quat.x + quat.y * quat.z)

noncomputable def cosr_cosp : ℝ := 1 - 2 * (quat.x * quat.x + quat.y * quat.y)

noncomputable def roll : ℝ := atan2 quat.sinr_cosp quat.cosr_cosp

noncomputable def sinp : ℝ := 2 * (quat.w * quat.y - quat.z * quat.x)

noncomputable def pitch : ℝ :=
  if |quat.sinp| ≥ 1 then copysign (Real.pi / 2) quat.sinp
  else Real.arcsin quat.sinp

noncomputable def siny_cosp : ℝ := 2 * (quat.w * quat.z + quat.x * quat.y)

noncomputable def cosy_cosp : ℝ := 1 - 2 * (quat.y * quat.y + quat.z * quat.z)

noncomputable def yaw : ℝ := atan2 quat.siny_cosp quat.cosy_cosp

end Orientation

/-- Rotation about the X axis. -/
noncomputable def Rx (angle : ℝ) : Matrix (Fin 3) (Fin 3) ℝ :=
  !![1, 0, 0;
     0, Real.cos angle, -Real.sin angle;
     0, Real.sin angle, Real.cos angle]

/-- Rotation about the Y axis. -/
noncomputable def Ry (angle : ℝ) : Matrix (Fin 3) (Fin 3) ℝ :=
  !![Real.cos angle, 0, Real.sin angle;
     0, 1, 0;
     -Real.sin angle, 0, Real.cos angle]

/-- Rotation about the Z axis. -/
noncomputable def Rz (angle : ℝ) : Matrix (Fin 3) (Fin 3) ℝ :=
  !![Real.cos angle, -Real.sin angle, 0;
     Real.sin angle, Real.cos angle, 0;
     0, 0, 1]

/-- The rotation matrix of a unit quaternion. -/
def rotation (quat : Orientation) : Matrix (Fin 3) (Fin 3) ℝ :=
  let ⟨x, y, z, w⟩ := quat
  !![1 - 2 * (y * y + z * z), 2 * (x * y - w * z), 2 * (x * z + w * y);
     2 * (x * y + w * z), 1 - 2 * (x * x + z * z), 2 * (y * z - w * x);
     2 * (x * z - w * y), 2 * (y * z + w * x), 1 - 2 * (x * x + y * y)]

/-- The orientation as a quaternion of Mathlib. -/
def Orientation.toQuaternion (quat : Orientation) : Quaternion ℝ :=
  ⟨quat.w, quat.x, quat.y, quat.z⟩

/-- A vector as a quaternion without real part. -/
def vectorPart (v : Fin 3 → ℝ) : Quaternion ℝ := ⟨0, v 0, v 1, v 2⟩

section Components

variable (quat : Orientation) (v : Fin 3 → ℝ)

@[simp] theorem toQuaternion_re : quat.toQuaternion.re = quat.w := rfl
@[simp] theorem toQuaternion_imI : quat.toQuaternion.imI = quat.x := rfl
@[simp] theorem toQuaternion_imJ : quat.toQuaternion.imJ = quat.y := rfl
@[simp] theorem toQuaternion_imK : quat.toQuaternion.imK = quat.z := rfl
@[simp] theorem vectorPart_re : (vectorPart v).re = 0 := rfl
@[simp] theorem vectorPart_imI : (vectorPart v).imI = v 0 := rfl
@[simp] theorem vectorPart_imJ : (vectorPart v).imJ = v 1 := rfl
@[simp] theorem vectorPart_imK : (vectorPart v).imK = v 2 := rfl

end Components

/-- The matrix is the action of the quaternion on vectors by conjugation. -/
theorem rotation_mulVec {quat : Orientation} (h : quat.IsUnit)
    (v : Fin 3 → ℝ) :
    quat.toQuaternion * vectorPart v * star quat.toQuaternion =
      vectorPart ((rotation quat).mulVec v) := by
  simp only [Orientation.IsUnit] at h
  ext <;> simp [rotation, dotProduct, Fin.sum_univ_three]
  · ring
  · linear_combination v 0 * h
  · linear_combination v 1 * h
  · linear_combination v 2 * h

/-- What the script prints, as one rotation. -/
noncomputable def eulerRotation (quat : Orientation) :
    Matrix (Fin 3) (Fin 3) ℝ :=
  Rz quat.yaw * Ry quat.pitch * Rx quat.roll

theorem cos_atan2 {y x r : ℝ} (hr : 0 < r) (h : x ^ 2 + y ^ 2 = r ^ 2) :
    Real.cos (atan2 y x) = x / r := by
  have hnorm : ‖(⟨x, y⟩ : ℂ)‖ = r := by
    rw [Complex.norm_def, Complex.normSq_mk, ← sq, ← sq, h, Real.sqrt_sq hr.le]
  have hne : (⟨x, y⟩ : ℂ) ≠ 0 := by
    rw [← norm_ne_zero_iff, hnorm]
    exact hr.ne'
  rw [atan2, Complex.cos_arg hne, hnorm]

theorem sin_atan2 {y x r : ℝ} (hr : 0 < r) (h : x ^ 2 + y ^ 2 = r ^ 2) :
    Real.sin (atan2 y x) = y / r := by
  have hnorm : ‖(⟨x, y⟩ : ℂ)‖ = r := by
    rw [Complex.norm_def, Complex.normSq_mk, ← sq, ← sq, h, Real.sqrt_sq hr.le]
  rw [atan2, Complex.sin_arg, hnorm]

theorem atan2_zero_zero : atan2 0 0 = 0 := Complex.arg_zero

theorem eulerRotation_eq (quat : Orientation) :
    eulerRotation quat =
      let cy := Real.cos quat.yaw
      let sy := Real.sin quat.yaw
      let cp := Real.cos quat.pitch
      let sp := Real.sin quat.pitch
      let cr := Real.cos quat.roll
      let sr := Real.sin quat.roll
      !![cy * cp, cy * sp * sr - sy * cr, cy * sp * cr + sy * sr;
         sy * cp, sy * sp * sr + cy * cr, sy * sp * cr - cy * sr;
         -sp, cp * sr, cp * cr] := by
  ext i j
  fin_cases i <;> fin_cases j <;>
    simp [eulerRotation, Rz, Ry, Rx, Matrix.mul_apply, Fin.sum_univ_three] <;>
    ring

variable {quat : Orientation}

theorem roll_hypotenuse (h : quat.IsUnit) :
    quat.cosr_cosp ^ 2 + quat.sinr_cosp ^ 2 = 1 - quat.sinp ^ 2 := by
  obtain ⟨x, y, z, w⟩ := quat
  simp only [Orientation.IsUnit] at h
  simp only [Orientation.cosr_cosp, Orientation.sinr_cosp, Orientation.sinp]
  have hw : w ^ 2 = 1 - x ^ 2 - y ^ 2 - z ^ 2 := by linear_combination h
  linear_combination (4 * x ^ 2 + 4 * y ^ 2) * hw

theorem yaw_hypotenuse (h : quat.IsUnit) :
    quat.cosy_cosp ^ 2 + quat.siny_cosp ^ 2 = 1 - quat.sinp ^ 2 := by
  obtain ⟨x, y, z, w⟩ := quat
  simp only [Orientation.IsUnit] at h
  simp only [Orientation.cosy_cosp, Orientation.siny_cosp, Orientation.sinp]
  have hw : w ^ 2 = 1 - x ^ 2 - y ^ 2 - z ^ 2 := by linear_combination h
  linear_combination (4 * z ^ 2 + 4 * y ^ 2) * hw

theorem sinp_sq_le_one (h : quat.IsUnit) : quat.sinp ^ 2 ≤ 1 := by
  have hroll := roll_hypotenuse h
  nlinarith [sq_nonneg quat.cosr_cosp, sq_nonneg quat.sinr_cosp]

/-- The four entries of the product that mix all three angles, cleared of
denominators. -/
theorem mixed_entries (h : quat.IsUnit) :
    let d := quat.cosy_cosp
    let e := quat.siny_cosp
    let s := quat.sinp
    let a := quat.cosr_cosp
    let b := quat.sinr_cosp
    d * s * b - e * a = rotation quat 0 1 * (1 - s ^ 2) ∧
      d * s * a + e * b = rotation quat 0 2 * (1 - s ^ 2) ∧
      e * s * b + d * a = rotation quat 1 1 * (1 - s ^ 2) ∧
      e * s * a - d * b = rotation quat 1 2 * (1 - s ^ 2) := by
  obtain ⟨x, y, z, w⟩ := quat
  simp only [Orientation.IsUnit] at h
  -- every entry as a form of degree two, so that powers of the norm balance
  have hd : 1 - 2 * (y * y + z * z) = w ^ 2 + x ^ 2 - y ^ 2 - z ^ 2 := by
    linear_combination -h
  have ha : 1 - 2 * (x * x + y * y) = w ^ 2 + z ^ 2 - x ^ 2 - y ^ 2 := by
    linear_combination -h
  have hm : 1 - 2 * (x * x + z * z) = w ^ 2 + y ^ 2 - x ^ 2 - z ^ 2 := by
    linear_combination -h
  simp only [Orientation.cosr_cosp, Orientation.sinr_cosp, Orientation.sinp,
    Orientation.cosy_cosp, Orientation.siny_cosp, rotation, hd, ha, hm,
    Matrix.of_apply, Matrix.cons_val]
  refine ⟨?_, ?_, ?_, ?_⟩
  · linear_combination (2 * (w * z + x * y) * (w ^ 2 + z ^ 2 - x ^ 2 - y ^ 2) +
      2 * (x * y - w * z) * (1 + (x ^ 2 + y ^ 2 + z ^ 2 + w ^ 2))) * h
  · linear_combination (-(2 * (w * z + x * y) * (2 * (w * x + y * z))) +
      2 * (x * z + w * y) * (1 + (x ^ 2 + y ^ 2 + z ^ 2 + w ^ 2))) * h
  · linear_combination (-((w ^ 2 + x ^ 2 - y ^ 2 - z ^ 2) *
        (w ^ 2 + z ^ 2 - x ^ 2 - y ^ 2)) +
      (w ^ 2 + y ^ 2 - x ^ 2 - z ^ 2) *
        (1 + (x ^ 2 + y ^ 2 + z ^ 2 + w ^ 2))) * h
  · linear_combination ((w ^ 2 + x ^ 2 - y ^ 2 - z ^ 2) *
        (2 * (w * x + y * z)) +
      2 * (y * z - w * x) * (1 + (x ^ 2 + y ^ 2 + z ^ 2 + w ^ 2))) * h

theorem eulerRotation_of_regular (h : quat.IsUnit) (hsinp : |quat.sinp| < 1) :
    eulerRotation quat = rotation quat := by
  have hbounds := abs_lt.mp hsinp
  have hpos : 0 < 1 - quat.sinp ^ 2 := by
    have := (sq_lt_one_iff_abs_lt_one quat.sinp).mpr hsinp
    linarith
  set cosp := Real.sqrt (1 - quat.sinp ^ 2) with hcosp
  have hc : 0 < cosp := Real.sqrt_pos.mpr hpos
  have hcsq : cosp ^ 2 = 1 - quat.sinp ^ 2 := Real.sq_sqrt hpos.le
  have hpitch : quat.pitch = Real.arcsin quat.sinp :=
    if_neg (not_le.mpr hsinp)
  have hsp : Real.sin quat.pitch = quat.sinp := by
    rw [hpitch, Real.sin_arcsin hbounds.1.le hbounds.2.le]
  have hcp : Real.cos quat.pitch = cosp := by
    rw [hpitch, Real.cos_arcsin]
  have hroll := (roll_hypotenuse h).trans hcsq.symm
  have hyaw := (yaw_hypotenuse h).trans hcsq.symm
  have hcr : Real.cos quat.roll = quat.cosr_cosp / cosp := cos_atan2 hc hroll
  have hsr : Real.sin quat.roll = quat.sinr_cosp / cosp := sin_atan2 hc hroll
  have hcy : Real.cos quat.yaw = quat.cosy_cosp / cosp := cos_atan2 hc hyaw
  have hsy : Real.sin quat.yaw = quat.siny_cosp / cosp := sin_atan2 hc hyaw
  obtain ⟨h01, h02, h11, h12⟩ := mixed_entries h
  rw [← hcsq] at h01 h02 h11 h12
  have hne : cosp ≠ 0 := hc.ne'
  rw [eulerRotation_eq]
  simp only [hsp, hcp, hcr, hsr, hcy, hsy]
  ext i j
  fin_cases i <;> fin_cases j <;> simp
  · field_simp
    simp [rotation, Orientation.cosy_cosp]
  · field_simp
    linear_combination h01
  · field_simp
    linear_combination h02
  · field_simp
    simp [rotation, Orientation.siny_cosp]; ring
  · field_simp
    linear_combination h11
  · field_simp
    linear_combination h12
  · simp [rotation, Orientation.sinp]; ring
  · field_simp
    simp [rotation, Orientation.sinr_cosp]; ring
  · field_simp
    simp [rotation, Orientation.cosr_cosp]

theorem sinp_sq_eq_one (h : quat.IsUnit) (hsinp : 1 ≤ |quat.sinp|) :
    quat.sinp ^ 2 = 1 := by
  have hle := sinp_sq_le_one h
  have hge : 1 ≤ quat.sinp ^ 2 := (one_le_sq_iff_one_le_abs _).mpr hsinp
  exact le_antisymm hle hge

theorem eulerRotation_of_singular (h : quat.IsUnit)
    (hsinp : 1 ≤ |quat.sinp|) : eulerRotation quat = Ry quat.pitch := by
  have hsq := sinp_sq_eq_one h hsinp
  have hroll := roll_hypotenuse h
  have hyaw := yaw_hypotenuse h
  rw [hsq, sub_self] at hroll hyaw
  have ha : quat.cosr_cosp = 0 := by
    nlinarith [sq_nonneg quat.cosr_cosp, sq_nonneg quat.sinr_cosp]
  have hb : quat.sinr_cosp = 0 := by
    nlinarith [sq_nonneg quat.cosr_cosp, sq_nonneg quat.sinr_cosp]
  have hd : quat.cosy_cosp = 0 := by
    nlinarith [sq_nonneg quat.cosy_cosp, sq_nonneg quat.siny_cosp]
  have he : quat.siny_cosp = 0 := by
    nlinarith [sq_nonneg quat.cosy_cosp, sq_nonneg quat.siny_cosp]
  have hrollZero : quat.roll = 0 := by
    rw [Orientation.roll, ha, hb, atan2_zero_zero]
  have hyawZero : quat.yaw = 0 := by
    rw [Orientation.yaw, hd, he, atan2_zero_zero]
  have hone : ∀ angle : ℝ, angle = 0 → Rx angle = 1 ∧ Rz angle = 1 := by
    rintro _ rfl
    constructor <;> ext i j <;> fin_cases i <;> fin_cases j <;>
      simp [Rx, Rz]
  rw [eulerRotation, (hone _ hyawZero).2, (hone _ hrollZero).1, one_mul,
    mul_one]

theorem copysign_of_sq_eq_one {a sign : ℝ} (ha : 0 ≤ a)
    (hsign : sign ^ 2 = 1) : copysign a sign = sign * a := by
  rcases sq_eq_one_iff.mp hsign with rfl | rfl
  · simp [copysign, abs_of_nonneg ha]
  · simp [copysign, abs_of_nonneg ha]

/-- At a pitch of plus or minus ninety degrees the quaternion has only one
degree of freedom left. -/
theorem singular_components (h : quat.IsUnit) (hsq : quat.sinp ^ 2 = 1) :
    quat.w = quat.sinp * quat.y ∧ quat.z = -(quat.sinp * quat.x) := by
  have hsum : (quat.w - quat.sinp * quat.y) ^ 2 +
      (quat.z + quat.sinp * quat.x) ^ 2 = 0 := by
    have hsinp : quat.sinp = 2 * (quat.w * quat.y - quat.z * quat.x) := rfl
    simp only [Orientation.IsUnit] at h
    linear_combination h + quat.sinp * hsinp +
      (quat.x ^ 2 + quat.y ^ 2 - 1) * hsq
  have hw : (quat.w - quat.sinp * quat.y) ^ 2 = 0 := by
    nlinarith [sq_nonneg (quat.w - quat.sinp * quat.y),
      sq_nonneg (quat.z + quat.sinp * quat.x)]
  have hz : (quat.z + quat.sinp * quat.x) ^ 2 = 0 := by
    nlinarith [sq_nonneg (quat.w - quat.sinp * quat.y),
      sq_nonneg (quat.z + quat.sinp * quat.x)]
  constructor
  · linarith [pow_eq_zero_iff two_ne_zero |>.mp hw]
  · linarith [pow_eq_zero_iff two_ne_zero |>.mp hz]

theorem Ry_pitch_of_singular (h : quat.IsUnit) (hsinp : 1 ≤ |quat.sinp|) :
    Ry quat.pitch =
      !![0, 0, quat.sinp; 0, 1, 0; -quat.sinp, 0, 0] := by
  have hsq : quat.sinp ^ 2 = 1 := sinp_sq_eq_one h hsinp
  have hpitch : quat.pitch = quat.sinp * (Real.pi / 2) := by
    rw [Orientation.pitch, if_pos hsinp,
      copysign_of_sq_eq_one (by positivity) hsq]
  rcases sq_eq_one_iff.mp hsq with hs | hs
  · simp [Ry, hpitch, hs]
  · simp [Ry, hpitch, hs]

theorem rotation_of_singular (h : quat.IsUnit) (hsinp : 1 ≤ |quat.sinp|) :
    rotation quat = !![0, 0, quat.sinp; 0, 1, 0; -quat.sinp, 0, 0] ↔
      quat.x = 0 := by
  have hsq : quat.sinp ^ 2 = 1 := sinp_sq_eq_one h hsinp
  obtain ⟨hw, hz⟩ := singular_components h hsq
  constructor
  · intro heq
    have hentry := congrFun (congrFun heq 1) 1
    simp [rotation] at hentry
    nlinarith [sq_nonneg quat.x, sq_nonneg quat.z]
  · intro hx
    have hz0 : quat.z = 0 := by rw [hz, hx]; ring
    have hy : 2 * quat.y ^ 2 = 1 := by
      simp only [Orientation.IsUnit] at h
      rw [hw, hx, hz0] at h
      linear_combination h - quat.y ^ 2 * hsq
    ext i j
    fin_cases i <;> fin_cases j <;> simp [rotation, hx, hz0]
    · linear_combination -hy
    · linear_combination 2 * quat.y * hw + quat.sinp * hy
    · linear_combination 2 * quat.y * hw + quat.sinp * hy
    · linear_combination -hy

/-- The computed angles stand for the orientation of the message exactly when
the pitch is not plus or minus ninety degrees, or nothing but the pitch is
left to represent. -/
theorem eulerRotation_eq_rotation_iff (h : quat.IsUnit) :
    eulerRotation quat = rotation quat ↔
      |2 * (quat.w * quat.y - quat.z * quat.x)| < 1 ∨ quat.x = 0 := by
  by_cases hsinp : |quat.sinp| < 1
  · exact iff_of_true (eulerRotation_of_regular h hsinp) (Or.inl hsinp)
  · have hge : 1 ≤ |quat.sinp| := not_lt.mp hsinp
    rw [eulerRotation_of_singular h hge, Ry_pitch_of_singular h hge, eq_comm,
      rotation_of_singular h hge]
    exact (or_iff_right hsinp).symm

/-- An orientation tilted about all three axes keeps its rotation. -/
theorem eulerRotation_eq_rotation_tilted :
    eulerRotation ⟨2 / 5, 2 / 5, 1 / 5, 4 / 5⟩ =
      rotation ⟨2 / 5, 2 / 5, 1 / 5, 4 / 5⟩ := by
  have hunit : Orientation.IsUnit ⟨2 / 5, 2 / 5, 1 / 5, 4 / 5⟩ := by
    norm_num [Orientation.IsUnit]
  apply (eulerRotation_eq_rotation_iff hunit).mpr
  left
  norm_num [abs_lt]

/-- Nose straight up and rolled by a quarter turn: both `atan2` calls see
`(0, 0)`, and the quarter turn is lost. -/
theorem eulerRotation_ne_rotation_quarter_turn :
    Orientation.IsUnit ⟨1 / 2, 1 / 2, -1 / 2, 1 / 2⟩ ∧
      eulerRotation ⟨1 / 2, 1 / 2, -1 / 2, 1 / 2⟩ ≠
        rotation ⟨1 / 2, 1 / 2, -1 / 2, 1 / 2⟩ := by
  have hunit : Orientation.IsUnit ⟨1 / 2, 1 / 2, -1 / 2, 1 / 2⟩ := by
    norm_num [Orientation.IsUnit]
  have hsinp : 1 ≤ |Orientation.sinp ⟨1 / 2, 1 / 2, -1 / 2, 1 / 2⟩| := by
    norm_num [Orientation.sinp]
  refine ⟨hunit, fun heq => ?_⟩
  rw [eulerRotation_of_singular hunit hsinp,
    Ry_pitch_of_singular hunit hsinp] at heq
  have hx := (rotation_of_singular hunit hsinp).mp heq.symm
  norm_num at hx

end ReadImuData

end LivoxScripts
