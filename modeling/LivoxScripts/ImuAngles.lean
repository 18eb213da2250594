/-
`ws_livox/read_imu_data.py`: the numbers `callback_imu` computes from a message,
before it rounds them to print them, and the angles of a rotation, found again
in its quaternion.
-/
import LivoxScripts.ReadImuData

namespace LivoxScripts.ReadImuData

/-- `geometry_msgs/Vector3` -/
structure Vector3 where
  x : ℝ
  y : ℝ
  z : ℝ

/-- The fields of a `sensor_msgs/Imu` message that the script reads. -/
structure Imu where
  linear_acceleration : Vector3
  angular_velocity : Vector3
  orientation : Orientation

/-- `math.degrees` on the reals. -/
noncomputable def degrees (angle : ℝ) : ℝ := angle * (180 / Real.pi)

noncomputable def Vector3.total (v : Vector3) : ℝ :=
  Real.sqrt (v.x ^ 2 + v.y ^ 2 + v.z ^ 2)

/-- What is computed for a message.  The script prints these numbers rounded, the
totals to four decimals and the angles to two; here they are exact. -/
structure ImuValues where
  accelTotal : ℝ
  gyroTotal : ℝ
  roll_deg : ℝ
  pitch_deg : ℝ
  yaw_deg : ℝ

noncomputable def callback_imu (msg : Imu) : ImuValues where
  accelTotal := msg.linear_acceleration.total
  gyroTotal := msg.angular_velocity.total
  roll_deg := degrees msg.orientation.roll
  pitch_deg := degrees msg.orientation.pitch
  yaw_deg := degrees msg.orientation.yaw

/-- A roll, a pitch and a yaw with which no two different triples turn a body
the same way. -/
structure Angles where
  roll : ℝ
  pitch : ℝ
  yaw : ℝ
  roll_mem : roll ∈ Set.Ioc (-Real.pi) Real.pi
  pitch_mem : pitch ∈ Set.Ioo (-(Real.pi / 2)) (Real.pi / 2)
  yaw_mem : yaw ∈ Set.Ioc (-Real.pi) Real.pi

/-- The turn by twice `roll` about X, then by twice `pitch` about Y, then by
twice `yaw` about Z, as one quaternion. -/
noncomputable def quaternionOf (roll pitch yaw : ℝ) : Orientation :=
  let cr := Real.cos roll
  let sr := Real.sin roll
  let cp := Real.cos pitch
  let sp := Real.sin pitch
  let cy := Real.cos yaw
  let sy := Real.sin yaw
  { x := sr * cp * cy - cr * sp * sy
    y := cr * sp * cy + sr * cp * sy
    z := cr * cp * sy - sr * sp * cy
    w := cr * cp * cy + sr * sp * sy }

/-- The other quaternion of the same rotation. -/
def Orientation.neg (quat : Orientation) : Orientation :=
  ⟨-quat.x, -quat.y, -quat.z, -quat.w⟩

/-- The angles are these, in degrees. -/
def ImuValues.HasAngles (values : ImuValues) (a : Angles) : Prop :=
  values.roll_deg = degrees a.roll ∧ values.pitch_deg = degrees a.pitch ∧
    values.yaw_deg = degrees a.yaw

/-- The components of the quaternion as polynomials in six numbers, two on
each of three circles. -/
theorem composed_products {cr sr cp sp cy sy : ℝ}
    (hr : cr ^ 2 + sr ^ 2 = 1) (hp : cp ^ 2 + sp ^ 2 = 1)
    (hy : cy ^ 2 + sy ^ 2 = 1) :
    let quat : Orientation :=
      { x := sr * cp * cy - cr * sp * sy
        y := cr * sp * cy + sr * cp * sy
        z := cr * cp * sy - sr * sp * cy
        w := cr * cp * cy + sr * sp * sy }
    quat.IsUnit ∧
      quat.sinr_cosp = (cp ^ 2 - sp ^ 2) * (2 * sr * cr) ∧
      quat.cosr_cosp = (cp ^ 2 - sp ^ 2) * (cr ^ 2 - sr ^ 2) ∧
      quat.sinp = 2 * sp * cp ∧
      quat.siny_cosp = (cp ^ 2 - sp ^ 2) * (2 * sy * cy) ∧
      quat.cosy_cosp = (cp ^ 2 - sp ^ 2) * (cy ^ 2 - sy ^ 2) := by
  have hunit : (sr * cp * cy - cr * sp * sy) ^ 2 +
      (cr * sp * cy + sr * cp * sy) ^ 2 + (cr * cp * sy - sr * sp * cy) ^ 2 +
      (cr * cp * cy + sr * sp * sy) ^ 2 = 1 := by
    linear_combination (cp ^ 2 + sp ^ 2) * (cy ^ 2 + sy ^ 2) * hr +
      (cy ^ 2 + sy ^ 2) * hp + hy
  simp only [Orientation.IsUnit, Orientation.sinr_cosp, Orientation.cosr_cosp,
    Orientation.sinp, Orientation.siny_cosp, Orientation.cosy_cosp]
  refine ⟨hunit, ?_, ?_, ?_, ?_, ?_⟩
  · linear_combination (cp ^ 2 - sp ^ 2) * (2 * sr * cr) * hy
  · linear_combination (cp ^ 2 - sp ^ 2) * (cr ^ 2 - sr ^ 2) * hy - hunit
  · linear_combination 2 * sp * cp * ((cy ^ 2 + sy ^ 2) * hr + hy)
  · linear_combination (cp ^ 2 - sp ^ 2) * (2 * sy * cy) * hr
  · linear_combination (cp ^ 2 - sp ^ 2) * (cy ^ 2 - sy ^ 2) * hr - hunit

/-- The entries of its rotation that mix all three angles. -/
theorem composed_mixed {cr sr cp sp cy sy : ℝ}
    (hr : cr ^ 2 + sr ^ 2 = 1) (hp : cp ^ 2 + sp ^ 2 = 1)
    (hy : cy ^ 2 + sy ^ 2 = 1) :
    let quat : Orientation :=
      { x := sr * cp * cy - cr * sp * sy
        y := cr * sp * cy + sr * cp * sy
        z := cr * cp * sy - sr * sp * cy
        w := cr * cp * cy + sr * sp * sy }
    rotation quat 0 1 =
        (cy ^ 2 - sy ^ 2) * (2 * sp * cp) * (2 * sr * cr) -
          (2 * sy * cy) * (cr ^ 2 - sr ^ 2) ∧
      rotation quat 0 2 =
        (cy ^ 2 - sy ^ 2) * (2 * sp * cp) * (cr ^ 2 - sr ^ 2) +
          (2 * sy * cy) * (2 * sr * cr) ∧
      rotation quat 1 1 =
        (2 * sy * cy) * (2 * sp * cp) * (2 * sr * cr) +
          (cy ^ 2 - sy ^ 2) * (cr ^ 2 - sr ^ 2) ∧
      rotation quat 1 2 =
        (2 * sy * cy) * (2 * sp * cp) * (cr ^ 2 - sr ^ 2) -
          (cy ^ 2 - sy ^ 2) * (2 * sr * cr) := by
  obtain ⟨hunit, -⟩ := composed_products hr hp hy
  simp only [Orientation.IsUnit] at hunit
  simp only [rotation, Matrix.of_apply, Matrix.cons_val]
  refine ⟨?_, ?_, ?_, ?_⟩
  · linear_combination -((2 * sy * cy) * (cr ^ 2 - sr ^ 2)) * hp
  · linear_combination (2 * sy * cy) * (2 * sr * cr) * hp
  · linear_combination (cy ^ 2 - sy ^ 2) * (cr ^ 2 - sr ^ 2) * hp - hunit
  · linear_combination -((cy ^ 2 - sy ^ 2) * (2 * sr * cr)) * hp

/-- The other entries are what the script takes the angles from. -/
theorem rotation_siny (quat : Orientation) :
    rotation quat 1 0 = quat.siny_cosp := by
  simp only [rotation, Orientation.siny_cosp, Matrix.of_apply, Matrix.cons_val]
  ring

theorem rotation_sinp (quat : Orientation) : rotation quat 2 0 = -quat.sinp := by
  simp only [rotation, Orientation.sinp, Matrix.of_apply, Matrix.cons_val]
  ring

theorem rotation_sinr (quat : Orientation) :
    rotation quat 2 1 = quat.sinr_cosp := by
  simp only [rotation, Orientation.sinr_cosp, Matrix.of_apply, Matrix.cons_val]
  ring

theorem sin_eq_half (angle : ℝ) :
    Real.sin angle = 2 * Real.sin (angle / 2) * Real.cos (angle / 2) := by
  rw [← Real.sin_two_mul, mul_div_cancel₀ angle two_ne_zero]

theorem cos_eq_half (angle : ℝ) :
    Real.cos angle = Real.cos (angle / 2) ^ 2 - Real.sin (angle / 2) ^ 2 := by
  rw [← Real.cos_two_mul', mul_div_cancel₀ angle two_ne_zero]

/-- What the script computes from the quaternion of three angles, before it
takes the angles apart. -/
theorem quaternionOf_products (roll pitch yaw : ℝ) :
    let quat := quaternionOf (roll / 2) (pitch / 2) (yaw / 2)
    quat.IsUnit ∧
      quat.sinr_cosp = Real.cos pitch * Real.sin roll ∧
      quat.cosr_cosp = Real.cos pitch * Real.cos roll ∧
      quat.sinp = Real.sin pitch ∧
      quat.siny_cosp = Real.cos pitch * Real.sin yaw ∧
      quat.cosy_cosp = Real.cos pitch * Real.cos yaw := by
  rw [sin_eq_half roll, cos_eq_half roll, sin_eq_half pitch, cos_eq_half pitch,
    sin_eq_half yaw, cos_eq_half yaw]
  exact composed_products (Real.cos_sq_add_sin_sq _)
    (Real.cos_sq_add_sin_sq _) (Real.cos_sq_add_sin_sq _)

theorem quaternionOf_mixed (roll pitch yaw : ℝ) :
    let quat := quaternionOf (roll / 2) (pitch / 2) (yaw / 2)
    rotation quat 0 1 = Real.cos yaw * Real.sin pitch * Real.sin roll -
        Real.sin yaw * Real.cos roll ∧
      rotation quat 0 2 = Real.cos yaw * Real.sin pitch * Real.cos roll +
        Real.sin yaw * Real.sin roll ∧
      rotation quat 1 1 = Real.sin yaw * Real.sin pitch * Real.sin roll +
        Real.cos yaw * Real.cos roll ∧
      rotation quat 1 2 = Real.sin yaw * Real.sin pitch * Real.cos roll -
        Real.cos yaw * Real.sin roll := by
  rw [sin_eq_half roll, cos_eq_half roll, sin_eq_half pitch,
    sin_eq_half yaw, cos_eq_half yaw]
  exact composed_mixed (Real.cos_sq_add_sin_sq _)
    (Real.cos_sq_add_sin_sq _) (Real.cos_sq_add_sin_sq _)

/-- The quaternion turns about the three axes, one after the other. -/
theorem rotation_quaternionOf (roll pitch yaw : ℝ) :
    rotation (quaternionOf (roll / 2) (pitch / 2) (yaw / 2)) =
      Rz yaw * Ry pitch * Rx roll := by
  obtain ⟨-, hsinr, hcosr, hsinp, hsiny, hcosy⟩ :=
    quaternionOf_products roll pitch yaw
  obtain ⟨h01, h02, h11, h12⟩ := quaternionOf_mixed roll pitch yaw
  generalize quaternionOf (roll / 2) (pitch / 2) (yaw / 2) = quat at *
  have h00 : rotation quat 0 0 = Real.cos pitch * Real.cos yaw := hcosy
  have h22 : rotation quat 2 2 = Real.cos pitch * Real.cos roll := hcosr
  have h10 : rotation quat 1 0 = Real.cos pitch * Real.sin yaw := by
    rw [rotation_siny, hsiny]
  have h20 : rotation quat 2 0 = -Real.sin pitch := by
    rw [rotation_sinp, hsinp]
  have h21 : rotation quat 2 1 = Real.cos pitch * Real.sin roll := by
    rw [rotation_sinr, hsinr]
  ext i j
  fin_cases i <;> fin_cases j <;>
    simp [Rz, Ry, Rx, Matrix.mul_apply, Fin.sum_univ_three]
  · linear_combination h00
  · linear_combination h01
  · linear_combination h02
  · linear_combination h10
  · linear_combination h11
  · linear_combination h12
  · exact h20
  · exact h21
  · exact h22

variable {a : Angles} {quat other : Orientation}

theorem atan2_mul {r angle : ℝ} (hr : 0 < r)
    (hangle : angle ∈ Set.Ioc (-Real.pi) Real.pi) :
    atan2 (r * Real.sin angle) (r * Real.cos angle) = angle := by
  have hpolar : (⟨r * Real.cos angle, r * Real.sin angle⟩ : ℂ) =
      r * (Complex.cos angle + Complex.sin angle * Complex.I) := by
    apply Complex.ext
    · simp [Complex.cos_ofReal_re, Complex.sin_ofReal_im]
    · simp [Complex.sin_ofReal_re, Complex.cos_ofReal_im]
  rw [atan2, hpolar, Complex.arg_mul_cos_add_sin_mul_I hr hangle]

theorem cos_pitch_pos (a : Angles) : 0 < Real.cos a.pitch :=
  Real.cos_pos_of_mem_Ioo a.pitch_mem

theorem abs_sin_pitch_lt_one (a : Angles) : |Real.sin a.pitch| < 1 := by
  rw [← sq_lt_one_iff_abs_lt_one, Real.sin_sq]
  have hpos := pow_pos (cos_pitch_pos a) 2
  linarith

/-- The script finds the angles of which a rotation is made. -/
theorem angles_of_rotation
    (h : rotation quat = Rz a.yaw * Ry a.pitch * Rx a.roll) :
    quat.roll = a.roll ∧ quat.pitch = a.pitch ∧ quat.yaw = a.yaw := by
  have hentry : ∀ i j, rotation quat i j =
      (Rz a.yaw * Ry a.pitch * Rx a.roll) i j := fun i j => by rw [h]
  have hcosy : quat.cosy_cosp = Real.cos a.pitch * Real.cos a.yaw := by
    refine (hentry 0 0).trans ?_
    simp [Rz, Ry, Rx, Matrix.mul_apply, Fin.sum_univ_three, mul_comm]
  have hsiny : quat.siny_cosp = Real.cos a.pitch * Real.sin a.yaw := by
    rw [← rotation_siny, hentry]
    simp [Rz, Ry, Rx, Matrix.mul_apply, Fin.sum_univ_three, mul_comm]
  have hsinp : quat.sinp = Real.sin a.pitch := by
    rw [← neg_inj, ← rotation_sinp, hentry]
    simp [Rz, Ry, Rx, Matrix.mul_apply, Fin.sum_univ_three]
  have hsinr : quat.sinr_cosp = Real.cos a.pitch * Real.sin a.roll := by
    rw [← rotation_sinr, hentry]
    simp [Rz, Ry, Rx, Matrix.mul_apply, Fin.sum_univ_three]
  have hcosr : quat.cosr_cosp = Real.cos a.pitch * Real.cos a.roll := by
    refine (hentry 2 2).trans ?_
    simp [Rz, Ry, Rx, Matrix.mul_apply, Fin.sum_univ_three]
  refine ⟨?_, ?_, ?_⟩
  · rw [Orientation.roll, hsinr, hcosr]
    exact atan2_mul (cos_pitch_pos a) a.roll_mem
  · rw [Orientation.pitch, hsinp,
      if_neg (not_le.mpr (abs_sin_pitch_lt_one a))]
    exact Real.arcsin_sin a.pitch_mem.1.le a.pitch_mem.2.le
  · rw [Orientation.yaw, hsiny, hcosy]
    exact atan2_mul (cos_pitch_pos a) a.yaw_mem

/-- The product of two unit quaternions as vectors. -/
def Orientation.inner (quat other : Orientation) : ℝ :=
  quat.x * other.x + quat.y * other.y + quat.z * other.z + quat.w * other.w

/-- The diagonal of a rotation, each entry of degree two. -/
theorem rotation_diagonal (h : quat.IsUnit) :
    rotation quat 0 0 =
        quat.w ^ 2 + quat.x ^ 2 - quat.y ^ 2 - quat.z ^ 2 ∧
      rotation quat 1 1 =
        quat.w ^ 2 + quat.y ^ 2 - quat.x ^ 2 - quat.z ^ 2 ∧
      rotation quat 2 2 =
        quat.w ^ 2 + quat.z ^ 2 - quat.x ^ 2 - quat.y ^ 2 := by
  obtain ⟨x, y, z, w⟩ := quat
  simp only [Orientation.IsUnit] at h
  refine ⟨?_, ?_, ?_⟩
  · simp [rotation]
    linear_combination -h
  · simp [rotation]
    linear_combination -h
  · simp [rotation]
    linear_combination -h

/-- Entry by entry two rotations multiply to what the angle between their
quaternions gives. -/
theorem sum_rotation_mul (h : quat.IsUnit) (hother : other.IsUnit) :
    ∑ i, ∑ j, rotation quat i j * rotation other i j =
      4 * quat.inner other ^ 2 - 1 := by
  obtain ⟨h00, h11, h22⟩ := rotation_diagonal h
  obtain ⟨h00', h11', h22'⟩ := rotation_diagonal hother
  simp only [Fin.sum_univ_three, h00, h11, h22, h00', h11', h22']
  obtain ⟨x, y, z, w⟩ := quat
  obtain ⟨x', y', z', w'⟩ := other
  simp only [Orientation.IsUnit] at h hother
  simp [rotation, Orientation.inner]
  linear_combination -(x' ^ 2 + y' ^ 2 + z' ^ 2 + w' ^ 2) * h - hother

theorem inner_self (h : quat.IsUnit) : quat.inner quat = 1 := by
  simp only [Orientation.IsUnit] at h
  rw [Orientation.inner]
  linear_combination h

theorem eq_of_inner_eq_one (h : quat.IsUnit) (hother : other.IsUnit)
    (hinner : quat.inner other = 1) : quat = other := by
  obtain ⟨x, y, z, w⟩ := quat
  obtain ⟨x', y', z', w'⟩ := other
  simp only [Orientation.IsUnit, Orientation.inner] at h hother hinner
  have hsum : (x - x') ^ 2 + (y - y') ^ 2 + (z - z') ^ 2 + (w - w') ^ 2 = 0 := by
    linear_combination h + hother - 2 * hinner
  have hzero : ∀ u v : ℝ, (u - v) ^ 2 ≤ 0 → u = v := fun u v huv =>
    sub_eq_zero.mp (pow_eq_zero_iff two_ne_zero |>.mp
      (le_antisymm huv (sq_nonneg _)))
  have hx := sq_nonneg (x - x')
  have hy := sq_nonneg (y - y')
  have hz := sq_nonneg (z - z')
  have hw := sq_nonneg (w - w')
  rw [hzero x x' (by linarith), hzero y y' (by linarith),
    hzero z z' (by linarith), hzero w w' (by linarith)]

theorem isUnit_neg (h : quat.IsUnit) : quat.neg.IsUnit := by
  simpa [Orientation.IsUnit, Orientation.neg] using h

theorem rotation_neg (quat : Orientation) : rotation quat.neg = rotation quat := by
  simp [rotation, Orientation.neg]

/-- A rotation has two unit quaternions. -/
theorem rotation_eq_iff (h : quat.IsUnit) (hother : other.IsUnit) :
    rotation quat = rotation other ↔ quat = other ∨ quat = other.neg := by
  constructor
  · intro heq
    have hsum := sum_rotation_mul h hother
    rw [heq, sum_rotation_mul hother hother, inner_self hother] at hsum
    have hsq : quat.inner other ^ 2 = 1 := by linarith
    rcases sq_eq_one_iff.mp hsq with hinner | hinner
    · exact Or.inl (eq_of_inner_eq_one h hother hinner)
    · refine Or.inr (eq_of_inner_eq_one h (isUnit_neg hother) ?_)
      rw [Orientation.inner] at hinner ⊢
      simp only [Orientation.neg]
      linear_combination -hinner
  · rintro (heq | heq)
    · rw [heq]
    · rw [heq, rotation_neg]

theorem abs_copysign (a sign : ℝ) : |copysign a sign| = |a| := by
  rw [copysign]
  split
  · rw [abs_neg, abs_abs]
  · rw [abs_abs]

theorem abs_pitch_of_vertical (hsinp : 1 ≤ |quat.sinp|) :
    |quat.pitch| = Real.pi / 2 := by
  rw [Orientation.pitch, if_pos hsinp, abs_copysign,
    abs_of_pos Real.pi_div_two_pos]

/-- At the vertical both calls of `atan2` see the origin. -/
theorem roll_yaw_of_vertical (h : quat.IsUnit) (hsinp : 1 ≤ |quat.sinp|) :
    quat.roll = 0 ∧ quat.yaw = 0 := by
  have hroll := roll_hypotenuse h
  have hyaw := yaw_hypotenuse h
  rw [sinp_sq_eq_one h hsinp, sub_self] at hroll hyaw
  have horigin : ∀ x y : ℝ, x ^ 2 + y ^ 2 = 0 → atan2 y x = 0 := by
    intro x y hxy
    have hx : x = 0 := by nlinarith [sq_nonneg x, sq_nonneg y]
    have hy : y = 0 := by nlinarith [sq_nonneg x, sq_nonneg y]
    rw [hx, hy, atan2_zero_zero]
  exact ⟨horigin _ _ hroll, horigin _ _ hyaw⟩

/-- The script computes these angles exactly when they make up the rotation. -/
theorem angles_eq_iff (h : quat.IsUnit) (a : Angles) :
    (quat.roll = a.roll ∧ quat.pitch = a.pitch ∧ quat.yaw = a.yaw) ↔
      rotation quat = Rz a.yaw * Ry a.pitch * Rx a.roll := by
  refine ⟨?_, angles_of_rotation⟩
  rintro ⟨hroll, hpitch, hyaw⟩
  have hregular : |quat.sinp| < 1 := by
    refine lt_of_not_ge fun hge => ?_
    have hvertical := abs_pitch_of_vertical hge
    rw [hpitch] at hvertical
    exact (abs_lt.mpr a.pitch_mem).ne hvertical
  rw [← eulerRotation_of_regular h hregular, eulerRotation, hroll, hpitch,
    hyaw]

variable {msg : Imu}

theorem degrees_injective : Function.Injective degrees := by
  intro angle angle' h
  exact mul_right_cancel₀ (div_ne_zero (by norm_num) Real.pi_ne_zero) h

/-- The script computes three angles short of the vertical exactly when turning
by them about the axes is the rotation of the message. -/
theorem callback_imu_hasAngles_iff (h : msg.orientation.IsUnit) (a : Angles) :
    (callback_imu msg).HasAngles a ↔
      rotation msg.orientation = Rz a.yaw * Ry a.pitch * Rx a.roll := by
  rw [← angles_eq_iff h a, ImuValues.HasAngles, callback_imu,
    degrees_injective.eq_iff, degrees_injective.eq_iff,
    degrees_injective.eq_iff]

/-- Of all orientations two have three given angles. -/
theorem callback_imu_hasAngles_iff_quaternion (h : msg.orientation.IsUnit)
    (a : Angles) : (callback_imu msg).HasAngles a ↔
      msg.orientation = quaternionOf (a.roll / 2) (a.pitch / 2) (a.yaw / 2) ∨
        msg.orientation =
          (quaternionOf (a.roll / 2) (a.pitch / 2) (a.yaw / 2)).neg := by
  have hunit := (quaternionOf_products a.roll a.pitch a.yaw).1
  rw [callback_imu_hasAngles_iff h, ← rotation_quaternionOf,
    rotation_eq_iff h hunit]

/-- From a unit quaternion the script computes three angles that determine it,
or the vertical with neither roll nor yaw. -/
theorem callback_imu_cases (h : msg.orientation.IsUnit) :
    (∃ a, (callback_imu msg).HasAngles a) ∨
      ((callback_imu msg).roll_deg = 0 ∧ (callback_imu msg).yaw_deg = 0 ∧
        |(callback_imu msg).pitch_deg| = 90) := by
  by_cases hsinp : |msg.orientation.sinp| < 1
  · have hbounds := abs_lt.mp hsinp
    have hpitch : msg.orientation.pitch = Real.arcsin msg.orientation.sinp :=
      if_neg (not_le.mpr hsinp)
    refine Or.inl ⟨⟨msg.orientation.roll, msg.orientation.pitch,
      msg.orientation.yaw, Complex.arg_mem_Ioc _, ?_, Complex.arg_mem_Ioc _⟩,
      rfl, rfl, rfl⟩
    rw [hpitch]
    exact ⟨Real.neg_pi_div_two_lt_arcsin.mpr hbounds.1,
      Real.arcsin_lt_pi_div_two.mpr hbounds.2⟩
  · have hge : 1 ≤ |msg.orientation.sinp| := not_lt.mp hsinp
    obtain ⟨hroll, hyaw⟩ := roll_yaw_of_vertical h hge
    have hpos : 0 < 180 / Real.pi := div_pos (by norm_num) Real.pi_pos
    refine Or.inr ⟨?_, ?_, ?_⟩
    · change degrees msg.orientation.roll = 0
      rw [hroll, degrees, zero_mul]
    · change degrees msg.orientation.yaw = 0
      rw [hyaw, degrees, zero_mul]
    · change |degrees msg.orientation.pitch| = 90
      rw [degrees, abs_mul, abs_pitch_of_vertical hge, abs_of_pos hpos]
      field_simp
      norm_num

/-- The script computes three angles exactly when they make up the rotation of
the message, and computes such angles or, at the vertical, neither roll nor
yaw. -/
theorem callback_imu_spec (h : msg.orientation.IsUnit) :
    (∀ a : Angles, (callback_imu msg).HasAngles a ↔
      rotation msg.orientation = Rz a.yaw * Ry a.pitch * Rx a.roll) ∧
    ((∃ a, (callback_imu msg).HasAngles a) ∨
      ((callback_imu msg).roll_deg = 0 ∧ (callback_imu msg).yaw_deg = 0 ∧
        |(callback_imu msg).pitch_deg| = 90)) :=
  ⟨callback_imu_hasAngles_iff h, callback_imu_cases h⟩

/-- Rolled by 90, pitched by 60 and yawed by 90 degrees. -/
noncomputable def turnedOrientation : Orientation where
  x := (√3 - 1) / 4
  y := (√3 + 1) / 4
  z := (√3 - 1) / 4
  w := (√3 + 1) / 4

theorem half_pi_mem_turn : Real.pi / 2 ∈ Set.Ioc (-Real.pi) Real.pi := by
  constructor <;> linarith [Real.pi_pos]

theorem third_pi_mem_slope :
    Real.pi / 3 ∈ Set.Ioo (-(Real.pi / 2)) (Real.pi / 2) := by
  constructor <;> linarith [Real.pi_pos]

theorem exists_turned : ∃ a : Angles, a.roll = Real.pi / 2 ∧
    a.pitch = Real.pi / 3 ∧ a.yaw = Real.pi / 2 :=
  ⟨⟨_, _, _, half_pi_mem_turn, third_pi_mem_slope, half_pi_mem_turn⟩, rfl, rfl,
    rfl⟩

/-- A message of a body at rest. -/
noncomputable def restMessage (orientation : Orientation) : Imu :=
  ⟨⟨0, 0, 9.8⟩, ⟨0, 0, 0⟩, orientation⟩

theorem turnedOrientation_eq (hroll : a.roll = Real.pi / 2)
    (hpitch : a.pitch = Real.pi / 3) (hyaw : a.yaw = Real.pi / 2) :
    turnedOrientation =
      quaternionOf (a.roll / 2) (a.pitch / 2) (a.yaw / 2) := by
  have hquarter : Real.pi / 2 / 2 = Real.pi / 4 := by ring
  have hsixth : Real.pi / 3 / 2 = Real.pi / 6 := by ring
  have hsq : √2 * √2 = 2 := Real.mul_self_sqrt (by norm_num)
  simp only [hroll, hpitch, hyaw, quaternionOf, hquarter, hsixth,
    Real.cos_pi_div_four, Real.sin_pi_div_four, Real.cos_pi_div_six,
    Real.sin_pi_div_six, turnedOrientation, Orientation.mk.injEq]
  refine ⟨?_, ?_, ?_, ?_⟩
  · linear_combination -(√3 - 1) / 8 * hsq
  · linear_combination -(√3 + 1) / 8 * hsq
  · linear_combination -(√3 - 1) / 8 * hsq
  · linear_combination -(√3 + 1) / 8 * hsq

theorem turnedOrientation_isUnit : turnedOrientation.IsUnit := by
  obtain ⟨a, hroll, hpitch, hyaw⟩ := exists_turned
  rw [turnedOrientation_eq hroll hpitch hyaw]
  exact (quaternionOf_products _ _ _).1

theorem degrees_turned {values : ImuValues} (h : values.HasAngles a)
    (hroll : a.roll = Real.pi / 2) (hpitch : a.pitch = Real.pi / 3)
    (hyaw : a.yaw = Real.pi / 2) :
    values.roll_deg = 90 ∧ values.pitch_deg = 60 ∧ values.yaw_deg = 90 := by
  have hhalf : degrees (Real.pi / 2) = 90 := by
    rw [degrees]
    field_simp
    norm_num
  have hthird : degrees (Real.pi / 3) = 60 := by
    rw [degrees]
    field_simp
    norm_num
  rw [h.1, h.2.1, h.2.2, hroll, hpitch, hyaw]
  exact ⟨hhalf, hthird, hhalf⟩

theorem callback_imu_spec_turned :
    let values := callback_imu (restMessage turnedOrientation)
    values.roll_deg = 90 ∧ values.pitch_deg = 60 ∧ values.yaw_deg = 90 := by
  have hunit : (restMessage turnedOrientation).orientation.IsUnit :=
    turnedOrientation_isUnit
  obtain ⟨a, hroll, hpitch, hyaw⟩ := exists_turned
  refine degrees_turned (((callback_imu_spec hunit).1 a).mpr ?_) hroll hpitch
    hyaw
  change rotation turnedOrientation = _
  rw [turnedOrientation_eq hroll hpitch hyaw, rotation_quaternionOf]

theorem callback_imu_hasAngles_turned_neg :
    let values := callback_imu (restMessage turnedOrientation.neg)
    values.roll_deg = 90 ∧ values.pitch_deg = 60 ∧ values.yaw_deg = 90 := by
  have hunit : (restMessage turnedOrientation.neg).orientation.IsUnit :=
    isUnit_neg turnedOrientation_isUnit
  obtain ⟨a, hroll, hpitch, hyaw⟩ := exists_turned
  refine degrees_turned
    ((callback_imu_hasAngles_iff_quaternion hunit a).mpr (Or.inr ?_)) hroll
      hpitch hyaw
  rw [← turnedOrientation_eq hroll hpitch hyaw]
  rfl

end LivoxScripts.ReadImuData
