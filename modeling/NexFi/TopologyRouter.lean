import Mathlib

/-!
# The bend of a link

The router of a link adds one point to its vertices: the middle between the two
ends, moved by the offset away from the straight line. The eight cases are one
formula, the signs of the difference of the ends after a quarter turn, so the
bend of the opposite link is moved the other way.
-/

namespace NexFi.Topology

abbrev Point := ℚ × ℚ

structure BBox where
  x : ℚ
  y : ℚ
  width : ℚ
  height : ℚ

def BBox.center (b : BBox) : Point := (b.x + b.width / 2, b.y + b.height / 2)

/-- The second end, with the half width and height of the first box. -/
def farEnd (sourceBBox targetBBox : BBox) : Point :=
  (targetBBox.x + sourceBBox.width / 2, targetBBox.y + sourceBBox.height / 2)

def bendPoint (sourceBBox targetBBox : BBox) : Point :=
  let (x1, y1) := sourceBBox.center
  let (x2, y2) := farEnd sourceBBox targetBBox
  let middlePoint : Point := ((x1 + x2) / 2, (y1 + y2) / 2)
  let offset : ℚ := 13
  if x1 > x2 ∧ y1 < y2 then (middlePoint.1 + offset, middlePoint.2 + offset)
  else if x1 > x2 ∧ y1 > y2 then (middlePoint.1 - offset, middlePoint.2 + offset)
  else if x1 < x2 ∧ y1 < y2 then (middlePoint.1 + offset, middlePoint.2 - offset)
  else if x1 < x2 ∧ y1 > y2 then (middlePoint.1 - offset, middlePoint.2 - offset)
  else if x1 = x2 ∧ y1 > y2 then (middlePoint.1 - offset, middlePoint.2)
  else if x1 = x2 ∧ y1 < y2 then (middlePoint.1 + offset, middlePoint.2)
  else if x1 < x2 ∧ y1 = y2 then (middlePoint.1, middlePoint.2 - offset)
  else if x1 > x2 ∧ y1 = y2 then (middlePoint.1, middlePoint.2 + offset)
  else middlePoint

/-- The boxes are missing while the view of the link is not drawn. -/
def router (vertices : List Point) : Option BBox → Option BBox → List Point
  | some sourceBBox, some targetBBox => vertices ++ [bendPoint sourceBBox targetBBox]
  | _, _ => vertices

/-- The signs of a vector after a quarter turn. -/
def turnedSigns (d : Point) : Point := (SignType.sign d.2, -SignType.sign d.1)

theorem turnedSigns_neg (d : Point) : turnedSigns (-d) = -turnedSigns d := by
  simp [turnedSigns, Left.sign_neg]

theorem coe_sign_eq_zero {a : ℚ} (h : (SignType.sign a : ℚ) = 0) : a = 0 := by
  rcases lt_trichotomy a 0 with ha | ha | ha
  · simp [sign_neg ha] at h
  · exact ha
  · simp [sign_pos ha] at h

theorem turnedSigns_ne_zero {d : Point} (h : d ≠ 0) : turnedSigns d ≠ 0 := by
  intro hzero
  obtain ⟨hsnd, hfst⟩ := Prod.ext_iff.mp hzero
  exact h (Prod.ext (coe_sign_eq_zero (neg_eq_zero.mp hfst)) (coe_sign_eq_zero hsnd))

theorem midpoint_ends (x1 y1 x2 y2 : ℚ) :
    midpoint ℚ ((x1, y1) : Point) (x2, y2) = ((x1 + x2) / 2, (y1 + y2) / 2) := by
  rw [midpoint_eq_smul_add]
  ext
  · simp [div_eq_inv_mul]
  · simp [div_eq_inv_mul]

theorem bendPoint_eq (s t : BBox) :
    bendPoint s t =
      midpoint ℚ s.center (farEnd s t) + (13 : ℚ) • turnedSigns (farEnd s t - s.center) := by
  unfold bendPoint
  generalize s.center = p1
  generalize farEnd s t = p2
  obtain ⟨x1, y1⟩ := p1
  obtain ⟨x2, y2⟩ := p2
  rw [midpoint_ends]
  rcases lt_trichotomy x1 x2 with hx | rfl | hx
  · rcases lt_trichotomy y1 y2 with hy | rfl | hy
    · simp [turnedSigns, hx, hy, hx.not_gt, hy.not_gt, sub_eq_add_neg]
    · simp [turnedSigns, hx, hx.not_gt, hx.ne, sub_eq_add_neg]
    · simp [turnedSigns, hx, hy, hx.not_gt, hy.not_gt, sub_eq_add_neg]
  · rcases lt_trichotomy y1 y2 with hy | rfl | hy
    · simp [turnedSigns, hy, hy.not_gt]
    · simp [turnedSigns]
    · simp [turnedSigns, hy, hy.not_gt, sub_eq_add_neg]
  · rcases lt_trichotomy y1 y2 with hy | rfl | hy
    · simp [turnedSigns, hx, hy]
    · simp [turnedSigns, hx, hx.not_gt, hx.ne']
    · simp [turnedSigns, hx, hy, hy.not_gt, sub_eq_add_neg]

theorem farEnd_center {a b : BBox} (hwidth : a.width = b.width) (hheight : a.height = b.height) :
    farEnd a b = b.center := by
  rw [farEnd, hwidth, hheight, BBox.center]

section Opposite
variable {a b : BBox} (hwidth : a.width = b.width) (hheight : a.height = b.height)
include hwidth hheight

theorem bendPoint_forth :
    bendPoint a b =
      midpoint ℚ a.center b.center + (13 : ℚ) • turnedSigns (b.center - a.center) := by
  rw [bendPoint_eq, farEnd_center hwidth hheight]

theorem bendPoint_back :
    bendPoint b a =
      midpoint ℚ a.center b.center - (13 : ℚ) • turnedSigns (b.center - a.center) := by
  have hturn : turnedSigns (a.center - b.center) = -turnedSigns (b.center - a.center) := by
    rw [← turnedSigns_neg, neg_sub]
  rw [bendPoint_eq, farEnd_center hwidth.symm hheight.symm, midpoint_comm, hturn, smul_neg,
    ← sub_eq_add_neg]

theorem bendPoint_reflected :
    bendPoint b a = Equiv.pointReflection (midpoint ℚ a.center b.center) (bendPoint a b) := by
  rw [bendPoint_forth hwidth hheight, bendPoint_back hwidth hheight, Equiv.pointReflection_apply,
    vsub_eq_sub, vadd_eq_add]
  abel

theorem bendPoint_ne (hcenters : a.center ≠ b.center) : bendPoint a b ≠ bendPoint b a := by
  have hturn := turnedSigns_ne_zero (sub_ne_zero.mpr hcenters.symm)
  have hoffset : (13 : ℚ) • turnedSigns (b.center - a.center) ≠ 0 :=
    smul_ne_zero (by norm_num) hturn
  intro h
  rw [bendPoint_forth hwidth hheight, bendPoint_back hwidth hheight] at h
  rw [sub_eq_add_neg (midpoint ℚ a.center b.center)] at h
  exact hoffset (self_eq_neg.mp (add_left_cancel h))

end Opposite

/-- The two links between boxes of one size bend apart, to mirror images. -/
theorem opposite_links_mirrored (a b : BBox) (hwidth : a.width = b.width)
    (hheight : a.height = b.height) (hcenters : a.center ≠ b.center) :
    ∃ P Q : Point, (∀ vertices, router vertices (some a) (some b) = vertices ++ [P]) ∧
      (∀ vertices, router vertices (some b) (some a) = vertices ++ [Q]) ∧ P ≠ Q ∧
      Q = Equiv.pointReflection (midpoint ℚ a.center b.center) P :=
  ⟨bendPoint a b, bendPoint b a, fun _ => rfl, fun _ => rfl,
    bendPoint_ne hwidth hheight hcenters, bendPoint_reflected hwidth hheight⟩

/-- Two boxes of the page in one row. -/
theorem opposite_links_mirrored_row :
    let a : BBox := ⟨50, 50, 120, 40⟩
    let b : BBox := ⟨200, 50, 120, 40⟩
    ∃ P Q : Point, (∀ vertices, router vertices (some a) (some b) = vertices ++ [P]) ∧
      (∀ vertices, router vertices (some b) (some a) = vertices ++ [Q]) ∧ P ≠ Q ∧
      Q = Equiv.pointReflection (midpoint ℚ a.center b.center) P := by
  refine opposite_links_mirrored _ _ rfl rfl ?_
  norm_num [BBox.center]

end NexFi.Topology
