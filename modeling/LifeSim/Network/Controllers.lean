import Mathlib

/-!
# The positions of the memory controllers

The memory controllers are spaced along the perimeter of the mesh, which is walked clockwise from the first core: the
first row, the last column, the last row and the first column. In a mesh of a single column the first and the last
column are the same.
-/

namespace LifeSim.Network

/-- The configuration of a mesh. -/
structure MeshConfig where
  /-- `getApplicationCores()`. -/
  coreCount : ℕ
  /-- The configured concentration times the number of hardware threads. -/
  concentration : ℕ
  dimensions : ℕ
  /-- `network/emesh_hop_by_hop/size`, if it is not empty. -/
  size : Option (ℕ × ℕ)
  concentration_pos : 0 < concentration

/-- Why the construction of the network stops. -/
inductive MeshFault
  /-- The mesh does not have as many cores as the machine. -/
  | wrongSize
  /-- Only lines and meshes are supported. -/
  | invalidDimensions
  /-- The assertion on the number of cores along the perimeter. -/
  | perimeterSize
  /-- There are more memory controllers than cores along the perimeter. -/
  | tooManyControllers
  /-- The spacing between no controllers. -/
  | divisionByZero
  deriving DecidableEq

namespace MeshConfig

variable (c : MeshConfig)

/-- The assertion at the end of `computeMeshDimensions`. -/
def checkSize (width height : ℕ) : Except MeshFault (ℕ × ℕ) :=
  if c.coreCount = c.concentration * height * width then .ok (width, height) else .error .wrongSize

/-- `computeMeshDimensions`. -/
def computeMeshDimensions : Except MeshFault (ℕ × ℕ) :=
  match c.size with
  | some size => c.checkSize size.1 size.2
  | none =>
    if c.dimensions = 1 then c.checkSize (c.coreCount / c.concentration) 1
    else if c.dimensions = 2 then
      let width := (c.coreCount / c.concentration).sqrt
      c.checkSize width ((c.coreCount + c.concentration * width - 1) / (c.concentration * width))
    else .error .invalidDimensions

/-- `core_id_list_along_perimeter`. -/
def perimeter (dimensions width height : ℕ) : List ℕ :=
  List.range width ++
  if 1 < dimensions ∧ 1 < height then
    (List.range' 1 (height - 2)).map (fun i => i * width + width - 1) ++
    (List.range width).reverse.map (fun i => (height - 1) * width + i) ++
    (List.range' 1 (height - 2)).reverse.map (fun i => i * width)
  else []

/-- The core of a memory controller. -/
def controllerCore (perimeter : List ℕ) (width controllers i : ℕ) : ℕ :=
  c.concentration * perimeter.getD ((i * (perimeter.length / controllers) + width / 2) % perimeter.length) 0

/-- `computeMemoryControllerPositions`. -/
def computeMemoryControllerPositions (controllers : ℕ) : Except MeshFault (List ℕ) := do
  let (width, height) ← c.computeMeshDimensions
  let cores := perimeter c.dimensions width height
  if 1 < c.dimensions ∧ 1 < height ∧ cores.length ≠ 2 * (width + height - 2) then .error .perimeterSize
  else if cores.length < controllers then .error .tooManyControllers
  else if controllers = 0 then .error .divisionByZero
  else .ok ((List.range controllers).map (c.controllerCore cores width controllers))

/-- The controllers are on different cores, each of them an existing one and the master of its router. -/
def PlacesControllers (controllers : ℕ) : Prop :=
  ∃ cores, c.computeMemoryControllerPositions controllers = .ok cores ∧ cores.length = controllers ∧ cores.Nodup ∧
    ∀ core ∈ cores, core < c.coreCount ∧ core % c.concentration = 0

/-- Two controllers of a single column are the same number of steps before and after the turn. -/
def MeetsItself (height controllers : ℕ) : Prop :=
  let spacing := (2 * height - 2) / controllers
  spacing ∣ 2 * height - 2 ∧ (2 * height - 2) / spacing + 3 ≤ 2 * controllers

instance (height controllers : ℕ) : Decidable (MeetsItself height controllers) := inferInstanceAs (Decidable (_ ∧ _))

/-! ### The perimeter -/

variable {c} {dimensions width height controllers i j : ℕ}

/-- The cells of the perimeter, as rows and columns. -/
def cells (dimensions width height : ℕ) : List (ℕ × ℕ) :=
  (List.range width).map (fun i => (0, i)) ++
  if 1 < dimensions ∧ 1 < height then
    (List.range' 1 (height - 2)).map (fun i => (i, width - 1)) ++
    (List.range width).reverse.map (fun i => (height - 1, i)) ++
    (List.range' 1 (height - 2)).reverse.map (fun i => (i, 0))
  else []

theorem perimeter_eq_map (hwidth : 1 ≤ width) :
    perimeter dimensions width height = (cells dimensions width height).map fun cell => cell.1 * width + cell.2 := by
  have hlast : ∀ i, i * width + width - 1 = i * width + (width - 1) := fun i => Nat.add_sub_assoc hwidth _
  rw [perimeter, cells]
  split_ifs
  · simp [Function.comp_def, hlast]
  · simp [Function.comp_def]

theorem mem_cells {cell : ℕ × ℕ} (hwidth : 1 ≤ width) (hheight : 1 ≤ height)
    (hcell : cell ∈ cells dimensions width height) :
    cell.1 < height ∧ cell.2 < width := by
  rw [cells] at hcell
  split_ifs at hcell with htall
  · simp only [List.mem_append, List.mem_map, List.mem_range, List.mem_range'_1, List.mem_reverse] at hcell
    rcases hcell with ⟨i, hi, rfl⟩ | (⟨i, hi, rfl⟩ | ⟨i, hi, rfl⟩) | ⟨i, hi, rfl⟩
    all_goals
      dsimp only
      omega
  · simp only [List.append_nil, List.mem_map, List.mem_range] at hcell
    obtain ⟨i, hi, rfl⟩ := hcell
    dsimp only
    omega

/-- Rows and columns tell the cores apart. -/
theorem core_inj {p q : ℕ × ℕ} (hp : p.2 < width) (hq : q.2 < width) (h : p.1 * width + p.2 = q.1 * width + q.2) : p = q := by
  have hpos : 0 < width := Nat.zero_lt_of_lt hp
  have hrow := congrArg (· / width) h
  have hcolumn := congrArg (· % width) h
  simp only [Nat.mul_comm _ width, Nat.mul_add_div hpos, Nat.div_eq_of_lt hp, Nat.div_eq_of_lt hq, Nat.add_zero,
    Nat.mul_add_mod, Nat.mod_eq_of_lt hp, Nat.mod_eq_of_lt hq] at hrow hcolumn
  exact Prod.ext hrow hcolumn

theorem perimeter_lt (hwidth : 1 ≤ width) (hheight : 1 ≤ height) {core : ℕ}
    (hcore : core ∈ perimeter dimensions width height) :
    core < height * width := by
  rw [perimeter_eq_map hwidth, List.mem_map] at hcore
  obtain ⟨cell, hcell, rfl⟩ := hcore
  obtain ⟨hrow, hcolumn⟩ := mem_cells hwidth hheight hcell
  calc
    cell.1 * width + cell.2 < cell.1 * width + width := Nat.add_lt_add_left hcolumn _
    _ = (cell.1 + 1) * width := (Nat.succ_mul ..).symm
    _ ≤ height * width := Nat.mul_le_mul_right _ hrow

/-- With two columns, or a single row, no core is walked twice. -/
theorem cells_nodup (h : 2 ≤ width ∨ ¬ (1 < dimensions ∧ 1 < height)) : (cells dimensions width height).Nodup := by
  have hrow : ∀ r : ℕ, ((List.range width).map fun i => (r, i)).Nodup := fun r =>
    List.nodup_range.map fun _ _ heq => (Prod.mk.inj heq).2
  have hcolumn : ∀ k : ℕ, ((List.range' 1 (height - 2)).map fun i => (i, k)).Nodup := fun k =>
    (List.nodup_range' _).map fun _ _ heq => (Prod.mk.inj heq).1
  rw [cells]
  split_ifs with htall
  · simp only [List.map_reverse]
    rw [List.nodup_append', List.nodup_append', List.nodup_append', List.nodup_reverse, List.nodup_reverse]
    refine ⟨hrow 0, ⟨⟨hcolumn _, hrow _, ?_⟩, hcolumn 0, ?_⟩, ?_⟩
    all_goals
      intro cell hleft hright
      simp only [List.mem_append, List.mem_map, List.mem_range, List.mem_range'_1, List.mem_reverse] at hleft hright
    · obtain ⟨i, hi, rfl⟩ := hleft
      obtain ⟨j, hj, heq⟩ := hright
      cases heq
      omega
    · obtain ⟨j, hj, rfl⟩ := hright
      rcases hleft with ⟨i, hi, heq⟩ | ⟨i, hi, heq⟩
      · have hk := (Prod.mk.inj heq).2
        omega
      · have hk := (Prod.mk.inj heq).1
        omega
    · obtain ⟨i, hi, rfl⟩ := hleft
      rcases hright with (⟨j, hj, heq⟩ | ⟨j, hj, heq⟩) | ⟨j, hj, heq⟩
      all_goals
        have hk := (Prod.mk.inj heq).1
        omega
  · rw [List.append_nil]
    exact hrow 0

theorem perimeter_nodup (dimensions : ℕ) (hwidth : 1 ≤ width) (hheight : 1 ≤ height)
    (h : 2 ≤ width ∨ ¬ (1 < dimensions ∧ 1 < height)) :
    (perimeter dimensions width height).Nodup := by
  rw [perimeter_eq_map hwidth, List.nodup_map_iff_inj_on (cells_nodup h)]
  exact fun p hp q hq => core_inj (mem_cells hwidth hheight hp).2 (mem_cells hwidth hheight hq).2

/-- The assertion on the length of the perimeter. -/
theorem length_perimeter (hwidth : 1 ≤ width) (htall : 1 < dimensions ∧ 1 < height) :
    (perimeter dimensions width height).length = 2 * (width + height - 2) := by
  rw [perimeter, if_pos htall]
  simp only [List.length_append, List.length_range, List.length_map, List.length_range', List.length_reverse]
  omega

/-! ### A single column -/

/-- The perimeter of a single column goes down and up again. -/
theorem perimeter_column (htall : 1 < dimensions ∧ 1 < height) :
    perimeter dimensions 1 height = List.range height ++ (List.range' 1 (height - 2)).reverse := by
  obtain ⟨h, rfl⟩ : ∃ h, height = h + 2 := ⟨height - 2, by omega⟩
  have hdown : List.range (h + 2) = 0 :: List.range' 1 h ++ [h + 1] := by
    rw [List.range_succ, List.range_eq_range', List.range'_succ]
  rw [perimeter, if_pos htall, hdown]
  simp

/-- The core at a position along a single column. -/
theorem getD_column (htall : 1 < dimensions ∧ 1 < height) (hj : j < 2 * height - 2) :
    (perimeter dimensions 1 height).getD j 0 = if j < height then j else 2 * height - 2 - j := by
  rw [perimeter_column htall, List.getD_eq_getElem?_getD]
  split_ifs with hdown
  · rw [List.getElem?_append_left (by rwa [List.length_range]), List.getElem?_range hdown]
    rfl
  · rw [List.getElem?_append_right (by rw [List.length_range]; omega), List.length_range,
      List.getElem?_reverse (by rw [List.length_range']; omega), List.length_range', List.getElem?_range' (by omega)]
    simp only [Option.getD_some]
    omega

/-! ### Spacing -/

/-- The positions of two controllers are different. -/
theorem position_ne {n k l o : ℕ} (hn : n ≤ l) (hij : i < k) (hk : k < n) :
    (i * (l / n) + o) % l ≠ (k * (l / n) + o) % l := by
  intro h
  have hspacing : 1 ≤ l / n := (Nat.le_div_iff_mul_le (by omega)).2 (by omega)
  have hless : i * (l / n) < k * (l / n) := Nat.mul_lt_mul_of_pos_right hij hspacing
  have hlast : k * (l / n) < l := by
    calc
      k * (l / n) < n * (l / n) := Nat.mul_lt_mul_of_pos_right hk hspacing
      _ ≤ l := Nat.mul_div_le l n
  have hmod : i * (l / n) ≡ k * (l / n) [MOD l] := Nat.ModEq.add_right_cancel' o h
  rw [Nat.ModEq, Nat.mod_eq_of_lt (by omega), Nat.mod_eq_of_lt hlast] at hmod
  omega

/-- Two multiples below `n` of a spacing add up to the length. -/
theorem exists_opposite_iff {n s l : ℕ} (hn : 1 ≤ n) (hs : 1 ≤ s) (hle : n * s ≤ l) :
    (∃ i k, i < k ∧ k < n ∧ i * s + k * s = l) ↔ s ∣ l ∧ l / s + 3 ≤ 2 * n := by
  constructor
  · rintro ⟨i, k, hik, hk, hsum⟩
    rw [← Nat.add_mul] at hsum
    rw [← hsum, Nat.mul_div_cancel _ hs]
    exact ⟨Nat.dvd_mul_left .., by omega⟩
  · rintro ⟨⟨q, rfl⟩, hq⟩
    rw [Nat.mul_div_cancel_left _ hs] at hq
    rw [Nat.mul_comm] at hle
    have hnq : n ≤ q := Nat.le_of_mul_le_mul_left hle hs
    refine ⟨q - (n - 1), n - 1, by omega, by omega, ?_⟩
    rw [← Nat.add_mul, Nat.mul_comm]
    congr 1
    omega

/-! ### Placement -/

theorem coreCount_eq (hdims : c.computeMeshDimensions = .ok (width, height)) :
    c.coreCount = c.concentration * height * width := by
  have hchecked : ∀ {w h : ℕ}, c.checkSize w h = .ok (width, height) → c.coreCount = c.concentration * height * width := by
    intro w h hcheck
    rw [checkSize] at hcheck
    split_ifs at hcheck with hcount
    cases hcheck
    exact hcount
  rw [computeMeshDimensions] at hdims
  split at hdims
  · exact hchecked hdims
  · split_ifs at hdims
    · exact hchecked hdims
    · exact hchecked hdims

/-- The controllers are placed, and each of them is on a master. -/
theorem computeMemoryControllerPositions_eq (hdims : c.computeMeshDimensions = .ok (width, height)) (hwidth : 1 ≤ width)
    (hpos : 1 ≤ controllers) (hle : controllers ≤ (perimeter c.dimensions width height).length) :
    c.computeMemoryControllerPositions controllers = .ok
      ((List.range controllers).map (c.controllerCore (perimeter c.dimensions width height) width controllers)) := by
  rw [computeMemoryControllerPositions, hdims]
  refine (if_neg ?_).trans ((if_neg (Nat.not_lt.2 hle)).trans (if_neg (Nat.ne_of_gt hpos)))
  rintro ⟨hdimensions, htall, hlength⟩
  exact hlength (length_perimeter hwidth ⟨hdimensions, htall⟩)

theorem controllerCore_lt (hdims : c.computeMeshDimensions = .ok (width, height)) (hwidth : 1 ≤ width)
    (hheight : 1 ≤ height)
    (hpos : 1 ≤ controllers) (hle : controllers ≤ (perimeter c.dimensions width height).length) (i : ℕ) :
    c.controllerCore (perimeter c.dimensions width height) width controllers i < c.coreCount := by
  have hindex : (i * ((perimeter c.dimensions width height).length / controllers) + width / 2) %
      (perimeter c.dimensions width height).length < (perimeter c.dimensions width height).length := Nat.mod_lt _
        (by omega)
  rw [controllerCore, coreCount_eq hdims, Nat.mul_assoc, List.getD_eq_getElem _ _ hindex]
  exact Nat.mul_lt_mul_of_pos_left (perimeter_lt hwidth hheight (List.getElem_mem _)) c.concentration_pos

/-- The placement is right as soon as no two controllers are on one core. -/
theorem placesControllers_iff_forall_ne (hdims : c.computeMeshDimensions = .ok (width, height)) (hwidth : 1 ≤ width)
    (hheight : 1 ≤ height) (hpos : 1 ≤ controllers) (hle : controllers ≤ (perimeter c.dimensions width height).length) :
    c.PlacesControllers controllers ↔ ∀ i k, i < k → k < controllers →
      c.controllerCore (perimeter c.dimensions width height) width controllers i ≠
        c.controllerCore (perimeter c.dimensions width height) width controllers k := by
  rw [PlacesControllers, computeMemoryControllerPositions_eq hdims hwidth hpos hle]
  constructor
  · rintro ⟨cores, heq, -, hnodup, -⟩ i k hik hk hsame
    cases heq
    have hinj := (List.nodup_map_iff_inj_on List.nodup_range).1 hnodup
    have hindex := hinj i (List.mem_range.2 (by omega)) k (List.mem_range.2 hk) hsame
    omega
  · intro hne
    refine ⟨_, rfl, by rw [List.length_map, List.length_range], ?_, fun core hcore => ?_⟩
    · rw [List.nodup_map_iff_inj_on List.nodup_range]
      intro i hi k hk hsame
      rw [List.mem_range] at hi hk
      by_contra hik
      rcases Nat.lt_or_gt_of_ne hik with hlt | hlt
      · exact hne i k hlt hk hsame
      · exact hne k i hlt hi hsame.symm
    · obtain ⟨i, -, rfl⟩ := List.mem_map.1 hcore
      exact ⟨controllerCore_lt hdims hwidth hheight hpos hle i, Nat.mul_mod_right ..⟩

/-- On a perimeter without repetitions no two controllers are on one core. -/
theorem controllerCore_ne_of_nodup {cores : List ℕ} (hnodup : cores.Nodup) (hle : controllers ≤ cores.length) {i k : ℕ}
    (hik : i < k) (hk : k < controllers) :
    c.controllerCore cores width controllers i ≠ c.controllerCore cores width controllers k := by
  have hpos : 0 < cores.length := by omega
  intro h
  have hsame := Nat.eq_of_mul_eq_mul_left c.concentration_pos h
  rw [List.getD_eq_getElem _ _ (Nat.mod_lt _ hpos), List.getD_eq_getElem _ _ (Nat.mod_lt _ hpos),
    hnodup.getElem_inj_iff] at hsame
  exact position_ne hle hik hk hsame

/-- In a single column two controllers are on one core if they are as far before and after the turn. -/
theorem controllerCore_column_eq_iff (htall : 1 < c.dimensions ∧ 1 < height)
    (hle : controllers ≤ (perimeter c.dimensions 1 height).length) {i k : ℕ} (hik : i < k) (hk : k < controllers) :
    c.controllerCore (perimeter c.dimensions 1 height) 1 controllers i =
        c.controllerCore (perimeter c.dimensions 1 height) 1 controllers k ↔
      i * ((2 * height - 2) / controllers) + k * ((2 * height - 2) / controllers) = 2 * height - 2 := by
  have hlength : (perimeter c.dimensions 1 height).length = 2 * height - 2 := by
    rw [length_perimeter (Nat.le_refl 1) htall]
    omega
  rw [hlength] at hle
  have hspacing : 1 ≤ (2 * height - 2) / controllers := (Nat.le_div_iff_mul_le (by omega)).2 (by omega)
  have hlast : k * ((2 * height - 2) / controllers) < 2 * height - 2 := by
    calc
      k * ((2 * height - 2) / controllers) < controllers * ((2 * height - 2) / controllers) :=
        Nat.mul_lt_mul_of_pos_right hk hspacing
      _ ≤ 2 * height - 2 := Nat.mul_div_le ..
  have hless : i * ((2 * height - 2) / controllers) < k * ((2 * height - 2) / controllers) :=
    Nat.mul_lt_mul_of_pos_right hik hspacing
  rw [controllerCore, controllerCore, Nat.mul_right_inj (Nat.ne_of_gt c.concentration_pos), hlength,
    Nat.div_eq_of_lt Nat.one_lt_two, Nat.add_zero, Nat.add_zero, Nat.mod_eq_of_lt (by omega), Nat.mod_eq_of_lt hlast,
    getD_column htall (by omega), getD_column htall hlast]
  generalize i * ((2 * height - 2) / controllers) = a at *
  generalize k * ((2 * height - 2) / controllers) = b at *
  split_ifs
  all_goals omega

/-- The placement is right unless the mesh is a single column in which two controllers meet. -/
theorem controllers_placed_iff (c : MeshConfig) (width height : ℕ) (hdims : c.computeMeshDimensions = .ok (width, height))
    (hwidth : 1 ≤ width) (hheight : 1 ≤ height) (controllers : ℕ) (hpos : 1 ≤ controllers)
    (hle : controllers ≤ (perimeter c.dimensions width height).length) :
    c.PlacesControllers controllers ↔
      ¬ (width = 1 ∧ 1 < c.dimensions ∧ 1 < height ∧ MeetsItself height controllers) := by
  rw [placesControllers_iff_forall_ne hdims hwidth hheight hpos hle]
  by_cases hcolumn : width = 1 ∧ 1 < c.dimensions ∧ 1 < height
  · obtain ⟨rfl, htall⟩ := hcolumn
    have hlength : (perimeter c.dimensions 1 height).length = 2 * height - 2 := by
      rw [length_perimeter (Nat.le_refl 1) htall]
      omega
    have hmeets := exists_opposite_iff (s := (2 * height - 2) / controllers) (l := 2 * height - 2) hpos
      ((Nat.le_div_iff_mul_le (by omega)).2 (by omega)) (Nat.mul_div_le ..)
    rw [MeetsItself, ← hmeets]
    constructor
    · rintro hne ⟨-, -, -, i, k, hik, hk, hsum⟩
      exact hne i k hik hk ((controllerCore_column_eq_iff htall hle hik hk).2 hsum)
    · intro hnone i k hik hk hsame
      exact hnone ⟨rfl, htall.1, htall.2, i, k, hik, hk, (controllerCore_column_eq_iff htall hle hik hk).1 hsame⟩
  · refine iff_of_true (fun i k hik hk => ?_) fun h => hcolumn ⟨h.1, h.2.1, h.2.2.1⟩
    have hnodup := perimeter_nodup c.dimensions hwidth hheight (by omega)
    exact controllerCore_ne_of_nodup hnodup hle hik hk

/-- A mesh of two columns and three rows. -/
def sixCores : MeshConfig where
  coreCount := 6
  concentration := 1
  dimensions := 2
  size := some (2, 3)
  concentration_pos := Nat.one_pos

theorem controllers_placed_sixCores :
    sixCores.PlacesControllers 4 ↔ ¬ (2 = 1 ∧ 1 < sixCores.dimensions ∧ 1 < 3 ∧ MeetsItself 3 4) :=
  controllers_placed_iff sixCores 2 3 (by decide) (by decide) (by decide) 4 (by decide) (by decide)

/-- A mesh of one column and four rows. -/
def oneColumn : MeshConfig where
  coreCount := 4
  concentration := 1
  dimensions := 2
  size := some (1, 4)
  concentration_pos := Nat.one_pos

/-- Three controllers are put on the cores 0, 2 and 2. -/
theorem controllers_oneColumn : ¬ oneColumn.PlacesControllers 3 := by
  rintro ⟨cores, hcores, -, hnodup, -⟩
  have htwice : oneColumn.computeMemoryControllerPositions 3 = .ok [0, 2, 2] := by decide
  rw [htwice] at hcores
  cases hcores
  revert hnodup
  decide

end MeshConfig

end LifeSim.Network
