import Stencil.Decimal
import Mathlib.Tactic.Ring

namespace Stencil

namespace Decimal

-- The number itself, in the unit that makes it comparable with the points of a grid.
def value (x : Magnitude) (grid : Int) : Nat :=
  scaled x grid (4 * x.mantissa)

-- The last point of the grid that is not above the number, and how far below it is.
def below (x : Magnitude) (grid : Int) : Nat :=
  value x grid / step x grid

def toBelow (x : Magnitude) (grid : Int) : Nat :=
  value x grid % step x grid

-- How far from the number a point of the grid is.
def distance (x : Magnitude) (grid : Int) (digits : Nat) : Nat :=
  (digits * step x grid - value x grid) + (value x grid - digits * step x grid)

variable {x : Magnitude} {grid : Int} {digits other : Nat} {d : Decimal}

section Interval

theorem power_pos {base : Nat} (h : 0 < base) (n : Int) : 0 < power base n :=
  Nat.pow_pos h

theorem scaled_lt_scaled {first second : Nat} (h : first < second) :
    scaled x grid first < scaled x grid second := by
  have htwo : 0 < power 2 (x.exponent - 2) := power_pos (by decide) _
  have hten : 0 < power 10 (-grid) := power_pos (by decide) _
  exact Nat.mul_lt_mul_of_pos_right (Nat.mul_lt_mul_of_pos_right h htwo) hten

theorem value_lt_high (x : Magnitude) (grid : Int) : value x grid < scaled x grid x.high :=
  scaled_lt_scaled (by simp only [Magnitude.high]; omega)

theorem low_lt_value (hpos : 0 < x.mantissa) (grid : Int) : scaled x grid x.low < value x grid := by
  apply scaled_lt_scaled
  unfold Magnitude.low
  split <;> omega

theorem readsBack_iff : readsBack x grid digits = true ↔
    (scaled x grid x.low < digits * step x grid ∨
      x.closed = true ∧ scaled x grid x.low = digits * step x grid) ∧
    (digits * step x grid < scaled x grid x.high ∨
      x.closed = true ∧ digits * step x grid = scaled x grid x.high) := by
  simp [readsBack]

theorem readsBack_of_eq_value (hpos : 0 < x.mantissa) (h : digits * step x grid = value x grid) :
    readsBack x grid digits = true := by
  have hlow := low_lt_value hpos grid
  have hhigh := value_lt_high x grid
  exact readsBack_iff.mpr ⟨.inl (by omega), .inl (by omega)⟩

-- Between a point that reads back and the number every point reads back.
theorem readsBack_of_le_value (h : readsBack x grid digits = true) (hle : digits ≤ other)
    (hvalue : other * step x grid ≤ value x grid) : readsBack x grid other = true := by
  have hhigh := value_lt_high x grid
  have hmul := Nat.mul_le_mul_right (step x grid) hle
  obtain ⟨hlow, -⟩ := readsBack_iff.mp h
  refine readsBack_iff.mpr ⟨?_, .inl (by omega)⟩
  by_cases heq : digits * step x grid = other * step x grid
  · rwa [← heq]
  · exact .inl (by omega)

theorem readsBack_of_value_le (hpos : 0 < x.mantissa) (h : readsBack x grid digits = true)
    (hle : other ≤ digits) (hvalue : value x grid ≤ other * step x grid) :
    readsBack x grid other = true := by
  have hlow := low_lt_value hpos grid
  have hmul := Nat.mul_le_mul_right (step x grid) hle
  obtain ⟨-, hhigh⟩ := readsBack_iff.mp h
  refine readsBack_iff.mpr ⟨.inl (by omega), ?_⟩
  by_cases heq : other * step x grid = digits * step x grid
  · rwa [heq]
  · exact .inl (by omega)

end Interval

section Grid

theorem step_pos (x : Magnitude) (grid : Int) : 0 < step x grid :=
  Nat.mul_pos (power_pos (by decide) _) (power_pos (by decide) _)

theorem toBelow_lt (x : Magnitude) (grid : Int) : toBelow x grid < step x grid :=
  Nat.mod_lt _ (step_pos x grid)

theorem value_eq (x : Magnitude) (grid : Int) :
    value x grid = below x grid * step x grid + toBelow x grid := by
  rw [Nat.mul_comm]
  exact (Nat.div_add_mod _ _).symm

-- A point that reads back lies below the number or above it, and so does a neighbour of the number there.
theorem readsBack_below_or_above (hpos : 0 < x.mantissa) (h : readsBack x grid digits = true) :
    (digits ≤ below x grid ∧ readsBack x grid (below x grid) = true) ∨
      (below x grid + 1 ≤ digits ∧ readsBack x grid (below x grid + 1) = true) := by
  have hvalue := value_eq x grid
  have hrest := toBelow_lt x grid
  rcases Nat.lt_or_ge (below x grid) digits with hlt | hge
  · refine .inr ⟨hlt, readsBack_of_value_le hpos h hlt ?_⟩
    rw [Nat.succ_mul]
    omega
  · exact .inl ⟨hge, readsBack_of_le_value h hge (by omega)⟩

theorem toBelow_le_distance (h : digits ≤ below x grid) : toBelow x grid ≤ distance x grid digits := by
  have hvalue := value_eq x grid
  have hmul := Nat.mul_le_mul_right (step x grid) h
  unfold distance
  omega

theorem toAbove_le_distance (h : below x grid + 1 ≤ digits) :
    step x grid ≤ toBelow x grid + distance x grid digits := by
  have hvalue := value_eq x grid
  have hrest := toBelow_lt x grid
  have hmul := Nat.mul_le_mul_right (step x grid) h
  rw [Nat.succ_mul] at hmul
  unfold distance
  omega

theorem distance_below (x : Magnitude) (grid : Int) :
    distance x grid (below x grid) = toBelow x grid := by
  have hvalue := value_eq x grid
  unfold distance
  omega

theorem distance_above (x : Magnitude) (grid : Int) :
    distance x grid (below x grid + 1) + toBelow x grid = step x grid := by
  have hvalue := value_eq x grid
  have hrest := toBelow_lt x grid
  rw [distance, Nat.succ_mul]
  omega

-- Both neighbours of the number are looked at.
theorem onGrid?_eq (x : Magnitude) (grid : Int) : onGrid? x grid =
    if readsBack x grid (below x grid + 1) &&
        (!readsBack x grid (below x grid) || step x grid ≤ 2 * toBelow x grid) then
      some ⟨below x grid + 1, grid⟩
    else if readsBack x grid (below x grid) then some ⟨below x grid, grid⟩
    else none := rfl

-- The upper neighbour is taken when it reads back and the lower one does not, or is no nearer.
theorem onGrid?_cases (h : onGrid? x grid = some d) :
    (d = ⟨below x grid + 1, grid⟩ ∧ readsBack x grid (below x grid + 1) = true ∧
      (readsBack x grid (below x grid) = true → step x grid ≤ 2 * toBelow x grid)) ∨
    (d = ⟨below x grid, grid⟩ ∧ readsBack x grid (below x grid) = true ∧
      (readsBack x grid (below x grid + 1) = true → 2 * toBelow x grid < step x grid)) := by
  rw [onGrid?_eq] at h
  split_ifs at h with hup hdown <;> cases h
  · simp only [Bool.and_eq_true, Bool.or_eq_true, Bool.not_eq_true', decide_eq_true_eq] at hup
    exact .inl ⟨rfl, hup.1, fun hread => hup.2.resolve_left (by simp [hread])⟩
  · refine .inr ⟨rfl, hdown, fun hread => ?_⟩
    simpa [hread, hdown] using hup

-- No other point of the grid that reads back is nearer to the number.
theorem onGrid?_eq_some (hpos : 0 < x.mantissa) (h : onGrid? x grid = some d) :
    d.exponent = grid ∧ readsBack x grid d.digits = true ∧
      ∀ other, readsBack x grid other = true → distance x grid d.digits ≤ distance x grid other := by
  have hbelow := distance_below x grid
  have habove := distance_above x grid
  rcases onGrid?_cases h with ⟨rfl, hread, hhalf⟩ | ⟨rfl, hread, hhalf⟩
  · refine ⟨rfl, hread, fun other hother => ?_⟩
    dsimp only
    rcases readsBack_below_or_above hpos hother with ⟨hle, hlower⟩ | ⟨hle, -⟩
    · have := toBelow_le_distance hle
      have := hhalf hlower
      omega
    · have := toAbove_le_distance hle
      omega
  · refine ⟨rfl, hread, fun other hother => ?_⟩
    dsimp only
    rcases readsBack_below_or_above hpos hother with ⟨hle, -⟩ | ⟨hle, hupper⟩
    · have := toBelow_le_distance hle
      omega
    · have := toAbove_le_distance hle
      have := hhalf hupper
      omega

-- Of two points equally near it is the upper one.
theorem le_digits_of_onGrid?_eq_some (hpos : 0 < x.mantissa) (h : onGrid? x grid = some d)
    (hother : readsBack x grid other = true)
    (heq : distance x grid other = distance x grid d.digits) : other ≤ d.digits := by
  have hbelow := distance_below x grid
  have habove := distance_above x grid
  rcases onGrid?_cases h with ⟨rfl, -, -⟩ | ⟨rfl, -, hhalf⟩
  · dsimp only at heq ⊢
    by_contra hlt
    have hrest := toBelow_lt x grid
    have hvalue := value_eq x grid
    have hmul := Nat.mul_le_mul_right (step x grid) (Nat.lt_of_not_le hlt)
    simp only [Nat.succ_mul] at hmul
    unfold distance at heq habove
    rw [Nat.succ_mul] at heq habove
    omega
  · dsimp only at heq ⊢
    rcases readsBack_below_or_above hpos hother with ⟨hle, -⟩ | ⟨hle, hupper⟩
    · exact hle
    · have := toAbove_le_distance hle
      have := hhalf hupper
      omega

theorem not_readsBack_of_onGrid?_eq_none (hpos : 0 < x.mantissa) (h : onGrid? x grid = none)
    (digits : Nat) : readsBack x grid digits = false := by
  rw [onGrid?_eq] at h
  split_ifs at h with hup hdown
  rw [Bool.not_eq_true] at hdown
  by_contra hread
  rcases readsBack_below_or_above hpos (Bool.eq_true_of_not_eq_false hread) with ⟨-, hread⟩ | ⟨-, hread⟩
  · exact absurd hread (Bool.eq_false_iff.mp hdown)
  · exact hup (by rw [hread, hdown]; rfl)

end Grid

section Shortest

-- What stands where no point was found is the number itself.
theorem exact_mul_step (x : Magnitude) :
    x.mantissa * power 2 x.exponent * power 5 (-x.exponent) * step x (min x.exponent 0) =
      value x (min x.exponent 0) := by
  have hten : ∀ n, (10 : Nat) ^ n = 2 ^ n * 5 ^ n := fun n => Nat.mul_pow 2 5 n
  simp only [value, scaled, step, power, Nat.pow_eq]
  rcases Int.lt_or_le x.exponent 0 with hneg | hnonneg
  · obtain ⟨n, hn⟩ : ∃ n : Nat, x.exponent = -(n : Int) := ⟨(-x.exponent).toNat, by omega⟩
    have hmin : min x.exponent 0 = x.exponent := by omega
    have hup : (2 - x.exponent).toNat = n + 2 := by omega
    have hback : (-x.exponent).toNat = n := by omega
    have hzero : x.exponent.toNat = 0 ∧ (x.exponent - 2).toNat = 0 := by omega
    rw [hmin, hup, hback, hzero.1, hzero.2, hten n]
    ring
  · have hmin : min x.exponent 0 = 0 := by omega
    have hback : (-x.exponent).toNat = 0 := by omega
    have htwo : x.exponent.toNat + (2 - x.exponent).toNat = (x.exponent - 2).toNat + 2 := by omega
    have hpow : (2 : Nat) ^ x.exponent.toNat * 2 ^ (2 - x.exponent).toNat = 2 ^ (x.exponent - 2).toNat * 4 := by
      rw [← Nat.pow_add, htwo, Nat.pow_add]
    rw [hmin, hback, Int.neg_zero, Int.toNat_zero]
    calc
      x.mantissa * 2 ^ x.exponent.toNat * 5 ^ 0 * (10 ^ 0 * 2 ^ (2 - x.exponent).toNat) =
          x.mantissa * (2 ^ x.exponent.toNat * 2 ^ (2 - x.exponent).toNat) := by ring
      _ = 4 * x.mantissa * 2 ^ (x.exponent - 2).toNat * 10 ^ 0 := by
        rw [hpow]
        ring

-- The grids are looked at from the coarsest on, until one has a point that reads back.
theorem shortest_cases (x : Magnitude) :
    (∃ n : Nat, n < 22 ∧ onGrid? x (coarsest x - n) = some (shortest x) ∧
      ∀ k < n, onGrid? x (coarsest x - k) = none) ∨
      ((∀ n : Nat, n < 22 → onGrid? x (coarsest x - n) = none) ∧ shortest x =
        ⟨x.mantissa * power 2 x.exponent * power 5 (-x.exponent), min x.exponent 0⟩) := by
  unfold shortest
  simp only
  cases hfound : (List.range 22).findSome? fun (n : Nat) => onGrid? x (coarsest x - (n : Int)) with
  | none =>
      rw [List.findSome?_eq_none_iff] at hfound
      exact .inr ⟨fun n hn => hfound n (List.mem_range.mpr hn), rfl⟩
  | some d =>
      obtain ⟨front, n, behind, hrange, hn, hfront⟩ := List.findSome?_eq_some_iff.mp hfound
      have hlt : n < 22 := List.mem_range.mp (by simp [hrange])
      have hsorted := (hrange ▸ List.pairwise_lt_range : (front ++ n :: behind).Pairwise (· < ·))
      have hbehind : ∀ later ∈ n :: behind, n ≤ later := by
        have hlater := (List.pairwise_cons.mp (List.pairwise_append.mp hsorted).2.1).1
        exact List.forall_mem_cons.mpr ⟨Nat.le_refl n, fun later hmem => (hlater later hmem).le⟩
      refine .inl ⟨n, hlt, hn, fun k hk => hfront k ?_⟩
      have hmem : k ∈ front ++ n :: behind := hrange ▸ List.mem_range.mpr (hk.trans hlt)
      rcases List.mem_append.mp hmem with hmem | hmem
      · exact hmem
      · exact absurd (hbehind k hmem) (not_le.mpr hk)

theorem readsBack_shortest (hpos : 0 < x.mantissa) :
    readsBack x (shortest x).exponent (shortest x).digits = true := by
  rcases shortest_cases x with ⟨n, -, hfound, -⟩ | ⟨-, hexact⟩
  · obtain ⟨hexponent, hread, -⟩ := onGrid?_eq_some hpos hfound
    rwa [hexponent]
  · rw [hexact]
    exact readsBack_of_eq_value hpos (exact_mul_step x)

-- Of the grids that are looked at no coarser one has a point that reads back.
theorem not_readsBack_of_shortest_lt (hpos : 0 < x.mantissa) (hle : grid ≤ coarsest x)
    (hlooked : coarsest x - 22 < grid) (hlt : (shortest x).exponent < grid) (digits : Nat) :
    readsBack x grid digits = false := by
  obtain ⟨k, hk⟩ : ∃ k : Nat, grid = coarsest x - k := ⟨(coarsest x - grid).toNat, by omega⟩
  subst hk
  apply not_readsBack_of_onGrid?_eq_none hpos
  rcases shortest_cases x with ⟨n, -, hfound, hnone⟩ | ⟨hnone, -⟩
  · obtain ⟨hexponent, -, -⟩ := onGrid?_eq_some hpos hfound
    exact hnone k (by omega)
  · exact hnone k (by omega)

theorem shortest_nearest (hpos : 0 < x.mantissa)
    (hread : readsBack x (shortest x).exponent digits = true) :
    distance x (shortest x).exponent (shortest x).digits ≤ distance x (shortest x).exponent digits := by
  rcases shortest_cases x with ⟨n, -, hfound, -⟩ | ⟨-, hexact⟩
  · obtain ⟨hexponent, -, hnearest⟩ := onGrid?_eq_some hpos hfound
    rw [hexponent] at hread ⊢
    exact hnearest digits hread
  · rw [hexact, distance, exact_mul_step, Nat.sub_self]
    exact Nat.zero_le _

theorem le_digits_shortest (hpos : 0 < x.mantissa)
    (hread : readsBack x (shortest x).exponent digits = true)
    (heq : distance x (shortest x).exponent digits =
      distance x (shortest x).exponent (shortest x).digits) : digits ≤ (shortest x).digits := by
  rcases shortest_cases x with ⟨n, -, hfound, -⟩ | ⟨-, hexact⟩
  · obtain ⟨hexponent, -, -⟩ := onGrid?_eq_some hpos hfound
    rw [hexponent] at hread heq
    exact le_digits_of_onGrid?_eq_some hpos hfound hread heq
  · rw [hexact] at heq ⊢
    simp only [distance, exact_mul_step] at heq
    refine Nat.le_of_mul_le_mul_right ?_ (step_pos x (min x.exponent 0))
    rw [exact_mul_step]
    omega

end Shortest

end Decimal

end Stencil
