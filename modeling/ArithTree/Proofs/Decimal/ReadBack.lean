import ArithTree.Proofs.Decimal.Nearest

namespace ArithTree

namespace Window

variable {w : Window}

theorem contains_nearestMultiple? {step count : ℕ} (h : w.nearestMultiple? step = some count) :
    w.contains (count * step) := by
  simp only [nearestMultiple?] at h
  split at h
  next hbelow habove =>
    split at h <;> obtain rfl := Option.some.inj h
    · exact hbelow
    · exact habove
  next hbelow _ =>
    obtain rfl := Option.some.inj h
    exact hbelow
  next _ habove =>
    obtain rfl := Option.some.inj h
    exact habove
  next => simp at h

theorem contains_coarsest (hvalue : w.contains w.value) (power : ℕ) :
    w.contains ((w.coarsest power).1 * 10 ^ (w.coarsest power).2) := by
  induction power with
  | zero => simpa [coarsest] using hvalue
  | succ power ih =>
    rw [coarsest]
    split
    next count hcount => exact contains_nearestMultiple? hcount
    next => exact ih

end Window

namespace Binary64

variable {x : Binary64}

theorem contains_window_value (hzero : x.isZero = false) :
    x.window.contains x.window.value := by
  have hquarter := x.quarterPlace_pos
  have hsig := x.significand_pos hzero
  have hlow : x.window.low < x.window.value :=
    Nat.mul_lt_mul_of_pos_right (by split <;> omega) hquarter
  have hhigh : x.window.value < x.window.high :=
    Nat.mul_lt_mul_of_pos_right (by omega) hquarter
  simp only [Window.contains]
  split <;> simp <;> omega

-- The shortest decimal, as found in the window in units of `10 ^ -places`.
theorem shortest_mul_places :
    x.shortest.value * 10 ^ x.places =
      ((x.window.coarsest (Nat.toDigits 10 x.window.value).length).1 *
        10 ^ (x.window.coarsest (Nat.toDigits 10 x.window.value).length).2 : ℕ) :=
  Decimal.value_sub_mul _ _ _

theorem spans_shortest (hzero : x.isZero = false) :
    x.window.Spans (x.shortest.value * 10 ^ x.places) := by
  rw [shortest_mul_places, Window.spans_natCast]
  exact Window.contains_coarsest (contains_window_value hzero) _

theorem isNearest_shortest (hfinite : x.isFinite) (hzero : x.isZero = false) :
    x.IsNearest x.shortest.value :=
  (isNearest_iff_spans hfinite hzero).mpr (spans_shortest hzero)

end Binary64

end ArithTree
