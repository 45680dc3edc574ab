/-!
# Runs of positions

Every reader of the scanner goes forward from where it stands while the character under it
qualifies, and stops at the latest where its region ends.  `runEnd` is that movement on bare
positions.  Its laws say that it never goes back, never passes the end, that every position it went
over qualifies, and that the one it stopped at does not.
-/

namespace ColumnFormula.Text

/-- The first position at or after `start` that fails `p`, or `stop` if none before it does. -/
def runEnd (p : Nat → Bool) (start stop : Nat) : Nat :=
  if start < stop ∧ p start = true then runEnd p (start + 1) stop else start
termination_by stop - start

theorem le_runEnd (p : Nat → Bool) (start stop : Nat) : start ≤ runEnd p start stop := by
  fun_induction runEnd p start stop with
  | case1 start _ ih => omega
  | case2 start _ => exact Nat.le_refl start

theorem runEnd_le {p : Nat → Bool} {start stop : Nat} (h : start ≤ stop) :
    runEnd p start stop ≤ stop := by
  fun_induction runEnd p start stop with
  | case1 start hs ih => exact ih hs.1
  | case2 start _ => exact h

theorem runEnd_holds {p : Nat → Bool} {start stop i : Nat} (hi : start ≤ i)
    (hlt : i < runEnd p start stop) : p i = true := by
  fun_induction runEnd p start stop with
  | case1 start hs ih =>
    rcases Nat.eq_or_lt_of_le hi with rfl | hlt'
    · exact hs.2
    · exact ih hlt' hlt
  | case2 start _ => omega

theorem runEnd_fails {p : Nat → Bool} {start stop : Nat} (h : runEnd p start stop < stop) :
    p (runEnd p start stop) = false := by
  fun_induction runEnd p start stop with
  | case1 start _ ih => exact ih h
  | case2 start hs =>
    simp only [not_and, Bool.not_eq_true] at hs
    exact hs h

/-- A run that starts on a qualifying position covers it. -/
theorem lt_runEnd {p : Nat → Bool} {start stop : Nat} (h : start < stop) (hp : p start = true) :
    start < runEnd p start stop := by
  rw [runEnd, if_pos ⟨h, hp⟩]
  exact le_runEnd p (start + 1) stop

/-- The laws determine the movement. -/
theorem runEnd_eq {p : Nat → Bool} {start stop e : Nat} (hle : start ≤ e) (hstop : e ≤ stop)
    (hp : ∀ i, start ≤ i → i < e → p i = true) (hf : e < stop → p e = false) :
    runEnd p start stop = e := by
  rcases Nat.lt_trichotomy (runEnd p start stop) e with h | h | h
  · have hlt : runEnd p start stop < stop := by omega
    have := hp _ (le_runEnd p start stop) h
    simp [runEnd_fails hlt] at this
  · exact h
  · have hle' := runEnd_le (p := p) (Nat.le_trans hle hstop)
    have := runEnd_holds hle h
    simp [hf (by omega)] at this

end ColumnFormula.Text
