import ColumnFormula.Scan.Basic

/-!
# Reachable configurations

What is said about every state of a scan is said about the configurations that steps lead to from the
initial one.  A property of the initial configuration that every step keeps holds of all of them
(`Reachable.invariant`), and so of the configuration in which the run ends (`reachable_run`).  What is
said about a scan as a whole, such as how many steps it takes, is said about the configurations that it
goes through one after the other (`Trail`).
-/

namespace ColumnFormula.Scan

/-- Steps lead from one configuration to the other. -/
inductive Reaches (s : Source) (c : Config) : Config → Prop
  | refl : Reaches s c c
  | tail {middle next : Config} :
      Reaches s c middle → step s middle = some next → Reaches s c next

/-- Steps lead to the configuration from the initial one. -/
def Reachable (s : Source) (c : Config) : Prop :=
  Reaches s (Config.initial s) c

theorem Reaches.head {s : Source} {c next last : Config} (h : step s c = some next)
    (rest : Reaches s next last) : Reaches s c last := by
  induction rest with
  | refl => exact .tail .refl h
  | tail _ hstep ih => exact .tail ih hstep

theorem Reaches.trans {s : Source} {a b c : Config} (first : Reaches s a b)
    (second : Reaches s b c) : Reaches s a c := by
  induction second with
  | refl => exact first
  | tail _ hstep ih => exact .tail ih hstep

/-- A run goes by steps. -/
theorem reaches_run (s : Source) (c : Config) : Reaches s c (run s c) := by
  fun_induction run s c with
  | case1 c h => exact .refl
  | case2 c stop outer h ih => exact .head (by simp [step, h]) ih

/-- Steps do not change where a run ends. -/
theorem Reaches.run_eq {s : Source} {a b : Config} (h : Reaches s a b) : run s a = run s b := by
  induction h with
  | refl => rfl
  | tail _ hstep ih => rw [ih, run_of_step hstep]

/-- What holds at the start and is kept by every step holds wherever steps lead. -/
theorem Reachable.invariant {s : Source} {P : Config → Prop} (start : P (Config.initial s))
    (kept : ∀ c next, P c → step s c = some next → P next) {c : Config} (h : Reachable s c) :
    P c := by
  induction h with
  | refl => exact start
  | tail _ hstep ih => exact kept _ _ ih hstep

/-- The run of a source ends in a reachable configuration. -/
theorem reachable_run (s : Source) : Reachable s (run s (Config.initial s)) :=
  reaches_run s (Config.initial s)

/-- A step reads a character of the innermost region, or leaves the region. -/
theorem step_cases {s : Source} {c next : Config} (h : step s c = some next) :
    ∃ stop outer, c.regions = stop :: outer ∧
      ((∃ character, s.charBefore stop c.position = some character ∧
          next = read s stop character c) ∨
        (s.charBefore stop c.position = none ∧ next = leave outer c)) := by
  unfold step at h
  split at h
  · cases h
  · rename_i stop outer hregions
    obtain rfl := Option.some.inj h
    refine ⟨stop, outer, hregions, ?_⟩
    unfold advance
    split
    · exact Or.inl ⟨_, ‹_›, rfl⟩
    · exact Or.inr ⟨‹_›, rfl⟩

/-! ## Trails -/

/-- Steps lead from the initial configuration to the last one, and `before` are the configurations
that they leave on the way, in order. -/
inductive Trail (s : Source) : List Config → Config → Prop
  | start : Trail s [] (Config.initial s)
  | step {before : List Config} {c next : Config} :
      Trail s before c → step s c = some next → Trail s (before ++ [c]) next

theorem Trail.reachable {s : Source} {before : List Config} {c : Config} (h : Trail s before c) :
    Reachable s c := by
  induction h with
  | start => exact .refl
  | step _ hstep ih => exact .tail ih hstep

theorem Reachable.exists_trail {s : Source} {c : Config} (h : Reachable s c) :
    ∃ before, Trail s before c := by
  induction h with
  | refl => exact ⟨[], .start⟩
  | tail _ hstep ih =>
    obtain ⟨before, hbefore⟩ := ih
    exact ⟨_, .step hbefore hstep⟩

end ColumnFormula.Scan
