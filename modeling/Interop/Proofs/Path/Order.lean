import Mathlib.Data.String.Basic
import Interop.Path

namespace Interop

namespace Component

/-- Names are ordered as texts. -/
theorem named_lt_named {a b : String} : (named a).lt (named b) = true ↔ a < b := by
  simp only [lt, decide_eq_true_eq]

theorem lt_irrefl (a : Component) : a.lt a = false := by
  cases a with
  | named name => exact decide_eq_false (lt_self_iff_false name |>.mp)
  | root => rfl
  | current => rfl
  | parent => rfl

/-- The order of components is transitive. -/
theorem lt_trans {a b c : Component} (hab : a.lt b = true) (hbc : b.lt c = true) :
    a.lt c = true := by
  cases a <;> cases b <;> cases c <;> first
    | rfl
    | exact absurd hab Bool.false_ne_true
    | exact absurd hbc Bool.false_ne_true
    | exact named_lt_named.mpr ((named_lt_named.mp hab).trans (named_lt_named.mp hbc))

/-- Two components of which neither comes first are equal. -/
theorem eq_of_not_lt {a b : Component} (hab : a.lt b = false) (hba : b.lt a = false) : a = b := by
  cases a with
  | named a =>
    cases b with
    | named b =>
      rw [← Bool.not_eq_true, named_lt_named, not_lt] at hab hba
      rw [le_antisymm hba hab]
    | root => cases hba
    | current => cases hba
    | parent => cases hba
  | root | current | parent =>
    cases b <;> first
      | rfl
      | exact absurd hab Bool.false_ne_true.symm
      | exact absurd hba Bool.false_ne_true.symm

end Component

namespace Path

theorem not_componentsLt_nil (as : List Component) : componentsLt as [] = false := by
  cases as with
  | nil => rfl
  | cons a as => rfl

theorem nil_componentsLt (b : Component) (bs : List Component) : componentsLt [] (b :: bs) = true :=
  rfl

/-- Paths are compared at the first component in which they differ. -/
theorem componentsLt_cons (a b : Component) (as bs : List Component) :
    componentsLt (a :: as) (b :: bs) = if a = b then componentsLt as bs else a.lt b :=
  rfl

theorem componentsLt_irrefl (as : List Component) : componentsLt as as = false := by
  induction as with
  | nil => rfl
  | cons a as ih => rw [componentsLt_cons, if_pos rfl, ih]

/-- The order of paths is transitive. -/
theorem componentsLt_trans {as bs cs : List Component} (hab : componentsLt as bs = true)
    (hbc : componentsLt bs cs = true) : componentsLt as cs = true := by
  induction as generalizing bs cs with
  | nil =>
    cases cs with
    | nil =>
      rw [not_componentsLt_nil] at hbc
      cases hbc
    | cons c cs => exact nil_componentsLt c cs
  | cons a as ih =>
    cases bs with
    | nil =>
      rw [not_componentsLt_nil] at hab
      cases hab
    | cons b bs =>
      cases cs with
      | nil =>
        rw [not_componentsLt_nil] at hbc
        cases hbc
      | cons c cs =>
        rw [componentsLt_cons] at hab hbc ⊢
        by_cases hab' : a = b
        · subst hab'
          by_cases hac : a = c
          · subst hac
            simp only [if_true] at hab hbc ⊢
            exact ih hab hbc
          · simpa only [if_neg hac] using hbc
        · simp only [if_neg hab'] at hab
          by_cases hbc' : b = c
          · subst hbc'
            simpa only [if_neg hab'] using hab
          · simp only [if_neg hbc'] at hbc
            have hac : a.lt c = true := Component.lt_trans hab hbc
            have hne : a ≠ c := by
              intro heq
              rw [heq, Component.lt_irrefl] at hac
              cases hac
            simpa only [if_neg hne] using hac

/-- Two lists of components of which neither comes first are equal. -/
theorem eq_of_not_componentsLt {as bs : List Component} (hab : componentsLt as bs = false)
    (hba : componentsLt bs as = false) : as = bs := by
  induction as generalizing bs with
  | nil =>
    cases bs with
    | nil => rfl
    | cons b bs =>
      rw [nil_componentsLt] at hab
      cases hab
  | cons a as ih =>
    cases bs with
    | nil =>
      rw [nil_componentsLt] at hba
      cases hba
    | cons b bs =>
      rw [componentsLt_cons] at hab hba
      by_cases heq : a = b
      · subst heq
        rw [if_pos rfl] at hab hba
        rw [ih hab hba]
      · rw [if_neg heq] at hab
        rw [if_neg (Ne.symm heq)] at hba
        exact absurd (Component.eq_of_not_lt hab hba) heq

/-- No path comes before itself. -/
theorem before_irrefl (p : Path) : p.before p = false :=
  componentsLt_irrefl p.components

/-- The order of paths is transitive. -/
theorem before_trans {p q r : Path} (hpq : p.before q = true) (hqr : q.before r = true) :
    p.before r = true :=
  componentsLt_trans hpq hqr

/-- No two paths come before each other. -/
theorem before_asymm {p q : Path} (hpq : p.before q = true) : q.before p = false := by
  cases hqp : q.before p with
  | false => rfl
  | true =>
    have hpp := before_trans hpq hqp
    rw [before_irrefl] at hpp
    cases hpp

/-- Paths are the same if their components are, however they are written. -/
theorem same_iff {p q : Path} : p.same q = true ↔ p.components = q.components := by
  simp [same]

/-- Paths that are not the same are ordered one way or the other. -/
theorem same_of_not_before {p q : Path} (hpq : p.before q = false) (hqp : q.before p = false) :
    p.same q = true :=
  same_iff.mpr (eq_of_not_componentsLt hpq hqp)

/-- Paths that are the same do not come before each other. -/
theorem not_before_of_same {p q : Path} (h : p.same q = true) : p.before q = false := by
  rw [before, same_iff.mp h]
  exact componentsLt_irrefl q.components

/-- Not coming before is passed on: if `q` does not come before `p` nor `r` before `q`, then `r`
does not come before `p`. -/
theorem not_before_trans {p q r : Path} (hqp : q.before p = false) (hrq : r.before q = false) :
    r.before p = false := by
  cases hrp : r.before p with
  | false => rfl
  | true =>
    cases hpq : p.before q with
    | true => rw [before_trans hrp hpq] at hrq; cases hrq
    | false =>
      have heq : q.components = p.components := eq_of_not_componentsLt hqp hpq
      rw [before, heq] at hrq
      exact hrp.symm.trans hrq

end Path

end Interop
