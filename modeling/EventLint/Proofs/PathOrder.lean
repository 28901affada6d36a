import EventLint.Path
import Mathlib.Data.List.Lex
import Mathlib.Data.Char
import Mathlib.Data.Prod.Lex

/-!
# The order of paths

Main statement: a list of paths that is sorted and of which neighbours with the same components are
dropped holds every list of components at most once, and none is lost.
-/

namespace EventLint

namespace Component

/-- Components are compared by their sort first, and names then by their text. -/
def key : Component → ℕ ×ₗ List Char
  | name text => toLex (3, text)
  | c => toLex (c.rank, [])

theorem key_injective : Function.Injective key := by
  intro a b h
  cases a <;> cases b <;> simp_all [key, rank]

theorem before_iff (a b : Component) : a.before b = true ↔ a.key < b.key := by
  cases a <;> cases b <;> simp [before, key, rank, Prod.Lex.toLex_lt_toLex]

end Component

namespace Path

open Component

/-- Lists of components are compared like words in a dictionary. -/
theorem leAll_iff (as bs : List Component) :
    leAll as bs = true ↔ ¬ bs.map key < as.map key := by
  induction as generalizing bs with
  | nil => simp [leAll]
  | cons a as ih =>
    cases bs with
    | nil => simp [leAll]
    | cons b bs =>
      rw [leAll, List.map_cons, List.map_cons, List.cons_lt_cons_iff]
      by_cases hab : a = b
      · rw [if_pos hab, ih, hab]
        simp
      · have hkey : a.key ≠ b.key := key_injective.ne hab
        rw [if_neg hab, before_iff, not_or, not_and_or, not_lt]
        exact ⟨fun h => ⟨h.le, Or.inl hkey.symm⟩, fun h => lt_of_le_of_ne h.1 hkey⟩

/-- The first path comes before the second and differs from it. -/
def Precedes (a b : String) : Prop :=
  le a b = true ∧ components a ≠ components b

theorem le_of_le_of_le (a b c : String) (hab : le a b = true) (hbc : le b c = true) :
    le a c = true := by
  rw [le, leAll_iff, not_lt] at *
  exact hab.trans hbc

theorem le_or_le (a b : String) : (le a b || le b a) = true := by
  rw [Bool.or_eq_true, le, le, leAll_iff, leAll_iff, not_lt, not_lt]
  exact le_total _ _

theorem components_eq_of_le {a b : String} (hab : le a b = true) (hba : le b a = true) :
    components a = components b := by
  rw [le, leAll_iff, not_lt] at hab hba
  exact key_injective.list_map (le_antisymm hab hba)

theorem mem_of_mem_dropRepeats {paths : List String} {p : String} (h : p ∈ dropRepeats paths) :
    p ∈ paths := by
  induction paths with
  | nil => cases h
  | cons a rest ih =>
    rw [dropRepeats] at h
    split at h
    · exact List.mem_cons.2 (Or.inl (List.mem_singleton.1 h))
    · rename_i b others hrest
      rw [hrest] at ih
      split at h
      · exact List.mem_cons.2 ((List.mem_cons.1 h).imp_right fun h => ih (List.mem_cons_of_mem b h))
      · exact List.mem_cons.2 ((List.mem_cons.1 h).imp_right ih)

/-- Of every path one with the same components remains. -/
theorem exists_mem_dropRepeats {paths : List String} {p : String} (h : p ∈ paths) :
    ∃ q ∈ dropRepeats paths, components q = components p := by
  induction paths with
  | nil => cases h
  | cons a rest ih =>
    rw [dropRepeats]
    cases hrest : dropRepeats rest with
    | nil =>
      rcases List.mem_cons.1 h with rfl | h
      · exact ⟨p, List.mem_singleton_self p, rfl⟩
      · obtain ⟨q, hq, -⟩ := ih h
        rw [hrest] at hq
        cases hq
    | cons b others =>
      rw [hrest] at ih
      dsimp only
      split
      · rename_i hab
        rcases List.mem_cons.1 h with rfl | h
        · exact ⟨p, List.mem_cons_self, rfl⟩
        · -- `a` stands for its neighbour too
          obtain ⟨q, hq, hqp⟩ := ih h
          rcases List.mem_cons.1 hq with rfl | hq
          · exact ⟨a, List.mem_cons_self, hab.trans hqp⟩
          · exact ⟨q, List.mem_cons_of_mem a hq, hqp⟩
      · rcases List.mem_cons.1 h with rfl | h
        · exact ⟨p, List.mem_cons_self, rfl⟩
        · obtain ⟨q, hq, hqp⟩ := ih h
          exact ⟨q, List.mem_cons_of_mem a hq, hqp⟩

/-- Of a sorted list no two paths with the same components remain. -/
theorem pairwise_dropRepeats {paths : List String} (h : paths.Pairwise fun a b => le a b = true) :
    (dropRepeats paths).Pairwise Precedes := by
  induction paths with
  | nil => exact .nil
  | cons a rest ih =>
    obtain ⟨hfirst, hrest⟩ := List.pairwise_cons.1 h
    have hkept := ih hrest
    have hle : ∀ p ∈ dropRepeats rest, le a p = true := fun p hp =>
      hfirst p (mem_of_mem_dropRepeats hp)
    rw [dropRepeats]
    cases hb : dropRepeats rest with
    | nil => exact List.pairwise_singleton ..
    | cons b others =>
      rw [hb] at hkept hle
      obtain ⟨hnext, hothers⟩ := List.pairwise_cons.1 hkept
      dsimp only
      split
      · rename_i hab
        refine .cons (fun p hp => ⟨hle p (List.mem_cons_of_mem b hp), ?_⟩) hothers
        exact hab ▸ (hnext p hp).2
      · rename_i hab
        refine .cons (fun p hp => ⟨hle p hp, ?_⟩) hkept
        rcases List.mem_cons.1 hp with rfl | hp'
        · exact hab
        · -- a path behind `b` with the components of `a` would put `b` in front of `a`
          intro hap
          refine hab (components_eq_of_le (hle b List.mem_cons_self) ?_)
          rw [le, hap]
          exact (hnext p hp').1

/-- Paths that are sorted and freed of repetitions follow each other strictly. -/
theorem pairwise_dropRepeats_mergeSort (paths : List String) :
    (dropRepeats (paths.mergeSort le)).Pairwise Precedes :=
  pairwise_dropRepeats (List.pairwise_mergeSort le_of_le_of_le le_or_le paths)

end Path

end EventLint
