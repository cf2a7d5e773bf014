import Mathlib.Data.Finite.Defs
import Mathlib.Data.Fintype.Pigeonhole
import Mathlib.Data.Set.Finite.List
import Mathlib.Logic.Relation
import Mathlib.Order.WellFounded

/-! Relations with finitely many sources, in which a descent without end runs into a cycle. -/
namespace Pggat.Base
open Relation
variable {α : Type} {R : α → α → Prop}

private theorem not_self_of_acc {r : α → α → Prop} {x : α} (h : Acc r x) : ¬ r x x := by
  induction h with
  | intro x _ ih => exact fun hx => ih x hx hx

private theorem transGen_of_chain {f : Nat → α} (h : ∀ n, R (f n) (f (n + 1))) {i j : Nat} (hij : i < j) :
    TransGen R (f i) (f j) := by
  induction hij with
  | refl => exact .single (h i)
  | step _ ih => exact ih.tail (h _)

/-- Every descent from an element ends exactly when it reaches no cycle. -/
theorem acc_iff_no_cycle {l : List α} (sources : ∀ p q, R p q → p ∈ l) (x : α) :
    Acc (fun q p => R p q) x ↔ ¬ ∃ y, ReflTransGen R x y ∧ TransGen R y y := by
  constructor
  · rintro h ⟨y,hxy,hyy⟩
    have hy : Acc (fun q p => R p q) y := by
      clear hyy
      induction hxy with
      | refl => exact h
      | tail _ step ih => exact ih.inv step
    exact not_self_of_acc hy.transGen (transGen_swap.mpr hyy)
  · intro h
    by_contra hacc
    obtain ⟨f,hf0,hf⟩ := not_acc_iff_exists_descending_chain.mp hacc
    have : Finite {p // p ∈ l} := l.finite_toSet
    obtain ⟨i,j,hne,heq⟩ := Finite.exists_ne_map_eq_of_infinite fun n => (⟨f n,sources _ _ (hf n)⟩ : {p // p ∈ l})
    rw [Subtype.mk.injEq] at heq
    have reach (n : Nat) : ReflTransGen R x (f n) := by
      rw [← hf0]
      rcases Nat.eq_zero_or_pos n with rfl | hn
      · exact .refl
      · exact (transGen_of_chain hf hn).to_reflTransGen
    rcases Nat.lt_or_gt_of_ne hne with hij | hij
    · have cycle := transGen_of_chain hf hij
      rw [heq] at cycle
      exact h ⟨f j,reach j,cycle⟩
    · have cycle := transGen_of_chain hf hij
      rw [← heq] at cycle
      exact h ⟨f i,reach i,cycle⟩

end Pggat.Base
