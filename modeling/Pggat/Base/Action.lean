import Mathlib.Logic.Function.Basic

/-! Computations on a state that may fail and keep the state they reached. -/
namespace Pggat.Base

def Action (F σ α : Type) : Type := σ → Except F α × σ

namespace Action
variable {F σ α β : Type}

instance : Monad (Action F σ) where
  pure a := fun s => (.ok a,s)
  bind m f := fun s =>
    match m s with
    | (.ok a,s) => f a s
    | (.error e,s) => (.error e,s)

theorem bind_assoc {γ : Type} (m : Action F σ α) (f : α → Action F σ β) (g : β → Action F σ γ) :
    m >>= f >>= g = m >>= fun a => f a >>= g := by
  funext s
  change (match (match m s with
      | (.ok a,s) => f a s
      | (.error e,s) => (.error e,s)) with
    | (.ok b,s) => g b s
    | (.error e,s) => (.error e,s)) = match m s with
      | (.ok a,s) => (f a >>= g) s
      | (.error e,s) => (.error e,s)
  rcases m s with ⟨_ | a,s'⟩
  · rfl
  · rfl

def throw (f : F) : Action F σ α := fun s => (.error f,s)

variable {m : Action F σ α} {f : α → Action F σ β} {s s' : σ} {a : α}

theorem bind_ok (h : m s = (.ok a,s')) :
    (m >>= f) s = f a s' := by
  have hb : (m >>= f) s = match m s with
      | (.ok a,s) => f a s
      | (.error e,s) => (.error e,s) := rfl
  rw [hb,h]

theorem bind_error {e : F} (h : m s = (.error e,s')) :
    (m >>= f) s = (.error e,s') := by
  have hb : (m >>= f) s = match m s with
      | (.ok a,s) => f a s
      | (.error e,s) => (.error e,s) := rfl
  rw [hb,h]

theorem map_apply (f : α → β) (m : Action F σ α) (s : σ) : (f <$> m) s = ((m s).1.map f,(m s).2) := by
  show (m >>= fun a => pure (f a)) s = _
  rcases hm : m s with ⟨e | a,s'⟩
  · exact bind_error hm
  · exact bind_ok hm

theorem bind_ok_inv {b : β} (h : (m >>= f) s = (.ok b,s')) :
    ∃ a t, m s = (.ok a,t) ∧ f a t = (.ok b,s') := by
  rcases hm : m s with ⟨e | a,t⟩
  · rw [bind_error hm] at h
    cases h
  · rw [bind_ok hm] at h
    exact ⟨a,t,rfl,h⟩

variable {I : σ → Prop}

theorem bind_keeps (hm : I (m s).2)
    (hf : ∀ a t, I t → I (f a t).2) : I ((m >>= f) s).2 := by
  rcases hr : m s with ⟨e | a,t⟩
  · rw [hr] at hm
    rw [bind_error hr]
    exact hm
  · rw [hr] at hm
    rw [bind_ok hr]
    exact hf a t hm

/-- `for .. range`, up to the first error. -/
def each (body : α → Action F σ Unit) : List α → Action F σ Unit
  | [] => pure ()
  | a :: as => do
    body a
    each body as

variable {body : α → Action F σ Unit} {as : List α}

private theorem each_cons_ok
    (h : each body (a :: as) s = (.ok (),s')) : ∃ t, body a s = (.ok (),t) ∧ each body as t = (.ok (),s') := by
  obtain ⟨_,t,ha,hrest⟩ := bind_ok_inv h
  exact ⟨t,ha,hrest⟩

theorem each_keeps (h : ∀ a s, I s → I (body a s).2)
    (hI : I s) : I (each body as s).2 := by
  induction as generalizing s with
  | nil => exact hI
  | cons a as ih => exact bind_keeps (h a s hI) fun _ t ht => ih ht

theorem each_idle (h : ∀ a ∈ as, body a s = (.ok (),s)) :
    each body as s = (.ok (),s) := by
  induction as with
  | nil => rfl
  | cons a as ih =>
    show (body a >>= fun _ => each body as) s = _
    rw [bind_ok (h a List.mem_cons_self)]
    exact ih fun b hb => h b (List.mem_cons_of_mem _ hb)

/-- A loop over different elements that settles each of them. A turn finds its element as it was (`U`), leaves it
settled (`P`) and does not touch the others. -/
theorem each_settles {U P : α → σ → Prop}
    (hturn : ∀ a ∈ as, ∀ s t, U a s → body a s = (.ok (),t) → P a t ∧ ∀ b ≠ a, (U b s → U b t) ∧ (P b s → P b t))
    (nodup : as.Nodup) (hU : ∀ a ∈ as, U a s) (h : each body as s = (.ok (),s')) :
    (∀ a ∈ as, P a s') ∧ ∀ b ∉ as, (U b s → U b s') ∧ (P b s → P b s') := by
  induction as generalizing s with
  | nil =>
    cases h
    exact ⟨by simp,fun b _ => ⟨id,id⟩⟩
  | cons a as ih =>
    obtain ⟨t,ha,hrest⟩ := each_cons_ok h
    obtain ⟨fresh,nodup⟩ := List.nodup_cons.mp nodup
    obtain ⟨hPa,hothers⟩ := hturn a List.mem_cons_self s t (hU a List.mem_cons_self) ha
    have hne : ∀ b ∈ as, b ≠ a := fun b hb he => fresh (he ▸ hb)
    obtain ⟨hP,hkeep⟩ := ih (fun b hb => hturn b (List.mem_cons_of_mem _ hb)) nodup
      (fun b hb => (hothers b (hne b hb)).1 (hU b (List.mem_cons_of_mem _ hb))) hrest
    refine ⟨fun b hb => ?_,fun b hb => ?_⟩
    · rcases List.mem_cons.mp hb with rfl | hb
      · exact (hkeep b fresh).2 hPa
      · exact hP b hb
    · rw [List.mem_cons,not_or] at hb
      obtain ⟨hU',hP'⟩ := hothers b hb.1
      obtain ⟨hU'',hP''⟩ := hkeep b hb.2
      exact ⟨fun h => hU'' (hU' h),fun h => hP'' (hP' h)⟩

end Action
end Pggat.Base
