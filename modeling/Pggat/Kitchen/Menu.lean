import Pggat.Kitchen.Sections

/-! The recipes that the chef knows, in its two forms: the names and the slice that `Cook` goes through. -/
namespace Pggat.Kitchen
open Pggat.Base
namespace Chef
variable {s s' : Chef}

theorem mem_learned {r : RecipeId} : r ∈ s.learned ↔ ∃ name, s.byName.get name = some r := by
  simp only [learned,List.mem_map]
  constructor
  · rintro ⟨⟨name,r'⟩,he,rfl⟩
    exact ⟨name,(s.byName.mem_entries ..).mp he⟩
  · rintro ⟨name,hr⟩
    exact ⟨⟨name,r⟩,(s.byName.mem_entries ..).mpr hr,rfl⟩

/-- The slice holds each learned recipe once, and no two names are of one recipe. -/
structure Listed (s : Chef) : Prop where
  valid : s.arrays.Valid s.order
  nodup : (s.arrays.read s.order).Nodup
  listed : ∀ r, r ∈ s.arrays.read s.order ↔ r ∈ s.learned
  single : ∀ name name' r, s.byName.get name = some r → s.byName.get name' = some r → name = name'

/-- A slice that a `Cook` took from the chef. It is no longer than the chef's own in the same array. -/
structure Captured (s : Chef) (slice : Slice) : Prop where
  valid : s.arrays.Valid slice
  short : slice.array = s.order.array → slice.len ≤ s.order.len

/-- Names, slice and arrays are the same. -/
structure Shares (s s' : Chef) : Prop where
  byName : s'.byName = s.byName
  order : s'.order = s.order
  arrays : s'.arrays = s.arrays

/-- Nothing is forgotten, and what a `Cook` reads of its slice stays. -/
structure Stays (s s' : Chef) : Prop where
  learned : ∀ r ∈ s.learned, r ∈ s'.learned
  captured : ∀ slice, s.Captured slice → s'.Captured slice ∧ s'.arrays.read slice = s.arrays.read slice

theorem Shares.refl (s : Chef) : s.Shares s := ⟨rfl,rfl,rfl⟩

theorem Shares.learned (h : s.Shares s') : s'.learned = s.learned := by rw [Chef.learned,h.byName]; rfl

theorem Shares.stays (h : s.Shares s') : s.Stays s' where
  learned _ hr := h.learned.symm ▸ hr
  captured slice hs := by
    rw [h.arrays]
    exact ⟨⟨h.arrays.symm ▸ hs.valid,h.order.symm ▸ hs.short⟩,rfl⟩

theorem Dropped.shares {gone : List Conn} (h : s.Dropped s' gone) : s.Shares s' := ⟨h.byName,h.order,h.arrays⟩

namespace Listed

theorem initial : Listed {} where
  valid := ⟨Nat.zero_lt_one,Nat.le_refl 0⟩
  nodup := .nil
  listed _ := Iff.rfl
  single _ _ _ h := nomatch h

theorem shares (h : s.Listed) (hs : s.Shares s') : s'.Listed where
  valid := by rw [hs.arrays,hs.order]; exact h.valid
  nodup := by rw [hs.arrays,hs.order]; exact h.nodup
  listed r := by rw [hs.arrays,hs.order,hs.learned]; exact h.listed r
  single := hs.byName ▸ h.single

theorem captured (h : s.Listed) : s.Captured s.order := ⟨h.valid,fun _ => Nat.le_refl _⟩

theorem arrange (h : s.Listed) {l : List RecipeId} (hl : s.Arranges l) : (s.arrange l).Listed := by
  have length : l.length = s.order.len := hl.1.length_eq.trans h.valid.length_read
  have read : (s.arrange l).arrays.read s.order = l := Arrays.read_write length
  refine ⟨h.valid.write length,?_,fun r => ?_,h.single⟩
  · exact read.symm ▸ hl.1.nodup_iff.mpr h.nodup
  · exact read.symm ▸ hl.1.mem_iff.trans (h.listed r)

theorem forget_learned (h : s.Listed) (name : GoString) (r : RecipeId) :
    r ∈ (s.forget name).2.learned ↔ r ∈ s.learned ∧ s.byName.get name ≠ some r := by
  simp only [mem_learned,forget_byName]
  constructor
  · rintro ⟨name',hr⟩
    split at hr
    · cases hr
    · rename_i ne
      exact ⟨⟨name',hr⟩,fun hr' => ne (h.single _ _ r hr hr')⟩
  · rintro ⟨⟨name',hr⟩,ne⟩
    refine ⟨name',?_⟩
    have other : name' ≠ name := fun e => ne (e ▸ hr)
    rw [if_neg other,hr]

theorem forget (h : s.Listed) (name : GoString) : (s.forget name).2.Listed := by
  cases hr : s.byName.get name with
  | none =>
    rw [forget_unknown hr]
    exact h
  | some r =>
    obtain ⟨-,arrays,order⟩ := forget_known hr
    have read : (s.forget name).2.arrays.read (s.forget name).2.order = (s.arrays.read s.order).erase r := by
      rw [arrays,order]
      exact h.valid.read_remove r
    refine ⟨?_,read.symm ▸ h.nodup.erase r,fun r' => ?_,fun name₁ name₂ r' h₁ h₂ => ?_⟩
    · rw [arrays,order]
      exact h.valid.remove r
    · rw [read,h.nodup.mem_erase_iff,h.listed,h.forget_learned,hr,and_comm]
      simp [eq_comm]
    · rw [forget_byName] at h₁ h₂
      split at h₁
      · cases h₁
      · split at h₂
        · cases h₂
        · exact h.single _ _ r' h₁ h₂

theorem learn_learned (h : s.Listed) (name : GoString) (r : RecipeId) (added : List Conn) (spare : Nat)
    (r' : RecipeId) :
    r' ∈ (s.learn name r added spare).2.learned ↔ r' = r ∨ r' ∈ s.learned ∧ s.byName.get name ≠ some r' := by
  rw [← h.forget_learned name r',mem_learned,mem_learned]
  constructor
  · rintro ⟨name',hr⟩
    rw [learn_byName] at hr
    split at hr
    · exact .inl (Option.some.inj hr).symm
    · rename_i ne
      exact .inr ⟨name',by rw [forget_byName,if_neg ne,hr]⟩
  · rintro (rfl | ⟨name',hr⟩)
    · exact ⟨name,by rw [learn_byName,if_pos rfl]⟩
    · rw [forget_byName] at hr
      split at hr
      · cases hr
      · rename_i ne
        exact ⟨name',by rw [learn_byName,if_neg ne,hr]⟩

theorem learn (h : s.Listed) (name : GoString) {r : RecipeId} (fresh : r ∉ s.learned) (added : List Conn)
    (spare : Nat) : (s.learn name r added spare).2.Listed := by
  obtain ⟨-,arrays,order⟩ := s.learn_learned name r added spare
  have forgot := h.forget name
  have absent : r ∉ (s.forget name).2.learned := fun hr => fresh ((h.forget_learned name r).mp hr).1
  have read : (s.learn name r added spare).2.arrays.read (s.learn name r added spare).2.order =
      (s.forget name).2.arrays.read (s.forget name).2.order ++ [r] := by
    rw [arrays,order]
    exact forgot.valid.read_append ..
  refine ⟨?_,?_,fun r' => ?_,fun name₁ name₂ r' h₁ h₂ => ?_⟩
  · rw [arrays,order]
    exact forgot.valid.append ..
  · rw [read,← List.concat_eq_append]
    exact forgot.nodup.concat fun hr => absent ((forgot.listed r).mp hr)
  · rw [read,List.mem_append,List.mem_singleton,forgot.listed,h.learn_learned,h.forget_learned,or_comm]
  · rw [learn_byName] at h₁ h₂
    split at h₁
    · split at h₂
      · simp_all
      · cases h₁
        exact absurd (mem_learned.mpr ⟨_,h₂⟩) fresh
    · split at h₂
      · cases h₂
        exact absurd (mem_learned.mpr ⟨_,h₁⟩) fresh
      · exact h.single _ _ r' h₁ h₂

theorem stays_learn (h : s.Listed) {name : GoString} (new : s.byName.get name = none) (r : RecipeId)
    (added : List Conn) (spare : Nat) : s.Stays (s.learn name r added spare).2 := by
  obtain ⟨-,arrays,order⟩ := s.learn_learned name r added spare
  rw [forget_unknown new] at arrays order
  refine ⟨fun r' hr => (h.learn_learned ..).mpr (.inr ⟨hr,by simp [new]⟩),fun slice hs => ?_⟩
  refine ⟨⟨?_,?_⟩,?_⟩
  · rw [arrays]
    exact hs.valid.append_other ..
  · rw [order]
    exact Arrays.len_append_other hs.valid.made hs.short _ _
  · rw [arrays]
    exact Arrays.read_append_other hs.valid.made hs.short ..

end Listed

theorem close_learned (s : Chef) : s.close.learned = [] := by
  rw [learned,(s.close_dropped).byName]; rfl

theorem Listed.close (h : s.Listed) : s.close.Listed := by
  have dropped := s.close_dropped
  refine ⟨?_,?_,fun r => ?_,fun _ _ _ hr => ?_⟩
  · rw [dropped.arrays,dropped.order]
    exact h.valid.shorten 0 (Nat.zero_le _)
  · rw [dropped.order]
    simp [Arrays.read]
  · rw [dropped.order,close_learned]
    simp [Arrays.read]
  · rw [dropped.byName] at hr
    cases hr

end Chef
end Pggat.Kitchen
