import Mathlib.Data.List.AList

/-! Finite maps over Mathlib's association lists, read through `get`.
Ordered maps add the least and greatest entry and the first unused integer key. -/
namespace Pggat.Base

abbrev Map (K V : Type) := AList (fun _ : K => V)

theorem update_none {K V : Type} [DecidableEq K] {f : K → Option V} {k k' : K} {v : V}
    (h : Function.update f k none k' = some v) : k' ≠ k ∧ f k' = some v := by
  by_cases he : k' = k
  · simp [he] at h
  · exact ⟨he,by simpa [he] using h⟩

namespace Map
variable {K V : Type} [DecidableEq K]

def get (m : Map K V) (k : K) : Option V := m.lookup k

/-- Update the value at a key; an absent key stays absent. -/
def modify (m : Map K V) (k : K) (f : V → V) : Map K V :=
  match m.get k with
  | some v => m.insert k (f v)
  | none => m

@[simp, grind =] theorem get_empty (k : K) : get (∅ : Map K V) k = none := rfl

@[simp, grind =] theorem get_insert (m : Map K V) (k k' : K) (v : V) :
    get (m.insert k v) k' = if k' = k then some v else m.get k' := by
  unfold get
  split
  · subst k'; exact AList.lookup_insert m
  · rename_i h; exact AList.lookup_insert_ne h

@[simp, grind =] theorem get_erase (m : Map K V) (k k' : K) :
    get (m.erase k) k' = if k' = k then none else m.get k' := by
  unfold get
  split
  · subst k'; exact AList.lookup_erase k m
  · rename_i h; exact AList.lookup_erase_ne h

@[simp, grind =] theorem get_modify (m : Map K V) (k k' : K) (f : V → V) :
    (m.modify k f).get k' = if k' = k then (m.get k).map f else m.get k' := by
  unfold modify
  cases h : m.get k with
  | some v => simp
  | none =>
    by_cases hk : k' = k
    · subst k'; simp [h]
    · simp [hk]

theorem mem_iff (m : Map K V) (k : K) : k ∈ m ↔ ∃ v, m.get k = some v := by
  rw [← AList.lookup_isSome,Option.isSome_iff_exists]; rfl

theorem get_eq_none (m : Map K V) (k : K) : m.get k = none ↔ k ∉ m := AList.lookup_eq_none

theorem mem_entries (m : Map K V) (k : K) (v : V) :
    (⟨k,v⟩ : Sigma fun _ : K => V) ∈ m.entries ↔ m.get k = some v :=
  AList.mem_lookup_iff.symm

/-- The keys of a map in the order of an iteration over it. -/
structure Lists (m : Map K V) (l : List K) : Prop where
  nodup : l.Nodup
  mem : ∀ k, k ∈ l ↔ (m.get k).isSome = true

theorem lists_keys (m : Map K V) : m.Lists m.keys := ⟨m.nodupKeys,fun _ => AList.lookup_isSome.symm⟩

/-- The entries of a map in the order of an iteration over it. -/
structure Ranges (m : Map K V) (l : List (K × V)) : Prop where
  nodup : (l.map Prod.fst).Nodup
  mem : ∀ k v, (k,v) ∈ l ↔ m.get k = some v

theorem Ranges.eq_nil {m : Map K V} {l : List (K × V)} (h : m.Ranges l) (hm : ∀ k, m.get k = none) : l = [] := by
  refine List.eq_nil_iff_forall_not_mem.mpr fun e he => ?_
  have := (h.mem e.1 e.2).mp he
  rw [hm] at this
  cases this

theorem ranges_empty : Ranges (∅ : Map K V) [] := ⟨List.nodup_nil,fun _ _ => by simp⟩

theorem get_foldl_insert {l : List (K × V)} (h : (l.map Prod.fst).Nodup) (m : Map K V) (k : K) (v : V) :
    (l.foldl (fun m e => m.insert e.1 e.2) m).get k = some v ↔
      (k,v) ∈ l ∨ k ∉ l.map Prod.fst ∧ m.get k = some v := by
  induction l generalizing m with
  | nil => simp
  | cons e l ih =>
    rw [List.map_cons,List.nodup_cons] at h
    rw [List.foldl_cons,ih h.2,get_insert,List.mem_cons,List.map_cons,List.mem_cons,Prod.ext_iff]
    by_cases hk : k = e.1
    · simp only [hk,h.1,if_true,not_false_eq_true,true_and,Option.some.injEq,not_true,false_and,or_false,
        @eq_comm _ e.2]
      exact or_comm
    · simp [hk]

theorem Ranges.insert {m : Map K V} {l : List (K × V)} (h : m.Ranges l) {k : K} (hk : m.get k = none) (v : V) :
    Ranges (AList.insert k v m) ((k,v) :: l) := by
  have absent : ∀ v', (k,v') ∉ l := fun v' hmem => by
    rw [h.mem,hk] at hmem
    cases hmem
  refine ⟨List.nodup_cons.mpr ⟨fun hmem => ?_,h.nodup⟩,fun k' v' => ?_⟩
  · obtain ⟨e,he,rfl⟩ := List.mem_map.mp hmem
    exact absent e.2 he
  · rw [get_insert,List.mem_cons,h.mem]
    by_cases he : k' = k
    · subst he
      simp [hk,eq_comm]
    · simp [he]

section Ordered
variable [LE K] [Min K] [Max K] [Std.IsLinearOrder K] [Std.LawfulOrderMin K]

def minEntry (m : Map K V) : Option (K × V) := m.keys.min?.bind fun k => (m.get k).map (k,·)

def maxEntry (m : Map K V) : Option (K × V) := m.keys.max?.bind fun k => (m.get k).map (k,·)

omit [LE K] [Max K] [Std.IsLinearOrder K] [Std.LawfulOrderMin K] in
private theorem minEntry_some {m : Map K V} {k : K} {v : V} (h : m.minEntry = some (k,v)) :
    m.keys.min? = some k ∧ m.get k = some v := by
  obtain ⟨k',hm,hk⟩ := Option.bind_eq_some_iff.mp h
  obtain ⟨v',hv,he⟩ := Option.map_eq_some_iff.mp hk
  cases he
  exact ⟨hm,hv⟩

omit [LE K] [Max K] [Std.IsLinearOrder K] [Std.LawfulOrderMin K] in
theorem get_minEntry {m : Map K V} {k : K} {v : V} (h : m.minEntry = some (k,v)) : m.get k = some v :=
  (minEntry_some h).2

omit [Max K] in
theorem minEntry_le {m : Map K V} {k : K} {v : V} (h : m.minEntry = some (k,v)) {k' : K} (hk : k' ∈ m) :
    k ≤ k' :=
  (List.min?_eq_some_iff.mp (minEntry_some h).1).2 k' hk

omit [Max K] in
theorem minEntry_eq_none {m : Map K V} : m.minEntry = none ↔ ∀ k, m.get k = none := by
  constructor
  · intro h k
    by_contra hk
    obtain ⟨v,hv⟩ := Option.ne_none_iff_exists'.mp hk
    have hmem : k ∈ m.keys := (mem_iff m k).mpr ⟨v,hv⟩
    obtain ⟨k₀,hm⟩ := Option.ne_none_iff_exists'.mp fun he =>
      List.ne_nil_of_mem hmem (List.min?_eq_none_iff.mp he)
    obtain ⟨v₀,hv₀⟩ := (mem_iff m k₀).mp (List.min?_eq_some_iff.mp hm).1
    simp [minEntry,hm,hv₀] at h
  · intro h
    cases hm : m.minEntry with
    | none => rfl
    | some e => exact absurd (get_minEntry hm) (by simp [h e.1])

omit [Min K] [Std.LawfulOrderMin K] in
theorem le_maxEntry [Std.LawfulOrderMax K] {m : Map K V} {k : K} (hk : k ∈ m) :
    ∃ e, m.maxEntry = some e ∧ k ≤ e.1 := by
  obtain ⟨k₀,hm⟩ := Option.ne_none_iff_exists'.mp fun he =>
    List.ne_nil_of_mem (show k ∈ m.keys from hk) (List.max?_eq_none_iff.mp he)
  obtain ⟨hmem,hmax⟩ := List.max?_eq_some_iff.mp hm
  obtain ⟨v₀,hv₀⟩ := (mem_iff m k₀).mp hmem
  exact ⟨(k₀,v₀),by simp [maxEntry,hm,hv₀],hmax k hk⟩

end Ordered

section Inverse
variable [DecidableEq V] {f : Map K V} {g : Map V K} {k : K} {v : V}

/-- Two maps that lead back and forth. -/
def Inverse (f : Map K V) (g : Map V K) : Prop := ∀ k v, f.get k = some v ↔ g.get v = some k

theorem Inverse.insert (h : Inverse f g) (hk : f.get k = none) (hv : g.get v = none) :
    Inverse (AList.insert k v f) (AList.insert v k g) := by
  intro k' v'
  rw [get_insert,get_insert]
  by_cases ek : k' = k
  · subst k'
    have absent : g.get v' ≠ some k := fun hg => by simp [(h k v').mpr hg] at hk
    by_cases ev : v' = v
    · simp [ev]
    · simp [ev,absent,Ne.symm ev]
  · by_cases ev : v' = v
    · subst v'
      have absent : f.get k' ≠ some v := fun hf => by simp [(h k' v).mp hf] at hv
      simp [ek,absent,Ne.symm ek]
    · simpa [ek,ev] using h k' v'

theorem Inverse.erase (h : Inverse f g) (hk : ∀ v', f.get k = some v' → v' = v) (hv : ∀ k', g.get v = some k' → k' = k) :
    Inverse (AList.erase k f) (AList.erase v g) := by
  intro k' v'
  rw [get_erase,get_erase]
  by_cases ek : k' = k
  · subst k'
    by_cases ev : v' = v
    · simp [ev]
    · have absent : g.get v' ≠ some k := fun hg => ev (hk v' ((h k v').mpr hg))
      simp [ev,absent]
  · by_cases ev : v' = v
    · subst v'
      have absent : f.get k' ≠ some v := fun hf => ek (hv k' ((h k' v).mp hf))
      simp [ek,absent]
    · simpa [ek,ev] using h k' v'

end Inverse

section FirstFree
variable {V : Type}

/-- Count up from a key until one is unused, for at most `n` steps. -/
def probe (m : Map Int V) : Nat → Int → Int
  | 0, k => k
  | n+1, k => if (m.get k).isSome then probe m n (k + 1) else k

/-- The first unused key from `k` on; a map of `n` entries leaves one free within `n` steps. -/
def firstFree (m : Map Int V) (k : Int) : Int := m.probe m.entries.length k

private theorem probe_free (m : Map Int V) (n : Nat) (k : Int)
    (hn : (m.keys.filter (k ≤ ·)).length ≤ n) : m.get (m.probe n k) = none := by
  induction n generalizing k with
  | zero =>
    rw [probe,get_eq_none]
    intro hk
    have hf : k ∈ m.keys.filter (k ≤ ·) := List.mem_filter.mpr ⟨hk,by simp⟩
    have := List.length_pos_of_mem hf
    omega
  | succ n ih =>
    rw [probe]
    split
    · rename_i hk
      apply ih
      have hmem : k ∈ m.keys := AList.lookup_isSome.mp hk
      have he : m.keys.filter (k + 1 ≤ ·) = (m.keys.filter (k ≤ ·)).filter (k < ·) := by
        rw [List.filter_filter]
        apply List.filter_congr
        intro x _
        simp only [← Bool.decide_and,decide_eq_decide]
        omega
      have hlt : (m.keys.filter (k + 1 ≤ ·)).length < (m.keys.filter (k ≤ ·)).length := by
        rw [he]
        apply lt_of_le_of_ne (List.length_filter_le _ _)
        intro hlen
        have := List.length_filter_eq_length_iff.mp hlen k (List.mem_filter.mpr ⟨hmem,by simp⟩)
        simp at this
      omega
    · rename_i hk
      simpa using hk

theorem get_firstFree (m : Map Int V) (k : Int) : m.get (m.firstFree k) = none := by
  apply probe_free
  calc (m.keys.filter (k ≤ ·)).length ≤ m.keys.length := List.length_filter_le _ _
    _ = m.entries.length := List.length_map ..

theorem le_firstFree (m : Map Int V) (k : Int) : k ≤ m.firstFree k := by
  have hprobe : ∀ n k, k ≤ m.probe n k := by
    intro n
    induction n with
    | zero => exact fun k => Int.le_refl k
    | succ n ih =>
      intro k
      rw [probe]
      split
      · exact Int.le_trans (by omega) (ih (k + 1))
      · exact Int.le_refl k
  exact hprobe _ k

end FirstFree
end Map
end Pggat.Base
